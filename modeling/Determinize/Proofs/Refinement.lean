import Determinize.Proofs.Image
import Determinize.Proofs.Merging
import Mathlib.Data.Finset.Card
import Mathlib.Data.List.Basic
import Mathlib.Data.Nat.Find
import Mathlib.Logic.Function.Iterate

/-!
Partition refinement. Every partition that it goes through divides the states by a key, and is divided
in the same way by its own class numbers (`Numbered`). A round divides by finer keys, so it keeps the
partition if it makes no new class (`Numbered.split_eq_self`), which happens before there have been as many
rounds as states (`exists_last_round`). The class numbers then tell two states apart exactly when some
word does (`exists_classes`).
-/

namespace Determinize

theorem groupBy_eq {α κ : Type} [DecidableEq κ] {key : α → κ} {l : List α} :
    groupBy key l = (UniqueList.collapse (l.map key)).map fun k => l.filter fun a => decide (key a = k) := by
  have keys : (l.map fun a => (key a, a)).map (fun e => e.1) = l.map key := by
    rw [List.map_map]
    rfl
  rw [groupBy, keys]
  refine List.map_congr_left fun k _ => ?_
  rw [List.filter_map, List.map_map]
  exact List.map_id'' (fun _ => rfl) _

theorem groupBy_map {α β κ : Type} [DecidableEq κ] {key : β → κ} {f : α → β} {l : List α} :
    groupBy key (l.map f) = (groupBy (key ∘ f) l).map (List.map f) := by
  rw [groupBy_eq, groupBy_eq, List.map_map, List.map_map]
  refine List.map_congr_left fun k _ => ?_
  rw [List.filter_map]
  rfl

namespace Reduction

/-- Two states are in one class. -/
def Together (p : Partition) (s t : State) : Prop := ∃ members ∈ p, s ∈ members ∧ t ∈ members

section Divide

variable {κ : Type} [DecidableEq κ] {key : State → κ} {states : List State} {s t : State}

/-- The states of a list in classes of equal keys. -/
def divide (key : State → κ) (states : List State) : Partition :=
  (UniqueList.collapse (states.map key)).map fun k => states.filter fun s => decide (key s = k)

theorem map_groupBy {row : State → Row} {key : Row → κ} (named : ∀ s, (row s).state = s) :
    (groupBy key (states.map row)).map (fun rows => rows.map Row.state) =
      divide (key ∘ row) states := by
  have back : (fun rows => rows.map Row.state) ∘ List.map row = id := funext fun states => by
    rw [Function.comp_apply, List.map_map]
    exact List.map_id'' named states
  rw [groupBy_map, List.map_map, back, List.map_id]
  exact groupBy_eq

theorem classOf_divide (member : s ∈ states) :
    classOf (divide key states) s = (UniqueList.collapse (states.map key)).idxOf (key s) := by
  rw [classOf, divide, List.findIdx_map, List.idxOf]
  refine congrArg (fun p => List.findIdx p _) (funext fun k => ?_)
  rw [Function.comp_apply, Bool.eq_iff_iff, decide_eq_true_iff, List.mem_filter, decide_eq_true_iff,
    beq_iff_eq, and_iff_right member]
  exact eq_comm

theorem classOf_eq_iff (first : s ∈ states) (second : t ∈ states) :
    classOf (divide key states) s = classOf (divide key states) t ↔ key s = key t := by
  have listed : ∀ s ∈ states, key s ∈ UniqueList.collapse (states.map key) :=
    fun s member => UniqueList.mem_collapse.mpr (List.mem_map_of_mem member)
  rw [classOf_divide first, classOf_divide second, List.idxOf_inj (listed s first)]

theorem divide_eq_collapse :
    divide key states =
      UniqueList.collapse (states.map fun s => states.filter fun t => decide (key t = key s)) := by
  have apart : ∀ k ∈ states.map key, ∀ l ∈ states.map key,
      (states.filter fun t => decide (key t = k)) = states.filter (fun t => decide (key t = l)) →
        k = l := by
    intro k listed l _ same
    obtain ⟨s, member, rfl⟩ := List.mem_map.mp listed
    have inside : s ∈ states.filter fun t => decide (key t = key s) :=
      List.mem_filter.mpr ⟨member, decide_eq_true rfl⟩
    rw [same] at inside
    exact of_decide_eq_true (List.mem_filter.mp inside).2
  rw [divide, ← UniqueList.collapse_map apart, List.map_map]
  rfl

/-- Only which states have equal keys matters, not what the keys are. -/
theorem divide_congr {μ : Type} [DecidableEq μ] {other : State → μ}
    (same : ∀ s ∈ states, ∀ t ∈ states, key s = key t ↔ other s = other t) :
    divide key states = divide other states := by
  rw [divide_eq_collapse, divide_eq_collapse]
  refine congrArg _ (List.map_congr_left fun s first => List.filter_congr fun t second => ?_)
  exact decide_eq_decide.mpr (same t second s first)

theorem divide_classOf : divide (classOf (divide key states)) states = divide key states :=
  divide_congr fun _ first _ second => classOf_eq_iff first second

theorem length_divide :
    (divide key states).length = (states.toFinset.image key).card := by
  rw [divide, List.length_map, ← List.toFinset_card_of_nodup (UniqueList.nodup_collapse _)]
  refine congrArg _ (Finset.ext fun k => ?_)
  rw [List.mem_toFinset, UniqueList.mem_collapse, List.mem_map, Finset.mem_image]
  simp only [List.mem_toFinset]

theorem mem_divide {members : List State} :
    members ∈ divide key states ↔
      ∃ s ∈ states, members = states.filter fun t => decide (key t = key s) := by
  simp only [divide, List.mem_map, UniqueList.mem_collapse]
  constructor
  · rintro ⟨_, ⟨s, member, rfl⟩, rfl⟩
    exact ⟨s, member, rfl⟩
  · rintro ⟨s, member, rfl⟩
    exact ⟨_, ⟨s, member, rfl⟩, rfl⟩

theorem exists_mem_divide (member : s ∈ states) : ∃ members ∈ divide key states, s ∈ members :=
  ⟨_, mem_divide.mpr ⟨s, member, rfl⟩, List.mem_filter.mpr ⟨member, decide_eq_true rfl⟩⟩

theorem together_divide_iff :
    Together (divide key states) s t ↔ s ∈ states ∧ t ∈ states ∧ key s = key t := by
  constructor
  · rintro ⟨members, listed, first, second⟩
    obtain ⟨u, _, rfl⟩ := mem_divide.mp listed
    obtain ⟨here, same⟩ := List.mem_filter.mp first
    obtain ⟨here', same'⟩ := List.mem_filter.mp second
    exact ⟨here, here', (of_decide_eq_true same).trans (of_decide_eq_true same').symm⟩
  · rintro ⟨first, second, same⟩
    refine ⟨_, mem_divide.mpr ⟨t, second, rfl⟩, ?_, ?_⟩
    · exact List.mem_filter.mpr ⟨first, decide_eq_true same⟩
    · exact List.mem_filter.mpr ⟨second, decide_eq_true rfl⟩

theorem pairwise_disjoint_divide : (divide key states).Pairwise List.Disjoint := by
  refine List.pairwise_map.mpr ((UniqueList.nodup_collapse _).imp fun {k l} different => ?_)
  intro s first second
  have same := of_decide_eq_true (List.mem_filter.mp first).2
  exact different (same.symm.trans (of_decide_eq_true (List.mem_filter.mp second).2))

section Finer

variable {μ : Type} [DecidableEq μ] {finer : State → μ} {f : μ → κ}
  (coarser : ∀ s, key s = f (finer s))

include coarser

theorem image_eq_image_image :
    states.toFinset.image key = (states.toFinset.image finer).image f := by
  rw [Finset.image_image]
  exact congrArg (fun g => Finset.image g states.toFinset) (funext coarser)

theorem length_divide_le : (divide key states).length ≤ (divide finer states).length := by
  rw [length_divide, length_divide, image_eq_image_image coarser]
  exact Finset.card_image_le

/-- A finer key that makes no more classes makes the same ones. -/
theorem finer_eq_of_length_eq (still : (divide finer states).length = (divide key states).length)
    (first : s ∈ states) (second : t ∈ states) (same : key s = key t) : finer s = finer t := by
  rw [length_divide, length_divide, image_eq_image_image coarser] at still
  have injective := Finset.card_image_iff.mp still.symm
  have among : ∀ s ∈ states, finer s ∈ (states.toFinset.image finer : Finset μ) :=
    fun s member => Finset.mem_image_of_mem finer (List.mem_toFinset.mpr member)
  rw [coarser, coarser] at same
  exact injective (among s first) (among t second) same

end Finer

end Divide

/-! ### Rounds of refinement -/

variable {a : Automaton} {p : Partition} {s t : State}

theorem rows_start : (start a).rows = a.states.toList.map (rowOf a id) := by
  simp [start, rowOf, Row.movesOn]

theorem finality_start : (start a).finality = divide a.isFinal a.states.toList := by
  rw [finality, rows_start, map_groupBy fun _ => rfl]
  rfl

/-- What a round of refinement divides the states by. -/
def roundKey (a : Automaton) (p : Partition) : State → Nat × List (String × Nat) :=
  signature p ∘ rowOf a id

/-- The old class is part of the key, so a round only divides classes. -/
theorem fst_roundKey : (roundKey a p s).1 = classOf p s := rfl

theorem split_start : (start a).split p = divide (roundKey a p) a.states.toList := by
  rw [split, rows_start, map_groupBy fun _ => rfl, roundKey]

theorem roundKey_eq_iff (declared : a.Declared) :
    roundKey a p s = roundKey a p t ↔ classOf p s = classOf p t ∧
      ∀ x, (a.nextState? s (.letter x)).map (classOf p) =
        (a.nextState? t (.letter x)).map (classOf p) := by
  have shape : ∀ s, roundKey a p s = (classOf p s,
      Row.movesOn a.alphabet.toList fun x => (a.nextState? s (.letter x)).map (classOf p)) := by
    intro s
    refine Prod.ext rfl ((Row.map_movesOn (classOf p)).trans ?_)
    simp only [Option.map_id, id]
  have outside : ∀ s x, x ∉ a.alphabet.toList →
      (a.nextState? s (.letter x)).map (classOf p) = none := by
    intro s x absent
    rw [Option.map_eq_none_iff]
    exact Automaton.nextState?_eq_none declared absent
  rw [shape, shape, Prod.mk.injEq, Row.movesOn_eq_iff (outside s) (outside t)]

/-! ### Class numbers -/

/-- Dividing the declared states by their class numbers gives the partition back. -/
def Numbered (a : Automaton) (p : Partition) : Prop := divide (classOf p) a.states.toList = p

theorem numbered_finality : Numbered a (start a).finality := by
  rw [finality_start]
  exact divide_classOf

theorem numbered_split : Numbered a ((start a).split p) := by
  rw [split_start]
  exact divide_classOf

theorem classOf_split_eq_iff (declared : a.Declared) (first : s ∈ a.states) (second : t ∈ a.states) :
    classOf ((start a).split p) s = classOf ((start a).split p) t ↔
      classOf p s = classOf p t ∧
        ∀ x, (a.nextState? s (.letter x)).map (classOf p) =
          (a.nextState? t (.letter x)).map (classOf p) := by
  rw [split_start, classOf_eq_iff first second, roundKey_eq_iff declared]

namespace Numbered

variable (numbered : Numbered a p)

include numbered

theorem together_iff :
    Together p s t ↔ s ∈ a.states ∧ t ∈ a.states ∧ classOf p s = classOf p t := by
  have divided : Together (divide (classOf p) a.states.toList) s t ↔
      s ∈ a.states ∧ t ∈ a.states ∧ classOf p s = classOf p t := together_divide_iff
  rwa [numbered] at divided

theorem length_le_size : p.length ≤ a.states.size := by
  rw [← numbered, length_divide]
  exact Finset.card_image_le.trans (List.toFinset_card_le _)

theorem length_le_split : p.length ≤ ((start a).split p).length := by
  have more : (divide (classOf p) a.states.toList).length ≤
      (divide (roundKey a p) a.states.toList).length := length_divide_le fun _ => fst_roundKey.symm
  rwa [numbered, ← split_start] at more

/-- A round that makes no new class divides no class. -/
theorem split_eq_self (still : ((start a).split p).length = p.length) : (start a).split p = p := by
  have lengths : (divide (roundKey a p) a.states.toList).length =
      (divide (classOf p) a.states.toList).length := by
    rw [numbered, ← split_start, still]
  calc (start a).split p = divide (roundKey a p) a.states.toList := split_start
    _ = divide (classOf p) a.states.toList := divide_congr fun _ first _ second =>
        ⟨congrArg Prod.fst,
          finer_eq_of_length_eq (fun _ => fst_roundKey.symm) lengths first second⟩
    _ = p := numbered

end Numbered

/-! ### The last round -/

/-- The partition after a number of rounds. -/
def rounds (a : Automaton) (i : Nat) : Partition := (start a).split^[i] (start a).finality

theorem rounds_succ {i : Nat} : rounds a (i + 1) = (start a).split (rounds a i) :=
  Function.iterate_succ_apply' _ _ _

theorem numbered_rounds {i : Nat} : Numbered a (rounds a i) := by
  cases i with
  | zero => exact numbered_finality
  | succ i =>
    rw [rounds_succ]
    exact numbered_split

/-- Dividing ends with the first round that makes as many classes as there were, if it is not stopped
before. -/
theorem refine_eq_iterate {m : Reduction} {k limit : Nat} (enough : k < limit)
    (turns : ∀ i < k, (m.split^[i + 1] p).length ≠ (m.split^[i] p).length)
    (stands : (m.split^[k + 1] p).length = (m.split^[k] p).length) :
    m.refine limit p = m.split^[k + 1] p := by
  induction limit generalizing k p with
  | zero => exact absurd enough (Nat.not_lt_zero k)
  | succ limit ih =>
    rw [refine]
    cases k with
    | zero => exact if_pos stands
    | succ k =>
      have first : (m.split p).length ≠ p.length := turns 0 (Nat.succ_pos k)
      rw [if_neg first]
      exact ih (Nat.lt_of_succ_lt_succ enough)
        (fun i small => turns (i + 1) (Nat.succ_lt_succ small)) stands

/-- As long as every round makes a new class there are more classes than there were rounds. -/
theorem lt_length_rounds (declared : a.Declared) {i : Nat}
    (turns : ∀ j < i, (rounds a (j + 1)).length ≠ (rounds a j).length) : i < (rounds a i).length := by
  induction i with
  | zero =>
    -- the initial state is in some class
    rw [rounds, Function.iterate_zero_apply, finality_start]
    exact List.length_pos_of_mem (mem_divide.mpr ⟨a.initial, declared.initial, rfl⟩)
  | succ i ih =>
    have before := ih fun j small => turns j (Nat.lt_succ_of_lt small)
    have more : (rounds a i).length ≤ (rounds a (i + 1)).length := by
      rw [rounds_succ]
      exact numbered_rounds.length_le_split
    have grown := turns i (Nat.lt_succ_self i)
    omega

/-- There are no more classes than states, so some round is the last. -/
theorem exists_last_round (declared : a.Declared) :
    ∃ k < a.states.size, (∀ i < k, (rounds a (i + 1)).length ≠ (rounds a i).length) ∧
      (rounds a (k + 1)).length = (rounds a k).length := by
  have stands : ∃ k, (rounds a (k + 1)).length = (rounds a k).length := by
    by_contra never
    have more : a.states.size < (rounds a a.states.size).length :=
      lt_length_rounds declared fun j _ same => never ⟨j, same⟩
    exact absurd numbered_rounds.length_le_size (Nat.not_le_of_lt more)
  have turns := fun i (small : i < Nat.find stands) => Nat.find_min stands small
  refine ⟨Nat.find stands, ?_, turns, Nat.find_spec stands⟩
  exact (lt_length_rounds declared turns).trans_le numbered_rounds.length_le_size

/-- There are as many rows as states, so the limit is high enough. -/
theorem classes_eq_rounds {k : Nat} (small : k < a.states.size)
    (turns : ∀ i < k, (rounds a (i + 1)).length ≠ (rounds a i).length)
    (stands : (rounds a (k + 1)).length = (rounds a k).length) :
    (start a).classes = rounds a (k + 1) := by
  have rows : (start a).rows.length = a.states.size := by
    rw [rows_start, List.length_map]
    rfl
  rw [classes, rows]
  exact refine_eq_iterate small turns stands

theorem exists_classes_eq_rounds (declared : a.Declared) :
    ∃ k, (start a).classes = rounds a k ∧ (start a).split (rounds a k) = rounds a k := by
  obtain ⟨k, small, turns, stands⟩ := exists_last_round declared
  have still : rounds a (k + 1) = rounds a k := by
    rw [rounds_succ] at stands ⊢
    exact numbered_rounds.split_eq_self stands
  exact ⟨k, (classes_eq_rounds small turns stands).trans still, by rw [← rounds_succ, still]⟩

/-! ### Words -/

/-- A key that tells final states from the others, and no two states that no word tells apart. -/
structure Telling {κ : Type} (a : Automaton) (key : State → κ) : Prop where
  final : ∀ s ∈ a.states, ∀ t ∈ a.states, key s = key t → a.isFinal s = a.isFinal t
  outcome : ∀ s ∈ a.states, ∀ t ∈ a.states, a.chart.outcome? s = a.chart.outcome? t → key s = key t

/-- A key that tells two states apart when some word does, and only then. -/
def Separates {κ : Type} (a : Automaton) (key : State → κ) : Prop :=
  ∀ s ∈ a.states, ∀ t ∈ a.states, key s = key t ↔ a.chart.outcome? s = a.chart.outcome? t

/-- The members of a class are all final or all not, and on every letter either none of them has a next
state or all have, in one class. -/
structure Stable (a : Automaton) (p : Partition) : Prop where
  final : ∀ s t, Together p s t → a.isFinal s = a.isFinal t
  next : ∀ s t, Together p s t → ∀ x,
    Option.Rel (Together p) (a.nextState? s (.letter x)) (a.nextState? t (.letter x))

theorem telling_finality : Telling a (classOf (start a).finality) := by
  rw [finality_start]
  refine ⟨fun s first t second same => ?_, fun s first t second same => ?_⟩
  · exact (classOf_eq_iff first second).mp same
  · exact (classOf_eq_iff first second).mpr (Chart.isFinal_eq same)

namespace Telling

variable (telling : Telling a (classOf p))

include telling

theorem split (declared : a.Declared) : Telling a (classOf ((start a).split p)) := by
  refine ⟨fun s first t second same => ?_, fun s first t second same => ?_⟩
  · have before := ((classOf_split_eq_iff declared first second).mp same).1
    exact telling.final s first t second before
  · refine (classOf_split_eq_iff declared first second).mpr ⟨?_, fun x => ?_⟩
    · exact telling.outcome s first t second same
    · refine Chart.map_eq_of_rel (Chart.next?_rel same x) fun u v left right ends => ?_
      exact telling.outcome u (Automaton.mem_states_of_nextState? declared left) v
        (Automaton.mem_states_of_nextState? declared right) ends

theorem stable (declared : a.Declared) (numbered : Numbered a p) (still : (start a).split p = p) :
    Stable a p := by
  refine ⟨fun s t together => ?_, fun s t together x => ?_⟩
  · obtain ⟨first, second, same⟩ := numbered.together_iff.mp together
    exact telling.final s first t second same
  · obtain ⟨first, second, same⟩ := numbered.together_iff.mp together
    rw [← still, classOf_split_eq_iff declared first second] at same
    apply Chart.rel_of_map_eq (same.2 x)
    intro u v left right classes
    exact numbered.together_iff.mpr ⟨Automaton.mem_states_of_nextState? declared left,
      Automaton.mem_states_of_nextState? declared right, classes⟩

/-- Walks on a word from two states of a class stay together, so they end alike. -/
theorem separates (numbered : Numbered a p) (stable : Stable a p) : Separates a (classOf p) := by
  intro s first t second
  refine ⟨fun same => ?_, telling.outcome s first t second⟩
  have start : Together p s t := numbered.together_iff.mpr ⟨first, second, same⟩
  exact Chart.outcome?_eq_of_kept stable.final (fun u v x kept => stable.next u v kept x) start

end Telling

theorem telling_rounds (declared : a.Declared) {i : Nat} : Telling a (classOf (rounds a i)) := by
  induction i with
  | zero => exact telling_finality
  | succ i ih =>
    rw [rounds_succ]
    exact ih.split declared

/-- The classes are those of the states that no word tells apart. -/
theorem exists_classes (declared : a.Declared) :
    ∃ (κ : Type) (_ : DecidableEq κ) (key : State → κ),
      (start a).classes = divide key a.states.toList ∧ Separates a key := by
  obtain ⟨k, classes, still⟩ := exists_classes_eq_rounds declared
  have numbered : Numbered a (rounds a k) := numbered_rounds
  have telling : Telling a (classOf (rounds a k)) := telling_rounds declared
  refine ⟨Nat, inferInstance, classOf (rounds a k), classes.trans numbered.symm, ?_⟩
  exact telling.separates numbered (telling.stable declared numbered still)

end Reduction

end Determinize
