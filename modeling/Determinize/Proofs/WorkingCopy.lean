import Determinize.Proofs.Strength

/-!
The working copy of merging between any two removals. A removal that spares the initial state and the sink
leaves no move to a state that is gone and takes no letter from a state that stays, and the state that it
removes is not final and has an empty row (`Intact.remove`). Sweeps and the merging of classes make only
such removals, one after the other (`Reached.sweep`, `Reached.refine?`), so the copy is intact after each
of them. What is written out of an intact copy has no move to or from a removed state
(`Intact.emitted`).
-/

namespace Determinize

namespace WorkingCopy

variable {a : Automaton} {w : WorkingCopy} {state : WorkingCopy × Nat} {merges : List (Nat × Nat)}
  {merged total limit i x d removed kept : Nat} {js members : List Nat} {row : List (Option Nat)}
  {s : State} {symbol : Symbol} {t u : Transition} {y : String}

/-- What holds of the copy between any two removals: the states that are there are those not removed, among
them the initial state and the sink, and all moves are between them. Those that stay are final, and have
moves on letters, as at the start; those that were removed are not final and have empty rows. -/
structure Intact (a : Automaton) (w : WorkingCopy) : Prop where
  alive : w.alive.length = a.states.size
  finals : w.finals.length = a.states.size
  rows : w.rows.length = a.states.size
  width : ∀ row ∈ w.rows, row.length = a.alphabet.size
  isAlive_iff : ∀ i, w.isAlive i = true ↔ i < a.states.size ∧ i ∉ w.merges.map Prod.fst
  destinations : ∀ i row, w.isAlive i = true → w.rows[i]? = some row →
    ∀ d, some d ∈ row → w.isAlive d = true
  removed : ∀ i < a.states.size, w.isAlive i = false →
    w.finals[i]? = some false ∧ w.rows[i]? = some (List.replicate a.alphabet.size none)
  initial : w.initial = a.states.index? a.initial ∧ w.keeps a a.initial = true
  dead : w.dead = a.states.index? .dead ∧ (.dead ∈ a.states → w.keeps a .dead = true)
  final : ∀ i, w.isAlive i = true → w.finals[i]? = (start a).finals[i]?
  letters : ∀ i, w.isAlive i = true →
    w.rows[i]?.map (List.map Option.isSome) = (start a).rows[i]?.map (List.map Option.isSome)

/-! ### Removals one by one -/

theorem isAlive_remove_iff : (w.remove removed kept).isAlive i = true ↔ w.isAlive i = true ∧ i ≠ removed := by
  show (w.alive.set removed false).getD i false = true ↔ _
  rw [List.getD_eq_getElem?_getD, List.getElem?_set, isAlive, List.getD_eq_getElem?_getD]
  by_cases same : removed = i
  · rw [if_pos same]
    split <;> simp [same]
  · simp [same, Ne.symm same]

theorem keeps_remove_iff : (w.remove removed kept).keeps a s = true ↔
    w.keeps a s = true ∧ some removed ≠ a.states.index? s := by
  rw [keeps, keeps]
  cases a.states.index? s with
  | none => simp
  | some i =>
    rw [Option.any_some, Option.any_some, isAlive_remove_iff,
      (Option.some_injective Nat).ne_iff, ne_comm]

theorem isSome_redirect {dest : Option Nat} : (redirect removed kept dest).isSome = dest.isSome := by
  unfold redirect
  split
  · rename_i same
    rw [same]
    rfl
  · rfl

theorem redirect_none : redirect removed kept none = none := rfl

theorem rows_remove_self : (w.remove removed kept).rows[removed]? =
    w.rows[removed]?.map fun row => List.replicate row.length none := by
  show ((w.rows.modify removed fun row => row.map fun _ => none).map
    (List.map (redirect removed kept)))[removed]? = _
  rw [List.getElem?_map, List.getElem?_modify_eq, Option.map_eq_map, Option.map_map]
  refine congrArg (fun f => Option.map f _) (funext fun row => ?_)
  rw [Function.comp_apply, List.map_const', List.map_replicate, redirect_none]

theorem rows_remove (stays : i ≠ removed) : (w.remove removed kept).rows[i]? =
    w.rows[i]?.map (List.map (redirect removed kept)) := by
  show ((w.rows.modify removed fun row => row.map fun _ => none).map
    (List.map (redirect removed kept)))[i]? = _
  rw [List.getElem?_map, List.getElem?_modify_ne _ _ (Ne.symm stays)]

theorem finals_remove (stays : i ≠ removed) : (w.remove removed kept).finals[i]? = w.finals[i]? :=
  List.getElem?_set_ne (Ne.symm stays)

theorem isAlive_start : (start a).isAlive i = true ↔ i < a.states.size := by
  show (List.replicate a.states.size true).getD i false = true ↔ _
  rw [List.getD_eq_getElem?_getD, List.getElem?_replicate]
  split <;> simp [*]

theorem Intact.start (declared : a.Declared) : Intact a (start a) := by
  have copied := Reduction.start_eq_copy declared
  have rows : (WorkingCopy.start a).rows =
      a.states.toList.map (Reduction.copyRow a (Reduction.start a).next?) := congrArg WorkingCopy.rows copied
  have inside : ∀ s ∈ a.states, (WorkingCopy.start a).keeps a s = true := fun s present => by
    rw [keeps, Automaton.index?_states present]
    exact isAlive_start.mpr (List.idxOf_lt_length_of_mem present)
  refine ⟨List.length_replicate, ?_, ?_, fun row listed => ?_, fun i => ?_, fun i row _ found d leads => ?_,
    fun i small gone => ?_, ⟨rfl, inside _ declared.initial⟩, ⟨rfl, inside _⟩, fun _ _ => rfl,
    fun _ _ => rfl⟩
  · exact (congrArg (List.length ∘ WorkingCopy.finals) copied).trans (List.length_map _)
  · exact (congrArg List.length rows).trans (List.length_map _)
  · rw [rows] at listed
    obtain ⟨s, _, rfl⟩ := List.mem_map.mp listed
    exact List.length_map _
  · rw [isAlive_start]
    exact (and_iff_left List.not_mem_nil).symm
  · rw [rows] at found
    obtain ⟨s, _, rfl⟩ := List.mem_map.mp (List.mem_of_getElem? found)
    obtain ⟨y, _, place⟩ := List.mem_map.mp leads
    obtain ⟨t, next, rfl⟩ := Option.map_eq_some_iff.mp place
    have present := Reduction.Reachable.start.mem_states_of_next? declared next
    exact isAlive_start.mpr (List.idxOf_lt_length_of_mem present)
  · rw [isAlive_start.mpr small] at gone
    cases gone

/-- The row of a state that is removed is there and becomes empty. -/
theorem Intact.rows_remove_self (intact : Intact a w) (live : w.isAlive removed = true) :
    (w.remove removed kept).rows[removed]? = some (List.replicate a.alphabet.size none) := by
  have small := ((intact.isAlive_iff removed).mp live).1
  have found : w.rows[removed]? = some _ := List.getElem?_eq_getElem (intact.rows ▸ small)
  rw [WorkingCopy.rows_remove_self, found, Option.map_some, intact.width _ (List.mem_of_getElem? found)]

theorem Intact.width_remove (intact : Intact a w) (live : w.isAlive removed = true)
    (listed : row ∈ (w.remove removed kept).rows) : row.length = a.alphabet.size := by
  obtain ⟨i, listed⟩ := List.mem_iff_getElem?.mp listed
  by_cases same : i = removed
  · rw [same, intact.rows_remove_self live] at listed
    exact Option.some.inj listed ▸ List.length_replicate
  · rw [rows_remove same] at listed
    obtain ⟨before, there, rfl⟩ := Option.map_eq_some_iff.mp listed
    exact (List.length_map _).trans (intact.width before (List.mem_of_getElem? there))

/-- What led to the removed state leads to the kept one now, so moves stay between states that are there. -/
theorem Intact.destinations_remove (intact : Intact a w) (keeps : w.isAlive kept = true)
    (different : removed ≠ kept) (there : (w.remove removed kept).isAlive i = true)
    (found : (w.remove removed kept).rows[i]? = some row) (leads : some d ∈ row) :
    (w.remove removed kept).isAlive d = true := by
  obtain ⟨before, stays⟩ := isAlive_remove_iff.mp there
  rw [rows_remove stays] at found
  obtain ⟨row, old, rfl⟩ := Option.map_eq_some_iff.mp found
  obtain ⟨dest, listed, led⟩ := List.mem_map.mp leads
  unfold redirect at led
  split at led
  · cases led
    exact isAlive_remove_iff.mpr ⟨keeps, different.symm⟩
  · rename_i elsewhere
    subst led
    exact isAlive_remove_iff.mpr ⟨intact.destinations i row before old d listed,
      fun same => elsewhere (congrArg some same)⟩

/-- A state is gone because it is removed now, or was before; an empty row stays empty. -/
theorem Intact.removed_remove (intact : Intact a w) (live : w.isAlive removed = true)
    (small : i < a.states.size) (gone : (w.remove removed kept).isAlive i = false) :
    (w.remove removed kept).finals[i]? = some false ∧
      (w.remove removed kept).rows[i]? = some (List.replicate a.alphabet.size none) := by
  by_cases same : i = removed
  · subst same
    exact ⟨List.getElem?_set_self (intact.finals ▸ small), intact.rows_remove_self live⟩
  · have before : w.isAlive i = false := by
      by_contra there
      rw [isAlive_remove_iff.mpr ⟨Bool.not_eq_false _ ▸ there, same⟩] at gone
      cases gone
    obtain ⟨final, row⟩ := intact.removed i small before
    rw [finals_remove same, rows_remove same, row, Option.map_some, List.map_replicate, redirect_none]
    exact ⟨final, rfl⟩

/-- Removing a state for another one that is there keeps the copy intact, unless the state is the initial
one or the sink. -/
theorem Intact.remove (intact : Intact a w) (live : w.isAlive removed = true) (keeps : w.isAlive kept = true)
    (different : removed ≠ kept) (notInitial : some removed ≠ w.initial)
    (notDead : some removed ≠ w.dead) : Intact a (w.remove removed kept) := by
  refine ⟨?_, ?_, ?_, fun _ => intact.width_remove live, fun i => ?_,
    fun _ _ there found _ => intact.destinations_remove keeps different there found,
    fun _ => intact.removed_remove live, ⟨intact.initial.1, ?_⟩, ⟨intact.dead.1, fun sink => ?_⟩,
    fun i there => ?_, fun i there => ?_⟩
  · exact List.length_set.trans intact.alive
  · exact List.length_set.trans intact.finals
  · exact (List.length_map _).trans ((List.length_modify ..).trans intact.rows)
  · have merged : (w.remove removed kept).merges.map Prod.fst = w.merges.map Prod.fst ++ [removed] :=
      List.map_append
    rw [isAlive_remove_iff, intact.isAlive_iff, merged, List.mem_append, List.mem_singleton, not_or,
      and_assoc]
  · exact keeps_remove_iff.mpr ⟨intact.initial.2, intact.initial.1 ▸ notInitial⟩
  · exact keeps_remove_iff.mpr ⟨intact.dead.2 sink, intact.dead.1 ▸ notDead⟩
  · obtain ⟨before, stays⟩ := isAlive_remove_iff.mp there
    rw [finals_remove stays, intact.final i before]
  · obtain ⟨before, stays⟩ := isAlive_remove_iff.mp there
    rw [rows_remove stays, Option.map_map, ← intact.letters i before]
    refine congrArg (fun f => Option.map f _) (funext fun row => ?_)
    rw [Function.comp_apply, List.map_map]
    exact List.map_congr_left fun dest _ => isSome_redirect

/-! ### Sweeps and the merging of classes -/

/-- The copies that come of removals which spare the initial state and the sink. -/
inductive Reached (a : Automaton) : WorkingCopy → Prop
  | start : Reached a (start a)
  | remove {w : WorkingCopy} {removed kept : Nat} : Reached a w → w.isAlive removed = true →
    w.isAlive kept = true → removed ≠ kept → some removed ≠ w.initial → some removed ≠ w.dead →
    Reached a (w.remove removed kept)

theorem Reached.intact (declared : a.Declared) (reached : Reached a w) : Intact a w := by
  induction reached with
  | start => exact .start declared
  | remove _ live keeps different notInitial notDead ih =>
    exact ih.remove live keeps different notInitial notDead

theorem Reached.trial (reached : Reached a w) : Reached a (trial i js w merged).1 := by
  induction js generalizing w merged with
  | nil => exact reached
  | cons j js ih =>
    rw [WorkingCopy.trial]
    split
    · exact ih reached
    · rename_i twins
      simp only [Bool.or_eq_true, decide_eq_true_iff, Bool.not_eq_true', not_or, Bool.not_eq_false] at twins
      obtain ⟨⟨⟨different, live⟩, live'⟩, _⟩ := twins
      by_cases initial : some i = w.initial
      · rw [if_pos initial]
        dsimp only
        split
        · exact ih reached
        · rename_i notDead
          have notInitial : some j ≠ w.initial := initial ▸ fun same => different (Option.some.inj same).symm
          rw [if_neg (Ne.symm different)]
          exact ih (reached.remove live' live (Ne.symm different) notInitial notDead)
      · rw [if_neg initial]
        dsimp only
        split
        · exact ih reached
        · rename_i notDead
          rw [if_pos rfl]
          exact reached.remove live live' different initial notDead

theorem Reached.sweep (reached : Reached a w) : Reached a w.sweep.1 :=
  List.foldlRecOn (motive := fun state : WorkingCopy × Nat => Reached a state.1) _ _ reached
    fun _ reached _ _ => reached.trial

/-- The initial state is kept of the class that it is in. -/
theorem keeper?_spec (found : w.keeper? members = some kept) :
    kept ∈ members ∧ ∀ i ∈ members, some i = w.initial → i = kept := by
  unfold keeper? at found
  cases initial : members.find? fun i => decide (some i = w.initial) with
  | some k =>
    rw [initial, Option.some_or, Option.some_or] at found
    obtain rfl := Option.some.inj found
    have here : some k = w.initial := of_decide_eq_true (List.find?_some initial :)
    exact ⟨List.mem_of_find?_eq_some initial, fun i _ same => Option.some.inj (same.trans here.symm)⟩
  | none =>
    have absent : ∀ i ∈ members, some i ≠ w.initial := fun i member =>
      of_decide_eq_false (Bool.eq_false_iff.mpr (List.find?_eq_none.mp initial i member))
    refine ⟨?_, fun i member same => absurd same (absent i member)⟩
    rw [initial, Option.none_or] at found
    rcases Option.or_eq_some_iff.mp found with sink | ⟨_, first⟩
    · exact List.mem_of_find?_eq_some sink
    · exact List.mem_of_head? first

/-- The members of a class are removed one by one, and no other state is. -/
theorem Reached.foldl_mergeMember (reached : Reached a w) (keeps : w.isAlive kept = true)
    (distinct : js.Nodup) (live : ∀ i ∈ js, w.isAlive i = true)
    (spared : ∀ i ∈ js, some i = w.initial → i = kept) (merged : Nat) :
    Reached a (js.foldl (mergeMember kept) (w, merged)).1 ∧
      ∀ i ∉ js, (js.foldl (mergeMember kept) (w, merged)).1.isAlive i = w.isAlive i := by
  induction js generalizing w merged with
  | nil => exact ⟨reached, fun _ _ => rfl⟩
  | cons j js ih =>
    obtain ⟨fresh, distinct⟩ := List.nodup_cons.mp distinct
    obtain ⟨here, live⟩ := List.forall_mem_cons.mp live
    obtain ⟨notInitial, spared⟩ := List.forall_mem_cons.mp spared
    rw [List.foldl_cons, mergeMember]
    split
    · obtain ⟨later, others⟩ := ih reached keeps distinct live spared merged
      exact ⟨later, fun i absent => others i fun member => absent (List.mem_cons_of_mem _ member)⟩
    · rename_i goes
      simp only [Bool.or_eq_true, decide_eq_true_iff, not_or] at goes
      have next := reached.remove here keeps goes.1 (fun same => goes.1 (notInitial same)) goes.2
      obtain ⟨later, others⟩ := ih next (isAlive_remove_iff.mpr ⟨keeps, Ne.symm goes.1⟩) distinct
        (fun i member => isAlive_remove_iff.mpr ⟨live i member, ne_of_mem_of_not_mem member fresh⟩) spared
        (merged + 1)
      refine ⟨later, fun i absent => ?_⟩
      rw [List.mem_cons, not_or] at absent
      rw [others i absent.2, Bool.eq_iff_iff, isAlive_remove_iff, and_iff_left absent.1]

theorem Reached.mergeClass (reached : Reached a w) (distinct : members.Nodup)
    (live : ∀ i ∈ members, w.isAlive i = true) (merged : Nat) : Reached a (mergeClass (w, merged) members).1 ∧
      ∀ i ∉ members, (WorkingCopy.mergeClass (w, merged) members).1.isAlive i = w.isAlive i := by
  unfold WorkingCopy.mergeClass
  dsimp only
  split
  · rename_i kept found
    obtain ⟨member, spared⟩ := keeper?_spec found
    exact reached.foldl_mergeMember (live kept member) distinct live spared merged
  · exact ⟨reached, fun _ _ => rfl⟩

/-- A class is merged when all its members are still there, for they are in no other. -/
theorem Reached.foldl_mergeClass {key : Nat → Nat} {keys : List Nat} (reached : Reached a w)
    (distinct : js.Nodup) (apart : keys.Nodup)
    (live : ∀ i ∈ js, key i ∈ keys → w.isAlive i = true) :
    Reached a ((keys.map fun k => js.filter fun i => decide (key i = k)).foldl WorkingCopy.mergeClass
      (w, merged)).1 := by
  induction keys generalizing w merged with
  | nil => exact reached
  | cons k keys ih =>
    obtain ⟨fresh, apart⟩ := List.nodup_cons.mp apart
    have here : ∀ i ∈ js.filter (fun i => decide (key i = k)), w.isAlive i = true := fun i member => by
      obtain ⟨listed, same⟩ := List.mem_filter.mp member
      exact live i listed (of_decide_eq_true same ▸ List.mem_cons_self)
    obtain ⟨next, others⟩ := reached.mergeClass (distinct.filter _) here merged
    rw [List.map_cons, List.foldl_cons]
    refine ih next apart fun i listed later => ?_
    have elsewhere := others i fun member => fresh (of_decide_eq_true (List.mem_filter.mp member).2 ▸ later)
    exact elsewhere.trans (live i listed (List.mem_cons_of_mem _ later))

theorem Reached.refine? (reached : Reached a w) (ended : w.refine? = some state) : Reached a state.1 := by
  obtain ⟨classes, _, rfl⟩ := Option.map_eq_some_iff.mp ended
  have distinct : w.live.Nodup := List.nodup_range.filter _
  rw [groupBy_eq]
  exact reached.foldl_mergeClass distinct (UniqueList.nodup_collapse _) fun i listed _ =>
    (List.mem_filter.mp listed).2

/-! ### The copies on the way -/

/-- The copy after some removals, made one after the other. -/
def replay (a : Automaton) (merges : List (Nat × Nat)) : WorkingCopy :=
  merges.foldl (fun w merge => w.remove merge.1 merge.2) (start a)

theorem replay_append : replay a (merges ++ [(removed, kept)]) = (replay a merges).remove removed kept := by
  rw [replay, List.foldl_append]
  rfl

/-- A copy is what the removals in its log make of the first one. -/
theorem Reached.replay_merges (reached : Reached a w) : replay a w.merges = w := by
  induction reached with
  | start => rfl
  | @remove w removed kept _ _ _ _ _ _ ih =>
    rw [show (w.remove removed kept).merges = w.merges ++ [(removed, kept)] from rfl, replay_append, ih]

/-- The log is only added to, so what its first removals make was the copy on the way. -/
theorem Reached.replay (reached : Reached a w) (first : merges <+: w.merges) :
    Reached a (replay a merges) := by
  induction reached with
  | start =>
    obtain rfl := List.prefix_nil.mp first
    exact .start
  | @remove w removed kept before live keeps different notInitial notDead ih =>
    obtain rfl | earlier := List.prefix_concat_iff.mp first
    · have after := Reached.remove before live keeps different notInitial notDead
      exact after.replay_merges.symm ▸ after
    · exact ih earlier

/-! ### What is written out -/

/-- Where a state that is there leads on a symbol. -/
def destination? (w : WorkingCopy) (a : Automaton) (s : State) (symbol : Symbol) : Option State :=
  match a.states.index? s, symbol.letter?.bind a.alphabet.index? with
  | some i, some x =>
    if w.isAlive i then (w.next? i x).bind fun d => a.states.toList[d]? else none
  | _, _ => none

/-- What the automaton of a copy has of it: a transition for each letter on which a state that is there
leads anywhere. They are all between states that are there, and on each letter on which such a state had a
transition it has one still. -/
structure Emitted (a : Automaton) (w : WorkingCopy) : Prop where
  moves : ∀ u, u ∈ (w.toAutomaton a).transitions ↔
    ∃ s, w.destination? a u.source u.symbol = some s ∧ u.destinations = .singleton s
  live : ∀ u ∈ (w.toAutomaton a).transitions,
    w.keeps a u.source = true ∧ ∀ d ∈ u.destinations, w.keeps a d = true
  letters : ∀ t ∈ a.transitions, t.symbol ≠ .epsilon → w.keeps a t.source = true →
    ∃ u ∈ (w.toAutomaton a).transitions, u.source = t.source ∧ u.symbol = t.symbol

theorem eq_of_index? {α : Type} [DecidableEq α] {l : UniqueList α} {b c : α} (first : l.index? b = some i)
    (second : l.index? c = some i) : b = c := by
  have listed : ∀ b, l.index? b = some i → l.toList[i]? = some b := fun b found => by
    obtain ⟨small, same, _⟩ := List.idxOf?_eq_some_iff.mp found
    exact same ▸ List.getElem?_eq_getElem small
  exact Option.some.inj ((listed b first).symm.trans (listed c second))

theorem symbol_eq_of_index? {other : Symbol} (first : symbol.letter?.bind a.alphabet.index? = some x)
    (second : other.letter?.bind a.alphabet.index? = some x) : symbol = other := by
  cases symbol with
  | epsilon => cases first
  | letter y =>
    cases other with
    | epsilon => cases second
    | letter z => exact congrArg Symbol.letter (eq_of_index? first second)

theorem destination?_eq_some_iff {source : State} (row : a.states.index? source = some i)
    (letter : symbol.letter?.bind a.alphabet.index? = some x) : w.destination? a source symbol = some s ↔
      w.isAlive i = true ∧ ((w.next? i x).bind fun d => a.states.toList[d]?) = some s := by
  rw [destination?, row, letter]
  dsimp only
  split <;> simp [*]

theorem exists_index?_of_destination? {source : State} (leads : w.destination? a source symbol = some s) :
    ∃ i x, a.states.index? source = some i ∧ symbol.letter?.bind a.alphabet.index? = some x := by
  unfold destination? at leads
  split at leads
  · rename_i row letter
    exact ⟨_, _, row, letter⟩
  · cases leads

theorem exists_destination?_of_mem {ts : List Transition} {emitted : List (Nat × Nat)}
    (member : u ∈ w.transitions a emitted ts) :
    ∃ s, w.destination? a u.source u.symbol = some s ∧ u.destinations = .singleton s := by
  induction ts generalizing emitted with
  | nil => cases member
  | cons t ts ih =>
    rw [transitions] at member
    split at member
    · rename_i i x row letter
      split at member
      · exact ih member
      · rename_i fresh
        rw [Bool.or_eq_true, not_or, Bool.not_eq_true', Bool.not_eq_false] at fresh
        dsimp only at member
        split at member
        · rename_i d leads
          rcases List.mem_cons.mp member with rfl | later
          · exact ⟨d, (destination?_eq_some_iff row letter).mpr ⟨fresh.1, leads⟩, rfl⟩
          · exact ih later
        · exact ih member
    · exact ih member

/-- The first transition of its state and letter is written out, if there is a move for it still. -/
theorem exists_mem_transitions {ts : List Transition} {emitted : List (Nat × Nat)} (listed : t ∈ ts)
    (row : a.states.index? t.source = some i) (letter : t.symbol.letter?.bind a.alphabet.index? = some x)
    (fresh : (i, x) ∉ emitted) (leads : w.destination? a t.source t.symbol = some s) :
    ∃ u ∈ w.transitions a emitted ts, u.source = t.source ∧ u.symbol = t.symbol := by
  obtain ⟨live, next⟩ := (destination?_eq_some_iff row letter).mp leads
  induction ts generalizing emitted with
  | nil => cases listed
  | cons first ts ih =>
    rw [transitions]
    split
    · rename_i j y row' letter'
      by_cases same : (i, x) = (j, y)
      · cases same
        rw [if_neg (by simp [live, fresh])]
        dsimp only
        rw [next]
        exact ⟨_, List.mem_cons_self, eq_of_index? row' row, symbol_eq_of_index? letter' letter⟩
      · have later : t ∈ ts := (List.mem_cons.mp listed).resolve_left fun here => by
          subst here
          exact same (Prod.ext (Option.some.inj (row.symm.trans row'))
            (Option.some.inj (letter.symm.trans letter')))
        split
        · exact ih later fresh
        · have fresh' : (i, x) ∉ (j, y) :: emitted := fun old => (List.mem_cons.mp old).elim same fresh
          obtain ⟨u, member, alike⟩ := ih later fresh'
          dsimp only
          split
          · exact ⟨u, List.mem_cons_of_mem _ member, alike⟩
          · exact ⟨u, member, alike⟩
    · rename_i nowhere
      exact ih ((List.mem_cons.mp listed).resolve_left fun here => nowhere _ _ (here ▸ row) (here ▸ letter)) fresh

theorem start_destination? (declared : a.Declared) (present : s ∈ a.states) (listed : y ∈ a.alphabet) :
    (start a).destination? a s (.letter y) = a.nextState? s (.letter y) := by
  have row := Automaton.index?_states present
  have letter : (Symbol.letter y).letter?.bind a.alphabet.index? = _ := UniqueList.index?_eq_some listed
  have small : a.place s < a.states.size := List.idxOf_lt_length_of_mem present
  have live : (Reduction.start a).isLive s = true := Reduction.isLive_start.mpr present
  apply Option.ext
  intro d
  rw [destination?_eq_some_iff row letter, isAlive_start, and_iff_right small,
    Reduction.start_eq_copy declared, Reduction.Reachable.start.destination_copy declared present listed,
    Reduction.Reachable.start.next?_eq declared live]
  exact iff_of_eq (congrArg (· = some d) Option.map_id')

/-- At the start a state leads somewhere on the letters of its transitions. -/
theorem isSome_start_destination?_iff (declared : a.Declared) :
    ((start a).destination? a s symbol).isSome = true ↔
      symbol ≠ .epsilon ∧ ∃ t ∈ a.transitions, t.source = s ∧ t.symbol = symbol := by
  constructor
  · intro leads
    obtain ⟨d, leads⟩ := Option.isSome_iff_exists.mp leads
    obtain ⟨i, x, row, letter⟩ := exists_index?_of_destination? leads
    cases symbol with
    | epsilon => cases letter
    | letter y =>
      have present : s ∈ a.states := by
        by_contra absent
        rw [UniqueList.index?_eq_none absent] at row
        cases row
      have listed : y ∈ a.alphabet := by
        by_contra absent
        rw [Symbol.letter?, Option.bind_some, UniqueList.index?_eq_none absent] at letter
        cases letter
      rw [start_destination? declared present listed] at leads
      obtain ⟨t, member, source, symbol, _⟩ := Automaton.step_of_nextState? leads
      exact ⟨Symbol.noConfusion, t, member, source, symbol⟩
  · rintro ⟨notEmpty, t, member, rfl, rfl⟩
    have admits := declared.transitions t member
    cases symbol : t.symbol with
    | epsilon => exact absurd symbol notEmpty
    | letter y =>
      rw [start_destination? declared admits.source (admits.letter y symbol), ← symbol]
      exact Automaton.isSome_nextState? declared member

theorem Intact.isSome_next?_iff (intact : Intact a w) (live : w.isAlive i = true) :
    ((w.next? i x).bind fun d => a.states.toList[d]?).isSome = true ↔
      ((w.rows[i]?.map (List.map Option.isSome)).bind fun row => row[x]?) = some true := by
  rw [next?]
  cases found : w.rows[i]? with
  | none => simp
  | some row =>
    rw [Option.bind_some, Option.map_some, Option.bind_some, List.getElem?_map]
    cases dest : row[x]? with
    | none => simp
    | some dest' =>
      cases dest' with
      | none => simp
      | some d =>
        have there := intact.destinations i row live found d (List.mem_of_getElem? dest)
        have small : d < a.states.toList.length := ((intact.isAlive_iff d).mp there).1
        simp [small]

/-- A state that is there leads somewhere on the same letters as at the start. -/
theorem Intact.isSome_destination?_iff (declared : a.Declared) (intact : Intact a w) :
    (w.destination? a s symbol).isSome = true ↔
      w.keeps a s = true ∧ ((WorkingCopy.start a).destination? a s symbol).isSome = true := by
  rw [keeps, destination?, destination?]
  cases row : a.states.index? s with
  | none => simp
  | some i =>
    cases letter : symbol.letter?.bind a.alphabet.index? with
    | none => simp
    | some x =>
      rw [Option.any_some]
      dsimp only
      by_cases live : w.isAlive i = true
      · have before : (WorkingCopy.start a).isAlive i = true :=
          isAlive_start.mpr ((intact.isAlive_iff i).mp live).1
        rw [if_pos live, if_pos before, and_iff_right live, intact.isSome_next?_iff live,
          (Intact.start declared).isSome_next?_iff before, intact.letters i live]
      · simp [live]

theorem Intact.keeps_of_destination? (intact : Intact a w) {source : State}
    (leads : w.destination? a source symbol = some s) : w.keeps a s = true := by
  obtain ⟨i, x, row, letter⟩ := exists_index?_of_destination? leads
  obtain ⟨live, next⟩ := (destination?_eq_some_iff row letter).mp leads
  obtain ⟨d, dest, named⟩ := Option.bind_eq_some_iff.mp next
  obtain ⟨dests, found, dest⟩ := Option.bind_eq_some_iff.mp dest
  have there := intact.destinations i dests live found d (List.mem_of_getElem? (Option.join_eq_some_iff.mp dest))
  have place : a.states.index? s = some d := by
    obtain ⟨small, rfl⟩ := List.getElem?_eq_some_iff.mp named
    rw [UniqueList.index?_eq_some (List.getElem_mem small), a.states.nodup.idxOf_getElem]
  rw [keeps, place]
  exact there

/-- No letter on which a state that is left had a transition is lost. -/
theorem Intact.exists_written (declared : a.Declared) (intact : Intact a w) (listed : t ∈ a.transitions)
    (notEmpty : t.symbol ≠ .epsilon) (kept : w.keeps a t.source = true) :
    ∃ u ∈ (w.toAutomaton a).transitions, u.source = t.source ∧ u.symbol = t.symbol := by
  have before := (isSome_start_destination?_iff declared).mpr ⟨notEmpty, t, listed, rfl, rfl⟩
  have leads := (intact.isSome_destination?_iff declared).mpr ⟨kept, before⟩
  obtain ⟨s, leads⟩ := Option.isSome_iff_exists.mp leads
  obtain ⟨i, x, row, letter⟩ := exists_index?_of_destination? leads
  exact exists_mem_transitions listed row letter List.not_mem_nil leads

theorem Intact.emitted (declared : a.Declared) (intact : Intact a w) : Emitted a w := by
  have survivor := fun {u : Transition} {s : State} (leads : w.destination? a u.source u.symbol = some s) =>
    (intact.isSome_destination?_iff declared).mp (Option.isSome_iff_exists.mpr ⟨s, leads⟩)
  refine ⟨fun u => ⟨exists_destination?_of_mem, ?_⟩, fun u member => ?_,
    fun _ => intact.exists_written declared⟩
  · rintro ⟨s, leads, only⟩
    obtain ⟨kept, before⟩ := survivor leads
    obtain ⟨notEmpty, t, listed, source, symbol⟩ := (isSome_start_destination?_iff declared).mp before
    obtain ⟨u', member, source', symbol'⟩ :=
      intact.exists_written declared listed (symbol ▸ notEmpty) (source ▸ kept)
    obtain ⟨s', leads', only'⟩ := exists_destination?_of_mem member
    -- a state and a letter have one destination, so what was written is the transition itself
    rw [source', source, symbol', symbol, leads] at leads'
    have same : u' = u := by
      cases u
      cases u'
      cases leads'
      simp only [Transition.mk.injEq]
      exact ⟨source'.trans source, symbol'.trans symbol, only'.trans only.symm⟩
    exact same ▸ member
  · obtain ⟨s, leads, only⟩ := exists_destination?_of_mem member
    refine ⟨(survivor leads).1, fun d target => ?_⟩
    rw [only, SortedSet.mem_singleton] at target
    exact target ▸ intact.keeps_of_destination? leads

/-! ### What the modes come to -/

/-- The copy after some sweeps, or after the merging of classes. -/
def Worked (a : Automaton) (w : WorkingCopy) : Prop :=
  (∃ n, w = (fun w => w.sweep.1)^[n] (start a)) ∨ ∃ merged, (start a).refine? = some (w, merged)

theorem reached_of_worked (worked : Worked a w) : Reached a w := by
  rcases worked with ⟨n, rfl⟩ | ⟨merged, ended⟩
  · induction n with
    | zero => exact .start
    | succ n ih =>
      rw [Function.iterate_succ_apply']
      exact ih.sweep
  · exact Reached.start.refine? ended

theorem exists_iterate_of_sweeps (ended : sweeps limit w total = some state) :
    ∃ n, state.1 = (fun w => w.sweep.1)^[n] w := by
  induction limit generalizing w total with
  | zero => cases ended
  | succ limit ih =>
    rw [sweeps] at ended
    dsimp only at ended
    split at ended
    · cases ended
      exact ⟨1, rfl⟩
    · obtain ⟨n, value⟩ := ih ended
      exact ⟨n + 1, value⟩

theorem worked_of_reduce? {mode : MergeMode} (ended : (start a).reduce? mode = some state) :
    Worked a state.1 := by
  cases mode with
  | singlePass =>
    cases ended
    exact .inl ⟨1, rfl⟩
  | fixpoint => exact .inl (exists_iterate_of_sweeps ended)
  | refine => exact .inr ⟨state.2, ended⟩

/-- After any number of removals that sweeps or the merging of classes make, none included, the copy is
intact, and what is written out of it has no move to or from a removed state and lacks no letter of a
state that is left. The log of the removals is all there is to them, and each mode is made of these, ends,
and counts them. -/
theorem intact_between_removals {p : Parts} {kind : Kind} (built : p.toAutomaton kind = .ok a)
    (stages : List Stage) :
    let a := Stage.chain stages a
    (∀ w, Worked a w → replay a w.merges = w ∧
      ∀ merges, merges <+: w.merges → Intact a (replay a merges) ∧ Emitted a (replay a merges)) ∧
    ∀ mode, (start a).reduce? mode = some (reduce a mode) ∧ Worked a (reduce a mode).1 ∧
      (reduce a mode).2 = (reduce a mode).1.merges.length := by
  intro a
  have declared : a.Declared := Stage.declared_chain built stages
  refine ⟨fun w worked => ?_, fun mode => ?_⟩
  · have reached := reached_of_worked worked
    refine ⟨reached.replay_merges, fun merges first => ?_⟩
    have intact := (reached.replay first).intact declared
    exact ⟨intact, intact.emitted declared⟩
  · have ended := Reduction.start_reduce?_eq declared mode
    have counted := Counted.reduce? ended
    exact ⟨ended, worked_of_reduce? ended, (Nat.zero_add _).symm.trans counted⟩

/-- Two of the three merges of classes, and the first one of two sweeps, which merges the same two states
the other way round. -/
theorem intact_between_removals_layers :
    let a := Stage.chain [] Automaton.layers.collapse
    let w := replay a [(1, 0), (3, 2)]
    let v := replay a [(2, 3)]
    Intact a w ∧ w.finals[3]? = some false ∧ w.rows[3]? = some [none] ∧ w.finals[2]? = some true ∧
      v.rows[0]? = some [some 3] ∧
      (∀ u ∈ (v.toAutomaton a).transitions, .simple "u" ∉ u.destinations) ∧
      ∃ u ∈ (v.toAutomaton a).transitions, u.source = .simple "t" ∧ u.symbol = .letter "a" := by
  intro a w v
  have built : Automaton.layers.toAutomaton .deterministic = .ok Automaton.layers.collapse := by decide
  obtain ⟨copies, modes⟩ := intact_between_removals built []
  have intact : Intact a w := ((copies _ (modes .refine).2.1).2 [(1, 0), (3, 2)] (by decide +kernel)).1
  have emitted : Emitted a v := ((copies _ (.inl ⟨2, rfl⟩)).2 [(2, 3)] (by decide +kernel)).2
  obtain ⟨final, row⟩ := intact.removed 3 (by decide) (by decide)
  refine ⟨intact, final, row, (intact.final 2 (by decide)).trans (by decide), by decide,
    fun u listed leads => ?_, ?_⟩
  · exact absurd ((emitted.live u listed).2 _ leads) (by decide)
  · exact emitted.letters ⟨.simple "t", .letter "a", .singleton (.simple "v")⟩ (by decide) (by decide)
      (by decide)

end WorkingCopy

end Determinize
