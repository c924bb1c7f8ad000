import Determinize.Proofs.Label
import Determinize.Proofs.SinkSearch
import Mathlib.Data.List.Nodup
import Mathlib.Data.List.Pairwise

/-!
What the checks of the parts of an automaton establish, as a property of the automaton. A
well-formed automaton declares all it uses, and either no two of its states share a name and none is
the sink, or it is deterministic and its sink leads to no final state. `Automaton.rebuild_eq_ok` says
that the parts of a well-formed automaton pass the checks of the kind its determinism selects.
-/

namespace Determinize

open Relation (ReflTransGen)

namespace Transition

variable {t : Transition} {s : State} {x : Symbol}

def Apart (t u : Transition) : Prop := t.source ≠ u.source ∨ t.symbol ≠ u.symbol

theorem leaves_iff : t.leaves s x = true ↔ t.source = s ∧ t.symbol = x := by
  simp [leaves]

theorem leaves_eq_false_iff {u : Transition} :
    t.leaves u.source u.symbol = false ↔ t.Apart u := by
  rw [← Bool.not_eq_true, leaves_iff, Apart]
  exact Decidable.not_and_iff_not_or_not

theorem isSingle_iff :
    t.isSingle = true ↔ ∃ x d, t.symbol = .letter x ∧ t.destinations = SortedSet.singleton d := by
  obtain ⟨source, symbol, ⟨l, increasing⟩⟩ := t
  rcases l with _ | ⟨d, _ | ⟨_, _⟩⟩ <;> cases symbol <;>
    simp [isSingle, destination?, SortedSet.single?, SortedSet.singleton, Symbol.isEpsilon]

theorem isSingle_eq :
    t.isSingle = (!t.symbol.isEpsilon && decide (t.destinations.toList.length = 1)) := by
  obtain ⟨source, symbol, ⟨l, increasing⟩⟩ := t
  rcases l with _ | ⟨d, _ | ⟨_, _⟩⟩ <;> simp [isSingle, destination?, SortedSet.single?]

theorem Apart.symm {u : Transition} (apart : t.Apart u) : u.Apart t :=
  apart.imp Ne.symm Ne.symm

theorem filter_leaves_eq_nil {ts : List Transition} (apart : ∀ u ∈ ts, u.Apart t) :
    ts.filter (fun u => u.leaves t.source t.symbol) = [] := by
  refine List.filter_eq_nil_iff.mpr fun u member leaves => ?_
  rw [leaves_eq_false_iff.mpr (apart u member)] at leaves
  cases leaves

/-- Where no two transitions leave the same state on the same symbol, one that does so is the only one. -/
theorem filter_leaves_eq_singleton {ts : List Transition} (apart : ts.Pairwise Apart) (listed : t ∈ ts) :
    ts.filter (fun u => u.leaves t.source t.symbol) = [t] := by
  obtain ⟨before, after, rfl⟩ := List.append_of_mem listed
  obtain ⟨_, rest, earlier⟩ := List.pairwise_append.mp apart
  have later := (List.pairwise_cons.mp rest).1
  have none := filter_leaves_eq_nil fun u member => earlier u member t List.mem_cons_self
  have none' := filter_leaves_eq_nil fun u member => (later u member).symm
  have itself : t.leaves t.source t.symbol = true := leaves_iff.mpr ⟨rfl, rfl⟩
  rw [List.filter_append, none, List.filter_cons, if_pos itself, none']
  rfl

theorem countP_leaves_eq_one {ts : List Transition} (apart : ts.Pairwise Apart) (listed : t ∈ ts) :
    ts.countP (fun u => u.leaves t.source t.symbol) = 1 := by
  rw [List.countP_eq_length_filter, filter_leaves_eq_singleton apart listed]
  rfl

end Transition

namespace Automaton

open Transition (Apart)

variable {a : Automaton} {s t : State} {x : String}

theorem firstConflict?_eq_none_iff {earlier ts : List Transition} :
    firstConflict? earlier ts = none ↔
      (∀ t ∈ ts, t.isSingle = true) ∧ ts.Pairwise Apart ∧ ∀ e ∈ earlier, ∀ t ∈ ts, e.Apart t := by
  induction ts generalizing earlier with
  | nil => simp [firstConflict?]
  | cons t rest ih =>
    have new : (earlier.any fun e => e.leaves t.source t.symbol) = false ↔
        ∀ e ∈ earlier, e.Apart t := by
      simp only [List.any_eq_false, Bool.not_eq_true, Transition.leaves_eq_false_iff]
    rw [firstConflict?]
    split
    · rename_i fits
      simp only [Bool.and_eq_true, Bool.not_eq_true', new] at fits
      rw [ih]
      simp only [List.forall_mem_cons, List.pairwise_cons, fits.1, true_and]
      constructor
      · intro h
        obtain ⟨single, apart, ahead, before⟩ := h
        exact ⟨single, ⟨ahead, apart⟩, fun e member => ⟨fits.2 e member, before e member⟩⟩
      · intro h
        obtain ⟨single, ⟨ahead, apart⟩, before⟩ := h
        exact ⟨single, apart, ahead, fun e member => (before e member).2⟩
    · rename_i fails
      simp only [Bool.and_eq_true, Bool.not_eq_true', new] at fails
      simp only [reduceCtorEq, List.forall_mem_cons, false_iff]
      intro h
      obtain ⟨⟨single, _⟩, _, before⟩ := h
      exact fails ⟨single, fun e member => (before e member).1⟩

/-- The test that stops at the first transition out of order and the one that names it agree. -/
theorem allNew_eq_isNone_firstConflict? {earlier ts : List Transition} :
    allNew earlier ts = (firstConflict? earlier ts).isNone := by
  induction ts generalizing earlier with
  | nil => rfl
  | cons t rest ih =>
    rw [allNew, firstConflict?, ← Transition.isSingle_eq, ih]
    split
    · rename_i fits
      rw [fits, Bool.true_and]
    · rename_i fails
      rw [Bool.eq_false_iff.mpr fails]
      rfl

theorem isDeterministic_iff_firstConflict? :
    a.isDeterministic = true ↔ firstConflict? [] a.transitions = none := by
  rw [isDeterministic, allNew_eq_isNone_firstConflict?, Option.isNone_iff_eq_none]

/-- Determinism does not depend on the order of the transitions. -/
theorem isDeterministic_iff :
    a.isDeterministic = true ↔
      (∀ t ∈ a.transitions, t.isSingle = true) ∧ a.transitions.Pairwise Apart := by
  simp [isDeterministic_iff_firstConflict?, firstConflict?_eq_none_iff]

instance : Std.Symm Apart := ⟨fun _ _ => Transition.Apart.symm⟩

theorem eq_of_leaves (deterministic : a.isDeterministic = true) {m n : Transition}
    (first : m ∈ a.transitions) (second : n ∈ a.transitions) (source : m.source = n.source)
    (symbol : m.symbol = n.symbol) : m = n := by
  apply Decidable.byContradiction
  intro different
  exact ((isDeterministic_iff.mp deterministic).2.forall first second different).elim
    (fun apart => apart source) (fun apart => apart symbol)

theorem hasEpsilon_eq_false (deterministic : a.isDeterministic = true) : a.hasEpsilon = false := by
  apply List.any_eq_false.mpr
  intro m member
  have single := (isDeterministic_iff.mp deterministic).1 m member
  obtain ⟨x, _, symbol, _⟩ := Transition.isSingle_iff.mp single
  simp [symbol, Symbol.isEpsilon]

/-- Some transition of the automaton goes from one state to the other. -/
abbrev Leads (a : Automaton) : State → State → Prop := (Graph.ofTransitions a.transitions).Edge

/-- A transition of an automaton goes from a declared state to declared states, of which there is
at least one, on a letter of the alphabet or on none. -/
structure Admits (a : Automaton) (t : Transition) : Prop where
  source : t.source ∈ a.states
  nonempty : ∃ d, d ∈ t.destinations
  destinations : ∀ d ∈ t.destinations, d ∈ a.states
  letter : ∀ x, t.symbol = .letter x → x ∈ a.alphabet

/-- All that occurs in the automaton is declared, and what is declared may be. -/
structure Declared (a : Automaton) : Prop where
  valid : ∀ s ∈ a.states, s.Valid
  initial : a.initial ∈ a.states
  finals : ∀ s ∈ a.finals, s ∈ a.states
  letters : ∀ x ∈ a.alphabet, Symbol.isEpsilonText x = false
  transitions : ∀ t ∈ a.transitions, a.Admits t

/-- What is asked of a general automaton beyond its declarations. -/
structure Unshared (a : Automaton) : Prop where
  dead_not_mem : .dead ∉ a.states
  eq_of_name : ∀ s ∈ a.states, ∀ t ∈ a.states, ∀ name ∈ s.members, name ∈ t.members → s = t

/-- What is asked of a deterministic automaton beyond its declarations. -/
structure Determined (a : Automaton) : Prop where
  deterministic : a.isDeterministic = true
  dead_rejects : .dead ∈ a.states → ∀ s, ReflTransGen a.Leads .dead s → s ∉ a.finals

structure WellFormed (a : Automaton) : Prop extends Declared a where
  kind : a.Unshared ∨ a.Determined

end Automaton

namespace Parts

variable {p : Parts} {kind : Kind}

theorem nodup_members (s : State) : s.members.Nodup := by
  cases s with
  | simple name => exact List.nodup_singleton name
  | composite names => exact names.nodup
  | dead => exact List.nodup_nil

theorem firstRepeated?_eq_none_iff {earlier l : List String} :
    firstRepeated? earlier l = none ↔ l.Nodup ∧ ∀ name ∈ l, name ∉ earlier := by
  induction l generalizing earlier with
  | nil => simp [firstRepeated?]
  | cons name rest ih =>
    rw [firstRepeated?]
    split
    · rename_i repeated
      simp [repeated]
    · rename_i new
      rw [ih]
      rw [List.nodup_cons, List.forall_mem_cons]
      simp only [List.mem_cons, not_or]
      constructor
      · intro h
        obtain ⟨nodup, apart⟩ := h
        exact ⟨⟨fun again => (apart name again).1 rfl, nodup⟩, new,
          fun other member => (apart other member).2⟩
      · intro h
        obtain ⟨⟨absent, nodup⟩, _, apart⟩ := h
        exact ⟨nodup, fun other member => ⟨fun same => absent (same ▸ member), apart other member⟩⟩

theorem sharedName?_eq_none_iff :
    p.sharedName? = none ↔
      ∀ s ∈ p.states, ∀ t ∈ p.states, ∀ name ∈ s.members, name ∈ t.members → s = t := by
  have declared : ∀ s, s ∈ (UniqueList.ofList p.states).toList ↔ s ∈ p.states := fun s =>
    UniqueList.mem_ofList
  rw [sharedName?, firstRepeated?_eq_none_iff, List.nodup_flatMap]
  simp only [List.not_mem_nil, not_false_eq_true, implies_true, and_true, nodup_members, true_and]
  constructor
  · intro disjoint s hs t ht name ours theirs
    have : Std.Symm (Function.onFun List.Disjoint State.members) :=
      ⟨fun _ _ h _ theirs ours => h ours theirs⟩
    apply Decidable.byContradiction
    intro different
    exact disjoint.forall ((declared s).mpr hs) ((declared t).mpr ht) different ours theirs
  · intro unshared
    refine (UniqueList.ofList p.states).nodup.imp_of_mem fun {s t} hs ht different => ?_
    intro name ours theirs
    exact different (unshared s ((declared s).mp hs) t ((declared t).mp ht) name ours theirs)

theorem deadAccepts_eq_false_iff :
    p.deadAccepts = false ↔
      (.dead ∈ p.states → ∀ s, ReflTransGen p.collapse.Leads .dead s → s ∉ p.finals) := by
  rw [← Bool.not_eq_true, deadAccepts_iff]
  exact ⟨fun rejects dead s path final => rejects ⟨dead, s, final, path⟩,
    fun none ⟨dead, s, final, path⟩ => none dead s path final⟩

/-! ### The checks of the declarations -/

theorem undeclared?_eq_none_iff {unknown : State → Error} {s : State} :
    p.undeclared? kind unknown s = none ↔ s.defect? kind = none ∧ s ∈ p.states := by
  simp [undeclared?, Option.or_eq_none_iff]

theorem declarationDefect?_eq_none_iff :
    p.declarationDefect? kind = none ↔
      (∀ s ∈ p.states, s.defect? kind = none) ∧ p.initial ∈ p.states ∧
        (∀ s ∈ p.finals, s ∈ p.states) ∧ ∀ x ∈ p.alphabet, Symbol.isEpsilonText x = false := by
  simp only [declarationDefect?, Option.or_eq_none_iff, List.findSome?_eq_none_iff,
    undeclared?_eq_none_iff, ite_eq_right_iff, reduceCtorEq, imp_false, Bool.not_eq_true,
    List.any_eq_false]
  constructor
  · intro h
    obtain ⟨states, initial, finals, letters⟩ := h
    exact ⟨states, initial.2, fun s member => (finals s member).2, letters⟩
  · intro h
    obtain ⟨states, initial, finals, letters⟩ := h
    exact ⟨states, ⟨states _ initial, initial⟩,
      fun s member => ⟨states s (finals s member), finals s member⟩, letters⟩

theorem transitionDefect?_eq_none_iff (states : ∀ s ∈ p.states, s.defect? kind = none)
    {t : Transition} : p.transitionDefect? kind t = none ↔ p.collapse.Admits t := by
  have known : ∀ s, p.undeclared? kind .unknownState s = none ↔ s ∈ p.collapse.states := by
    intro s
    rw [undeclared?_eq_none_iff]
    exact ⟨fun both => UniqueList.mem_ofList.mpr both.2, fun member =>
      have member := UniqueList.mem_ofList.mp member
      ⟨states s member, member⟩⟩
  rw [transitionDefect?]
  split
  · rename_i none
    simp only [reduceCtorEq, false_iff]
    intro admitted
    rw [SortedSet.isEmpty_eq_false_iff.mpr admitted.nonempty] at none
    cases none
  · rename_i some
    rw [Bool.not_eq_true, SortedSet.isEmpty_eq_false_iff] at some
    have admitted : p.collapse.Admits t ↔
        (t.source ∈ p.collapse.states ∧ ∀ d ∈ t.destinations, d ∈ p.collapse.states) ∧
          ∀ x, t.symbol = .letter x → x ∈ p.collapse.alphabet :=
      ⟨fun h => ⟨⟨h.source, h.destinations⟩, h.letter⟩,
        fun ⟨⟨source, destinations⟩, letter⟩ => ⟨source, some, destinations, letter⟩⟩
    rw [Option.or_eq_none_iff, List.findSome?_eq_none_iff, List.forall_mem_cons, admitted]
    simp only [known]
    apply and_congr_right
    intro _
    cases t.symbol with
    | epsilon => simp
    | letter x => simp [collapse, UniqueList.mem_ofList]

theorem checks_eq_none_iff :
    p.declarationDefect? kind = none ∧ p.transitions.findSome? (p.transitionDefect? kind) = none ↔
      p.collapse.Declared ∧ (kind = .general → .dead ∉ p.states) := by
  have states : (∀ s ∈ p.states, s.defect? kind = none) ↔
      (∀ s ∈ p.states, s.Valid) ∧ (kind = .general → .dead ∉ p.states) := by
    cases kind with
    | deterministic => simp [State.defect?_deterministic_iff]
    | general =>
      simp only [State.defect?_general_iff, forall_const]
      exact ⟨fun both => ⟨fun s member => (both s member).1, fun dead => (both _ dead).2 rfl⟩,
        fun ⟨valid, dead⟩ s member => ⟨valid s member, fun same => dead (same ▸ member)⟩⟩
  have collapsed : ∀ s, s ∈ p.collapse.states ↔ s ∈ p.states := fun s => UniqueList.mem_ofList
  rw [declarationDefect?_eq_none_iff, List.findSome?_eq_none_iff]
  constructor
  · intro h
    obtain ⟨⟨allowed, initial, finals, letters⟩, transitions⟩ := h
    refine ⟨⟨fun s member => (states.mp allowed).1 s ((collapsed s).mp member),
      (collapsed _).mpr initial, fun s member => ?_, fun x member => ?_, fun t member => ?_⟩,
      (states.mp allowed).2⟩
    · exact (collapsed s).mpr (finals s (UniqueList.mem_ofList.mp member))
    · exact letters x (UniqueList.mem_ofList.mp member)
    · exact (transitionDefect?_eq_none_iff allowed).mp (transitions t member)
  · intro h
    obtain ⟨declared, dead⟩ := h
    have allowed := states.mpr ⟨fun s member => declared.valid s ((collapsed s).mpr member), dead⟩
    refine ⟨⟨allowed, (collapsed _).mp declared.initial, fun s member => ?_, fun x member => ?_⟩,
      fun t member => ?_⟩
    · exact (collapsed s).mp (declared.finals s (UniqueList.mem_ofList.mpr member))
    · exact declared.letters x (UniqueList.mem_ofList.mpr member)
    · exact (transitionDefect?_eq_none_iff allowed).mpr (declared.transitions t member)

/-! ### The checks of a kind -/

theorem defect?_general_eq_none_iff :
    p.defect? .general = none ↔ p.collapse.Declared ∧ p.collapse.Unshared := by
  have collapsed : ∀ s, s ∈ p.collapse.states ↔ s ∈ p.states := fun s => UniqueList.mem_ofList
  rw [defect?, Option.or_eq_none_iff, Option.or_eq_none_iff, ← and_assoc, checks_eq_none_iff,
    kindDefect?, Option.map_eq_none_iff, sharedName?_eq_none_iff]
  simp only [forall_const, and_assoc]
  refine and_congr_right fun _ => ⟨fun ⟨dead, unshared⟩ => ⟨?_, ?_⟩, fun unshared => ⟨?_, ?_⟩⟩
  · rwa [collapsed]
  · simpa only [collapsed] using unshared
  · simpa only [collapsed] using unshared.dead_not_mem
  · simpa only [collapsed] using unshared.eq_of_name

theorem defect?_deterministic_eq_none_iff :
    p.defect? .deterministic = none ↔ p.collapse.Declared ∧ p.collapse.Determined := by
  rw [defect?, Option.or_eq_none_iff, Option.or_eq_none_iff, ← and_assoc, checks_eq_none_iff,
    kindDefect?, Option.or_eq_none_iff, Option.map_eq_none_iff, ite_eq_right_iff]
  simp only [reduceCtorEq, imp_false, Bool.not_eq_true, deadAccepts_eq_false_iff, false_implies,
    and_true]
  refine and_congr_right fun _ => ⟨fun ⟨deterministic, dead⟩ => ⟨?_, ?_⟩, fun determined => ⟨?_, ?_⟩⟩
  · exact Automaton.isDeterministic_iff_firstConflict?.mpr deterministic
  · simpa only [collapse, UniqueList.mem_ofList] using dead
  · exact Automaton.isDeterministic_iff_firstConflict?.mp determined.deterministic
  · simpa only [collapse, UniqueList.mem_ofList] using determined.dead_rejects

theorem toAutomaton_eq_ok_iff {a : Automaton} :
    p.toAutomaton kind = .ok a ↔ p.defect? kind = none ∧ p.collapse = a := by
  unfold toAutomaton
  split <;> simp [*]

theorem wellFormed_of_toAutomaton {a : Automaton} (built : p.toAutomaton kind = .ok a) :
    a.WellFormed := by
  obtain ⟨sound, rfl⟩ := toAutomaton_eq_ok_iff.mp built
  cases kind with
  | general =>
    obtain ⟨declared, unshared⟩ := defect?_general_eq_none_iff.mp sound
    exact ⟨declared, .inl unshared⟩
  | deterministic =>
    obtain ⟨declared, determined⟩ := defect?_deterministic_eq_none_iff.mp sound
    exact ⟨declared, .inr determined⟩

theorem unshared_of_toAutomaton {a : Automaton} (built : p.toAutomaton .general = .ok a) :
    a.Unshared := by
  obtain ⟨sound, rfl⟩ := toAutomaton_eq_ok_iff.mp built
  exact (defect?_general_eq_none_iff.mp sound).2

theorem determined_of_toAutomaton {a : Automaton} (built : p.toAutomaton .deterministic = .ok a) :
    a.Determined := by
  obtain ⟨sound, rfl⟩ := toAutomaton_eq_ok_iff.mp built
  exact (defect?_deterministic_eq_none_iff.mp sound).2

end Parts

namespace Automaton

variable {a : Automaton} {s t : State}

theorem mem_states_of_leads (declared : a.Declared) (leads : a.Leads s t) :
    s ∈ a.states ∧ t ∈ a.states := by
  obtain ⟨m, member, rfl, target⟩ := Graph.edge_ofTransitions.mp leads
  have admitted := declared.transitions m member
  exact ⟨admitted.source, admitted.destinations t target⟩

namespace WellFormed

/-- No final state can be reached from the sink, declared or not. -/
theorem dead_rejects (wellFormed : a.WellFormed) (path : ReflTransGen a.Leads .dead s) :
    s ∉ a.finals := by
  by_cases dead : .dead ∈ a.states
  · rcases wellFormed.kind with unshared | determined
    · exact absurd dead unshared.dead_not_mem
    · exact determined.dead_rejects dead s path
  · intro accepted
    obtain rfl | ⟨t, leads, _⟩ := path.cases_head
    · exact dead (wellFormed.finals _ accepted)
    · exact dead (mem_states_of_leads wellFormed.toDeclared leads).1

theorem determined (wellFormed : a.WellFormed) (deterministic : a.isDeterministic = true) :
    a.Determined :=
  ⟨deterministic, fun _ _ path => wellFormed.dead_rejects path⟩

theorem unshared (wellFormed : a.WellFormed) (general : a.isDeterministic = false) :
    a.Unshared := by
  rcases wellFormed.kind with unshared | determined
  · exact unshared
  · rw [determined.deterministic] at general
    cases general

end WellFormed

/-- The kind that an automaton is read back as. -/
def kind (a : Automaton) : Kind := if a.isDeterministic then .deterministic else .general

theorem rebuild_eq_ok (wellFormed : a.WellFormed) : a.parts.toAutomaton a.kind = .ok a := by
  refine Parts.toAutomaton_eq_ok_iff.mpr ⟨?_, a.collapse_parts⟩
  cases deterministic : a.isDeterministic with
  | true =>
    rw [kind, deterministic, if_pos rfl, Parts.defect?_deterministic_eq_none_iff, collapse_parts]
    exact ⟨wellFormed.toDeclared, wellFormed.determined deterministic⟩
  | false =>
    rw [kind, deterministic, if_neg (by simp), Parts.defect?_general_eq_none_iff, collapse_parts]
    exact ⟨wellFormed.toDeclared, wellFormed.unshared deterministic⟩

end Automaton

end Determinize
