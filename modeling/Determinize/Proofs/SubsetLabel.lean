import Determinize.Proofs.Elimination
import Determinize.Subset
import Mathlib.Data.List.Induction

/-!
The states that stand for sets of states. The construction only comes to sets of declared states
other than the sink that either all sets of the automaton are told apart by their names, or have one
member at most. Among those no two sets share a label (`Discoverable.eq_of_subsetState_eq`).
-/

namespace Determinize

/-- The state that stands for a set, which is the sink for the empty set. -/
def subsetState (set : StateSet) : State := (subsetLabel? set).getD .dead

namespace Automaton

variable {a : Automaton} {set : StateSet} {s t : State} {x : String}

/-- A set that the construction may come to. -/
structure Discoverable (a : Automaton) (set : StateSet) : Prop where
  declared : ∀ s ∈ set, s ∈ a.states
  live : ∀ s ∈ set, s ≠ .dead
  apart : a.Unshared ∨ ∀ s ∈ set, ∀ t ∈ set, s = t

end Automaton

open Automaton (Discoverable)

variable {a : Automaton} {set other : StateSet} {s t : State} {x : String}

theorem State.exists_mem_members (valid : s.Valid) (live : s ≠ .dead) : ∃ name, name ∈ s.members := by
  cases s with
  | simple name => exact ⟨name, List.mem_singleton_self name⟩
  | composite names =>
    apply List.exists_mem_of_ne_nil names.toList
    intro none
    have two := valid.1
    simp [none] at two
  | dead => contradiction

theorem subsetState_empty : subsetState .empty = .dead := rfl

theorem subsetState_singleton : subsetState (.singleton s) = s := rfl

namespace Automaton.Discoverable

theorem valid (discoverable : a.Discoverable set) (declared : a.Declared) (member : s ∈ set) :
    s.Valid := declared.valid s (discoverable.declared s member)

theorem subsetLabel?_of_two (discoverable : a.Discoverable set) (declared : a.Declared)
    {l : List State} (two : set.toList = s :: t :: l) :
    ∃ label, subsetLabel? set = some label ∧
      State.combine (set.toList.flatMap State.members) = some label := by
  have first : s ∈ set.toList := by
    rw [two]
    exact List.mem_cons_self
  obtain ⟨name, member⟩ := State.exists_mem_members (discoverable.valid declared first)
    (discoverable.live s first)
  have nonempty : set.toList.flatMap State.members ≠ [] :=
    List.ne_nil_of_mem (List.mem_flatMap.mpr ⟨s, first, member⟩)
  obtain ⟨label, combined⟩ := Option.isSome_iff_exists.mp (State.isSome_combine nonempty)
  refine ⟨label, ?_, combined⟩
  rw [subsetLabel?, ← combined, two]

theorem subsetLabel?_eq_some (discoverable : a.Discoverable set) (declared : a.Declared)
    (nonempty : set ≠ .empty) : subsetLabel? set = some (subsetState set) := by
  rcases SortedSet.shape set with none | ⟨u, rfl⟩ | ⟨u, v, l, two⟩
  · exact absurd none nonempty
  · rfl
  · obtain ⟨label, labelled, _⟩ := discoverable.subsetLabel?_of_two declared two
    rw [subsetState, labelled, Option.getD_some]

theorem mem_members_subsetState (discoverable : a.Discoverable set) (declared : a.Declared)
    {name : String} : name ∈ (subsetState set).members ↔ ∃ s ∈ set, name ∈ s.members := by
  rcases SortedSet.shape set with rfl | ⟨u, rfl⟩ | ⟨u, v, l, two⟩
  · simp [subsetState_empty, State.members, SortedSet.not_mem_empty]
  · simp [subsetState_singleton, SortedSet.mem_singleton]
  · obtain ⟨label, labelled, combined⟩ := discoverable.subsetLabel?_of_two declared two
    rw [subsetState, labelled, Option.getD_some, State.mem_members_of_combine combined,
      List.mem_flatMap]
    rfl

theorem subsetState_ne_dead (discoverable : a.Discoverable set) (declared : a.Declared)
    (nonempty : set ≠ .empty) : subsetState set ≠ .dead := by
  intro dead
  obtain ⟨s, member⟩ := SortedSet.exists_mem nonempty
  obtain ⟨name, mem⟩ := State.exists_mem_members (discoverable.valid declared member)
    (discoverable.live s member)
  have := (discoverable.mem_members_subsetState declared).mpr ⟨s, member, mem⟩
  rw [dead] at this
  exact List.not_mem_nil this

theorem valid_subsetState (discoverable : a.Discoverable set) (declared : a.Declared) :
    (subsetState set).Valid := by
  rcases SortedSet.shape set with rfl | ⟨u, rfl⟩ | ⟨u, v, l, two⟩
  · trivial
  · exact discoverable.valid declared (SortedSet.mem_singleton.mpr rfl)
  · obtain ⟨label, labelled, combined⟩ := discoverable.subsetLabel?_of_two declared two
    rw [subsetState, labelled, Option.getD_some]
    apply State.valid_combine combined
    intro name mem
    obtain ⟨s, member, mem⟩ := List.mem_flatMap.mp mem
    exact State.allowed_of_mem_members (discoverable.valid declared member) mem

/-- Where no names are shared, the names of the label tell who is in the set. -/
theorem mem_iff_of_unshared (discoverable : a.Discoverable set) (declared : a.Declared)
    (unshared : a.Unshared) :
    s ∈ set ↔ s ∈ a.states ∧ ∃ name ∈ s.members, name ∈ (subsetState set).members := by
  simp only [discoverable.mem_members_subsetState declared]
  constructor
  · intro member
    obtain ⟨name, mem⟩ := State.exists_mem_members (discoverable.valid declared member)
      (discoverable.live s member)
    exact ⟨discoverable.declared s member, name, mem, s, member, mem⟩
  · intro h
    obtain ⟨start, name, ours, t, member, theirs⟩ := h
    rwa [unshared.eq_of_name s start t (discoverable.declared t member) name ours theirs]

theorem eq_singleton_of_subsingleton (alone : ∀ s ∈ set, ∀ t ∈ set, s = t) (member : s ∈ set) :
    set = .singleton s :=
  SortedSet.eq_singleton member fun t other => alone t other s member

/-- Different sets have different labels. -/
theorem eq_of_subsetState_eq (discoverable : a.Discoverable set) (second : a.Discoverable other)
    (declared : a.Declared) (same : subsetState set = subsetState other) : set = other := by
  by_cases unshared : a.Unshared
  · apply SortedSet.ext
    intro s
    rw [discoverable.mem_iff_of_unshared declared unshared, same,
      second.mem_iff_of_unshared declared unshared]
  · have alone := discoverable.apart.resolve_left unshared
    have alone' := second.apart.resolve_left unshared
    by_cases none : set = .empty
    · by_cases none' : other = .empty
      · rw [none, none']
      · rw [none, subsetState_empty] at same
        exact absurd same.symm (second.subsetState_ne_dead declared none')
    · by_cases none' : other = .empty
      · rw [none', subsetState_empty] at same
        exact absurd same (discoverable.subsetState_ne_dead declared none)
      · obtain ⟨s, member⟩ := SortedSet.exists_mem none
        obtain ⟨t, member'⟩ := SortedSet.exists_mem none'
        rw [eq_singleton_of_subsingleton alone member,
          eq_singleton_of_subsingleton alone' member'] at same ⊢
        rw [subsetState_singleton, subsetState_singleton] at same
        rw [same]

end Automaton.Discoverable

/-! ### The sets that a letter leads to -/

namespace Exploration

theorem mem_liveStates {l : List State} : t ∈ liveStates l ↔ t ∈ l ∧ t ≠ .dead := by
  rw [liveStates, SortedSet.mem_ofList, List.mem_filter, Bool.not_eq_true', State.isDead_eq_false_iff]

theorem mem_target : t ∈ target a set x ↔ t ≠ .dead ∧ ∃ s ∈ set, a.Step s (.letter x) t := by
  simp only [target, mem_liveStates, List.mem_flatMap, SortedSet.mem_toList,
    Automaton.mem_nextStates]
  exact and_comm

theorem target_empty : target a .empty x = .empty := by
  apply SortedSet.eq_empty_iff.mpr
  intro t member
  obtain ⟨s, absent, _⟩ := (mem_target.mp member).2
  exact SortedSet.not_mem_empty absent

/-- The set that a word leads to from the initial state. -/
def reached (a : Automaton) (w : List String) : StateSet :=
  w.foldl (target a) (liveStates [a.initial])

theorem reached_append {w : List String} : reached a (w ++ [x]) = target a (reached a w) x := by
  rw [reached, List.foldl_append]
  rfl

theorem step_unique (deterministic : a.isDeterministic = true) {y : Symbol} {u : State}
    (first : a.Step s y t) (second : a.Step s y u) : t = u := by
  obtain ⟨m, member, rfl, rfl, target⟩ := first
  obtain ⟨n, other, source, symbol, target'⟩ := second
  obtain rfl := Automaton.eq_of_leaves deterministic other member source symbol
  obtain ⟨_, d, _, only⟩ :=
    Transition.isSingle_iff.mp ((Automaton.isDeterministic_iff.mp deterministic).1 n other)
  rw [only, SortedSet.mem_singleton] at target target'
  rw [target, target']

theorem discoverable_target (wellFormed : a.WellFormed) (discoverable : a.Discoverable set) :
    a.Discoverable (target a set x) := by
  refine ⟨fun t member => ?_, fun t member => (mem_target.mp member).1, ?_⟩
  · obtain ⟨_, s, _, step⟩ := mem_target.mp member
    exact (Automaton.step_mem_states wellFormed.toDeclared step).2
  · rcases wellFormed.kind with unshared | determined
    · exact .inl unshared
    apply discoverable.apart.imp_right
    intro alone t member u other
    obtain ⟨_, s, start, step⟩ := mem_target.mp member
    obtain ⟨_, s', start', step'⟩ := mem_target.mp other
    obtain rfl := alone s start s' start'
    exact step_unique determined.deterministic step step'

theorem discoverable_reached (wellFormed : a.WellFormed) (w : List String) :
    a.Discoverable (reached a w) := by
  induction w using List.reverseRecOn with
  | nil =>
    have member : ∀ s, s ∈ reached a [] ↔ s = a.initial ∧ s ≠ .dead := fun s => by
      rw [reached, List.foldl_nil, mem_liveStates, List.mem_singleton]
    refine ⟨fun s start => ?_, fun s start => ((member s).mp start).2, .inr fun s start t other => ?_⟩
    · rw [((member s).mp start).1]
      exact wellFormed.initial
    · rw [((member s).mp start).1, ((member t).mp other).1]
  | append_singleton w x ih =>
    rw [reached_append]
    exact discoverable_target wellFormed ih

end Exploration

end Determinize
