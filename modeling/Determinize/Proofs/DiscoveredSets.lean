import Determinize.Proofs.ReachedSets

/-!
The labels of the sets that the construction finds. A set of two states or more is labelled with all
names of its members, so where states share names two sets can have one label. An automaton that declares
such states is deterministic, and the construction finds no set of two on it
(`Discoverable.subsetLabel?_eq_iff`).
-/

namespace Determinize

namespace Automaton

variable {a : Automaton} {set other : StateSet} {budget : Option Nat} {p : Parts} {kind : Kind}

/-- The sets of states that the construction finds within a budget. -/
def discoveredSets (a : Automaton) (budget : Option Nat) : List StateSet :=
  (a.eliminateEpsilon.explore budget).discovered.map Subset.members

/-- What the label of a set of states is: none for the empty set, the member of a set of one, and a
state that is not declared for any other. -/
structure WellLabelled (a : Automaton) (set : StateSet) : Prop where
  ne_dead : subsetLabel? set ≠ some .dead
  eq_none_iff : subsetLabel? set = none ↔ set = .empty
  singleton : ∀ s, set = .singleton s → subsetLabel? set = some s
  composite : set ≠ .empty → (∀ s, set ≠ .singleton s) → ∃ names : NameSet,
    subsetLabel? set = some (.composite names) ∧ 2 ≤ names.toList.length ∧
      (∀ name ∈ names, State.NameAllowed name) ∧ .composite names ∉ a.states

namespace Discoverable

theorem exists_composite (discoverable : a.Discoverable set) (declared : a.Declared)
    (nonempty : set ≠ .empty) (several : ∀ s, set ≠ .singleton s) : ∃ names : NameSet,
      subsetLabel? set = some (.composite names) ∧ 2 ≤ names.toList.length ∧
        (∀ name ∈ names, State.NameAllowed name) ∧ .composite names ∉ a.states := by
  have labelled := discoverable.subsetLabel?_eq_some declared nonempty
  have valid := discoverable.valid_subsetState declared
  have stands := discoverable.standsFor declared
  generalize subsetState set = label at labelled valid stands
  cases stands with
  | none no =>
    obtain ⟨s, member⟩ := SortedSet.exists_mem nonempty
    exact absurd member (no s)
  | one member only => exact absurd (SortedSet.eq_singleton member only) (several label)
  | @many t u names first second different named =>
    refine ⟨names, labelled, valid.1, valid.2, fun listed => ?_⟩
    have unshared := discoverable.apart.resolve_right fun alone => different (alone t first u second)
    -- a declared state with the names of all members would be each of them
    have same : ∀ s ∈ set, s = .composite names := fun s member => by
      obtain ⟨name, ours⟩ := State.exists_mem_members (discoverable.valid declared member)
        (discoverable.live s member)
      exact unshared.eq_of_name s (discoverable.declared s member) _ listed name ours
        ((named name).mpr ⟨s, member, ours⟩)
    exact different ((same t first).trans (same u second).symm)

theorem wellLabelled (discoverable : a.Discoverable set) (declared : a.Declared) :
    a.WellLabelled set := by
  have labelled := fun nonempty => discoverable.subsetLabel?_eq_some declared nonempty
  have kept := fun nonempty => discoverable.subsetState_ne_dead declared nonempty
  refine ⟨fun dead => ?_, ⟨fun unlabelled => ?_, ?_⟩, ?_, discoverable.exists_composite declared⟩
  · by_cases empty : set = .empty
    · subst empty
      cases dead
    · rw [labelled empty, Option.some.injEq] at dead
      exact kept empty dead
  · by_contra nonempty
    rw [labelled nonempty] at unlabelled
    cases unlabelled
  · rintro rfl
    rfl
  · rintro s rfl
    rfl

theorem subsetLabel?_eq_iff (discoverable : a.Discoverable set) (second : a.Discoverable other)
    (declared : a.Declared) : subsetLabel? set = subsetLabel? other ↔ set = other := by
  refine ⟨fun same => ?_, congrArg subsetLabel?⟩
  exact discoverable.eq_of_subsetState_eq second declared (congrArg (·.getD .dead) same)

/-- The elimination of empty moves declares the same states. -/
theorem of_eliminateEpsilon (discoverable : a.eliminateEpsilon.Discoverable set) :
    a.Discoverable set := by
  have states := states_eliminateEpsilon (a := a)
  refine ⟨fun s member => states ▸ discoverable.declared s member, discoverable.live, ?_⟩
  refine discoverable.apart.imp_left fun unshared => ⟨states ▸ unshared.dead_not_mem, ?_⟩
  exact states ▸ unshared.eq_of_name

end Discoverable

theorem discoverable_of_mem_discoveredSets (wellFormed : a.WellFormed)
    (found : set ∈ a.discoveredSets budget) : a.Discoverable set := by
  have plain := wellFormed_eliminateEpsilon wellFormed
  obtain ⟨subset, discovered, rfl⟩ := List.mem_map.mp found
  obtain ⟨done, tracks⟩ := tracks_explore plain budget
  exact (tracks.discoverable plain discovered).of_eliminateEpsilon

theorem Unshared.discoverable (unshared : a.Unshared) (declared : ∀ s ∈ set, s ∈ a.states) :
    a.Discoverable set :=
  ⟨declared, fun s member dead => unshared.dead_not_mem (dead ▸ declared s member), .inl unshared⟩

/-- Two sets that the construction finds on an automaton at the end of a chain of stages have the same
label exactly if they are the same set, and so have any two sets of declared states of a general
automaton as it was built. No label is the sink, and no label of a set of two or more is declared. -/
theorem subsetLabels_injective (built : p.toAutomaton kind = .ok a) :
    (∀ stages budget budget', let b := Stage.chain stages a
      ∀ set ∈ b.discoveredSets budget, ∀ other ∈ b.discoveredSets budget',
        (∀ s ∈ set, s ∈ b.states ∧ s ≠ .dead) ∧ b.WellLabelled set ∧
          (subsetLabel? set = subsetLabel? other ↔ set = other)) ∧
    (kind = .general → ∀ set other : StateSet, (∀ s ∈ set, s ∈ a.states) →
      (∀ s ∈ other, s ∈ a.states) →
        a.WellLabelled set ∧ (subsetLabel? set = subsetLabel? other ↔ set = other)) := by
  have wellFormed := Parts.wellFormed_of_toAutomaton built
  constructor
  · intro stages budget budget' b set found other found'
    have sound : b.WellFormed := Stage.wellFormed_chain wellFormed stages
    have first := discoverable_of_mem_discoveredSets sound found
    have second := discoverable_of_mem_discoveredSets sound found'
    exact ⟨fun s member => ⟨first.declared s member, first.live s member⟩,
      first.wellLabelled sound.toDeclared, first.subsetLabel?_eq_iff second sound.toDeclared⟩
  · rintro rfl set other declared declared'
    have unshared := Parts.unshared_of_toAutomaton built
    have first := unshared.discoverable declared
    have second := unshared.discoverable declared'
    exact ⟨first.wellLabelled wellFormed.toDeclared,
      first.subsetLabel?_eq_iff second wellFormed.toDeclared⟩

/-- A set that is found is told from one that a smaller budget finds and from one that is not found. -/
theorem subsetLabels_injective_asThenBs :
    let a := asThenBs.collapse
    let set : StateSet := .ofList [.simple "a", .simple "b"]
    let missed : StateSet := .ofList [.simple "start", .simple "b"]
    set ∈ a.discoveredSets none ∧ .singleton a.initial ∈ a.discoveredSets (some 0) ∧
      missed ∉ a.discoveredSets none ∧ a.WellLabelled set ∧ a.WellLabelled missed ∧
      subsetLabel? set ≠ subsetLabel? (.singleton a.initial) ∧ subsetLabel? set ≠ subsetLabel? missed := by
  intro a set missed
  have found : set ∈ a.discoveredSets none := by decide +kernel
  have first : .singleton a.initial ∈ a.discoveredSets (some 0) := by decide +kernel
  obtain ⟨onFound, onDeclared⟩ := subsetLabels_injective toAutomaton_asThenBs
  obtain ⟨_, labelled, apart⟩ := onFound [] none (some 0) set found _ first
  have declared : ∀ l : StateSet, l.toList.all a.states.contains = true → ∀ s ∈ l, s ∈ a.states :=
    fun l all s member => UniqueList.contains_iff.mp (List.all_eq_true.mp all s member)
  obtain ⟨labelled', apart'⟩ := onDeclared rfl missed set (declared _ (by decide)) (declared _ (by decide))
  refine ⟨found, first, by decide +kernel, labelled, labelled', fun same => ?_, fun same => ?_⟩
  · exact absurd (apart.mp same) (by decide)
  · exact absurd (apart'.mp same.symm) (by decide)

end Automaton

end Determinize
