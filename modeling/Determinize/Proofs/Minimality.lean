import Determinize.Proofs.Canonical
import Determinize.Proofs.Pipeline

/-!
Determinization and then the merging of classes make the smallest deterministic automaton. It is total
for any language; if some word is accepted, it is canonical (`canonical_canonicalize`). If none is, the
walks from all states end alike, and only the initial state and the sink can be left.
-/

namespace Determinize

namespace Automaton

variable {a b : Automaton} {s t : State} {x : String} {w : List String}

/-- The deterministic automaton of the sets of states, with its classes merged. -/
def canonicalize (a : Automaton) : Automaton := (a.determinize none).dfa.minimize .refine

/-! ### The subset construction -/

theorem total_determinize (wellFormed : a.WellFormed) : (a.determinize none).dfa.Total := by
  refine ⟨(wellFormed_determinize wellFormed).toDeclared, isDeterministic_determinize wellFormed,
    fun s member x letter => ?_⟩
  rw [alphabet_determinize] at letter
  obtain ⟨t, next⟩ := nextState?_determinize wellFormed member letter
  obtain ⟨m, listed, source, symbol, _⟩ := step_of_nextState? next
  exact ⟨m, listed, source, symbol⟩

theorem equivalent_determinize (wellFormed : a.WellFormed) : (a.determinize none).dfa.Equivalent a :=
  ⟨fun x => by rw [alphabet_determinize], fun w => accepts_determinize wellFormed⟩

/-! ### The merging of classes -/

theorem total_minimize (total : a.Total) (mode : MergeMode) : (a.minimize mode).Total := by
  refine ⟨declared_minimize total.declared, isDeterministic_minimize total.declared mode,
    fun s member x letter => ?_⟩
  obtain ⟨present, live⟩ := (mem_states_minimize total.declared).mp member
  obtain ⟨t, _, next⟩ := total.exists_nextState? present letter
  have next' : (a.minimize mode).nextState? s (.letter x) = some _ :=
    (nextState?_minimize total.declared).trans
      (((Reduction.reachable_reduce total.declared mode).next?_eq total.declared live).trans
        (congrArg _ next))
  obtain ⟨m, listed, source, symbol, _⟩ := step_of_nextState? next'
  exact ⟨m, listed, source, symbol⟩

/-- States left by the merging of classes are told apart by a word, but for the initial state and the
sink. -/
theorem eq_or_spared_of_refined (declared : a.Declared) (first : s ∈ (a.minimize .refine).states)
    (second : t ∈ (a.minimize .refine).states)
    (same : (a.minimize .refine).chart.outcome? s = (a.minimize .refine).chart.outcome? t) :
    s = t ∨ s = a.initial ∧ t = .dead ∨ s = .dead ∧ t = a.initial := by
  rw [outcome?_minimize declared first, outcome?_minimize declared second] at same
  exact Reduction.refined_reduce declared s t ((mem_states_minimize declared).mp first).2
    ((mem_states_minimize declared).mp second).2 same

/-! ### The canonical automaton -/

theorem total_canonicalize (wellFormed : a.WellFormed) : a.canonicalize.Total :=
  total_minimize (total_determinize wellFormed) .refine

theorem equivalent_minimize (total : a.Total) (mode : MergeMode) : (a.minimize mode).Equivalent a :=
  ⟨fun _ => Iff.rfl, fun _ => accepts_minimize total.declared total.deterministic mode⟩

theorem equivalent_canonicalize (wellFormed : a.WellFormed) : a.canonicalize.Equivalent a :=
  (equivalent_minimize (total_determinize wellFormed) .refine).trans (equivalent_determinize wellFormed)

/-- If some word is accepted, no word leads from the sink where it leads from the initial state. -/
theorem outcome?_initial_ne_dead (wellFormed : a.WellFormed) (deterministic : a.isDeterministic = true)
    (accepted : a.accepts w = true) : a.chart.outcome? a.initial ≠ a.chart.outcome? .dead := by
  intro same
  have ends := (accepts_iff_outcome? deterministic).mp accepted
  rw [same] at ends
  obtain ⟨t, walked, final⟩ := Option.map_eq_some_iff.mp ends
  exact wellFormed.dead_rejects (leads_of_walk? walked) (isFinal_iff.mp final)

/-- If some word is accepted, the automaton has no state to spare. -/
theorem canonical_canonicalize (wellFormed : a.WellFormed) (accepted : a.accepts w = true) :
    a.canonicalize.Canonical := by
  have before := total_determinize wellFormed
  have total := total_canonicalize wellFormed
  have merged : (a.determinize none).dfa.Equivalent a.canonicalize :=
    (equivalent_minimize before .refine).symm
  have apart : a.canonicalize.chart.outcome? a.canonicalize.initial ≠
      a.canonicalize.chart.outcome? .dead := by
    refine outcome?_initial_ne_dead (w := w) ?_ total.deterministic ?_
    · exact wellFormed_minimize (wellFormed_determinize wellFormed) .refine
    · rw [(equivalent_canonicalize wellFormed).words, accepted]
  have distinct : ∀ s ∈ a.canonicalize.states, ∀ t ∈ a.canonicalize.states,
      a.canonicalize.chart.outcome? s = a.canonicalize.chart.outcome? t → s = t := by
    intro s first t second same
    obtain equal | ⟨rfl, rfl⟩ | ⟨rfl, rfl⟩ :=
      eq_or_spared_of_refined before.declared first second same
    · exact equal
    · exact absurd same apart
    · exact absurd same.symm apart
  refine ⟨total, fun s member => ?_, distinct⟩
  obtain ⟨present, _⟩ := (mem_states_minimize before.declared).mp member
  -- the word that led to the state before the merges leads to one that no word tells apart from it
  obtain ⟨w, _, walked⟩ := exists_walk?_determinize wellFormed present
  obtain ⟨t, present', walked', same⟩ := before.exists_alike total merged walked
  have kept : a.canonicalize.chart.outcome? s = (a.determinize none).dfa.chart.outcome? s :=
    outcome?_minimize before.declared member
  have equal : t = s := distinct t present' s member (same.trans kept.symm)
  exact ⟨w, equal ▸ walked'⟩

/-- If no word is accepted, only the initial state and the sink are left. -/
theorem eq_initial_or_dead (wellFormed : a.WellFormed) (rejects : ∀ w, a.accepts w = false)
    (member : s ∈ a.canonicalize.states) : s = a.canonicalize.initial ∨ s = .dead := by
  have before := total_determinize wellFormed
  have rejects' : ∀ w, (a.determinize none).dfa.accepts w = false := fun w =>
    ((equivalent_determinize wellFormed).words w).trans (rejects w)
  obtain ⟨present, _⟩ := (mem_states_minimize before.declared).mp member
  obtain ⟨w, _, walked⟩ := exists_walk?_determinize wellFormed present
  have same : a.canonicalize.chart.outcome? s =
      a.canonicalize.chart.outcome? a.canonicalize.initial := by
    have initial := outcome?_minimize before.declared (total_canonicalize wellFormed).declared.initial
    exact (outcome?_minimize before.declared member).trans
      ((before.outcome?_eq_initial rejects' walked).trans initial.symm)
  obtain equal | ⟨initial, _⟩ | ⟨dead, _⟩ := eq_or_spared_of_refined before.declared member
    (total_canonicalize wellFormed).declared.initial same
  · exact .inl equal
  · exact .inl initial
  · exact .inr dead

theorem states_of_rejects (wellFormed : a.WellFormed) (rejects : ∀ w, a.accepts w = false) :
    (∀ s, s ∈ a.canonicalize.states ↔ s = a.canonicalize.initial) ∨
      a.canonicalize.initial ≠ .dead ∧
        ∀ s, s ∈ a.canonicalize.states ↔ s = a.canonicalize.initial ∨ s = .dead := by
  have initial := (total_canonicalize wellFormed).declared.initial
  by_cases both : a.canonicalize.initial ≠ .dead ∧ .dead ∈ a.canonicalize.states
  · obtain ⟨different, dead⟩ := both
    refine .inr ⟨different, fun s => ⟨eq_initial_or_dead wellFormed rejects, ?_⟩⟩
    rintro (rfl | rfl)
    · exact initial
    · exact dead
  · refine .inl fun s => ⟨fun member => ?_, fun same => same ▸ initial⟩
    obtain same | rfl := eq_initial_or_dead wellFormed rejects member
    · exact same
    · exact Decidable.byContradiction fun different => both ⟨Ne.symm different, member⟩

/-- No total automaton for the same words is smaller. -/
theorem size_canonicalize_le (wellFormed : a.WellFormed) (accepted : a.accepts w = true)
    (total : b.Total) (same : a.Equivalent b) : a.canonicalize.states.size ≤ b.states.size :=
  (canonical_canonicalize wellFormed accepted).size_le total
    ((equivalent_canonicalize wellFormed).trans same)

/-- Automata for the same words come to the same automaton up to the names of the states. -/
theorem exists_renames_canonicalize (wellFormed : a.WellFormed) (other : b.WellFormed)
    (accepted : a.accepts w = true) (same : a.Equivalent b) :
    ∃ f, Renames f a.canonicalize b.canonicalize := by
  have accepted' : b.accepts w = true := by rw [← same.words, accepted]
  have equivalent : a.canonicalize.Equivalent b.canonicalize :=
    ((equivalent_canonicalize wellFormed).trans same).trans (equivalent_canonicalize other).symm
  exact (canonical_canonicalize wellFormed accepted).exists_renames
    (canonical_canonicalize other accepted') equivalent

/-- Determinization and the merging of classes make the smallest total automaton for the accepted
words, and the same one for the same words up to the names of the states. If no word is accepted, the
sink may be left beside the initial state. -/
theorem minimal_canonicalize {p : Parts} {kind : Kind} (built : p.toAutomaton kind = .ok a) :
    a.canonicalize.Total ∧ a.canonicalize.Equivalent a ∧
      ((∃ w, a.accepts w = true) →
        (∀ (q : Parts) b, q.toAutomaton .deterministic = .ok b → b.Complete → a.Equivalent b →
          a.canonicalize.states.size ≤ b.states.size) ∧
        ∀ (q : Parts) kind b, q.toAutomaton kind = .ok b → a.Equivalent b →
          ∃ f, Renames f a.canonicalize b.canonicalize) ∧
      ((∀ w, a.accepts w = false) →
        (∀ s, s ∈ a.canonicalize.states ↔ s = a.canonicalize.initial) ∨
          a.canonicalize.initial ≠ .dead ∧
            ∀ s, s ∈ a.canonicalize.states ↔ s = a.canonicalize.initial ∨ s = .dead) := by
  have wellFormed := Parts.wellFormed_of_toAutomaton built
  refine ⟨total_canonicalize wellFormed, equivalent_canonicalize wellFormed,
    fun ⟨w, accepted⟩ => ⟨?_, ?_⟩, states_of_rejects wellFormed⟩
  · intro q b builtOther complete same
    have other := Parts.wellFormed_of_toAutomaton builtOther
    have deterministic := (Parts.determined_of_toAutomaton builtOther).deterministic
    exact size_canonicalize_le wellFormed accepted ⟨other.toDeclared, deterministic, complete⟩ same
  · intro q kind b builtOther same
    have other := Parts.wellFormed_of_toAutomaton builtOther
    exact exists_renames_canonicalize wellFormed other accepted same

/-- One state, and no word. -/
def noWord : Parts where
  initial := .simple "start"
  finals := []
  states := [.simple "start"]
  alphabet := ["a"]
  transitions := []

theorem minimal_canonicalize_asThenBs :
    asThenBs.collapse.canonicalize.states.size ≤ (asThenBs.collapse.determinize none).dfa.states.size ∧
      (∃ f, Renames f asThenBs.collapse.canonicalize asThenBs.collapse.eliminateEpsilon.canonicalize) ∧
      ((∀ s, s ∈ noWord.collapse.canonicalize.states ↔ s = noWord.collapse.canonicalize.initial) ∨
        noWord.collapse.canonicalize.initial ≠ .dead ∧ ∀ s, s ∈ noWord.collapse.canonicalize.states ↔
          s = noWord.collapse.canonicalize.initial ∨ s = .dead) := by
  have wellFormed := Parts.wellFormed_of_toAutomaton toAutomaton_asThenBs
  have accepted : asThenBs.collapse.accepts ["a"] = true := by decide
  obtain ⟨smallest, unique⟩ :=
    (minimal_canonicalize toAutomaton_asThenBs).2.2.1 ⟨["a"], accepted⟩
  have rejects : ∀ w, noWord.collapse.accepts w = false := by
    intro w
    exact List.any_eq_false.mpr fun s _ => by simp [isFinal, UniqueList.contains, Parts.collapse,
      noWord, UniqueList.ofList, UniqueList.collapse]
  have built : noWord.toAutomaton .general = .ok noWord.collapse := by decide
  refine ⟨?_, ?_, (minimal_canonicalize built).2.2.2 rejects⟩
  · exact smallest (asThenBs.collapse.determinize none).dfa.parts _ (by decide +kernel)
      (total_determinize wellFormed).complete (equivalent_determinize wellFormed).symm
  · have words := fun w => (accepts_eliminateEpsilon (w := w) wellFormed.toDeclared).symm
    exact unique asThenBs.collapse.eliminateEpsilon.parts .general _ (by decide +kernel)
      ⟨fun x => by rw [alphabet_eliminateEpsilon], words⟩

end Automaton

end Determinize
