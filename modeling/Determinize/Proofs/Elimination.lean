import Determinize.Proofs.Path
import Determinize.Proofs.WellFormed

/-!
Elimination of empty moves. The direct moves of a state on a letter go where the paths go that spell
the letter alone, so the automaton without empty moves has the same paths on every word but the empty
one, and the initial state makes up for that. What was well-formed stays so.
-/

namespace Determinize

namespace Automaton

variable {a : Automaton} {s t : State} {x : String} {w : List String}

theorem eliminateEpsilon_eq_self (noEpsilon : a.hasEpsilon = false) : a.eliminateEpsilon = a := by
  rw [eliminateEpsilon, if_neg (by simp [noEpsilon])]

theorem mem_closedNext :
    t ∈ a.closedNext s x ↔ ∃ u d, a.Glides s u ∧ a.Step u (.letter x) d ∧ a.Glides d t := by
  simp only [closedNext, SortedSet.mem_ofList, List.mem_flatMap, SortedSet.mem_toList,
    mem_nextStates, mem_epsilonReach]
  constructor
  · intro h
    obtain ⟨d, ⟨u, before, step⟩, after⟩ := h
    exact ⟨u, d, before, step, after⟩
  · intro h
    obtain ⟨u, d, before, step, after⟩ := h
    exact ⟨d, ⟨u, before, step⟩, after⟩

theorem mem_closedMoves {m : Transition} :
    m ∈ a.closedMoves ↔ ∃ s ∈ a.states, ∃ x ∈ a.alphabet, (∃ d, d ∈ a.closedNext s x) ∧
      m = ⟨s, .letter x, a.closedNext s x⟩ := by
  simp only [closedMoves, List.mem_flatMap, List.mem_filterMap, closedMove?]
  refine exists_congr fun s => and_congr_right fun _ => exists_congr fun x => and_congr_right fun _ => ?_
  rw [← SortedSet.isEmpty_eq_false_iff]
  cases (a.closedNext s x).isEmpty <;> simp [eq_comm]

theorem step_eliminateEpsilon (some : a.hasEpsilon = true) :
    a.eliminateEpsilon.Step s (.letter x) t ↔ s ∈ a.states ∧ x ∈ a.alphabet ∧ t ∈ a.closedNext s x := by
  rw [eliminateEpsilon, if_pos some]
  constructor
  · rintro ⟨m, member, rfl, symbol, target⟩
    obtain ⟨s, declared, y, letter, _, rfl⟩ := mem_closedMoves.mp member
    cases symbol
    exact ⟨declared, letter, target⟩
  · intro h
    obtain ⟨declared, letter, target⟩ := h
    exact ⟨_, mem_closedMoves.mpr ⟨s, declared, x, letter, ⟨t, target⟩, rfl⟩, rfl, rfl, target⟩

theorem hasEpsilon_eliminateEpsilon : a.eliminateEpsilon.hasEpsilon = false := by
  unfold eliminateEpsilon
  split
  · apply List.any_eq_false.mpr
    intro m member
    obtain ⟨s, _, x, _, _, rfl⟩ := mem_closedMoves.mp member
    simp [Symbol.isEpsilon]
  · rename_i none
    exact Bool.eq_false_iff.mpr none

theorem reach_meets_finals_iff : (a.epsilonGraph.reach s).toList.any a.isFinal = true ↔
    ∃ f ∈ a.finals, a.Glides s f := by
  simp only [List.any_eq_true, SortedSet.mem_toList, mem_epsilonReach, isFinal_iff]
  exact exists_congr fun f => and_comm

theorem mem_closedFinals :
    t ∈ a.closedFinals ↔ t ∈ a.finals ∨ t = a.initial ∧ ∃ f ∈ a.finals, a.Glides a.initial f := by
  rw [closedFinals]
  split
  · rename_i found
    rw [UniqueList.mem_insert]
    simp [reach_meets_finals_iff.mp found]
  · rename_i missed
    rw [reach_meets_finals_iff] at missed
    simp [missed]

/-! ### Paths before and after -/

theorem step_mem_states (declared : a.Declared) {y : Symbol} (step : a.Step s y t) :
    s ∈ a.states ∧ t ∈ a.states := by
  obtain ⟨m, member, rfl, _, target⟩ := step
  have admitted := declared.transitions m member
  exact ⟨admitted.source, admitted.destinations t target⟩

theorem glides_mem_states (declared : a.Declared) (start : s ∈ a.states) (glides : a.Glides s t) :
    t ∈ a.states := by
  induction glides with
  | refl => exact start
  | tail _ step _ => exact (step_mem_states declared step).2

/-- A direct move stands for the paths that spell its letter. -/
theorem step_eliminateEpsilon_iff (declared : a.Declared) (some : a.hasEpsilon = true)
    (start : s ∈ a.states) :
    a.eliminateEpsilon.Step s (.letter x) t ↔ a.Spells s [x] t := by
  rw [step_eliminateEpsilon some, mem_closedNext, spells_cons_iff]
  simp only [spells_nil_iff]
  constructor
  · exact fun ⟨_, _, path⟩ => path
  · intro h
    obtain ⟨u, d, before, ⟨m, member, source, symbol, target⟩, after⟩ := h
    exact ⟨start, (declared.transitions m member).letter x symbol, u, d, before,
      ⟨m, member, source, symbol, target⟩, after⟩

theorem spells_eliminateEpsilon_iff (declared : a.Declared) (some : a.hasEpsilon = true)
    (start : s ∈ a.states) :
    a.eliminateEpsilon.Spells s (x :: w) t ↔ a.Spells s (x :: w) t := by
  have closed := hasEpsilon_eliminateEpsilon (a := a)
  induction w generalizing s x with
  | nil =>
    rw [spells_cons_iff_of_no_epsilon closed]
    simp only [spells_nil_iff, glides_iff_eq closed, exists_eq_right]
    exact step_eliminateEpsilon_iff declared some start
  | cons y w ih =>
    rw [spells_cons_iff_of_no_epsilon closed]
    constructor
    · intro h
      obtain ⟨u, step, path⟩ := h
      have first := (step_eliminateEpsilon_iff declared some start).mp step
      have next := ((step_eliminateEpsilon some).mp step).2.2
      obtain ⟨v, d, before, move, after⟩ := mem_closedNext.mp next
      have declaredNext := glides_mem_states declared (step_mem_states declared move).2 after
      exact first.append ((ih declaredNext).mp path)
    · intro path
      obtain ⟨v, d, before, move, rest⟩ := spells_cons_iff.mp path
      have declaredNext := (step_mem_states declared move).2
      refine ⟨d, (step_eliminateEpsilon_iff declared some start).mpr ?_, (ih declaredNext).mpr rest⟩
      exact spells_cons_iff.mpr ⟨v, d, before, move, .done⟩

theorem alphabet_eliminateEpsilon : a.eliminateEpsilon.alphabet = a.alphabet := by
  unfold eliminateEpsilon
  split <;> rfl

theorem initial_eliminateEpsilon : a.eliminateEpsilon.initial = a.initial := by
  unfold eliminateEpsilon
  split <;> rfl

theorem states_eliminateEpsilon : a.eliminateEpsilon.states = a.states := by
  unfold eliminateEpsilon
  split <;> rfl

theorem finals_eliminateEpsilon (some : a.hasEpsilon = true) :
    a.eliminateEpsilon.finals = a.closedFinals := by
  rw [eliminateEpsilon, if_pos some]

/-- Elimination keeps the accepted words. -/
theorem accepts_eliminateEpsilon (declared : a.Declared) :
    a.eliminateEpsilon.accepts w = a.accepts w := by
  cases some : a.hasEpsilon with
  | false => rw [eliminateEpsilon_eq_self some]
  | true =>
    rw [Bool.eq_iff_iff, accepts_iff, accepts_iff, initial_eliminateEpsilon,
      finals_eliminateEpsilon some]
    cases w with
    | nil =>
      simp only [spells_nil_iff, glides_iff_eq hasEpsilon_eliminateEpsilon, exists_eq_right',
        mem_closedFinals, true_and]
      exact or_iff_right_of_imp fun accepted => ⟨a.initial, accepted, .refl⟩
    | cons x w =>
      simp only [spells_eliminateEpsilon_iff declared some declared.initial, mem_closedFinals]
      constructor
      · rintro ⟨t, accepted | ⟨rfl, f, accepted, glides⟩, path⟩
        · exact ⟨t, accepted, path⟩
        · refine ⟨f, accepted, ?_⟩
          have := path.append (spells_nil_iff.mpr glides)
          rwa [List.append_nil] at this
      · intro h
        obtain ⟨t, accepted, path⟩ := h
        exact ⟨t, .inl accepted, path⟩

/-! ### Well-formed automata -/

theorem declared_eliminateEpsilon (declared : a.Declared) : a.eliminateEpsilon.Declared := by
  unfold eliminateEpsilon
  split
  · refine ⟨declared.valid, declared.initial, fun s member => ?_, declared.letters, fun m member => ?_⟩
    · rcases mem_closedFinals.mp member with old | ⟨rfl, _⟩
      · exact declared.finals s old
      · exact declared.initial
    · obtain ⟨s, start, x, letter, nonempty, rfl⟩ := mem_closedMoves.mp member
      refine ⟨start, nonempty, fun d target => ?_, fun y same => ?_⟩
      · show d ∈ a.states
        obtain ⟨_, _, _, step, after⟩ := mem_closedNext.mp target
        exact glides_mem_states declared (step_mem_states declared step).2 after
      · cases same
        exact letter
  · exact declared

theorem wellFormed_eliminateEpsilon (wellFormed : a.WellFormed) : a.eliminateEpsilon.WellFormed := by
  refine ⟨declared_eliminateEpsilon wellFormed.toDeclared, ?_⟩
  unfold eliminateEpsilon
  split
  · rename_i some
    have general : a.isDeterministic = false := by
      cases deterministic : a.isDeterministic with
      | false => rfl
      | true =>
        rw [hasEpsilon_eq_false deterministic] at some
        cases some
    have unshared := wellFormed.unshared general
    exact .inl ⟨unshared.dead_not_mem, unshared.eq_of_name⟩
  · exact wellFormed.kind

end Automaton

end Determinize
