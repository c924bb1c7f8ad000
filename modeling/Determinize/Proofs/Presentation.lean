import Determinize.Proofs.Budget
import Determinize.Proofs.Pipeline

/-!
Presentations of an automaton. Automata that list their states, their final states and their moves
differently but have the same moves also have the same moves once the empty ones are eliminated
(`Alike.eliminateEpsilon`), so the search from the initial state comes to the same sets. The order of
the letters is all that the order of the search depends on, and a search that comes to its end finds
the same sets in any order (`determinize_eq_of_alike`).
-/

namespace Determinize

theorem UniqueList.size_eq {α : Type} {s t : UniqueList α} (same : ∀ a, a ∈ s ↔ a ∈ t) :
    s.size = t.size :=
  ((List.perm_ext_iff_of_nodup s.nodup t.nodup).mpr same).length_eq

namespace Exploration

variable {a b : Automaton} {e : Exploration} {done : List Subset} {found : Subset}

/-- The search asks an automaton only for its letters and for where they lead from sets of states. -/
theorem run_congr (targets : target a = target b) (letters : a.alphabet = b.alphabet)
    (limit : Nat) (e : Exploration) : run a limit e = run b limit e := by
  have follows : follow a = follow b := by
    funext current e x
    simp only [follow, addDead, targets, letters]
  have steps : step a = step b := by
    funext e
    simp only [step, expand, follows, letters]
  induction limit generalizing e with
  | zero => rfl
  | succ limit ih => rw [run, run, steps, ih]

/-- A search that comes to its end has found the sets that words lead to. -/
theorem mem_discovered_iff (wellFormed : a.WellFormed) (tracks : Tracks a e done [] []) :
    found ∈ e.discovered ↔ ∃ w : List String, (∀ x ∈ w, x ∈ a.alphabet) ∧
      found = ⟨reached a w, subsetState (reached a w)⟩ := by
  have labelled : ∀ found ∈ e.discovered, found = ⟨found.members, subsetState found.members⟩ :=
    fun found member => by rw [← tracks.label found member]
  constructor
  · intro member
    obtain ⟨w, allowed, led⟩ := tracks.word found member
    exact ⟨w, allowed, led ▸ labelled found member⟩
  · intro h
    obtain ⟨w, allowed, same⟩ := h
    have known := (walk?_toAutomaton wellFormed tracks allowed).1
    obtain ⟨other, member, led⟩ := knows_iff.mp known
    rw [same, ← led, ← labelled other member]
    exact member

theorem mem_transitions_iff (tracks : Tracks a e done [] []) {m : Transition} :
    m ∈ e.transitions ↔ ∃ found ∈ e.discovered, ∃ x ∈ a.alphabet, m = move a found x := by
  have expanded : ∀ found, found ∈ e.discovered ↔ found ∈ done := fun found =>
    ⟨mem_done tracks, tracks.mem_discovered⟩
  simp only [expanded]
  exact tracks.mem_transitions

end Exploration

namespace Automaton

open Exploration (reached target)

variable {a b : Automaton} {s t : State} {y : Symbol} {x : String} {w : List String}

/-- The automata differ in how they list their states, final states and moves, and perhaps in their
letters. -/
structure Alike (a b : Automaton) : Prop where
  initial : a.initial = b.initial
  states : ∀ s, s ∈ a.states ↔ s ∈ b.states
  finals : ∀ s, s ∈ a.finals ↔ s ∈ b.finals
  next : ∀ s ∈ a.states, ∀ y, a.nextStates s y = b.nextStates s y

theorem hasEpsilon_iff (declared : a.Declared) :
    a.hasEpsilon = true ↔ ∃ s t, a.Step s .epsilon t := by
  constructor
  · intro some
    obtain ⟨m, listed, empty⟩ := List.any_eq_true.mp some
    obtain ⟨t, target⟩ := (declared.transitions m listed).nonempty
    refine ⟨m.source, t, m, listed, rfl, ?_, target⟩
    cases symbol : m.symbol with
    | epsilon => rfl
    | letter x =>
      rw [symbol] at empty
      cases empty
  · intro h
    obtain ⟨s, t, step⟩ := h
    apply Decidable.byContradiction
    intro none
    exact not_step_epsilon (Bool.eq_false_iff.mpr none) step

namespace Alike

variable (alike : Alike a b)

include alike

theorem isFinal_eq : a.isFinal = b.isFinal := by
  funext s
  rw [Bool.eq_iff_iff, isFinal_iff, isFinal_iff]
  exact alike.finals s

section Declared

variable (declared : a.Declared) (other : b.Declared)

include declared other

theorem step_eq : a.Step = b.Step := by
  funext s y t
  apply propext
  by_cases member : s ∈ a.states
  · rw [← mem_nextStates, ← mem_nextStates, alike.next s member y]
  · refine iff_of_false (fun step => ?_) fun step => ?_
    · exact member (step_mem_states declared step).1
    · exact member ((alike.states s).mpr (step_mem_states other step).1)

theorem hasEpsilon_eq : a.hasEpsilon = b.hasEpsilon := by
  rw [Bool.eq_iff_iff, hasEpsilon_iff declared, hasEpsilon_iff other, alike.step_eq declared other]

theorem glides_eq : a.Glides = b.Glides := by
  unfold Glides
  rw [alike.step_eq declared other]

theorem closedNext_eq : a.closedNext = b.closedNext := by
  funext s x
  apply SortedSet.ext
  intro t
  rw [mem_closedNext, mem_closedNext, alike.step_eq declared other, alike.glides_eq declared other]

theorem target_eq : target a = target b := by
  funext set x
  apply SortedSet.ext
  intro t
  rw [Exploration.mem_target, Exploration.mem_target, alike.step_eq declared other]

theorem reached_eq : reached a = reached b := by
  funext w
  rw [reached, reached, alike.initial, alike.target_eq declared other]

/-- Elimination keeps automata alike. -/
theorem eliminateEpsilon (letters : ∀ x, x ∈ a.alphabet ↔ x ∈ b.alphabet) :
    Alike a.eliminateEpsilon b.eliminateEpsilon := by
  cases some : a.hasEpsilon with
  | false =>
    have none := (alike.hasEpsilon_eq declared other).symm.trans some
    rwa [eliminateEpsilon_eq_self some, eliminateEpsilon_eq_self none]
  | true =>
    have some' := (alike.hasEpsilon_eq declared other).symm.trans some
    have steps : ∀ s y t, a.eliminateEpsilon.Step s y t ↔ b.eliminateEpsilon.Step s y t := by
      intro s y t
      cases y with
      | epsilon =>
        exact iff_of_false (not_step_epsilon hasEpsilon_eliminateEpsilon)
          (not_step_epsilon hasEpsilon_eliminateEpsilon)
      | letter x =>
        rw [step_eliminateEpsilon some, step_eliminateEpsilon some', alike.states, letters,
          alike.closedNext_eq declared other]
    have finals : ∀ s, s ∈ a.closedFinals ↔ s ∈ b.closedFinals := by
      intro s
      simp only [mem_closedFinals, alike.finals, alike.initial, alike.glides_eq declared other]
    refine ⟨?_, ?_, ?_, fun s _ y => SortedSet.ext fun t => ?_⟩
    · rw [initial_eliminateEpsilon, initial_eliminateEpsilon, alike.initial]
    · rw [states_eliminateEpsilon, states_eliminateEpsilon]
      exact alike.states
    · rw [finals_eliminateEpsilon some, finals_eliminateEpsilon some']
      exact finals
    · rw [mem_nextStates, mem_nextStates, steps]

end Declared

/-- Where the letters come in the same order, so does all that the search finds. -/
theorem explore_eq (declared : a.Declared) (other : b.Declared) (letters : a.alphabet = b.alphabet)
    (budget : Option Nat) : a.explore budget = b.explore budget := by
  have start : Exploration.start a = Exploration.start b := by
    rw [Exploration.start, Exploration.start, alike.initial]
  have count : a.subsetCount = b.subsetCount := by
    rw [subsetCount, subsetCount, UniqueList.size_eq alike.states]
  rw [explore, explore, start, count]
  exact Exploration.run_congr (alike.target_eq declared other) letters _ _

theorem determinize_eq (declared : a.Declared) (other : b.Declared)
    (letters : a.alphabet = b.alphabet) (budget : Option Nat) :
    a.determinize budget = b.determinize budget := by
  have plain := alike.eliminateEpsilon declared other fun x => by rw [letters]
  have same : a.eliminateEpsilon.alphabet = b.eliminateEpsilon.alphabet := by
    rw [alphabet_eliminateEpsilon, alphabet_eliminateEpsilon, letters]
  have explored := plain.explore_eq (declared_eliminateEpsilon declared)
    (declared_eliminateEpsilon other) same budget
  simp only [determinize, explored, Exploration.toAutomaton, Exploration.finals, plain.initial,
    plain.isFinal_eq, same]

/-! ### Letters in another order -/

section Letters

variable (wellFormed : a.WellFormed) (other : b.WellFormed)
  (letters : ∀ x, x ∈ a.alphabet ↔ x ∈ b.alphabet)

include wellFormed other letters

theorem mem_discovered_iff {found : Subset} :
    found ∈ (a.explore none).discovered ↔ found ∈ (b.explore none).discovered := by
  obtain ⟨_, tracks⟩ := tracks_finished wellFormed
  obtain ⟨_, tracks'⟩ := tracks_finished other
  rw [Exploration.mem_discovered_iff wellFormed tracks, Exploration.mem_discovered_iff other tracks',
    alike.reached_eq wellFormed.toDeclared other.toDeclared]
  simp only [letters]

theorem mem_transitions_iff {m : Transition} :
    m ∈ (a.explore none).transitions ↔ m ∈ (b.explore none).transitions := by
  obtain ⟨_, tracks⟩ := tracks_finished wellFormed
  obtain ⟨_, tracks'⟩ := tracks_finished other
  have moves : ∀ found x, Exploration.move a found x = Exploration.move b found x := by
    intro found x
    rw [Exploration.move, Exploration.move,
      alike.target_eq wellFormed.toDeclared other.toDeclared]
  rw [Exploration.mem_transitions_iff tracks, Exploration.mem_transitions_iff tracks']
  simp only [alike.mem_discovered_iff wellFormed other letters, letters, moves]

/-- A construction without a budget does not depend on the order of the letters either, but for the
order in which it lists what it finds. -/
theorem determinize_same :
    (∀ s, s ∈ (a.determinize none).dfa.states ↔ s ∈ (b.determinize none).dfa.states) ∧
      (∀ s, s ∈ (a.determinize none).dfa.finals ↔ s ∈ (b.determinize none).dfa.finals) ∧
      (∀ s y, (a.determinize none).dfa.nextState? s y = (b.determinize none).dfa.nextState? s y) ∧
      (a.determinize none).steps = (b.determinize none).steps := by
  have plain := alike.eliminateEpsilon wellFormed.toDeclared other.toDeclared letters
  have wellFormed' := wellFormed_eliminateEpsilon wellFormed
  have other' := wellFormed_eliminateEpsilon other
  have letters' : ∀ x, x ∈ a.eliminateEpsilon.alphabet ↔ x ∈ b.eliminateEpsilon.alphabet := by
    simpa only [alphabet_eliminateEpsilon] using letters
  have found : ∀ found, found ∈ (a.eliminateEpsilon.explore none).discovered ↔
      found ∈ (b.eliminateEpsilon.explore none).discovered := fun _ =>
    plain.mem_discovered_iff wellFormed' other' letters'
  have states : ∀ s, s ∈ (a.determinize none).dfa.states ↔ s ∈ (b.determinize none).dfa.states := by
    intro s
    simp only [determinize, Exploration.Tracks.mem_states, found]
  refine ⟨states, fun s => ?_, fun s y => Option.ext fun t => ?_, ?_⟩
  · simp only [determinize, Exploration.Tracks.mem_finals, found, plain.finals]
  · rw [nextState?_eq_some_iff (isDeterministic_determinize wellFormed),
      nextState?_eq_some_iff (isDeterministic_determinize other)]
    exact exists_congr fun m =>
      and_congr_left fun _ => plain.mem_transitions_iff wellFormed' other' letters'
  · have counts := steps_determinize wellFormed
    have counts' := steps_determinize other
    have dead : (a.determinize none).dfa.hasState .dead = (b.determinize none).dfa.hasState .dead := by
      rw [Bool.eq_iff_iff, hasState, hasState, UniqueList.contains_iff, UniqueList.contains_iff]
      exact states .dead
    rw [dead, alike.initial, UniqueList.size_eq states] at counts
    omega

end Letters

end Alike

/-- The subset construction depends on the moves of an automaton and on the order of its letters, and
on nothing else in how the automaton is listed. Without a budget the order of the letters only decides
the order in which states and moves are found. -/
theorem determinize_eq_of_alike {p q : Parts} {kind kind' : Kind}
    (built : p.toAutomaton kind = .ok a) (built' : q.toAutomaton kind' = .ok b)
    (alike : Alike a b) :
    (a.alphabet = b.alphabet → ∀ budget, a.determinize budget = b.determinize budget) ∧
      ((∀ x, x ∈ a.alphabet ↔ x ∈ b.alphabet) →
        (∀ s, s ∈ (a.determinize none).dfa.states ↔ s ∈ (b.determinize none).dfa.states) ∧
        (∀ s, s ∈ (a.determinize none).dfa.finals ↔ s ∈ (b.determinize none).dfa.finals) ∧
        (∀ s y, (a.determinize none).dfa.nextState? s y = (b.determinize none).dfa.nextState? s y) ∧
        (a.determinize none).steps = (b.determinize none).steps) := by
  have wellFormed := Parts.wellFormed_of_toAutomaton built
  have other := Parts.wellFormed_of_toAutomaton built'
  exact ⟨alike.determinize_eq wellFormed.toDeclared other.toDeclared,
    alike.determinize_same wellFormed other⟩

/-- The states of `asThenBs` in another order, and its move on `a` split in two and listed twice. -/
def asThenBsSplit : Parts where
  initial := .simple "start"
  finals := [.simple "b"]
  states := [.simple "b", .simple "start", .simple "a"]
  alphabet := ["a", "b"]
  transitions := [⟨.simple "b", .letter "b", .singleton (.simple "b")⟩,
    ⟨.simple "a", .letter "a", .singleton (.simple "b")⟩,
    ⟨.simple "start", .epsilon, .singleton (.simple "a")⟩,
    ⟨.simple "a", .letter "a", .singleton (.simple "a")⟩,
    ⟨.simple "a", .letter "a", .ofList [.simple "a", .simple "b"]⟩]

theorem determinize_eq_of_alike_asThenBs :
    let reordered := { asThenBsSplit with alphabet := ["b", "a"] }
    asThenBs.collapse.determinize (some 2) = asThenBsSplit.collapse.determinize (some 2) ∧
      (asThenBs.collapse.determinize none).steps = (reordered.collapse.determinize none).steps := by
  intro reordered
  have next : ∀ s y t, asThenBs.collapse.Step s y t ↔ asThenBsSplit.collapse.Step s y t := by
    intro s y t
    simp only [Step, Parts.collapse, asThenBs, asThenBsSplit, List.mem_cons, List.not_mem_nil,
      or_and_right, exists_or, exists_eq_left, SortedSet.mem_singleton, SortedSet.mem_ofList]
    grind
  have alike : ∀ letters, Alike asThenBs.collapse
      ({ asThenBsSplit with alphabet := letters } : Parts).collapse := by
    intro letters
    refine ⟨rfl, fun s => ?_, fun s => Iff.rfl, fun s _ y => SortedSet.ext fun t => ?_⟩
    · simp only [Parts.collapse, asThenBs, asThenBsSplit, UniqueList.mem_ofList, List.mem_cons]
      grind
    · rw [mem_nextStates, mem_nextStates]
      exact next s y t
  have split : asThenBsSplit.toAutomaton .general = .ok asThenBsSplit.collapse := by decide
  have built : reordered.toAutomaton .general = .ok reordered.collapse := by decide
  have letters : ∀ x, x ∈ asThenBs.collapse.alphabet ↔ x ∈ reordered.collapse.alphabet := by
    intro x
    simp only [Parts.collapse, asThenBs, reordered, UniqueList.mem_ofList, List.mem_cons]
    grind
  exact ⟨(determinize_eq_of_alike toAutomaton_asThenBs split (alike _)).1 rfl (some 2),
    ((determinize_eq_of_alike toAutomaton_asThenBs built (alike _)).2 letters).2.2.2⟩

end Automaton

end Determinize
