import Determinize.Proofs.Elimination
import Determinize.Proofs.Pipeline

/-!
The direct moves that take the place of empty ones. A state has one on a letter exactly if the letter leads
somewhere with empty moves before and after it, and it goes to all that the letter leads to so. Paths of
direct moves alone therefore end where the paths with empty moves did (`readsDirectly_iff`), and there is
nothing left to eliminate (`eliminateEpsilon_exact`).
-/

namespace Determinize

namespace Automaton

variable {a : Automaton} {s t : State} {x : String} {w : List String} {p : Parts} {kind : Kind}

/-- The letter leads from one state to the other with empty moves before and after it. -/
def LeadsAround (a : Automaton) (s : State) (x : String) (t : State) : Prop :=
  ∃ u, a.Glides s u ∧ ∃ d ∈ a.nextStates u (.letter x), a.Glides d t

/-- A path of one letter move for each letter of the word. -/
def ReadsDirectly (a : Automaton) : State → List String → State → Prop
  | s, [], t => s = t
  | s, x :: w, t => ∃ u, a.Step s (.letter x) u ∧ a.ReadsDirectly u w t

theorem mem_closedNext_iff : t ∈ a.closedNext s x ↔ a.LeadsAround s x t := by
  rw [mem_closedNext, LeadsAround]
  simp only [mem_nextStates, exists_and_left]

theorem source_of_closedMove? {m : Transition} (move : a.closedMove? s x = some m) :
    m.source = s ∧ m.symbol = .letter x := by
  simp only [closedMove?] at move
  split at move
  · cases move
  · cases move
    exact ⟨rfl, rfl⟩

theorem pairwise_closedMoves : a.closedMoves.Pairwise Transition.Apart := by
  refine List.pairwise_flatMap.mpr ⟨fun s _ => ?_, a.states.nodup.imp ?_⟩
  · refine List.pairwise_filterMap.mpr (a.alphabet.nodup.imp ?_)
    intro x y different m first n second
    rw [Transition.Apart, (source_of_closedMove? first).2, (source_of_closedMove? second).2]
    simpa using Or.inr different
  · intro s t different m first n second
    obtain ⟨x, _, first⟩ := List.mem_filterMap.mp first
    obtain ⟨y, _, second⟩ := List.mem_filterMap.mp second
    rw [Transition.Apart, (source_of_closedMove? first).1, (source_of_closedMove? second).1]
    exact .inl different

/-- A state has one direct move on a letter, or none if the letter leads nowhere. -/
theorem filter_leaves_closedMoves (declared : a.Declared) (start : s ∈ a.states) :
    a.closedMoves.filter (fun m => m.leaves s (.letter x)) =
      if a.closedNext s x = .empty then [] else [⟨s, .letter x, a.closedNext s x⟩] := by
  split
  · rename_i nowhere
    refine List.filter_eq_nil_iff.mpr fun m member leaves => ?_
    obtain ⟨s', _, y, _, ⟨d, target⟩, rfl⟩ := mem_closedMoves.mp member
    obtain ⟨source, symbol⟩ := Transition.leaves_iff.mp leaves
    cases source
    cases symbol
    rw [nowhere] at target
    exact SortedSet.not_mem_empty target
  · rename_i somewhere
    obtain ⟨d, target⟩ := SortedSet.exists_mem somewhere
    obtain ⟨_, _, _, ⟨m, listed, _, symbol, _⟩, _⟩ := mem_closedNext.mp target
    have letter := (declared.transitions m listed).letter x symbol
    exact Transition.filter_leaves_eq_singleton (t := ⟨s, .letter x, a.closedNext s x⟩)
      pairwise_closedMoves (mem_closedMoves.mpr ⟨s, start, x, letter, ⟨d, target⟩, rfl⟩)

theorem readsDirectly_iff_spells (noEpsilon : a.hasEpsilon = false) :
    a.ReadsDirectly s w t ↔ a.Spells s w t := by
  induction w generalizing s with
  | nil => rw [ReadsDirectly, spells_nil_iff, glides_iff_eq noEpsilon]
  | cons x w ih =>
    rw [ReadsDirectly, spells_cons_iff_of_no_epsilon noEpsilon]
    exact exists_congr fun u => and_congr_right fun _ => ih

/-- Direct moves lead where the paths of the given automaton lead, on every word but the empty one. -/
theorem readsDirectly_iff (declared : a.Declared) (start : s ∈ a.states) (nonempty : w ≠ []) :
    a.eliminateEpsilon.ReadsDirectly s w t ↔ a.Spells s w t := by
  rw [readsDirectly_iff_spells hasEpsilon_eliminateEpsilon]
  cases some : a.hasEpsilon with
  | false => rw [eliminateEpsilon_eq_self some]
  | true =>
    obtain ⟨x, w, rfl⟩ := List.exists_cons_of_ne_nil nonempty
    exact spells_eliminateEpsilon_iff declared some start

theorem closedFinals_eq :
    ((∃ f ∈ a.finals, a.Glides a.initial f) → a.closedFinals = a.finals.insert a.initial) ∧
      ((¬ ∃ f ∈ a.finals, a.Glides a.initial f) → a.closedFinals = a.finals) := by
  rw [← reach_meets_finals_iff, closedFinals]
  exact ⟨fun found => if_pos found, fun missed => if_neg missed⟩

/-- Elimination puts one direct move on a letter in the place of all paths of the letter with empty moves
around it, and makes the initial state final if empty moves lead from it to a final state. What paths lead
to stays the same, and without empty moves nothing changes. -/
theorem eliminateEpsilon_exact (built : p.toAutomaton kind = .ok a) :
    let e := a.eliminateEpsilon
    (a.hasEpsilon = true →
      e.hasEpsilon = false ∧
      (∀ s ∈ a.states, ∀ x, ∃ union : StateSet, (∀ t, t ∈ union ↔ a.LeadsAround s x t) ∧
        e.transitions.filter (fun m => m.leaves s (.letter x)) =
          if union = .empty then [] else [⟨s, .letter x, union⟩]) ∧
      ((∃ f ∈ a.finals, a.Glides a.initial f) → e.finals = a.finals.insert a.initial) ∧
      ((¬ ∃ f ∈ a.finals, a.Glides a.initial f) → e.finals = a.finals)) ∧
    (e.initial = a.initial ∧ e.states = a.states ∧ e.alphabet = a.alphabet) ∧
    (∀ s ∈ a.states, ∀ w, w ≠ [] → ∀ t, e.ReadsDirectly s w t ↔ a.Spells s w t) ∧
    (a.hasEpsilon = false → e = a) ∧ e.eliminateEpsilon = e := by
  intro e
  have declared := (Parts.wellFormed_of_toAutomaton built).toDeclared
  refine ⟨fun some => ⟨hasEpsilon_eliminateEpsilon, fun s start x => ?_, ?_⟩,
    ⟨initial_eliminateEpsilon, states_eliminateEpsilon, alphabet_eliminateEpsilon⟩,
    fun s start w nonempty t => readsDirectly_iff declared start nonempty, eliminateEpsilon_eq_self,
    eliminateEpsilon_eq_self hasEpsilon_eliminateEpsilon⟩
  · refine ⟨a.closedNext s x, fun t => mem_closedNext_iff, ?_⟩
    have moves : e.transitions = a.closedMoves := congrArg transitions (if_pos some)
    rw [moves, filter_leaves_closedMoves declared start]
  · rw [finals_eliminateEpsilon some]
    exact closedFinals_eq

/-- From `start` the letter `a` leads to `a` and `b` by way of an empty move. -/
theorem eliminateEpsilon_exact_asThenBs :
    let a := asThenBs.collapse
    let e := a.eliminateEpsilon
    a.hasEpsilon = true ∧ e.hasEpsilon = false ∧
      e.transitions.filter (fun m => m.leaves (.simple "start") (.letter "a")) =
        [⟨.simple "start", .letter "a", .ofList [.simple "a", .simple "b"]⟩] ∧
      (∀ t, a.LeadsAround (.simple "start") "a" t ↔ t = .simple "a" ∨ t = .simple "b") ∧
      (∀ t, e.ReadsDirectly (.simple "start") ["a", "b"] t ↔
        a.Spells (.simple "start") ["a", "b"] t) ∧
      e.eliminateEpsilon = e := by
  intro a e
  have some : a.hasEpsilon = true := by decide
  have start : State.simple "start" ∈ a.states := UniqueList.contains_iff.mp (by decide)
  have direct : e.transitions.filter (fun m => m.leaves (.simple "start") (.letter "a")) =
      [⟨.simple "start", .letter "a", .ofList [.simple "a", .simple "b"]⟩] := by decide
  obtain ⟨eliminated, _, paths, _, again⟩ := eliminateEpsilon_exact toAutomaton_asThenBs
  obtain ⟨none, moves, _⟩ := eliminated some
  obtain ⟨union, around, move⟩ := moves _ start "a"
  refine ⟨some, none, direct, fun t => ?_, fun t => paths _ start ["a", "b"] (by simp) t, again⟩
  rw [direct] at move
  split at move
  · cases move
  · obtain rfl : SortedSet.ofList [.simple "a", .simple "b"] = union := by simpa using move
    rw [← around, SortedSet.mem_ofList, List.mem_pair]

end Automaton

end Determinize
