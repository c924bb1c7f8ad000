import Determinize.Proofs.Path

/-!
Accepted words. A word is accepted if and only if it is spelled along a path from the initial state to
a final state (`accepts_iff_exists_path`), a path being a list of transitions, each with the
destination that it is taken to. This holds of any automaton, well-formed or not: whatever cycles of
empty moves it has, however many transitions leave a state on the same letter, and although a run
reads no further when no state is left.
-/

namespace Determinize

/-- A transition, and the destination of it that a path goes to. -/
structure Hop where
  transition : Transition
  destination : State

namespace Automaton

variable {a : Automaton} {s t : State} {w : List String} {path : List Hop}

/-- The hops take transitions of the automaton from one state to another, each from where the one
before it went. -/
def Path (a : Automaton) : State → List Hop → State → Prop
  | s, [], t => s = t
  | s, hop :: path, t =>
    hop.transition ∈ a.transitions ∧ hop.transition.source = s ∧
      hop.destination ∈ hop.transition.destinations ∧ a.Path hop.destination path t

/-- The symbols along a path with the empty moves left out. -/
def spelled (path : List Hop) : List String :=
  path.filterMap fun hop => hop.transition.symbol.letter?

theorem spells_of_path (follows : a.Path s path t) : a.Spells s (spelled path) t := by
  induction path generalizing s with
  | nil =>
    cases follows
    exact .done
  | cons hop path ih =>
    obtain ⟨listed, source, target, rest⟩ := follows
    cases symbol : hop.transition.symbol with
    | epsilon =>
      have word : spelled (hop :: path) = spelled path :=
        List.filterMap_cons_none (congrArg Symbol.letter? symbol)
      rw [word]
      exact .glide ⟨hop.transition, listed, source, symbol, target⟩ (ih rest)
    | letter x =>
      have word : spelled (hop :: path) = x :: spelled path :=
        List.filterMap_cons_some (congrArg Symbol.letter? symbol)
      rw [word]
      exact .read ⟨hop.transition, listed, source, symbol, target⟩ (ih rest)

theorem exists_path_of_spells (spells : a.Spells s w t) :
    ∃ path, a.Path s path t ∧ spelled path = w := by
  induction spells with
  | done => exact ⟨[], rfl, rfl⟩
  | glide step _ ih =>
    obtain ⟨m, listed, source, symbol, target⟩ := step
    obtain ⟨path, follows, rfl⟩ := ih
    refine ⟨⟨m, _⟩ :: path, ⟨listed, source, target, follows⟩, ?_⟩
    exact List.filterMap_cons_none (congrArg Symbol.letter? symbol)
  | read step _ ih =>
    obtain ⟨m, listed, source, symbol, target⟩ := step
    obtain ⟨path, follows, rfl⟩ := ih
    refine ⟨⟨m, _⟩ :: path, ⟨listed, source, target, follows⟩, ?_⟩
    exact List.filterMap_cons_some (congrArg Symbol.letter? symbol)

/-- A word is accepted exactly if a path from the initial state to a final state spells it. -/
theorem accepts_iff_exists_path (a : Automaton) (w : List String) :
    a.accepts w = true ↔
      ∃ path t, a.Path a.initial path t ∧ t ∈ a.finals ∧ spelled path = w := by
  rw [accepts_iff]
  constructor
  · intro h
    obtain ⟨t, final, spells⟩ := h
    obtain ⟨path, follows, word⟩ := exists_path_of_spells spells
    exact ⟨path, t, follows, final, word⟩
  · rintro ⟨path, t, follows, final, rfl⟩
    exact ⟨t, final, spells_of_path follows⟩

end Automaton

end Determinize
