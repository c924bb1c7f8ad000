import Determinize.Automaton.Validity

/-!
# Descriptions

An automaton in writing: every state by its label, every symbol by its text. A description is read
as an automaton of the kind it claims to be, and every automaton has a description.
-/

namespace Determinize

/-- A transition in writing; an empty text for the symbol means an empty move. -/
structure MoveDescription where
  source : String
  symbol : String := ""
  destinations : List String
deriving DecidableEq

structure Description where
  initial : String
  finals : List String := []
  states : List String
  alphabet : List String
  moves : List MoveDescription := []
  /-- Whether the automaton is read as a deterministic one. -/
  deterministic : Bool := false
deriving DecidableEq

/-- Reads a label where a state is declared. -/
def declaredState (label : String) : Except Error State :=
  match State.ofLabel? label with
  | some s => .ok s
  | none => .error (.invalidStateName label)

/-- Reads a label in a transition. -/
def movingState (label : String) : Except Error State :=
  match State.ofLabel? label with
  | some s => .ok s
  | none => .error (.invalidStateLabel label)

namespace MoveDescription

/-- The destinations are read before the source. -/
def toTransition (m : MoveDescription) : Except Error Transition := do
  let destinations ← m.destinations.mapM movingState
  let source ← movingState m.source
  return ⟨source, .ofText m.symbol, SortedSet.ofList destinations⟩

def ofTransition (t : Transition) : MoveDescription where
  source := t.source.label
  symbol := t.symbol.text
  destinations := t.destinations.toList.map State.label

end MoveDescription

namespace Description

def toParts (d : Description) : Except Error Parts := do
  let initial ← declaredState d.initial
  let finals ← d.finals.mapM declaredState
  let states ← d.states.mapM declaredState
  let transitions ← d.moves.mapM MoveDescription.toTransition
  return ⟨initial, finals, states, d.alphabet, transitions⟩

def kind (d : Description) : Kind := if d.deterministic then .deterministic else .general

def toAutomaton (d : Description) : Except Error Automaton := do
  let parts ← d.toParts
  parts.toAutomaton d.kind

def ofAutomaton (a : Automaton) : Description where
  initial := a.initial.label
  finals := a.finals.toList.map State.label
  states := a.states.toList.map State.label
  alphabet := a.alphabet.toList
  moves := a.transitions.map MoveDescription.ofTransition
  deterministic := a.isDeterministic

end Description

end Determinize
