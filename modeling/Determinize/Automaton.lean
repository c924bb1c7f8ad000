import Determinize.Transition
import Determinize.UniqueList

/-!
# Automata

A finite automaton over named states, possibly with empty moves, and the questions it answers
about its own transitions. Whether the parts fit together is the matter of `Automaton.Validity`.
-/

namespace Determinize

structure Automaton where
  initial : State
  finals : UniqueList State
  states : UniqueList State
  alphabet : UniqueList String
  transitions : List Transition
deriving DecidableEq

namespace Automaton

def hasState (a : Automaton) (s : State) : Bool := a.states.contains s

def hasLetter (a : Automaton) (x : String) : Bool := a.alphabet.contains x

def isFinal (a : Automaton) (s : State) : Bool := a.finals.contains s

def hasEpsilon (a : Automaton) : Bool := a.transitions.any fun t => t.symbol.isEpsilon

/-- Where the transitions of a state on a symbol go, taken together. -/
def nextStates (a : Automaton) (s : State) (x : Symbol) : StateSet :=
  SortedSet.ofList
    ((a.transitions.filter fun t => t.leaves s x).flatMap fun t => t.destinations.toList)

/-- The least destination of the first transition of a state on a symbol. -/
def nextState? (a : Automaton) (s : State) (x : Symbol) : Option State :=
  (a.transitions.find? fun t => t.leaves s x).bind fun t => t.destinations.min?

/-- The first transition that is not a letter move to one state, or that leaves the same state on
the same letter as an earlier one. -/
def firstConflict? (earlier : List Transition) : List Transition → Option Transition
  | [] => none
  | t :: rest =>
    if t.isSingle && !earlier.any fun e => e.leaves t.source t.symbol then
      firstConflict? (t :: earlier) rest
    else some t

/-- Whether each transition is a letter move to one state and leaves no state on the letter of an
earlier one. -/
def allNew (earlier : List Transition) : List Transition → Bool
  | [] => true
  | t :: rest =>
    !t.symbol.isEpsilon && decide (t.destinations.toList.length = 1)
      && !(earlier.any fun e => e.leaves t.source t.symbol) && allNew (t :: earlier) rest

/-- Whether every transition is a letter move to one state, and no two leave the same state on the
same letter. -/
def isDeterministic (a : Automaton) : Bool := allNew [] a.transitions

/-- Whether two automata have the same initial state, the same sets of final states, states and
letters, and the same list of transitions. -/
def agrees (a b : Automaton) : Bool :=
  decide (a.initial = b.initial) && a.finals.sameElements b.finals
    && a.states.sameElements b.states && a.alphabet.sameElements b.alphabet
    && decide (a.transitions = b.transitions)

end Automaton

end Determinize
