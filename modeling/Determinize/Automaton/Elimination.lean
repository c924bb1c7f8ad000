import Determinize.Adjacency
import Determinize.Automaton
import Determinize.Event

/-!
# Elimination of empty moves

A state gets, for every letter, one transition to all it can reach by empty moves, the letter, and
empty moves again. The initial state becomes final if empty moves alone lead from it to a final
state. An automaton without empty moves stays as it is.
-/

namespace Determinize

namespace Automaton

def epsilonGraph (a : Automaton) : Adjacency := .epsilon a.transitions

/-- Where a letter leads from a state with empty moves before and after it. -/
def closedNext (a : Automaton) (s : State) (x : String) : StateSet :=
  let graph := a.epsilonGraph
  let next := (graph.reach s).toList.flatMap fun u => (a.nextStates u (.letter x)).toList
  SortedSet.ofList ((SortedSet.ofList next).toList.flatMap fun d => (graph.reach d).toList)

/-- The direct move of a state on a letter, if the letter leads anywhere. -/
def closedMove? (a : Automaton) (s : State) (x : String) : Option Transition :=
  let destinations := a.closedNext s x
  if destinations.isEmpty then none else some ⟨s, .letter x, destinations⟩

/-- The direct moves of all states, by state and then by letter. -/
def closedMoves (a : Automaton) : List Transition :=
  a.states.toList.flatMap fun s => a.alphabet.toList.filterMap (a.closedMove? s)

/-- The final states, with the initial state among them if it reaches one by empty moves. -/
def closedFinals (a : Automaton) : UniqueList State :=
  if (a.epsilonGraph.reach a.initial).toList.any a.isFinal then a.finals.insert a.initial
  else a.finals

def eliminateEpsilon (a : Automaton) : Automaton :=
  if a.hasEpsilon then { a with finals := a.closedFinals, transitions := a.closedMoves } else a

def eliminationEvents (a : Automaton) : List Event :=
  if a.hasEpsilon then [.eliminated a.transitions.length a.closedMoves.length] else []

end Automaton

end Determinize
