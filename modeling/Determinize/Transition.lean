import Determinize.State
import Determinize.Symbol

/-!
# Transitions
-/

namespace Determinize

/-- A move from one state on one symbol to any of a set of states. -/
structure Transition where
  source : State
  symbol : Symbol
  destinations : StateSet
deriving DecidableEq

namespace Transition

def destination? (t : Transition) : Option State := t.destinations.single?

def isSingle (t : Transition) : Bool := !t.symbol.isEpsilon && t.destination?.isSome

def leaves (t : Transition) (s : State) (x : Symbol) : Bool :=
  decide (t.source = s) && decide (t.symbol = x)

end Transition

end Determinize
