import Determinize.State.Label
import Determinize.Symbol

/-!
# Errors

Why a description does not make an automaton. The first ten causes lie in the automaton as a
whole, the last two in a single transition.
-/

namespace Determinize

inductive Error
  | reservedName (name : String)
  | invalidStateName (name : String)
  | unknownInitialState (state : State)
  | unknownFinalState (state : State)
  | unknownState (state : State)
  | unknownLetter (letter : String)
  | epsilonInAlphabet
  | sharedName (name : String)
  | notDeterministic (source : State) (symbol : Symbol)
  | deadStateAccepts
  | noDestination (source : State) (symbol : Symbol)
  | invalidStateLabel (label : String)
deriving DecidableEq

namespace Error

/-- Whether the cause lies in a single transition. -/
def isOfTransition : Error → Bool
  | noDestination _ _ => true
  | invalidStateLabel _ => true
  | _ => false

def detail : Error → String
  | reservedName name => "state name " ++ name ++ " is reserved"
  | invalidStateName name => "\x60" ++ name ++ "\x60 is not a valid state name"
  | unknownInitialState s => "initial state " ++ s.label ++ " is not a declared state"
  | unknownFinalState s => "final state " ++ s.label ++ " is not a declared state"
  | unknownState s => "transition refers to undeclared state " ++ s.label
  | unknownLetter letter => "transition refers to symbol " ++ letter ++ " outside the alphabet"
  | epsilonInAlphabet => "the epsilon symbol cannot be part of the alphabet"
  | sharedName name => "name " ++ name ++ " belongs to more than one state"
  | notDeterministic s x =>
    s.label ++ " has an epsilon move or more than one " ++ x.text ++ " move"
  | deadStateAccepts => "a final state is reachable from the DEAD state"
  | noDestination s x => s.label ++ " --" ++ x.text ++ "--> has no destination"
  | invalidStateLabel label => "\x60" ++ label ++ "\x60 is not a state label"

def message (e : Error) : String :=
  (if e.isOfTransition then "malformed transition: " else "invalid automaton: ") ++ e.detail

end Error

end Determinize
