import Determinize.MergeMode
import Determinize.State.Label

/-!
# Events

What the stages report of their work: each event has a level and a text.
-/

namespace Determinize

inductive Level
  | warn
  | info
  | debug
  | trace
deriving DecidableEq

namespace Level

def title : Level → String
  | warn => "WARN"
  | info => "INFO"
  | debug => "DEBUG"
  | trace => "TRACE"

end Level

inductive Event
  /-- Empty moves were replaced: the numbers of transitions before and after. -/
  | eliminated (before after : Nat)
  | expanding (state : State)
  | moving (source : State) (letter : String) (destination : State)
  | addingDead (source : State) (letter : String)
  | constructed (states steps : Nat) (interrupted : Bool)
  | merging (removed kept : State)
  | minimized (mode : MergeMode) (merged : Nat)
  /-- The construction came to its end, or its budget did. -/
  | finished (steps : Nat)
  | stopped (steps : Nat)
deriving DecidableEq

namespace Event

def level : Event → Level
  | moving _ _ _ => .trace
  | finished _ => .info
  | stopped _ => .warn
  | _ => .debug

def text : Event → String
  | eliminated before after =>
    "epsilon elimination: " ++ toString before ++ " transitions became " ++ toString after
  | expanding s => "expanding " ++ s.label
  | moving s x d => s.label ++ ", " ++ x ++ " -> " ++ d.label
  | addingDead s x => s.label ++ " has no " ++ x ++ " move, adding the DEAD state"
  | constructed states steps interrupted =>
    "subset construction: " ++ toString states ++ " states after " ++ toString steps ++ " steps"
      ++ (if interrupted then " (interrupted)" else "")
  | merging r k => "merging " ++ r.label ++ " into " ++ k.label
  | minimized mode merged =>
    mode.title ++ " minimization merged " ++ toString merged ++ " states"
  | finished steps => "subset construction finished in " ++ toString steps ++ " steps"
  | stopped steps => "subset construction stopped after " ++ toString steps ++ " steps"

/-- The line of the event in a log. -/
def line (e : Event) : String := e.level.title ++ " " ++ e.text

end Event

end Determinize
