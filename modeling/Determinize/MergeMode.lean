/-!
# Modes of merging

How states to merge are looked for: in one sweep over all pairs, in sweeps until one merges
nothing, or by partition refinement.
-/

namespace Determinize

inductive MergeMode
  | singlePass
  | fixpoint
  | refine
deriving DecidableEq

namespace MergeMode

/-- The name of the mode in a log. -/
def title : MergeMode → String
  | singlePass => "SinglePass"
  | fixpoint => "Fixpoint"
  | refine => "Refine"

/-- The name of the mode on a command line. -/
def name : MergeMode → String
  | singlePass => "single-pass"
  | fixpoint => "fixpoint"
  | refine => "refine"

def ofName? (text : String) : Option MergeMode :=
  [singlePass, fixpoint, refine].find? fun mode => decide (mode.name = text)

end MergeMode

end Determinize
