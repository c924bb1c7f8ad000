import Determinize.Automaton.Language
import Determinize.Main
import Determinize.Proofs.Closure
import Determinize.Proofs.Label
import Determinize.Proofs.WellFormed
import Determinize.Proofs.Path
import Determinize.Proofs.Acceptance
import Determinize.Proofs.ReadBack
import Determinize.Proofs.Walk
import Determinize.Proofs.Elimination
import Determinize.Proofs.SubsetLabel
import Determinize.Proofs.Exploration
import Determinize.Proofs.Determinization
import Determinize.Proofs.Budget
import Determinize.Proofs.Merging
import Determinize.Proofs.Sweep
import Determinize.Proofs.Reduced
import Determinize.Proofs.Refinement
import Determinize.Proofs.Modes
import Determinize.Proofs.Representation
import Determinize.Proofs.RepresentedSweeps
import Determinize.Proofs.RepresentedRefinement
import Determinize.Proofs.Pipeline
import Determinize.Proofs.ReachedSets
import Determinize.Proofs.Indistinguishable
import Determinize.Proofs.Quotient
import Determinize.Proofs.CommandRun
import Determinize.Proofs.Canonical
import Determinize.Proofs.Minimality
import Determinize.Proofs.Presentation
import Determinize.Proofs.Image
import Determinize.Proofs.Renaming
import Determinize.Proofs.RenamedSubsets
import Determinize.Proofs.RenamedMerging
import Determinize.Proofs.Yaml.RoundTrip
import Determinize.Proofs.Interruption
import Determinize.Proofs.DirectMoves
import Determinize.Proofs.Repetition
import Determinize.Proofs.Resumption
import Determinize.Proofs.Strength
import Determinize.Proofs.Fixpoint
import Determinize.Proofs.Acyclic
import Determinize.Proofs.Construction
import Determinize.Proofs.LabelSyntax
import Determinize.Proofs.DiscoveredSets
import Determinize.Proofs.WorkingCopy
import Determinize.Proofs.Rounds
