import Determinize.WorkingCopy

/-!
The working copy of merging as a table by names. A `Reduction` has a row for every state that is still
there, with its finality and its moves by letter, and the merges made so far; the row of a state that is
removed is gone. What merging does to the working copy it does to this table (`Proofs.Representation`),
and it is the table that the theory of merging speaks of.
-/

namespace Determinize

/-- A state with its finality and, in the order of the alphabet, the letters it has a move on with
the states they lead to. -/
structure Row where
  state : State
  isFinal : Bool
  moves : List (String × State)
deriving DecidableEq

namespace Row

def next? (row : Row) (x : String) : Option State := row.moves.lookup x

def agrees (row other : Row) : Bool :=
  decide (row.isFinal = other.isFinal) && decide (row.moves = other.moves)

/-- Sends the moves to one state to another instead. -/
def redirect (removed kept : State) (row : Row) : Row :=
  { row with moves := row.moves.map fun (x, d) => (x, if d = removed then kept else d) }

end Row

structure Merge where
  removed : State
  kept : State
deriving DecidableEq

structure Reduction where
  rows : List Row
  merges : List Merge := []
deriving DecidableEq

namespace Reduction

/-- The table before any merge. A state has the move of its first transition on each letter. -/
def start (a : Automaton) : Reduction where
  rows := a.states.toList.map fun s =>
    { state := s
      isFinal := a.isFinal s
      moves := a.alphabet.toList.filterMap fun x =>
        (a.nextState? s (.letter x)).map fun d => (x, d) }

def row? (m : Reduction) (s : State) : Option Row := m.rows.find? fun row => decide (row.state = s)

def isLive (m : Reduction) (s : State) : Bool := (m.row? s).isSome

def isFinal (m : Reduction) (s : State) : Bool := (m.row? s).any (·.isFinal)

def next? (m : Reduction) (s : State) (x : String) : Option State :=
  (m.row? s).bind fun row => row.next? x

/-- Removes a state and sends its incoming moves to another one. -/
def remove (m : Reduction) (removed kept : State) : Reduction where
  rows := (m.rows.filter fun row => decide (row.state ≠ removed)).map (Row.redirect removed kept)
  merges := m.merges ++ [⟨removed, kept⟩]

/-! ### Sweeps -/

/-- The first other state with a row that agrees with a given one. -/
def twin? (m : Reduction) (row : Row) : Option State :=
  (m.rows.find? fun other => decide (other.state ≠ row.state) && row.agrees other).map Row.state

/-- Merges another state into the initial one if both are there and their rows agree. The sink
stays. -/
def absorb (initial : State) (m : Reduction) (s : State) : Reduction :=
  match m.row? initial, m.row? s with
  | some row, some other =>
    if s ≠ initial && !s.isDead && row.agrees other then m.remove s initial else m
  | _, _ => m

/-- Merges a state into the first other one whose row agrees. The initial state stays and is given
every state whose row agrees with its own when it is tried; the sink stays. -/
def mergeState (a : Automaton) (m : Reduction) (s : State) : Reduction :=
  match m.row? s with
  | none => m
  | some row =>
    if s = a.initial then a.states.toList.foldl (absorb s) m
    else if s.isDead then m
    else match m.twin? row with
      | some kept => m.remove s kept
      | none => m

def sweep (a : Automaton) (m : Reduction) : Reduction := a.states.toList.foldl (mergeState a) m

/-- Sweeps until a sweep merges nothing, at most a given number of times. -/
def sweeps (a : Automaton) : Nat → Reduction → Reduction
  | 0, m => m
  | limit + 1, m =>
    let next := m.sweep a
    if next.merges.length = m.merges.length then next else sweeps a limit next

/-! ### Partition refinement -/

/-- The states that are still there, divided into classes. -/
abbrev Partition := List (List State)

def classOf (p : Partition) (s : State) : Nat := p.findIdx fun members => decide (s ∈ members)

/-- The class of a row and the classes its moves lead to. -/
def signature (p : Partition) (row : Row) : Nat × List (String × Nat) :=
  (classOf p row.state, row.moves.map fun (x, d) => (x, classOf p d))

/-- Final states apart from the others. -/
def finality (m : Reduction) : Partition :=
  (groupBy Row.isFinal m.rows).map fun rows => rows.map Row.state

/-- Divides the classes by where the moves of their members lead. -/
def split (m : Reduction) (p : Partition) : Partition :=
  (groupBy (signature p) m.rows).map fun rows => rows.map Row.state

/-- Divides until the number of classes stands still, at most a given number of times. -/
def refine (m : Reduction) : Nat → Partition → Partition
  | 0, p => p
  | limit + 1, p =>
    let next := m.split p
    if next.length = p.length then next else m.refine limit next

/-- The classes of states that no word tells apart. -/
def classes (m : Reduction) : Partition := m.refine m.rows.length m.finality

/-- The member of a class that stays: the initial state, else the sink, else the first. -/
def keeper? (initial : State) (members : List State) : Option State :=
  if initial ∈ members then some initial
  else if .dead ∈ members then some .dead
  else members.head?

/-- Merges the members of a class into the one that stays; the sink stays too. -/
def mergeClass (initial : State) (m : Reduction) (members : List State) : Reduction :=
  match keeper? initial members with
  | none => m
  | some kept =>
    (members.filter fun s => decide (s ≠ kept) && !s.isDead).foldl (fun m s => m.remove s kept) m

def mergeClasses (a : Automaton) (m : Reduction) : Reduction :=
  m.classes.foldl (mergeClass a.initial) m

/-! ### The reduced automaton -/

/-- The table after all merges of a mode. Every sweep but the last removes a state, so there are
no more sweeps than states. -/
def reduce (a : Automaton) : MergeMode → Reduction
  | .singlePass => (start a).sweep a
  | .fixpoint => (start a).sweeps a a.states.size
  | .refine => (start a).mergeClasses a

/-- The moves of the table in the order of the given transitions, one for each state and letter. -/
def transitions (m : Reduction) (earlier : List Transition) : List Transition → List Transition
  | [] => []
  | t :: rest =>
    let more := m.transitions (t :: earlier) rest
    if earlier.any fun e => e.leaves t.source t.symbol then more
    else match t.symbol.letter?.bind (m.next? t.source) with
      | some d => ⟨t.source, t.symbol, SortedSet.singleton d⟩ :: more
      | none => more

def toAutomaton (m : Reduction) (a : Automaton) : Automaton :=
  { a with
    finals := a.finals.filter m.isLive
    states := a.states.filter m.isLive
    transitions := m.transitions [] a.transitions }

end Reduction

end Determinize
