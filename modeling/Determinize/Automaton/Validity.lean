import Determinize.Automaton
import Determinize.Error
import Determinize.Reachability

/-!
# Well-formed automata

The parts of an automaton make one only if they fit together. What is allowed depends on the kind:
a general automaton has neither the dead sink nor a name in two states, a deterministic one may
have both but must be deterministic, and its sink must accept nothing. `Parts.defect?` is the first
thing wrong with the parts, `Parts.toAutomaton` the automaton they make when nothing is.
-/

namespace Determinize

inductive Kind
  | general
  | deterministic
deriving DecidableEq

/-- What is said about an automaton before it is checked; collections may repeat elements. -/
structure Parts where
  initial : State
  finals : List State
  states : List State
  alphabet : List String
  transitions : List Transition
deriving DecidableEq

namespace State

def nameDefect? (name : String) : Option Error :=
  if name ∈ reservedNames then some (.reservedName name)
  else if validName name then none
  else some (.invalidStateName name)

/-- What is wrong with a state of an automaton of the given kind, wherever it occurs. -/
def defect? (kind : Kind) : State → Option Error
  | dead => match kind with
    | .general => some (.reservedName deadLabel)
    | .deterministic => none
  | simple name => nameDefect? name
  | composite names =>
    if names.toList.length < 2 then some (.invalidStateName (composite names).label)
    else names.toList.findSome? nameDefect?

end State

namespace Parts

/-- What is wrong with a state that has to be declared. -/
def undeclared? (p : Parts) (kind : Kind) (unknown : State → Error) (s : State) : Option Error :=
  (s.defect? kind).or (if s ∈ p.states then none else some (unknown s))

def transitionDefect? (p : Parts) (kind : Kind) (t : Transition) : Option Error :=
  if t.destinations.isEmpty then some (.noDestination t.source t.symbol)
  else ((t.source :: t.destinations.toList).findSome? (p.undeclared? kind .unknownState)).or <|
    match t.symbol with
    | .epsilon => none
    | .letter x => if x ∈ p.alphabet then none else some (.unknownLetter x)

/-- What is wrong with the declarations, whatever the transitions do. -/
def declarationDefect? (p : Parts) (kind : Kind) : Option Error :=
  (p.states.findSome? (State.defect? kind)).or <|
  (p.undeclared? kind .unknownInitialState p.initial).or <|
  (p.finals.findSome? (p.undeclared? kind .unknownFinalState)).or <|
  if p.alphabet.any Symbol.isEpsilonText then some .epsilonInAlphabet else none

def firstRepeated? (earlier : List String) : List String → Option String
  | [] => none
  | name :: rest => if name ∈ earlier then some name else firstRepeated? (name :: earlier) rest

/-- The first name that an earlier declared state has too. -/
def sharedName? (p : Parts) : Option String :=
  firstRepeated? [] ((UniqueList.ofList p.states).toList.flatMap State.members)

def graph (p : Parts) : Graph := Graph.ofTransitions p.transitions

/-- The destinations of the transitions that leave a state, in the order in which they come. -/
def targets (p : Parts) (s : State) : List State :=
  (p.transitions.filter fun t => decide (t.source = s)).flatMap fun t => t.destinations.toList

/-- Whether a search in depth comes to a final state. It has been to some states and still has to
look at others, the next one first. `none` if it takes more steps than a given number. -/
def meetsFinal? (p : Parts) : Nat → List State → List State → Option Bool
  | _, _, [] => some false
  | 0, _, _ :: _ => none
  | limit + 1, visited, s :: stack =>
    if s ∈ visited then p.meetsFinal? limit visited stack
    else if s ∈ p.finals then some true
    else p.meetsFinal? limit (s :: visited) ((p.targets s).reverse ++ stack)

/-- Whether the sink is declared and a final state can be reached from it. Every step but the first
looks at a destination of some transition. -/
def deadAccepts? (p : Parts) : Option Bool :=
  p.meetsFinal? ((p.transitions.flatMap fun t => t.destinations.toList).length + 1) []
    (if .dead ∈ p.states then [.dead] else [])

def deadAccepts (p : Parts) : Bool := p.deadAccepts?.getD false

/-- What is wrong with the parts as an automaton of one kind though all of them are declared. -/
def kindDefect? (p : Parts) : Kind → Option Error
  | .general => p.sharedName?.map .sharedName
  | .deterministic =>
    ((Automaton.firstConflict? [] p.transitions).map fun t => .notDeterministic t.source t.symbol).or
      (if p.deadAccepts then some .deadStateAccepts else none)

def defect? (p : Parts) (kind : Kind) : Option Error :=
  (p.declarationDefect? kind).or <|
  (p.transitions.findSome? (p.transitionDefect? kind)).or <|
  p.kindDefect? kind

/-- The automaton with these parts, repetitions collapsed onto the first occurrence. -/
def collapse (p : Parts) : Automaton where
  initial := p.initial
  finals := .ofList p.finals
  states := .ofList p.states
  alphabet := .ofList p.alphabet
  transitions := p.transitions

def toAutomaton (p : Parts) (kind : Kind) : Except Error Automaton :=
  match p.defect? kind with
  | some e => .error e
  | none => .ok p.collapse

end Parts

namespace Automaton

def parts (a : Automaton) : Parts where
  initial := a.initial
  finals := a.finals.toList
  states := a.states.toList
  alphabet := a.alphabet.toList
  transitions := a.transitions

theorem collapse_parts (a : Automaton) : a.parts.collapse = a := by
  simp [parts, Parts.collapse, UniqueList.ofList_toList]

end Automaton

end Determinize
