import Determinize.Automaton.Elimination

/-!
# Subset construction

A deterministic automaton whose states stand for sets of states of the given one. The sets are
found by a search from the initial state that keeps a stack of the sets still to be expanded; a
letter that leads nowhere goes to the dead sink, which is added when it is first needed.

The sink accepts nothing, so it is left out of the sets. Every expansion takes a set off the stack
that no earlier one took, so there are at most as many as sets of states.
-/

namespace Determinize

/-- The members of a list that are not the sink, as a set. -/
def liveStates (l : List State) : StateSet := SortedSet.ofList (l.filter fun s => !s.isDead)

/-- The state that stands for a set of live states: none for the empty set, the member for a set
of one, and the state with the names of all members otherwise. -/
def subsetLabel? (set : StateSet) : Option State :=
  match set.toList with
  | [] => none
  | [s] => some s
  | members => State.combine (members.flatMap State.members)

/-- A set of states together with the state that stands for it. -/
structure Subset where
  members : StateSet
  label : State
deriving DecidableEq

structure Exploration where
  /-- All sets found, in the order in which they were. -/
  discovered : List Subset
  /-- The sets still to be expanded, the next one first. -/
  pending : List Subset
  transitions : List Transition := []
  steps : Nat := 0
  events : List Event := []
deriving DecidableEq

namespace Exploration

def start (a : Automaton) : Exploration :=
  let initial : Subset := ⟨liveStates [a.initial], a.initial⟩
  { discovered := [initial], pending := [initial] }

def knows (e : Exploration) (set : StateSet) : Bool :=
  e.discovered.any fun found => decide (found.members = set)

def addMove (e : Exploration) (s : State) (x : String) (d : State) : Exploration :=
  { e with transitions := e.transitions ++ [⟨s, .letter x, SortedSet.singleton d⟩] }

def report (e : Exploration) (event : Event) : Exploration :=
  { e with events := e.events ++ [event] }

/-- Adds a set that has to be expanded, unless it is known. -/
def enqueue (e : Exploration) (found : Subset) : Exploration :=
  if e.knows found.members then e
  else { e with discovered := e.discovered ++ [found], pending := found :: e.pending }

/-- Adds the sink with its loops when a move on `x` from `s` first needs it. -/
def addDead (a : Automaton) (e : Exploration) (s : State) (x : String) : Exploration :=
  if e.knows .empty then e
  else
    let e := e.report (.addingDead s x)
    let e := a.alphabet.toList.foldl (fun e y => e.addMove .dead y .dead) e
    { e with discovered := e.discovered ++ [⟨.empty, .dead⟩] }

/-- The live states that a letter leads to from a set. -/
def target (a : Automaton) (set : StateSet) (x : String) : StateSet :=
  liveStates (set.toList.flatMap fun s => (a.nextStates s (.letter x)).toList)

def follow (a : Automaton) (current : Subset) (e : Exploration) (x : String) : Exploration :=
  let set := target a current.members x
  match subsetLabel? set with
  | some label =>
    ((e.report (.moving current.label x label)).addMove current.label x label).enqueue ⟨set, label⟩
  | none => (addDead a e current.label x).addMove current.label x .dead

def expand (a : Automaton) (current : Subset) (e : Exploration) : Exploration :=
  let e := a.alphabet.toList.foldl (follow a current) (e.report (.expanding current.label))
  { e with steps := e.steps + 1 }

def step (a : Automaton) (e : Exploration) : Exploration :=
  match e.pending with
  | [] => e
  | current :: rest => expand a current { e with pending := rest }

/-- Expands sets until none is left, but no more than a given number. -/
def run (a : Automaton) : Nat → Exploration → Exploration
  | 0, e => e
  | limit + 1, e => if e.pending.isEmpty then e else run a limit (step a e)

def isInterrupted (e : Exploration) : Bool := !e.pending.isEmpty

/-- The final ones among the states that stand for the sets found. -/
def finals (a : Automaton) (e : Exploration) : UniqueList State :=
  .ofList ((e.discovered.filter fun found => found.members.toList.any a.isFinal).map (·.label))

def toAutomaton (a : Automaton) (e : Exploration) : Automaton where
  initial := a.initial
  finals := e.finals a
  states := .ofList (e.discovered.map (·.label))
  alphabet := a.alphabet
  transitions := e.transitions

end Exploration

/-- A deterministic automaton, with the number of its states that were expanded and whether the
budget ran out before all were. -/
structure Construction where
  dfa : Automaton
  steps : Nat
  interrupted : Bool
deriving DecidableEq

namespace Automaton

/-- As many expansions as there are sets of declared states. -/
def subsetCount (a : Automaton) : Nat := Nat.pow 2 a.states.size

/-- The search from the initial state of an automaton without empty moves. -/
def explore (a : Automaton) (budget : Option Nat) : Exploration :=
  Exploration.run a (budget.getD a.subsetCount) (Exploration.start a)

/-- The deterministic automaton of the sets of states, with a budget on the number of sets that
are expanded. -/
def determinize (a : Automaton) (budget : Option Nat) : Construction :=
  let plain := a.eliminateEpsilon
  let e := plain.explore budget
  { dfa := e.toAutomaton plain, steps := e.steps, interrupted := e.isInterrupted }

def determinizeEvents (a : Automaton) (budget : Option Nat) : List Event :=
  let e := a.eliminateEpsilon.explore budget
  a.eliminationEvents ++ e.events ++
    [.constructed e.discovered.length e.steps e.isInterrupted]

end Automaton

end Determinize
