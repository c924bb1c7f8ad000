import Determinize.Transition
import Determinize.UniqueList

/-!
# Adjacency tables

A graph as a table that is made once and then searched from many states. States are numbered in the
order in which they come up, and the row of a number lists the numbers that its edges lead to. The
table is made longer only when the target of an edge is entered, so it may be behind the numbers for
a time. Nothing comes of a number that has no row or stands for no state.
-/

namespace Determinize

structure Adjacency where
  states : UniqueList State
  rows : List (List Nat)
deriving DecidableEq

namespace Adjacency

def empty : Adjacency := ⟨.ofList [], []⟩

/-- The place of a state among those that have a number. -/
def number (g : Adjacency) (s : State) : Nat := g.states.toList.idxOf s

/-- Gives a state the next number, unless it has one. -/
def enter (g : Adjacency) (s : State) : Adjacency := { g with states := g.states.insert s }

/-- Makes the table as long as there are numbers. -/
def resize (g : Adjacency) : Adjacency :=
  { g with rows := (g.rows.take g.states.size).rightpad g.states.size [] }

def push (g : Adjacency) (source target : Nat) : Adjacency :=
  { g with rows := g.rows.modify source fun row => row ++ [target] }

/-- Enters an edge, if there is a row for the number it comes from. -/
def link? (source : Nat) (g : Adjacency) (d : State) : Option Adjacency :=
  let g := (g.enter d).resize
  if source < g.rows.length then some (g.push source (g.number d)) else none

def addMove? (g : Adjacency) (t : Transition) : Option Adjacency :=
  let g := g.enter t.source
  t.destinations.toList.foldlM (link? (g.number t.source)) g

/-- The table of the empty moves among some transitions. -/
def epsilon? (ts : List Transition) : Option Adjacency :=
  ((ts.filter fun t => t.symbol.isEpsilon).foldlM addMove? empty).map resize

/-! ### Searches -/

/-- A search in depth: the numbers it has been to, and those still to be looked at, the next one
first. -/
structure Search where
  visited : List Nat
  stack : List Nat

def step? (g : Adjacency) (e : Search) : Option Search :=
  match e.stack with
  | [] => some e
  | i :: rest =>
    if i ∈ e.visited then some { e with stack := rest }
    else (g.rows[i]?).map fun row =>
      let visited := i :: e.visited
      ⟨visited, (row.filter fun j => decide (j ∉ visited)).reverse ++ rest⟩

/-- Searches until nothing is left to be looked at; `none` if that takes more steps than a given
number. -/
def search? (g : Adjacency) : Nat → Search → Option (List Nat)
  | 0, e => if e.stack.isEmpty then some e.visited else none
  | limit + 1, e =>
    if e.stack.isEmpty then some e.visited else (g.step? e).bind (g.search? limit)

/-- The states reachable from `s`, which may be without a number. Every step but the first looks at
the target of an edge. -/
def reach? (g : Adjacency) (s : State) : Option StateSet :=
  if s ∈ g.states.toList then do
    let visited ← g.search? (g.rows.flatten.length + 1) ⟨[], [g.number s]⟩
    let found ← visited.mapM fun i => g.states.toList[i]?
    return (SortedSet.singleton s).insertAll found
  else some (SortedSet.singleton s)

def epsilon (ts : List Transition) : Adjacency := (epsilon? ts).getD empty

def reach (g : Adjacency) (s : State) : StateSet := (g.reach? s).getD (SortedSet.singleton s)

end Adjacency

/-- The states reachable from `s` by empty moves alone. -/
def epsilonClosure (s : State) (ts : List Transition) : StateSet := (Adjacency.epsilon ts).reach s

end Determinize
