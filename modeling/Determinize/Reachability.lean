import Determinize.Transition

/-!
# Reachability

The states that can be reached along the edges of a finite graph. A search grows a set by whole
rounds until a round adds nothing; every other round adds the target of some edge, so there are at
most as many rounds as edges.
-/

namespace Determinize

structure Graph where
  edges : List (State × State)

namespace Graph

def ofTransitions (ts : List Transition) : Graph :=
  ⟨ts.flatMap fun t => t.destinations.toList.map fun d => (t.source, d)⟩

def epsilon (ts : List Transition) : Graph := ofTransitions (ts.filter fun t => t.symbol.isEpsilon)

/-- A set with the targets of all edges that leave it. -/
def grow (g : Graph) (seen : StateSet) : StateSet :=
  seen.insertAll ((g.edges.filter fun e => seen.contains e.1).map fun e => e.2)

/-- Grows a set until it stands still, at most a given number of times. -/
def saturate (g : Graph) : Nat → StateSet → StateSet
  | 0, seen => seen
  | rounds + 1, seen =>
    let next := g.grow seen
    if next = seen then seen else g.saturate rounds next

def reach (g : Graph) (s : State) : StateSet := g.saturate g.edges.length (SortedSet.singleton s)

end Graph

end Determinize
