import Determinize.Automaton
import Determinize.Event

/-!
# Merging of equivalent states

A deterministic automaton is made smaller by removing states and sending their incoming moves to
equivalent ones. The work is done on a copy of it in which states and letters are the numbers of their
places in the lists of the automaton. A state that is removed keeps its place, but is final no more
and its row is wiped. The initial state and the sink are never removed.
-/

namespace Determinize

structure WorkingCopy where
  alive : List Bool
  finals : List Bool
  /-- Where each letter leads from each state. -/
  rows : List (List (Option Nat))
  initial : Option Nat
  dead : Option Nat
  /-- The states removed so far, each with the one that was kept for it. -/
  merges : List (Nat × Nat) := []
deriving DecidableEq

/-- The elements of a list by their keys, a group for each key in the order in which the keys
first occur. -/
def groupBy {α κ : Type} [DecidableEq κ] (key : α → κ) (l : List α) : List (List α) :=
  let keyed := l.map fun a => (key a, a)
  (UniqueList.collapse (keyed.map fun e => e.1)).map fun k =>
    (keyed.filter fun e => decide (e.1 = k)).map fun e => e.2

namespace WorkingCopy

/-! ### The copy of an automaton -/

/-- Enters where a transition leads, unless an earlier one was entered for its state and letter. Of
several destinations the least is taken. -/
def enterMove (a : Automaton) (rows : List (List (Option Nat))) (t : Transition) :
    List (List (Option Nat)) :=
  match a.states.index? t.source, t.symbol.letter?.bind a.alphabet.index?,
    t.destinations.min?.bind a.states.index? with
  | some i, some x, some d => rows.modify i fun row => row.modify x fun dest => dest.or (some d)
  | _, _, _ => rows

def enterFinal (a : Automaton) (finals : List Bool) (s : State) : List Bool :=
  match a.states.index? s with
  | some i => finals.set i true
  | none => finals

def start (a : Automaton) : WorkingCopy where
  alive := List.replicate a.states.size true
  finals := a.finals.toList.foldl (enterFinal a) (List.replicate a.states.size false)
  rows := a.transitions.foldl (enterMove a)
    (List.replicate a.states.size (List.replicate a.alphabet.size none))
  initial := a.states.index? a.initial
  dead := a.states.index? .dead

def size (w : WorkingCopy) : Nat := w.rows.length

def isAlive (w : WorkingCopy) (i : Nat) : Bool := w.alive.getD i false

def next? (w : WorkingCopy) (i x : Nat) : Option Nat := w.rows[i]?.bind fun row => row[x]?.join

def equivalent (w : WorkingCopy) (i j : Nat) : Bool :=
  decide (w.finals[i]? = w.finals[j]?) && decide (w.rows[i]? = w.rows[j]?)

/-- What led to the removed state leads to the kept one. -/
def redirect (removed kept : Nat) (dest : Option Nat) : Option Nat :=
  if dest = some removed then some kept else dest

/-- Removes a state and sends its incoming moves to another one. -/
def remove (w : WorkingCopy) (removed kept : Nat) : WorkingCopy :=
  let wiped := w.rows.modify removed fun row => row.map fun _ => none
  { w with
    alive := w.alive.set removed false
    finals := w.finals.set removed false
    rows := wiped.map fun row => row.map (redirect removed kept)
    merges := w.merges ++ [(removed, kept)] }

/-! ### Sweeps -/

/-- Tries a state with others in turn and counts the merges. Of two equivalent states the first is
removed, and is tried no further, but the initial state has the other one removed. The sink stays. -/
def trial (i : Nat) : List Nat → WorkingCopy → Nat → WorkingCopy × Nat
  | [], w, merged => (w, merged)
  | j :: rest, w, merged =>
    if i = j || !w.isAlive i || !w.isAlive j || !w.equivalent i j then trial i rest w merged
    else
      let (removed, kept) := if some i = w.initial then (j, i) else (i, j)
      if some removed = w.dead then trial i rest w merged
      else if removed = i then (w.remove removed kept, merged + 1)
      else trial i rest (w.remove removed kept) (merged + 1)

/-- Tries every state with every other one, and tells how many were removed. -/
def sweep (w : WorkingCopy) : WorkingCopy × Nat :=
  (List.range w.size).foldl (fun (w, merged) i => trial i (List.range w.size) w merged) (w, 0)

/-- Sweeps until a sweep removes nothing, and tells how many states all of them removed; `none` if that
takes more sweeps than a given number. -/
def sweeps : Nat → WorkingCopy → Nat → Option (WorkingCopy × Nat)
  | 0, _, _ => none
  | limit + 1, w, total =>
    let (w, merged) := w.sweep
    if merged = 0 then some (w, total) else sweeps limit w (total + merged)

/-! ### Partition refinement -/

/-- The class of a state and the classes its moves lead to. -/
structure Signature where
  own : Nat
  leadsTo : List (Option Nat)
deriving DecidableEq

def signature (w : WorkingCopy) (classes : List Nat) (i : Nat) : Signature :=
  ⟨classes.getD i 0, (w.rows.getD i []).map fun dest => dest.map fun d => classes.getD d 0⟩

/-- A new class number for each signature that has come up, and the new classes of the states seen. -/
structure Renumbering where
  numbers : List (Signature × Nat)
  classes : List Nat

/-- Gives a state the number of its signature, the next one if the signature is new. -/
def renumber (w : WorkingCopy) (classes : List Nat) (r : Renumbering) (i : Nat) : Renumbering :=
  let signature := w.signature classes i
  match r.numbers.lookup signature with
  | some n => { r with classes := r.classes.set i n }
  | none =>
    let n := r.numbers.length
    ⟨r.numbers ++ [(signature, n)], r.classes.set i n⟩

/-- Divides the classes of some states by where the moves of their members lead. -/
def round (w : WorkingCopy) (live : List Nat) (classes : List Nat) : Renumbering :=
  live.foldl (w.renumber classes) ⟨[], List.replicate w.size 0⟩

/-- Divides until the number of classes stands still; `none` if that takes more rounds than a given
number. -/
def rounds (w : WorkingCopy) (live : List Nat) : Nat → List Nat → Nat → Option (List Nat)
  | 0, _, _ => none
  | limit + 1, classes, count =>
    let next := w.round live classes
    if next.numbers.length = count then some next.classes
    else w.rounds live limit next.classes next.numbers.length

/-- The member of a class that stays: the initial state, else the sink, else the first. -/
def keeper? (w : WorkingCopy) (members : List Nat) : Option Nat :=
  ((members.find? fun i => decide (some i = w.initial)).or
    (members.find? fun i => decide (some i = w.dead))).or members.head?

/-- Merges a state into the one that stays of its class and counts the merge. The sink stays too. -/
def mergeMember (kept : Nat) (state : WorkingCopy × Nat) (i : Nat) : WorkingCopy × Nat :=
  let (w, merged) := state
  if i = kept || decide (some i = w.dead) then (w, merged) else (w.remove i kept, merged + 1)

def mergeClass (state : WorkingCopy × Nat) (members : List Nat) : WorkingCopy × Nat :=
  match state.1.keeper? members with
  | some kept => members.foldl (mergeMember kept) state
  | none => state

def live (w : WorkingCopy) : List Nat := (List.range w.size).filter w.isAlive

/-- Final states apart from the others. -/
def finality (w : WorkingCopy) : List Nat := w.finals.map Bool.toNat

/-- The number of classes among the states that are there. -/
def count (w : WorkingCopy) (classes : List Nat) : Nat :=
  (UniqueList.collapse (w.live.map fun i => classes.getD i 0)).length

/-- Merges the states that no word tells apart, and tells how many were removed. As long as rounds go on
there are more classes after each, so there are no more rounds than states. -/
def refine? (w : WorkingCopy) : Option (WorkingCopy × Nat) :=
  (w.rounds w.live w.size w.finality (w.count w.finality)).map fun classes =>
    (groupBy (fun i => classes.getD i 0) w.live).foldl mergeClass (w, 0)

/-! ### The reduced automaton -/

/-- The copy after all merges of a mode, and their number. Every sweep but the last removes a state, so
there are no more sweeps than states. -/
def reduce? (w : WorkingCopy) : MergeMode → Option (WorkingCopy × Nat)
  | .singlePass => some w.sweep
  | .fixpoint => w.sweeps w.size 0
  | .refine => w.refine?

def reduce (a : Automaton) (mode : MergeMode) : WorkingCopy × Nat :=
  ((start a).reduce? mode).getD (start a, 0)

def keeps (w : WorkingCopy) (a : Automaton) (s : State) : Bool := (a.states.index? s).any w.isAlive

/-- The moves of the copy in the order of the given transitions, one for each state and letter. -/
def transitions (w : WorkingCopy) (a : Automaton) (emitted : List (Nat × Nat)) :
    List Transition → List Transition
  | [] => []
  | t :: rest =>
    match a.states.index? t.source, t.symbol.letter?.bind a.alphabet.index? with
    | some i, some x =>
      if !w.isAlive i || decide ((i, x) ∈ emitted) then w.transitions a emitted rest
      else
        let more := w.transitions a ((i, x) :: emitted) rest
        match (w.next? i x).bind fun d => a.states.toList[d]? with
        | some d => ⟨t.source, t.symbol, SortedSet.singleton d⟩ :: more
        | none => more
    | _, _ => w.transitions a emitted rest

def toAutomaton (w : WorkingCopy) (a : Automaton) : Automaton :=
  { a with
    finals := a.finals.filter (w.keeps a)
    states := a.states.filter (w.keeps a)
    transitions := w.transitions a [] a.transitions }

/-- What is said of the merges when they are made. -/
def mergings (w : WorkingCopy) (a : Automaton) : List Event :=
  w.merges.filterMap fun (removed, kept) => do
    return .merging (← a.states.toList[removed]?) (← a.states.toList[kept]?)

end WorkingCopy

namespace Automaton

/-- The automaton with equivalent states merged. Of an automaton that is not deterministic the
first transition of each state and letter counts, with its least destination. -/
def minimize (a : Automaton) (mode : MergeMode) : Automaton :=
  (WorkingCopy.reduce a mode).1.toAutomaton a

def minimizeEvents (a : Automaton) (mode : MergeMode) : List Event :=
  let (w, merged) := WorkingCopy.reduce a mode
  w.mergings a ++ [.minimized mode merged]

end Automaton

end Determinize
