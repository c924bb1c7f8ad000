import Determinize.Automaton.Elimination

/-!
# The language of an automaton

A word is a list of letters. The automaton is in a set of states at a time: the initial one with
what empty moves add, then after each letter what the letter and empty moves after it lead to. Once
it is in no state at all, it reads no further.
-/

namespace Determinize

namespace Automaton

/-- Where a letter leads from a set of states, with empty moves after it. -/
def advance (a : Automaton) (current : StateSet) (x : String) : StateSet :=
  let next := current.toList.flatMap fun s => (a.nextStates s (.letter x)).toList
  SortedSet.ofList (next.flatMap fun d => (a.epsilonGraph.reach d).toList)

/-- Reads a word from a set of states, but no more of it when no state is left. -/
def run (a : Automaton) (current : StateSet) : List String → StateSet
  | [] => current
  | x :: word =>
    let next := a.advance current x
    if next.isEmpty then next else a.run next word

def statesAfter (a : Automaton) (word : List String) : StateSet :=
  a.run (a.epsilonGraph.reach a.initial) word

def accepts (a : Automaton) (word : List String) : Bool :=
  (a.statesAfter word).toList.any a.isFinal

end Automaton

/-- The words of a length in the order of the letters, the last position varying fastest. -/
def wordsOfLength (letters : List String) : Nat → List (List String)
  | 0 => [[]]
  | n + 1 => letters.flatMap fun x => (wordsOfLength letters n).map fun w => x :: w

/-- The words of at most a length, shorter ones first. -/
def wordsUpTo (letters : List String) (length : Nat) : List (List String) :=
  (List.range (length + 1)).flatMap (wordsOfLength letters)

end Determinize
