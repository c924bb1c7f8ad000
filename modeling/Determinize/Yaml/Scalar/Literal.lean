import Determinize.Yaml.LineBreak

/-!
# Literal scalars

A text of several lines is written after a bar, every line that is not empty behind the same
indentation. The header says what becomes of the line breaks at the end, and, if the text begins
with a space or a break, how deep the indentation is.
-/

namespace Determinize.Yaml.Literal

/-- What becomes of the line breaks at the end: none is kept, one is, or all are. -/
inductive Chomping
  | strip
  | clip
  | keep
deriving DecidableEq

def Chomping.apply (text : List Char) : Chomping → List Char
  | strip => dropFinalBreaks text
  | keep => text
  | clip =>
    let body := dropFinalBreaks text
    if body = [] then [] else body ++ (finalBreaks text).take 1

/-! ### Writing -/

/-- The chomping that keeps a text as it is. -/
def chompingOf (text : List Char) : Chomping :=
  if finalBreaks text = [] then .strip
  else if (finalBreaks text).length = 1 && dropFinalBreaks text != [] then .clip
  else .keep

def Chomping.mark : Chomping → List Char
  | strip => ['-']
  | clip => []
  | keep => ['+']

/-- Whether the indentation has to be said, as the first line does not show it. -/
def needsIndentation : List Char → Bool
  | c :: _ => c == ' ' || isBreak c
  | [] => false

def header (text : List Char) : List Char :=
  '|' :: (if needsIndentation text then ['2'] else []) ++ (chompingOf text).mark ++ ['\n']

/-- A text as a literal, up to the end of its last line. -/
def write (indentation : Nat) (text : List Char) : List Char :=
  header text ++ indent indentation true text ++ if finalBreaks text = [] then ['\n'] else []

/-! ### Reading -/

structure Header where
  chomping : Chomping := .clip
  depth : Option Nat := none

def chomping? (c : Char) : Option Chomping :=
  if c = '-' then some .strip else if c = '+' then some .keep else none

def depth? (c : Char) : Option Nat :=
  if '1'.toNat ≤ c.toNat && c.toNat ≤ '9'.toNat then some (c.toNat - '0'.toNat) else none

/-- Reads the marks after the bar, in any order. -/
def readMarks : List Char → Header × List Char
  | c :: d :: rest =>
    match chomping? c, depth? c with
    | some chomping, _ => match depth? d with
      | some depth => ({ chomping := chomping, depth := some depth }, rest)
      | none => ({ chomping := chomping }, d :: rest)
    | none, some depth => match chomping? d with
      | some chomping => ({ chomping := chomping, depth := some depth }, rest)
      | none => ({ depth := some depth }, d :: rest)
    | none, none => ({}, c :: d :: rest)
  | [c] =>
    match chomping? c, depth? c with
    | some chomping, _ => ({ chomping := chomping }, [])
    | none, some depth => ({ depth := some depth }, [])
    | none, none => ({}, [c])
  | [] => ({}, [])

/-- The lines after the one of the header, which may end with blanks and a comment. -/
def afterHeader? (comment : Bool) : List Char → Option (List Char)
  | [] => some []
  | c :: rest =>
    if isBreak c then some rest
    else if comment || c == '#' then afterHeader? true rest
    else if isSpace c then afterHeader? false rest
    else none

/-- The deepest indentation of the first line with text and of the blank lines before it. -/
def firstIndentation? (column deepest : Nat) : List Char → Option Nat
  | [] => some (max column deepest)
  | c :: rest =>
    if c = ' ' then firstIndentation? (column + 1) deepest rest
    else if isBreak c then firstIndentation? 0 (max column deepest) rest
    else if c = '\t' then none
    else some (max column deepest)

/-- Reads the lines behind an indentation, and says where the first other line begins. A line is
blank when a break follows no more blanks than the indentation has. -/
def readLines (indentation : Nat) (inLine : Bool) (column : Nat) (line : List Char) :
    List Char → Option (List Char × List Char)
  | [] => some ([], [])
  | c :: rest =>
    if isBreak c then
      (readLines indentation false 0 rest rest).map fun (text, left) => (c :: text, left)
    else if inLine || column = indentation then
      (readLines indentation true 0 line rest).map fun (text, left) => (c :: text, left)
    else if c = ' ' then readLines indentation false (column + 1) line rest
    else if c = '\t' then none
    else some ([], line)

/-- Reads what follows the bar of a literal in a block whose parts begin at `floor` or deeper: the
text, and the lines after it. -/
def read (floor : Nat) (afterBar : List Char) : Option (List Char × List Char) := do
  let (header, afterMarks) := readMarks afterBar
  let body ← afterHeader? false afterMarks
  let indentation ← match header.depth with
    | some depth => some (floor - 1 + depth)
    | none => (firstIndentation? 0 0 body).map fun found => max 1 (max floor found)
  let (text, left) ← readLines indentation false 0 body body
  return (header.chomping.apply text, left)

end Determinize.Yaml.Literal
