import Determinize.Description
import Determinize.Yaml.Document
import Determinize.Yaml.Scalar

/-!
# Descriptions as YAML

A description is written as a block mapping with its fields in a fixed order. It is read from any
document with the same shape: fields in any order, other fields ignored, and those left out that
have a value of their own when they are.
-/

namespace Determinize

open Yaml

/-! ### Writing -/

namespace Description

/-- A key with its text. The keys of a mapping have `indentation` before them. -/
def writeText (indentation : Nat) (key text : String) : List Char :=
  key.toList ++ ": ".toList ++ Scalar.write (indentation + 2) text.toList

/-- A key with its texts, each behind a dash below the key. -/
def writeTexts (indentation : Nat) (key : String) (texts : List String) : List Char :=
  key.toList ++ if texts = [] then ": []\n".toList
    else ":\n".toList ++ texts.flatMap fun text =>
      List.replicate indentation ' ' ++ "- ".toList ++ Scalar.write (indentation + 2) text.toList

def writeMove (m : MoveDescription) : List Char :=
  "- ".toList ++ writeText 2 "from" m.source
    ++ "  ".toList ++ writeText 2 "on" m.symbol
    ++ "  ".toList ++ writeTexts 2 "to" m.destinations

def writeMoves (moves : List MoveDescription) : List Char :=
  "transitions".toList ++ if moves = [] then ": []\n".toList
    else ":\n".toList ++ moves.flatMap writeMove

def writeFlag (flag : Bool) : List Char :=
  "deterministic: ".toList ++ (if flag then "true\n" else "false\n").toList

def toYaml (d : Description) : String :=
  String.ofList <|
    writeText 0 "initial" d.initial ++ writeTexts 0 "finals" d.finals
      ++ writeTexts 0 "states" d.states ++ writeTexts 0 "alphabet" d.alphabet
      ++ writeMoves d.moves ++ writeFlag d.deterministic

end Description

/-! ### Reading -/

def MoveDescription.ofNode? (n : Node) : Option MoveDescription := do
  let fields ← n.fields?
  let source ← required? fields "from" Node.text?
  let symbol ← optional? fields "on" Node.text? ""
  let destinations ← required? fields "to" Node.texts?
  return ⟨source, symbol, destinations⟩

namespace Description

def ofNode? (n : Node) : Option Description := do
  let fields ← n.fields?
  let initial ← required? fields "initial" Node.text?
  let finals ← optional? fields "finals" Node.texts? []
  let states ← required? fields "states" Node.texts?
  let alphabet ← required? fields "alphabet" Node.texts?
  let moves ← optional? fields "transitions"
    (fun n => n.items?.bind fun items => items.mapM MoveDescription.ofNode?) []
  let deterministic ← optional? fields "deterministic" Node.bool? false
  return ⟨initial, finals, states, alphabet, moves, deterministic⟩

/-- Reads a YAML text; `none` if it is no YAML or has another shape. -/
def ofYaml? (text : String) : Option Description := (Document.read? text).bind ofNode?

end Description

end Determinize
