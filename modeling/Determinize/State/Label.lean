import Determinize.State

/-!
# Labels of states

A simple state is written as its name, a composite one as its names between braces with commas
between them, and the sink as `DEAD`. `State.ofLabel?` reads a label back; the names of a composite
state may come in any order and repeat.
-/

namespace Determinize

namespace State

def deadLabel : String := "DEAD"

/-- Names kept for the sink and for the marks of a drawing. -/
def reservedNames : List String := ["INITIAL_STATE", "FINAL_STATE", deadLabel]

def isDelimiter (c : Char) : Bool := c == '{' || c == '}' || c == ','

/-- Whether a label can hold the name: it is not empty and has no delimiter in it. -/
def validName (name : String) : Bool :=
  !name.isEmpty && name.toList.all fun c => !isDelimiter c

def label : State → String
  | simple name => name
  | composite names => "\x7b" ++ ",".intercalate names.toList ++ "\x7d"
  | dead => deadLabel

/-- The text between an opening brace at the start and a closing one at the end. -/
def braced? : List Char → Option (List Char)
  | '{' :: rest => if rest.getLast? = some '}' then some rest.dropLast else none
  | _ => none

/-- The pieces between the commas; there is always one piece more than commas. -/
def pieces : List Char → List (List Char)
  | [] => [[]]
  | c :: rest =>
    if c = ',' then [] :: pieces rest
    else match pieces rest with
      | [] => [[c]]
      | piece :: more => (c :: piece) :: more

/-- Reads a label; `none` for a text that is no label. -/
def ofLabel? (text : String) : Option State :=
  if text = deadLabel then some dead
  else match braced? text.toList with
    | some inner =>
      let names := (pieces inner).map String.ofList
      if names.all validName then combine names else none
    | none => if validName text then some (simple text) else none

end State

end Determinize
