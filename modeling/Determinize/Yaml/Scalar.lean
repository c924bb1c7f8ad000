import Determinize.Yaml.Number
import Determinize.Yaml.Scalar.Literal
import Determinize.Yaml.Scalar.Plain
import Determinize.Yaml.Scalar.Quoted

/-!
# Writing texts

A text is written in the plainest style in which it is read back as the same text: plain, between
single quotes if it would be read as something else or misread or has line separators, as a literal
if it has line feeds, and between double quotes if it has characters that have to be escaped or
spaces that folding would take away.
-/

namespace Determinize.Yaml

namespace Scalar

inductive Style
  | plain
  | single
  | double
  | literal
deriving DecidableEq

def nulls : List (List Char) := ["null".toList, "Null".toList, "NULL".toList, "~".toList]

def booleans : List (List Char) :=
  ["true".toList, "True".toList, "TRUE".toList, "false".toList, "False".toList, "FALSE".toList]

/-- Whether a plain text would be read as something else than a text. -/
def isAmbiguous (text : List Char) : Bool :=
  text.isEmpty || nulls.contains text || booleans.contains text || Number.isInteger text
    || Number.hasLeadingZero text || Number.isFloat text

/-- Whether two neighbouring characters satisfy `first` and `second`. -/
def hasNeighbours (first second : Char → Bool) : List Char → Bool
  | c :: d :: rest => (first c && second d) || hasNeighbours first second (d :: rest)
  | _ => false

def hasSpaceBeforeBreak : List Char → Bool := hasNeighbours (fun c => c == ' ') isBreak

def hasSpaceAfterBreak : List Char → Bool := hasNeighbours isBreak fun c => c == ' '

def style (text : List Char) : Style :=
  if !text.all isPrintable || hasSpaceBeforeBreak text then .double
  else if text.contains '\n' then if text.getLast? = some ' ' then .double else .literal
  else if text.any isBreak then if hasSpaceAfterBreak text then .double else .single
  else if isAmbiguous text || !Plain.isWritable text then .single
  else .plain

/-- A text with the break after it, in a block whose parts have `indentation` before them. -/
def write (indentation : Nat) (text : List Char) : List Char :=
  match style text with
  | .plain => text ++ ['\n']
  | .single => Quoted.single indentation text ++ ['\n']
  | .double => Quoted.double text ++ ['\n']
  | .literal => Literal.write indentation text

end Scalar

end Determinize.Yaml
