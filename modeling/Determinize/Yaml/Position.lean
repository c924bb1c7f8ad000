import Determinize.Yaml.LineBreak

/-!
# Positions

How far a text has been read. A block begins where nothing but indentation and dashes stands before
it on its line, and then the column says what it belongs to.
-/

namespace Determinize.Yaml

/-- What is left of a text. The column is known where nothing but indentation and the marks of
items, keys and values comes before on the line. -/
structure Position where
  column : Option Nat
  rest : List Char
deriving DecidableEq

namespace Position

/-- The position in the middle of a line. -/
def within (rest : List Char) : Position := ⟨none, rest⟩

/-- Passes over blanks, comments and line breaks. A tab may be passed over within brackets, or
where no column counts; a byte order mark at the start of a line, where it takes a column. -/
def skipFrom (brackets : Bool) (comment : Bool) (column : Option Nat) : List Char → Position
  | [] => ⟨column, []⟩
  | c :: rest =>
    if isBreak c then skipFrom brackets false (some 0) rest
    else if comment || c == '#' then skipFrom brackets true column rest
    else if c = ' ' || (c = '\t' && (brackets || column.isNone))
        || (c = '\ufeff' && decide (column = some 0)) then
      skipFrom brackets false (column.map (· + 1)) rest
    else ⟨column, c :: rest⟩

def skip (brackets : Bool) (p : Position) : Position := skipFrom brackets false p.column p.rest

def isMarker (p : Position) : Bool := decide (p.column = some 0) && atMarker p.rest

def isEnd (p : Position) : Bool := p.rest.isEmpty || p.isMarker

/-- Passes over blanks within brackets, where no document may begin or end. -/
def skipBrackets? (p : Position) : Option Position :=
  let q := p.skip true
  if q.isMarker then none else some q

end Position

/-- The bytes that a text takes in UTF-8. -/
def byteSize (text : List Char) : Nat := text.foldl (fun size c => size + c.utf8Size) 0

/-- Whether what was read between two points of a text is fit for a key: it is on one line and not
longer than 1024 bytes. -/
def isKeySpan (start stop : List Char) : Bool :=
  let span := start.take (start.length - stop.length)
  byteSize span ≤ 1024 && !span.any isBreak

end Determinize.Yaml
