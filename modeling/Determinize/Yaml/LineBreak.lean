import Determinize.Yaml.Character

/-!
# Line breaks

What becomes of line breaks when a text is folded, and of a text that is written over lines. Line
feeds are folded away; line separators and paragraph separators end a line and stay.
-/

namespace Determinize.Yaml

/-- Makes carriage returns and next lines into line feeds. -/
def unifyBreaks : List Char → List Char
  | [] => []
  | '\r' :: '\n' :: rest => '\n' :: unifyBreaks rest
  | c :: rest => (if c = '\r' || c = '\x85' then '\n' else c) :: unifyBreaks rest

/-- What a run of line breaks leaves in a folded text. A line feed at its start becomes a space
when it is alone, and goes when more breaks follow. -/
def foldBreaks : List Char → List Char
  | [] => []
  | c :: more => if c = '\n' then if more = [] then [' '] else more else c :: more

/-- The line breaks among the blanks and line breaks that come next. -/
def breaksAhead : List Char → List Char
  | [] => []
  | c :: rest =>
    if isBreak c then c :: breaksAhead rest else if isSpace c then breaksAhead rest else []

/-- Whether nothing but blanks is left on the line, and another line follows. -/
def lineEnds : List Char → Bool
  | [] => false
  | c :: rest => isBreak c || (isSpace c && lineEnds rest)

/-- Puts an indentation before every line that is not empty. -/
def indent (indentation : Nat) (lineStart : Bool) : List Char → List Char
  | [] => []
  | c :: rest =>
    if isBreak c then c :: indent indentation true rest
    else (if lineStart then List.replicate indentation ' ' else [])
      ++ c :: indent indentation false rest

def finalBreaks (text : List Char) : List Char := (text.reverse.takeWhile isBreak).reverse

def dropFinalBreaks (text : List Char) : List Char := (text.reverse.dropWhile isBreak).reverse

end Determinize.Yaml
