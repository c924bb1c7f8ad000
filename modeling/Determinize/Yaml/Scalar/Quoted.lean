import Determinize.Yaml.LineBreak
import Determinize.Yaml.Number

/-!
# Quoted scalars

Between single quotes a quote is written twice and all else once. Between double quotes a backslash
begins an escape, and what could not stand there as it is has one. In both, a line break with the
blanks around it is folded.
-/

namespace Determinize.Yaml.Quoted

/-! ### Single quotes -/

/-- A text between single quotes. After a line break the text and the closing quote stand behind
the indentation. -/
def single (indentation : Nat) (text : List Char) : List Char :=
  let body := text.flatMap fun c => if c = '\x27' then ['\x27', '\x27'] else [c]
  '\x27' :: indent indentation false (body ++ ['\x27'])

/-- Reads what follows an opening single quote: the text, and what is left after the closing one.
While `folding`, blanks and line breaks belong to a break already folded. -/
def readSingle (folding : Bool) : List Char → Option (List Char × List Char)
  | [] => none
  | c :: rest =>
    if c = '\x27' then
      match rest with
      | '\x27' :: more => (readSingle false more).map fun (text, left) => ('\x27' :: text, left)
      | _ => some ([], rest)
    else if isBreak c then
      if atMarker rest then none
      else (readSingle true rest).map fun (text, left) =>
        (if folding then text else foldBreaks (c :: breaksAhead rest) ++ text, left)
    else if isSpace c && (folding || lineEnds rest) then readSingle folding rest
    else (readSingle false rest).map fun (text, left) => (c :: text, left)

/-! ### Double quotes -/

/-- The letters of the escapes of one character. -/
def escapes : List (Char × Char) :=
  [('0', '\x00'), ('a', '\x07'), ('b', '\x08'), ('t', '\t'), ('n', '\n'), ('v', '\x0b'),
    ('f', '\x0c'), ('r', '\r'), ('e', '\x1b'), ('\x22', '\x22'), ('\\', '\\'), ('N', '\x85'),
    ('L', '\u2028'), ('P', '\u2029')]

/-- Escapes that are read and never written. -/
def readEscapes : List (Char × Char) :=
  escapes ++ [(' ', ' '), ('/', '/'), ('\t', '\t'), ('_', '\xa0')]

def hexDigit (n : Nat) : Char :=
  Char.ofNat (if n < 10 then 48 + n else 55 + n)

/-- So many hexadecimal digits of a number, the last ones. -/
def hexDigits (n : Nat) : Nat → List Char
  | 0 => []
  | width + 1 => hexDigits (n / 16) width ++ [hexDigit (n % 16)]

def numericEscape (c : Char) : List Char :=
  let n := c.toNat
  if n ≤ 0xFF then '\\' :: 'x' :: hexDigits n 2
  else if n ≤ 0xFFFF then '\\' :: 'u' :: hexDigits n 4
  else '\\' :: 'U' :: hexDigits n 8

def escape (c : Char) : List Char :=
  match escapes.find? fun e => decide (e.2 = c) with
  | some e => ['\\', e.1]
  | none => if isPrintable c then [c] else numericEscape c

def double (text : List Char) : List Char := '\x22' :: text.flatMap escape ++ ['\x22']

/-- The number of hexadecimal digits after the letter of a numeric escape. -/
def escapeWidth? (c : Char) : Option Nat :=
  if c = 'x' then some 2 else if c = 'u' then some 4 else if c = 'U' then some 8 else none

/-- The character of a number, which surrogates do not have. -/
def ofCode? (n : Nat) : Option Char := if n.isValidChar then some (Char.ofNat n) else none

/-- Where the reader is between double quotes. -/
inductive Reading
  | text
  /-- Within a break already folded. -/
  | folding
  | escape
  /-- Within a numeric escape: digits to come after the next one, and the value so far. -/
  | digits (more value : Nat)

/-- Reads what follows an opening double quote: the text, and what is left after the closing one. -/
def readDouble : Reading → List Char → Option (List Char × List Char)
  | _, [] => none
  | .digits more value, c :: rest =>
    (Number.digit? c).bind fun d =>
      let value := value * 16 + d
      match more with
      | more + 1 => readDouble (.digits more value) rest
      | 0 => (ofCode? value).bind fun e =>
        (readDouble .text rest).map fun (text, left) => (e :: text, left)
  | .escape, c :: rest =>
    if isBreak c then
      if atMarker rest then none
      else (readDouble .folding rest).map fun (text, left) => (breaksAhead rest ++ text, left)
    else match escapeWidth? c with
      | some width => readDouble (.digits (width - 1) 0) rest
      | none => (readEscapes.find? fun e => decide (e.1 = c)).bind fun e =>
        (readDouble .text rest).map fun (text, left) => (e.2 :: text, left)
  | .text, c :: rest =>
    if c = '\x22' then some ([], rest)
    else if c = '\\' then readDouble .escape rest
    else if isBreak c then
      if atMarker rest then none
      else (readDouble .folding rest).map fun (text, left) =>
        (foldBreaks (c :: breaksAhead rest) ++ text, left)
    else if isSpace c && lineEnds rest then readDouble .text rest
    else (readDouble .text rest).map fun (text, left) => (c :: text, left)
  | .folding, c :: rest =>
    if c = '\x22' then some ([], rest)
    else if c = '\\' then readDouble .escape rest
    else if isBreak c then if atMarker rest then none else readDouble .folding rest
    else if isSpace c then readDouble .folding rest
    else (readDouble .text rest).map fun (text, left) => (c :: text, left)

end Determinize.Yaml.Quoted
