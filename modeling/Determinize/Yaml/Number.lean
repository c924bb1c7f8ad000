/-!
# Numbers of YAML

The plain texts that are read as numbers: decimal, hexadecimal, octal and binary integers of at
most 128 bits, and decimal fractions whose nearest 64-bit floating point number is finite, or that
are spelled infinite or no number.
-/

namespace Determinize.Yaml.Number

def digit? (c : Char) : Option Nat :=
  let n := c.toNat
  if 48 ≤ n && n ≤ 57 then some (n - 48)
  else if 97 ≤ n && n ≤ 102 then some (n - 87)
  else if 65 ≤ n && n ≤ 70 then some (n - 55)
  else none

/-- The value of one or more digits of a base. -/
def value? (base : Nat) (digits : List Char) : Option Nat :=
  if digits = [] then none
  else digits.foldl (fun value c => do
    let d ← digit? c
    if d < base then return (← value) * base + d else none) (some 0)

/-- Whether the text is one or more digits of a base with a value within a bound. -/
def isMagnitude (base bound : Nat) (digits : List Char) : Bool :=
  (value? base digits).any fun value => value ≤ bound

/-- An integer without its sign, with the mark of its base. -/
def isUnsigned (bound : Nat) : List Char → Bool
  | '0' :: 'x' :: digits => isMagnitude 16 bound digits
  | '0' :: 'o' :: digits => isMagnitude 8 bound digits
  | '0' :: 'b' :: digits => isMagnitude 2 bound digits
  | digits => isMagnitude 10 bound digits

/-- Integers lie between the least signed and the greatest unsigned number of 128 bits. -/
def isInteger : List Char → Bool
  | '-' :: rest => isUnsigned (Nat.pow 2 127) rest
  | '+' :: rest => isUnsigned (Nat.pow 2 128 - 1) rest
  | text => isUnsigned (Nat.pow 2 128 - 1) text

def isDigit (c : Char) : Bool := (value? 10 [c]).isSome

def dropSign : List Char → List Char
  | '-' :: rest => rest
  | '+' :: rest => rest
  | text => text

/-- Digits of which the first is an idle zero. -/
def hasLeadingZero (text : List Char) : Bool :=
  match dropSign text with
  | '0' :: rest => rest != [] && rest.all isDigit
  | _ => false

/-- The least decimal magnitude whose nearest 64-bit floating point number is infinite: halfway
between the greatest finite one and the next power of two. -/
def floatLimit : Nat := Nat.pow 2 1024 - Nat.pow 2 970

/-- Whether `digits * 10 ^ exponent` is near a finite floating point number. Magnitudes far from
the limit are told by the place of their first digit. -/
def isFinite (digits : List Char) (exponent : Int) : Bool :=
  let significant := digits.dropWhile fun c => c == '0'
  match value? 10 significant with
  | none => true
  | some value =>
    let places := (significant.length : Int) + exponent
    if places < 300 then true
    else if 320 < places then false
    else if 0 ≤ exponent then value * Nat.pow 10 exponent.toNat < floatLimit
    else value < floatLimit * Nat.pow 10 (-exponent).toNat

/-- The exponent of a decimal fraction: none, or a letter and signed digits. -/
def exponent? : List Char → Option Int
  | [] => some 0
  | c :: rest =>
    if c = 'e' || c = 'E' then
      match rest with
      | '-' :: digits => (value? 10 digits).map fun n => -(n : Int)
      | '+' :: digits => (value? 10 digits).map Int.ofNat
      | digits => (value? 10 digits).map Int.ofNat
    else none

def fraction : List Char → List Char × List Char
  | '.' :: rest => rest.span isDigit
  | rest => ([], rest)

/-- A decimal fraction without its sign that is near a finite floating point number. -/
def isDecimal (text : List Char) : Bool :=
  let (whole, afterWhole) := text.span isDigit
  let (part, afterPart) := fraction afterWhole
  whole ++ part != [] &&
    (exponent? afterPart).any fun e => isFinite (whole ++ part) (e - (part.length : Int))

def infinities : List (List Char) := [".inf".toList, ".Inf".toList, ".INF".toList]

def nonNumbers : List (List Char) := [".nan".toList, ".NaN".toList, ".NAN".toList]

/-- A decimal fraction or an infinity with at most one sign, or what is not a number. -/
def isFloat (text : List Char) : Bool :=
  let unsigned := dropSign text
  nonNumbers.contains text || infinities.contains unsigned || isDecimal unsigned

end Determinize.Yaml.Number
