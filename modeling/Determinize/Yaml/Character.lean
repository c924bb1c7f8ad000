/-!
# Characters of YAML

Classes of characters, and what a text can be told to begin with by its first characters.
-/

namespace Determinize.Yaml

/-- Whether a character may stand in a text as it is. -/
def isReadable (c : Char) : Bool :=
  let n := c.toNat
  n == 0x09 || n == 0x0A || n == 0x0D || n == 0x85 || (0x20 ≤ n && n ≤ 0x7E)
    || (0xA0 ≤ n && n ≤ 0xFFFD) || 0x10000 ≤ n

/-- Whether a character is written as it is, line breaks included. A byte order mark is not. -/
def isPrintable (c : Char) : Bool :=
  let n := c.toNat
  n == 0x0A || (0x20 ≤ n && n ≤ 0x7E) || (0xA0 ≤ n && n ≤ 0xFFFD && n != 0xFEFF) || 0x10000 ≤ n

def isSpace (c : Char) : Bool := c == ' ' || c == '\t'

/-- Whether a line ends here: at a line feed, a line separator or a paragraph separator. The other
breaks have been made into line feeds. -/
def isBreak (c : Char) : Bool := c == '\n' || c == '\u2028' || c == '\u2029'

/-- Whether a character divides collections in brackets. -/
def isBracketing (c : Char) : Bool := c == ',' || c == '[' || c == ']' || c == '{' || c == '}'

/-- The characters no plain text begins with. -/
def isIndicator (c : Char) : Bool :=
  isBracketing c || c == '#' || c == '&' || c == '*' || c == '!' || c == '|' || c == '>'
    || c == '\x27' || c == '\x22' || c == '%' || c == '@' || c == '\x60'

/-- Whether a text begins with a blank or a line break, or is at its end. -/
def atGap : List Char → Bool
  | [] => true
  | c :: _ => isSpace c || isBreak c

/-- Whether a text begins with a sign at the end of a word, as a dash before an item is. -/
def atSign (sign : Char) : List Char → Bool
  | c :: rest => c == sign && atGap rest
  | [] => false

/-- Whether a text begins with three dashes or dots that are a word of their own. At the start of
a line they begin or end a document. -/
def atMarker : List Char → Bool
  | '-' :: '-' :: '-' :: rest => atGap rest
  | '.' :: '.' :: '.' :: rest => atGap rest
  | _ => false

end Determinize.Yaml
