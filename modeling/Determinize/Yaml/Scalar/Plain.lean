import Determinize.Yaml.Position

/-!
# Plain scalars

A plain text stands as it is. It ends before a comment and before a colon at the end of a word,
within brackets also where a collection goes on or ends. It may run over several lines, which are
then folded.
-/

namespace Determinize.Yaml.Plain

/-! ### Writing -/

/-- Whether a text contains a colon at the end of a word, or a number sign after a blank. -/
def hasBreakingMark (afterSpace : Bool) : List Char → Bool
  | [] => false
  | c :: rest =>
    atSign ':' (c :: rest) || (afterSpace && c == '#') || hasBreakingMark (c == ' ') rest

def beginsWithRule : List Char → Bool
  | '-' :: '-' :: '-' :: _ => true
  | '.' :: '.' :: '.' :: _ => true
  | _ => false

def beginsBadly : List Char → Bool
  | [] => true
  | c :: rest =>
    isIndicator c || c == ' ' || ((c == '-' || c == '?' || c == ':') && atGap rest)

/-- Whether a text on one line can be written as it is. -/
def isWritable (text : List Char) : Bool :=
  !beginsBadly text && !beginsWithRule text && !hasBreakingMark false text
    && text.getLast? != some ' '

/-! ### Reading -/

/-- Whether a plain text may begin so, within brackets or outside of them. -/
def begins (brackets : Bool) : List Char → Bool
  | [] => false
  | c :: rest =>
    if c = '-' then !atGap rest
    else if c = '?' || c = ':' then !brackets && !atGap rest
    else !isIndicator c && !isSpace c && !isBreak c

/-- Whether a collection in brackets goes on or ends here, so that a colon before is misplaced. -/
def misplacesColon : List Char → Bool
  | c :: _ => isBracketing c || c == '?'
  | [] => false

/-- Whether a plain text ends before a character other than a blank or a number sign. -/
def endsBefore (brackets : Bool) : List Char → Bool
  | [] => true
  | c :: rest => isBreak c || atSign ':' (c :: rest) || (brackets && isBracketing c)

/-- Reads what is plain text on one line, without the blanks after it, and says what comes after
those. -/
def readLine (brackets : Bool) (afterSpace : Bool) : List Char → Option (List Char × List Char)
  | [] => some ([], [])
  | c :: rest =>
    if brackets && c == ':' && misplacesColon rest then none
    else if endsBefore brackets (c :: rest) || (afterSpace && c == '#') then some ([], c :: rest)
    else if isSpace c then
      (readLine brackets true rest).map fun (text, left) =>
        (if text = [] then [] else c :: text, left)
    else (readLine brackets false rest).map fun (text, left) => (c :: text, left)

/-- Passes over line breaks and the blanks after them: the breaks, and the column where other text
follows. No tab may stand where the indentation is not yet deep enough. -/
def skipBreaks (floor : Nat) (column : Nat) : List Char → Option (List Char × Position)
  | [] => some ([], ⟨some column, []⟩)
  | c :: rest =>
    if isBreak c then (skipBreaks floor 0 rest).map fun (breaks, p) => (c :: breaks, p)
    else if c = ' ' then skipBreaks floor (column + 1) rest
    else if c = '\t' then if column < floor then none else skipBreaks floor (column + 1) rest
    else some ([], ⟨some column, c :: rest⟩)

/-- Whether a plain text goes on at a position after line breaks. -/
def goesOn (brackets : Bool) (floor : Nat) (p : Position) : Bool :=
  !p.isEnd && p.rest.head? != some '#' && !endsBefore brackets p.rest
    && (brackets || p.column.any fun column => floor ≤ column)

/-- Reads a plain text whose lines begin at `floor` or deeper; `limit` bounds their number. -/
def read (brackets : Bool) (floor : Nat) : Nat → List Char → Option (List Char × Position)
  | 0, _ => none
  | limit + 1, rest => do
    let (text, left) ← readLine brackets false rest
    if left.head?.any isBreak then
      let (breaks, p) ← skipBreaks floor 0 left
      if goesOn brackets floor p then
        let (more, q) ← read brackets floor limit p.rest
        return (text ++ foldBreaks breaks ++ more, q)
      else return (text, p)
    else return (text, .within left)

end Determinize.Yaml.Plain
