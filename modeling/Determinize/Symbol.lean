import Determinize.WhiteSpace

/-!
# Symbols

What a transition reads: a letter of the alphabet, or nothing. A letter is any text; the text of
the empty move is `λ`, and a text that is blank or reads `λ` between blanks means the empty move.
-/

namespace Determinize

inductive Symbol
  | epsilon
  | letter (text : String)
deriving DecidableEq

namespace Symbol

def epsilonText : String := "λ"

def isEpsilonText (text : String) : Bool :=
  let core := WhiteSpace.trim text.toList
  core == [] || core == epsilonText.toList

def ofText (text : String) : Symbol :=
  if isEpsilonText text then epsilon else letter text

def text : Symbol → String
  | epsilon => epsilonText
  | letter text => text

def letter? : Symbol → Option String
  | epsilon => none
  | letter text => some text

def isEpsilon : Symbol → Bool
  | epsilon => true
  | letter _ => false

/-- The empty move comes first, then the letters by their text. -/
instance : Ord Symbol := ⟨compareOn letter?⟩

end Symbol

end Determinize
