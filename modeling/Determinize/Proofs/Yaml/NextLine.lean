import Determinize.Yaml.Position

/-!
What follows a part of a block. The writer goes on with a key or with the dash of an item, behind the
indentation of its block; a reader tells by the column whether that still belongs to what it reads.
-/

namespace Determinize.Yaml

/-- What a line begins with after its indentation: a key, or the dash of an item. -/
inductive Opens : List Char → Prop
  | key {c : Char} {rest : List Char} : c.isLower = true → Opens (c :: rest)
  | item {rest : List Char} : Opens ('-' :: ' ' :: rest)

/-- What comes after a scalar in a block whose parts begin at `floor` or deeper: nothing, or a line that
begins before. -/
inductive Ends (floor : Nat) : List Char → Prop
  | nothing : Ends floor []
  | line {column : Nat} {text : List Char} : column < floor → Opens text →
    Ends floor (List.replicate column ' ' ++ text)

/-- What comes after an entry of a mapping at a column: nothing, a line that begins before, or the next
key. An item at the column would still belong to the entry. -/
inductive EndsEntry (column : Nat) : List Char → Prop
  | nothing : EndsEntry column []
  | outside {k : Nat} {text : List Char} : k < column → Opens text →
    EndsEntry column (List.replicate k ' ' ++ text)
  | key {c : Char} {rest : List Char} : c.isLower = true →
    EndsEntry column (List.replicate column ' ' ++ c :: rest)

variable {column floor k : Nat} {c : Char} {text rest : List Char}

theorem EndsEntry.ends (after : EndsEntry column rest) : Ends (column + 1) rest := by
  cases after with
  | nothing => exact .nothing
  | outside before opens => exact .line (by omega) opens
  | key lower => exact .line (by omega) (.key lower)

theorem Ends.mono (after : Ends floor rest) (deeper : floor ≤ column) : Ends column rest := by
  cases after with
  | nothing => exact .nothing
  | line before opens => exact .line (by omega) opens

theorem Ends.endsEntry (after : Ends floor rest) (deeper : floor ≤ column) : EndsEntry column rest := by
  cases after with
  | nothing => exact .nothing
  | line before opens => exact .outside (by omega) opens

/-- A character that is passed over nowhere. -/
def isVisible (c : Char) : Bool := !isSpace c && !isBreak c && c != '#' && c != '\ufeff'

theorem isVisible_iff :
    isVisible c = true ↔ isSpace c = false ∧ isBreak c = false ∧ c ≠ '#' ∧ c ≠ '\ufeff' := by
  simp [isVisible, and_assoc]

theorem ne_of_isLower {d : Char} (lower : c.isLower = true) (other : d.isLower = false) : c ≠ d := by
  rintro rfl
  rw [lower] at other
  cases other

theorem isVisible_of_isLower (lower : c.isLower = true) : isVisible c = true := by
  have other := fun d (other : Char.isLower d = false) => ne_of_isLower lower other
  simp [isVisible, isSpace, isBreak, other ' ' rfl, other '\t' rfl, other '\n' rfl,
    other '\u2028' rfl, other '\u2029' rfl, other '#' rfl, other '\ufeff' rfl]

theorem Opens.exists_cons (opens : Opens text) : ∃ c rest, text = c :: rest ∧ isVisible c = true := by
  cases opens with
  | key lower => exact ⟨_, _, rfl, isVisible_of_isLower lower⟩
  | item => exact ⟨_, _, rfl, by decide⟩

theorem atMarker_eq_false (dash : c ≠ '-') (dot : c ≠ '.') : atMarker (c :: rest) = false := by
  unfold atMarker
  split
  · rename_i same
    exact absurd (List.cons.inj same).1 dash
  · rename_i same
    exact absurd (List.cons.inj same).1 dot
  · rfl

theorem Opens.atMarker_eq_false (opens : Opens text) : atMarker text = false := by
  cases opens with
  | key lower => exact Yaml.atMarker_eq_false (ne_of_isLower lower rfl) (ne_of_isLower lower rfl)
  | item => rfl

/-! ### Positions -/

namespace Position

theorem skipFrom_of_isVisible {brackets : Bool} {column : Option Nat} (visible : isVisible c = true) :
    skipFrom brackets false column (c :: rest) = ⟨column, c :: rest⟩ := by
  obtain ⟨space, stop, comment, mark⟩ := isVisible_iff.mp visible
  have blank : c ≠ ' ' ∧ c ≠ '\t' := by simpa [isSpace] using space
  simp [skipFrom, stop, comment, mark, blank]

theorem skipFrom_space {brackets : Bool} {column : Option Nat} :
    skipFrom brackets false column (' ' :: rest) =
      skipFrom brackets false (column.map (· + 1)) rest := by
  rw [skipFrom, if_neg (by decide), if_neg (by decide), if_pos (by simp)]

theorem skipFrom_replicate {brackets : Bool} :
    skipFrom brackets false (some column) (List.replicate k ' ' ++ text) =
      skipFrom brackets false (some (column + k)) text := by
  induction k generalizing column with
  | zero => rfl
  | succ k ih =>
    rw [List.replicate_succ, List.cons_append, skipFrom_space, Option.map_some, ih]
    exact congrArg (fun n => skipFrom brackets false (some n) text) (by omega)

/-- The start of a line. -/
def lineStart (rest : List Char) : Position := ⟨some 0, rest⟩

theorem skip_opens {brackets : Bool} (opens : Opens text) :
    (lineStart (List.replicate k ' ' ++ text)).skip brackets = ⟨some k, text⟩ := by
  obtain ⟨c, rest, rfl, visible⟩ := opens.exists_cons
  rw [skip, lineStart, skipFrom_replicate, skipFrom_of_isVisible visible, Nat.zero_add]

theorem skip_within_break {brackets : Bool} :
    (within ('\n' :: rest)).skip brackets = (lineStart rest).skip brackets := rfl

theorem skip_at (opens : isVisible c = true) {column : Option Nat} :
    (Position.mk column (c :: rest)).skip false = ⟨column, c :: rest⟩ := skipFrom_of_isVisible opens

/-- The reader is at the next line once it has passed over what comes before it. -/
theorem skip_skip (after : Ends floor rest) :
    ((lineStart rest).skip false).skip false = (lineStart rest).skip false := by
  cases after with
  | nothing => rfl
  | line _ opens =>
    obtain ⟨c, rest, rfl, visible⟩ := opens.exists_cons
    rw [skip_opens opens, skip_at visible]

theorem column_skip (after : Ends floor rest) : ((lineStart rest).skip false).column.isNone = false := by
  cases after with
  | nothing => rfl
  | line _ opens =>
    rw [skip_opens opens]
    rfl

theorem isEnd_opens (opens : Opens text) : (Position.mk (some k) text).isEnd = false := by
  obtain ⟨c, rest, rfl, _⟩ := opens.exists_cons
  simp [isEnd, isMarker, opens.atMarker_eq_false]

theorem isEnd_cons {column : Option Nat} (inside : column ≠ some 0) :
    (Position.mk column (c :: rest)).isEnd = false := by
  simp [isEnd, isMarker, inside]

end Position

end Determinize.Yaml
