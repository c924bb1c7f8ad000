import Determinize.Proofs.Yaml.NextLine
import Determinize.Yaml.Document

/-!
Plain texts are read back. A text that is written as it is has no colon or number sign where one would
end it, so a line of it is read up to what ends it (`readLine_append`), and the line after it begins too
early to go on with it.
-/

namespace Determinize.Yaml

variable {c : Char} {text rest stop : List Char} {floor limit : Nat}

theorem atGap_append (inside : atGap text = false) : atGap (text ++ rest) = false := by
  cases text with
  | nil => cases inside
  | cons c text => exact inside

theorem isSpace_iff (printable : isPrintable c = true) : isSpace c = true ↔ c = ' ' := by
  simp only [isSpace, Bool.or_eq_true, beq_iff_eq, or_iff_left_iff_imp]
  rintro rfl
  cases printable

namespace Plain

theorem readLine_append {afterSpace : Bool} (ends : endsBefore false stop = true)
    (printable : ∀ c ∈ text, isPrintable c = true) (unbroken : ∀ c ∈ text, isBreak c = false)
    (marks : hasBreakingMark afterSpace text = false) (last : text.getLast? ≠ some ' ') :
    readLine false afterSpace (text ++ stop) = some (text, stop) := by
  induction text generalizing afterSpace with
  | nil =>
    cases stop with
    | nil => rfl
    | cons c rest => simp [readLine, ends]
  | cons c text ih =>
    obtain ⟨shown, printable⟩ := List.forall_mem_cons.mp printable
    obtain ⟨whole, unbroken⟩ := List.forall_mem_cons.mp unbroken
    simp only [hasBreakingMark, Bool.or_eq_false_iff] at marks
    obtain ⟨⟨colon, comment⟩, marks⟩ := marks
    have goes : endsBefore false (c :: (text ++ stop)) = false := by
      have colon' : atSign ':' (c :: (text ++ stop)) = false := by
        simp only [atSign, Bool.and_eq_false_iff] at colon ⊢
        exact colon.imp_right atGap_append
      simp [endsBefore, whole, colon']
    have later : text.getLast? ≠ some ' ' := by
      cases text with
      | nil => simp
      | cons d text => rwa [List.getLast?_cons_cons] at last
    rw [List.cons_append, readLine, if_neg (by simp), if_neg (by simp [goes, comment])]
    split
    · rename_i space
      have blank := (isSpace_iff shown).mp space
      have more : text ≠ [] := by
        rintro rfl
        exact last (congrArg some blank)
      have spaced : (c == ' ') = true := beq_iff_eq.mpr blank
      rw [spaced] at marks
      rw [ih printable unbroken marks later]
      simp [more]
    · rename_i dark
      have other : (c == ' ') = false :=
        beq_eq_false_iff_ne.mpr fun same => dark ((isSpace_iff shown).mpr same)
      rw [other] at marks
      rw [ih printable unbroken marks later]
      rfl

/-- The line that follows in a block begins too early to go on with a plain text. -/
theorem skipBreaks_of_ends (after : Ends floor rest) :
    skipBreaks floor 0 rest = some ([], (Position.lineStart rest).skip false) ∧
      goesOn false floor ((Position.lineStart rest).skip false) = false := by
  cases after with
  | nothing => exact ⟨rfl, rfl⟩
  | @line k text before opens =>
    have spaces : ∀ n, skipBreaks floor n (List.replicate k ' ' ++ text) =
        some ([], ⟨some (n + k), text⟩) := by
      clear before
      induction k with
      | zero =>
        intro n
        obtain ⟨c, rest, rfl, visible⟩ := opens.exists_cons
        obtain ⟨space, stop, _⟩ := isVisible_iff.mp visible
        have blank : c ≠ ' ' ∧ c ≠ '\t' := by simpa [isSpace] using space
        simp [skipBreaks, stop, blank]
      | succ k ih =>
        intro n
        rw [List.replicate_succ, List.cons_append, skipBreaks, if_neg (by decide), if_pos rfl, ih]
        exact congrArg (fun n => some (([] : List Char), (⟨some n, text⟩ : Position))) (by omega)
    rw [spaces, Position.skip_opens opens, Nat.zero_add]
    refine ⟨rfl, ?_⟩
    simp [goesOn, before]

/-- What is written as it is. -/
structure Written (text : List Char) : Prop where
  printable : ∀ c ∈ text, isPrintable c = true
  unbroken : ∀ c ∈ text, isBreak c = false
  writable : isWritable text = true

instance (text : List Char) : Decidable (Written text) :=
  decidable_of_iff (text.all isPrintable = true ∧ text.any isBreak = false ∧ isWritable text = true)
    ⟨fun ⟨printable, unbroken, writable⟩ =>
        ⟨List.all_eq_true.mp printable, by simpa using unbroken, writable⟩,
      fun ⟨printable, unbroken, writable⟩ =>
        ⟨List.all_eq_true.mpr printable, by simpa using unbroken, writable⟩⟩

theorem exists_cons_of_writable (writable : isWritable text = true) :
    ∃ c rest, text = c :: rest ∧ isIndicator c = false ∧ c ≠ ' ' ∧
      (c = '-' ∨ c = '?' ∨ c = ':' → atGap rest = false) := by
  cases text with
  | nil => cases writable
  | cons c rest =>
    simp only [isWritable, Bool.and_eq_true, Bool.not_eq_true', beginsBadly, Bool.or_eq_false_iff,
      beq_eq_false_iff_ne, ne_eq, Bool.and_eq_false_iff] at writable
    obtain ⟨⟨⟨⟨⟨indicator, space⟩, sign⟩, _⟩, _⟩, _⟩ := writable
    refine ⟨c, rest, rfl, indicator, space, fun same => sign.resolve_left fun other => ?_⟩
    obtain ⟨⟨dash, question⟩, colon⟩ := other
    rcases same with same | same | same
    · exact dash same
    · exact question same
    · exact colon same

theorem Written.begins (written : Written text) : begins false (text ++ rest) = true := by
  obtain ⟨c, more, rfl, indicator, space, sign⟩ := exists_cons_of_writable written.writable
  obtain ⟨printable, _⟩ := List.forall_mem_cons.mp written.printable
  obtain ⟨unbroken, _⟩ := List.forall_mem_cons.mp written.unbroken
  have dark : isSpace c = false :=
    Bool.eq_false_iff.mpr fun blank => space ((isSpace_iff printable).mp blank)
  rw [List.cons_append, Plain.begins]
  split
  · rename_i dash
    rw [atGap_append (sign (.inl dash)), Bool.not_false]
  · split
    · rename_i mark
      rw [atGap_append (sign (.inr (by simpa using mark)))]
      rfl
    · simp [indicator, dark, unbroken]

theorem Written.readLine (written : Written text) (ends : endsBefore false stop = true) :
    readLine false false (text ++ stop) = some (text, stop) := by
  have writable := written.writable
  simp only [isWritable, Bool.and_eq_true, Bool.not_eq_true', bne_iff_ne] at writable
  exact readLine_append ends written.printable written.unbroken writable.1.2 writable.2

theorem Written.read (written : Written text) (after : Ends floor rest) :
    read false floor (limit + 1) (text ++ '\n' :: rest) =
      some (text, (Position.lineStart rest).skip false) := by
  obtain ⟨skipped, stops⟩ := skipBreaks_of_ends after
  have breaks : skipBreaks floor 0 ('\n' :: rest) =
      some (['\n'], (Position.lineStart rest).skip false) := by
    rw [skipBreaks, if_pos (by decide), skipped]
    rfl
  have line : Plain.readLine false false (text ++ '\n' :: rest) = some (text, '\n' :: rest) :=
    written.readLine rfl
  rw [Plain.read, line]
  simp [breaks, stops, isBreak]

end Plain

namespace Document

/-- What begins like a plain text is read as one. -/
theorem readInline_plain {brackets : Bool} (begins : Plain.begins brackets text = true) :
    readInline brackets floor (limit + 1) text = plainNode (Plain.read brackets floor limit text) := by
  unfold readInline
  split
  · cases brackets <;> simp [Plain.begins, isIndicator, isBracketing] at begins
  · cases brackets <;> simp [Plain.begins, isIndicator, isBracketing] at begins
  · cases brackets <;> simp [Plain.begins, isIndicator, isBracketing] at begins
  · cases brackets <;> simp [Plain.begins, isIndicator, isBracketing] at begins
  · rw [if_pos begins]

theorem readInline_written (written : Plain.Written text) (after : Ends floor rest) :
    readInline false floor (limit + 2) (text ++ '\n' :: rest) =
      some (.scalar true (String.ofList text), (Position.lineStart rest).skip false) := by
  rw [readInline_plain written.begins, written.read after]
  rfl

end Document

end Determinize.Yaml
