import Determinize.Proofs.Yaml.Literal
import Determinize.Proofs.Yaml.Plain
import Determinize.Proofs.Yaml.Quoted
import Determinize.Yaml.Scalar

/-!
Texts are read back, whatever style they are written in. The style says what the text may hold; a text
that is not a literal is read on its line, and the reader then goes on at the start of the next one.
-/

namespace Determinize.Yaml

variable {c : Char} {text rest : List Char} {floor indentation limit : Nat}

namespace Scalar

/-! ### What a style says of its text -/

theorem printable_of_style (single : style text ≠ .double) :
    (∀ c ∈ text, isPrintable c = true) ∧ hasSpaceBeforeBreak text = false := by
  unfold style at single
  split at single
  · exact absurd rfl single
  · rename_i clean
    simpa [not_or] using clean

theorem hasSpaceAfterBreak_eq_false (whole : ∀ c ∈ text, isBreak c = false) :
    hasSpaceAfterBreak text = false := by
  induction text with
  | nil => rfl
  | cons c text ih =>
    obtain ⟨here, later⟩ := List.forall_mem_cons.mp whole
    cases text with
    | nil => rfl
    | cons d text =>
      show (isBreak c && d == ' ' || hasSpaceAfterBreak (d :: text)) = false
      rw [here, ih later]
      rfl

theorem written_of_style (plain : style text = .plain) : Plain.Written text := by
  obtain ⟨printable, _⟩ := printable_of_style (by simp [plain] : style text ≠ .double)
  unfold style at plain
  -- the last branch is the only one that gives this style
  repeat' split at plain
  all_goals try cases plain
  rename_i whole writable
  simp only [List.any_eq_true, not_exists, not_and, Bool.not_eq_true] at whole
  simp only [Bool.or_eq_true, Bool.not_eq_true', not_or, Bool.not_eq_false] at writable
  exact ⟨printable, whole, writable.2⟩

theorem unfolded_of_style (single : style text = .single) : Quoted.Unfolded text := by
  obtain ⟨printable, before⟩ := printable_of_style (by simp [single] : style text ≠ .double)
  unfold style at single
  repeat' split at single
  all_goals try cases single
  -- with breaks in it the text was looked at for spaces after them, without any there are none
  · rename_i noFeed _ after
    refine ⟨printable, ?_, before, by simpa using after⟩
    rintro c member rfl
    exact noFeed (by simpa using member)
  · rename_i noFeed whole _
    simp only [List.any_eq_true, not_exists, not_and, Bool.not_eq_true] at whole
    refine ⟨printable, ?_, before, hasSpaceAfterBreak_eq_false whole⟩
    rintro c member rfl
    exact noFeed (by simpa using member)

theorem ne_nil_of_style (literal : style text = .literal) : text ≠ [] := by
  rintro rfl
  cases literal

/-! ### What a text begins with -/

theorem isVisible_of_not_isIndicator (printable : isPrintable c = true) (whole : isBreak c = false)
    (indicator : isIndicator c = false) (space : c ≠ ' ') : isVisible c = true := by
  have dark : isSpace c = false :=
    Bool.eq_false_iff.mpr fun blank => space ((isSpace_iff printable).mp blank)
  refine isVisible_iff.mpr ⟨dark, whole, ?_, ?_⟩
  · rintro rfl
    cases indicator
  · rintro rfl
    cases printable

/-- What begins a scalar: no blank, and neither the dash of an item nor the mark of a key. -/
structure Heads (written : List Char) : Prop where
  visible : ∃ c more, written = c :: more ∧ isVisible c = true
  unsigned : ∀ sign, sign = '-' ∨ sign = '?' → ∀ rest, atSign sign (written ++ rest) = false

theorem heads_of_ne {more : List Char} (visible : isVisible c = true) (dash : c ≠ '-') (mark : c ≠ '?') :
    Heads (c :: more) where
  visible := ⟨c, more, rfl, visible⟩
  unsigned sign either rest := by
    rcases either with rfl | rfl
    · simp [atSign, dash]
    · simp [atSign, mark]

theorem heads_of_written (written : Plain.Written text) : Heads (text ++ ['\n']) := by
  obtain ⟨c, more, rfl, indicator, space, sign⟩ := Plain.exists_cons_of_writable written.writable
  obtain ⟨printable, _⟩ := List.forall_mem_cons.mp written.printable
  obtain ⟨whole, _⟩ := List.forall_mem_cons.mp written.unbroken
  refine ⟨⟨c, _, rfl, isVisible_of_not_isIndicator printable whole indicator space⟩, ?_⟩
  intro sign either rest
  rw [List.cons_append, List.cons_append, List.append_assoc, atSign]
  by_cases same : c = sign
  · subst same
    rw [atGap_append (sign (either.imp_right .inl)), Bool.and_false]
  · rw [beq_eq_false_iff_ne.mpr same, Bool.false_and]

theorem heads_write : Heads (write indentation text) := by
  unfold write
  split
  · rename_i plain
    exact heads_of_written (written_of_style plain)
  · exact heads_of_ne (by decide) (by decide) (by decide)
  · exact heads_of_ne (by decide) (by decide) (by decide)
  · rw [Literal.write_eq]
    exact heads_of_ne (by decide) (by decide) (by decide)

/-- What a text is read as: only a text that is written as it is might stand for something else. -/
def node (text : List Char) : Node := .scalar (decide (style text = .plain)) (String.ofList text)

end Scalar

/-! ### Reading -/

namespace Document

open Position

theorem readInline_write (limit : Nat) (inline : Scalar.style text ≠ .literal)
    (after : Ends floor rest) :
    ∃ q, readInline false floor (limit + 2) (Scalar.write (floor + 1) text ++ rest) =
        some (Scalar.node text, q) ∧ q.skip false = (lineStart rest).skip false := by
  unfold Scalar.write
  split
  · rename_i plain
    have read : readInline false floor (limit + 2) (text ++ '\n' :: rest) =
        some (.scalar true (String.ofList text), (lineStart rest).skip false) :=
      readInline_written (Scalar.written_of_style plain) after
    refine ⟨_, ?_, skip_skip after⟩
    rw [List.append_assoc, List.singleton_append, read, Scalar.node, plain]
    rfl
  · rename_i single
    have read : Quoted.readSingle false (Quoted.behind (floor + 1) false text ++ '\n' :: rest) =
        some (text, '\n' :: rest) :=
      (Quoted.readSingle_behind (by omega) (Scalar.unfolded_of_style single) (by simp)).1
    refine ⟨_, ?_, skip_within_break⟩
    rw [List.append_assoc, Quoted.single_eq, List.singleton_append, List.cons_append, readInline, read,
      Scalar.node, single]
    rfl
  · rename_i double
    have read : Quoted.readDouble .text (text.flatMap Quoted.escape ++ '\x22' :: '\n' :: rest) =
        some (text, '\n' :: rest) := Quoted.readDouble_double
    refine ⟨_, ?_, skip_within_break⟩
    rw [Quoted.double, List.append_assoc, List.append_assoc, List.cons_append, List.singleton_append,
      List.singleton_append, readInline, read, Scalar.node, double]
    rfl
  · rename_i literal
    exact absurd literal inline

theorem readInline_bar : readInline false floor limit ('|' :: rest) = none := by
  cases limit <;> rfl

/-- After a scalar the reader is on another line, so what it has read is no key. -/
theorem atMapping_eq_false {written : List Char} {node : Node} {q : Position}
    (heads : Scalar.Heads written) (read : readInline false floor limit (written ++ rest) = some (node, q))
    (skipped : q.skip false = (lineStart rest).skip false) (after : Ends floor rest) :
    atMapping floor limit (written ++ rest) = false := by
  have noKey : readKey floor limit (written ++ rest) = none := by
    rw [readKey, read]
    dsimp only [Option.bind_eq_bind, Option.bind_some]
    rw [skipped, column_skip after]
    rfl
  rw [atMapping, heads.unsigned '?' (.inr rfl), noKey]
  rfl

theorem readContent_of_readInline {written : List Char} {column : Option Nat} {node : Node}
    {q : Position} (heads : Scalar.Heads written)
    (read : readInline false floor limit (written ++ rest) = some (node, q))
    (skipped : q.skip false = (lineStart rest).skip false) (after : Ends floor rest) :
    readContent floor (limit + 1) column (written ++ rest) = some (node, q) := by
  have noMapping := atMapping_eq_false heads read skipped after
  unfold readContent
  split
  · rename_i bar
    rw [bar, readInline_bar] at read
    cases read
  · exact read
  · rw [noMapping]
    exact read

theorem readContent_write {column : Option Nat} (inBlock : 1 ≤ floor) (after : Ends floor rest) :
    ∃ q, readContent floor (limit + 3) column (Scalar.write (floor + 1) text ++ rest) =
        some (Scalar.node text, q) ∧ q.skip false = (lineStart rest).skip false := by
  by_cases literal : Scalar.style text = .literal
  · have read : Literal.read floor (Literal.afterBar (floor + 1) text ++ rest) = some (text, rest) :=
      Literal.read_afterBar inBlock after (Scalar.ne_nil_of_style literal)
        (Scalar.printable_of_style (by simp [literal])).1
    refine ⟨lineStart rest, ?_, rfl⟩
    rw [Scalar.write, literal]
    dsimp only
    rw [Literal.write_eq, List.cons_append, readContent, read, Scalar.node, literal]
    rfl
  · obtain ⟨q, read, skipped⟩ := readInline_write limit literal after
    exact ⟨q, readContent_of_readInline Scalar.heads_write read skipped after, skipped⟩

end Document

end Determinize.Yaml
