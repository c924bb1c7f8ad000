import Determinize.Proofs.Yaml.NextLine
import Determinize.Yaml.Scalar.Literal

/-!
Literals are read back. Behind the indentation a line is read as it stands, and the lines end where one
begins before it (`readLines_indent`). The chomping takes away the break that the writer added, and no
other (`apply_chompingOf`).
-/

namespace Determinize.Yaml.Literal

variable {c : Char} {text rest line : List Char} {floor indentation column n : Nat} {lineStart : Bool}

/-! ### Breaks at the end -/

theorem dropFinalBreaks_append : dropFinalBreaks text ++ finalBreaks text = text := by
  rw [dropFinalBreaks, finalBreaks, ← List.reverse_append, List.takeWhile_append_dropWhile,
    List.reverse_reverse]

theorem dropFinalBreaks_append_feed : dropFinalBreaks (text ++ ['\n']) = dropFinalBreaks text := by
  rw [dropFinalBreaks, List.reverse_append]
  rfl

/-- The break that is written after a text without one. -/
def addedBreak (text : List Char) : List Char := if finalBreaks text = [] then ['\n'] else []

theorem apply_chompingOf : (chompingOf text).apply (text ++ addedBreak text) = text := by
  have parts : dropFinalBreaks text ++ finalBreaks text = text := dropFinalBreaks_append
  unfold chompingOf addedBreak
  split
  · rename_i none
    rw [none, List.append_nil] at parts
    rw [Chomping.apply, dropFinalBreaks_append_feed, parts]
  · rw [List.append_nil]
    split
    · rename_i one
      simp only [Bool.and_eq_true, decide_eq_true_eq, bne_iff_ne] at one
      simp only [Chomping.apply]
      rw [if_neg one.2, List.take_of_length_le (Nat.le_of_eq one.1), parts]
    · rfl

theorem isBreak_getLast (d : Char) (last : d ∈ (text ++ addedBreak text).getLast?) :
    isBreak d = true := by
  unfold addedBreak at last
  split at last
  · rw [List.getLast?_concat] at last
    cases last
    rfl
  · rename_i some
    rw [List.append_nil, List.getLast?_eq_head?_reverse] at last
    obtain ⟨more, reversed⟩ := List.head?_eq_some_iff.mp last
    rw [finalBreaks, reversed] at some
    cases stop : isBreak d with
    | true => rfl
    | false => exact absurd (by simp [stop]) some

theorem indent_append_feed :
    indent indentation lineStart (text ++ ['\n']) = indent indentation lineStart text ++ ['\n'] := by
  induction text generalizing lineStart with
  | nil => rfl
  | cons c text ih =>
    rw [List.cons_append, indent, indent]
    split
    · rw [ih, List.cons_append]
    · rw [ih, List.append_assoc, List.cons_append]

/-! ### The header -/

/-- What is written after the bar. -/
def afterBar (indentation : Nat) (text : List Char) : List Char :=
  (if needsIndentation text then ['2'] else []) ++ (chompingOf text).mark ++
    '\n' :: indent indentation true (text ++ addedBreak text)

theorem write_eq : write indentation text = '|' :: afterBar indentation text := by
  have lines : indent indentation true (text ++ addedBreak text) =
      indent indentation true text ++ addedBreak text := by
    unfold addedBreak
    split
    · exact indent_append_feed
    · rw [List.append_nil, List.append_nil]
  rw [write, header, afterBar, lines]
  simp [addedBreak]

theorem readMarks_marks {chomping : Chomping} {deep : Bool} :
    readMarks ((if deep then ['2'] else []) ++ chomping.mark ++ '\n' :: rest) =
      (⟨chomping, if deep then some 2 else none⟩, '\n' :: rest) := by
  cases deep <;> cases chomping <;> cases rest <;> rfl

/-- The first line shows the indentation where the header does not say it. -/
theorem firstIndentation?_indent {more : List Char} (shown : needsIndentation text = false)
    (nonempty : text ≠ []) (printable : ∀ c ∈ text, isPrintable c = true) :
    firstIndentation? 0 0 (indent indentation true (text ++ more) ++ rest) = some indentation := by
  cases text with
  | nil => exact absurd rfl nonempty
  | cons c text =>
    rw [needsIndentation, Bool.or_eq_false_iff, beq_eq_false_iff_ne] at shown
    have tab : c ≠ '\t' := by
      rintro rfl
      exact absurd (printable '\t' List.mem_cons_self) (by decide)
    have spaces : ∀ n left, firstIndentation? n 0 (List.replicate indentation ' ' ++ c :: left) =
        some (n + indentation) := by
      induction indentation with
      | zero =>
        intro n left
        simp [firstIndentation?, shown.1, shown.2, tab]
      | succ indentation ih =>
        intro n left
        rw [List.replicate_succ, List.cons_append, firstIndentation?, if_pos rfl, ih]
        exact congrArg some (by omega)
    rw [List.cons_append, indent, if_neg (by simp [shown.2]), if_pos rfl, List.append_assoc,
      List.cons_append, spaces, Nat.zero_add]

/-! ### The lines -/

theorem readLines_replicate (fits : column + n ≤ indentation) :
    readLines indentation false column line (List.replicate n ' ' ++ text) =
      readLines indentation false (column + n) line text := by
  induction n generalizing column with
  | zero => rfl
  | succ n ih =>
    have before : column ≠ indentation := by omega
    rw [List.replicate_succ, List.cons_append, readLines, if_neg (by decide), if_neg (by simp [before]),
      if_pos rfl, ih (by omega), Nat.add_assoc, Nat.add_comm 1 n]

theorem readLines_of_ends (after : Ends floor rest) (deep : floor ≤ indentation) :
    readLines indentation false 0 rest rest = some ([], rest) := by
  cases after with
  | nothing => rfl
  | @line k text before opens =>
    obtain ⟨c, more, rfl, visible⟩ := opens.exists_cons
    obtain ⟨space, stop, _⟩ := isVisible_iff.mp visible
    have blank : c ≠ ' ' ∧ c ≠ '\t' := by simpa [isSpace] using space
    have outside : k ≠ indentation := by omega
    rw [readLines_replicate (by omega), Nat.zero_add]
    simp [readLines, stop, blank, outside]

/-- Lines that end in a break are read up to the line that follows, from the start of a line or from
within one. -/
theorem readLines_indent (lineStart : Bool) (line : List Char) (after : Ends floor rest)
    (deep : floor ≤ indentation) (last : ∀ d ∈ text.getLast?, isBreak d = true)
    (empty : text = [] → lineStart = true ∧ line = rest) :
    readLines indentation (!lineStart) 0 line (indent indentation lineStart text ++ rest) =
      some (text, rest) := by
  induction text generalizing lineStart line with
  | nil =>
    obtain ⟨rfl, rfl⟩ := empty rfl
    exact readLines_of_ends after deep
  | cons c text ih =>
    have last' : ∀ d ∈ text.getLast?, isBreak d = true := by
      intro d member
      cases text with
      | nil => cases member
      | cons e text => exact last d (by rwa [List.getLast?_cons_cons])
    cases stop : isBreak c with
    | true =>
      have next : readLines indentation false 0 (indent indentation true text ++ rest)
          (indent indentation true text ++ rest) = some (text, rest) :=
        ih true _ last' fun none => ⟨rfl, by simp [none, indent]⟩
      rw [indent, if_pos stop, List.cons_append, readLines, if_pos stop, next]
      rfl
    | false =>
      have nonempty : text ≠ [] := by
        rintro rfl
        rw [last c rfl] at stop
        cases stop
      have next : readLines indentation true 0 line (indent indentation false text ++ rest) =
          some (text, rest) := ih false line last' fun none => absurd none nonempty
      have first : ∀ inLine column, (inLine || decide (column = indentation)) = true →
          readLines indentation inLine column line (c :: (indent indentation false text ++ rest)) =
            some (c :: text, rest) := by
        intro inLine column reached
        rw [readLines, if_neg (by simp [stop]), if_pos (by simpa using reached), next]
        rfl
      rw [indent, if_neg (by simp [stop]), List.append_assoc, List.cons_append]
      cases lineStart with
      | true =>
        show readLines indentation false 0 line (List.replicate indentation ' ' ++ _) = _
        rw [readLines_replicate (by omega), Nat.zero_add]
        exact first false indentation (by simp)
      | false => exact first true 0 rfl

/-- A text is read back from a block one column deeper than the parts of the block begin. -/
theorem read_afterBar (inBlock : 1 ≤ floor) (after : Ends floor rest) (nonempty : text ≠ [])
    (printable : ∀ c ∈ text, isPrintable c = true) :
    read floor (afterBar (floor + 1) text ++ rest) = some (text, rest) := by
  have lines : readLines (floor + 1) false 0 (indent (floor + 1) true (text ++ addedBreak text) ++ rest)
      (indent (floor + 1) true (text ++ addedBreak text) ++ rest) =
      some (text ++ addedBreak text, rest) :=
    readLines_indent true _ after (Nat.le_succ floor) isBreak_getLast fun none =>
      absurd (List.append_eq_nil_iff.mp none).1 nonempty
  have shown : needsIndentation text = false → firstIndentation? 0 0
      (indent (floor + 1) true (text ++ addedBreak text) ++ rest) = some (floor + 1) :=
    fun shown => firstIndentation?_indent shown nonempty printable
  unfold read afterBar
  rw [List.append_assoc, List.cons_append, readMarks_marks]
  cases deep : needsIndentation text with
  | true =>
    have column : floor - 1 + 2 = floor + 1 := by omega
    simp [afterHeader?, isBreak, column, lines, apply_chompingOf]
  | false =>
    simp [afterHeader?, isBreak, shown deep, lines, apply_chompingOf]

end Determinize.Yaml.Literal
