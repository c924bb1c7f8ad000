import Determinize.Proofs.Yaml.Plain
import Determinize.Yaml.Scalar
import Mathlib.Data.Nat.ModEq
import Mathlib.Tactic.Ring

/-!
Quoted texts are read back. Between double quotes every escape is read as the character it stands for,
and no line ends there. Between single quotes the line separators of the text end a line; what the
reader takes for the indentation of the next one is what the writer put there.
-/

namespace Determinize.Yaml.Quoted

variable {c : Char} {text rest tail : List Char} {indentation n width : Nat} {lineStart folding : Bool}

/-! ### Double quotes -/

theorem digit?_hexDigit : ∀ d < 16, Number.digit? (hexDigit d) = some d := by decide

theorem readDouble_hexDigit {more value : Nat} :
    readDouble (.digits (more + 1) value) (hexDigit (n % 16) :: tail) =
      readDouble (.digits more (value * 16 + n % 16)) tail := by
  have digit := digit?_hexDigit (n % 16) (Nat.mod_lt n (by decide))
  rw [readDouble, digit]
  rfl

theorem mod_pow_succ : n % 16 ^ (width + 1) = n / 16 % 16 ^ width * 16 + n % 16 := by
  rw [Nat.pow_succ', Nat.mod_mul]
  ring

theorem readDouble_hexDigits (n width more value : Nat) (tail : List Char) :
    readDouble (.digits (more + width) value) (hexDigits n width ++ tail) =
      readDouble (.digits more (value * 16 ^ width + n % 16 ^ width)) tail := by
  induction width generalizing n more tail with
  | zero => simp [hexDigits, Nat.mod_one]
  | succ width ih =>
    have first := ih (n / 16) (more + 1) (hexDigit (n % 16) :: tail)
    rw [show more + 1 + width = more + (width + 1) by omega] at first
    rw [hexDigits, List.append_assoc, List.singleton_append, first, readDouble_hexDigit, mod_pow_succ]
    congr 2
    ring

theorem ofCode?_toNat : ofCode? c.toNat = some c := by
  have valid : c.toNat.isValidChar := c.valid
  rw [ofCode?, if_pos valid, Char.ofNat_toNat]

/-- The digits of a character say the character. -/
theorem readDouble_code (fits : c.toNat < 16 ^ (width + 1)) :
    readDouble (.digits width 0) (hexDigits c.toNat (width + 1) ++ tail) =
      (readDouble .text tail).map fun (text, left) => (c :: text, left) := by
  have first := readDouble_hexDigits (c.toNat / 16) width 0 0 (hexDigit (c.toNat % 16) :: tail)
  have digit := digit?_hexDigit (c.toNat % 16) (Nat.mod_lt _ (by decide))
  rw [Nat.zero_add] at first
  rw [hexDigits, List.append_assoc, List.singleton_append, first, readDouble, digit]
  dsimp only [Option.bind_some]
  rw [Nat.zero_mul, Nat.zero_add, ← mod_pow_succ, Nat.mod_eq_of_lt fits, ofCode?_toNat]
  rfl

theorem readDouble_numericEscape :
    readDouble .text (numericEscape c ++ tail) =
      (readDouble .text tail).map fun (text, left) => (c :: text, left) := by
  unfold numericEscape
  dsimp only
  have letter : ∀ x more, isBreak x = false → escapeWidth? x = some (more + 1) →
      readDouble .text ('\\' :: x :: hexDigits c.toNat (more + 1) ++ tail) =
        readDouble (.digits more 0) (hexDigits c.toNat (more + 1) ++ tail) := by
    intro x more whole wide
    rw [List.cons_append, List.cons_append, readDouble, if_neg (by decide), if_pos rfl, readDouble,
      if_neg (by simp [whole]), wide]
    rfl
  split
  · rename_i small
    rw [letter 'x' 1 rfl rfl]
    exact readDouble_code (by omega)
  · split
    · rename_i small
      rw [letter 'u' 3 rfl rfl]
      exact readDouble_code (by omega)
    · rw [letter 'U' 7 rfl rfl]
      exact readDouble_code c.val.toNat_lt

theorem escapes_read : ∀ e ∈ escapes, isBreak e.1 = false ∧ escapeWidth? e.1 = none ∧
    readEscapes.find? (fun f => decide (f.1 = e.1)) = some e := by decide

theorem escapes_cover : ∀ d ∈ ['\x22', '\\', '\n', '\u2028', '\u2029'], ∃ e ∈ escapes, e.2 = d := by
  simp [escapes]

/-- A character is written as it is or behind a backslash. -/
theorem escape_cases (c : Char) :
    escape c = [c] ∧ isBreak c = false ∧ c ≠ '\x22' ∧ c ≠ '\\' ∨ ∃ more, escape c = '\\' :: more := by
  unfold escape
  split
  · exact .inr ⟨_, rfl⟩
  · rename_i none
    have other : ∀ d ∈ ['\x22', '\\', '\n', '\u2028', '\u2029'], c ≠ d := by
      intro d special same
      obtain ⟨e, listed, value⟩ := escapes_cover d special
      have missed := List.find?_eq_none.mp none e listed
      simp [value, same] at missed
    split
    · have whole : isBreak c = false := by
        simp [isBreak, other '\n', other '\u2028', other '\u2029']
      exact .inl ⟨rfl, whole, other _ (by simp), other _ (by simp)⟩
    · unfold numericEscape
      dsimp only
      repeat' split
      all_goals exact .inr ⟨_, rfl⟩

/-- Only a space at the end of a line would be lost. -/
theorem readDouble_escape (inside : lineEnds tail = false) :
    readDouble .text (escape c ++ tail) =
      (readDouble .text tail).map fun (text, left) => (c :: text, left) := by
  rcases escape_cases c with ⟨itself, whole, quote, slash⟩ | ⟨more, escaped⟩
  · rw [itself, List.singleton_append, readDouble, if_neg quote, if_neg slash,
      if_neg (by simp [whole]), if_neg (by simp [inside])]
  · unfold escape at escaped ⊢
    split
    · rename_i e found
      obtain ⟨whole, narrow, read⟩ := escapes_read e (List.mem_of_find?_eq_some found)
      have value : e.2 = c := by simpa using List.find?_some found
      rw [List.cons_append, List.singleton_append, readDouble, if_neg (by decide), if_pos rfl,
        readDouble, if_neg (by simp [whole]), narrow]
      dsimp only
      rw [read, Option.bind_some, value]
    · split
      · rename_i none printable
        rw [none] at escaped
        dsimp only at escaped
        rw [if_pos printable] at escaped
        obtain ⟨e, listed, value⟩ := escapes_cover '\\' (by simp)
        have missed := List.find?_eq_none.mp none e listed
        simp [value, (List.cons.inj escaped).1] at missed
      · exact readDouble_numericEscape

theorem lineEnds_escaped : lineEnds (text.flatMap escape ++ '\x22' :: rest) = false := by
  induction text with
  | nil => rfl
  | cons c text ih =>
    rw [List.flatMap_cons, List.append_assoc]
    rcases escape_cases c with ⟨itself, whole, _⟩ | ⟨more, escaped⟩
    · simp [itself, lineEnds, whole, ih]
    · rw [escaped]
      rfl

theorem readDouble_double :
    readDouble .text (text.flatMap escape ++ '\x22' :: rest) = some (text, rest) := by
  induction text with
  | nil => rfl
  | cons c text ih =>
    rw [List.flatMap_cons, List.append_assoc, readDouble_escape lineEnds_escaped, ih]
    rfl

/-! ### Single quotes -/

/-- A text as it stands after the opening quote or after a line break in it, with its closing quote. -/
def behind (indentation : Nat) (lineStart : Bool) (text : List Char) : List Char :=
  indent indentation lineStart
    ((text.flatMap fun c => if c = '\x27' then ['\x27', '\x27'] else [c]) ++ ['\x27'])

theorem single_eq : single indentation text = '\x27' :: behind indentation false text := rfl

theorem behind_nil : behind indentation false [] = ['\x27'] := by
  simp [behind, indent, isBreak]

theorem ne_of_isBreak {d : Char} (stop : isBreak c = true) (other : isBreak d = false) : c ≠ d := by
  rintro rfl
  rw [stop] at other
  cases other

theorem behind_break (stop : isBreak c = true) :
    behind indentation lineStart (c :: text) = c :: behind indentation true text := by
  have other : c ≠ '\x27' := ne_of_isBreak stop rfl
  simp [behind, indent, other, stop]

theorem behind_cons (whole : isBreak c = false) :
    behind indentation false (c :: text) =
      (if c = '\x27' then ['\x27', '\x27'] else [c]) ++ behind indentation false text := by
  by_cases quote : c = '\x27'
  · subst quote
    simp [behind, indent, isBreak]
  · simp [behind, indent, quote, whole]

/-- After a break the text stands behind the indentation, unless another break follows. -/
theorem behind_lineStart (whole : ∀ d ∈ text.head?, isBreak d = false) :
    behind indentation true text =
      List.replicate indentation ' ' ++ behind indentation false text := by
  cases text with
  | nil => simp [behind, indent, isBreak]
  | cons c text =>
    have whole := whole c rfl
    by_cases quote : c = '\x27'
    · subst quote
      simp [behind, indent, isBreak]
    · simp [behind, indent, quote, whole]

theorem atMarker_behind (deep : 0 < indentation) :
    atMarker (behind indentation true text ++ rest) = false := by
  by_cases stop : ∃ c more, text = c :: more ∧ isBreak c = true
  · obtain ⟨c, more, rfl, stop⟩ := stop
    rw [behind_break stop]
    exact atMarker_eq_false (ne_of_isBreak stop rfl) (ne_of_isBreak stop rfl)
  · have whole : ∀ d ∈ text.head?, isBreak d = false := by
      intro d first
      cases text with
      | nil => cases first
      | cons c more =>
        cases first
        exact Bool.eq_false_iff.mpr fun stopped => stop ⟨_, _, rfl, stopped⟩
    rw [behind_lineStart whole, ← Nat.succ_pred_eq_of_pos deep, List.replicate_succ]
    exact atMarker_eq_false (by decide) (by decide)

/-- What is written between single quotes: no line feed, no space at the end or the start of a line,
and no other blank. -/
structure Unfolded (text : List Char) : Prop where
  printable : ∀ c ∈ text, isPrintable c = true
  noFeed : ∀ c ∈ text, c ≠ '\n'
  before : Scalar.hasSpaceBeforeBreak text = false
  after : Scalar.hasSpaceAfterBreak text = false

theorem Unfolded.of_cons (unfolded : Unfolded (c :: text)) : Unfolded text := by
  obtain ⟨printable, noFeed, before, after⟩ := unfolded
  refine ⟨(List.forall_mem_cons.mp printable).2, (List.forall_mem_cons.mp noFeed).2, ?_, ?_⟩
  · cases text with
    | nil => rfl
    | cons d text => exact (Bool.or_eq_false_iff.mp before).2
  · cases text with
    | nil => rfl
    | cons d text => exact (Bool.or_eq_false_iff.mp after).2

theorem Unfolded.head_ne_space (unfolded : Unfolded (c :: text)) (stop : isBreak c = true) :
    text.head? ≠ some ' ' := by
  cases text with
  | nil => simp
  | cons d text =>
    have here := (Bool.or_eq_false_iff.mp unfolded.after).1
    rw [stop, Bool.true_and, beq_eq_false_iff_ne] at here
    simpa using here

theorem Unfolded.isBreak_eq_false (unfolded : Unfolded (' ' :: c :: text)) : isBreak c = false := by
  have here := (Bool.or_eq_false_iff.mp unfolded.before).1
  simpa using here

theorem lineEnds_behind (unfolded : Unfolded (' ' :: text)) :
    lineEnds (behind indentation false text ++ rest) = false := by
  induction text with
  | nil =>
    rw [behind_nil]
    rfl
  | cons c text ih =>
    have whole := unfolded.isBreak_eq_false
    rw [behind_cons whole]
    by_cases quote : c = '\x27'
    · rw [if_pos quote]
      rfl
    · rw [if_neg quote, List.append_assoc, List.singleton_append, lineEnds, whole, Bool.false_or]
      by_cases space : c = ' '
      · subst space
        rw [ih unfolded.of_cons, Bool.and_false]
      · have dark : isSpace c = false :=
          Bool.eq_false_iff.mpr fun blank =>
            space ((isSpace_iff (unfolded.of_cons.printable c List.mem_cons_self)).mp blank)
        rw [dark, Bool.false_and]

theorem readSingle_close (closed : rest.head? ≠ some '\x27') :
    readSingle folding ('\x27' :: rest) = some ([], rest) := by
  unfold readSingle
  rw [if_pos rfl]
  split
  · exact absurd rfl closed
  · rfl

theorem readSingle_quote :
    readSingle folding ('\x27' :: '\x27' :: rest) =
      (readSingle false rest).map fun (text, left) => ('\x27' :: text, left) := by
  rw [readSingle, if_pos rfl]

theorem readSingle_break (stop : isBreak c = true) (inside : atMarker rest = false) :
    readSingle folding (c :: rest) = (readSingle true rest).map fun (text, left) =>
      (if folding then text else foldBreaks (c :: breaksAhead rest) ++ text, left) := by
  conv_lhs => unfold readSingle
  rw [if_neg (ne_of_isBreak stop rfl), if_pos stop, if_neg (by simp [inside])]

theorem readSingle_space (idle : (folding || lineEnds rest) = true) :
    readSingle folding (' ' :: rest) = readSingle folding rest := by
  conv_lhs => unfold readSingle
  rw [if_neg (by decide), if_neg (by decide), if_pos (by simpa [isSpace] using idle)]

theorem readSingle_char (other : c ≠ '\x27') (whole : isBreak c = false)
    (kept : isSpace c = true → (folding || lineEnds rest) = false) :
    readSingle folding (c :: rest) =
      (readSingle false rest).map fun (text, left) => (c :: text, left) := by
  conv_lhs => unfold readSingle
  rw [if_neg other, if_neg (by simp [whole]), if_neg]
  simpa using kept

theorem breaksAhead_replicate : breaksAhead (List.replicate n ' ' ++ tail) = breaksAhead tail := by
  induction n with
  | zero => rfl
  | succ n ih =>
    rw [List.replicate_succ, List.cons_append, breaksAhead, if_neg (by decide), if_pos (by decide), ih]

theorem readSingle_replicate :
    readSingle true (List.replicate n ' ' ++ tail) = readSingle true tail := by
  induction n with
  | zero => rfl
  | succ n ih => rw [List.replicate_succ, List.cons_append, readSingle_space rfl, ih]

/-- The first character of a line, the closing quote among them, is no blank and no break. -/
theorem exists_behind_cons (indentation : Nat) (rest : List Char) (unfolded : Unfolded text)
    (first : text.head? ≠ some ' ') (whole : ∀ d ∈ text.head?, isBreak d = false) :
    ∃ d more, behind indentation false text ++ rest = d :: more ∧ isBreak d = false ∧
      isSpace d = false := by
  cases text with
  | nil =>
    rw [behind_nil]
    exact ⟨_, _, rfl, rfl, rfl⟩
  | cons c text =>
    have whole := whole c rfl
    rw [behind_cons whole]
    split
    · exact ⟨_, _, rfl, rfl, rfl⟩
    · refine ⟨_, _, rfl, whole, Bool.eq_false_iff.mpr fun blank => first ?_⟩
      exact congrArg some ((isSpace_iff (unfolded.printable c List.mem_cons_self)).mp blank)

theorem breaksAhead_behind (unfolded : Unfolded text) (first : text.head? ≠ some ' ') :
    breaksAhead (behind indentation true text ++ rest) = text.takeWhile isBreak := by
  induction text with
  | nil =>
    rw [behind_lineStart (by simp), List.append_assoc, breaksAhead_replicate, behind_nil]
    rfl
  | cons c text ih =>
    cases stop : isBreak c with
    | true =>
      rw [behind_break stop, List.cons_append, breaksAhead, if_pos stop,
        ih unfolded.of_cons (unfolded.head_ne_space stop), List.takeWhile_cons_of_pos stop]
    | false =>
      have whole : ∀ d ∈ (c :: text).head?, isBreak d = false := by
        rintro d ⟨rfl⟩
        exact stop
      rw [behind_lineStart whole, List.append_assoc, breaksAhead_replicate,
        List.takeWhile_cons_of_neg (by simp [stop])]
      obtain ⟨d, more, led, whole, dark⟩ := exists_behind_cons indentation rest unfolded first whole
      rw [led, breaksAhead, if_neg (by simp [whole]), if_neg (by simp [dark])]

/-- The start of a line does not matter to a character that would not be folded away there. -/
theorem readSingle_folding (whole : isBreak c = false) (dark : isSpace c = false) :
    readSingle true (c :: tail) = readSingle false (c :: tail) := by
  have kept : ∀ folding, isSpace c = true → (folding || lineEnds tail) = false := by
    intro folding blank
    rw [dark] at blank
    cases blank
  by_cases quote : c = '\x27'
  · subst quote
    by_cases more : ∃ rest, tail = '\x27' :: rest
    · obtain ⟨rest, rfl⟩ := more
      rw [readSingle_quote, readSingle_quote]
    · have closed : tail.head? ≠ some '\x27' := by
        intro first
        exact more ⟨_, (List.head?_eq_some_iff.mp first).choose_spec⟩
      rw [readSingle_close closed, readSingle_close closed]
  · rw [readSingle_char quote whole (kept true), readSingle_char quote whole (kept false)]

theorem readSingle_lineStart (unfolded : Unfolded text) (first : text.head? ≠ some ' ')
    (whole : ∀ d ∈ text.head?, isBreak d = false)
    (read : readSingle false (behind indentation false text ++ rest) = some (text, rest)) :
    readSingle true (behind indentation true text ++ rest) =
      some (text.dropWhile isBreak, rest) := by
  obtain ⟨d, more, led, whole', dark⟩ := exists_behind_cons indentation rest unfolded first whole
  rw [behind_lineStart whole, List.append_assoc, readSingle_replicate, led,
    readSingle_folding whole' dark, ← led, read]
  cases text with
  | nil => rfl
  | cons c text => rw [List.dropWhile_cons_of_neg (by simp [whole c rfl])]

theorem readSingle_behind_break (deep : 0 < indentation) (unfolded : Unfolded (c :: text))
    (stop : isBreak c = true)
    (atStart : readSingle true (behind indentation true text ++ rest) =
      some (text.dropWhile isBreak, rest)) :
    readSingle folding (behind indentation lineStart (c :: text) ++ rest) =
      some (if folding then text.dropWhile isBreak else c :: text, rest) := by
  have ahead : breaksAhead (behind indentation true text ++ rest) = text.takeWhile isBreak :=
    breaksAhead_behind unfolded.of_cons (unfolded.head_ne_space stop)
  -- a run that begins with a separator is kept as it is
  have kept : foldBreaks (c :: text.takeWhile isBreak) = c :: text.takeWhile isBreak := by
    rw [foldBreaks, if_neg (unfolded.noFeed c List.mem_cons_self)]
  rw [behind_break stop, List.cons_append, readSingle_break stop (atMarker_behind deep), atStart,
    ahead, kept]
  simp [List.takeWhile_append_dropWhile]

theorem readSingle_behind_char (unfolded : Unfolded (c :: text)) (whole : isBreak c = false)
    (inLine : readSingle false (behind indentation false text ++ rest) = some (text, rest)) :
    readSingle false (behind indentation false (c :: text) ++ rest) = some (c :: text, rest) := by
  rw [behind_cons whole]
  by_cases quote : c = '\x27'
  · subst quote
    rw [if_pos rfl, List.append_assoc, List.cons_append, List.singleton_append, readSingle_quote,
      inLine]
    rfl
  · have kept : isSpace c = true →
        (false || lineEnds (behind indentation false text ++ rest)) = false := by
      intro blank
      obtain rfl := (isSpace_iff (unfolded.printable c List.mem_cons_self)).mp blank
      rw [lineEnds_behind unfolded]
      rfl
    rw [if_neg quote, List.append_assoc, List.singleton_append, readSingle_char quote whole kept,
      inLine]
    rfl

/-- A text is read to its closing quote; from the start of a line, without the breaks that come first,
which the reader has folded by then. -/
theorem readSingle_behind (deep : 0 < indentation) (unfolded : Unfolded text)
    (closed : rest.head? ≠ some '\x27') :
    readSingle false (behind indentation false text ++ rest) = some (text, rest) ∧
      (text.head? ≠ some ' ' → readSingle true (behind indentation true text ++ rest) =
        some (text.dropWhile isBreak, rest)) := by
  induction text with
  | nil =>
    have read : readSingle false (behind indentation false [] ++ rest) = some ([], rest) := by
      rw [behind_nil, List.singleton_append, readSingle_close closed]
    exact ⟨read, fun first => readSingle_lineStart unfolded first (by simp) read⟩
  | cons c text ih =>
    obtain ⟨inLine, atStart⟩ := ih unfolded.of_cons
    cases stop : isBreak c with
    | true =>
      have next := atStart (unfolded.head_ne_space stop)
      refine ⟨readSingle_behind_break deep unfolded stop next, fun _ => ?_⟩
      rw [readSingle_behind_break deep unfolded stop next, List.dropWhile_cons_of_pos stop]
      rfl
    | false =>
      have read := readSingle_behind_char unfolded stop inLine
      refine ⟨read, fun first => readSingle_lineStart unfolded first ?_ read⟩
      rintro d ⟨rfl⟩
      exact stop

end Determinize.Yaml.Quoted
