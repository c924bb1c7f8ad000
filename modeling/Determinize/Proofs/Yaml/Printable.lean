import Determinize.Proofs.Yaml.Scalar

/-!
Only printable characters are written, those that a text lacks as escapes. So a reader of what was
written refuses none of them and finds no break to unify.
-/

namespace Determinize.Yaml

variable {c : Char} {text : List Char} {indentation n width : Nat} {lineStart : Bool}

/-! ### Reading -/

theorem isReadable_of_isPrintable (printable : isPrintable c = true) : isReadable c = true := by
  simp only [isPrintable, isReadable, Bool.or_eq_true, Bool.and_eq_true, beq_iff_eq,
    decide_eq_true_eq] at printable ⊢
  omega

theorem unifyBreaks_eq (printable : ∀ c ∈ text, isPrintable c = true) : unifyBreaks text = text := by
  induction text with
  | nil => rfl
  | cons c text ih =>
    obtain ⟨here, later⟩ := List.forall_mem_cons.mp printable
    have feed : c ≠ '\r' := by
      rintro rfl
      cases here
    have next : c ≠ '\x85' := by
      rintro rfl
      cases here
    unfold unifyBreaks
    split
    · rename_i none
      cases none
    · rename_i same
      exact absurd (List.cons.inj same).1 feed
    · rename_i same
      obtain ⟨rfl, rfl⟩ := List.cons.inj same
      simp [feed, next, ih later]

/-! ### Writing -/

theorem isPrintable_hexDigits : ∀ c ∈ Quoted.hexDigits n width, isPrintable c = true := by
  have digit : ∀ d < 16, isPrintable (Quoted.hexDigit d) = true := by decide
  induction width generalizing n with
  | zero => simp [Quoted.hexDigits]
  | succ width ih =>
    rw [Quoted.hexDigits, List.forall_mem_append]
    exact ⟨ih, by simp [digit (n % 16) (Nat.mod_lt n (by decide))]⟩

theorem isPrintable_escape : ∀ d ∈ Quoted.escape c, isPrintable d = true := by
  have letters : ∀ e ∈ Quoted.escapes, isPrintable e.1 = true := by decide
  have numeric : ∀ letter width, isPrintable letter = true →
      ∀ d ∈ '\\' :: letter :: Quoted.hexDigits c.toNat width, isPrintable d = true :=
    fun letter width printable => List.forall_mem_cons.mpr
      ⟨by decide, List.forall_mem_cons.mpr ⟨printable, isPrintable_hexDigits⟩⟩
  unfold Quoted.escape
  split
  · rename_i e found
    exact List.forall_mem_cons.mpr
      ⟨by decide, List.forall_mem_singleton.mpr (letters e (List.mem_of_find?_eq_some found))⟩
  · split
    · rename_i printable
      simpa using printable
    · unfold Quoted.numericEscape
      dsimp only
      repeat' split
      all_goals exact numeric _ _ (by decide)

theorem isPrintable_replicate : ∀ c ∈ List.replicate n ' ', isPrintable c = true := by
  intro c member
  rw [(List.mem_replicate.mp member).2]
  decide

theorem isPrintable_indent (printable : ∀ c ∈ text, isPrintable c = true) :
    ∀ c ∈ indent indentation lineStart text, isPrintable c = true := by
  induction text generalizing lineStart with
  | nil => simp [indent]
  | cons c text ih =>
    obtain ⟨here, later⟩ := List.forall_mem_cons.mp printable
    unfold indent
    split
    · exact List.forall_mem_cons.mpr ⟨here, ih later⟩
    · refine List.forall_mem_append.mpr ⟨?_, List.forall_mem_cons.mpr ⟨here, ih later⟩⟩
      split
      · exact isPrintable_replicate
      · simp

theorem isPrintable_single (printable : ∀ c ∈ text, isPrintable c = true) :
    ∀ c ∈ Quoted.single indentation text, isPrintable c = true := by
  have quote : isPrintable '\x27' = true := by decide
  refine List.forall_mem_cons.mpr ⟨quote, isPrintable_indent ?_⟩
  refine List.forall_mem_append.mpr ⟨?_, List.forall_mem_singleton.mpr quote⟩
  intro c member
  obtain ⟨d, within, copied⟩ := List.mem_flatMap.mp member
  split at copied
  · have same : c = '\x27' := by simpa using copied
    rw [same, quote]
  · rw [List.mem_singleton.mp copied, printable d within]

theorem isPrintable_double : ∀ c ∈ Quoted.double text, isPrintable c = true := by
  have quote : isPrintable '\x22' = true := by decide
  refine List.forall_mem_append.mpr ⟨?_, List.forall_mem_singleton.mpr quote⟩
  refine List.forall_mem_cons.mpr ⟨quote, ?_⟩
  intro c member
  obtain ⟨d, _, escaped⟩ := List.mem_flatMap.mp member
  exact isPrintable_escape c escaped

theorem isPrintable_literal (printable : ∀ c ∈ text, isPrintable c = true) :
    ∀ c ∈ Literal.write indentation text, isPrintable c = true := by
  have marks : ∀ c ∈ Literal.header text, isPrintable c = true := by
    unfold Literal.header
    cases Literal.needsIndentation text <;> cases Literal.chompingOf text <;>
      exact List.all_eq_true.mp rfl
  refine List.forall_mem_append.mpr ⟨List.forall_mem_append.mpr ⟨marks, isPrintable_indent printable⟩, ?_⟩
  split
  · exact List.all_eq_true.mp rfl
  · simp

theorem isPrintable_write : ∀ c ∈ Scalar.write indentation text, isPrintable c = true := by
  have feed : ∀ c ∈ ['\n'], isPrintable c = true := List.all_eq_true.mp rfl
  unfold Scalar.write
  split
  · rename_i plain
    exact List.forall_mem_append.mpr ⟨(Scalar.written_of_style plain).printable, feed⟩
  · rename_i single
    exact List.forall_mem_append.mpr
      ⟨isPrintable_single (Scalar.unfolded_of_style single).printable, feed⟩
  · exact List.forall_mem_append.mpr ⟨isPrintable_double, feed⟩
  · rename_i literal
    exact isPrintable_literal (Scalar.printable_of_style (by simp [literal])).1

end Determinize.Yaml
