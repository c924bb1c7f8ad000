import Determinize.Automaton.Validity

/-!
States that an automaton may declare, and their labels. A label is read back as the state it was
written for (`State.ofLabel?_label`), so no two such states are written alike.
-/

namespace Determinize

namespace State

variable {name : String} {names others : List String} {s : State}

/-- A name that may occur in a declared state. -/
def NameAllowed (name : String) : Prop := name ∉ reservedNames ∧ validName name = true

/-- A state that a deterministic automaton may declare; a general one may not declare the sink. -/
def Valid : State → Prop
  | simple name => NameAllowed name
  | composite names => 2 ≤ names.toList.length ∧ ∀ name ∈ names.toList, NameAllowed name
  | dead => True

theorem nameDefect?_eq_none_iff : nameDefect? name = none ↔ NameAllowed name := by
  unfold nameDefect? NameAllowed
  split
  · simp [*]
  · split <;> simp [*]

theorem defect?_deterministic_iff : s.defect? .deterministic = none ↔ s.Valid := by
  cases s with
  | simple name => exact nameDefect?_eq_none_iff
  | composite names =>
    simp only [defect?, Valid]
    split
    · simp; omega
    · rw [List.findSome?_eq_none_iff]
      simp only [nameDefect?_eq_none_iff]
      exact ⟨fun allowed => ⟨by omega, allowed⟩, fun both => both.2⟩
  | dead => simp [defect?, Valid]

theorem defect?_general_iff : s.defect? .general = none ↔ s.Valid ∧ s ≠ dead := by
  cases s with
  | simple name =>
    rw [← defect?_deterministic_iff]
    simp [defect?]
  | composite names =>
    rw [← defect?_deterministic_iff]
    simp [defect?]
  | dead => simp [defect?]

theorem validName_eq_true_iff : validName name = true ↔
    name ≠ "" ∧ ∀ c ∈ name.toList, c ≠ '{' ∧ c ≠ '}' ∧ c ≠ ',' := by
  simp [validName, isDelimiter, and_assoc]

theorem not_mem_of_validName {c : Char} (valid : validName name = true) (delimiter : isDelimiter c) :
    c ∉ name.toList := by
  intro member
  simp only [validName, Bool.and_eq_true, List.all_eq_true] at valid
  simpa [delimiter] using valid.2 c member

theorem allowed_of_mem_members (valid : s.Valid) (member : name ∈ s.members) :
    NameAllowed name := by
  cases s with
  | simple other =>
    obtain rfl := List.mem_singleton.mp member
    exact valid
  | composite names => exact valid.2 name member
  | dead => exact absurd member List.not_mem_nil

/-! ### Combining names -/

theorem combine_congr (same : ∀ n, n ∈ names ↔ n ∈ others) : combine names = combine others := by
  have sets : SortedSet.ofList names = SortedSet.ofList others := SortedSet.ext fun n => by
    rw [SortedSet.mem_ofList, SortedSet.mem_ofList, same]
  rw [combine, combine, sets]

theorem mem_members_of_combine (combined : combine names = some s) :
    name ∈ s.members ↔ name ∈ names := by
  rw [← SortedSet.mem_ofList (l := names), ← SortedSet.mem_toList]
  simp only [combine] at combined
  split at combined
  · cases combined
  · rename_i single
    cases combined
    rw [single]
    rfl
  · cases combined
    rfl

theorem isSome_combine (nonempty : names ≠ []) : (combine names).isSome = true := by
  have kept : (SortedSet.ofList names).toList ≠ [] := by
    intro none
    obtain ⟨name, member⟩ := List.exists_mem_of_ne_nil names nonempty
    have := SortedSet.mem_toList.mpr (SortedSet.mem_ofList.mpr member)
    rw [none] at this
    exact List.not_mem_nil this
  simp only [combine]
  split
  · contradiction
  · rfl
  · rfl

theorem valid_combine (combined : combine names = some s)
    (allowed : ∀ n ∈ names, NameAllowed n) : s.Valid := by
  have members : ∀ n ∈ (SortedSet.ofList names).toList, NameAllowed n := fun n member =>
    allowed n (SortedSet.mem_ofList.mp member)
  simp only [combine] at combined
  split at combined
  · cases combined
  · rename_i single
    cases combined
    exact members _ (by rw [single]; exact List.mem_singleton_self _)
  · rename_i several one
    cases combined
    refine ⟨?_, members⟩
    match shape : (SortedSet.ofList names).toList with
    | [] => exact absurd shape several
    | [n] => exact absurd shape (one n)
    | _ :: _ :: _ => exact Nat.le_add_left 2 _

theorem combine_members (valid : s.Valid) (live : s ≠ dead) : combine s.members = some s := by
  cases s with
  | simple name => rfl
  | composite names =>
    have same : SortedSet.ofList names.toList = names :=
      SortedSet.ext fun n => SortedSet.mem_ofList
    have two := valid.1
    simp only [combine, members, same]
    split
    · rename_i none
      simp [none] at two
    · rename_i one
      simp [one] at two
    · rfl
  | dead => contradiction

/-! ### Reading a label back -/

theorem pieces_eq_singleton {l : List Char} (whole : ',' ∉ l) : pieces l = [l] := by
  induction l with
  | nil => rfl
  | cons c l ih =>
    obtain ⟨first, rest⟩ := List.ne_and_not_mem_of_not_mem_cons whole
    rw [pieces, if_neg first.symm, ih rest]

theorem pieces_append {l r : List Char} (whole : ',' ∉ l) :
    pieces (l ++ ',' :: r) = l :: pieces r := by
  induction l with
  | nil => simp [pieces]
  | cons c l ih =>
    obtain ⟨first, rest⟩ := List.ne_and_not_mem_of_not_mem_cons whole
    rw [List.cons_append, pieces, if_neg first.symm, ih rest]

theorem pieces_intercalate (nonempty : names ≠ []) (whole : ∀ n ∈ names, ',' ∉ n.toList) :
    (pieces (",".intercalate names).toList).map String.ofList = names := by
  induction names with
  | nil => contradiction
  | cons name rest ih =>
    have first := whole name List.mem_cons_self
    cases rest with
    | nil => simp [pieces_eq_singleton first]
    | cons next rest =>
      have text : (",".intercalate (name :: next :: rest)).toList =
          name.toList ++ ',' :: (",".intercalate (next :: rest)).toList := by
        simp [String.intercalate_cons_cons]
      rw [text, pieces_append first, List.map_cons, String.ofList_toList,
        ih (by simp) fun n member => whole n (List.mem_cons_of_mem _ member)]

theorem braced?_eq_none {l : List Char} (unopened : '{' ∉ l) : braced? l = none := by
  cases l with
  | nil => rfl
  | cons c l =>
    obtain ⟨first, _⟩ := List.ne_and_not_mem_of_not_mem_cons unopened
    unfold braced?
    split
    · rename_i same
      simp only [List.cons.injEq] at same
      exact absurd same.1.symm first
    · rfl

theorem braced?_append {l : List Char} : braced? ('{' :: (l ++ ['}'])) = some l := by
  simp [braced?]

/-- Names between braces with commas between them. -/
def braced (names : List String) : String := "\x7b" ++ ",".intercalate names ++ "\x7d"

theorem toList_braced :
    (braced names).toList = '{' :: ((",".intercalate names).toList ++ ['}']) := by
  simp [braced]

theorem braced_ne_deadLabel : braced names ≠ deadLabel := by
  intro same
  have := congrArg String.toList same
  rw [toList_braced] at this
  simp [deadLabel] at this

theorem ofLabel?_name (valid : validName name = true) (notDead : name ≠ deadLabel) :
    ofLabel? name = some (simple name) := by
  rw [ofLabel?, if_neg notDead, braced?_eq_none (not_mem_of_validName valid rfl)]
  exact if_pos valid

theorem ofLabel?_braced (nonempty : names ≠ []) (valid : ∀ n ∈ names, validName n = true) :
    ofLabel? (braced names) = combine names := by
  have read := pieces_intercalate nonempty fun n member => not_mem_of_validName (valid n member) rfl
  rw [ofLabel?, if_neg braced_ne_deadLabel, toList_braced, braced?_append]
  simp only [read, List.all_eq_true.mpr valid, if_true]

/-- The label of a state that may be declared reads as that state. -/
theorem ofLabel?_label (valid : s.Valid) : ofLabel? s.label = some s := by
  cases s with
  | simple name =>
    refine ofLabel?_name valid.2 ?_
    rintro rfl
    exact valid.1 (by decide)
  | composite names =>
    have nonempty : names.toList ≠ [] := by
      intro none
      have two := valid.1
      simp [none] at two
    rw [show (composite names).label = braced names.toList from rfl,
      ofLabel?_braced nonempty fun n member => (valid.2 n member).2]
    exact combine_members (s := composite names) valid (by simp)
  | dead => rfl

theorem label_injective {t : State} (valid : s.Valid) (other : t.Valid)
    (same : s.label = t.label) : s = t := by
  have := ofLabel?_label valid
  rw [same, ofLabel?_label other] at this
  exact (Option.some.inj this).symm

end State

end Determinize
