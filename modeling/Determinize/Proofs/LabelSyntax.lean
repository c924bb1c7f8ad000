import Determinize.Proofs.Label

/-!
The texts that are labels, and what they are read as. A label is the one of the sink, a name, or names
between braces (`Labels`), and the reader takes just these (`ofLabel?_eq_some_iff`). Reading a label and
writing the state again gives a label of the same state, unless the state has the name of the sink.
-/

namespace Determinize

namespace State

variable {text : String} {names others : List String} {s : State} {kind : Kind}

/-- What a name in a label consists of. -/
structure Plain (name : String) : Prop where
  nonempty : name ≠ ""
  undelimited : ∀ c ∈ name.toList, c ≠ '{' ∧ c ≠ '}' ∧ c ≠ ','

theorem validName_iff {name : String} : validName name = true ↔ Plain name :=
  validName_eq_true_iff.trans ⟨fun h => ⟨h.1, h.2⟩, fun h => ⟨h.nonempty, h.undelimited⟩⟩

/-- The states that labels stand for. -/
inductive Labels : String → State → Prop
  | dead : Labels "DEAD" dead
  | name {name : String} : Plain name → name ≠ "DEAD" → Labels name (simple name)
  | braced {names : List String} {s : State} : names ≠ [] → (∀ n ∈ names, Plain n) →
    combine names = some s → Labels (braced names) s

/-! ### Taking a text apart -/

theorem pieces_ne_nil (l : List Char) : pieces l ≠ [] := by
  induction l with
  | nil => simp [pieces]
  | cons c l ih =>
    rw [pieces]
    split
    · simp
    · split <;> simp

/-- The pieces with commas between them are the text. -/
theorem intercalate_pieces (l : List Char) :
    (",".intercalate ((pieces l).map String.ofList)).toList = l := by
  induction l with
  | nil => simp [pieces]
  | cons c l ih =>
    obtain ⟨piece, more, found⟩ := List.exists_cons_of_ne_nil (pieces_ne_nil l)
    rw [found] at ih
    rw [pieces, found]
    split
    · rename_i comma
      simp only [List.map_cons, String.intercalate_cons_cons, String.toList_append] at ih ⊢
      simp [ih, comma]
    · cases more with
      | nil => simpa using ih
      | cons next more => simpa [String.intercalate_cons_cons] using ih

theorem braced?_eq_some_iff {l inner : List Char} :
    braced? l = some inner ↔ l = '{' :: (inner ++ ['}']) := by
  refine ⟨fun found => ?_, fun same => same ▸ braced?_append⟩
  unfold braced? at found
  split at found
  · rename_i rest
    split at found
    · rename_i closed
      obtain ⟨front, rfl⟩ := List.getLast?_eq_some_iff.mp closed
      rw [List.dropLast_concat, Option.some.injEq] at found
      rw [found]
    · cases found
  · cases found

/-- The reader takes the labels and nothing else. -/
theorem ofLabel?_eq_some_iff : ofLabel? text = some s ↔ Labels text s := by
  constructor
  · intro read
    unfold ofLabel? at read
    split at read
    · rename_i sink
      cases read
      exact sink ▸ .dead
    · rename_i notDead
      split at read
      · rename_i inner found
        have spelled : text = braced ((pieces inner).map String.ofList) := by
          apply String.toList_inj.mp
          rw [toList_braced, intercalate_pieces]
          exact braced?_eq_some_iff.mp found
        dsimp only at read
        split at read
        · rename_i valid
          rw [List.all_eq_true] at valid
          rw [spelled]
          refine .braced ?_ (fun n member => validName_iff.mp (valid n member)) read
          simpa using pieces_ne_nil inner
        · cases read
      · split at read
        · rename_i valid
          cases read
          exact .name (validName_iff.mp valid) notDead
        · cases read
  · intro label
    cases label with
    | dead => rfl
    | name plain notDead => exact ofLabel?_name (validName_iff.mpr plain) notDead
    | braced nonempty plain combined =>
      rw [ofLabel?_braced nonempty fun n member => validName_iff.mpr (plain n member), combined]

theorem exists_ofLabel?_iff : (∃ s, ofLabel? text = some s) ↔
    text = "DEAD" ∨ Plain text ∨ ∃ names, names ≠ [] ∧ (∀ n ∈ names, Plain n) ∧ text = braced names := by
  simp only [ofLabel?_eq_some_iff]
  constructor
  · rintro ⟨s, label⟩
    cases label with
    | dead => exact .inl rfl
    | name plain _ => exact .inr (.inl plain)
    | braced nonempty plain _ => exact .inr (.inr ⟨_, nonempty, plain, rfl⟩)
  · rintro (rfl | plain | ⟨names, nonempty, plain, rfl⟩)
    · exact ⟨dead, .dead⟩
    · by_cases sink : text = "DEAD"
      · exact ⟨dead, sink ▸ .dead⟩
      · exact ⟨simple text, .name plain sink⟩
    · obtain ⟨s, combined⟩ := Option.isSome_iff_exists.mp (isSome_combine nonempty)
      exact ⟨s, .braced nonempty plain combined⟩

/-! ### Writing what was read -/

theorem combine_members_of_combine (combined : combine names = some s) : combine s.members = some s :=
  (combine_congr fun _ => mem_members_of_combine combined).trans combined

theorem combine_eq_iff (nonempty : names ≠ []) :
    combine names = combine others ↔ ∀ n, n ∈ names ↔ n ∈ others := by
  refine ⟨fun same n => ?_, combine_congr⟩
  obtain ⟨s, combined⟩ := Option.isSome_iff_exists.mp (isSome_combine nonempty)
  rw [← mem_members_of_combine combined, mem_members_of_combine (same ▸ combined)]

/-- What is read is written so that it reads the same, but for the state that has the name of the sink. -/
theorem Labels.reread (label : Labels text s) : ofLabel? s.label = some s ↔ s ≠ simple "DEAD" := by
  have reread : ∀ {n}, Plain n → (ofLabel? n = some (simple n) ↔ simple n ≠ simple "DEAD") := by
    intro n plain
    by_cases sink : n = "DEAD"
    · subst sink
      decide
    · simp [ofLabel?_name (validName_iff.mpr plain) sink, sink]
  cases label with
  | dead => decide
  | name plain _ => exact reread plain
  | braced nonempty plain combined =>
    have again := combine_members_of_combine combined
    have plain : ∀ n ∈ s.members, Plain n := fun n member =>
      plain n ((mem_members_of_combine combined).mp member)
    cases s with
    | simple n => exact reread (plain n (List.mem_singleton_self n))
    | dead => cases again
    | composite set =>
      have some : set.toList ≠ [] := by
        intro none
        rw [members, none] at again
        cases again
      refine iff_of_true ?_ (by simp)
      exact (ofLabel?_braced some fun n member => validName_iff.mpr (plain n member)).trans again

theorem valid_of_defect? (accepted : s.defect? kind = none) : s.Valid := by
  cases kind with
  | general => exact (defect?_general_iff.mp accepted).1
  | deterministic => exact defect?_deterministic_iff.mp accepted

/-- A text is a label if it is the one of the sink, a name, or one or more names between braces, and what
is between braces counts as a set. The states that pass validation are read back from what is written for
them, so no two are written alike. Of the states that are read from labels only the one with the name of
the sink is not; it is written like the sink and does not pass validation. -/
theorem labels_exact :
    (∀ text, (∃ s, ofLabel? text = some s) ↔ text = "DEAD" ∨ Plain text ∨
      ∃ names, names ≠ [] ∧ (∀ n ∈ names, Plain n) ∧ text = braced names) ∧
    (∀ names others, names ≠ [] → (∀ n ∈ names, Plain n) → others ≠ [] → (∀ n ∈ others, Plain n) →
      (ofLabel? (braced names) = ofLabel? (braced others) ↔ ∀ n, n ∈ names ↔ n ∈ others)) ∧
    (∀ kind s, s.defect? kind = none →
      ofLabel? s.label = some s ∧ (combine s.members = some s ↔ s ≠ dead) ∧
        ∀ kind' t, t.defect? kind' = none → s.label = t.label → s = t) ∧
    (∀ text s, ofLabel? text = some s → (ofLabel? s.label = some s ↔ s ≠ simple "DEAD")) ∧
    ofLabel? "\x7bDEAD\x7d" = some (simple "DEAD") ∧ (simple "DEAD").label = dead.label ∧
      ∀ kind, (simple "DEAD").defect? kind = some (.reservedName "DEAD") := by
  refine ⟨fun _ => exists_ofLabel?_iff, fun names others some plain some' plain' => ?_,
    fun kind s accepted => ?_, fun text s read => (ofLabel?_eq_some_iff.mp read).reread, ?_⟩
  · rw [ofLabel?_braced some fun n member => validName_iff.mpr (plain n member),
      ofLabel?_braced some' fun n member => validName_iff.mpr (plain' n member), combine_eq_iff some]
  · have valid := valid_of_defect? accepted
    refine ⟨ofLabel?_label valid, ⟨?_, combine_members valid⟩, fun kind' t accepted' =>
      label_injective valid (valid_of_defect? accepted')⟩
    rintro combined rfl
    cases combined
  · exact ⟨by decide, rfl, fun kind => by cases kind <;> decide⟩

/-- The order of the names between braces does not count, nor do repetitions. -/
theorem labels_exact_reordered :
    let s := composite (.ofList ["a", "b"])
    ofLabel? (braced ["b", "a"]) = ofLabel? (braced ["a", "b", "a"]) ∧
      ofLabel? (braced ["a"]) ≠ ofLabel? (braced ["a", "b"]) ∧
      ofLabel? s.label = some s ∧ combine s.members = some s ∧ s.label ≠ (simple "a").label ∧
      ofLabel? (simple "a").label = some (simple "a") := by
  intro s
  obtain ⟨_, braces, accepted, rewritten, _⟩ := labels_exact
  have plain : ∀ names : List String, names.all validName = true → ∀ n ∈ names, Plain n :=
    fun names valid n member => validName_iff.mp (List.all_eq_true.mp valid n member)
  have accepts : s.defect? .general = none := by decide
  obtain ⟨read, combined, unlike⟩ := accepted .general s accepts
  refine ⟨?_, fun same => ?_, read, combined.mpr (by decide), fun alike => ?_, ?_⟩
  · refine (braces ["b", "a"] ["a", "b", "a"] (by simp) (plain _ (by decide)) (by simp)
      (plain _ (by decide))).mpr fun n => ?_
    simp only [List.mem_cons, List.not_mem_nil, or_false]
    exact ⟨.inr, fun either => either.elim .inr id⟩
  · have sets := (braces ["a"] ["a", "b"] (by simp) (plain _ (by decide)) (by simp)
      (plain _ (by decide))).mp same
    simpa using sets "b"
  · exact absurd (unlike .deterministic (simple "a") (by decide) alike) (by simp [s])
  · exact (rewritten "\x7ba,a\x7d" (simple "a") (by decide)).mpr (by decide)

end State

end Determinize
