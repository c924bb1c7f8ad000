/-!
# Sorted sets

A finite set kept as its strictly increasing list. Two sets with the same elements are equal
(`SortedSet.ext`), so equality of sets is equality of values.
-/

namespace Determinize

universe u v

/-- A finite set, kept as the strictly increasing list of its elements. -/
structure SortedSet (α : Type u) [Ord α] where
  toList : List α
  increasing : toList.Pairwise (fun a b => compare a b = .lt)

namespace SortedSet

variable {α : Type u} [Ord α]

instance [DecidableEq α] : DecidableEq (SortedSet α) := fun s t =>
  if h : s.toList = t.toList then
    .isTrue (by cases s; cases t; cases h; rfl)
  else
    .isFalse fun e => h (e ▸ rfl)

instance : Membership α (SortedSet α) := ⟨fun s a => a ∈ s.toList⟩

theorem mem_toList {s : SortedSet α} {a : α} : a ∈ s.toList ↔ a ∈ s := Iff.rfl

/-- Puts `a` before the first larger element; an element already there stays. -/
def place (a : α) : List α → List α
  | [] => [a]
  | b :: l =>
    match compare a b with
    | .lt => a :: b :: l
    | .eq => b :: l
    | .gt => b :: place a l

theorem mem_of_mem_place {a b : α} {l : List α} (h : b ∈ place a l) : b = a ∨ b ∈ l := by
  induction l with
  | nil => exact .inl (List.mem_singleton.mp h)
  | cons c l ih =>
    unfold place at h
    split at h
    · exact List.mem_cons.mp h
    · exact .inr h
    · rcases List.mem_cons.mp h with rfl | later
      · exact .inr List.mem_cons_self
      · exact (ih later).imp_right (List.mem_cons_of_mem _)

theorem increasing_place [Std.TransOrd α] (a : α) {l : List α}
    (h : l.Pairwise (fun a b => compare a b = .lt)) :
    (place a l).Pairwise (fun a b => compare a b = .lt) := by
  induction l with
  | nil => exact List.pairwise_singleton _ _
  | cons b l ih =>
    have ⟨first, rest⟩ := List.pairwise_cons.mp h
    unfold place
    split
    · rename_i before
      refine List.pairwise_cons.mpr ⟨fun c member => ?_, h⟩
      rcases List.mem_cons.mp member with rfl | later
      · exact before
      · exact Std.TransCmp.lt_trans before (first c later)
    · exact h
    · rename_i after
      refine List.pairwise_cons.mpr ⟨fun c member => ?_, ih rest⟩
      rcases mem_of_mem_place member with rfl | later
      · exact Std.OrientedCmp.lt_of_gt after
      · exact first c later

def empty : SortedSet α := ⟨[], List.Pairwise.nil⟩

def singleton (a : α) : SortedSet α := ⟨[a], List.pairwise_singleton _ _⟩

section Ordered

variable [Std.TransOrd α]

def insert (s : SortedSet α) (a : α) : SortedSet α :=
  ⟨place a s.toList, increasing_place a s.increasing⟩

def insertAll (s : SortedSet α) (l : List α) : SortedSet α := l.foldl insert s

def ofList (l : List α) : SortedSet α := empty.insertAll l

end Ordered

def isEmpty (s : SortedSet α) : Bool := s.toList.isEmpty

def contains [DecidableEq α] (s : SortedSet α) (a : α) : Bool := decide (a ∈ s.toList)

def min? (s : SortedSet α) : Option α := s.toList.head?

def single? (s : SortedSet α) : Option α :=
  match s.toList with
  | [a] => some a
  | _ => none

theorem contains_iff [DecidableEq α] {s : SortedSet α} {a : α} : s.contains a = true ↔ a ∈ s :=
  decide_eq_true_iff

theorem isEmpty_eq_false_iff {s : SortedSet α} : s.isEmpty = false ↔ ∃ a, a ∈ s :=
  List.isEmpty_eq_false_iff_exists_mem

theorem not_mem_empty {a : α} : a ∉ (empty : SortedSet α) := List.not_mem_nil

theorem mem_singleton {a b : α} : b ∈ singleton a ↔ b = a := List.mem_singleton

section Lawful

variable [Std.LawfulEqOrd α]

theorem mem_place {a b : α} {l : List α} : b ∈ place a l ↔ b = a ∨ b ∈ l := by
  refine ⟨mem_of_mem_place, fun h => ?_⟩
  induction l with
  | nil => simpa [place] using h
  | cons c l ih =>
    unfold place
    split
    · exact List.mem_cons.mpr h
    · rename_i same
      have := Std.LawfulEqCmp.eq_of_compare same
      subst this
      rcases h with rfl | h
      · exact List.mem_cons_self
      · exact h
    · rcases h with rfl | h
      · exact List.mem_cons_of_mem _ (ih (.inl rfl))
      · rcases List.mem_cons.mp h with rfl | later
        · exact List.mem_cons_self
        · exact List.mem_cons_of_mem _ (ih (.inr later))

variable [Std.TransOrd α]

theorem mem_insert {s : SortedSet α} {a b : α} : b ∈ s.insert a ↔ b = a ∨ b ∈ s := mem_place

theorem mem_insertAll {s : SortedSet α} {l : List α} {a : α} :
    a ∈ s.insertAll l ↔ a ∈ s ∨ a ∈ l := by
  induction l generalizing s with
  | nil => simp [insertAll]
  | cons b l ih =>
    rw [insertAll, List.foldl_cons, ← insertAll, ih, mem_insert, List.mem_cons]
    constructor
    · rintro ((h | h) | h)
      · exact .inr (.inl h)
      · exact .inl h
      · exact .inr (.inr h)
    · rintro (h | h | h)
      · exact .inl (.inr h)
      · exact .inl (.inl h)
      · exact .inr h

theorem mem_ofList {l : List α} {a : α} : a ∈ ofList l ↔ a ∈ l := by
  simp [ofList, mem_insertAll, not_mem_empty]

omit [Std.LawfulEqOrd α] in
theorem not_lt_self (a : α) : compare a a ≠ .lt := by
  intro before
  rw [(Std.ReflCmp.compare_self : compare a a = .eq)] at before
  cases before

omit [Std.LawfulEqOrd α] in
theorem nodup (s : SortedSet α) : s.toList.Nodup := by
  refine s.increasing.imp fun {a b} before same => ?_
  subst same
  exact not_lt_self a before

omit [Std.LawfulEqOrd α] in
theorem eq_of_increasing {l m : List α} (hl : l.Pairwise (fun a b => compare a b = .lt))
    (hm : m.Pairwise (fun a b => compare a b = .lt)) (same : ∀ a, a ∈ l ↔ a ∈ m) : l = m := by
  have asymm : ∀ a b : α, compare a b = .lt → compare b a ≠ .lt := fun a b h h' =>
    not_lt_self a (Std.TransCmp.lt_trans h h')
  induction l generalizing m with
  | nil =>
    cases m with
    | nil => rfl
    | cons b m => exact absurd ((same b).mpr List.mem_cons_self) List.not_mem_nil
  | cons a l ih =>
    cases m with
    | nil => exact absurd ((same a).mp List.mem_cons_self) List.not_mem_nil
    | cons b m =>
      have ⟨la, lrest⟩ := List.pairwise_cons.mp hl
      have ⟨mb, mrest⟩ := List.pairwise_cons.mp hm
      have heads : a = b := by
        rcases List.mem_cons.mp ((same a).mp List.mem_cons_self) with h | h
        · exact h
        rcases List.mem_cons.mp ((same b).mpr List.mem_cons_self) with h' | h'
        · exact h'.symm
        · exact absurd (la b h') (asymm b a (mb a h))
      subst heads
      congr 1
      refine ih lrest mrest fun c => ⟨fun h => ?_, fun h => ?_⟩
      · rcases List.mem_cons.mp ((same c).mp (List.mem_cons_of_mem _ h)) with rfl | h'
        · exact absurd (la c h) (not_lt_self c)
        · exact h'
      · rcases List.mem_cons.mp ((same c).mpr (List.mem_cons_of_mem _ h)) with rfl | h'
        · exact absurd (mb c h) (not_lt_self c)
        · exact h'

omit [Std.LawfulEqOrd α] in
theorem ext {s t : SortedSet α} (same : ∀ a, a ∈ s ↔ a ∈ t) : s = t := by
  have lists := eq_of_increasing s.increasing t.increasing same
  cases s; cases t; cases lists; rfl

theorem ofList_toList (s : SortedSet α) : ofList s.toList = s := ext fun _ => mem_ofList

omit [Std.LawfulEqOrd α] in
theorem eq_empty_iff {s : SortedSet α} : s = empty ↔ ∀ a, a ∉ s := by
  constructor
  · rintro rfl a member
    exact not_mem_empty member
  · intro absent
    apply ext
    intro a
    exact iff_of_false (absent a) not_mem_empty

omit [Std.LawfulEqOrd α] in
theorem exists_mem {s : SortedSet α} (nonempty : s ≠ empty) : ∃ a, a ∈ s := by
  refine Classical.byContradiction fun none => nonempty (eq_empty_iff.mpr ?_)
  exact fun a member => none ⟨a, member⟩

omit [Std.LawfulEqOrd α] in
theorem eq_singleton {s : SortedSet α} {a : α} (member : a ∈ s) (only : ∀ b ∈ s, b = a) :
    s = singleton a := by
  apply ext
  intro b
  rw [mem_singleton]
  exact ⟨only b, fun same => same ▸ member⟩

omit [Std.LawfulEqOrd α] [Std.TransOrd α] in
theorem shape (s : SortedSet α) :
    s = empty ∨ (∃ a, s = singleton a) ∨ ∃ a b l, s.toList = a :: b :: l := by
  obtain ⟨l, increasing⟩ := s
  match l with
  | [] => exact .inl rfl
  | [a] => exact .inr (.inl ⟨a, rfl⟩)
  | a :: b :: l => exact .inr (.inr ⟨a, b, l, rfl⟩)

end Lawful

end SortedSet

end Determinize
