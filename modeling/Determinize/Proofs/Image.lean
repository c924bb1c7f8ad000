import Determinize.SortedSet
import Determinize.UniqueList
import Mathlib.Data.List.Nodup
import Mathlib.Data.List.Perm.Basic
import Mathlib.Data.List.Perm.Subperm

/-!
Images of finite sets. The image of a sorted set is sorted anew, so only its members are the images of
those of the set; the image of a list without repetition keeps the order, if the map is injective.
-/

namespace Determinize

namespace SortedSet

variable {α β : Type} [Ord α] [Ord β] [Std.TransOrd β] {f : α → β} {s : SortedSet α}

/-- The images of the elements, in the order that they have among themselves. -/
def map (f : α → β) (s : SortedSet α) : SortedSet β := ofList (s.toList.map f)

variable [Std.LawfulEqOrd β]

theorem mem_map {b : β} : b ∈ s.map f ↔ ∃ a ∈ s, f a = b := by
  rw [map, mem_ofList, List.mem_map]
  rfl

theorem isEmpty_map : (s.map f).isEmpty = s.isEmpty := by
  cases empty : s.isEmpty with
  | true =>
    have none : s.toList = [] := List.isEmpty_iff.mp empty
    rw [map, none]
    rfl
  | false =>
    obtain ⟨a, member⟩ := isEmpty_eq_false_iff.mp empty
    exact isEmpty_eq_false_iff.mpr ⟨f a, mem_map.mpr ⟨a, member, rfl⟩⟩

theorem any_toList_map {p : β → Bool} : (s.map f).toList.any p = s.toList.any fun a => p (f a) := by
  rw [Bool.eq_iff_iff, List.any_eq_true, List.any_eq_true]
  simp only [mem_toList, mem_map, exists_exists_and_eq_and]

variable [Std.TransOrd α]

theorem map_ofList [Std.LawfulEqOrd α] {l : List α} : (ofList l).map f = ofList (l.map f) := by
  apply ext
  intro b
  rw [mem_map, mem_ofList, List.mem_map]
  simp only [mem_ofList]

variable (injective : f.Injective)

include injective

theorem map_injective : (map f).Injective := by
  intro s t same
  have member : ∀ (s : SortedSet α) a, f a ∈ s.map f ↔ a ∈ s := fun s a => by
    simp only [mem_map, injective.eq_iff, exists_eq_right]
  apply ext
  intro a
  rw [← member s, same, member t]

theorem length_map : (s.map f).toList.length = s.toList.length := by
  have perm : (s.map f).toList.Perm (s.toList.map f) := by
    refine (List.perm_ext_iff_of_nodup (s.map f).nodup (s.nodup.map injective)).mpr fun b => ?_
    rw [mem_toList, mem_map, List.mem_map]
    rfl
  rw [perm.length_eq, List.length_map]

theorem exists_toList_map {a b : α} {l : List α} (two : s.toList = a :: b :: l) :
    ∃ a' b' l', (s.map f).toList = a' :: b' :: l' := by
  have length := length_map (s := s) injective
  rw [two] at length
  match shape : (s.map f).toList with
  | a' :: b' :: l' => exact ⟨a', b', l', rfl⟩
  | [_] => simp [shape] at length
  | [] => simp [shape] at length

end SortedSet

namespace UniqueList

variable {α β : Type} {f : α → β} {s : UniqueList α}

theorem eq_of_toList_eq {s t : UniqueList α} (same : s.toList = t.toList) : s = t := by
  cases s
  cases t
  cases same
  rfl

/-- A list whose elements are sent to different elements of another one is no longer than that. -/
theorem size_le_of_map {t : UniqueList β} (maps : ∀ a ∈ s, f a ∈ t)
    (apart : ∀ a ∈ s, ∀ b ∈ s, f a = f b → a = b) : s.size ≤ t.size := by
  have nodup : (s.toList.map f).Nodup := s.nodup.map_on apart
  have subset : s.toList.map f ⊆ t.toList := List.forall_mem_map.mpr maps
  have bound := (List.subperm_of_subset nodup subset).length_le
  rwa [List.length_map] at bound

variable [DecidableEq β]

/-- The images of the elements, in the order of the elements. -/
def map (f : α → β) (s : UniqueList α) : UniqueList β := ofList (s.toList.map f)

theorem mem_map {b : β} : b ∈ s.map f ↔ ∃ a ∈ s, f a = b := by
  rw [map, mem_ofList, List.mem_map]
  rfl

theorem collapse_map [DecidableEq α] {l : List α}
    (apart : ∀ a ∈ l, ∀ b ∈ l, f a = f b → a = b) : collapse (l.map f) = (collapse l).map f := by
  induction l with
  | nil => rfl
  | cons a l ih =>
    have rest : ∀ b ∈ l, ∀ c ∈ l, f b = f c → b = c := fun b first c second =>
      apart b (List.mem_cons_of_mem a first) c (List.mem_cons_of_mem a second)
    rw [List.map_cons, collapse, collapse, ih rest, List.map_cons, List.filter_map]
    refine congrArg (fun rest => f a :: rest.map f) (List.filter_congr fun b member => ?_)
    have listed : b ∈ a :: l := List.mem_cons_of_mem a (mem_collapse.mp member)
    exact decide_eq_decide.mpr (not_congr ⟨apart b listed a List.mem_cons_self, congrArg f⟩)

variable (injective : f.Injective)

include injective

theorem toList_map : (s.map f).toList = s.toList.map f :=
  collapse_eq_self (s.nodup.map injective)

theorem mem_map_of_injective {a : α} : f a ∈ s.map f ↔ a ∈ s := by
  simp only [mem_map, injective.eq_iff, exists_eq_right]

theorem size_map : (s.map f).size = s.size := by
  rw [size, size, toList_map injective, List.length_map]

theorem map_filter {p : α → Bool} {q : β → Bool} (same : ∀ a, q (f a) = p a) :
    (s.filter p).map f = (s.map f).filter q := by
  apply eq_of_toList_eq
  rw [toList_map injective]
  show (s.toList.filter p).map f = (s.map f).toList.filter q
  rw [toList_map injective, List.filter_map]
  exact congrArg (List.map f) (List.filter_congr fun a _ => (same a).symm)

variable [DecidableEq α]

theorem map_ofList {l : List α} : (ofList l).map f = ofList (l.map f) := by
  apply eq_of_toList_eq
  rw [toList_map injective]
  exact (collapse_map fun _ _ _ _ same => injective same).symm

theorem map_insert {a : α} : (s.insert a).map f = (s.map f).insert (f a) := by
  apply eq_of_toList_eq
  have listed : f a ∈ (s.map f).toList ↔ a ∈ s.toList := mem_map_of_injective injective
  by_cases member : a ∈ s.toList
  · rw [insert, insert, dif_pos member, dif_pos (listed.mpr member)]
  · rw [toList_map injective, insert, insert, dif_neg member, dif_neg (listed.not.mpr member)]
    simp only [List.map_append, List.map_singleton, toList_map injective]

end UniqueList

end Determinize
