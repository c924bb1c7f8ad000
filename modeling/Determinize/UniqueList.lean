/-!
# Lists without repetition

A finite set that remembers the order in which its elements came. Adding an element that is there
already changes nothing, so a collection with repetitions collapses onto the first occurrences.
-/

namespace Determinize

universe u

/-- A list in which no element occurs twice. -/
structure UniqueList (α : Type u) where
  toList : List α
  nodup : toList.Nodup
deriving DecidableEq

namespace UniqueList

variable {α : Type u}

instance : Membership α (UniqueList α) := ⟨fun s a => a ∈ s.toList⟩

theorem mem_toList {s : UniqueList α} {a : α} : a ∈ s.toList ↔ a ∈ s := Iff.rfl

def size (s : UniqueList α) : Nat := s.toList.length

def filter (s : UniqueList α) (p : α → Bool) : UniqueList α :=
  ⟨s.toList.filter p, List.Pairwise.filter p s.nodup⟩

variable [DecidableEq α]

def contains (s : UniqueList α) (a : α) : Bool := decide (a ∈ s.toList)

/-- The place of an element in the order. -/
def index? (s : UniqueList α) (a : α) : Option Nat := s.toList.idxOf? a

/-- Keeps the first occurrence of every element. -/
def collapse : List α → List α
  | [] => []
  | a :: l => a :: (collapse l).filter (fun b => decide (b ≠ a))

theorem mem_collapse {a : α} {l : List α} : a ∈ collapse l ↔ a ∈ l := by
  induction l with
  | nil => rfl
  | cons b l ih =>
    by_cases h : a = b <;> simp [collapse, h, ih]

theorem nodup_collapse (l : List α) : (collapse l).Nodup := by
  induction l with
  | nil => exact List.nodup_nil
  | cons a l ih =>
    refine List.nodup_cons.mpr ⟨fun h => ?_, List.Pairwise.filter _ ih⟩
    simp at h

theorem collapse_eq_self {l : List α} (h : l.Nodup) : collapse l = l := by
  induction l with
  | nil => rfl
  | cons a l ih =>
    have ⟨absent, rest⟩ := List.nodup_cons.mp h
    rw [collapse, ih rest]
    congr 1
    refine List.filter_eq_self.mpr fun b member => ?_
    simp only [ne_eq, decide_eq_true_eq]
    exact fun e => absent (e ▸ member)

def ofList (l : List α) : UniqueList α := ⟨collapse l, nodup_collapse l⟩

/-- Adds an element at the end, unless it is there. -/
def insert (s : UniqueList α) (a : α) : UniqueList α :=
  if h : a ∈ s.toList then s
  else ⟨s.toList ++ [a], by
    refine List.nodup_append.mpr ⟨s.nodup, List.nodup_cons.mpr ⟨List.not_mem_nil, List.nodup_nil⟩, ?_⟩
    intro b member c last e
    exact h (List.mem_singleton.mp last ▸ e ▸ member)⟩

theorem contains_iff {s : UniqueList α} {a : α} : s.contains a = true ↔ a ∈ s :=
  decide_eq_true_iff

theorem mem_ofList {l : List α} {a : α} : a ∈ ofList l ↔ a ∈ l := mem_collapse

theorem ofList_toList (s : UniqueList α) : ofList s.toList = s := by
  cases s with
  | mk l h => simp [ofList, collapse_eq_self h]

theorem mem_insert {s : UniqueList α} {a b : α} : b ∈ s.insert a ↔ b ∈ s ∨ b = a := by
  unfold insert
  split
  · rename_i present
    exact ⟨.inl, fun h => h.elim id fun e => e ▸ present⟩
  · show b ∈ s.toList ++ [a] ↔ _
    rw [List.mem_append, List.mem_singleton]
    rfl

def sameElements (s t : UniqueList α) : Bool :=
  s.toList.all t.contains && t.toList.all s.contains

end UniqueList

end Determinize
