import Determinize.SortedSet

/-!
# States

A state is simple, composite (it stands for a set of simple states) or the dead sink. States are
totally ordered: simple ones by name, then composite ones by their lists of names, then the sink.
-/

namespace Determinize

abbrev NameSet := SortedSet String

/-- A composite state is meant to hold two names or more; `State.combine` sees to that. -/
inductive State
  | simple (name : String)
  | composite (names : NameSet)
  | dead
deriving DecidableEq

namespace State

/-- The names of the simple states a state stands for, in increasing order. -/
def members : State → List String
  | simple name => [name]
  | composite names => names.toList
  | dead => []

def isComposite : State → Bool
  | composite _ => true
  | _ => false

def isDead : State → Bool
  | dead => true
  | _ => false

theorem isDead_iff {s : State} : s.isDead = true ↔ s = dead := by cases s <;> simp [isDead]

theorem isDead_eq_false_iff {s : State} : s.isDead = false ↔ s ≠ dead := by
  rw [ne_eq, ← isDead_iff, Bool.not_eq_true]

/-- The state for a set of names, if there are any. -/
def combine (names : List String) : Option State :=
  let set := SortedSet.ofList names
  match set.toList with
  | [] => none
  | [name] => some (simple name)
  | _ => some (composite set)

def rank : State → Nat
  | simple _ => 0
  | composite _ => 1
  | dead => 2

instance : Ord State := ⟨compareLex (compareOn rank) (compareOn members)⟩

instance : Std.TransOrd State :=
  inferInstanceAs (Std.TransCmp (compareLex (compareOn rank) (compareOn members)))

theorem eq_of_rank_eq_of_members_eq {s t : State} (ranks : s.rank = t.rank)
    (names : s.members = t.members) : s = t := by
  cases s <;> cases t <;> simp_all [rank, members]
  rename_i a b
  cases a; cases b; cases names; rfl

instance : Std.LawfulEqOrd State where
  eq_of_compare {s t} same := by
    have ⟨ranks, names⟩ : compareOn rank s t = .eq ∧ compareOn members s t = .eq := by
      simpa [compare, compareLex, Ordering.then_eq_eq] using same
    exact eq_of_rank_eq_of_members_eq (Std.LawfulEqCmp.eq_of_compare ranks)
      (Std.LawfulEqCmp.eq_of_compare names)

end State

abbrev StateSet := SortedSet State

end Determinize
