import Determinize.Reachability
import Mathlib.Logic.Relation

/-!
The search of a graph finds exactly the states that a chain of edges leads to (`Graph.mem_reach`).
A round that changes the set reaches the target of an edge that was outside before, so the rounds a
search is given are enough for it to stand still.
-/

namespace Determinize

open Relation (ReflTransGen)

namespace Graph

variable {g : Graph} {s t : State} {seen : StateSet}

def Edge (g : Graph) (s t : State) : Prop := (s, t) ∈ g.edges

/-- No edge leaves the set. -/
def Closed (g : Graph) (set : StateSet) : Prop := ∀ s ∈ set, ∀ t, g.Edge s t → t ∈ set

theorem mem_grow : t ∈ g.grow seen ↔ t ∈ seen ∨ ∃ s ∈ seen, g.Edge s t := by
  simp only [grow, SortedSet.mem_insertAll, List.mem_map, List.mem_filter, SortedSet.contains_iff,
    Edge]
  constructor
  · rintro (old | ⟨⟨s, t⟩, ⟨edge, member⟩, rfl⟩)
    · exact .inl old
    · exact .inr ⟨s, member, edge⟩
  · rintro (old | ⟨s, member, edge⟩)
    · exact .inl old
    · exact .inr ⟨(s, t), ⟨edge, member⟩, rfl⟩

theorem closed_of_grow_eq (still : g.grow seen = seen) : g.Closed seen := by
  intro s member t edge
  rw [← still]
  exact mem_grow.mpr (.inr ⟨s, member, edge⟩)

theorem mem_saturate_of_mem {rounds : Nat} (member : t ∈ seen) : t ∈ g.saturate rounds seen := by
  induction rounds generalizing seen with
  | zero => exact member
  | succ rounds ih =>
    rw [saturate]
    split
    · exact member
    · exact ih (mem_grow.mpr (.inl member))

theorem exists_of_mem_saturate {rounds : Nat} (found : t ∈ g.saturate rounds seen) :
    ∃ s ∈ seen, ReflTransGen g.Edge s t := by
  induction rounds generalizing seen with
  | zero => exact ⟨t, found, .refl⟩
  | succ rounds ih =>
    rw [saturate] at found
    split at found
    · exact ⟨t, found, .refl⟩
    · obtain ⟨u, member, path⟩ := ih found
      rcases mem_grow.mp member with old | ⟨s, old, edge⟩
      · exact ⟨u, old, path⟩
      · exact ⟨s, old, path.head edge⟩

/-- The edges whose targets the search has not come to yet. -/
def unexplored (g : Graph) (seen : StateSet) : List (State × State) :=
  g.edges.filter fun e => decide (e.2 ∉ seen.toList)

theorem length_unexplored_grow_lt (moved : g.grow seen ≠ seen) :
    (g.unexplored (g.grow seen)).length < (g.unexplored seen).length := by
  have fewer : g.unexplored (g.grow seen) =
      (g.unexplored seen).filter fun e => decide (e.2 ∉ (g.grow seen).toList) := by
    rw [unexplored, unexplored, List.filter_filter]
    apply List.filter_congr
    intro e _
    by_cases old : e.2 ∈ seen.toList
    · simp [old, show e.2 ∈ (g.grow seen).toList from mem_grow.mpr (.inl old)]
    · simp [old]
  obtain ⟨t, added, absent⟩ : ∃ t, t ∈ g.grow seen ∧ t ∉ seen := by
    refine Classical.byContradiction fun none => moved (SortedSet.ext fun t => ?_)
    refine ⟨fun added => ?_, fun old => mem_grow.mpr (.inl old)⟩
    exact Classical.byContradiction fun absent => none ⟨t, added, absent⟩
  obtain old | ⟨s, member, edge⟩ := mem_grow.mp added
  · exact absurd old absent
  · rw [fewer, List.length_filter_lt_length_iff_exists]
    refine ⟨(s, t), List.mem_filter.mpr ⟨edge, decide_eq_true absent⟩, ?_⟩
    simpa using SortedSet.mem_toList.mpr added

theorem closed_saturate {rounds : Nat} (enough : (g.unexplored seen).length ≤ rounds) :
    g.Closed (g.saturate rounds seen) := by
  induction rounds generalizing seen with
  | zero =>
    have none : g.unexplored seen = [] := List.length_eq_zero_iff.mp (Nat.le_zero.mp enough)
    intro s _ t edge
    have := List.filter_eq_nil_iff.mp none (s, t) edge
    exact Classical.byContradiction fun absent => this (decide_eq_true absent)
  | succ rounds ih =>
    rw [saturate]
    split
    · rename_i still
      exact closed_of_grow_eq still
    · rename_i moved
      have := length_unexplored_grow_lt moved
      exact ih (by omega)

theorem mem_of_closed (closed : g.Closed seen) (member : s ∈ seen)
    (path : ReflTransGen g.Edge s t) : t ∈ seen := by
  induction path with
  | refl => exact member
  | tail _ edge ih => exact closed _ ih _ edge

/-- The search finds a state if and only if a chain of edges leads to it. -/
theorem mem_reach : t ∈ g.reach s ↔ ReflTransGen g.Edge s t := by
  constructor
  · intro found
    obtain ⟨u, member, path⟩ := exists_of_mem_saturate found
    exact SortedSet.mem_singleton.mp member ▸ path
  · have start : s ∈ g.reach s := mem_saturate_of_mem (SortedSet.mem_singleton.mpr rfl)
    exact mem_of_closed (closed_saturate (List.length_filter_le _ _)) start

theorem edge_ofTransitions {ts : List Transition} :
    (ofTransitions ts).Edge s t ↔ ∃ m ∈ ts, m.source = s ∧ t ∈ m.destinations := by
  simp only [Edge, ofTransitions, List.mem_flatMap, List.mem_map, Prod.mk.injEq]
  constructor
  · rintro ⟨m, member, d, target, rfl, rfl⟩
    exact ⟨m, member, rfl, target⟩
  · rintro ⟨m, member, rfl, target⟩
    exact ⟨m, member, t, target, rfl, rfl⟩

theorem edge_epsilon {ts : List Transition} :
    (epsilon ts).Edge s t ↔ ∃ m ∈ ts, m.symbol = .epsilon ∧ m.source = s ∧ t ∈ m.destinations := by
  rw [epsilon, edge_ofTransitions]
  have empty : ∀ m : Transition, m.symbol.isEpsilon = true ↔ m.symbol = .epsilon := by
    intro h
    obtain ⟨_, symbol, _⟩ := h
    cases symbol <;> simp [Symbol.isEpsilon]
  simp only [List.mem_filter, empty, and_assoc]

end Graph

end Determinize
