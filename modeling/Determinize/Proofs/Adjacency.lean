import Determinize.Adjacency
import Determinize.Proofs.Closure
import Mathlib.Algebra.BigOperators.Group.Finset.Basic
import Mathlib.Data.List.Basic

/-!
The table of empty moves and its searches. Entering a move adds its edges and no others
(`exists_addMove?`), and a search comes to every number that edges lead to (`exists_search?`). No
number is used that is without a row or without a state: what is entered and looked up has been
numbered before, and a row is only added to when the table has been made long enough.
-/

namespace Determinize

open Relation (ReflTransGen)

namespace Adjacency

variable {g g' : Adjacency} {s t d u v : State} {i j : Nat} {e : Search}

/-- The number stands for the state. -/
def Stands (g : Adjacency) (i : Nat) (s : State) : Prop := g.states.toList[i]? = some s

/-- The row of the first number lists the second. -/
def Joins (g : Adjacency) (i j : Nat) : Prop := ∃ row, g.rows[i]? = some row ∧ j ∈ row

def Edge (g : Adjacency) (s t : State) : Prop :=
  ∃ i j, g.Stands i s ∧ g.Stands j t ∧ g.Joins i j

/-- There are no rows without a number, and the rows list nothing but numbers. -/
structure InRange (g : Adjacency) : Prop where
  rows_le : g.rows.length ≤ g.states.size
  lt_of_joins : ∀ i j, g.Joins i j → j < g.states.size

theorem Joins.lt (joins : g.Joins i j) : i < g.rows.length := by
  obtain ⟨row, found, _⟩ := joins
  exact (List.getElem?_eq_some_iff.mp found).1

theorem Stands.lt (stands : g.Stands i s) : i < g.states.size :=
  (List.getElem?_eq_some_iff.mp stands).1

theorem Stands.mem (stands : g.Stands i s) : s ∈ g.states.toList :=
  List.mem_of_getElem? stands

theorem exists_stands (inside : i < g.states.size) : ∃ s, g.Stands i s :=
  ⟨_, List.getElem?_eq_getElem inside⟩

theorem stands_number (member : s ∈ g.states.toList) : g.Stands (g.number s) s :=
  List.getElem?_idxOf member

theorem Stands.unique (first : g.Stands i s) (second : g.Stands j s) : i = j :=
  (List.getElem?_inj first.lt g.states.nodup).mp (Eq.trans first second.symm)

/-! ### Entering moves -/

/-- The numbers of the first table stand for the same states in the second. -/
def Keeps (g g' : Adjacency) : Prop := g.states.toList <+: g'.states.toList

theorem Keeps.stands (keeps : g.Keeps g') (stands : g.Stands i s) : g'.Stands i s := by
  obtain ⟨more, longer⟩ := keeps
  rw [Stands, ← longer, List.getElem?_append_left stands.lt]
  exact stands

theorem Keeps.stands_iff (keeps : g.Keeps g') (inside : i < g.states.size) :
    g'.Stands i s ↔ g.Stands i s := by
  refine ⟨fun stands => ?_, keeps.stands⟩
  obtain ⟨t, before⟩ := exists_stands inside
  rwa [Option.some.inj (Eq.trans stands.symm (keeps.stands before))]

theorem Keeps.size_le (keeps : g.Keeps g') : g.states.size ≤ g'.states.size := keeps.length_le

/-- The edges of a table that has the joins of another one and some more. -/
theorem Keeps.edge_iff {more : Nat → Nat → Prop} (keeps : g.Keeps g') (inRange : g.InRange)
    (joins : ∀ i j, g'.Joins i j ↔ g.Joins i j ∨ more i j) :
    g'.Edge u v ↔ g.Edge u v ∨ ∃ i j, g'.Stands i u ∧ g'.Stands j v ∧ more i j := by
  constructor
  · rintro ⟨i, j, source, target, joined⟩
    rcases (joins i j).mp joined with before | new
    · have inside := Nat.lt_of_lt_of_le before.lt inRange.rows_le
      exact .inl ⟨i, j, (keeps.stands_iff inside).mp source,
        (keeps.stands_iff (inRange.lt_of_joins i j before)).mp target, before⟩
    · exact .inr ⟨i, j, source, target, new⟩
  · rintro (⟨i, j, source, target, before⟩ | ⟨i, j, source, target, new⟩)
    · exact ⟨i, j, keeps.stands source, keeps.stands target, (joins i j).mpr (.inl before)⟩
    · exact ⟨i, j, source, target, (joins i j).mpr (.inr new)⟩

theorem keeps_enter : g.Keeps (g.enter s) := by
  unfold Keeps enter UniqueList.insert
  dsimp only
  split
  · exact List.prefix_refl _
  · exact List.prefix_append _ _

theorem mem_enter : s ∈ (g.enter s).states.toList := UniqueList.mem_insert.mpr (.inr rfl)

theorem inRange_enter (inRange : g.InRange) : (g.enter s).InRange :=
  ⟨Nat.le_trans inRange.rows_le keeps_enter.size_le, fun i j joined =>
    Nat.lt_of_lt_of_le (inRange.lt_of_joins i j joined) keeps_enter.size_le⟩

theorem length_resize : g.resize.rows.length = g.states.size := by
  simp only [resize, List.rightpad, List.length_append, List.length_take, List.length_replicate]
  omega

theorem joins_resize (inRange : g.InRange) : g.resize.Joins i j ↔ g.Joins i j := by
  have rows : g.resize.rows = g.rows ++ List.replicate (g.states.size - g.rows.length) [] := by
    rw [resize, List.rightpad, List.take_of_length_le inRange.rows_le]
  unfold Joins
  rw [rows]
  by_cases old : i < g.rows.length
  · rw [List.getElem?_append_left old]
  · rw [List.getElem?_append_right (Nat.le_of_not_lt old), List.getElem?_replicate,
      List.getElem?_eq_none (Nat.le_of_not_lt old)]
    constructor
    · rintro ⟨row, found, member⟩
      split at found
      · cases found
        exact absurd member List.not_mem_nil
      · cases found
    · rintro ⟨row, found, _⟩
      cases found

theorem inRange_resize (inRange : g.InRange) : g.resize.InRange :=
  ⟨Nat.le_of_eq length_resize, fun i j joined =>
    inRange.lt_of_joins i j ((joins_resize inRange).mp joined)⟩

theorem Keeps.edge_iff_of_joins_iff (keeps : g.Keeps g') (inRange : g.InRange)
    (same : ∀ i j, g'.Joins i j ↔ g.Joins i j) : g'.Edge u v ↔ g.Edge u v := by
  have none : ∀ i j, g'.Joins i j ↔ g.Joins i j ∨ False := by simpa only [or_false] using same
  rw [keeps.edge_iff inRange none]
  simp only [and_false, exists_false, or_false]

theorem edge_enter (inRange : g.InRange) : (g.enter s).Edge u v ↔ g.Edge u v :=
  keeps_enter.edge_iff_of_joins_iff inRange fun _ _ => Iff.rfl

theorem edge_resize (inRange : g.InRange) : g.resize.Edge u v ↔ g.Edge u v :=
  Keeps.edge_iff_of_joins_iff (List.prefix_refl _) inRange fun _ _ => joins_resize inRange

theorem joins_push {source target : Nat} (inside : source < g.rows.length) :
    (g.push source target).Joins i j ↔ g.Joins i j ∨ i = source ∧ j = target := by
  unfold Joins push
  simp only [List.getElem?_modify]
  by_cases here : source = i
  · subst here
    rw [List.getElem?_eq_getElem inside]
    simp
  · simp [here, Ne.symm here]

/-- From a number that stands for a state an edge can be entered, and it is the only new one. -/
theorem exists_link? (inRange : g.InRange) (stands : g.Stands i s) :
    ∃ g', link? i g d = some g' ∧ g'.InRange ∧ g.Keeps g' ∧
      ∀ u v, g'.Edge u v ↔ g.Edge u v ∨ u = s ∧ v = d := by
  let longer := (g.enter d).resize
  let linked := longer.push i (longer.number d)
  have keeps : g.Keeps linked := keeps_enter (s := d)
  have source : linked.Stands i s := keeps.stands stands
  have target : linked.Stands (longer.number d) d := stands_number (g := longer) mem_enter
  have rows : longer.rows.length = linked.states.size := length_resize
  have inside : i < longer.rows.length := rows ▸ source.lt
  have joins : ∀ k l, linked.Joins k l ↔ g.Joins k l ∨ k = i ∧ l = longer.number d := fun k l =>
    (joins_push inside).trans (or_congr_left (joins_resize (inRange_enter inRange)))
  refine ⟨linked, if_pos inside, ⟨?_, fun k l joined => ?_⟩, keeps, fun u v => ?_⟩
  · rw [← rows]
    exact Nat.le_of_eq (List.length_modify _ _ _)
  · rcases (joins k l).mp joined with before | ⟨_, rfl⟩
    · exact Nat.lt_of_lt_of_le (inRange.lt_of_joins k l before) keeps.size_le
    · exact target.lt
  · rw [keeps.edge_iff inRange joins]
    refine or_congr_right ⟨?_, ?_⟩
    · rintro ⟨k, l, first, second, rfl, rfl⟩
      exact ⟨Option.some.inj (Eq.trans first.symm source), Option.some.inj (Eq.trans second.symm target)⟩
    · rintro ⟨rfl, rfl⟩
      exact ⟨i, _, source, target, rfl, rfl⟩

theorem exists_foldlM_link? (inRange : g.InRange) (stands : g.Stands i s) (ds : List State) :
    ∃ g', ds.foldlM (link? i) g = some g' ∧ g'.InRange ∧
      ∀ u v, g'.Edge u v ↔ g.Edge u v ∨ u = s ∧ v ∈ ds := by
  induction ds generalizing g with
  | nil => exact ⟨g, rfl, inRange, by simp⟩
  | cons d ds ih =>
    obtain ⟨next, linked, ranged, keeps, edges⟩ := exists_link? (d := d) inRange stands
    obtain ⟨last, folded, ranged, more⟩ := ih ranged (keeps.stands stands)
    refine ⟨last, ?_, ranged, fun u v => ?_⟩
    · rw [List.foldlM_cons, linked]
      exact folded
    · rw [more, edges, or_assoc, ← and_or_left, List.mem_cons]

theorem exists_addMove? (inRange : g.InRange) (t : Transition) :
    ∃ g', g.addMove? t = some g' ∧ g'.InRange ∧
      ∀ u v, g'.Edge u v ↔ g.Edge u v ∨ u = t.source ∧ v ∈ t.destinations := by
  obtain ⟨g', added, ranged, edges⟩ := exists_foldlM_link? (inRange_enter inRange)
    (stands_number (mem_enter (g := g) (s := t.source))) t.destinations.toList
  refine ⟨g', added, ranged, fun u v => ?_⟩
  rw [edges, edge_enter inRange]
  rfl

theorem exists_foldlM_addMove? (inRange : g.InRange) (ts : List Transition) :
    ∃ g', ts.foldlM addMove? g = some g' ∧ g'.InRange ∧
      ∀ u v, g'.Edge u v ↔ g.Edge u v ∨ (Graph.ofTransitions ts).Edge u v := by
  induction ts generalizing g with
  | nil => exact ⟨g, rfl, inRange, by simp [Graph.edge_ofTransitions]⟩
  | cons t ts ih =>
    obtain ⟨next, added, ranged, edges⟩ := exists_addMove? inRange t
    obtain ⟨last, folded, ranged, more⟩ := ih ranged
    refine ⟨last, ?_, ranged, fun u v => ?_⟩
    · rw [List.foldlM_cons, added]
      exact folded
    · rw [more, edges, or_assoc, Graph.edge_ofTransitions, Graph.edge_ofTransitions,
        List.exists_mem_cons_iff, eq_comm (a := u)]

/-- The table is made, with a row for every number, and its edges are the empty moves. -/
theorem exists_epsilon? (ts : List Transition) :
    ∃ g, epsilon? ts = some g ∧ g.InRange ∧ g.rows.length = g.states.size ∧
      ∀ u v, g.Edge u v ↔ (Graph.epsilon ts).Edge u v := by
  have none : ∀ i j, ¬ empty.Joins i j := by
    rintro i j ⟨row, found, _⟩
    cases found
  obtain ⟨g, folded, ranged, edges⟩ := exists_foldlM_addMove? (g := empty)
    ⟨Nat.le_refl _, fun i j joined => absurd joined (none i j)⟩
    (ts.filter fun t => t.symbol.isEpsilon)
  refine ⟨g.resize, by rw [epsilon?, folded]; rfl, inRange_resize ranged, length_resize,
    fun u v => ?_⟩
  rw [edge_resize ranged, edges, Graph.epsilon, or_iff_right]
  rintro ⟨i, j, _, _, joined⟩
  exact none i j joined

/-! ### Searches -/

section Search

variable {start limit : Nat} {visited : List Nat}

/-- What a search has found: numbers that edges lead to from where it started, and all those that
edges lead to from the ones it has been to. -/
structure Explores (g : Adjacency) (start : Nat) (e : Search) : Prop where
  started : start ∈ e.visited ∨ start ∈ e.stack
  reached : ∀ i, i ∈ e.visited ∨ i ∈ e.stack → ReflTransGen g.Joins start i
  closed : ∀ i ∈ e.visited, ∀ j, g.Joins i j → j ∈ e.visited ∨ j ∈ e.stack

/-- The length of a row, and none for a number without one. -/
def degree (g : Adjacency) (i : Nat) : Nat := (g.rows[i]?.getD []).length

/-- A bound on the steps that are left: one for each number on the stack, and one for each edge from
a number that the search has not been to. -/
def work (g : Adjacency) (e : Search) : Nat :=
  e.stack.length + ∑ i ∈ Finset.range g.rows.length \ e.visited.toFinset, g.degree i

theorem lt_of_reached (complete : g.rows.length = g.states.size) (inRange : g.InRange)
    (inside : start < g.rows.length) (reached : ReflTransGen g.Joins start i) : i < g.rows.length := by
  cases reached with
  | refl => exact inside
  | tail _ joined => exact complete ▸ inRange.lt_of_joins _ i joined

theorem sum_degree_cons (inside : i < g.rows.length) (new : i ∉ visited) :
    g.degree i + ∑ k ∈ Finset.range g.rows.length \ (i :: visited).toFinset, g.degree k =
      ∑ k ∈ Finset.range g.rows.length \ visited.toFinset, g.degree k := by
  have member : i ∈ Finset.range g.rows.length \ visited.toFinset := by
    simp [inside, new]
  rw [← Finset.add_sum_erase _ _ member, List.toFinset_cons, Finset.sdiff_insert]

theorem sum_degree : ∑ i ∈ Finset.range g.rows.length, g.degree i = g.rows.flatten.length := by
  unfold degree
  induction g.rows with
  | nil => rfl
  | cons row rows ih =>
    rw [List.length_cons, Finset.sum_range_succ', List.flatten_cons, List.length_append, ← ih]
    simp [Nat.add_comm]

theorem Explores.mem_visited_iff (explores : g.Explores start e) (empty : e.stack = []) :
    i ∈ e.visited ↔ ReflTransGen g.Joins start i := by
  have only : ∀ j, j ∈ e.visited ∨ j ∈ e.stack → j ∈ e.visited := fun j found =>
    found.resolve_right fun waiting => List.not_mem_nil (empty ▸ waiting)
  refine ⟨fun member => explores.reached i (.inl member), fun path => ?_⟩
  induction path with
  | refl => exact only start explores.started
  | tail _ joined ih => exact only _ (explores.closed _ ih _ joined)

theorem explores_start : g.Explores start ⟨[], [start]⟩ :=
  ⟨.inr List.mem_cons_self, fun i found => by
    obtain rfl := List.mem_singleton.mp (found.resolve_left List.not_mem_nil)
    exact .refl, fun _ member => absurd member List.not_mem_nil⟩

theorem work_start : g.work ⟨[], [start]⟩ = g.rows.flatten.length + 1 := by
  simp [work, sum_degree, Nat.add_comm]

variable (complete : g.rows.length = g.states.size) (inRange : g.InRange)
  (inside : start < g.rows.length)

include complete inRange inside

/-- A step finds the row that it asks for, and there is less to do after it. -/
theorem exists_step? (explores : g.Explores start e) (working : e.stack ≠ []) :
    ∃ e', g.step? e = some e' ∧ g.Explores start e' ∧ g.work e' < g.work e := by
  obtain ⟨visited, stack⟩ := e
  obtain ⟨i, rest, rfl⟩ := List.exists_cons_of_ne_nil working
  obtain ⟨started, reached, closed⟩ := explores
  have here := reached i (.inr List.mem_cons_self)
  by_cases seen : i ∈ visited
  · have left : ∀ j, j ∈ visited ∨ j ∈ i :: rest → j ∈ visited ∨ j ∈ rest := by
      rintro j (old | waiting)
      · exact .inl old
      · rcases List.mem_cons.mp waiting with rfl | later
        · exact .inl seen
        · exact .inr later
    refine ⟨⟨visited, rest⟩, by simp [step?, seen], ⟨left _ started, fun j found => ?_, ?_⟩, ?_⟩
    · exact reached j (found.imp_right (List.mem_cons_of_mem i))
    · exact fun j member k joined => left k (closed j member k joined)
    · simp [work]
  · have known := lt_of_reached complete inRange inside here
    have row : g.rows[i]? = some g.rows[i] := List.getElem?_eq_getElem known
    let next := g.rows[i].filter fun j => decide (j ∉ i :: visited)
    have mem_next : ∀ j, j ∈ next.reverse ++ rest ↔
        (j ∈ g.rows[i] ∧ j ∉ i :: visited) ∨ j ∈ rest := fun j => by
      rw [List.mem_append, List.mem_reverse, List.mem_filter, decide_eq_true_iff]
    refine ⟨⟨i :: visited, next.reverse ++ rest⟩, ?_, ⟨?_, fun j found => ?_, ?_⟩, ?_⟩
    · simp [step?, seen, row, next]
    · rcases started with old | waiting
      · exact .inl (List.mem_cons_of_mem i old)
      · rcases List.mem_cons.mp waiting with rfl | later
        · exact .inl List.mem_cons_self
        · exact .inr ((mem_next _).mpr (.inr later))
    · rcases found with there | waiting
      · rcases List.mem_cons.mp there with rfl | old
        · exact here
        · exact reached j (.inl old)
      · rcases (mem_next j).mp waiting with ⟨listed, _⟩ | later
        · exact here.tail ⟨_, row, listed⟩
        · exact reached j (.inr (List.mem_cons_of_mem i later))
    · intro j member k joined
      by_cases there : k ∈ i :: visited
      · exact .inl there
      refine .inr ((mem_next k).mpr ?_)
      rcases List.mem_cons.mp member with rfl | old
      · obtain ⟨_, found, listed⟩ := joined
        exact .inl ⟨Option.some.inj (found.symm.trans row) ▸ listed, there⟩
      · rcases closed j old k joined with before | waiting
        · exact absurd (List.mem_cons_of_mem i before) there
        · refine .inr ((List.mem_cons.mp waiting).resolve_left fun same => there ?_)
          exact same ▸ List.mem_cons_self
    · have shorter : next.length ≤ g.degree i := by
        rw [degree, row]
        exact List.length_filter_le _ _
      have sum := sum_degree_cons (g := g) known seen
      simp only [work, List.length_append, List.length_reverse, List.length_cons]
      omega

/-- A search ends and has then been to all that edges lead to. -/
theorem exists_search? (explores : g.Explores start e) (enough : g.work e ≤ limit) :
    ∃ visited, g.search? limit e = some visited ∧
      ∀ i, i ∈ visited ↔ ReflTransGen g.Joins start i := by
  induction limit generalizing e with
  | zero =>
    have empty : e.stack = [] := by
      rw [← List.length_eq_zero_iff]
      unfold work at enough
      omega
    exact ⟨e.visited, by simp [search?, empty], fun i => explores.mem_visited_iff empty⟩
  | succ limit ih =>
    by_cases empty : e.stack = []
    · exact ⟨e.visited, by simp [search?, empty], fun i => explores.mem_visited_iff empty⟩
    · obtain ⟨e', stepped, explores', less⟩ := exists_step? complete inRange inside explores empty
      obtain ⟨visited, found, exact⟩ := ih explores' (by omega)
      refine ⟨visited, ?_, exact⟩
      rw [search?, if_neg (by simpa using empty), stepped]
      exact found

end Search

/-! ### States -/

/-- Looking up numbers of states gives these states. -/
theorem exists_mapM_states {l : List Nat} (inside : ∀ i ∈ l, i < g.states.size) :
    ∃ found, l.mapM (fun i => g.states.toList[i]?) = some found ∧
      ∀ t, t ∈ found ↔ ∃ i ∈ l, g.Stands i t := by
  induction l with
  | nil => exact ⟨[], rfl, by simp⟩
  | cons i l ih =>
    obtain ⟨here, rest⟩ := List.forall_mem_cons.mp inside
    obtain ⟨s, stands⟩ := exists_stands here
    obtain ⟨found, looked, mem_iff⟩ := ih rest
    refine ⟨s :: found, ?_, fun t => ?_⟩
    · rw [List.mapM_cons, show g.states.toList[i]? = some s from stands, looked]
      rfl
    · rw [List.mem_cons, mem_iff, List.exists_mem_cons_iff]
      refine or_congr_left ⟨fun same => same ▸ stands, fun other => ?_⟩
      exact Option.some.inj (Eq.trans other.symm stands)

theorem reflTransGen_edge_iff (inRange : g.InRange) (stands : g.Stands i s) :
    ReflTransGen g.Edge s t ↔ ∃ j, g.Stands j t ∧ ReflTransGen g.Joins i j := by
  constructor
  · intro path
    induction path with
    | refl => exact ⟨i, stands, .refl⟩
    | tail _ edge ih =>
      obtain ⟨k, here, reached⟩ := ih
      obtain ⟨k', l, source, target, joined⟩ := edge
      obtain rfl := here.unique source
      exact ⟨l, target, reached.tail joined⟩
  · rintro ⟨j, target, path⟩
    induction path generalizing t with
    | refl =>
      obtain rfl : s = t := Option.some.inj (Eq.trans stands.symm target)
      exact .refl
    | @tail k l _ joined ih =>
      have inside := Nat.lt_of_lt_of_le joined.lt inRange.rows_le
      obtain ⟨u, between⟩ := exists_stands inside
      exact (ih between).tail ⟨k, l, between, target, joined⟩

/-- No edge leaves a state without a number. -/
theorem eq_of_reflTransGen_edge (absent : s ∉ g.states.toList) (path : ReflTransGen g.Edge s t) :
    t = s := by
  cases ReflTransGen.cases_head path with
  | inl same => exact same.symm
  | inr step =>
    obtain ⟨_, ⟨_, _, source, _⟩, _⟩ := step
    exact absurd source.mem absent

/-- A search for the states that edges lead to from a state gives just these. -/
theorem exists_reach? (complete : g.rows.length = g.states.size) (inRange : g.InRange) (s : State) :
    ∃ set, g.reach? s = some set ∧ ∀ t, t ∈ set ↔ ReflTransGen g.Edge s t := by
  unfold reach?
  split
  · rename_i member
    have stands := stands_number member
    have inside : g.number s < g.rows.length := complete ▸ stands.lt
    obtain ⟨visited, searched, reached⟩ := exists_search? complete inRange inside explores_start
      (Nat.le_of_eq work_start)
    have numbers : ∀ i ∈ visited, i < g.states.size := fun i member =>
      complete ▸ lt_of_reached complete inRange inside ((reached i).mp member)
    obtain ⟨found, looked, mem_iff⟩ := exists_mapM_states numbers
    refine ⟨(SortedSet.singleton s).insertAll found, by rw [searched]; simp [looked], fun t => ?_⟩
    rw [SortedSet.mem_insertAll, SortedSet.mem_singleton, mem_iff, reflTransGen_edge_iff inRange stands]
    constructor
    · rintro (rfl | ⟨i, member, other⟩)
      · exact ⟨_, stands, .refl⟩
      · exact ⟨i, other, (reached i).mp member⟩
    · rintro ⟨i, other, path⟩
      exact .inr ⟨i, (reached i).mpr path, other⟩
  · rename_i absent
    refine ⟨_, rfl, fun t => ?_⟩
    rw [SortedSet.mem_singleton]
    exact ⟨fun same => same ▸ .refl, eq_of_reflTransGen_edge absent⟩

/-- The search of the table of empty moves finds exactly the states that empty moves lead to. -/
theorem mem_reach_epsilon {ts : List Transition} :
    t ∈ (epsilon ts).reach s ↔ ReflTransGen (Graph.epsilon ts).Edge s t := by
  obtain ⟨g, made, inRange, complete, edges⟩ := exists_epsilon? ts
  obtain ⟨set, found, mem_iff⟩ := exists_reach? complete inRange s
  have same : g.Edge = (Graph.epsilon ts).Edge := funext fun u => funext fun v => propext (edges u v)
  rw [epsilon, made, Option.getD_some, reach, found, Option.getD_some, mem_iff, same]

/-- Some empty move among the transitions goes from one state to the other. -/
def EmptyMove (ts : List Transition) (s t : State) : Prop :=
  ∃ m ∈ ts, m.symbol = .epsilon ∧ m.source = s ∧ t ∈ m.destinations

/-- Whatever the transitions, their table is made, every number in it has a row, and from any state, one
without a number too, a search of it ends with the states that empty moves lead to and no others. -/
theorem closures_exact (ts : List Transition) :
    ∃ g, epsilon? ts = some g ∧ g.rows.length = g.states.size ∧
      (∀ row ∈ g.rows, ∀ i ∈ row, i < g.rows.length) ∧
      ∀ s, ∃ set, g.reach? s = some set ∧ (epsilon ts).reach s = set ∧ epsilonClosure s ts = set ∧
        ∀ t, t ∈ set ↔ ReflTransGen (EmptyMove ts) s t := by
  obtain ⟨g, made, inRange, complete, edges⟩ := exists_epsilon? ts
  have table : epsilon ts = g := by rw [epsilon, made, Option.getD_some]
  have moves : g.Edge = EmptyMove ts := by
    funext u v
    rw [edges, Graph.edge_epsilon, EmptyMove]
  refine ⟨g, made, complete, fun row member j listed => ?_, fun s => ?_⟩
  · obtain ⟨i, found⟩ := List.getElem?_of_mem member
    exact complete ▸ inRange.lt_of_joins i j ⟨row, found, listed⟩
  · obtain ⟨set, found, mem_iff⟩ := exists_reach? complete inRange s
    have reached : (epsilon ts).reach s = set := by rw [table, reach, found, Option.getD_some]
    exact ⟨set, found, reached, reached, fun t => by rw [mem_iff, moves]⟩

/-- The source of a move without destinations gets its row when the next edge is entered. -/
example : epsilon? [⟨.simple "p", .epsilon, .empty⟩,
      ⟨.simple "q", .epsilon, .ofList [.simple "p", .simple "q"]⟩] =
    some ⟨.ofList [.simple "p", .simple "q"], [[], [0, 1]]⟩ := by decide

end Adjacency

end Determinize
