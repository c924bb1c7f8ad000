import Determinize.Proofs.Walk
import Determinize.Proofs.Reduction

/-!
Tables that merging comes to. A table is fixed by the merges made so far (`Reachable.eq_table`): its
rows are those of the states not removed, with every destination replaced by the state that stands for
it after the merges. As long as only states whose walks end alike are merged, every declared state is
stood for by one that is still there and whose walks end alike.
-/

namespace Determinize

namespace Row

variable {β γ : Type} {letters : List String} {next other : String → Option β} {x : String}

def movesOn (letters : List String) (next : String → Option β) : List (String × β) :=
  letters.filterMap fun x => (next x).map fun d => (x, d)

theorem lookup_movesOn : (movesOn letters next).lookup x = if x ∈ letters then next x else none := by
  induction letters with
  | nil => rfl
  | cons y letters ih =>
    unfold movesOn at ih ⊢
    by_cases same : x = y
    · subst same
      cases value : next x with
      | none => simp [value, ih]
      | some d => simp [value]
    · have other : (x == y) = false := beq_eq_false_iff_ne.mpr same
      cases value : next y with
      | none => simp [value, ih, same]
      | some d => simp [value, ih, same, List.lookup_cons, other]

theorem map_movesOn (f : β → γ) :
    (movesOn letters next).map (fun e => (e.1, f e.2)) = movesOn letters fun x => (next x).map f := by
  simp only [movesOn, List.map_filterMap, Option.map_map]
  rfl

theorem movesOn_eq_iff (left : ∀ x, x ∉ letters → next x = none)
    (right : ∀ x, x ∉ letters → other x = none) :
    movesOn letters next = movesOn letters other ↔ ∀ x, next x = other x := by
  constructor
  · intro same x
    by_cases listed : x ∈ letters
    · have found := congrArg (List.lookup x) same
      rwa [lookup_movesOn, lookup_movesOn, if_pos listed, if_pos listed] at found
    · rw [left x listed, right x listed]
  · intro same
    exact congrArg _ (funext same)

theorem agrees_iff {row other : Row} :
    row.agrees other = true ↔ row.isFinal = other.isFinal ∧ row.moves = other.moves := by
  simp [agrees]

end Row

namespace Reduction

variable {a : Automaton} {m : Reduction} {merges : List Merge} {s t r k : State} {x : String}
  {row other : Row} {w : List String}

/-- The state that stands for a state after some merges. -/
def representative (merges : List Merge) (s : State) : State :=
  merges.foldl (fun s merge => if s = merge.removed then merge.kept else s) s

/-- The states that no merge removed. -/
def survivors (a : Automaton) (merges : List Merge) : List State :=
  a.states.toList.filter fun s => decide (s ∉ merges.map Merge.removed)

def rowOf (a : Automaton) (stand : State → State) (s : State) : Row where
  state := s
  isFinal := a.isFinal s
  moves := Row.movesOn a.alphabet.toList fun x => (a.nextState? s (.letter x)).map stand

/-- The table after some merges. -/
def table (a : Automaton) (merges : List Merge) : Reduction where
  rows := (survivors a merges).map (rowOf a (representative merges))
  merges := merges

theorem start_eq_table : start a = table a [] := by
  have itself : representative [] = id := rfl
  simp [start, table, survivors, rowOf, itself, Row.movesOn]

theorem representative_append :
    representative (merges ++ [⟨r, k⟩]) s =
      if representative merges s = r then k else representative merges s := by
  rw [representative, List.foldl_append]
  rfl

theorem remove_table : (table a merges).remove r k = table a (merges ++ [⟨r, k⟩]) := by
  have rows : ((table a merges).rows.filter fun row => decide (row.state ≠ r)) =
      (survivors a (merges ++ [⟨r, k⟩])).map (rowOf a (representative merges)) := by
    rw [table, List.filter_map, survivors, survivors, List.filter_filter]
    refine congrArg _ (List.filter_congr fun s _ => ?_)
    by_cases same : s = r <;> simp [rowOf, same]
  have redirected : ∀ s, Row.redirect r k (rowOf a (representative merges) s) =
      rowOf a (representative (merges ++ [⟨r, k⟩])) s := by
    intro s
    simp only [Row.redirect, rowOf, Row.mk.injEq, true_and]
    refine (Row.map_movesOn fun d => if d = r then k else d).trans (congrArg _ (funext fun x => ?_))
    rw [Option.map_map]
    exact congrArg (fun f => Option.map f _) (funext fun d => representative_append.symm)
  rw [remove, rows, List.map_map, table]
  simp only [table, Reduction.mk.injEq, and_true]
  exact List.map_congr_left fun s _ => redirected s

/-- A table that comes of merging live states whose walks end alike. Neither the initial state nor the
sink is removed. -/
inductive Reachable (a : Automaton) : Reduction → Prop
  | start : Reachable a (start a)
  | remove {m : Reduction} {r k : State} : Reachable a m → m.isLive r = true → m.isLive k = true →
    r ≠ k → r ≠ a.initial → r ≠ .dead → a.chart.outcome? r = a.chart.outcome? k →
    Reachable a (m.remove r k)

theorem Reachable.eq_table (reachable : Reachable a m) : m = table a m.merges := by
  induction reachable with
  | start => exact start_eq_table
  | remove _ _ _ _ _ _ _ ih =>
    rw [ih]
    exact remove_table

/-! ### Rows of a table -/

theorem row?_table :
    (table a merges).row? s =
      if s ∈ survivors a merges then some (rowOf a (representative merges) s) else none := by
  have found : ∀ l : List State,
      (l.map (rowOf a (representative merges))).find? (fun row => decide (row.state = s)) =
        if s ∈ l then some (rowOf a (representative merges) s) else none := by
    intro l
    induction l with
    | nil => rfl
    | cons t l ih =>
      rw [List.map_cons, List.find?_cons]
      by_cases same : t = s
      · simp [rowOf, same]
      · have other : decide ((rowOf a (representative merges) t).state = s) = false :=
          decide_eq_false same
        simp only [other, ih, List.mem_cons, Ne.symm same, false_or]
  exact found _

theorem mem_survivors : s ∈ survivors a merges ↔ s ∈ a.states ∧ s ∉ merges.map Merge.removed := by
  simp [survivors, UniqueList.mem_toList]

theorem isLive_table : (table a merges).isLive s = true ↔ s ∈ survivors a merges := by
  rw [isLive, row?_table]
  split <;> simp [*]

theorem isLive_start : (start a).isLive s = true ↔ s ∈ a.states := by
  rw [start_eq_table, isLive_table, mem_survivors]
  simp

theorem row?_remove_self : (m.remove r k).row? r = none := by
  rw [row?, remove, List.find?_map, Option.map_eq_none_iff, List.find?_filter, List.find?_eq_none]
  intro row _ found
  simp only [Row.redirect, Function.comp_apply, decide_eq_true_eq] at found
  exact found.1 (of_decide_eq_true found.2)

theorem row?_remove (stays : s ≠ r) : (m.remove r k).row? s = (m.row? s).map (Row.redirect r k) := by
  rw [row?, row?, remove, List.find?_map, List.find?_filter]
  refine congrArg _ (congrArg (fun p => m.rows.find? p) (funext fun row => ?_))
  by_cases same : row.state = s
  · simp [Row.redirect, same, stays]
  · simp [Row.redirect, same]

theorem isLive_remove_iff : (m.remove r k).isLive s = true ↔ m.isLive s = true ∧ s ≠ r := by
  by_cases removed : s = r
  · rw [removed, isLive, row?_remove_self]
    simp
  · rw [isLive, row?_remove removed, Option.isSome_map]
    exact (and_iff_left removed).symm

theorem row?_eq_none (removed : m.isLive s = false) : m.row? s = none :=
  Option.not_isSome_iff_eq_none.mp (Bool.eq_false_iff.mp removed)

theorem next?_eq_none (removed : m.isLive s = false) : m.next? s x = none := by
  rw [next?, row?_eq_none removed]
  rfl

theorem isLive_of_next? (next : m.next? s x = some t) : m.isLive s = true := by
  cases there : m.isLive s with
  | true => rfl
  | false =>
    rw [next?_eq_none there] at next
    cases next

namespace Reachable

variable (reachable : Reachable a m)

include reachable

theorem isLive_iff : m.isLive s = true ↔ s ∈ a.states ∧ s ∉ m.merges.map Merge.removed := by
  rw [reachable.eq_table, isLive_table, mem_survivors]
  rfl

theorem row?_eq_some (live : m.isLive s = true) :
    m.row? s = some (rowOf a (representative m.merges) s) := by
  rw [reachable.eq_table] at live ⊢
  rw [row?_table, if_pos (isLive_table.mp live)]
  rfl

theorem eq_rowOf (found : m.row? s = some row) :
    m.isLive s = true ∧ row = rowOf a (representative m.merges) s := by
  have live : m.isLive s = true := by rw [isLive, found]; rfl
  rw [reachable.row?_eq_some live, Option.some.injEq] at found
  exact ⟨live, found.symm⟩

theorem next?_eq (declared : a.Declared) (live : m.isLive s = true) :
    m.next? s x = (a.nextState? s (.letter x)).map (representative m.merges) := by
  rw [next?, reachable.row?_eq_some live, Option.bind_some, Row.next?, rowOf, Row.lookup_movesOn]
  split
  · rfl
  · rename_i outside
    rw [Automaton.nextState?_eq_none declared outside]
    rfl

theorem row?_of_mem_rows (member : row ∈ m.rows) : m.row? row.state = some row := by
  rw [reachable.eq_table] at member ⊢
  obtain ⟨s, survivor, rfl⟩ := List.mem_map.mp member
  exact row?_table.trans (if_pos survivor)

/-! ### Representatives -/

theorem outcome?_representative :
    a.chart.outcome? (representative m.merges s) = a.chart.outcome? s := by
  induction reachable with
  | start => rfl
  | @remove m r k _ _ _ _ _ _ same ih =>
    rw [show (m.remove r k).merges = m.merges ++ [⟨r, k⟩] from rfl, representative_append]
    split
    · rename_i removed
      rw [← same, ← removed, ih]
    · exact ih

/-- The state that stands for a declared state is still there. -/
theorem isLive_representative (start : s ∈ a.states) :
    m.isLive (representative m.merges s) = true := by
  induction reachable with
  | start => exact isLive_start.mpr start
  | @remove m r k _ _ keeps different _ _ _ ih =>
    rw [show (m.remove r k).merges = m.merges ++ [⟨r, k⟩] from rfl, representative_append,
      isLive_remove_iff]
    split
    · exact ⟨keeps, different.symm⟩
    · rename_i stays
      exact ⟨ih, stays⟩

theorem isLive_initial (declared : a.Declared) : m.isLive a.initial = true := by
  induction reachable with
  | start => exact isLive_start.mpr declared.initial
  | remove _ _ _ _ other _ _ ih => exact isLive_remove_iff.mpr ⟨ih, other.symm⟩

theorem isLive_dead (start : .dead ∈ a.states) : m.isLive .dead = true := by
  induction reachable with
  | start => exact isLive_start.mpr start
  | remove _ _ _ _ _ other _ ih => exact isLive_remove_iff.mpr ⟨ih, other.symm⟩

/-- Rows that agree belong to states whose walks end alike. -/
theorem outcome?_eq_of_agrees (declared : a.Declared) (first : m.row? s = some row)
    (second : m.row? t = some other) (agree : row.agrees other = true) :
    a.chart.outcome? s = a.chart.outcome? t := by
  obtain ⟨live, rfl⟩ := reachable.eq_rowOf first
  obtain ⟨live', rfl⟩ := reachable.eq_rowOf second
  rw [Row.agrees_iff] at agree
  have same : ∀ x, m.next? s x = m.next? t x := by
    intro x
    rw [next?, next?, first, second, Option.bind_some, Option.bind_some, Row.next?, Row.next?, agree.2]
  funext w
  cases w with
  | nil => exact congrArg some agree.1
  | cons x w =>
    have after : ∀ s, m.isLive s = true → a.chart.outcome? s (x :: w) =
        (m.next? s x).bind fun d => a.chart.outcome? d w := by
      intro s live
      rw [Chart.outcome?_cons, reachable.next?_eq declared live, Option.bind_map]
      exact congrArg _ (funext fun d => (congrFun reachable.outcome?_representative w).symm)
    rw [after s live, after t live', same]

end Reachable

end Reduction

end Determinize
