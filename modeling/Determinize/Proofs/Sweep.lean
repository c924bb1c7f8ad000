import Determinize.Proofs.Merging

/-!
Sweeps as chains of single merges. Every merge of a sweep is of two rows that agree (`SweepStep`), so
what such a merge keeps, a sweep keeps. Rows that agree go on agreeing while both are there, and every
state has its turn, so of two states whose rows agree a sweep leaves one (`Reachable.eq_or_spared_of_agree`),
unless they are the initial state and the sink.
-/

namespace Determinize

open Relation (ReflTransGen)

namespace Row

variable {row other : Row} {r k : State}

theorem agrees_symm (agree : row.agrees other = true) : other.agrees row = true := by
  rw [agrees_iff] at agree ⊢
  exact ⟨agree.1.symm, agree.2.symm⟩

theorem agrees_redirect (agree : row.agrees other = true) :
    (redirect r k row).agrees (redirect r k other) = true := by
  rw [agrees_iff] at agree ⊢
  simp only [redirect, agree, and_self]

theorem next?_redirect {x : String} :
    (redirect r k row).next? x = (row.next? x).map fun d => if d = r then k else d := by
  rw [next?, next?, redirect]
  induction row.moves with
  | nil => rfl
  | cons e rest ih =>
    obtain ⟨y, d⟩ := e
    rw [List.map_cons, List.lookup_cons, List.lookup_cons]
    split
    · rfl
    · exact ih

end Row

namespace Reduction

variable {a : Automaton} {m n : Reduction} {s t r k : State} {row other : Row} {limit : Nat}

/-- One merge of a sweep: of two states whose rows agree, one that is neither the initial state nor the
sink goes into the other. -/
inductive SweepStep (a : Automaton) (m : Reduction) : Reduction → Prop
  | merge {row other : Row} : row ∈ m.rows → other ∈ m.rows → row.agrees other = true →
    row.state ≠ other.state → row.state ≠ a.initial → row.state ≠ .dead →
    SweepStep a m (m.remove row.state other.state)

theorem mem_rows_of_row? (found : m.row? s = some row) : row ∈ m.rows ∧ row.state = s := by
  rw [row?] at found
  exact ⟨List.mem_of_find?_eq_some found, of_decide_eq_true (List.find?_some found :)⟩

/-! ### Sweeps are made of steps -/

theorem steps_foldl {step : Reduction → State → Reduction}
    (steps : ∀ m s, ReflTransGen (SweepStep a) m (step m s)) (l : List State) :
    ReflTransGen (SweepStep a) m (l.foldl step m) := by
  induction l generalizing m with
  | nil => exact .refl
  | cons s l ih => exact (steps m s).trans ih

theorem steps_absorb : ReflTransGen (SweepStep a) m (absorb a.initial m s) := by
  unfold absorb
  split
  · rename_i row other first second
    split
    · rename_i allowed
      simp only [Bool.and_eq_true, decide_eq_true_eq, Bool.not_eq_true'] at allowed
      obtain ⟨⟨different, notDead⟩, agree⟩ := allowed
      obtain ⟨listed, initial⟩ := mem_rows_of_row? first
      obtain ⟨listed', rfl⟩ := mem_rows_of_row? second
      rw [← initial] at different ⊢
      refine .single (.merge listed' listed (Row.agrees_symm agree) different ?_ ?_)
      · rwa [← initial]
      · exact State.isDead_eq_false_iff.mp notDead
    · exact .refl
  · exact .refl

theorem steps_mergeState : ReflTransGen (SweepStep a) m (mergeState a m s) := by
  unfold mergeState
  split
  · exact .refl
  · rename_i row first
    obtain ⟨listed, rfl⟩ := mem_rows_of_row? first
    split
    · rename_i initial
      rw [initial]
      exact steps_foldl (fun _ _ => steps_absorb) _
    · rename_i notInitial
      split
      · exact .refl
      · rename_i notDead
        split
        · rename_i kept twin
          obtain ⟨other, found, rfl⟩ := Option.map_eq_some_iff.mp twin
          have test := List.find?_some found
          simp only [Bool.and_eq_true, decide_eq_true_eq] at test
          exact .single (.merge listed (List.mem_of_find?_eq_some found) test.2 test.1.symm notInitial
            fun dead => notDead (State.isDead_iff.mpr dead))
        · exact .refl

theorem steps_sweep : ReflTransGen (SweepStep a) m (m.sweep a) :=
  steps_foldl (fun _ _ => steps_mergeState) _

theorem steps_sweeps : ReflTransGen (SweepStep a) m (sweeps a limit m) := by
  induction limit generalizing m with
  | zero => exact .refl
  | succ limit ih =>
    rw [sweeps]
    split
    · exact steps_sweep
    · exact steps_sweep.trans ih

/-- In the course of going through a list of states, each of them has its turn. -/
theorem exists_turn {step : Reduction → State → Reduction} {l : List State}
    (steps : ∀ m s, ReflTransGen (SweepStep a) m (step m s)) (listed : s ∈ l) :
    ∃ n, ReflTransGen (SweepStep a) m n ∧ ReflTransGen (SweepStep a) (step n s) (l.foldl step m) := by
  obtain ⟨earlier, later, rfl⟩ := List.append_of_mem listed
  refine ⟨earlier.foldl step m, steps_foldl steps _, ?_⟩
  rw [List.foldl_append, List.foldl_cons]
  exact steps_foldl steps _

/-! ### What a step keeps -/

theorem merges_prefix_of_steps (steps : ReflTransGen (SweepStep a) m n) : m.merges <+: n.merges := by
  induction steps with
  | refl => exact List.prefix_refl _
  | tail _ step ih =>
    cases step with
    | merge => exact ih.trans (List.prefix_append _ _)

theorem next?_remove {x : String} (stays : s ≠ r) :
    (m.remove r k).next? s x = (m.next? s x).map fun d => if d = r then k else d := by
  rw [next?, next?, row?_remove stays, Option.bind_map, Option.map_bind]
  exact congrArg _ (funext fun row => Row.next?_redirect)

theorem isLive_of_steps (steps : ReflTransGen (SweepStep a) m n) (live : n.isLive s = true) :
    m.isLive s = true := by
  induction steps with
  | refl => exact live
  | tail _ step ih =>
    cases step with
    | merge => exact ih (isLive_remove_iff.mp live).1

theorem Reachable.sweepStep (declared : a.Declared) (reachable : Reachable a m)
    (step : SweepStep a m n) : Reachable a n := by
  cases step with
  | merge first second agree different notInitial notDead =>
    have found := reachable.row?_of_mem_rows first
    have found' := reachable.row?_of_mem_rows second
    exact .remove reachable (reachable.eq_rowOf found).1 (reachable.eq_rowOf found').1 different
      notInitial notDead (reachable.outcome?_eq_of_agrees declared found found' agree)

theorem Reachable.of_steps (declared : a.Declared) (reachable : Reachable a m)
    (steps : ReflTransGen (SweepStep a) m n) : Reachable a n := by
  induction steps with
  | refl => exact reachable
  | tail _ step ih => exact ih.sweepStep declared step

/-! ### Rows that agree -/

/-- Both states are there, and their rows agree. -/
def Agree (m : Reduction) (s t : State) : Prop :=
  ∃ row other, m.row? s = some row ∧ m.row? t = some other ∧ row.agrees other = true

theorem Agree.symm (agree : m.Agree s t) : m.Agree t s := by
  obtain ⟨row, other, first, second, same⟩ := agree
  exact ⟨other, row, second, first, Row.agrees_symm same⟩

theorem Agree.isLive (agree : m.Agree s t) : m.isLive s = true := by
  obtain ⟨row, _, found, _⟩ := agree
  rw [Reduction.isLive, found]
  rfl

theorem Agree.next?_eq (agree : m.Agree s t) (x : String) : m.next? s x = m.next? t x := by
  obtain ⟨row, other, first, second, same⟩ := agree
  rw [next?, next?, first, second, Option.bind_some, Option.bind_some, Row.next?, Row.next?,
    (Row.agrees_iff.mp same).2]

theorem Reachable.agree_iff (declared : a.Declared) (reachable : Reachable a m)
    (first : m.isLive s = true) (second : m.isLive t = true) :
    m.Agree s t ↔ a.isFinal s = a.isFinal t ∧ ∀ x ∈ a.alphabet, m.next? s x = m.next? t x := by
  constructor
  · intro agree
    refine ⟨?_, fun x _ => agree.next?_eq x⟩
    obtain ⟨row, other, found, found', same⟩ := agree
    rw [(reachable.eq_rowOf found).2, (reachable.eq_rowOf found').2] at same
    exact (Row.agrees_iff.mp same).1
  · intro alike
    refine ⟨_, _, reachable.row?_eq_some first, reachable.row?_eq_some second, ?_⟩
    refine Row.agrees_iff.mpr ⟨alike.1, List.filterMap_congr fun x letter => ?_⟩
    have next := alike.2 x (UniqueList.mem_toList.mp letter)
    rw [reachable.next?_eq declared first, reachable.next?_eq declared second] at next
    exact congrArg (Option.map fun d => (x, d)) next

theorem Agree.remove (agree : m.Agree s t) (first : (m.remove r k).isLive s = true)
    (second : (m.remove r k).isLive t = true) : (m.remove r k).Agree s t := by
  obtain ⟨row, other, found, found', same⟩ := agree
  refine ⟨row.redirect r k, other.redirect r k, ?_, ?_, Row.agrees_redirect same⟩
  · rw [row?_remove (isLive_remove_iff.mp first).2, found, Option.map_some]
  · rw [row?_remove (isLive_remove_iff.mp second).2, found', Option.map_some]

/-- Whatever else is merged, rows that agree go on agreeing while both are there. -/
theorem Agree.of_steps (agree : m.Agree s t) (steps : ReflTransGen (SweepStep a) m n)
    (first : n.isLive s = true) (second : n.isLive t = true) : n.Agree s t := by
  induction steps with
  | refl => exact agree
  | tail _ step ih =>
    cases step with
    | merge =>
      exact (ih (isLive_remove_iff.mp first).1 (isLive_remove_iff.mp second).1).remove first second

/-- A state that may be removed goes when it has its turn and some other row agrees with its own. -/
theorem isLive_mergeState_eq_false (agree : m.Agree s t) (different : s ≠ t)
    (notInitial : s ≠ a.initial) (notDead : s ≠ .dead) : (mergeState a m s).isLive s = false := by
  obtain ⟨row, other, found, found', same⟩ := agree
  obtain ⟨_, named⟩ := mem_rows_of_row? found
  obtain ⟨listed, named'⟩ := mem_rows_of_row? found'
  unfold mergeState
  rw [found]
  simp only [if_neg notInitial, State.isDead_eq_false_iff.mpr notDead, Bool.false_eq_true, if_false]
  split
  · rw [isLive, row?_remove_self]
    rfl
  · rename_i none
    rw [twin?, Option.map_eq_none_iff, List.find?_eq_none] at none
    refine absurd ?_ (none other listed)
    rw [named, named', same, decide_eq_true different.symm]
    rfl

theorem Agree.not_both_left (agree : m.Agree s t) (listed : s ∈ a.states) (different : s ≠ t)
    (notInitial : s ≠ a.initial) (notDead : s ≠ .dead)
    (first : (m.sweep a).isLive s = true) : (m.sweep a).isLive t = false := by
  rw [Bool.eq_false_iff]
  intro second
  obtain ⟨n, before, after⟩ := exists_turn (a := a) (m := m) (fun _ _ => steps_mergeState)
    (UniqueList.mem_toList.mpr listed)
  have left := isLive_of_steps after first
  have here := isLive_of_steps steps_mergeState left
  have here' := isLive_of_steps steps_mergeState (isLive_of_steps after second)
  rw [isLive_mergeState_eq_false (agree.of_steps before here here') different notInitial notDead] at left
  cases left

/-- Of two states whose rows agree a sweep leaves one, unless they are the initial state and the sink,
which stay in any case. -/
theorem Reachable.eq_or_spared_of_agree (reachable : Reachable a m) (agree : m.Agree s t)
    (first : (m.sweep a).isLive s = true) (second : (m.sweep a).isLive t = true) :
    s = t ∨ s = a.initial ∧ t = .dead ∨ s = .dead ∧ t = a.initial := by
  have listed : ∀ s, (m.sweep a).isLive s = true → s ∈ a.states := fun s live =>
    (reachable.isLive_iff.mp (isLive_of_steps steps_sweep live)).1
  -- a state that stays with its twin is one of those that are never removed
  have stays : ∀ s t, m.Agree s t → s ≠ t → (m.sweep a).isLive s = true →
      (m.sweep a).isLive t = true → s = a.initial ∨ s = .dead := by
    intro s t agree different first second
    refine Decidable.or_iff_not_imp_left.mpr fun notInitial => Decidable.byContradiction fun notDead => ?_
    rw [agree.not_both_left (listed s first) different notInitial notDead first] at second
    cases second
  by_cases same : s = t
  · exact .inl same
  · rcases stays s t agree same first second with rfl | rfl
    · rcases stays t _ agree.symm (Ne.symm same) second first with initial | dead
      · exact absurd initial.symm same
      · exact .inr (.inl ⟨rfl, dead⟩)
    · rcases stays t _ agree.symm (Ne.symm same) second first with initial | dead
      · exact .inr (.inr ⟨rfl, initial⟩)
      · exact absurd dead.symm same

/-- Where a sweep finds nothing to merge, no two rows agree. -/
theorem Reachable.eq_or_spared_of_still (reachable : Reachable a m) (still : m.sweep a = m)
    (agree : m.Agree s t) : s = t ∨ s = a.initial ∧ t = .dead ∨ s = .dead ∧ t = a.initial := by
  refine reachable.eq_or_spared_of_agree agree ?_ ?_
  · rw [still]
    exact agree.isLive
  · rw [still]
    exact agree.symm.isLive

end Reduction

end Determinize
