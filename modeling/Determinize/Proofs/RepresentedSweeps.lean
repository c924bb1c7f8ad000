import Determinize.Proofs.Modes
import Determinize.Proofs.Representation

/-!
Sweeps on the working copy. What is counted in a sweep is what the log of merges grows by
(`Counted.sweep`). Trying a state with all others merges on the copy what `mergeState` merges in the table
(`Reachable.trial_copy`), so sweeps on the copy come to the copy of the swept table, and end by their own
test before they run out of limit (`Reachable.exists_sweeps_copy`).
-/

namespace Determinize

namespace WorkingCopy

variable {w : WorkingCopy} {state : WorkingCopy × Nat} {base merged total limit i removed kept : Nat}
  {js : List Nat}

/-! ### Counting -/

/-- The number that goes with a working copy is that of the merges after the first so many. -/
def Counted (base : Nat) (state : WorkingCopy × Nat) : Prop := base + state.2 = state.1.merges.length

theorem Counted.remove (counted : Counted base (w, merged)) :
    Counted base (w.remove removed kept, merged + 1) := by
  show base + (merged + 1) = (w.merges ++ [(removed, kept)]).length
  rw [List.length_append, ← (counted : base + merged = w.merges.length)]
  rfl

theorem Counted.trial (counted : Counted base (w, merged)) : Counted base (trial i js w merged) := by
  induction js generalizing w merged with
  | nil => exact counted
  | cons j js ih =>
    rw [WorkingCopy.trial]
    split
    · exact ih counted
    · generalize (if some i = w.initial then (j, i) else (i, j)) = pair
      dsimp only
      split
      · exact ih counted
      · split
        · exact counted.remove
        · exact ih counted.remove

theorem Counted.sweep : Counted w.merges.length w.sweep := by
  refine List.foldlRecOn (motive := Counted w.merges.length) _ _ rfl fun state counted i _ => ?_
  exact counted.trial

theorem Counted.sweeps (counted : Counted base (w, total)) (ended : sweeps limit w total = some state) :
    Counted base state := by
  induction limit generalizing w total with
  | zero => cases ended
  | succ limit ih =>
    have one : w.merges.length + w.sweep.2 = w.sweep.1.merges.length := Counted.sweep
    have before : base + total = w.merges.length := counted
    rw [WorkingCopy.sweeps] at ended
    dsimp only at ended
    split at ended
    · rename_i none
      cases ended
      show base + total = w.sweep.1.merges.length
      omega
    · refine ih ?_ ended
      show base + (total + w.sweep.2) = w.sweep.1.merges.length
      omega

end WorkingCopy

namespace Reduction

variable {a : Automaton} {m : Reduction} {s t : State} {row : Row} {merged total limit : Nat}
  {js : List Nat} {ts : List State}

/-! ### Twins -/

/-- Another state is there, and its row agrees with that of the first. -/
def isTwin (m : Reduction) (s t : State) : Bool :=
  match m.row? s, m.row? t with
  | some row, some other => decide (t ≠ s) && row.agrees other
  | _, _ => false

theorem isTwin_iff : m.isTwin s t = true ↔ t ≠ s ∧ m.Agree s t := by
  unfold isTwin Agree
  cases m.row? s with
  | none => simp
  | some row =>
    cases m.row? t with
    | none => simp
    | some other => simp

theorem absorb_eq : absorb s m t = if m.isTwin s t && !t.isDead then m.remove t s else m := by
  unfold absorb isTwin
  cases m.row? s with
  | none => rfl
  | some row =>
    cases m.row? t with
    | none => rfl
    | some other =>
      dsimp only
      rw [Bool.and_right_comm]

theorem Reachable.twin?_eq (reachable : Reachable a m) (found : m.row? s = some row) :
    m.twin? row = a.states.toList.find? (m.isTwin s) := by
  obtain ⟨live, named⟩ := reachable.eq_rowOf found
  have rows : m.rows = (survivors a m.merges).map (rowOf a (representative m.merges)) :=
    congrArg Reduction.rows reachable.eq_table
  rw [twin?, rows, List.find?_map, Option.map_map, survivors, List.find?_filter]
  have names : (Row.state ∘ rowOf a (representative m.merges)) = id := rfl
  rw [names, Option.map_id, id, ← List.head?_filter, ← List.head?_filter]
  refine congrArg List.head? (List.filter_congr fun t present => ?_)
  rw [isTwin, found, Function.comp_apply]
  cases there : m.isLive t with
  | false =>
    have gone : t ∈ m.merges.map Merge.removed := by
      by_contra stays
      rw [reachable.isLive_iff.mpr ⟨present, stays⟩] at there
      cases there
    rw [row?_eq_none there, decide_eq_false (not_not.mpr gone)]
    exact decide_eq_false fun both => Bool.false_ne_true both.1
  | true =>
    have stays := (reachable.isLive_iff.mp there).2
    simp only [reachable.row?_eq_some there, decide_eq_true stays, true_and, Bool.decide_eq_true, named]
    rfl

/-! ### Trying a state -/

/-- The states that the copy passes over are those that are not twins. -/
theorem Reachable.passes_copy (reachable : Reachable a m) (declared : a.Declared) (present : s ∈ a.states)
    (present' : t ∈ a.states) :
    (decide (a.place s = a.place t) || !(copy a m).isAlive (a.place s) ||
      !(copy a m).isAlive (a.place t) || !(copy a m).equivalent (a.place s) (a.place t)) =
      !m.isTwin s t := by
  rw [isAlive_copy present, isAlive_copy present']
  cases twin : m.isTwin s t with
  | true =>
    obtain ⟨different, agree⟩ := isTwin_iff.mp twin
    have same := (reachable.equivalent_copy declared agree.isLive agree.symm.isLive).mpr agree
    simp [agree.isLive, agree.symm.isLive, same, Automaton.place_inj present, Ne.symm different]
  | false =>
    by_contra other
    simp only [Bool.not_false, Bool.or_eq_true, decide_eq_true_iff, Bool.not_eq_true', not_or,
      Bool.not_eq_false, Automaton.place_inj present] at other
    obtain ⟨⟨⟨different, first⟩, second⟩, same⟩ := other
    have agree := (reachable.equivalent_copy declared first second).mp same
    rw [isTwin_iff.mpr ⟨Ne.symm different, agree⟩] at twin
    cases twin

/-- What trying a state with another one does on the copy. -/
theorem Reachable.trial_cons (reachable : Reachable a m) (declared : a.Declared) (present : s ∈ a.states)
    (present' : t ∈ a.states) :
    WorkingCopy.trial (a.place s) (a.place t :: js) (copy a m) merged =
      if m.isTwin s t then
        if s = a.initial then
          if t = .dead then WorkingCopy.trial (a.place s) js (copy a m) merged
          else WorkingCopy.trial (a.place s) js (copy a (m.remove t s)) (merged + 1)
        else if s = .dead then WorkingCopy.trial (a.place s) js (copy a m) merged
        else (copy a (m.remove s t), merged + 1)
      else WorkingCopy.trial (a.place s) js (copy a m) merged := by
  rw [WorkingCopy.trial, reachable.passes_copy declared present present']
  cases twin : m.isTwin s t with
  | false => rfl
  | true =>
    have different := (isTwin_iff.mp twin).1
    simp only [Bool.not_true, Bool.false_eq_true, if_false, if_true, eq_initial_copy_iff present]
    by_cases initial : s = a.initial
    · have other : a.place t ≠ a.place s := (Automaton.place_inj present').not.mpr different
      simp only [if_pos initial, eq_dead_copy_iff present', if_neg other, remove_copy present']
    · simp only [if_neg initial, eq_dead_copy_iff present, if_true, remove_copy present]

section Trial

variable (reachable : Reachable a m) (declared : a.Declared) (listed : ∀ t ∈ ts, t ∈ a.states)

include reachable declared listed

/-- A state that is gone has no twin, and the sink is not removed. -/
theorem Reachable.trial_in_vain (present : s ∈ a.states)
    (vain : m.isLive s = false ∨ s ≠ a.initial ∧ s = .dead) :
    WorkingCopy.trial (a.place s) (ts.map a.place) (copy a m) merged = (copy a m, merged) := by
  induction ts with
  | nil => rfl
  | cons t ts ih =>
    obtain ⟨here, listed⟩ := List.forall_mem_cons.mp listed
    rw [List.map_cons, reachable.trial_cons declared present here, ih listed]
    cases twin : m.isTwin s t with
    | false => rfl
    | true =>
      rcases vain with gone | ⟨notInitial, dead⟩
      · rw [(isTwin_iff.mp twin).2.isLive] at gone
        cases gone
      · rw [if_pos rfl, if_neg notInitial, if_pos dead]

theorem Reachable.trial_initial :
    (WorkingCopy.trial (a.place a.initial) (ts.map a.place) (copy a m) merged).1 =
      copy a (ts.foldl (absorb a.initial) m) := by
  induction ts generalizing m merged with
  | nil => rfl
  | cons t ts ih =>
    obtain ⟨here, listed⟩ := List.forall_mem_cons.mp listed
    have next : Reachable a (absorb a.initial m t) := reachable.of_steps declared steps_absorb
    rw [List.map_cons, reachable.trial_cons declared declared.initial here, List.foldl_cons]
    rw [absorb_eq] at next ⊢
    cases twin : m.isTwin a.initial t with
    | false => exact ih reachable listed
    | true =>
      by_cases dead : t = .dead
      · rw [if_pos rfl, if_pos rfl, if_pos dead, ih reachable listed]
        simp [State.isDead_iff.mpr dead]
      · have notDead := State.isDead_eq_false_iff.mpr dead
        rw [twin, notDead, Bool.not_false, Bool.and_true, if_pos rfl] at next
        rw [if_pos rfl, if_pos rfl, if_neg dead, ih next listed]
        simp [notDead]

/-- Any other state goes into its first twin. -/
theorem Reachable.trial_other (present : s ∈ a.states) (notInitial : s ≠ a.initial)
    (notDead : s ≠ .dead) :
    (WorkingCopy.trial (a.place s) (ts.map a.place) (copy a m) merged).1 =
      copy a (match ts.find? (m.isTwin s) with
        | some kept => m.remove s kept
        | none => m) := by
  induction ts with
  | nil => rfl
  | cons t ts ih =>
    obtain ⟨here, listed⟩ := List.forall_mem_cons.mp listed
    rw [List.map_cons, reachable.trial_cons declared present here, List.find?_cons]
    cases twin : m.isTwin s t with
    | false => exact ih listed
    | true => rw [if_pos rfl, if_neg notInitial, if_neg notDead]

end Trial

variable (declared : a.Declared)

include declared

/-- Trying a state with all states on the copy is what is done to it in the table. -/
theorem Reachable.trial_copy (reachable : Reachable a m) (present : s ∈ a.states) (merged : Nat) :
    (WorkingCopy.trial (a.place s) (a.states.toList.map a.place) (copy a m) merged).1 =
      copy a (mergeState a m s) := by
  unfold mergeState
  cases found : m.row? s with
  | none =>
    have gone : m.isLive s = false := by rw [isLive, found]; rfl
    rw [reachable.trial_in_vain declared (fun _ => id) present (.inl gone)]
  | some row =>
    dsimp only
    split
    · rename_i initial
      rw [initial]
      exact reachable.trial_initial declared fun _ => id
    · rename_i notInitial
      split
      · rename_i dead
        rw [reachable.trial_in_vain declared (fun _ => id) present
          (.inr ⟨notInitial, State.isDead_iff.mp dead⟩)]
      · rename_i alive
        rw [Bool.not_eq_true, State.isDead_eq_false_iff] at alive
        rw [reachable.twin?_eq found]
        exact reachable.trial_other declared (fun _ => id) present notInitial alive

theorem Reachable.foldl_trial_copy (reachable : Reachable a m) (listed : ∀ s ∈ ts, s ∈ a.states) :
    (ts.foldl (fun (state : WorkingCopy × Nat) s => WorkingCopy.trial (a.place s)
      (List.range state.1.size) state.1 state.2) (copy a m, merged)).1 =
      copy a (ts.foldl (mergeState a) m) := by
  induction ts generalizing m merged with
  | nil => rfl
  | cons s ts ih =>
    obtain ⟨here, listed⟩ := List.forall_mem_cons.mp listed
    have turn := reachable.trial_copy declared here merged
    rw [List.foldl_cons, List.foldl_cons, size_copy, Automaton.range_size,
      ← ih (reachable.of_steps declared steps_mergeState) listed, ← turn]

theorem Reachable.sweep_copy (reachable : Reachable a m) :
    (copy a m).sweep.1 = copy a (m.sweep a) := by
  rw [WorkingCopy.sweep, size_copy, Automaton.range_size, List.foldl_map]
  exact reachable.foldl_trial_copy declared fun _ => id

/-- Sweeps on the copy come to the end by their own test. -/
theorem Reachable.exists_sweeps_copy (reachable : Reachable a m) (enough : m.rows.length ≤ limit) :
    ∃ total', WorkingCopy.sweeps limit (copy a m) total = some (copy a (Reduction.sweeps a limit m), total') := by
  induction limit generalizing m total with
  | zero => exact absurd enough (Nat.not_le_of_lt (reachable.length_rows_pos declared))
  | succ limit ih =>
    have swept := reachable.sweep declared
    have counted : m.merges.length + (copy a m).sweep.2 = (m.sweep a).merges.length := by
      have counts : (copy a m).merges.length + (copy a m).sweep.2 = (copy a m).sweep.1.merges.length :=
        WorkingCopy.Counted.sweep
      rw [reachable.sweep_copy declared] at counts
      rwa [copy, copy, List.length_map, List.length_map] at counts
    rw [WorkingCopy.sweeps, Reduction.sweeps]
    dsimp only
    rw [reachable.sweep_copy declared]
    by_cases still : (copy a m).sweep.2 = 0
    · rw [if_pos still, if_pos (by omega)]
      exact ⟨total, rfl⟩
    · have before := reachable.length_merges_add_rows
      have after := swept.length_merges_add_rows
      rw [if_neg still, if_neg (by omega)]
      exact ih swept (by omega)

end Reduction

end Determinize
