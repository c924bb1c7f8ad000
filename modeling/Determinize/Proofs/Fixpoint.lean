import Determinize.Proofs.Strength
import Mathlib.Logic.Function.Iterate

/-!
One sweep, and sweeps until one merges nothing. A sweep leaves no two states that agreed before it
(`singlePass_separates`). Sweeps on one table make the automaton that passes over ever smaller automata
make, and at the end no two states agree (`fixpoint_iterates`).
-/

namespace Determinize

/-- A loop that applies a function once, and again as long as the last time made the size smaller, ends
after `k + 1` times with the value `y`. -/
structure Settles {α : Type} (f : α → α) (size : α → Nat) (x : α) (k : Nat) (y : α) : Prop where
  value : y = f^[k + 1] x
  drops : ∀ i < k, size (f^[i + 1] x) < size (f^[i] x)
  stands : size (f^[k + 1] x) = size (f^[k] x)

namespace Settles

variable {α β : Type} {f : α → α} {g : β → β} {size : α → Nat} {size' : β → Nat} {x y : α} {z : β}
  {k : Nat}

theorem stop (same : size (f x) = size x) : Settles f size x 0 (f x) :=
  ⟨rfl, fun _ small => absurd small (Nat.not_lt_zero _), same⟩

theorem again (smaller : size (f x) < size x) (rest : Settles f size (f x) k y) :
    Settles f size x (k + 1) y := by
  refine ⟨rest.value, fun i small => ?_, rest.stands⟩
  cases i with
  | zero => exact smaller
  | succ i => exact rest.drops i (Nat.lt_of_succ_lt_succ small)

/-- Two loops that come to values of the same sizes end together. -/
theorem transfer (settles : Settles f size x k y) {h : α → β}
    (values : ∀ i, g^[i + 1] z = h (f^[i + 1] x)) (sizes : ∀ i, size' (g^[i] z) = size (f^[i] x)) :
    Settles g size' z k (h y) := by
  refine ⟨?_, fun i small => ?_, ?_⟩
  · rw [settles.value, values]
  · rw [sizes, sizes]
    exact settles.drops i small
  · rw [sizes, sizes]
    exact settles.stands

end Settles

namespace Reduction

variable {a : Automaton} {m : Reduction} {limit : Nat}

theorem sweep_eq_self (declared : a.Declared) (reachable : Reachable a m)
    (same : (m.sweep a).rows.length = m.rows.length) : m.sweep a = m := by
  have swept := reachable.sweep declared
  have before := reachable.length_merges_add_rows
  have after := swept.length_merges_add_rows
  have merges : m.merges = (m.sweep a).merges :=
    (merges_prefix_of_steps steps_sweep).eq_of_length (by omega)
  rw [swept.eq_table, ← merges, ← reachable.eq_table]

theorem settles_sweeps (declared : a.Declared) (reachable : Reachable a m)
    (enough : m.rows.length ≤ limit) :
    ∃ k < limit, Settles (sweep a) (fun m => m.rows.length) m k (sweeps a limit m) := by
  induction limit generalizing m with
  | zero => exact absurd enough (Nat.not_le_of_lt (reachable.length_rows_pos declared))
  | succ limit ih =>
    have swept := reachable.sweep declared
    have before := reachable.length_merges_add_rows
    have after := swept.length_merges_add_rows
    have longer := (merges_prefix_of_steps (steps_sweep (a := a) (m := m))).length_le
    rw [sweeps]
    split
    · refine ⟨0, Nat.succ_pos _, .stop ?_⟩
      show (m.sweep a).rows.length = m.rows.length
      omega
    · obtain ⟨k, small, settles⟩ := ih swept (by omega)
      exact ⟨k + 1, Nat.succ_lt_succ small, .again (by omega) settles⟩

theorem reachable_iterate_sweep (declared : a.Declared) (k : Nat) :
    Reachable a ((sweep a)^[k] (start a)) := by
  induction k with
  | zero => exact .start
  | succ k ih =>
    rw [Function.iterate_succ_apply']
    exact ih.sweep declared

theorem length_live_copy (reachable : Reachable a m) : (copy a m).live.length = m.rows.length := by
  rw [live_copy, List.length_map, reachable.length_rows]
  rfl

theorem iterate_sweep_copy (declared : a.Declared) (k : Nat) :
    (fun w : WorkingCopy => w.sweep.1)^[k] (.start a) = copy a ((sweep a)^[k] (start a)) := by
  induction k with
  | zero => exact start_eq_copy declared
  | succ k ih =>
    rw [Function.iterate_succ_apply', Function.iterate_succ_apply', ih,
      (reachable_iterate_sweep declared k).sweep_copy declared]

/-- On the working copy, from which no place is ever taken away, sweeps end as on the table. -/
theorem settles_copy {k : Nat} (declared : a.Declared)
    (settles : Settles (sweep a) (fun m => m.rows.length) (start a) k m) :
    Settles (fun w => w.sweep.1) (fun w => w.live.length) (WorkingCopy.start a) k (copy a m) := by
  refine settles.transfer (fun i => iterate_sweep_copy declared (i + 1)) fun i => ?_
  rw [iterate_sweep_copy declared]
  exact length_live_copy (reachable_iterate_sweep declared i)

/-- No sweep is left out for want of limit: the last one merges nothing. -/
theorem sweep_reduce_fixpoint (declared : a.Declared) :
    (reduce a .fixpoint).sweep a = reduce a .fixpoint := by
  have enough : (start a).rows.length ≤ a.states.size := (List.length_map _).le
  obtain ⟨k, _, settles⟩ := settles_sweeps declared .start enough
  have reachable := reachable_iterate_sweep declared k
  have still : ((sweep a)^[k] (start a)).sweep a = (sweep a)^[k] (start a) := by
    have stands := settles.stands
    rw [Function.iterate_succ_apply'] at stands
    exact sweep_eq_self declared reachable stands
  have value : reduce a .fixpoint = (sweep a)^[k] (start a) := by
    rw [reduce, settles.value, Function.iterate_succ_apply', still]
  rw [value, still]

end Reduction

namespace Automaton

open Reduction (start reduce sweep)

variable {a : Automaton} {p : Parts} {kind : Kind} {s t : State}

theorem iterate_minimize_singlePass (declared : a.Declared) (k : Nat) :
    (fun a : Automaton => a.minimize .singlePass)^[k + 1] a =
      ((sweep a)^[k + 1] (start a)).toAutomaton a := by
  induction k with
  | zero => exact minimize_eq declared .singlePass
  | succ k ih =>
    rw [Function.iterate_succ_apply', ih, Function.iterate_succ_apply' (sweep a) (k + 1)]
    exact (Reduction.toAutomaton_sweep declared (Reduction.reachable_iterate_sweep declared _)).symm

theorem size_iterate_minimize_singlePass (declared : a.Declared) (k : Nat) :
    ((fun a : Automaton => a.minimize .singlePass)^[k] a).states.size =
      ((sweep a)^[k] (start a)).rows.length := by
  cases k with
  | zero => exact (List.length_map _).symm
  | succ k =>
    rw [iterate_minimize_singlePass declared,
      (Reduction.reachable_iterate_sweep declared _).length_rows]

/-- Any two states that one sweep leaves, but for the initial state and the sink, already differed before
it: in finality, or in where some letter leads, if it leads anywhere. -/
theorem singlePass_separates (built : p.toAutomaton kind = .ok a) (stages : List Stage) :
    let a := Stage.chain stages a
    let r := a.minimize .singlePass
    ∀ s ∈ r.states, ∀ t ∈ r.states, s ≠ t → ¬ (s = a.initial ∧ t = .dead) →
      ¬ (s = .dead ∧ t = a.initial) →
      a.isFinal s ≠ a.isFinal t ∨
        ∃ x ∈ a.alphabet, a.nextState? s (.letter x) ≠ a.nextState? t (.letter x) := by
  intro a r s first t second different notPair notPair'
  have declared : a.Declared := Stage.declared_chain built stages
  obtain ⟨listed, left⟩ := (mem_states_minimize declared).mp first
  obtain ⟨listed', left'⟩ := (mem_states_minimize declared).mp second
  by_contra alike
  simp only [not_or, not_exists, not_and, not_not] at alike
  have agree : (start a).Agree s t := by
    have here := Reduction.isLive_start.mpr listed
    have here' := Reduction.isLive_start.mpr listed'
    refine (Reduction.Reachable.start.agree_iff declared here here').mpr ⟨alike.1, fun x letter => ?_⟩
    rw [Reduction.Reachable.start.next?_eq declared here,
      Reduction.Reachable.start.next?_eq declared here', alike.2 x letter]
  obtain same | pair | pair := Reduction.Reachable.start.eq_or_spared_of_agree agree left left'
  · exact different same
  · exact notPair pair
  · exact notPair' pair

theorem singlePass_separates_layers :
    let a := Stage.chain [] layers.collapse
    let r := a.minimize .singlePass
    .simple "s" ∈ r.states ∧ .simple "t" ∈ r.states ∧ .simple "u" ∉ r.states ∧
      (a.isFinal (.simple "s") ≠ a.isFinal (.simple "t") ∨
        ∃ x ∈ a.alphabet,
          a.nextState? (.simple "s") (.letter x) ≠ a.nextState? (.simple "t") (.letter x)) := by
  intro a r
  have built : layers.toAutomaton .deterministic = .ok layers.collapse := by decide
  have first : State.simple "s" ∈ r.states := UniqueList.contains_iff.mp (by decide)
  have second : State.simple "t" ∈ r.states := UniqueList.contains_iff.mp (by decide)
  refine ⟨first, second, fun gone => ?_, ?_⟩
  · exact absurd (UniqueList.contains_iff.mpr gone) (by decide)
  · exact singlePass_separates built [] _ first _ second (by decide) (by decide) (by decide)

/-- Sweeping until nothing is merged ends, and on the working copy, from which no place is ever taken away,
it ends as on the table. It comes to the automaton, with the order of its transitions, that single sweeps
of ever new automata come to, done once and then as long as the last one left fewer states. No two of its
states agree in finality and in where every letter leads, unless they are the initial state and the
sink. -/
theorem fixpoint_iterates (built : p.toAutomaton kind = .ok a) (stages : List Stage) :
    let a := Stage.chain stages a
    let r := a.minimize .fixpoint
    (∃ k < a.states.size,
      (WorkingCopy.start a).reduce? .fixpoint = some (WorkingCopy.reduce a .fixpoint) ∧
      Settles (fun w => w.sweep.1) (fun w => w.live.length) (WorkingCopy.start a) k
        (WorkingCopy.reduce a .fixpoint).1 ∧
      Settles (sweep a) (fun m => m.rows.length) (start a) k (reduce a .fixpoint) ∧
      Settles (fun a => a.minimize .singlePass) (fun a => a.states.size) a k r) ∧
    ∀ s ∈ r.states, ∀ t ∈ r.states, s ≠ t → r.isFinal s = r.isFinal t →
      (∀ x ∈ r.alphabet, r.nextState? s (.letter x) = r.nextState? t (.letter x)) →
      s = a.initial ∧ t = .dead ∨ s = .dead ∧ t = a.initial := by
  intro a r
  have declared : a.Declared := Stage.declared_chain built stages
  refine ⟨?_, fun s first t second different final next => ?_⟩
  · have enough : (start a).rows.length ≤ a.states.size := (List.length_map _).le
    obtain ⟨k, small, settles⟩ := Reduction.settles_sweeps declared .start enough
    have automata : Settles (fun a => a.minimize .singlePass) (fun a => a.states.size) a k
        ((reduce a .fixpoint).toAutomaton a) :=
      settles.transfer (h := fun m => m.toAutomaton a) (iterate_minimize_singlePass declared)
        (size_iterate_minimize_singlePass declared)
    refine ⟨k, small, Reduction.start_reduce?_eq declared .fixpoint, ?_, settles, ?_⟩
    · rw [Reduction.reduce_copy declared]
      exact Reduction.settles_copy declared settles
    · rwa [← minimize_eq declared] at automata
  · have reachable := Reduction.reachable_reduce declared .fixpoint
    have left := ((mem_states_minimize declared).mp first).2
    have left' := ((mem_states_minimize declared).mp second).2
    have agree : (reduce a .fixpoint).Agree s t := by
      refine (reachable.agree_iff declared left left').mpr ⟨?_, fun x letter => ?_⟩
      · rw [← isFinal_minimize declared first, ← isFinal_minimize declared second]
        exact final
      · rw [← nextState?_minimize declared, ← nextState?_minimize declared]
        exact next x letter
    have still := Reduction.sweep_reduce_fixpoint declared
    exact (reachable.eq_or_spared_of_still still agree).resolve_left different

/-- Two sweeps find something to merge and a third does not; `x` and `y` still lead to each other. -/
theorem fixpoint_iterates_layers :
    let a := Stage.chain [] layers.collapse
    let r := a.minimize .fixpoint
    (∃ k < 6, Settles (fun w => w.sweep.1) (fun w => w.live.length) (WorkingCopy.start a) k
        (WorkingCopy.reduce a .fixpoint).1 ∧
      Settles (fun a => a.minimize .singlePass) (fun a => a.states.size) a k r) ∧
      r = (fun a : Automaton => a.minimize .singlePass)^[3] a ∧
      .simple "x" ∈ r.states ∧ .simple "y" ∈ r.states ∧
      (r.isFinal (.simple "x") = r.isFinal (.simple "y") →
        ∃ x ∈ r.alphabet,
          r.nextState? (.simple "x") (.letter x) ≠ r.nextState? (.simple "y") (.letter x)) := by
  intro a r
  have built : layers.toAutomaton .deterministic = .ok layers.collapse := by decide
  have first : State.simple "x" ∈ r.states := UniqueList.contains_iff.mp (by decide)
  have second : State.simple "y" ∈ r.states := UniqueList.contains_iff.mp (by decide)
  obtain ⟨⟨k, small, _, places, _, settles⟩, separate⟩ := fixpoint_iterates built []
  refine ⟨⟨k, small, places, settles⟩, by decide, first, second, fun final => ?_⟩
  by_contra alike
  have next : ∀ x ∈ r.alphabet,
      r.nextState? (.simple "x") (.letter x) = r.nextState? (.simple "y") (.letter x) :=
    fun x letter => Decidable.not_not.mp fun differ => alike ⟨x, letter, differ⟩
  exact absurd (separate _ first _ second (by decide) final next) (by decide)

end Automaton

end Determinize
