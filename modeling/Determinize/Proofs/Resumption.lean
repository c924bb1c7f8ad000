import Determinize.Proofs.Image
import Determinize.Proofs.RepresentedRefinement

/-!
Going on from a table. The automaton of a table can be merged anew, and the rows that this starts with
are those of the table (`start_toAutomaton`). So its merges are merges of the table (`Reachable.append`),
its sweeps are sweeps of the table (`toAutomaton_sweep`), and the automaton that comes of them is one and
the same, with the order of its transitions (`toAutomaton_append`).
-/

namespace Determinize

open Relation (ReflTransGen)

namespace Reduction

variable {a : Automaton} {m n : Reduction} {s t : State}

/-! ### Merging on -/

/-- What a table comes to by the merges that lead from its automaton to another table. -/
def append (m n : Reduction) : Reduction := ⟨n.rows, m.merges ++ n.merges⟩

theorem row?_append : (m.append n).row? s = n.row? s := rfl

theorem twin?_append {row : Row} : (m.append n).twin? row = n.twin? row := rfl

theorem remove_append {r k : State} : (m.append n).remove r k = m.append (n.remove r k) := by
  simp only [remove, append, List.append_assoc]

theorem absorb_append : absorb s (m.append n) t = m.append (absorb s n t) := by
  unfold absorb
  rw [row?_append, row?_append]
  split
  · split
    · exact remove_append
    · rfl
  · rfl

theorem start_toAutomaton (declared : a.Declared) (reachable : Reachable a m) :
    start (m.toAutomaton a) = ⟨m.rows, []⟩ := by
  have rows : ∀ s ∈ survivors a m.merges, rowOf (m.toAutomaton a) (representative []) s =
      rowOf a (representative m.merges) s := by
    intro s survivor
    have live : m.isLive s = true := reachable.isLive_iff.mpr (mem_survivors.mp survivor)
    have next : ∀ x, ((m.toAutomaton a).nextState? s (.letter x)).map (representative []) =
        (a.nextState? s (.letter x)).map (representative m.merges) := fun x => by
      rw [reachable.nextState?_toAutomaton declared, reachable.next?_eq declared live]
      exact Option.map_id_fun ▸ rfl
    rw [rowOf, rowOf, Reachable.isFinal_toAutomaton live, funext next]
    rfl
  have left : survivors (m.toAutomaton a) [] = survivors a m.merges := by
    show (a.states.toList.filter m.isLive).filter _ = a.states.toList.filter _
    rw [List.filter_filter]
    refine List.filter_congr fun s member => ?_
    rw [Bool.eq_iff_iff]
    simp [reachable.isLive_iff, UniqueList.mem_toList.mp member]
  have table : m.rows = (survivors a m.merges).map (rowOf a (representative m.merges)) :=
    congrArg Reduction.rows reachable.eq_table
  rw [start_eq_table, Reduction.table, left, List.map_congr_left rows, table]

theorem isLive_of_resumed (again : Reachable (m.toAutomaton a) n) (live : n.isLive s = true) :
    m.isLive s = true :=
  (mem_states_toAutomaton.mp (again.isLive_iff.mp live).1).2

section Resumed

variable (declared : a.Declared) (reachable : Reachable a m)

include declared reachable

theorem append_start : m.append (start (m.toAutomaton a)) = m := by
  rw [append, start_toAutomaton declared reachable, List.append_nil]

theorem Reachable.append (again : Reachable (m.toAutomaton a) n) : Reachable a (m.append n) := by
  induction again with
  | start =>
    rw [append_start declared reachable]
    exact reachable
  | @remove n r k again removable keeps different notInitial notDead same ih =>
    -- the walks of the automaton of the table end as they did before the first merges
    rw [reachable.outcome?_toAutomaton declared (isLive_of_resumed again removable),
      reachable.outcome?_toAutomaton declared (isLive_of_resumed again keeps)] at same
    rw [← remove_append]
    exact ih.remove removable keeps different notInitial notDead same

/-! ### Sweeping on -/

/-- The states that are gone from the table make no difference when all states have their turn. -/
theorem foldl_append {step step' : Reduction → State → Reduction}
    (same : ∀ n s, Reachable (m.toAutomaton a) n → step (m.append n) s = m.append (step' n s))
    (steps : ∀ n s, ReflTransGen (SweepStep (m.toAutomaton a)) n (step' n s))
    (skip : ∀ n s, n.row? s = none → step' n s = n) (again : Reachable (m.toAutomaton a) n)
    (l : List State) : l.foldl step (m.append n) = m.append ((l.filter m.isLive).foldl step' n) := by
  have declared' := reachable.declared_toAutomaton declared
  induction l generalizing n with
  | nil => rfl
  | cons s l ih =>
    rw [List.foldl_cons, List.filter_cons, same n s again]
    split
    · exact ih (again.of_steps declared' (steps n s))
    · rename_i removed
      have gone : n.isLive s ≠ true := fun live => removed (isLive_of_resumed again live)
      rw [skip n s (Option.not_isSome_iff_eq_none.mp gone)]
      exact ih again

theorem mergeState_append (again : Reachable (m.toAutomaton a) n) :
    mergeState a (m.append n) s = m.append (mergeState (m.toAutomaton a) n s) := by
  unfold mergeState
  rw [row?_append, show (m.toAutomaton a).initial = a.initial from rfl]
  split
  · rfl
  · split
    · rename_i initial
      rw [initial]
      refine foldl_append declared reachable (fun _ _ _ => absorb_append) (fun _ _ => steps_absorb)
        (fun n t none => ?_) again _
      unfold absorb
      rw [none]
      split
      · contradiction
      · rfl
    · split
      · rfl
      · rw [twin?_append]
        split
        · exact remove_append
        · rfl

theorem sweep_append (again : Reachable (m.toAutomaton a) n) :
    (m.append n).sweep a = m.append (n.sweep (m.toAutomaton a)) := by
  refine foldl_append declared reachable (fun _ _ again => mergeState_append declared reachable again)
    (fun _ _ => steps_mergeState) (fun n s none => ?_) again _
  unfold mergeState
  rw [none]

theorem sweep_eq_append :
    m.sweep a = m.append ((start (m.toAutomaton a)).sweep (m.toAutomaton a)) := by
  rw [← sweep_append declared reachable .start, append_start declared reachable]

end Resumed

/-! ### The automaton that comes of it -/

theorem transitions_append {earlier ts : List Transition} :
    (m.append n).transitions earlier ts = n.transitions earlier ts := by
  induction ts generalizing earlier with
  | nil => rfl
  | cons t rest ih =>
    rw [transitions, transitions, ih]
    rfl

/-- The moves that the first table lists are enough for a second one that has no others. -/
theorem transitions_transitions (narrows : ∀ s x, m.next? s x = none → n.next? s x = none)
    {earlier earlier' ts : List Transition}
    (seen : ∀ s x, (earlier.any fun e => e.leaves s x) = false →
      (earlier'.any fun e => e.leaves s x) = false) :
    n.transitions earlier' (m.transitions earlier ts) = n.transitions earlier ts := by
  induction ts generalizing earlier earlier' with
  | nil => rfl
  | cons t rest ih =>
    have later : ∀ s x, ((t :: earlier).any fun e => e.leaves s x) = false →
        (earlier'.any fun e => e.leaves s x) = false := fun s x unseen => by
      rw [List.any_cons, Bool.or_eq_false_iff] at unseen
      exact seen s x unseen.2
    rw [transitions, transitions]
    cases first : earlier.any fun e => e.leaves t.source t.symbol with
    | true => exact ih later
    | false =>
      cases symbol : t.symbol with
      | epsilon => exact ih later
      | letter x =>
        simp only [Symbol.letter?, Option.bind_some, Bool.false_eq_true, if_false]
        cases move : m.next? t.source x with
        | none =>
          rw [narrows t.source x move]
          exact ih later
        | some d =>
          rw [transitions, seen t.source (.letter x) (symbol ▸ first)]
          have here : ∀ s y, ((t :: earlier).any fun e => e.leaves s y) = false →
              ((⟨t.source, .letter x, .singleton d⟩ :: earlier').any fun e => e.leaves s y) = false := by
            intro s y unseen
            rw [List.any_cons, Bool.or_eq_false_iff] at unseen ⊢
            refine ⟨?_, seen s y unseen.2⟩
            rw [← unseen.1, Transition.leaves, Transition.leaves, symbol]
          simp only [Symbol.letter?, Option.bind_some, Bool.false_eq_true, if_false, ih here]

theorem toAutomaton_append (declared : a.Declared) (reachable : Reachable a m)
    (again : Reachable (m.toAutomaton a) n) :
    (m.append n).toAutomaton a = n.toAutomaton (m.toAutomaton a) := by
  have filtered : ∀ l : UniqueList State,
      l.filter (m.append n).isLive = (l.filter m.isLive).filter n.isLive := fun l => by
    apply UniqueList.eq_of_toList_eq
    show l.toList.filter n.isLive = (l.toList.filter m.isLive).filter n.isLive
    rw [List.filter_filter]
    refine List.filter_congr fun s _ => ?_
    rw [Bool.eq_iff_iff, Bool.and_eq_true]
    exact ⟨fun live => ⟨live, isLive_of_resumed again live⟩, And.left⟩
  have narrows : ∀ s x, m.next? s x = none → n.next? s x = none := fun s x none => by
    rw [← reachable.nextState?_toAutomaton declared] at none
    cases there : n.isLive s with
    | false => exact next?_eq_none there
    | true =>
      rw [again.next?_eq (reachable.declared_toAutomaton declared) there, none]
      rfl
  have moves : (m.append n).transitions [] a.transitions =
      n.transitions [] (m.transitions [] a.transitions) :=
    transitions_append.trans (transitions_transitions narrows fun _ _ _ => rfl).symm
  rw [toAutomaton, filtered, filtered, moves]
  rfl

theorem toAutomaton_sweep (declared : a.Declared) (reachable : Reachable a m) :
    (m.sweep a).toAutomaton a = (m.toAutomaton a).minimize .singlePass := by
  rw [sweep_eq_append declared reachable,
    Automaton.minimize_eq (reachable.declared_toAutomaton declared)]
  exact toAutomaton_append declared reachable
    (reachable_reduce (reachable.declared_toAutomaton declared) .singlePass)

end Reduction

end Determinize
