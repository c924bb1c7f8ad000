import Determinize.Proofs.Pipeline

/-!
The log of merging as a map of states. Following its records from a declared state leads to a state that
is left, and to itself only from a state that was not removed. The walks from the two end alike
whatever the mode, also where the automaton is not deterministic and only its first moves count.
-/

namespace Determinize

def Event.merge? : Event → Option Merge
  | .merging removed kept => some ⟨removed, kept⟩
  | _ => none

/-- What the earlier merge removed is neither removed nor kept by the later one. -/
def Merge.Spares (earlier later : Merge) : Prop :=
  earlier.removed ≠ later.removed ∧ earlier.removed ≠ later.kept

namespace Reduction

variable {a : Automaton} {m : Reduction} {merges : List Merge} {s : State}

theorem representative_eq_self (stays : s ∉ merges.map Merge.removed) :
    representative merges s = s := by
  induction merges with
  | nil => rfl
  | cons merge merges ih =>
    rw [List.map_cons, List.mem_cons, not_or] at stays
    rw [representative, List.foldl_cons, if_neg stays.1]
    exact ih stays.2

namespace Reachable

variable (reachable : Reachable a m)

include reachable

theorem representative_eq_self_iff (start : s ∈ a.states) :
    representative m.merges s = s ↔ m.isLive s = true := by
  constructor
  · intro itself
    have live := reachable.isLive_representative start
    rwa [itself] at live
  · intro live
    exact representative_eq_self (reachable.isLive_iff.mp live).2

/-- A merge is of states that are left, so what was removed before has no part in it. -/
theorem pairwise_merges : m.merges.Pairwise Merge.Spares := by
  induction reachable with
  | start => exact .nil
  | @remove m r k reachable removable keeps _ _ _ _ ih =>
    show (m.merges ++ [(⟨r, k⟩ : Merge)]).Pairwise Merge.Spares
    refine List.pairwise_append.mpr ⟨ih, List.pairwise_singleton _ _, ?_⟩
    intro earlier member later last
    have gone := List.mem_map_of_mem (f := Merge.removed) member
    have there := (reachable.isLive_iff.mp removable).2
    have there' := (reachable.isLive_iff.mp keeps).2
    obtain rfl := List.mem_singleton.mp last
    refine ⟨fun same => there ?_, fun same => there' ?_⟩
    · rwa [show earlier.removed = r from same] at gone
    · rwa [show earlier.removed = k from same] at gone

end Reachable

end Reduction

namespace Automaton

open Reduction (representative)

variable {a : Automaton} {s : State} {mode : MergeMode} {p : Parts} {kind : Kind}

/-- The merges of which the log has a record, in their order. -/
def loggedMerges (a : Automaton) (mode : MergeMode) : List Merge :=
  (a.minimizeEvents mode).filterMap Event.merge?

theorem loggedMerges_eq (declared : a.Declared) :
    a.loggedMerges mode = (Reduction.reduce a mode).merges := by
  have records : (Event.merge? ∘ fun m : Merge => Event.merging m.removed m.kept) = some := rfl
  rw [loggedMerges, minimizeEvents_eq declared, List.filterMap_append, List.filterMap_map, records,
    List.filterMap_some]
  exact List.append_nil _

/-- Following the log of merging from any declared state ends at a state that is left, from which all
walks end as they do from the given one. The states left are those the log leads back to; the initial
state and the sink are among them, and no state has a part in a merge after it was removed. -/
theorem faithful_minimize (built : p.toAutomaton kind = .ok a) (stages : List Stage)
    (mode : MergeMode) :
    let a := Stage.chain stages a
    let r := a.minimize mode
    let stand := representative (a.loggedMerges mode)
    (∀ s ∈ a.states, stand s ∈ r.states ∧ (stand s = s ↔ s ∈ r.states)) ∧
      a.initial ∈ r.states ∧ (.dead ∈ a.states → .dead ∈ r.states) ∧
      (a.loggedMerges mode).Pairwise Merge.Spares ∧
      (∀ s ∈ a.states, ∀ w, r.chart.outcome? (stand s) w = a.chart.outcome? s w) ∧
      ∀ w, r.accepts w = true ↔ a.chart.outcome? a.initial w = some true := by
  intro a r stand
  have declared : a.Declared :=
    (Stage.wellFormed_chain (Parts.wellFormed_of_toAutomaton built) stages).toDeclared
  have reachable := Reduction.reachable_reduce declared mode
  have logged : stand = representative (Reduction.reduce a mode).merges :=
    congrArg representative (loggedMerges_eq declared)
  have live := fun s (start : s ∈ a.states) => reachable.isLive_representative start
  have left := fun s (start : s ∈ a.states) => (mem_states_minimize declared).mpr
    ⟨(reachable.isLive_iff.mp (live s start)).1, live s start⟩
  have walks := fun s (start : s ∈ a.states) =>
    (outcome?_minimize declared (left s start)).trans reachable.outcome?_representative
  rw [logged, loggedMerges_eq declared]
  refine ⟨fun s start => ⟨left s start, ?_⟩, initial_mem_minimize declared, fun start => ?_,
    reachable.pairwise_merges, fun s start w => congrFun (walks s start) w, fun w => ?_⟩
  · rw [reachable.representative_eq_self_iff start, mem_states_minimize declared, and_iff_right start]
  · exact (mem_states_minimize declared).mpr ⟨start, reachable.isLive_dead start⟩
  · have ends : r.chart.outcome? a.initial = a.chart.outcome? a.initial :=
      outcome?_minimize declared (initial_mem_minimize declared)
    rw [accepts_iff_outcome? (isDeterministic_minimize declared mode)]
    exact iff_of_eq (congrArg (fun f => f w = some true) ends)

/-- Merging where the automaton is not deterministic: by their first moves `start` and `a` agree. -/
theorem faithful_minimize_asThenBs :
    let a := Stage.chain [.eliminate] asThenBs.collapse
    let r := a.minimize .singlePass
    a.isDeterministic = false ∧ a.loggedMerges .singlePass = [⟨.simple "a", .simple "start"⟩] ∧
      .simple "a" ∉ r.states ∧
      (∀ w, r.chart.outcome? (.simple "start") w = a.chart.outcome? (.simple "a") w) ∧
      ∀ w, r.accepts w = true ↔ a.chart.outcome? a.initial w = some true := by
  intro a r
  have general : a.isDeterministic = false := by decide
  have logged : a.loggedMerges .singlePass = [⟨.simple "a", .simple "start"⟩] := by decide
  have start : State.simple "a" ∈ a.states := UniqueList.contains_iff.mp (by decide)
  obtain ⟨stands, _, _, _, walks, words⟩ :=
    faithful_minimize toAutomaton_asThenBs [.eliminate] .singlePass
  have left := (stands (.simple "a") start).2
  have alike := walks (.simple "a") start
  rw [show Stage.chain [.eliminate] asThenBs.collapse = a from rfl, logged] at left alike
  refine ⟨general, logged, fun stays => ?_, alike, words⟩
  exact absurd (left.mpr stays) (by decide)

end Automaton

end Determinize
