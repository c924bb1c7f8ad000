import Determinize.Proofs.Strength

/-!
What the rounds of partition refinement do. A round numbers the classes anew, and how many there are is all
that says whether it was the last. That is enough: a round only divides classes (`Numbered.refines_split`),
so one that makes as many as there were has left each of them as it was (`refinement_stabilizes`).
-/

namespace Determinize

/-- The class numbers on the working copy after some rounds, and how many classes there are, which is
counted apart. -/
def WorkingCopy.numbering (w : WorkingCopy) (i : Nat) : List Nat × Nat :=
  (fun state : List Nat × Nat =>
    let next := w.round w.live state.1
    (next.classes, next.numbers.length))^[i] (w.finality, w.count w.finality)

namespace Reduction

variable {a : Automaton} {p : Partition} {s t : State}

/-- No class is empty, and every state of a list is in one class, once. -/
structure IsPartition (p : Partition) (states : List State) : Prop where
  filled : [] ∉ p
  perm : p.flatten.Perm states

/-- Every class of the first partition is part of a class of the second. -/
def Refines (finer coarser : Partition) : Prop :=
  ∀ members ∈ finer, ∃ wider ∈ coarser, members ⊆ wider

theorem isPartition_divide {κ : Type} [DecidableEq κ] {key : State → κ} {states : List State}
    (nodup : states.Nodup) : IsPartition (divide key states) states := by
  refine ⟨fun empty => ?_, ?_⟩
  · obtain ⟨s, member, none⟩ := mem_divide.mp empty
    exact List.filter_eq_nil_iff.mp none.symm s member (decide_eq_true rfl)
  · have classes : ∀ members ∈ divide key states, members.Nodup := by
      intro members listed
      obtain ⟨s, _, rfl⟩ := mem_divide.mp listed
      exact nodup.filter _
    have distinct := List.nodup_flatten.mpr ⟨classes, pairwise_disjoint_divide⟩
    refine (List.perm_ext_iff_of_nodup distinct nodup).mpr fun s => ?_
    rw [List.mem_flatten]
    refine ⟨?_, exists_mem_divide⟩
    rintro ⟨members, listed, member⟩
    obtain ⟨t, _, rfl⟩ := mem_divide.mp listed
    exact List.mem_of_mem_filter member

namespace Numbered

variable (numbered : Numbered a p)

include numbered

theorem isPartition : IsPartition p a.states.toList := by
  have divided : IsPartition (divide (classOf p) a.states.toList) a.states.toList :=
    isPartition_divide a.states.nodup
  rwa [numbered] at divided

theorem refines_split : Refines ((start a).split p) p := by
  intro members listed
  rw [split_start] at listed
  obtain ⟨s, present, rfl⟩ := mem_divide.mp listed
  have wider : (a.states.toList.filter fun t => decide (classOf p t = classOf p s)) ∈
      divide (classOf p) a.states.toList := mem_divide.mpr ⟨s, present, rfl⟩
  rw [numbered] at wider
  refine ⟨_, wider, fun t member => ?_⟩
  obtain ⟨present', same⟩ := List.mem_filter.mp member
  have old : classOf p t = classOf p s := congrArg Prod.fst (of_decide_eq_true same)
  exact List.mem_filter.mpr ⟨present', decide_eq_true old⟩

end Numbered

/-! ### Class numbers -/

theorem numbering_succ {w : WorkingCopy} {i : Nat} : w.numbering (i + 1) =
    ((w.round w.live (w.numbering i).1).classes, (w.round w.live (w.numbering i).1).numbers.length) :=
  Function.iterate_succ_apply' _ _ _

/-- The numbers that a round gives are those of the classes, and the count is that of the classes. -/
theorem numbering_copy (declared : a.Declared) (i : Nat) :
    Labels a (rounds a i) ((copy a (start a)).numbering i).1 ∧
      ((copy a (start a)).numbering i).2 = (rounds a i).length := by
  induction i with
  | zero => exact ⟨labels_finality, count_finality⟩
  | succ i ih =>
    obtain ⟨classes, count⟩ := round_copy declared ih.1
    rw [numbering_succ, rounds_succ, classes, count]
    exact ⟨labels_map_classOf, rfl⟩

end Reduction

namespace Automaton

open Reduction (start rounds IsPartition Refines Stable)

variable {a : Automaton} {p : Parts} {kind : Kind}

/-- A round of refinement divides classes and so never makes them fewer. The first round that makes as many
as there were is the last one: there are at most as many rounds as states, and a higher limit adds none. A
round that makes as many classes as there were leaves each of them as it was, and they are stable. On the
working copy the numbers given in a round tell these classes apart, the count kept with them is right from
the start, and the rounds end by comparing it. -/
theorem refinement_stabilizes (built : p.toAutomaton kind = .ok a) (stages : List Stage) :
    let a := Stage.chain stages a
    let w := WorkingCopy.start a
    (∀ i, IsPartition (rounds a i) a.states.toList ∧ Refines (rounds a (i + 1)) (rounds a i) ∧
      (rounds a i).length ≤ (rounds a (i + 1)).length ∧
      ((rounds a (i + 1)).length = (rounds a i).length →
        rounds a (i + 1) = rounds a i ∧ Stable a (rounds a i)) ∧
      groupBy (fun j => (w.numbering i).1.getD j 0) w.live = (rounds a i).map (List.map a.place) ∧
      (w.numbering i).2 = (rounds a i).length) ∧
    ∃ k < a.states.size,
      (∀ i < k, (rounds a (i + 1)).length ≠ (rounds a i).length) ∧
      (rounds a (k + 1)).length = (rounds a k).length ∧
      (start a).classes = rounds a (k + 1) ∧
      ∀ limit, k < limit → (start a).refine limit (start a).finality = rounds a (k + 1) ∧
        w.rounds w.live limit w.finality (w.count w.finality) = some (w.numbering (k + 1)).1 := by
  intro a w
  have declared : a.Declared := Stage.declared_chain built stages
  have copied : w = Reduction.copy a (start a) := Reduction.start_eq_copy declared
  rw [copied]
  refine ⟨fun i => ?_, ?_⟩
  · have numbered : Reduction.Numbered a (rounds a i) := Reduction.numbered_rounds
    rw [Reduction.rounds_succ]
    obtain ⟨labels, count⟩ := Reduction.numbering_copy declared i
    refine ⟨numbered.isPartition, numbered.refines_split, numbered.length_le_split, fun still => ?_,
      labels.groupBy_live numbered, count⟩
    have same := numbered.split_eq_self still
    exact ⟨same, (Reduction.telling_rounds declared).stable declared numbered same⟩
  · obtain ⟨k, small, turns, stands⟩ := Reduction.exists_last_round declared
    refine ⟨k, small, turns, stands, Reduction.classes_eq_rounds small turns stands, ?_⟩
    intro limit enough
    refine ⟨Reduction.refine_eq_iterate enough turns stands, ?_⟩
    have last := (Reduction.round_copy declared (Reduction.numbering_copy declared k).1).1
    have ended := Reduction.rounds_copy declared Reduction.labels_finality enough turns stands
    rw [← Reduction.count_finality] at ended
    rw [Reduction.numbering_succ, last, ended, ← Reduction.rounds, Reduction.rounds_succ]

theorem refinement_stabilizes_layers :
    let a := Stage.chain [] layers.collapse
    let w := WorkingCopy.start a
    Refines (rounds a 1) (rounds a 0) ∧ rounds a 1 ≠ rounds a 0 ∧ rounds a 2 = rounds a 1 ∧
      Stable a [[.simple "s", .simple "t"], [.simple "u", .simple "v"], [.simple "x", .simple "y"]] ∧
      groupBy (fun j => (w.numbering 1).1.getD j 0) w.live = [[0, 1], [2, 3], [4, 5]] ∧
      ∃ k < 6, (start a).refine 100 (start a).finality = rounds a (k + 1) ∧
        w.rounds w.live 100 w.finality (w.count w.finality) = some (w.numbering (k + 1)).1 := by
  intro a w
  have built : layers.toAutomaton .deterministic = .ok layers.collapse := by decide
  obtain ⟨round, k, small, _, _, _, ends⟩ := refinement_stabilizes built []
  obtain ⟨_, _, _, still, groups, _⟩ := round 1
  obtain ⟨same, stable⟩ := still (by decide)
  exact ⟨(round 0).2.1, by decide, same, stable, groups.trans (by decide), k, small,
    ends 100 (small.trans (by decide))⟩

end Automaton

end Determinize
