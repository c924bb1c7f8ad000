import Determinize.Proofs.Elimination
import Determinize.Proofs.Merging

/-!
The automaton of a table that merging comes to. It is deterministic and well-formed, its next states
are those of the table, and the walks from each of its states end as they did before the merges.
-/

namespace Determinize

open Relation (ReflTransGen)

namespace Reduction

variable {a : Automaton} {m : Reduction} {s t : State} {x : String} {w : List String}

def move? (m : Reduction) (t : Transition) : Option Transition :=
  (t.symbol.letter?.bind (m.next? t.source)).map fun d => ⟨t.source, t.symbol, .singleton d⟩

theorem mem_transitions_cons {earlier rest : List Transition} {t u : Transition} :
    u ∈ m.transitions earlier (t :: rest) ↔
      (∀ e ∈ earlier, e.Apart t) ∧ m.move? t = some u ∨ u ∈ m.transitions (t :: earlier) rest := by
  have first : (earlier.any fun e => e.leaves t.source t.symbol) = false ↔
      ∀ e ∈ earlier, e.Apart t := by
    rw [List.any_eq_false]
    simp only [Bool.not_eq_true, Transition.leaves_eq_false_iff]
  rw [transitions, ← first, move?]
  cases earlier.any fun e => e.leaves t.source t.symbol with
  | true => simp
  | false =>
    cases t.symbol.letter?.bind (m.next? t.source) with
    | none => simp
    | some d => simp [eq_comm]

/-- A transition is a move of the table. -/
def Moves (m : Reduction) (u : Transition) : Prop :=
  ∃ x d, u = ⟨u.source, .letter x, .singleton d⟩ ∧ m.next? u.source x = some d

theorem move?_eq_some_iff {t u : Transition} :
    m.move? t = some u ↔ m.Moves u ∧ t.source = u.source ∧ t.symbol = u.symbol := by
  rw [move?, Option.map_eq_some_iff]
  constructor
  · rintro ⟨d, next, rfl⟩
    obtain ⟨x, letter, next⟩ := Option.bind_eq_some_iff.mp next
    have symbol : t.symbol = .letter x := by
      cases h : t.symbol with
      | epsilon => simp [h, Symbol.letter?] at letter
      | letter y => simpa [h, Symbol.letter?] using letter
    exact ⟨⟨x, d, by rw [symbol], next⟩, rfl, rfl⟩
  · intro h
    obtain ⟨⟨x, d, shape, next⟩, source, symbol⟩ := h
    have letter : u.symbol = .letter x := congrArg Transition.symbol shape
    refine ⟨d, ?_, ?_⟩
    · rw [source, symbol, letter]
      exact next
    · rw [source, symbol, letter]
      exact shape.symm

/-- The moves of the table are listed where the first transition of their state and letter stands. -/
theorem mem_transitions {earlier ts : List Transition} {u : Transition} :
    u ∈ m.transitions earlier ts ↔
      m.Moves u ∧ (∀ e ∈ earlier, e.Apart u) ∧
        ∃ t ∈ ts, t.source = u.source ∧ t.symbol = u.symbol := by
  induction ts generalizing earlier with
  | nil => simp [transitions]
  | cons t rest ih =>
    rw [mem_transitions_cons, ih, move?_eq_some_iff, List.forall_mem_cons, List.exists_mem_cons_iff]
    by_cases same : t.source = u.source ∧ t.symbol = u.symbol
    · -- the move stands here or not at all: `t` hides what comes later
      obtain ⟨source, symbol⟩ := same
      have near : ¬ t.Apart u := fun apart => apart.elim (absurd source) (absurd symbol)
      have alike : ∀ e : Transition, e.Apart t ↔ e.Apart u := by
        intro e
        rw [Transition.Apart, Transition.Apart, source, symbol]
      simp only [alike, source, symbol, near, false_and, and_false, or_false, and_self, true_or,
        and_true]
      exact and_comm
    · have apart : t.Apart u := Decidable.not_and_iff_not_or_not.mp same
      simp only [same, apart, and_false, false_or, true_and]

theorem pairwise_transitions (earlier ts : List Transition) :
    (m.transitions earlier ts).Pairwise Transition.Apart := by
  induction ts generalizing earlier with
  | nil => exact .nil
  | cons t rest ih =>
    rw [transitions]
    split
    · exact ih _
    · split
      · refine List.pairwise_cons.mpr ⟨fun u member => ?_, ih _⟩
        exact (mem_transitions.mp member).2.1 t List.mem_cons_self
      · exact ih _

theorem isDeterministic_toAutomaton : (m.toAutomaton a).isDeterministic = true := by
  refine Automaton.isDeterministic_iff.mpr ⟨fun u member => ?_, pairwise_transitions _ _⟩
  obtain ⟨⟨x, d, shape, _⟩, _⟩ := mem_transitions.mp member
  exact Transition.isSingle_iff.mpr ⟨x, d, congrArg Transition.symbol shape,
    congrArg Transition.destinations shape⟩

theorem mem_states_toAutomaton :
    s ∈ (m.toAutomaton a).states ↔ s ∈ a.states ∧ m.isLive s = true := List.mem_filter

theorem mem_finals_toAutomaton :
    s ∈ (m.toAutomaton a).finals ↔ s ∈ a.finals ∧ m.isLive s = true := List.mem_filter

namespace Reachable

variable (reachable : Reachable a m)

include reachable

/-- The moves of the table are the transitions: each comes of one with its state and letter. -/
theorem mem_transitions_toAutomaton (declared : a.Declared) {u : Transition} :
    u ∈ (m.toAutomaton a).transitions ↔ m.Moves u := by
  refine mem_transitions.trans ⟨And.left, fun move => ⟨move, fun _ => nofun, ?_⟩⟩
  obtain ⟨x, d, shape, next⟩ := move
  rw [reachable.next?_eq declared (isLive_of_next? next)] at next
  obtain ⟨_, before, _⟩ := Option.map_eq_some_iff.mp next
  obtain ⟨t, listed, source, symbol, _⟩ := Automaton.step_of_nextState? before
  exact ⟨t, listed, source, symbol.trans (congrArg Transition.symbol shape).symm⟩

theorem nextState?_toAutomaton (declared : a.Declared) :
    (m.toAutomaton a).nextState? s (.letter x) = m.next? s x := by
  apply Option.ext
  intro d
  rw [Automaton.nextState?_eq_some_iff isDeterministic_toAutomaton]
  constructor
  · rintro ⟨u, member, rfl, symbol, target⟩
    obtain ⟨y, d', shape, next⟩ := (reachable.mem_transitions_toAutomaton declared).mp member
    have letter : u.symbol = .letter y := congrArg Transition.symbol shape
    rw [symbol] at letter
    cases letter
    rw [congrArg Transition.destinations shape, SortedSet.mem_singleton] at target
    rwa [target]
  · intro next
    exact ⟨⟨s, .letter x, .singleton d⟩,
      (reachable.mem_transitions_toAutomaton declared).mpr ⟨x, d, rfl, next⟩, rfl, rfl,
      SortedSet.mem_singleton.mpr rfl⟩

omit reachable in
theorem isFinal_toAutomaton (live : m.isLive s = true) :
    (m.toAutomaton a).isFinal s = a.isFinal s := by
  rw [Bool.eq_iff_iff, Automaton.isFinal_iff, Automaton.isFinal_iff, mem_finals_toAutomaton]
  exact and_iff_left live

/-- Merging changes no walk's end. -/
theorem outcome?_toAutomaton (declared : a.Declared) (live : m.isLive s = true) :
    (m.toAutomaton a).chart.outcome? s = a.chart.outcome? s := by
  have kept : ∀ s t, m.isLive s = true ∧ a.chart.outcome? s = a.chart.outcome? t →
      (m.toAutomaton a).isFinal s = a.isFinal t := by
    rintro s t ⟨live, same⟩
    rw [isFinal_toAutomaton live]
    exact Chart.isFinal_eq same
  refine Chart.outcome?_eq_of_kept kept (fun s t x related => ?_) ⟨live, rfl⟩
  obtain ⟨live, same⟩ := related
  have next : (m.toAutomaton a).chart.next? s x =
      (a.chart.next? s x).map (representative m.merges) :=
    (reachable.nextState?_toAutomaton declared).trans (reachable.next?_eq declared live)
  rw [next]
  refine Chart.rel_map_left (Chart.next?_rel same x) fun u v before ends => ?_
  have declaredNext := Automaton.mem_states_of_nextState? declared before
  exact ⟨reachable.isLive_representative declaredNext, reachable.outcome?_representative.trans ends⟩

theorem declared_toAutomaton (declared : a.Declared) : (m.toAutomaton a).Declared := by
  refine ⟨fun s member => declared.valid s (mem_states_toAutomaton.mp member).1, ?_,
    fun s member => ?_, declared.letters, fun u member => ?_⟩
  · exact mem_states_toAutomaton.mpr ⟨declared.initial, reachable.isLive_initial declared⟩
  · obtain ⟨accepted, live⟩ := mem_finals_toAutomaton.mp member
    exact mem_states_toAutomaton.mpr ⟨declared.finals s accepted, live⟩
  · obtain ⟨⟨x, d, shape, next⟩, _, t, old, source, symbol⟩ := mem_transitions.mp member
    have live := isLive_of_next? next
    obtain ⟨d', before, rfl⟩ := Option.map_eq_some_iff.mp (reachable.next?_eq declared live ▸ next)
    have target := reachable.isLive_representative (Automaton.mem_states_of_nextState? declared before)
    rw [congrArg Transition.symbol shape] at symbol
    refine ⟨mem_states_toAutomaton.mpr ⟨(reachable.isLive_iff.mp live).1, live⟩, ?_, ?_, ?_⟩
    · exact ⟨_, by rw [congrArg Transition.destinations shape]; exact SortedSet.mem_singleton.mpr rfl⟩
    · intro d member
      rw [congrArg Transition.destinations shape, SortedSet.mem_singleton] at member
      rw [member]
      exact mem_states_toAutomaton.mpr ⟨(reachable.isLive_iff.mp target).1, target⟩
    · intro y letter
      rw [congrArg Transition.symbol shape] at letter
      cases letter
      exact (declared.transitions t old).letter x symbol

/-- The automaton of the table is well-formed. Its sink leads to no final state, as a walk that did so
would have done so before the merges. -/
theorem wellFormed_toAutomaton (wellFormed : a.WellFormed) : (m.toAutomaton a).WellFormed := by
  have declared := reachable.declared_toAutomaton wellFormed.toDeclared
  refine ⟨declared, .inr ⟨isDeterministic_toAutomaton, fun dead s path accepted => ?_⟩⟩
  have live := (mem_states_toAutomaton.mp dead).2
  obtain ⟨w, path⟩ := Automaton.exists_spells_of_leads path
  have walked := (Automaton.spells_iff_walk? isDeterministic_toAutomaton).mp path
  have ends : a.chart.outcome? .dead w = some true := by
    rw [← reachable.outcome?_toAutomaton wellFormed.toDeclared live, Chart.outcome?, walked]
    exact congrArg some (Automaton.isFinal_iff.mpr accepted)
  obtain ⟨f, walked, final⟩ := Option.map_eq_some_iff.mp ends
  exact wellFormed.dead_rejects (Automaton.leads_of_walk? walked) (Automaton.isFinal_iff.mp final)

/-! ### Counting merges -/

/-- Every merge removes one state. -/
theorem length_merges_add_size :
    m.merges.length + (m.toAutomaton a).states.size = a.states.size := by
  induction reachable with
  | start =>
    have all : a.states.toList.filter (Reduction.start a).isLive = a.states.toList :=
      List.filter_eq_self.mpr fun s member => isLive_start.mpr member
    show 0 + (a.states.toList.filter (Reduction.start a).isLive).length = a.states.toList.length
    rw [all, Nat.zero_add]
  | @remove m r k reachable live _ _ _ _ _ ih =>
    have present : r ∈ (m.toAutomaton a).states.toList :=
      mem_states_toAutomaton.mpr ⟨(reachable.isLive_iff.mp live).1, live⟩
    have rest : ((m.remove r k).toAutomaton a).states.toList =
        (m.toAutomaton a).states.toList.erase r := by
      rw [(m.toAutomaton a).states.nodup.erase_eq_filter]
      show a.states.toList.filter (m.remove r k).isLive =
        (a.states.toList.filter m.isLive).filter (· != r)
      rw [List.filter_filter]
      refine List.filter_congr fun s _ => ?_
      rw [Bool.eq_iff_iff, isLive_remove_iff, Bool.and_eq_true, bne_iff_ne]
      exact and_comm
    have one : ((m.remove r k).toAutomaton a).states.size + 1 = (m.toAutomaton a).states.size := by
      show ((m.remove r k).toAutomaton a).states.toList.length + 1 = _
      rw [rest]
      exact List.length_erase_add_one present
    have longer : (m.remove r k).merges.length = m.merges.length + 1 := List.length_append
    omega

theorem length_rows : m.rows.length = (m.toAutomaton a).states.size := by
  have rows : m.rows.length = (survivors a m.merges).length := by
    rw [congrArg Reduction.rows reachable.eq_table, table, List.length_map]
  rw [rows]
  refine congrArg List.length (List.filter_congr fun s member => ?_)
  rw [Bool.eq_iff_iff, reachable.isLive_iff, decide_eq_true_iff]
  exact (and_iff_right (UniqueList.mem_toList.mp member)).symm

theorem length_merges_add_rows : m.merges.length + m.rows.length = a.states.size := by
  rw [reachable.length_rows, reachable.length_merges_add_size]

/-- The initial state is always there. -/
theorem length_rows_pos (declared : a.Declared) : 0 < m.rows.length := by
  rw [reachable.length_rows]
  exact List.length_pos_of_mem
    (mem_states_toAutomaton.mpr ⟨declared.initial, reachable.isLive_initial declared⟩)

end Reachable

end Reduction

end Determinize
