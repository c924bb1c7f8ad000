import Determinize.Proofs.Minimality
import Determinize.Proofs.Quotient
import Determinize.Proofs.Resumption

/-!
The modes of merging by their strength. However states were merged, the states left by the merging of
classes are sent to different ones, so no other merges leave fewer (`Refined.size_le`). Merging classes
at the end therefore comes to as many states as merging them at once, and it finds nothing to merge where
it was done before (`eq_start_of_refined`).
-/

namespace Determinize

namespace Reduction

variable {a : Automaton} {m n : Reduction} {s t r k : State}

/-! ### Sweeps only add merges -/

theorem size_le_of_prefix (reachable : Reachable a m) (other : Reachable a n)
    (more : m.merges <+: n.merges) :
    (n.toAutomaton a).states.size ≤ (m.toAutomaton a).states.size := by
  have first := reachable.length_merges_add_size
  have second := other.length_merges_add_size
  have longer := more.length_le
  omega

/-- Sweeping until nothing is merged begins with one sweep, as there is at least one state. -/
theorem merges_singlePass_prefix (declared : a.Declared) :
    (reduce a .singlePass).merges <+: (reduce a .fixpoint).merges := by
  obtain ⟨limit, size⟩ := Nat.exists_eq_add_one.mpr (List.length_pos_of_mem declared.initial)
  show ((start a).sweep a).merges <+: (sweeps a a.states.toList.length (start a)).merges
  rw [size, sweeps]
  split
  · exact List.prefix_refl _
  · exact merges_prefix_of_steps steps_sweeps

/-! ### Refined tables -/

/-- No reachable table has fewer states than a refined one. -/
theorem Refined.size_le (refined : Refined a m) (declared : a.Declared) (other : Reachable a n) :
    (m.toAutomaton a).states.size ≤ (n.toAutomaton a).states.size := by
  refine UniqueList.size_le_of_map (f := representative n.merges) (fun s member => ?_)
    fun s first t second same => ?_
  · have live := other.isLive_representative (mem_states_toAutomaton.mp member).1
    exact mem_states_toAutomaton.mpr ⟨(other.isLive_iff.mp live).1, live⟩
  · -- states with one representative are alike, so they are one state, or the initial state and the
    -- sink; but these two are their own representatives
    obtain ⟨present, live⟩ := mem_states_toAutomaton.mp first
    obtain ⟨present', live'⟩ := mem_states_toAutomaton.mp second
    have ends : a.chart.outcome? s = a.chart.outcome? t := by
      rw [← other.outcome?_representative, same, other.outcome?_representative]
    have initial : representative n.merges a.initial = a.initial :=
      (other.representative_eq_self_iff declared.initial).mpr (other.isLive_initial declared)
    have dead : ∀ s ∈ a.states, s = .dead → representative n.merges s = s := fun s there sink =>
      (other.representative_eq_self_iff there).mpr (sink ▸ other.isLive_dead (sink ▸ there))
    obtain equal | ⟨rfl, sink⟩ | ⟨sink, rfl⟩ := refined s t live live' ends
    · exact equal
    · rwa [initial, dead t present' sink] at same
    · rwa [initial, dead s present sink] at same

/-- Where all states are told apart, nothing is merged. -/
theorem eq_start_of_refined (refined : Refined a (start a)) (reachable : Reachable a m) :
    m = start a := by
  induction reachable with
  | start => rfl
  | remove _ removable keeps different notInitial notDead same ih =>
    rw [ih] at removable keeps
    obtain equal | ⟨initial, _⟩ | ⟨dead, _⟩ := refined _ _ removable keeps same
    · exact absurd equal different
    · exact absurd initial notInitial
    · exact absurd dead notDead

/-! ### Merging again -/

/-- Merging classes after other merges comes to as many states as merging them at once. -/
theorem size_refine_toAutomaton (declared : a.Declared) (reachable : Reachable a m) :
    ((m.toAutomaton a).minimize .refine).states.size = (a.minimize .refine).states.size := by
  have declared' := reachable.declared_toAutomaton declared
  have again := reachable_reduce declared' .refine
  have refined : Refined a (m.append (reduce (m.toAutomaton a) .refine)) := by
    intro s t first second same
    refine refined_reduce declared' s t first second ?_
    rwa [reachable.outcome?_toAutomaton declared (isLive_of_resumed again first),
      reachable.outcome?_toAutomaton declared (isLive_of_resumed again second)]
  rw [Automaton.minimize_eq declared, Automaton.minimize_eq declared',
    ← toAutomaton_append declared reachable again]
  apply Nat.le_antisymm
  · exact refined.size_le declared (reachable_reduce declared .refine)
  · exact (refined_reduce declared).size_le declared (reachable.append declared again)

/-! ### Where nothing is merged -/

theorem transitions_start (declared : a.Declared) (deterministic : a.isDeterministic = true)
    {earlier ts : List Transition} (split : a.transitions = earlier.reverse ++ ts) :
    (start a).transitions earlier ts = ts := by
  induction ts generalizing earlier with
  | nil => rfl
  | cons t rest ih =>
    have member : t ∈ a.transitions := split ▸ List.mem_append_right _ List.mem_cons_self
    obtain ⟨single, apart⟩ := Automaton.isDeterministic_iff.mp deterministic
    obtain ⟨x, d, symbol, only⟩ := Transition.isSingle_iff.mp (single t member)
    -- the transition is the first of its state and letter, so the table has its destination
    have first : (earlier.any fun e => e.leaves t.source t.symbol) = false := by
      rw [split, List.pairwise_append] at apart
      refine List.any_eq_false.mpr fun e before => ?_
      rw [Bool.not_eq_true, Transition.leaves_eq_false_iff]
      exact apart.2.2 e (List.mem_reverse.mpr before) t List.mem_cons_self
    have next : (start a).next? t.source x = some d := by
      have live : (start a).isLive t.source = true :=
        isLive_start.mpr (declared.transitions t member).source
      rw [Reachable.start.next?_eq declared live, (Automaton.nextState?_eq_some_iff deterministic).mpr
        ⟨t, member, rfl, symbol, only ▸ SortedSet.mem_singleton.mpr rfl⟩]
      rfl
    have more : a.transitions = (t :: earlier).reverse ++ rest := by
      rw [split, List.reverse_cons, List.append_assoc]
      rfl
    rw [transitions, ih more, first]
    simp only [symbol, Symbol.letter?, Option.bind_some, next]
    rw [← symbol, ← only]
    rfl

theorem toAutomaton_start (declared : a.Declared) (deterministic : a.isDeterministic = true) :
    (start a).toAutomaton a = a := by
  have all : ∀ l : UniqueList State, (∀ s ∈ l, s ∈ a.states) → l.filter (start a).isLive = l := by
    intro l inside
    apply UniqueList.eq_of_toList_eq
    exact List.filter_eq_self.mpr fun s member => isLive_start.mpr (inside s member)
  rw [toAutomaton, all a.finals declared.finals, all a.states fun _ => id,
    transitions_start declared deterministic (List.nil_append _).symm]

end Reduction

namespace Automaton

open Reduction (reduce)

variable {a : Automaton} {p : Parts} {kind : Kind} {mode mode' : MergeMode} {n : Nat}

theorem size_modes (declared : a.Declared) :
    (a.minimize .refine).states.size ≤ (a.minimize .fixpoint).states.size ∧
      (a.minimize .fixpoint).states.size ≤ (a.minimize .singlePass).states.size ∧
      (a.minimize .singlePass).states.size ≤ a.states.size := by
  have reachable := Reduction.reachable_reduce declared
  rw [minimize_eq declared, minimize_eq declared, minimize_eq declared]
  refine ⟨?_, ?_, ?_⟩
  · exact (Reduction.refined_reduce declared).size_le declared (reachable .fixpoint)
  · exact Reduction.size_le_of_prefix (reachable .singlePass) (reachable .fixpoint)
      (Reduction.merges_singlePass_prefix declared)
  · exact List.length_filter_le _ _

/-- Once its classes are merged, an automaton stays as it is in any mode. -/
theorem minimize_minimize_refine (declared : a.Declared) (mode : MergeMode) :
    (a.minimize .refine).minimize mode = a.minimize .refine := by
  have declared' : (a.minimize .refine).Declared := declared_minimize declared
  have refined : Reduction.Refined (a.minimize .refine) (.start (a.minimize .refine)) :=
    fun s t first second => eq_or_spared_of_refined declared (Reduction.isLive_start.mp first)
      (Reduction.isLive_start.mp second)
  have same := Reduction.eq_start_of_refined refined (Reduction.reachable_reduce declared' mode)
  rw [minimize_eq declared' mode, same,
    Reduction.toAutomaton_start declared' (isDeterministic_minimize declared .refine)]

/-- The log has one record of the number of merged states, and it is that of the states gone. -/
theorem minimized_mem_iff (declared : a.Declared) :
    Event.minimized mode' n ∈ a.minimizeEvents mode ↔
      mode' = mode ∧ n + (a.minimize mode).states.size = a.states.size := by
  have counted := (Reduction.reachable_reduce declared mode).length_merges_add_size
  have others : Event.minimized mode' n ∉
      (reduce a mode).merges.map fun m => .merging m.removed m.kept := fun member => by
    obtain ⟨_, _, same⟩ := List.mem_map.mp member
    cases same
  rw [minimizeEvents_eq declared, minimize_eq declared, List.mem_append, or_iff_right others, List.mem_singleton, Event.minimized.injEq]
  refine and_congr_right fun _ => ?_
  rw [← counted]
  exact Nat.add_right_cancel_iff.symm

theorem last_minimizeEvents (declared : a.Declared) :
    ∃ n, n + (a.minimize mode).states.size = a.states.size ∧
      (a.minimizeEvents mode).getLast?.map Event.text =
        some (mode.title ++ " minimization merged " ++ toString n ++ " states") := by
  have last : (a.minimizeEvents mode).getLast? =
      some (.minimized mode (reduce a mode).merges.length) := by
    rw [minimizeEvents_eq declared, List.getLast?_concat]
  refine ⟨(reduce a mode).merges.length, ?_, congrArg (Option.map Event.text) last⟩
  rw [minimize_eq declared]
  exact (Reduction.reachable_reduce declared mode).length_merges_add_size

/-- The merging of classes leaves no more states than sweeping until nothing is merged, and that no more
than one sweep. After any mode it comes to as many states as at once, and after it no mode changes
anything. The last line of the log tells the mode and how many states are gone. -/
theorem confluent_minimize (built : p.toAutomaton kind = .ok a) (stages : List Stage) :
    let a := Stage.chain stages a
    let r := a.minimize
    ((r .refine).states.size ≤ (r .fixpoint).states.size ∧
      (r .fixpoint).states.size ≤ (r .singlePass).states.size ∧
      (r .singlePass).states.size ≤ a.states.size) ∧
    (∀ mode, ((r mode).minimize .refine).states.size = (r .refine).states.size) ∧
    (∀ mode, (r .refine).minimize mode = r .refine) ∧
    ∀ mode, (∀ mode' n, Event.minimized mode' n ∈ a.minimizeEvents mode ↔
        mode' = mode ∧ n + (r mode).states.size = a.states.size) ∧
      ∃ n, n + (r mode).states.size = a.states.size ∧
        (a.minimizeEvents mode).getLast?.map Event.text =
          some (mode.title ++ " minimization merged " ++ toString n ++ " states") := by
  intro a r
  have declared : a.Declared :=
    (Stage.wellFormed_chain (Parts.wellFormed_of_toAutomaton built) stages).toDeclared
  refine ⟨size_modes declared, fun mode => ?_, minimize_minimize_refine declared,
    fun mode => ⟨fun _ _ => minimized_mem_iff declared, last_minimizeEvents declared⟩⟩
  have again := Reduction.size_refine_toAutomaton declared (Reduction.reachable_reduce declared mode)
  rwa [← minimize_eq declared] at again

/-- One sweep misses that `s` and `t` agree once `u` is merged into `v`. No sweep finds that `x` and `y`
are alike, each of which leads to the other. -/
def layers : Parts where
  initial := .simple "s"
  finals := [.simple "u", .simple "v", .simple "x", .simple "y"]
  states := [.simple "s", .simple "t", .simple "u", .simple "v", .simple "x", .simple "y"]
  alphabet := ["a"]
  transitions := [⟨.simple "s", .letter "a", .singleton (.simple "u")⟩,
    ⟨.simple "t", .letter "a", .singleton (.simple "v")⟩,
    ⟨.simple "x", .letter "a", .singleton (.simple "y")⟩,
    ⟨.simple "y", .letter "a", .singleton (.simple "x")⟩]

theorem confluent_minimize_layers :
    let a := Stage.chain [] layers.collapse
    (a.minimize .refine).states.size = 3 ∧ (a.minimize .fixpoint).states.size = 4 ∧
      (a.minimize .singlePass).states.size = 5 ∧ a.states.size = 6 ∧
      ((a.minimize .singlePass).minimize .refine).states.size = 3 ∧
      (a.minimize .refine).minimize .singlePass = a.minimize .refine ∧
      Event.minimized .fixpoint 2 ∈ a.minimizeEvents .fixpoint := by
  intro a
  have built : layers.toAutomaton .deterministic = .ok layers.collapse := by decide
  have refined : (a.minimize .refine).states.size = 3 := by decide
  have swept : (a.minimize .fixpoint).states.size = 4 := by decide
  obtain ⟨_, again, still, logged⟩ := confluent_minimize built []
  refine ⟨refined, swept, by decide, by decide, (again .singlePass).trans refined,
    still .singlePass, ((logged .fixpoint).1 .fixpoint 2).mpr ⟨rfl, ?_⟩⟩
  rw [swept]
  decide

end Automaton

end Determinize
