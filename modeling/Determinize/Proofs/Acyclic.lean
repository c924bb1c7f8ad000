import Determinize.Proofs.Fixpoint

/-!
Automata whose only cycles are loops of the sink. Their states have heights that every other move lowers
(`Falls`). Merging states whose rows agree keeps such heights, so where sweeps find nothing more to merge,
states that no word tells apart are the same by induction on their heights (`refined_fixpoint`). Sweeping
then leaves as few states as the merging of classes does.
-/

namespace Determinize

open Relation (ReflTransGen)

/-- A state from which there is no way back reaches fewer states. -/
theorem Graph.length_reach_lt {g : Graph} {s t : State} (edge : g.Edge s t)
    (oneWay : ¬ ReflTransGen g.Edge t s) :
    (g.reach t).toList.length < (g.reach s).toList.length := by
  have fresh : (s :: (g.reach t).toList).Nodup :=
    List.nodup_cons.mpr ⟨fun back => oneWay (mem_reach.mp back), SortedSet.nodup _⟩
  have subset : s :: (g.reach t).toList ⊆ (g.reach s).toList := by
    intro u member
    rcases List.mem_cons.mp member with rfl | later
    · exact mem_reach.mpr .refl
    · exact mem_reach.mpr (.head edge (mem_reach.mp later))
  exact (List.subperm_of_subset fresh subset).length_le

/-- Every transition from which a way leads back is a loop of the sink. -/
def Automaton.OnlySinkLoops (a : Automaton) : Prop :=
  ∀ s t, a.Leads s t → ReflTransGen a.Leads t s → s = .dead ∧ t = .dead

instance (a : Automaton) : Decidable a.OnlySinkLoops :=
  let g := Graph.ofTransitions a.transitions
  decidable_of_iff (∀ e ∈ g.edges, (g.reach e.2).contains e.1 = true → e.1 = .dead ∧ e.2 = .dead) <| by
    simp only [SortedSet.contains_iff, Graph.mem_reach, Prod.forall]
    rfl

namespace Reduction

variable {a : Automaton} {m n : Reduction} {s t r k : State} {height : State → Nat}

/-- Every move of the table lowers the height, but for the loops of the sink. -/
def Falls (m : Reduction) (height : State → Nat) : Prop :=
  ∀ s x d, m.next? s x = some d → height d < height s ∨ s = .dead ∧ d = .dead

theorem falls_start (declared : a.Declared) (loops : a.OnlySinkLoops) :
    (start a).Falls fun s => ((Graph.ofTransitions a.transitions).reach s).toList.length := by
  intro s x d next
  rw [Reachable.start.next?_eq declared (isLive_of_next? next)] at next
  obtain ⟨u, before, rfl⟩ := Option.map_eq_some_iff.mp next
  have leads : a.Leads s u := Automaton.leads_iff_step.mpr ⟨_, Automaton.step_of_nextState? before⟩
  by_cases back : ReflTransGen a.Leads u s
  · exact .inr (loops s u leads back)
  · exact .inl (Graph.length_reach_lt leads back)

/-- What leads to the state that goes leads to the one that stays, so this takes the lesser height of the
two. Its own moves fall below that too, as the other row has the same ones. -/
theorem Falls.remove (falls : m.Falls height) (agree : m.Agree r k) (notDead : r ≠ .dead) :
    (m.remove r k).Falls fun s => if s = k then min (height k) (height r) else height s := by
  intro s x d next
  rw [next?_remove (isLive_remove_iff.mp (isLive_of_next? next)).2] at next
  obtain ⟨u, before, target⟩ := Option.map_eq_some_iff.mp next
  have fall := falls s x u before
  have below : s = k → height u < height r := by
    rintro rfl
    rw [← agree.next?_eq] at before
    exact (falls r x u before).resolve_right fun loop => notDead loop.1
  by_cases removed : u = r
  · rw [if_pos removed] at target
    subst removed target
    have fall := fall.resolve_right fun loop => notDead loop.2
    by_cases same : s = k
    · have := below same
      omega
    · simp only [if_neg same, if_true]
      omega
  · rw [if_neg removed] at target
    subst target
    rcases fall with lower | loop
    · by_cases same : s = k
      · subst same
        have := below rfl
        have other : u ≠ s := fun equal => by
          rw [equal] at lower
          omega
        simp only [if_neg other, if_true]
        omega
      · simp only [if_neg same]
        split
        · rename_i equal
          subst equal
          omega
        · omega
    · exact .inr loop

theorem exists_falls_of_steps (declared : a.Declared) (reachable : Reachable a m)
    (falls : ∃ height, m.Falls height) (steps : ReflTransGen (SweepStep a) m n) :
    ∃ height, n.Falls height := by
  induction steps with
  | refl => exact falls
  | tail before step ih =>
    obtain ⟨height, falls⟩ := ih
    cases step with
    | merge first second agree _ _ notDead =>
      have there := reachable.of_steps declared before
      exact ⟨_, falls.remove ⟨_, _, there.row?_of_mem_rows first, there.row?_of_mem_rows second, agree⟩
        notDead⟩

/-- Where no two rows agree, states whose walks end alike are the same. -/
theorem Falls.eq_of_outcome?_eq (declared : a.Declared) (reachable : Reachable a m)
    (falls : m.Falls height) (apart : ∀ s t, m.Agree s t → s = t) (first : m.isLive s = true)
    (second : m.isLive t = true) (same : a.chart.outcome? s = a.chart.outcome? t) : s = t := by
  induction total : height s + height t using Nat.strong_induction_on generalizing s t with
  | h sum ih =>
    by_contra different
    refine different (apart s t ?_)
    refine (reachable.agree_iff declared first second).mpr ⟨Chart.isFinal_eq same, fun x _ => ?_⟩
    have next := reachable.next?_eq declared first (x := x)
    have next' := reachable.next?_eq declared second (x := x)
    rw [next, next']
    refine Chart.map_eq_of_rel (Chart.next?_rel same x) fun u v before before' ends => ?_
    rw [show a.nextState? s (.letter x) = some u from before] at next
    rw [show a.nextState? t (.letter x) = some v from before'] at next'
    have lower : height (representative m.merges u) + height (representative m.merges v) < sum := by
      -- both states cannot be the sink, so one of the two moves does go down
      rcases falls _ _ _ next with down | ⟨rfl, sink⟩
      · rcases falls _ _ _ next' with down' | ⟨rfl, sink⟩
        · omega
        · rw [sink]
          omega
      · rcases falls _ _ _ next' with down' | ⟨rfl, _⟩
        · rw [sink]
          omega
        · exact absurd rfl different
    refine ih _ lower ?_ ?_ ?_ rfl
    · exact reachable.isLive_representative (Automaton.mem_states_of_nextState? declared before)
    · exact reachable.isLive_representative (Automaton.mem_states_of_nextState? declared before')
    · rw [reachable.outcome?_representative, reachable.outcome?_representative]
      exact ends

/-- Sweeps tell apart all that words do. -/
theorem refined_fixpoint (declared : a.Declared) (loops : a.OnlySinkLoops)
    (apart : .dead ∈ a.states → a.initial ≠ .dead →
      a.chart.outcome? a.initial ≠ a.chart.outcome? .dead) : Refined a (reduce a .fixpoint) := by
  intro s t first second same
  have reachable := reachable_reduce declared .fixpoint
  have steps : ReflTransGen (SweepStep a) (start a) (reduce a .fixpoint) := steps_sweeps
  obtain ⟨height, falls⟩ := exists_falls_of_steps declared .start ⟨_, falls_start declared loops⟩ steps
  refine .inl (falls.eq_of_outcome?_eq declared reachable (fun s t agree => ?_) first second same)
  by_contra different
  -- rows that agree and are both kept are those of the initial state and the sink, which words tell apart
  have ends : a.chart.outcome? s = a.chart.outcome? t := by
    obtain ⟨_, _, found, found', rows⟩ := agree
    exact reachable.outcome?_eq_of_agrees declared found found' rows
  have listed := (reachable.isLive_iff.mp agree.isLive).1
  have listed' := (reachable.isLive_iff.mp agree.symm.isLive).1
  obtain equal | ⟨rfl, rfl⟩ | ⟨rfl, rfl⟩ :=
    reachable.eq_or_spared_of_still (sweep_reduce_fixpoint declared) agree
  · exact different equal
  · exact apart listed' different ends
  · exact apart listed (Ne.symm different) ends.symm

end Reduction

namespace Automaton

variable {a : Automaton} {p : Parts} {kind : Kind}

/-- Where all cycles are loops of the sink, and some word tells the initial state from the sink, sweeping
until nothing is merged leaves as few states as the merging of classes. -/
theorem size_fixpoint_eq_size_refine (built : p.toAutomaton kind = .ok a) (stages : List Stage) :
    let a := Stage.chain stages a
    a.OnlySinkLoops →
    (.dead ∈ a.states → a.initial ≠ .dead →
      ∃ w, a.chart.outcome? a.initial w ≠ a.chart.outcome? .dead w) →
    (a.minimize .fixpoint).states.size = (a.minimize .refine).states.size := by
  intro a loops apart
  have declared : a.Declared := Stage.declared_chain built stages
  have refined := Reduction.refined_fixpoint declared loops fun sink different same => by
    obtain ⟨w, differ⟩ := apart sink different
    exact differ (congrFun same w)
  have reachable := Reduction.reachable_reduce declared
  rw [Automaton.minimize_eq declared, Automaton.minimize_eq declared]
  exact Nat.le_antisymm (refined.size_le declared (reachable .refine))
    ((Reduction.refined_reduce declared).size_le declared (reachable .fixpoint))

/-- From `x` and `y` all words lead into the sink, by chains of different lengths. -/
def sinking : Parts where
  initial := .simple "s"
  finals := [.simple "f"]
  states := [.simple "s", .simple "x", .simple "y", .simple "f", .dead]
  alphabet := ["a", "b"]
  transitions := [⟨.simple "s", .letter "a", .singleton (.simple "x")⟩,
    ⟨.simple "s", .letter "b", .singleton (.simple "f")⟩,
    ⟨.simple "x", .letter "a", .singleton (.simple "y")⟩,
    ⟨.simple "x", .letter "b", .singleton .dead⟩,
    ⟨.simple "y", .letter "a", .singleton .dead⟩,
    ⟨.simple "y", .letter "b", .singleton .dead⟩,
    ⟨.dead, .letter "a", .singleton .dead⟩,
    ⟨.dead, .letter "b", .singleton .dead⟩]

theorem size_fixpoint_eq_size_refine_sinking :
    let a := Stage.chain [.eliminate] sinking.collapse
    (a.minimize .singlePass).states.size = 4 ∧ (a.minimize .fixpoint).states.size = 3 ∧
      (a.minimize .refine).states.size = 3 := by
  intro a
  have built : sinking.toAutomaton .deterministic = .ok sinking.collapse := by decide
  have swept : (a.minimize .fixpoint).states.size = 3 := by decide
  have loops : a.OnlySinkLoops := by decide
  have apart : a.chart.outcome? a.initial ["b"] ≠ a.chart.outcome? .dead ["b"] := by decide
  refine ⟨by decide, swept, ?_⟩
  rw [← size_fixpoint_eq_size_refine built [.eliminate] loops fun _ _ => ⟨_, apart⟩]
  exact swept

end Automaton

end Determinize
