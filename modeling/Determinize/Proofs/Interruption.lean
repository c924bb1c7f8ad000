import Determinize.Proofs.Budget
import Determinize.Proofs.Pipeline

/-!
What a budget cuts short. A search only adds at the end of what it has found (`Exploration.Extends`), and
it takes every set off its stack once (`Exploration.Accounted`). A construction that a budget ends is the
beginning of the whole one, and where a walk on it does not get stuck, it accepts what the given automaton
accepts (`determinize_within_budget`).
-/

namespace Determinize

/-- The state whose expansion an event reports. -/
def Event.expanded? : Event → Option State
  | .expanding s => some s
  | _ => none

theorem UniqueList.collapse_prefix {α : Type} [DecidableEq α] {l m : List α} (start : l <+: m) :
    collapse l <+: collapse m := by
  induction l generalizing m with
  | nil => exact List.nil_prefix
  | cons a l ih =>
    cases m with
    | nil => exact absurd (List.prefix_nil.mp start) (List.cons_ne_nil a l)
    | cons b m =>
      obtain ⟨rfl, rest⟩ := List.cons_prefix_cons.mp start
      exact List.cons_prefix_cons.mpr ⟨rfl, (ih rest).filter _⟩

namespace Exploration

variable {a : Automaton} {e e' e'' : Exploration} {current : Subset} {x : String} {s t : State}
  {w : List String} {done waiting : List Subset} {m n : Nat}

/-! ### What a step keeps -/

/-- What is found stays in its place. -/
structure Extends (e e' : Exploration) : Prop where
  discovered : e.discovered <+: e'.discovered
  transitions : e.transitions <+: e'.transitions
  events : e.events <+: e'.events

theorem Extends.refl (e : Exploration) : Extends e e :=
  ⟨List.prefix_rfl, List.prefix_rfl, List.prefix_rfl⟩

theorem Extends.trans (first : Extends e e') (second : Extends e' e'') : Extends e e'' :=
  ⟨first.discovered.trans second.discovered, first.transitions.trans second.transitions,
    first.events.trans second.events⟩

theorem extends_report (event : Event) : Extends e (e.report event) :=
  ⟨List.prefix_rfl, List.prefix_rfl, List.prefix_append _ _⟩

theorem extends_addMove : Extends e (e.addMove s x t) :=
  ⟨List.prefix_rfl, List.prefix_append _ _, List.prefix_rfl⟩

theorem extends_enqueue {found : Subset} : Extends e (e.enqueue found) := by
  unfold enqueue
  split
  · exact .refl e
  · exact ⟨List.prefix_append _ _, List.prefix_rfl, List.prefix_rfl⟩

theorem extends_addDead : Extends e (addDead a e s x) := by
  simp only [addDead]
  split
  · exact .refl e
  · simp only [foldl_addMove_dead (a := a)]
    exact ⟨List.prefix_append _ _, List.prefix_append _ _, List.prefix_append _ _⟩

theorem extends_follow : Extends e (follow a current e x) := by
  simp only [follow]
  split
  · exact ((extends_report _).trans extends_addMove).trans extends_enqueue
  · exact extends_addDead.trans extends_addMove

/-- The states that the log reports as expanded, in their order. -/
def expanded (e : Exploration) : List State := e.events.filterMap Event.expanded?

/-- The sets that were expanded and those on the stack are different sets that were found. -/
def Accounted (e : Exploration) : Prop :=
  (e.expanded ++ e.pending.map Subset.label).Subperm (e.discovered.map Subset.label)

theorem expanded_report {event : Event} (other : event.expanded? = none) :
    (e.report event).expanded = e.expanded := by
  rw [expanded, expanded, report, List.filterMap_append, List.filterMap_cons_none other]
  exact List.append_nil _

theorem expanded_addDead : (addDead a e s x).expanded = e.expanded := by
  simp only [addDead]
  split
  · rfl
  · simp only [foldl_addMove_dead (a := a)]
    exact expanded_report rfl

theorem expanded_follow : (follow a current e x).expanded = e.expanded := by
  simp only [follow]
  split
  · simp only [enqueue]
    split <;> exact expanded_report rfl
  · exact expanded_addDead

theorem accounted_enqueue {found : Subset} (accounted : e.Accounted) :
    (e.enqueue found).Accounted := by
  unfold enqueue
  split
  · exact accounted
  · have pushed : (e.expanded ++ found.label :: e.pending.map Subset.label).Perm
        (e.expanded ++ e.pending.map Subset.label ++ [found.label]) :=
      List.perm_middle.trans (List.perm_append_singleton _ _).symm
    unfold Accounted
    rw [List.map_append]
    exact pushed.subperm.trans (List.Subperm.append accounted (.refl _))

theorem accounted_addDead (accounted : e.Accounted) : (addDead a e s x).Accounted := by
  have expanded := expanded_addDead (a := a) (e := e) (s := s) (x := x)
  unfold Accounted
  rw [expanded]
  simp only [addDead]
  split
  · exact accounted
  · simp only [foldl_addMove_dead (a := a), List.map_append]
    exact accounted.trans (List.sublist_append_left _ _).subperm

theorem accounted_follow (accounted : e.Accounted) : (follow a current e x).Accounted := by
  simp only [follow]
  split
  · apply accounted_enqueue
    unfold Accounted
    rwa [show (((e.report _).addMove current.label x _).expanded) = e.expanded from
      expanded_report rfl]
  · exact accounted_addDead accounted

/-! ### What a run keeps -/

theorem extends_step : Extends e (step a e) := by
  cases waiting : e.pending with
  | nil =>
    rw [step]
    simp only [waiting]
    exact .refl e
  | cons current pending =>
    rw [step_eq_expand waiting]
    have popped : Extends e (({ e with pending := pending } : Exploration).report
        (.expanding current.label)) :=
      ⟨List.prefix_rfl, List.prefix_rfl, List.prefix_append _ _⟩
    have followed := List.foldlRecOn a.alphabet.toList (follow a current) popped
      fun _ extended _ _ => extended.trans extends_follow
    exact ⟨followed.discovered, followed.transitions, followed.events⟩

theorem extends_run (limit : Nat) : Extends e (run a limit e) :=
  run_keeps (fun _ _ extended => extended.trans extends_step) limit (.refl e)

theorem extends_run_of_le (le : m ≤ n) : Extends (run a m e) (run a n e) := by
  rw [run_of_le le]
  exact extends_run _

theorem expanded_expand :
    (expand a current e).expanded = e.expanded ++ [current.label] := by
  have reported : (e.report (.expanding current.label)).expanded = e.expanded ++ [current.label] :=
    List.filterMap_append ..
  exact List.foldlRecOn (motive := fun e' => e'.expanded = e.expanded ++ [current.label])
    a.alphabet.toList (follow a current) reported fun _ before _ _ => expanded_follow.trans before

theorem accounted_step (working : e.pending ≠ []) (accounted : e.Accounted) :
    (step a e).Accounted := by
  obtain ⟨current, pending, waiting⟩ := List.exists_cons_of_ne_nil working
  have popped : (({ e with pending := pending } : Exploration).report
      (.expanding current.label)).Accounted := by
    have reported : (({ e with pending := pending } : Exploration).report
        (.expanding current.label)).expanded = e.expanded ++ [current.label] :=
      List.filterMap_append ..
    unfold Accounted at accounted ⊢
    rw [waiting, List.map_cons] at accounted
    rw [reported, List.append_assoc]
    exact accounted
  rw [step_eq_expand waiting]
  exact List.foldlRecOn (motive := Accounted) a.alphabet.toList (follow a current) popped
    fun _ before _ _ => accounted_follow before

theorem accounted_start (a : Automaton) : (start a).Accounted := .refl _

theorem nodup_expanded (accounted : e.Accounted) (distinct : (e.discovered.map Subset.label).Nodup) :
    e.expanded.Nodup := by
  obtain ⟨labels, same, among⟩ := accounted
  exact (same.nodup_iff.mp (among.nodup distinct)).of_append_left

theorem length_expanded_run (limit : Nat) (counted : e.expanded.length = e.steps) :
    (run a limit e).expanded.length = (run a limit e).steps := by
  apply run_keeps (motive := fun e => e.expanded.length = e.steps) _ limit counted
  intro e working counted
  obtain ⟨current, pending, waiting⟩ := List.exists_cons_of_ne_nil working
  rw [(step_counts working).1, ← counted, step_eq_expand waiting, expanded_expand, List.length_append]
  rfl

end Exploration

namespace Automaton

open Exploration (Extends)

variable {a : Automaton} {budget : Nat} {p : Parts} {kind : Kind}

/-- The states that the log of the construction reports as expanded, in their order. -/
def expandedStates (a : Automaton) (budget : Option Nat) : List State :=
  (a.determinizeEvents budget).filterMap Event.expanded?

theorem expandedStates_eq (budget : Option Nat) :
    a.expandedStates budget = (a.eliminateEpsilon.explore budget).expanded := by
  have eliminated : a.eliminationEvents.filterMap Event.expanded? = [] := by
    unfold eliminationEvents
    split <;> rfl
  rw [expandedStates, determinizeEvents, List.filterMap_append, List.filterMap_append, eliminated,
    List.nil_append]
  exact List.append_nil _

theorem nodup_expandedStates (wellFormed : a.WellFormed) (budget : Option Nat) :
    (a.expandedStates budget).Nodup := by
  have plain := wellFormed_eliminateEpsilon wellFormed
  obtain ⟨done, tracks⟩ := tracks_explore plain budget
  rw [expandedStates_eq]
  refine Exploration.nodup_expanded ?_ (tracks.nodup_labels plain)
  exact Exploration.run_keeps (motive := Exploration.Accounted)
    (fun _ working accounted => Exploration.accounted_step working accounted) _
    (Exploration.accounted_start a.eliminateEpsilon)

theorem length_expandedStates (budget : Option Nat) :
    (a.expandedStates budget).length = (a.determinize budget).steps := by
  rw [expandedStates_eq]
  exact Exploration.length_expanded_run _ rfl

/-- All sets that are expanded were found, and found sets have no members but declared states other than
the sink. -/
theorem steps_determinize_le (wellFormed : a.WellFormed) :
    (a.determinize none).steps ≤ 2 ^ (a.states.toList.filter fun s => !s.isDead).length := by
  have plain := wellFormed_eliminateEpsilon wellFormed
  obtain ⟨done, tracks⟩ := tracks_finished plain
  have counts := explore_counts a.eliminateEpsilon none
  have kept := tracks.sinks_start_le
  have bound := tracks.length_discovered_le_two_pow plain
  rw [states_eliminateEpsilon] at bound
  show (a.eliminateEpsilon.explore none).steps ≤ _
  omega

theorem extends_explore (short : budget < (a.explore none).steps) :
    Extends (a.explore (some budget)) (a.explore none) := by
  have bound := (Exploration.steps_run_bounds (a := a) a.subsetCount (.start a)).2
  apply Exploration.extends_run_of_le
  have steps : (a.explore none).steps ≤ 0 + a.subsetCount := bound
  show budget ≤ a.subsetCount
  omega

theorem accepts_of_walk?_determinize (wellFormed : a.WellFormed) {budget : Option Nat} {t : State}
    {w : List String} (walked : (a.determinize budget).dfa.chart.walk?
      (a.determinize budget).dfa.initial w = some t) :
    (a.determinize budget).dfa.accepts w = a.accepts w := by
  have plain := wellFormed_eliminateEpsilon wellFormed
  obtain ⟨done, tracks⟩ := tracks_explore plain budget
  rw [← accepts_eliminateEpsilon wellFormed.toDeclared]
  exact Exploration.accepts_of_walk? plain hasEpsilon_eliminateEpsilon tracks walked

theorem steps_determinize_of_dead (wellFormed : a.WellFormed) :
    let c := a.determinize none
    (.dead ∈ c.dfa.states ∧ c.dfa.initial ≠ .dead → c.steps + 1 = c.dfa.states.size) ∧
      (¬ (.dead ∈ c.dfa.states ∧ c.dfa.initial ≠ .dead) → c.steps = c.dfa.states.size) := by
  intro c
  have counts : c.steps + (c.dfa.hasState .dead).toNat = c.dfa.states.size + a.initial.isDead.toNat :=
    steps_determinize wellFormed
  have declared : c.dfa.initial ∈ c.dfa.states := (wellFormed_determinize wellFormed).initial
  have known : c.dfa.hasState .dead = true ↔ .dead ∈ c.dfa.states := UniqueList.contains_iff
  rw [← show c.dfa.initial = a.initial from initial_eliminateEpsilon] at counts
  constructor
  · rintro ⟨dead, other⟩
    rw [known.mpr dead, State.isDead_eq_false_iff.mpr other] at counts
    exact counts
  · intro none
    by_cases dead : .dead ∈ c.dfa.states
    · have initial : c.dfa.initial = .dead := Decidable.byContradiction fun other => none ⟨dead, other⟩
      rw [known.mpr dead, initial] at counts
      exact Nat.add_right_cancel counts
    · have other : c.dfa.initial ≠ .dead := fun same => dead (same ▸ declared)
      rw [← known, Bool.not_eq_true] at dead
      rw [dead, State.isDead_eq_false_iff.mpr other] at counts
      exact counts

/-- What an interrupted construction lists, the whole one lists first. -/
theorem prefix_determinize (short : budget < (a.determinize none).steps) :
    let part := a.determinize (some budget)
    let full := a.determinize none
    part.dfa.states.toList <+: full.dfa.states.toList ∧
      part.dfa.finals.toList <+: full.dfa.finals.toList ∧
      part.dfa.transitions <+: full.dfa.transitions ∧
      a.expandedStates (some budget) <+: a.expandedStates none := by
  have extended := extends_explore (a := a.eliminateEpsilon) short
  refine ⟨?_, ?_, extended.transitions, ?_⟩
  · exact UniqueList.collapse_prefix (extended.discovered.map _)
  · exact UniqueList.collapse_prefix ((extended.discovered.filter _).map _)
  · rw [expandedStates_eq, expandedStates_eq]
    exact extended.events.filterMap _

/-- Without a budget the construction comes to its end. It expands no state twice, and as many as it
declares, not counting the sink unless that is the initial state. A budget for all of them makes no
difference. With a smaller one the construction stops when the budget is used up, and is the beginning of
the whole one: of the words that it can be walked on it accepts those that the given automaton accepts. -/
theorem determinize_within_budget (built : p.toAutomaton kind = .ok a) :
    let full := a.determinize none
    full.interrupted = false ∧
    full.steps ≤ 2 ^ (a.states.toList.filter fun s => !s.isDead).length ∧
    (a.expandedStates none).Nodup ∧ (a.expandedStates none).length = full.steps ∧
    (.dead ∈ full.dfa.states ∧ full.dfa.initial ≠ .dead → full.steps + 1 = full.dfa.states.size) ∧
    (¬ (.dead ∈ full.dfa.states ∧ full.dfa.initial ≠ .dead) → full.steps = full.dfa.states.size) ∧
    (∀ budget, full.steps ≤ budget → a.determinize (some budget) = full) ∧
    ∀ budget, budget < full.steps →
      let part := a.determinize (some budget)
      part.interrupted = true ∧ part.steps = budget ∧
      (part.dfa.states.toList <+: full.dfa.states.toList ∧
        part.dfa.finals.toList <+: full.dfa.finals.toList ∧
        part.dfa.transitions <+: full.dfa.transitions ∧
        a.expandedStates (some budget) <+: a.expandedStates none) ∧
      (∀ m ∈ part.dfa.transitions, ∀ t ∈ m.destinations, t ∈ part.dfa.states) ∧
      (∀ w t, part.dfa.chart.walk? part.dfa.initial w = some t →
        part.dfa.accepts w = a.accepts w) ∧
      ∀ w, part.dfa.accepts w = true → a.accepts w = true := by
  intro full
  have wellFormed := Parts.wellFormed_of_toAutomaton built
  obtain ⟨spared, counted⟩ := steps_determinize_of_dead wellFormed
  refine ⟨interrupted_determinize_none wellFormed, steps_determinize_le wellFormed,
    nodup_expandedStates wellFormed none, length_expandedStates none, spared, counted,
    fun budget enough => determinize_of_le wellFormed enough, fun budget short => ?_⟩
  obtain ⟨interrupted, steps⟩ := determinize_of_lt wellFormed short
  refine ⟨interrupted, steps, prefix_determinize short, fun m listed t target => ?_,
    fun w t walked => accepts_of_walk?_determinize wellFormed walked,
    fun w accepted => accepts_of_accepts_determinize wellFormed accepted⟩
  exact ((wellFormed_determinize wellFormed).transitions m listed).destinations t target

/-- Three expansions, of which two leave the set of `b` found but not expanded. -/
theorem determinize_within_budget_asThenBs :
    let a := asThenBs.collapse
    let part := a.determinize (some 2)
    (a.determinize none).steps = 3 ∧ a.determinize (some 3) = a.determinize none ∧
      part.interrupted = true ∧ part.dfa.states.toList <+: (a.determinize none).dfa.states.toList ∧
      State.simple "b" ∈ part.dfa.finals ∧
      part.dfa.accepts ["a", "b"] = a.accepts ["a", "b"] := by
  intro a part
  have all : (a.determinize none).steps = 3 := by decide
  have found : State.simple "b" ∈ part.dfa.finals := UniqueList.contains_iff.mp (by decide)
  have walked : part.dfa.chart.walk? part.dfa.initial ["a", "b"] = some (.simple "b") := by decide
  obtain ⟨_, _, _, _, _, _, enough, short⟩ := determinize_within_budget toAutomaton_asThenBs
  obtain ⟨interrupted, _, ⟨states, _⟩, _, words, _⟩ := short 2 (by rw [all]; decide)
  exact ⟨all, enough 3 (Nat.le_of_eq all), interrupted, states, found, words _ _ walked⟩

end Automaton

end Determinize
