import Determinize.Proofs.Determinization

/-!
Budgets of the subset construction. A search with a budget is the beginning of the one without. If the
budget covers all the expansions of that one, the two are the same (`determinize_of_le`); otherwise the
search stops when the budget is used up (`determinize_of_lt`). What an interrupted construction accepts,
the given automaton accepts (`accepts_of_accepts_determinize`).
-/

namespace Determinize

namespace Exploration

variable {a : Automaton} {e : Exploration} {t : State} {w : List String} {m n : Nat}
  {done waiting : List Subset}

/-! ### Runs with different limits -/

theorem run_of_finished (finished : e.pending = []) (limit : Nat) : run a limit e = e := by
  cases limit with
  | zero => rfl
  | succ limit => rw [run, if_pos (List.isEmpty_iff.mpr finished)]

theorem run_add (m n : Nat) : run a (m + n) e = run a n (run a m e) := by
  induction m generalizing e with
  | zero =>
    rw [Nat.zero_add]
    rfl
  | succ m ih =>
    rw [Nat.succ_add, run, run]
    split
    · rename_i finished
      exact (run_of_finished (List.isEmpty_iff.mp finished) n).symm
    · exact ih

theorem run_of_le (le : m ≤ n) : run a n e = run a (n - m) (run a m e) := by
  rw [← run_add, Nat.add_sub_cancel' le]

theorem steps_run_bounds (limit : Nat) (e : Exploration) :
    e.steps ≤ (run a limit e).steps ∧ (run a limit e).steps ≤ e.steps + limit := by
  induction limit generalizing e with
  | zero => exact ⟨Nat.le_refl _, Nat.le_refl _⟩
  | succ limit ih =>
    rw [run]
    split
    · exact ⟨Nat.le_refl _, Nat.le_add_right _ _⟩
    · rename_i working
      rw [List.isEmpty_iff] at working
      have steps := (step_counts (a := a) working).1
      have rest := ih (step a e)
      omega

theorem steps_lt_run (working : e.pending ≠ []) {limit : Nat} (positive : 0 < limit) :
    e.steps < (run a limit e).steps := by
  obtain ⟨limit, rfl⟩ := Nat.exists_eq_add_one_of_ne_zero (Nat.ne_of_gt positive)
  rw [run, if_neg (by rwa [List.isEmpty_iff])]
  have steps := (step_counts (a := a) working).1
  have rest := (steps_run_bounds (a := a) limit (step a e)).1
  omega

theorem run_eq_of_finished (first : (run a m e).pending = []) (second : (run a n e).pending = []) :
    run a m e = run a n e := by
  rcases Nat.le_total m n with le | le
  · rw [run_of_le le, run_of_finished first]
  · rw [run_of_le le, run_of_finished second]

/-- A run that does not come to its end makes fewer expansions than one that does. -/
theorem steps_lt_of_unfinished (working : (run a m e).pending ≠ [])
    (finished : (run a n e).pending = []) : e.steps + m < (run a n e).steps := by
  have all := (finished_or_steps_run (a := a) m e).resolve_left working
  rcases Nat.lt_or_ge m n with lt | ge
  · have more := steps_lt_run (a := a) working (Nat.sub_pos_of_lt lt)
    rw [← run_of_le (Nat.le_of_lt lt)] at more
    omega
  · rw [run_of_le ge, run_of_finished finished] at working
    exact absurd finished working

theorem finished_iff_le (finished : (run a n e).pending = []) :
    (run a m e).pending = [] ↔ (run a n e).steps ≤ e.steps + m := by
  constructor
  · intro ended
    rw [← run_eq_of_finished ended finished]
    exact (steps_run_bounds m e).2
  · intro enough
    apply Decidable.byContradiction
    intro working
    have := steps_lt_of_unfinished working finished
    omega

/-! ### Unfinished constructions -/

/-- A walk that does not get stuck ends in the state that stands for the set the word leads to. -/
theorem walk?_eq_some (wellFormed : a.WellFormed) (tracks : Tracks a e done waiting [])
    (walked : (e.toAutomaton a).chart.walk? a.initial w = some t) :
    e.knows (reached a w) = true ∧ t = subsetState (reached a w) := by
  induction w using List.reverseRecOn generalizing t with
  | nil =>
    cases walked
    exact ⟨tracks.start, subsetState_reached_nil.symm⟩
  | append_singleton w x ih =>
    rw [Chart.walk?_append] at walked
    obtain ⟨s, before, last⟩ := Option.bind_eq_some_iff.mp walked
    obtain ⟨known, rfl⟩ := ih before
    obtain ⟨u, next, ended⟩ := Option.bind_eq_some_iff.mp last
    cases ended
    obtain ⟨m, listed, source, symbol, target⟩ := Automaton.step_of_nextState? next
    obtain ⟨found, expanded, y, letter, rfl⟩ := tracks.mem_transitions.mp listed
    obtain ⟨other, member, led⟩ := knows_iff.mp known
    -- the label of the set that was expanded is the label of the set the word led to
    have same : found = other := by
      apply tracks.eq_of_label_eq wellFormed (tracks.mem_discovered expanded) member
      rw [tracks.label other member, led]
      exact source
    cases symbol
    rw [reached_append, ← led, ← same]
    exact ⟨tracks.closed found expanded x letter, SortedSet.mem_singleton.mp target⟩

/-- A word whose walk does not get stuck is accepted if the given automaton accepts it, and only then. -/
theorem accepts_of_walk? (wellFormed : a.WellFormed) (noEpsilon : a.hasEpsilon = false)
    (tracks : Tracks a e done waiting [])
    (walked : (e.toAutomaton a).chart.walk? a.initial w = some t) :
    (e.toAutomaton a).accepts w = a.accepts w := by
  obtain ⟨known, rfl⟩ := walk?_eq_some wellFormed tracks walked
  rw [Bool.eq_iff_iff, Automaton.accepts_iff_outcome? (tracks.isDeterministic wellFormed),
    Automaton.accepts_iff, Chart.outcome?, show (e.toAutomaton a).initial = a.initial from rfl, walked,
    Option.map_some, Option.some.injEq]
  refine (isFinal_toAutomaton wellFormed tracks known).trans ?_
  apply exists_congr
  intro s
  rw [and_comm]
  exact and_congr_right fun accepting => mem_reached_iff wellFormed noEpsilon accepting

theorem accepts_of_accepts_toAutomaton (wellFormed : a.WellFormed)
    (noEpsilon : a.hasEpsilon = false) (tracks : Tracks a e done waiting [])
    (accepted : (e.toAutomaton a).accepts w = true) : a.accepts w = true := by
  have ends := (Automaton.accepts_iff_outcome? (tracks.isDeterministic wellFormed)).mp accepted
  obtain ⟨t, walked, _⟩ := Option.map_eq_some_iff.mp ends
  rwa [← accepts_of_walk? wellFormed noEpsilon tracks walked]

theorem Tracks.nodup_labels (wellFormed : a.WellFormed) (tracks : Tracks a e done waiting []) :
    (e.discovered.map Subset.label).Nodup :=
  tracks.nodup_discovered.map_on fun _ member _ member' =>
    tracks.eq_of_label_eq wellFormed member member'

theorem Tracks.size_states (wellFormed : a.WellFormed) (tracks : Tracks a e done waiting []) :
    (e.toAutomaton a).states.size = e.discovered.length := by
  show (UniqueList.collapse (e.discovered.map Subset.label)).length = e.discovered.length
  rw [UniqueList.collapse_eq_self (tracks.nodup_labels wellFormed), List.length_map]

/-- The empty set has been found exactly if the sink has. -/
theorem Tracks.knows_empty_iff (wellFormed : a.WellFormed) (tracks : Tracks a e done waiting []) :
    e.knows .empty = true ↔ .dead ∈ (e.toAutomaton a).states := by
  rw [knows_iff, Tracks.mem_states]
  refine exists_congr fun found => and_congr_right fun member => ?_
  constructor
  · intro empty
    rw [tracks.label found member, empty, subsetState_empty]
  · exact tracks.members_of_dead wellFormed member

theorem sinks_start : (start a).sinks = a.initial.isDead.toNat := by
  rw [sinks]
  refine congrArg Bool.toNat (Bool.eq_iff_iff.mpr ?_)
  have only : (start a).knows .empty = true ↔ liveStates [a.initial] = .empty := by
    rw [knows_iff]
    constructor
    · intro h
      obtain ⟨found, member, empty⟩ := h
      rwa [List.mem_singleton.mp member] at empty
    · exact fun empty => ⟨_, List.mem_singleton_self _, empty⟩
  rw [only, State.isDead_iff, SortedSet.eq_empty_iff]
  simp only [mem_liveStates, List.mem_singleton, not_and, Decidable.not_not]
  exact ⟨fun dead => dead _ rfl, fun dead s same => same.trans dead⟩

end Exploration

namespace Automaton

variable {a : Automaton} {w : List String} {budget : Nat}

theorem interrupted_determinize_none (wellFormed : a.WellFormed) :
    (a.determinize none).interrupted = false := by
  have finished := pending_explore (wellFormed_eliminateEpsilon wellFormed)
  show (!(a.eliminateEpsilon.explore none).pending.isEmpty) = false
  rw [finished]
  rfl

theorem finished_explore_iff (wellFormed : a.WellFormed) :
    (a.explore (some budget)).pending = [] ↔ (a.explore none).steps ≤ budget := by
  have finished := pending_explore wellFormed
  rw [explore, Exploration.finished_iff_le finished, show (Exploration.start a).steps = 0 from rfl,
    Nat.zero_add]
  rfl

/-- A budget for all expansions makes no difference. -/
theorem determinize_of_le (wellFormed : a.WellFormed)
    (enough : (a.determinize none).steps ≤ budget) :
    a.determinize (some budget) = a.determinize none := by
  have plain := wellFormed_eliminateEpsilon wellFormed
  have same : a.eliminateEpsilon.explore (some budget) = a.eliminateEpsilon.explore none :=
    Exploration.run_eq_of_finished ((finished_explore_iff plain).mpr enough) (pending_explore plain)
  rw [determinize, determinize, same]

/-- A budget for fewer expansions is used up. -/
theorem determinize_of_lt (wellFormed : a.WellFormed)
    (short : budget < (a.determinize none).steps) :
    (a.determinize (some budget)).interrupted = true ∧ (a.determinize (some budget)).steps = budget := by
  have plain := wellFormed_eliminateEpsilon wellFormed
  have working : (a.eliminateEpsilon.explore (some budget)).pending ≠ [] := fun finished =>
    Nat.not_le_of_lt short ((finished_explore_iff plain).mp finished)
  constructor
  · show (!(a.eliminateEpsilon.explore (some budget)).pending.isEmpty) = true
    rw [Bool.not_eq_true', List.isEmpty_eq_false_iff]
    exact working
  · have all := (Exploration.finished_or_steps_run (a := a.eliminateEpsilon) budget
      (.start a.eliminateEpsilon)).resolve_left working
    exact all.trans (Nat.zero_add budget)

/-- An interrupted construction accepts no word that the given automaton rejects. -/
theorem accepts_of_accepts_determinize (wellFormed : a.WellFormed) {budget : Option Nat}
    (accepted : (a.determinize budget).dfa.accepts w = true) : a.accepts w = true := by
  have plain := wellFormed_eliminateEpsilon wellFormed
  obtain ⟨done, tracks⟩ := tracks_explore plain budget
  rw [← accepts_eliminateEpsilon wellFormed.toDeclared]
  exact Exploration.accepts_of_accepts_toAutomaton plain hasEpsilon_eliminateEpsilon tracks accepted

/-- Without a budget every state found is expanded, but for the sink if the search does not start
there. -/
theorem steps_determinize (wellFormed : a.WellFormed) :
    (a.determinize none).steps + ((a.determinize none).dfa.hasState .dead).toNat =
      (a.determinize none).dfa.states.size + a.initial.isDead.toNat := by
  have plain := wellFormed_eliminateEpsilon wellFormed
  obtain ⟨done, tracks⟩ := tracks_finished plain
  have counts := explore_counts a.eliminateEpsilon none
  rw [pending_explore plain, ← tracks.size_states plain] at counts
  have found : (a.eliminateEpsilon.explore none).sinks =
      ((a.determinize none).dfa.hasState .dead).toNat := by
    rw [Exploration.sinks]
    refine congrArg Bool.toNat (Bool.eq_iff_iff.mpr ?_)
    rw [tracks.knows_empty_iff plain, hasState, UniqueList.contains_iff]
    rfl
  rw [found, Exploration.sinks_start, initial_eliminateEpsilon] at counts
  exact counts

end Automaton

end Determinize
