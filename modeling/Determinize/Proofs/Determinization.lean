import Determinize.Proofs.Exploration
import Determinize.Proofs.Walk
import Mathlib.Data.Finset.Powerset

/-!
The automaton of the subset construction. Interrupted or not, it is well-formed and deterministic. As
there are only finitely many sets of states, a construction without a budget ends with an empty stack;
its automaton is then complete, a word leads to each of its states, and it accepts the words of the
given automaton.
-/

namespace Determinize

open Relation (ReflTransGen)

namespace Exploration

variable {a : Automaton} {e : Exploration} {set : StateSet} {s t : State} {x : String}
  {w : List String} {current found other : Subset} {done waiting : List Subset}

/-! ### The number of expansions -/

theorem steps_follow : (follow a current e x).steps = e.steps := by
  simp only [follow]
  split
  · simp only [enqueue]
    split <;> rfl
  · simp only [addDead]
    split
    · rfl
    · simp only [foldl_addMove_dead (a := a)]
      rfl

/-- One if the empty set has been found. Unless the search starts there, it is not expanded: the sink
that stands for it is added with its loops. -/
def sinks (e : Exploration) : Nat := (e.knows .empty).toNat

theorem subsetLabel?_ne_empty {label : State} (labelled : subsetLabel? set = some label) :
    set ≠ .empty := by
  rintro rfl
  cases labelled

/-- Every set that is found is put on the stack, but for the empty one. -/
theorem length_pending_follow (current : Subset) (e : Exploration) (x : String) :
    (follow a current e x).pending.length + (follow a current e x).sinks + e.discovered.length =
      e.pending.length + e.sinks + (follow a current e x).discovered.length := by
  simp only [follow]
  split
  · rename_i label labelled
    have nonempty := subsetLabel?_ne_empty labelled
    simp only [enqueue]
    split
    · rfl
    · simp only [sinks, knows, report, addMove, List.any_append, List.any_cons, List.any_nil,
        decide_eq_false nonempty, Bool.or_false, List.length_append, List.length_cons,
        List.length_nil]
      omega
  · simp only [addDead]
    split
    · rfl
    · rename_i new
      simp only [foldl_addMove_dead (a := a)]
      simp only [knows] at new
      simp only [sinks, knows, report, addMove, List.any_append, List.any_cons, List.any_nil, new,
        decide_true, Bool.or_true, Bool.or_false, Bool.toNat_true, Bool.toNat_false,
        List.length_append, List.length_cons, List.length_nil]
      omega

theorem foldl_follow_counts (current : Subset) (e : Exploration) (letters : List String) :
    (letters.foldl (follow a current) e).steps = e.steps ∧
      (letters.foldl (follow a current) e).pending.length +
          (letters.foldl (follow a current) e).sinks + e.discovered.length =
        e.pending.length + e.sinks + (letters.foldl (follow a current) e).discovered.length := by
  induction letters generalizing e with
  | nil => exact ⟨rfl, rfl⟩
  | cons x letters ih =>
    have first := length_pending_follow (a := a) current e x
    obtain ⟨steps, rest⟩ := ih (follow a current e x)
    rw [List.foldl_cons]
    exact ⟨steps.trans steps_follow, by omega⟩

theorem step_counts (working : e.pending ≠ []) :
    (step a e).steps = e.steps + 1 ∧
      (step a e).pending.length + 1 + (step a e).sinks + e.discovered.length =
        e.pending.length + e.sinks + (step a e).discovered.length := by
  cases waiting : e.pending with
  | nil => contradiction
  | cons current rest =>
    obtain ⟨steps, lengths⟩ := foldl_follow_counts (a := a) current
      (({ e with pending := rest } : Exploration).report (.expanding current.label))
      a.alphabet.toList
    simp only [step, waiting, expand, report, sinks, knows, List.length_cons] at steps lengths ⊢
    exact ⟨congrArg (· + 1) steps, by omega⟩

/-- The sets found are those expanded and those on the stack, but for the empty one. -/
theorem run_counts (limit : Nat) (e : Exploration) :
    (run a limit e).steps + (run a limit e).pending.length + (run a limit e).sinks +
        e.discovered.length =
      e.steps + e.pending.length + e.sinks + (run a limit e).discovered.length := by
  refine run_keeps (motive := fun e' => e'.steps + e'.pending.length + e'.sinks + e.discovered.length =
    e.steps + e.pending.length + e.sinks + e'.discovered.length) ?_ limit rfl
  intro e' working counted
  obtain ⟨steps, lengths⟩ := step_counts (a := a) working
  omega

/-- A run either comes to its end or uses up its limit. -/
theorem finished_or_steps_run (limit : Nat) (e : Exploration) :
    (run a limit e).pending = [] ∨ (run a limit e).steps = e.steps + limit := by
  induction limit generalizing e with
  | zero => exact .inr rfl
  | succ limit ih =>
    rw [run]
    split
    · rename_i finished
      exact .inl (List.isEmpty_iff.mp finished)
    · rename_i working
      rw [List.isEmpty_iff] at working
      have steps := (step_counts (a := a) working).1
      exact (ih (step a e)).imp_right fun all => by omega

theorem length_le_two_pow {sets : List StateSet} {states : List State} (distinct : sets.Nodup)
    (nodup : states.Nodup) (among : ∀ set ∈ sets, ∀ s ∈ set, s ∈ states) :
    sets.length ≤ 2 ^ states.length := by
  have injective : Function.Injective fun set : StateSet => set.toList.toFinset := by
    intro first second same
    apply SortedSet.ext
    intro s
    have := congrArg (s ∈ ·) same
    simpa [SortedSet.mem_toList] using this
  have images := List.toFinset_card_of_nodup (distinct.map injective)
  rw [List.length_map] at images
  have within : (sets.map fun set => set.toList.toFinset).toFinset ⊆ states.toFinset.powerset := by
    intro image member
    obtain ⟨set, mem, rfl⟩ := List.mem_map.mp (List.mem_toFinset.mp member)
    apply Finset.mem_powerset.mpr
    intro s inside
    exact List.mem_toFinset.mpr (among set mem s (List.mem_toFinset.mp inside))
  have bound := Finset.card_le_card within
  rwa [images, Finset.card_powerset, List.toFinset_card_of_nodup nodup] at bound

/-! ### The sets found and their labels -/

theorem subsetState_reached_nil : subsetState (reached a []) = a.initial := by
  cases initial : a.initial <;> simp [reached, initial] <;> rfl

namespace Tracks

variable (wellFormed : a.WellFormed) (tracks : Tracks a e done waiting [])

include wellFormed tracks

theorem eq_of_label_eq (first : found ∈ e.discovered) (second : other ∈ e.discovered)
    (same : found.label = other.label) : found = other := by
  have members : found.members = other.members := by
    refine (tracks.discoverable wellFormed first).eq_of_subsetState_eq
      (tracks.discoverable wellFormed second) wellFormed.toDeclared ?_
    rw [← tracks.label found first, ← tracks.label other second, same]
  obtain ⟨_, _⟩ := found
  obtain ⟨_, _⟩ := other
  cases members
  cases same
  rfl

omit wellFormed in
theorem sinks_start_le : (Exploration.start a).sinks ≤ e.sinks := by
  cases known : (Exploration.start a).knows .empty with
  | false =>
    rw [sinks, known]
    exact Nat.zero_le _
  | true =>
    obtain ⟨found, member, empty⟩ := knows_iff.mp known
    rw [List.mem_singleton.mp member] at empty
    have still := tracks.start
    rw [show reached a [] = .empty from empty] at still
    rw [sinks, sinks, known, still]

theorem length_discovered_le_two_pow :
    e.discovered.length ≤ 2 ^ (a.states.toList.filter fun s => !s.isDead).length := by
  have bound : (e.discovered.map Subset.members).length ≤
      2 ^ (a.states.toList.filter fun s => !s.isDead).length := by
    apply length_le_two_pow tracks.distinct (a.states.nodup.filter _)
    intro set member s inside
    obtain ⟨found, mem, rfl⟩ := List.mem_map.mp member
    have discoverable := tracks.discoverable wellFormed mem
    refine List.mem_filter.mpr ⟨discoverable.declared s inside, ?_⟩
    rw [Bool.not_eq_true', State.isDead_eq_false_iff]
    exact discoverable.live s inside
  rwa [List.length_map] at bound

theorem length_discovered_le : e.discovered.length ≤ a.subsetCount :=
  (tracks.length_discovered_le_two_pow wellFormed).trans
    (Nat.pow_le_pow_right Nat.two_pos (List.length_filter_le _ _))

theorem members_of_dead (member : found ∈ e.discovered) (dead : found.label = .dead) :
    found.members = .empty := by
  apply Decidable.byContradiction
  intro nonempty
  apply (tracks.discoverable wellFormed member).subsetState_ne_dead wellFormed.toDeclared nonempty
  rw [← tracks.label found member, dead]

omit wellFormed in
theorem nodup_discovered : e.discovered.Nodup := tracks.distinct.of_map _

omit wellFormed in
theorem mem_discovered (member : found ∈ done) : found ∈ e.discovered :=
  tracks.discovered.mem_iff.mpr (List.mem_append_left _ member)

omit wellFormed tracks in
theorem mem_states : s ∈ (e.toAutomaton a).states ↔ ∃ found ∈ e.discovered, found.label = s := by
  simp [toAutomaton, UniqueList.mem_ofList, List.mem_map]

omit wellFormed tracks in
theorem mem_finals : s ∈ (e.toAutomaton a).finals ↔
    ∃ found ∈ e.discovered, (∃ t ∈ found.members, t ∈ a.finals) ∧ found.label = s := by
  simp only [toAutomaton, finals, UniqueList.mem_ofList, List.mem_map, List.mem_filter,
    List.any_eq_true, Automaton.isFinal_iff, SortedSet.mem_toList, and_assoc]

omit wellFormed in
theorem mem_transitions {m : Transition} : m ∈ (e.toAutomaton a).transitions ↔
    ∃ found ∈ done, ∃ x ∈ a.alphabet, m = move a found x := by
  rw [show (e.toAutomaton a).transitions = e.transitions from rfl, tracks.transitions.mem_iff,
    List.append_nil]
  simp only [List.mem_flatMap, moves, List.mem_map, UniqueList.mem_toList]
  exact exists_congr fun _ => and_congr_right fun _ => exists_congr fun _ => and_congr_right fun _ =>
    eq_comm

theorem isDeterministic : (e.toAutomaton a).isDeterministic = true := by
  refine Automaton.isDeterministic_iff.mpr ⟨fun m member => ?_, ?_⟩
  · obtain ⟨found, _, x, _, rfl⟩ := tracks.mem_transitions.mp member
    exact Transition.isSingle_iff.mpr ⟨x, _, rfl, rfl⟩
  have nodup : done.Nodup :=
    (tracks.discovered.nodup_iff.mp tracks.nodup_discovered).of_append_left
  have apart : (done.flatMap (moves a)).Pairwise Transition.Apart := by
    refine List.pairwise_flatMap.mpr ⟨fun found _ => ?_, nodup.imp_of_mem ?_⟩
    · refine List.pairwise_map.mpr (a.alphabet.nodup.imp fun {x y} different => .inr ?_)
      simpa [move] using different
    · intro found other first second different m ours n theirs
      obtain ⟨x, _, rfl⟩ := List.mem_map.mp ours
      obtain ⟨y, _, rfl⟩ := List.mem_map.mp theirs
      exact .inl fun same => different
        (tracks.eq_of_label_eq wellFormed (tracks.mem_discovered first)
          (tracks.mem_discovered second) same)
  have order := tracks.transitions
  rw [List.append_nil] at order
  exact (order.pairwise_iff Transition.Apart.symm).mpr apart

omit wellFormed in
theorem subsetState_mem_states (known : e.knows set = true) :
    subsetState set ∈ (e.toAutomaton a).states := by
  obtain ⟨found, member, rfl⟩ := knows_iff.mp known
  exact mem_states.mpr ⟨found, member, tracks.label found member⟩

theorem declared : (e.toAutomaton a).Declared := by
  refine ⟨fun s member => ?_, ?_, fun s member => ?_, wellFormed.letters, fun m member => ?_⟩
  · obtain ⟨found, mem, rfl⟩ := mem_states.mp member
    rw [tracks.label found mem]
    exact (tracks.discoverable wellFormed mem).valid_subsetState wellFormed.toDeclared
  · have initial := tracks.subsetState_mem_states tracks.start
    rwa [subsetState_reached_nil] at initial
  · obtain ⟨found, mem, _, label⟩ := mem_finals.mp member
    exact mem_states.mpr ⟨found, mem, label⟩
  · obtain ⟨found, mem, x, letter, rfl⟩ := tracks.mem_transitions.mp member
    refine ⟨mem_states.mpr ⟨found, tracks.mem_discovered mem, rfl⟩,
      ⟨_, SortedSet.mem_singleton.mpr rfl⟩, fun d target => ?_, fun y same => ?_⟩
    · rw [SortedSet.mem_singleton.mp target]
      exact tracks.subsetState_mem_states (tracks.closed found mem x letter)
    · cases same
      exact letter

/-- The automaton found so far is well-formed: the sink only loops, and no set it stands for has a
final member. -/
theorem wellFormed_toAutomaton : (e.toAutomaton a).WellFormed := by
  refine ⟨tracks.declared wellFormed, .inr ⟨tracks.isDeterministic wellFormed, fun _ s path => ?_⟩⟩
  -- only the empty set is labelled by the sink, and its letters lead nowhere
  have loops : s = .dead := by
    induction path with
    | refl => rfl
    | tail _ leads ih =>
      obtain ⟨m, member, source, target⟩ := Graph.edge_ofTransitions.mp leads
      obtain ⟨found, mem, x, _, rfl⟩ := tracks.mem_transitions.mp member
      have empty := tracks.members_of_dead wellFormed (tracks.mem_discovered mem) (source.trans ih)
      rw [SortedSet.mem_singleton.mp target, empty, target_empty, subsetState_empty]
  rintro accepted
  obtain ⟨found, mem, ⟨t, inside, _⟩, label⟩ := mem_finals.mp accepted
  rw [tracks.members_of_dead wellFormed mem (label.trans loops)] at inside
  exact SortedSet.not_mem_empty inside

end Tracks

theorem isFinal_toAutomaton (wellFormed : a.WellFormed) (tracks : Tracks a e done waiting [])
    (known : e.knows set = true) :
    (e.toAutomaton a).isFinal (subsetState set) = true ↔ ∃ t ∈ set, t ∈ a.finals := by
  obtain ⟨found, member, rfl⟩ := knows_iff.mp known
  rw [Automaton.isFinal_iff, Tracks.mem_finals]
  constructor
  · intro h
    obtain ⟨other, mem, accepted, label⟩ := h
    rw [← tracks.label found member] at label
    rwa [tracks.eq_of_label_eq wellFormed mem member label] at accepted
  · exact fun accepted => ⟨found, member, accepted, tracks.label found member⟩

/-! ### Words -/

/-- Leaving the sink out of the sets loses no final state: none can be reached from it. -/
theorem mem_foldl_target (wellFormed : a.WellFormed) (noEpsilon : a.hasEpsilon = false)
    (accepted : t ∈ a.finals) : t ∈ w.foldl (target a) set ↔ ∃ s ∈ set, a.Spells s w t := by
  induction w generalizing set with
  | nil =>
    simp only [List.foldl_nil, Automaton.spells_nil_iff, Automaton.glides_iff_eq noEpsilon,
      exists_eq_right]
  | cons x w ih =>
    rw [List.foldl_cons, ih]
    simp only [mem_target, Automaton.spells_cons_iff_of_no_epsilon noEpsilon]
    constructor
    · intro h
      obtain ⟨u, ⟨_, s, member, step⟩, path⟩ := h
      exact ⟨s, member, u, step, path⟩
    · intro h
      obtain ⟨s, member, u, step, path⟩ := h
      refine ⟨u, ⟨?_, s, member, step⟩, path⟩
      rintro rfl
      exact wellFormed.dead_rejects (Automaton.leads_of_spells path) accepted

theorem mem_reached_iff (wellFormed : a.WellFormed) (noEpsilon : a.hasEpsilon = false)
    (accepted : t ∈ a.finals) : t ∈ reached a w ↔ a.Spells a.initial w t := by
  rw [reached, mem_foldl_target wellFormed noEpsilon accepted]
  simp only [mem_liveStates, List.mem_singleton]
  constructor
  · rintro ⟨s, ⟨rfl, _⟩, path⟩
    exact path
  · intro path
    refine ⟨a.initial, ⟨rfl, fun dead => ?_⟩, path⟩
    rw [dead] at path
    exact wellFormed.dead_rejects (Automaton.leads_of_spells path) accepted

/-! ### A finished construction -/

section Finished

variable (wellFormed : a.WellFormed) (tracks : Tracks a e done [] [])

include wellFormed tracks

omit wellFormed in
theorem mem_done (member : found ∈ e.discovered) : found ∈ done := by
  have expanded := tracks.discovered.mem_iff.mp member
  rwa [List.append_nil] at expanded

theorem nextState?_toAutomaton (member : found ∈ e.discovered) (letter : x ∈ a.alphabet) :
    (e.toAutomaton a).nextState? found.label (.letter x) =
      some (subsetState (target a found.members x)) := by
  refine (Automaton.nextState?_eq_some_iff (tracks.isDeterministic wellFormed)).mpr ?_
  exact ⟨move a found x,
    tracks.mem_transitions.mpr ⟨found, mem_done tracks member, x, letter, rfl⟩, rfl, rfl,
    SortedSet.mem_singleton.mpr rfl⟩

theorem walk?_toAutomaton (allowed : ∀ x ∈ w, x ∈ a.alphabet) :
    e.knows (reached a w) = true ∧
      (e.toAutomaton a).chart.walk? a.initial w = some (subsetState (reached a w)) := by
  induction w using List.reverseRecOn with
  | nil => exact ⟨tracks.start, by rw [subsetState_reached_nil]; rfl⟩
  | append_singleton w x ih =>
    obtain ⟨known, walked⟩ := ih fun y member => allowed y (List.mem_append_left _ member)
    have letter := allowed x (List.mem_append_right _ (List.mem_singleton_self x))
    obtain ⟨found, member, led⟩ := knows_iff.mp known
    refine ⟨?_, ?_⟩
    · rw [reached_append, ← led]
      exact tracks.closed found (mem_done tracks member) x letter
    · have next := nextState?_toAutomaton wellFormed tracks member letter
      rw [Chart.walk?_append, walked, Option.bind_some, reached_append, ← led,
        ← tracks.label found member, Chart.walk?]
      simp only [Automaton.chart, next, Option.bind_some]
      rfl

theorem accepts_toAutomaton (noEpsilon : a.hasEpsilon = false) :
    (e.toAutomaton a).accepts w = a.accepts w := by
  have deterministic := tracks.isDeterministic wellFormed
  have initial : (e.toAutomaton a).initial = a.initial := rfl
  rw [Bool.eq_iff_iff, Automaton.accepts_iff_outcome? deterministic, Automaton.accepts_iff, initial]
  by_cases allowed : ∀ x ∈ w, x ∈ a.alphabet
  · obtain ⟨known, walked⟩ := walk?_toAutomaton wellFormed tracks allowed
    rw [Chart.outcome?, walked, Option.map_some, Option.some.injEq]
    apply (isFinal_toAutomaton wellFormed tracks known).trans
    constructor
    · intro h
      obtain ⟨t, member, accepted⟩ := h
      exact ⟨t, accepted, (mem_reached_iff wellFormed noEpsilon accepted).mp member⟩
    · intro h
      obtain ⟨t, accepted, path⟩ := h
      exact ⟨t, (mem_reached_iff wellFormed noEpsilon accepted).mpr path, accepted⟩
  · constructor
    · intro accepted
      obtain ⟨t, walked, _⟩ := Option.map_eq_some_iff.mp accepted
      have path := (Automaton.spells_iff_walk? deterministic).mpr walked
      exact absurd (Automaton.mem_alphabet_of_spells (tracks.declared wellFormed) path) allowed
    · intro h
      obtain ⟨t, _, path⟩ := h
      exact absurd (Automaton.mem_alphabet_of_spells wellFormed.toDeclared path) allowed

end Finished

end Exploration

namespace Automaton

open Exploration (Tracks)

variable {a : Automaton} {s : State} {x : String} {w : List String} {budget : Option Nat}

theorem tracks_explore (wellFormed : a.WellFormed) (budget : Option Nat) :
    ∃ done, Tracks a (a.explore budget) done (a.explore budget).pending [] :=
  Exploration.tracks_run wellFormed _ (Exploration.tracks_start a)

/-- All sets found are expanded or on the stack, but for the empty one if the search does not start
there. -/
theorem explore_counts (a : Automaton) (budget : Option Nat) :
    (a.explore budget).steps + (a.explore budget).pending.length + (a.explore budget).sinks =
      (a.explore budget).discovered.length + (Exploration.start a).sinks := by
  have counts := Exploration.run_counts (a := a) (budget.getD a.subsetCount) (.start a)
  have one : (Exploration.start a).pending.length = 1 ∧ (Exploration.start a).discovered.length = 1 ∧
      (Exploration.start a).steps = 0 := ⟨rfl, rfl, rfl⟩
  rw [← explore] at counts
  omega

/-- A search without a budget comes to its end. -/
theorem pending_explore (wellFormed : a.WellFormed) : (a.explore none).pending = [] := by
  obtain ⟨done, tracks⟩ := tracks_explore wellFormed none
  have bound := tracks.length_discovered_le wellFormed
  have counts := explore_counts a none
  have ended : (a.explore none).pending = [] ∨ (a.explore none).steps = 0 + a.subsetCount :=
    Exploration.finished_or_steps_run a.subsetCount (.start a)
  have kept := tracks.sinks_start_le
  rcases ended with finished | all
  · exact finished
  · apply List.length_eq_zero_iff.mp
    omega

theorem wellFormed_determinize (wellFormed : a.WellFormed) :
    (a.determinize budget).dfa.WellFormed := by
  obtain ⟨done, tracks⟩ := tracks_explore (wellFormed_eliminateEpsilon wellFormed) budget
  exact tracks.wellFormed_toAutomaton (wellFormed_eliminateEpsilon wellFormed)

theorem isDeterministic_determinize (wellFormed : a.WellFormed) :
    (a.determinize budget).dfa.isDeterministic = true := by
  obtain ⟨done, tracks⟩ := tracks_explore (wellFormed_eliminateEpsilon wellFormed) budget
  exact tracks.isDeterministic (wellFormed_eliminateEpsilon wellFormed)

theorem alphabet_determinize : (a.determinize budget).dfa.alphabet = a.alphabet :=
  alphabet_eliminateEpsilon

theorem tracks_finished (wellFormed : a.WellFormed) :
    ∃ done, Tracks a (a.explore none) done [] [] := by
  obtain ⟨done, tracks⟩ := tracks_explore wellFormed none
  rw [pending_explore wellFormed] at tracks
  exact ⟨done, tracks⟩

theorem accepts_determinize (wellFormed : a.WellFormed) :
    (a.determinize none).dfa.accepts w = a.accepts w := by
  have plain := wellFormed_eliminateEpsilon wellFormed
  obtain ⟨done, tracks⟩ := tracks_finished plain
  rw [← accepts_eliminateEpsilon wellFormed.toDeclared]
  exact Exploration.accepts_toAutomaton plain tracks hasEpsilon_eliminateEpsilon

theorem nextState?_determinize (wellFormed : a.WellFormed)
    (member : s ∈ (a.determinize none).dfa.states) (letter : x ∈ a.alphabet) :
    ∃ t, (a.determinize none).dfa.nextState? s (.letter x) = some t := by
  have plain := wellFormed_eliminateEpsilon wellFormed
  obtain ⟨done, tracks⟩ := tracks_finished plain
  obtain ⟨found, mem, rfl⟩ := Exploration.Tracks.mem_states.mp member
  rw [← alphabet_eliminateEpsilon] at letter
  exact ⟨_, Exploration.nextState?_toAutomaton plain tracks mem letter⟩

/-- A word leads to every state of the construction. -/
theorem exists_walk?_determinize (wellFormed : a.WellFormed)
    (member : s ∈ (a.determinize none).dfa.states) :
    ∃ w : List String, (∀ x ∈ w, x ∈ a.alphabet) ∧
      (a.determinize none).dfa.chart.walk? (a.determinize none).dfa.initial w = some s := by
  have plain := wellFormed_eliminateEpsilon wellFormed
  obtain ⟨done, tracks⟩ := tracks_finished plain
  obtain ⟨found, mem, rfl⟩ := Exploration.Tracks.mem_states.mp member
  obtain ⟨w, allowed, led⟩ := tracks.word found mem
  refine ⟨w, fun x mem => ?_, ?_⟩
  · rw [← alphabet_eliminateEpsilon]
    exact allowed x mem
  · rw [tracks.label found mem, led]
    exact (Exploration.walk?_toAutomaton plain tracks allowed).2

end Automaton

end Determinize
