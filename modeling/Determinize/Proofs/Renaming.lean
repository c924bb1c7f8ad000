import Determinize.Proofs.Elimination
import Determinize.Proofs.Image
import Determinize.Proofs.Walk
import Mathlib.Logic.Embedding.Basic

/-!
Renamings of the names that states may have. The moves of a renamed automaton are the renamed moves of
the automaton (`step_rename`), so it passes the checks that the automaton passes (`rebuild_rename`) and
its empty moves are eliminated alike (`eliminateEpsilon_rename`). A set of states is kept in the order
of the names, which a renaming does not keep.
-/

namespace Determinize

open Relation (ReflTransGen)

instance : DecidablePred State.NameAllowed := fun name =>
  inferInstanceAs (Decidable (name ∉ State.reservedNames ∧ State.validName name = true))

abbrev AllowedName := {name : String // State.NameAllowed name}

/-- Another name for every name that a state may have, a different one for each. -/
abbrev Renaming := AllowedName ↪ AllowedName

namespace Renaming

variable {r : Renaming} {n : String}

/-- Names that no state may have stay. -/
def name (r : Renaming) (n : String) : String :=
  if allowed : State.NameAllowed n then r ⟨n, allowed⟩ else n

theorem allowed_name_iff : State.NameAllowed (r.name n) ↔ State.NameAllowed n := by
  unfold name
  split
  · rename_i allowed
    exact iff_of_true (r ⟨n, allowed⟩).2 allowed
  · rfl

theorem name_injective (r : Renaming) : Function.Injective r.name := by
  intro m n same
  have both : State.NameAllowed m ↔ State.NameAllowed n := by
    rw [← allowed_name_iff (r := r), same, allowed_name_iff]
  unfold name at same
  by_cases allowed : State.NameAllowed m
  · rw [dif_pos allowed, dif_pos (both.mp allowed)] at same
    exact congrArg Subtype.val (r.injective (Subtype.ext same))
  · rwa [dif_neg allowed, dif_neg (both.not.mp allowed)] at same

end Renaming

/-! ### Renamed states -/

namespace State

variable {r : Renaming} {s t : State} {n : String} {names : List String}

/-- The state with every name renamed; the sink stays. -/
def rename (r : Renaming) : State → State
  | simple n => simple (r.name n)
  | composite names => composite (names.map r.name)
  | dead => dead

theorem rename_injective (r : Renaming) : Function.Injective (rename r) := by
  intro s t same
  cases s <;> cases t <;> simp only [rename, simple.injEq, composite.injEq, reduceCtorEq] at same ⊢
  · exact r.name_injective same
  · exact SortedSet.map_injective r.name_injective same

theorem rename_inj : s.rename r = t.rename r ↔ s = t := (rename_injective r).eq_iff

theorem isDead_rename : (s.rename r).isDead = s.isDead := by cases s <;> rfl

theorem rename_eq_dead_iff : s.rename r = dead ↔ s = dead := by
  rw [← isDead_iff, isDead_rename, isDead_iff]

theorem mem_members_rename : n ∈ (s.rename r).members ↔ ∃ m ∈ s.members, r.name m = n := by
  cases s with
  | simple m =>
    simp only [rename, members, List.mem_singleton, exists_eq_left]
    exact eq_comm
  | composite names => exact SortedSet.mem_map
  | dead => simp only [rename, members, List.not_mem_nil, false_and, exists_false]

theorem valid_rename : (s.rename r).Valid ↔ s.Valid := by
  cases s with
  | simple n => exact Renaming.allowed_name_iff
  | composite names =>
    simp only [rename, Valid, SortedSet.length_map r.name_injective, SortedSet.mem_toList,
      SortedSet.mem_map]
    refine and_congr_right fun _ => ⟨fun allowed n member => ?_, ?_⟩
    · exact Renaming.allowed_name_iff.mp (allowed _ ⟨n, member, rfl⟩)
    · rintro allowed _ ⟨n, member, rfl⟩
      exact Renaming.allowed_name_iff.mpr (allowed n member)
  | dead => rfl

end State

/-! ### Renamed automata -/

namespace Transition

variable {r : Renaming} {t u : Transition} {s : State} {y : Symbol}

def rename (r : Renaming) (t : Transition) : Transition where
  source := t.source.rename r
  symbol := t.symbol
  destinations := t.destinations.map (State.rename r)

theorem leaves_rename : (t.rename r).leaves (s.rename r) y = t.leaves s y := by
  rw [Bool.eq_iff_iff, leaves_iff, leaves_iff]
  exact and_congr_left' State.rename_inj

theorem apart_rename : (t.rename r).Apart (u.rename r) ↔ t.Apart u := by
  simp only [Apart, rename, ne_eq, State.rename_inj]

theorem isSingle_rename : (t.rename r).isSingle = true ↔ t.isSingle = true := by
  rw [isSingle_iff, isSingle_iff]
  constructor
  · intro h
    obtain ⟨x, d', symbol, only⟩ := h
    have member : d' ∈ (t.rename r).destinations := by
      rw [only]
      exact SortedSet.mem_singleton.mpr rfl
    obtain ⟨d, _, rfl⟩ := SortedSet.mem_map.mp member
    exact ⟨x, d, symbol, SortedSet.map_injective (State.rename_injective r) only⟩
  · intro h
    obtain ⟨x, d, symbol, only⟩ := h
    exact ⟨x, d.rename r, symbol, congrArg (SortedSet.map (State.rename r)) only⟩

end Transition

/-- A chain of images is the image of a chain. -/
theorem reflTransGen_image_iff {α β : Type} {before : α → α → Prop} {after : β → β → Prop}
    {f : α → β} (step : ∀ s t', after (f s) t' ↔ ∃ t, before s t ∧ f t = t') {s : α} {t' : β} :
    ReflTransGen after (f s) t' ↔ ∃ t, ReflTransGen before s t ∧ f t = t' := by
  constructor
  · intro path
    induction path with
    | refl => exact ⟨s, .refl, rfl⟩
    | tail _ last ih =>
      obtain ⟨t, path, rfl⟩ := ih
      obtain ⟨u, next, rfl⟩ := (step t _).mp last
      exact ⟨u, path.tail next, rfl⟩
  · rintro ⟨t, path, rfl⟩
    exact path.lift f fun s t next => (step s (f t)).mpr ⟨t, next, rfl⟩

namespace Automaton

variable {a : Automaton} {r : Renaming} {s t t' : State} {x : String} {y : Symbol}

def rename (r : Renaming) (a : Automaton) : Automaton where
  initial := a.initial.rename r
  finals := a.finals.map (State.rename r)
  states := a.states.map (State.rename r)
  alphabet := a.alphabet
  transitions := a.transitions.map (Transition.rename r)

theorem initial_rename : (a.rename r).initial = a.initial.rename r := rfl

theorem alphabet_rename : (a.rename r).alphabet = a.alphabet := rfl

theorem toList_states_rename :
    (a.rename r).states.toList = a.states.toList.map (State.rename r) :=
  UniqueList.toList_map (State.rename_injective r)

theorem size_states_rename : (a.rename r).states.size = a.states.size :=
  UniqueList.size_map (State.rename_injective r)

theorem mem_states_rename : s.rename r ∈ (a.rename r).states ↔ s ∈ a.states :=
  UniqueList.mem_map_of_injective (State.rename_injective r)

theorem isFinal_rename : (a.rename r).isFinal (s.rename r) = a.isFinal s := by
  rw [Bool.eq_iff_iff, isFinal_iff, isFinal_iff]
  exact UniqueList.mem_map_of_injective (State.rename_injective r)

theorem step_rename : (a.rename r).Step (s.rename r) y t' ↔ ∃ t, a.Step s y t ∧ t.rename r = t' := by
  simp only [Step, rename, List.mem_map, Transition.rename, exists_exists_and_eq_and,
    State.rename_inj, SortedSet.mem_map]
  grind

theorem glides_rename : (a.rename r).Glides (s.rename r) t' ↔ ∃ t, a.Glides s t ∧ t.rename r = t' :=
  reflTransGen_image_iff fun _ _ => step_rename

theorem leads_rename : (a.rename r).Leads (s.rename r) t' ↔ ∃ t, a.Leads s t ∧ t.rename r = t' := by
  simp only [leads_iff_step, step_rename]
  grind

theorem hasEpsilon_rename : (a.rename r).hasEpsilon = a.hasEpsilon := by
  rw [hasEpsilon, rename, List.any_map]
  rfl

theorem isDeterministic_rename : (a.rename r).isDeterministic = a.isDeterministic := by
  rw [Bool.eq_iff_iff, isDeterministic_iff, isDeterministic_iff]
  simp only [rename, List.forall_mem_map, List.pairwise_map, Transition.isSingle_rename,
    Transition.apart_rename]

/-! ### The checks -/

theorem declared_rename (declared : a.Declared) : (a.rename r).Declared := by
  refine ⟨fun s member => ?_, mem_states_rename.mpr declared.initial, fun s member => ?_,
    declared.letters, fun t member => ?_⟩
  · obtain ⟨s, present, rfl⟩ := UniqueList.mem_map.mp member
    exact State.valid_rename.mpr (declared.valid s present)
  · obtain ⟨s, accepted, rfl⟩ := UniqueList.mem_map.mp member
    exact mem_states_rename.mpr (declared.finals s accepted)
  · obtain ⟨t, listed, rfl⟩ := List.mem_map.mp member
    obtain ⟨source, ⟨d, target⟩, destinations, letter⟩ := declared.transitions t listed
    refine ⟨mem_states_rename.mpr source, ⟨d.rename r, SortedSet.mem_map.mpr ⟨d, target, rfl⟩⟩,
      fun d' target => ?_, letter⟩
    obtain ⟨d, among, rfl⟩ := SortedSet.mem_map.mp target
    exact mem_states_rename.mpr (destinations d among)

theorem unshared_rename (unshared : a.Unshared) : (a.rename r).Unshared := by
  refine ⟨fun dead => ?_, fun s first t second name ours theirs => ?_⟩
  · exact unshared.dead_not_mem (mem_states_rename.mp dead)
  · obtain ⟨s, declared, rfl⟩ := UniqueList.mem_map.mp first
    obtain ⟨t, declared', rfl⟩ := UniqueList.mem_map.mp second
    obtain ⟨m, before, rfl⟩ := State.mem_members_rename.mp ours
    obtain ⟨n, before', same⟩ := State.mem_members_rename.mp theirs
    rw [r.name_injective same] at before'
    rw [unshared.eq_of_name s declared t declared' m before before']

theorem determined_rename (determined : a.Determined) : (a.rename r).Determined := by
  refine ⟨isDeterministic_rename.trans determined.deterministic, fun dead s' path accepted => ?_⟩
  have path' := (reflTransGen_image_iff fun s t' => leads_rename (a := a)).mp
    (show ReflTransGen (a.rename r).Leads (State.rename r .dead) s' from path)
  obtain ⟨s, before, rfl⟩ := path'
  refine determined.dead_rejects (mem_states_rename.mp dead) s before ?_
  exact (UniqueList.mem_map_of_injective (State.rename_injective r)).mp accepted

/-- A renamed automaton is one of the same kind. -/
theorem rebuild_rename {p : Parts} {kind : Kind} (built : p.toAutomaton kind = .ok a) :
    (a.rename r).parts.toAutomaton kind = .ok (a.rename r) := by
  obtain ⟨sound, rfl⟩ := Parts.toAutomaton_eq_ok_iff.mp built
  refine Parts.toAutomaton_eq_ok_iff.mpr ⟨?_, collapse_parts _⟩
  cases kind with
  | general =>
    rw [Parts.defect?_general_eq_none_iff] at sound
    rw [Parts.defect?_general_eq_none_iff, collapse_parts]
    exact ⟨declared_rename sound.1, unshared_rename sound.2⟩
  | deterministic =>
    rw [Parts.defect?_deterministic_eq_none_iff] at sound
    rw [Parts.defect?_deterministic_eq_none_iff, collapse_parts]
    exact ⟨declared_rename sound.1, determined_rename sound.2⟩

/-! ### Moves -/

theorem nextState?_rename (deterministic : a.isDeterministic = true) :
    (a.rename r).nextState? (s.rename r) y = (a.nextState? s y).map (State.rename r) := by
  apply Option.ext
  intro t'
  rw [nextState?_eq_some_iff (isDeterministic_rename.trans deterministic), step_rename,
    Option.map_eq_some_iff]
  simp only [nextState?_eq_some_iff deterministic]

theorem reach_rename : (a.rename r).epsilonGraph.reach (s.rename r) =
    (a.epsilonGraph.reach s).map (State.rename r) := by
  apply SortedSet.ext
  intro t'
  simp only [mem_epsilonReach, glides_rename, SortedSet.mem_map]

theorem closedNext_rename :
    (a.rename r).closedNext (s.rename r) x = (a.closedNext s x).map (State.rename r) := by
  apply SortedSet.ext
  intro t'
  rw [SortedSet.mem_map, mem_closedNext]
  simp only [mem_closedNext]
  constructor
  · intro h
    obtain ⟨_, _, first, move, last⟩ := h
    obtain ⟨u, before, rfl⟩ := glides_rename.mp first
    obtain ⟨d, step, rfl⟩ := step_rename.mp move
    obtain ⟨t, after, same⟩ := glides_rename.mp last
    exact ⟨t, ⟨u, d, before, step, after⟩, same⟩
  · intro h
    obtain ⟨t, ⟨u, d, before, step, after⟩, same⟩ := h
    exact ⟨u.rename r, d.rename r, glides_rename.mpr ⟨u, before, rfl⟩,
      step_rename.mpr ⟨d, step, rfl⟩, glides_rename.mpr ⟨t, after, same⟩⟩

theorem closedMove?_rename :
    (a.rename r).closedMove? (s.rename r) x = (a.closedMove? s x).map (Transition.rename r) := by
  simp only [closedMove?, closedNext_rename, SortedSet.isEmpty_map]
  split <;> rfl

theorem closedMoves_rename : (a.rename r).closedMoves = a.closedMoves.map (Transition.rename r) := by
  rw [closedMoves, closedMoves, toList_states_rename, List.flatMap_map, List.map_flatMap]
  simp only [List.map_filterMap, closedMove?_rename, alphabet_rename]

theorem closedFinals_rename : (a.rename r).closedFinals = a.closedFinals.map (State.rename r) := by
  have met : ((a.rename r).epsilonGraph.reach (a.rename r).initial).toList.any (a.rename r).isFinal =
      (a.epsilonGraph.reach a.initial).toList.any a.isFinal := by
    rw [initial_rename, reach_rename, SortedSet.any_toList_map]
    simp only [isFinal_rename]
  rw [closedFinals, closedFinals, met]
  split
  · exact (UniqueList.map_insert (State.rename_injective r)).symm
  · rfl

/-- Renaming and elimination can be exchanged. -/
theorem eliminateEpsilon_rename : (a.rename r).eliminateEpsilon = a.eliminateEpsilon.rename r := by
  unfold eliminateEpsilon
  rw [hasEpsilon_rename, closedFinals_rename, closedMoves_rename]
  split <;> rfl

end Automaton

end Determinize
