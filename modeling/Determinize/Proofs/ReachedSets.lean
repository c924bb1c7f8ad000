import Determinize.Proofs.Acceptance
import Determinize.Proofs.Pipeline

/-!
The states of the subset construction as sets of states. A word leads to the state that stands for all
states at the ends of paths that spell the word and do not visit the sink, so words lead to the same
state exactly if these ends are the same. All declared states are led to, and there is one transition
for each of them and each letter.
-/

namespace Determinize

/-- The state that stands for a set of states, said by the members of the set. -/
inductive StandsFor (member : State → Prop) : State → Prop
  | none : (∀ t, ¬ member t) → StandsFor member .dead
  | one {t : State} : member t → (∀ u, member u → u = t) → StandsFor member t
  | many {t u : State} {names : NameSet} : member t → member u → t ≠ u →
    (∀ name, name ∈ names ↔ ∃ s, member s ∧ name ∈ s.members) → StandsFor member (.composite names)

theorem StandsFor.congr {member other : State → Prop} {s : State} (stands : StandsFor member s)
    (same : ∀ t, member t ↔ other t) : StandsFor other s := by
  rwa [show other = member from funext fun t => propext (same t).symm]

namespace Automaton

variable {a : Automaton} {set : StateSet} {s t : State} {w : List String} {path : List Hop}

theorem Discoverable.standsFor (discoverable : a.Discoverable set) (declared : a.Declared) :
    StandsFor (· ∈ set) (subsetState set) := by
  rcases SortedSet.shape set with rfl | ⟨u, rfl⟩ | ⟨u, v, l, two⟩
  · exact .none fun _ => SortedSet.not_mem_empty
  · exact .one (SortedSet.mem_singleton.mpr rfl) fun t => SortedSet.mem_singleton.mp
  · have first : u ∈ set := by rw [← SortedSet.mem_toList, two]; exact List.mem_cons_self
    have second : v ∈ set := by
      rw [← SortedSet.mem_toList, two]
      exact List.mem_cons_of_mem _ List.mem_cons_self
    have different : u ≠ v := by
      have nodup := set.nodup
      rw [two] at nodup
      exact fun same => (List.nodup_cons.mp nodup).1 (same ▸ List.mem_cons_self)
    have unshared := discoverable.apart.resolve_right fun alone =>
      different (alone u first v second)
    have named : ∀ name, name ∈ (subsetState set).members ↔ ∃ s ∈ set, name ∈ s.members :=
      fun _ => discoverable.mem_members_subsetState declared
    obtain ⟨n, ours⟩ := State.exists_mem_members (discoverable.valid declared first)
      (discoverable.live u first)
    obtain ⟨n', theirs⟩ := State.exists_mem_members (discoverable.valid declared second)
      (discoverable.live v second)
    have left := (named n).mpr ⟨u, first, ours⟩
    have right := (named n').mpr ⟨v, second, theirs⟩
    -- a state of one name cannot hold a name of each of two states that share none
    cases label : subsetState set with
    | simple name =>
      rw [label] at left right
      obtain rfl := List.mem_singleton.mp left
      obtain rfl := List.mem_singleton.mp right
      exact absurd (unshared.eq_of_name u (discoverable.declared u first) v
        (discoverable.declared v second) n' ours theirs) different
    | composite names =>
      refine .many first second different fun name => ?_
      have mem := named name
      rwa [label] at mem
    | dead =>
      rw [label] at left
      exact absurd left List.not_mem_nil

/-! ### Paths that do not visit the sink -/

/-- The automaton can be in the state after a path from the initial state that spells the word and
does not visit the sink. -/
def Reaches (a : Automaton) (w : List String) (t : State) : Prop :=
  a.initial ≠ .dead ∧
    ∃ path, a.Path a.initial path t ∧ spelled path = w ∧ ∀ hop ∈ path, hop.destination ≠ .dead

theorem spelled_cons_of_letter {hop : Hop} {x : String} (symbol : hop.transition.symbol = .letter x) :
    spelled (hop :: path) = x :: spelled path :=
  List.filterMap_cons_some (congrArg Symbol.letter? symbol)

theorem destination_mem_states (declared : a.Declared) (follows : a.Path s path t) :
    ∀ hop ∈ path, hop.destination ∈ a.states := by
  induction path generalizing s with
  | nil => exact fun _ member => absurd member List.not_mem_nil
  | cons hop path ih =>
    obtain ⟨listed, _, target, rest⟩ := follows
    exact List.forall_mem_cons.mpr
      ⟨(declared.transitions _ listed).destinations _ target, ih rest⟩

/-- Without the sink, no path visits it. -/
theorem reaches_iff_spells (declared : a.Declared) (sinkless : .dead ∉ a.states) :
    a.Reaches w t ↔ a.Spells a.initial w t := by
  constructor
  · rintro ⟨_, path, follows, rfl, _⟩
    exact spells_of_path follows
  · intro spells
    obtain ⟨path, follows, word⟩ := exists_path_of_spells spells
    refine ⟨fun dead => sinkless (dead ▸ declared.initial), path, follows, word, ?_⟩
    intro hop member dead
    exact sinkless (dead ▸ destination_mem_states declared follows hop member)

end Automaton

namespace Exploration

open Automaton (Path Reaches)

variable {a : Automaton} {set : StateSet} {t : State} {w : List String}

theorem mem_foldl_target_iff (noEpsilon : a.hasEpsilon = false) :
    t ∈ w.foldl (target a) set ↔ ∃ s ∈ set, ∃ path, a.Path s path t ∧ Automaton.spelled path = w ∧
      ∀ hop ∈ path, hop.destination ≠ .dead := by
  -- every hop of a path reads a letter
  have reads : ∀ m ∈ a.transitions, ∃ x, m.symbol = .letter x := by
    intro m member
    cases symbol : m.symbol with
    | letter x => exact ⟨x, rfl⟩
    | epsilon =>
      have := List.any_eq_false.mp noEpsilon m member
      simp [symbol, Symbol.isEpsilon] at this
  induction w generalizing set with
  | nil =>
    constructor
    · intro member
      exact ⟨t, member, [], rfl, rfl, fun _ hop => absurd hop List.not_mem_nil⟩
    · rintro ⟨s, member, path, follows, word, _⟩
      cases path with
      | nil =>
        obtain rfl := follows
        exact member
      | cons hop path =>
        obtain ⟨x, symbol⟩ := reads _ follows.1
        rw [Automaton.spelled_cons_of_letter symbol] at word
        cases word
  | cons x w ih =>
    refine ih.trans ?_
    constructor
    · rintro ⟨u, member, path, follows, rfl, live⟩
      obtain ⟨notDead, s, start, m, listed, source, symbol, target⟩ := mem_target.mp member
      refine ⟨s, start, ⟨m, u⟩ :: path, ⟨listed, source, target, follows⟩, ?_, ?_⟩
      · exact Automaton.spelled_cons_of_letter symbol
      · exact List.forall_mem_cons.mpr ⟨notDead, live⟩
    · rintro ⟨s, start, path, follows, word, live⟩
      cases path with
      | nil => cases word
      | cons hop path =>
        obtain ⟨listed, source, target, rest⟩ := follows
        obtain ⟨notDead, live⟩ := List.forall_mem_cons.mp live
        obtain ⟨y, symbol⟩ := reads _ listed
        rw [Automaton.spelled_cons_of_letter symbol] at word
        obtain ⟨rfl, same⟩ := List.cons.inj word
        refine ⟨hop.destination, mem_target.mpr ⟨notDead, s, start, ?_⟩, path, rest, same, live⟩
        exact ⟨hop.transition, listed, source, symbol, target⟩

theorem mem_reached_iff_reaches (noEpsilon : a.hasEpsilon = false) :
    t ∈ reached a w ↔ a.Reaches w t := by
  rw [reached, mem_foldl_target_iff noEpsilon]
  simp only [mem_liveStates, List.mem_singleton]
  constructor
  · rintro ⟨s, ⟨rfl, notDead⟩, path⟩
    exact ⟨notDead, path⟩
  · rintro ⟨notDead, path⟩
    exact ⟨a.initial, ⟨rfl, notDead⟩, path⟩

end Exploration

namespace Automaton

open Exploration (reached)

variable {a : Automaton} {s t : State} {x : String} {w v : List String} {p : Parts} {kind : Kind}

/-- The elimination of empty moves changes no set that a word with a letter in it leads to. -/
theorem mem_reached_eliminateEpsilon (wellFormed : a.WellFormed) (nonempty : w ≠ []) :
    t ∈ reached a.eliminateEpsilon w ↔ a.Reaches w t := by
  rw [Exploration.mem_reached_iff_reaches hasEpsilon_eliminateEpsilon]
  cases some : a.hasEpsilon with
  | false => rw [eliminateEpsilon_eq_self some]
  | true =>
    have declared := wellFormed.toDeclared
    have sinkless : .dead ∉ a.states := by
      rcases wellFormed.kind with unshared | determined
      · exact unshared.dead_not_mem
      · rw [hasEpsilon_eq_false determined.deterministic] at some
        cases some
    have sinkless' : .dead ∉ a.eliminateEpsilon.states := by rwa [states_eliminateEpsilon]
    rw [reaches_iff_spells declared sinkless,
      reaches_iff_spells (declared_eliminateEpsilon declared) sinkless', initial_eliminateEpsilon]
    obtain ⟨x, w, rfl⟩ := List.exists_cons_of_ne_nil nonempty
    exact spells_eliminateEpsilon_iff declared some declared.initial

theorem walk?_determinize (wellFormed : a.WellFormed) (allowed : ∀ x ∈ w, x ∈ a.alphabet) :
    subsetState (reached a.eliminateEpsilon w) ∈ (a.determinize none).dfa.states ∧
      (a.determinize none).dfa.chart.walk? (a.determinize none).dfa.initial w =
        some (subsetState (reached a.eliminateEpsilon w)) := by
  have plain := wellFormed_eliminateEpsilon wellFormed
  obtain ⟨done, tracks⟩ := tracks_finished plain
  rw [← alphabet_eliminateEpsilon] at allowed
  obtain ⟨known, walked⟩ := Exploration.walk?_toAutomaton plain tracks allowed
  exact ⟨tracks.subsetState_mem_states known, walked⟩

theorem walk?_determinize_eq_iff (wellFormed : a.WellFormed) (nonempty : w ≠ [])
    (nonempty' : v ≠ []) (allowed : ∀ x ∈ w, x ∈ a.alphabet) (allowed' : ∀ x ∈ v, x ∈ a.alphabet) :
    (a.determinize none).dfa.chart.walk? (a.determinize none).dfa.initial w =
        (a.determinize none).dfa.chart.walk? (a.determinize none).dfa.initial v ↔
      ∀ t, a.Reaches w t ↔ a.Reaches v t := by
  have plain := wellFormed_eliminateEpsilon wellFormed
  rw [(walk?_determinize wellFormed allowed).2, (walk?_determinize wellFormed allowed').2,
    Option.some.injEq]
  simp only [← mem_reached_eliminateEpsilon wellFormed nonempty,
    ← mem_reached_eliminateEpsilon wellFormed nonempty']
  constructor
  · intro same t
    rw [(Exploration.discoverable_reached plain w).eq_of_subsetState_eq
      (Exploration.discoverable_reached plain v) plain.toDeclared same]
  · intro same
    rw [SortedSet.ext same]

/-- The moves of the construction: from a declared state on a letter to a declared state, and from the
sink only back to it. -/
theorem transition_determinize (wellFormed : a.WellFormed) {m : Transition}
    (listed : m ∈ (a.determinize none).dfa.transitions) :
    m.source ∈ (a.determinize none).dfa.states ∧ ∃ x ∈ a.alphabet,
      ∃ d ∈ (a.determinize none).dfa.states, m.symbol = .letter x ∧ m.destinations = .singleton d ∧
        (m.source = .dead → d = .dead) := by
  have plain := wellFormed_eliminateEpsilon wellFormed
  obtain ⟨done, tracks⟩ := tracks_finished plain
  obtain ⟨found, mem, x, letter, rfl⟩ := tracks.mem_transitions.mp listed
  have discovered := tracks.mem_discovered mem
  refine ⟨Exploration.Tracks.mem_states.mpr ⟨found, discovered, rfl⟩, x,
    alphabet_eliminateEpsilon ▸ letter, _,
    tracks.subsetState_mem_states (tracks.closed found mem x letter), rfl, rfl, fun dead => ?_⟩
  rw [tracks.members_of_dead plain discovered dead, Exploration.target_empty, subsetState_empty]

theorem countP_transitions_determinize (wellFormed : a.WellFormed)
    (member : s ∈ (a.determinize none).dfa.states) (letter : x ∈ a.alphabet) :
    (a.determinize none).dfa.transitions.countP (fun t => t.leaves s (.letter x)) = 1 := by
  obtain ⟨t, next⟩ := nextState?_determinize wellFormed member letter
  obtain ⟨m, listed, rfl, symbol, _⟩ := step_of_nextState? next
  rw [← symbol]
  exact Transition.countP_leaves_eq_one
    (isDeterministic_iff.mp (isDeterministic_determinize wellFormed)).2 listed

/-- A word leads the construction to the state that stands for all states the automaton can be in after
the word, and different words to the same state exactly if these are the same. The declared states are
those that a word leads to, and each has one transition for each letter and no other. -/
theorem determinize_tracks_reaches (built : p.toAutomaton kind = .ok a) :
    let d := (a.determinize none).dfa
    (∀ w, w ≠ [] → (∀ x ∈ w, x ∈ a.alphabet) →
      ∃ s, d.chart.walk? d.initial w = some s ∧ StandsFor (a.Reaches w) s) ∧
    (∀ w v, w ≠ [] → v ≠ [] → (∀ x ∈ w, x ∈ a.alphabet) → (∀ x ∈ v, x ∈ a.alphabet) →
      (d.chart.walk? d.initial w = d.chart.walk? d.initial v ↔
        ∀ t, a.Reaches w t ↔ a.Reaches v t)) ∧
    (∀ s, s ∈ d.states ↔
      ∃ w : List String, (∀ x ∈ w, x ∈ a.alphabet) ∧ d.chart.walk? d.initial w = some s) ∧
    (∀ s ∈ d.states, ∀ x ∈ a.alphabet, d.transitions.countP (fun t => t.leaves s (.letter x)) = 1) ∧
    (∀ m ∈ d.transitions, m.source ∈ d.states ∧ ∃ x ∈ a.alphabet, ∃ t ∈ d.states,
      m.symbol = .letter x ∧ m.destinations = .singleton t ∧ (m.source = .dead → t = .dead)) ∧
    d.isDeterministic = true := by
  intro d
  have wellFormed := Parts.wellFormed_of_toAutomaton built
  have plain := wellFormed_eliminateEpsilon wellFormed
  refine ⟨fun w nonempty allowed => ?_, fun w v nonempty nonempty' allowed allowed' => ?_,
    fun s => ⟨fun member => exists_walk?_determinize wellFormed member, ?_⟩,
    fun s member x letter => countP_transitions_determinize wellFormed member letter,
    fun m listed => transition_determinize wellFormed listed, isDeterministic_determinize wellFormed⟩
  · refine ⟨_, (walk?_determinize wellFormed allowed).2, ?_⟩
    exact ((Exploration.discoverable_reached plain w).standsFor plain.toDeclared).congr fun t =>
      mem_reached_eliminateEpsilon wellFormed nonempty
  · exact walk?_determinize_eq_iff wellFormed nonempty nonempty' allowed allowed'
  · rintro ⟨w, allowed, walked⟩
    obtain ⟨member, walked'⟩ := walk?_determinize wellFormed allowed
    rw [show d.chart.walk? d.initial w = _ from walked', Option.some.injEq] at walked
    exact walked ▸ member

/-- One letter `a` leads to two states, and a second one to the same; the sink has its loops. -/
theorem determinize_tracks_reaches_asThenBs :
    let a := asThenBs.collapse
    let d := (a.determinize none).dfa
    d.chart.walk? d.initial ["a"] = some (.composite (.ofList ["a", "b"])) ∧
      StandsFor (a.Reaches ["a"]) (.composite (.ofList ["a", "b"])) ∧
      (∀ t, a.Reaches ["a"] t ↔ a.Reaches ["a", "a"] t) ∧
      d.transitions.countP (fun t => t.leaves .dead (.letter "b")) = 1 := by
  intro a d
  have walked : d.chart.walk? d.initial ["a"] = some (.composite (.ofList ["a", "b"])) := by decide
  have again : d.chart.walk? d.initial ["a", "a"] = d.chart.walk? d.initial ["a"] := by decide
  have sink : State.dead ∈ d.states := UniqueList.contains_iff.mp (by decide)
  have letters : ∀ x ∈ ["a", "b"], x ∈ a.alphabet := fun x member =>
    UniqueList.contains_iff.mp (by revert x; decide)
  obtain ⟨stands, same, _, moves, _⟩ := determinize_tracks_reaches toAutomaton_asThenBs
  obtain ⟨s, walked', standing⟩ := stands ["a"] (by simp) fun x member => letters x (by simp_all)
  rw [walked, Option.some.injEq] at walked'
  refine ⟨walked, walked' ▸ standing, ?_, moves .dead sink "b" (letters "b" (by simp))⟩
  exact (same ["a"] ["a", "a"] (by simp) (by simp) (fun x member => letters x (by simp_all))
    fun x member => letters x (by simp_all)).mp again.symm

end Automaton

end Determinize
