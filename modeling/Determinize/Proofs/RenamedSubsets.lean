import Determinize.Proofs.Exploration
import Determinize.Proofs.Renaming

/-!
The subset construction of a renamed automaton. The state that stands for a renamed set is the renamed
state that stands for the set (`subsetLabel?_rename`), whatever the order of the names. Every step of
the search is that of the given automaton, renamed, so with any budget the construction is that of the
given automaton, renamed (`determinize_rename`).
-/

namespace Determinize

variable {r : Renaming}

/-! ### Labels -/

namespace State

variable {names : List String}

theorem combine_rename : combine (names.map r.name) = (combine names).map (rename r) := by
  rw [combine, combine, ← SortedSet.map_ofList]
  rcases SortedSet.shape (SortedSet.ofList names) with none | ⟨n, one⟩ | ⟨m, n, l, two⟩
  · rw [none]
    rfl
  · rw [one]
    rfl
  · obtain ⟨m', n', l', two'⟩ := SortedSet.exists_toList_map r.name_injective two
    simp only [two, two']
    rfl

end State

theorem subsetLabel?_rename {set : StateSet} :
    subsetLabel? (set.map (State.rename r)) = (subsetLabel? set).map (State.rename r) := by
  rcases SortedSet.shape set with rfl | ⟨s, rfl⟩ | ⟨s, t, l, two⟩
  · rfl
  · rfl
  · obtain ⟨s', t', l', two'⟩ := SortedSet.exists_toList_map (State.rename_injective r) two
    have several : ∀ {set : StateSet} {s t l}, set.toList = s :: t :: l →
        subsetLabel? set = State.combine (set.toList.flatMap State.members) := by
      intro set s t l two
      rw [subsetLabel?, two]
    rw [several two, several two', ← State.combine_rename]
    apply State.combine_congr
    intro n
    simp only [List.mem_flatMap, List.mem_map, SortedSet.mem_toList, SortedSet.mem_map,
      exists_exists_and_eq_and, State.mem_members_rename]
    grind

/-! ### The search -/

def Subset.rename (r : Renaming) (found : Subset) : Subset where
  members := found.members.map (State.rename r)
  label := found.label.rename r

def Event.rename (r : Renaming) : Event → Event
  | expanding s => expanding (s.rename r)
  | moving s x t => moving (s.rename r) x (t.rename r)
  | addingDead s x => addingDead (s.rename r) x
  | merging s t => merging (s.rename r) (t.rename r)
  | event => event

namespace Exploration

variable {a : Automaton} {e : Exploration} {set : StateSet} {s t : State} {x : String}
  {current found : Subset}

def rename (r : Renaming) (e : Exploration) : Exploration where
  discovered := e.discovered.map (Subset.rename r)
  pending := e.pending.map (Subset.rename r)
  transitions := e.transitions.map (Transition.rename r)
  steps := e.steps
  events := e.events.map (Event.rename r)

theorem knows_rename (set : StateSet) :
    (e.rename r).knows (set.map (State.rename r)) = e.knows set := by
  have sets := SortedSet.map_injective (State.rename_injective r)
  simp only [knows, rename, List.any_map, Function.comp_def, Subset.rename, sets.eq_iff]

theorem addMove_rename :
    (e.rename r).addMove (s.rename r) x (t.rename r) = (e.addMove s x t).rename r := by
  simp only [addMove, rename, List.map_append, List.map_singleton]
  rfl

theorem report_rename (event : Event) :
    (e.rename r).report (event.rename r) = (e.report event).rename r := by
  simp only [report, rename, List.map_append, List.map_singleton]

theorem enqueue_rename : (e.rename r).enqueue (found.rename r) = (e.enqueue found).rename r := by
  rw [enqueue, enqueue, show (found.rename r).members = found.members.map (State.rename r) from rfl,
    knows_rename]
  split
  · rfl
  · simp only [rename, List.map_append, List.map_cons, List.map_nil]

theorem addDead_rename :
    addDead (a.rename r) (e.rename r) (s.rename r) x = (addDead a e s x).rename r := by
  have known : (e.rename r).knows .empty = e.knows .empty := knows_rename .empty
  have reported : (e.rename r).report (.addingDead (s.rename r) x) =
      (e.report (.addingDead s x)).rename r := report_rename (.addingDead s x)
  have loops : ∀ (letters : List String) (e : Exploration),
      letters.foldl (fun e y => e.addMove .dead y .dead) (e.rename r) =
        (letters.foldl (fun e y => e.addMove .dead y .dead) e).rename r := fun _ _ =>
    List.foldl_hom (rename r) fun e y => addMove_rename (s := .dead) (t := .dead)
  rw [addDead, addDead, known]
  split
  · rfl
  · simp only [Automaton.alphabet_rename, reported, loops]
    simp only [rename, List.map_append, List.map_cons, List.map_nil]
    rfl

theorem target_rename :
    target (a.rename r) (set.map (State.rename r)) x = (target a set x).map (State.rename r) := by
  apply SortedSet.ext
  intro t'
  simp only [mem_target, SortedSet.mem_map, exists_exists_and_eq_and, Automaton.step_rename]
  constructor
  · rintro ⟨live, s, member, t, step, rfl⟩
    exact ⟨t, ⟨State.rename_eq_dead_iff.not.mp live, s, member, step⟩, rfl⟩
  · rintro ⟨t, ⟨live, s, member, step⟩, rfl⟩
    exact ⟨State.rename_eq_dead_iff.not.mpr live, s, member, t, step, rfl⟩

theorem follow_rename :
    follow (a.rename r) (current.rename r) (e.rename r) x = (follow a current e x).rename r := by
  have members : (current.rename r).members = current.members.map (State.rename r) := rfl
  rw [follow, follow, members, target_rename, subsetLabel?_rename]
  cases labelled : subsetLabel? (target a current.members x) with
  | none =>
    rw [← addMove_rename, ← addDead_rename]
    rfl
  | some label =>
    rw [← enqueue_rename, ← addMove_rename, ← report_rename]
    rfl

theorem expand_rename :
    expand (a.rename r) (current.rename r) (e.rename r) = (expand a current e).rename r := by
  have reported : (e.rename r).report (.expanding (current.label.rename r)) =
      (e.report (.expanding current.label)).rename r := report_rename (.expanding current.label)
  have followed : ∀ (letters : List String) (e : Exploration),
      letters.foldl (follow (a.rename r) (current.rename r)) (e.rename r) =
        (letters.foldl (follow a current) e).rename r := fun _ _ =>
    List.foldl_hom (rename r) fun e x => follow_rename
  rw [expand, expand, show (current.rename r).label = current.label.rename r from rfl, reported,
    Automaton.alphabet_rename, followed]
  rfl

theorem step_rename : step (a.rename r) (e.rename r) = (step a e).rename r := by
  have pending : (e.rename r).pending = e.pending.map (Subset.rename r) := rfl
  rw [step, step, pending]
  cases e.pending with
  | nil => rfl
  | cons current rest => exact expand_rename (e := { e with pending := rest })

theorem run_rename (limit : Nat) : run (a.rename r) limit (e.rename r) = (run a limit e).rename r := by
  induction limit generalizing e with
  | zero => rfl
  | succ limit ih =>
    rw [run, run, step_rename, ih, show (e.rename r).pending.isEmpty = e.pending.isEmpty from
      List.isEmpty_map]
    split <;> rfl

theorem start_rename : start (a.rename r) = (start a).rename r := by
  have live : liveStates [a.initial.rename r] = (liveStates [a.initial]).map (State.rename r) := by
    rw [liveStates, liveStates, SortedSet.map_ofList]
    simp only [List.filter_cons, State.isDead_rename]
    split <;> rfl
  rw [start, Automaton.initial_rename, live]
  rfl

theorem finals_rename : (e.rename r).finals (a.rename r) = (e.finals a).map (State.rename r) := by
  rw [finals, finals, UniqueList.map_ofList (State.rename_injective r)]
  simp only [rename, List.filter_map, List.map_map, Function.comp_def, Subset.rename,
    SortedSet.any_toList_map, Automaton.isFinal_rename]

theorem toAutomaton_rename :
    (e.rename r).toAutomaton (a.rename r) = (e.toAutomaton a).rename r := by
  have labels : UniqueList.ofList ((e.rename r).discovered.map (·.label)) =
      (UniqueList.ofList (e.discovered.map (·.label))).map (State.rename r) := by
    rw [UniqueList.map_ofList (State.rename_injective r), rename, List.map_map, List.map_map]
    rfl
  rw [toAutomaton, finals_rename, labels]
  rfl

end Exploration

/-! ### The construction -/

def Construction.rename (r : Renaming) (c : Construction) : Construction :=
  { c with dfa := c.dfa.rename r }

namespace Automaton

variable {a : Automaton}

theorem explore_rename (budget : Option Nat) :
    (a.rename r).explore budget = (a.explore budget).rename r := by
  rw [explore, explore, subsetCount, size_states_rename, ← subsetCount, Exploration.start_rename,
    Exploration.run_rename]

/-- Renaming and determinization can be exchanged. -/
theorem determinize_rename (budget : Option Nat) :
    (a.rename r).determinize budget = (a.determinize budget).rename r := by
  have interrupted : ((a.eliminateEpsilon.explore budget).rename r).isInterrupted =
      (a.eliminateEpsilon.explore budget).isInterrupted := congrArg not List.isEmpty_map
  simp only [determinize, eliminateEpsilon_rename, explore_rename, Exploration.toAutomaton_rename,
    interrupted]
  rfl

end Automaton

end Determinize
