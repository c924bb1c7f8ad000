import Determinize.Automaton.Language
import Determinize.Proofs.Adjacency

/-!
Paths of an automaton and the words they spell. The sets of states that `Automaton.accepts` goes
through are the ends of the paths that spell the letters read so far (`Automaton.mem_statesAfter`),
so a word is accepted exactly if a path spells it and ends in a final state.
-/

namespace Determinize

open Relation (ReflTransGen)

namespace Automaton

/-- Some transition of the automaton goes from one state to the other on the symbol. -/
def Step (a : Automaton) (s : State) (x : Symbol) (t : State) : Prop :=
  ∃ m ∈ a.transitions, m.source = s ∧ m.symbol = x ∧ t ∈ m.destinations

/-- A path of empty moves. -/
abbrev Glides (a : Automaton) : State → State → Prop := ReflTransGen fun s t => a.Step s .epsilon t

/-- A path whose letters spell a word; empty moves may stand anywhere in it. -/
inductive Spells (a : Automaton) : State → List String → State → Prop
  | done {s : State} : Spells a s [] s
  | glide {s t u : State} {w : List String} :
    a.Step s .epsilon t → Spells a t w u → Spells a s w u
  | read {s t u : State} {x : String} {w : List String} :
    a.Step s (.letter x) t → Spells a t w u → Spells a s (x :: w) u

variable {a : Automaton} {s t u : State} {x : String} {w : List String}

theorem mem_nextStates {x : Symbol} : t ∈ a.nextStates s x ↔ a.Step s x t := by
  simp only [nextStates, SortedSet.mem_ofList, List.mem_flatMap, List.mem_filter, Transition.leaves,
    Bool.and_eq_true, decide_eq_true_eq, SortedSet.mem_toList, Step, and_assoc]

theorem mem_epsilonReach : t ∈ a.epsilonGraph.reach s ↔ a.Glides s t := by
  have edges : (Graph.epsilon a.transitions).Edge = fun s t => a.Step s .epsilon t := by
    funext s t
    rw [Graph.edge_epsilon, Step]
    exact propext (exists_congr fun m => and_congr_right fun _ => and_left_comm)
  rw [epsilonGraph, Adjacency.mem_reach_epsilon, edges]

/-! ### Paths -/

theorem Spells.of_glides (glides : a.Glides s t) (path : a.Spells t w u) : a.Spells s w u := by
  induction glides using ReflTransGen.head_induction_on with
  | refl => exact path
  | head step _ ih => exact .glide step ih

theorem spells_nil_iff : a.Spells s [] t ↔ a.Glides s t := by
  constructor
  · intro path
    generalize word : ([] : List String) = w at path
    induction path with
    | done => exact .refl
    | glide step _ ih => exact .head step (ih word)
    | read => cases word
  · exact fun glides => .of_glides glides .done

theorem spells_cons_iff :
    a.Spells s (x :: w) u ↔ ∃ s' t, a.Glides s s' ∧ a.Step s' (.letter x) t ∧ a.Spells t w u := by
  constructor
  · intro path
    generalize word : x :: w = w' at path
    induction path with
    | done => cases word
    | glide step _ ih =>
      obtain ⟨s', t, glides, letter, rest⟩ := ih word
      exact ⟨s', t, .head step glides, letter, rest⟩
    | read step rest =>
      cases word
      exact ⟨_, _, .refl, step, rest⟩
  · intro h
    obtain ⟨s', t, glides, letter, rest⟩ := h
    exact .of_glides glides (.read letter rest)

theorem Spells.append {v : List String} (first : a.Spells s w t) (second : a.Spells t v u) :
    a.Spells s (w ++ v) u := by
  induction first with
  | done => exact second
  | glide step _ ih => exact .glide step (ih second)
  | read step _ ih => exact .read step (ih second)

/-! ### Runs on sets of states -/

theorem mem_advance {current : StateSet} :
    t ∈ a.advance current x ↔
      ∃ s ∈ current, ∃ d, a.Step s (.letter x) d ∧ a.Glides d t := by
  simp only [advance, SortedSet.mem_ofList, List.mem_flatMap, SortedSet.mem_toList, mem_nextStates,
    mem_epsilonReach]
  constructor
  · intro h
    obtain ⟨d, ⟨s, member, step⟩, glides⟩ := h
    exact ⟨s, member, d, step, glides⟩
  · intro h
    obtain ⟨s, member, d, step, glides⟩ := h
    exact ⟨d, ⟨s, member, step⟩, glides⟩

/-- The run of a set that empty moves do not leave. -/
theorem mem_foldl_advance {current : StateSet}
    (closed : ∀ s ∈ current, ∀ t, a.Glides s t → t ∈ current) :
    t ∈ w.foldl a.advance current ↔ ∃ s ∈ current, a.Spells s w t := by
  induction w generalizing current with
  | nil =>
    simp only [List.foldl_nil, spells_nil_iff]
    exact ⟨fun member => ⟨t, member, .refl⟩, fun ⟨s, member, glides⟩ => closed s member t glides⟩
  | cons x w ih =>
    have closed' : ∀ s ∈ a.advance current x, ∀ t, a.Glides s t → t ∈ a.advance current x := by
      intro d member t glides
      obtain ⟨s, start, e, step, before⟩ := mem_advance.mp member
      exact mem_advance.mpr ⟨s, start, e, step, before.trans glides⟩
    rw [List.foldl_cons, ih closed']
    simp only [mem_advance, spells_cons_iff]
    constructor
    · intro h
      obtain ⟨d, ⟨s, member, e, step, glides⟩, path⟩ := h
      exact ⟨s, member, s, e, .refl, step, .of_glides glides path⟩
    · intro h
      obtain ⟨s, member, s', d, glides, step, path⟩ := h
      exact ⟨d, ⟨s', closed s member s' glides, d, step, .refl⟩, path⟩

/-- A run that stops early has come to no state, and no letter leads on from there. -/
theorem run_eq_foldl {current : StateSet} : a.run current w = w.foldl a.advance current := by
  have nowhere : ∀ w, List.foldl a.advance .empty w = .empty := by
    intro w
    induction w with
    | nil => rfl
    | cons x w ih => exact ih
  induction w generalizing current with
  | nil => rfl
  | cons x w ih =>
    rw [run, List.foldl_cons]
    split
    · rename_i stuck
      have none : a.advance current x = .empty := SortedSet.eq_empty_iff.mpr fun t member =>
        List.ne_nil_of_mem member (List.isEmpty_iff.mp stuck)
      rw [none, nowhere]
    · exact ih

theorem mem_statesAfter : t ∈ a.statesAfter w ↔ a.Spells a.initial w t := by
  have closed : ∀ s ∈ a.epsilonGraph.reach a.initial, ∀ t, a.Glides s t →
      t ∈ a.epsilonGraph.reach a.initial := by
    intro s member t glides
    exact mem_epsilonReach.mpr ((mem_epsilonReach.mp member).trans glides)
  rw [statesAfter, run_eq_foldl, mem_foldl_advance closed]
  simp only [mem_epsilonReach]
  constructor
  · intro h
    obtain ⟨s, glides, path⟩ := h
    exact .of_glides glides path
  · exact fun path => ⟨a.initial, .refl, path⟩

theorem isFinal_iff : a.isFinal s = true ↔ s ∈ a.finals := UniqueList.contains_iff

theorem accepts_iff : a.accepts w = true ↔ ∃ s ∈ a.finals, a.Spells a.initial w s := by
  simp only [accepts, List.any_eq_true, SortedSet.mem_toList, mem_statesAfter, isFinal_iff]
  exact exists_congr fun s => and_comm

/-! ### Paths without empty moves -/

theorem not_step_epsilon (noEpsilon : a.hasEpsilon = false) : ¬ a.Step s .epsilon t := by
  intro h
  obtain ⟨m, member, _, symbol, _⟩ := h
  have := List.any_eq_false.mp noEpsilon m member
  simp [symbol, Symbol.isEpsilon] at this

theorem glides_iff_eq (noEpsilon : a.hasEpsilon = false) : a.Glides s t ↔ s = t := by
  constructor
  · intro glides
    obtain rfl | ⟨u, step, _⟩ := glides.cases_head
    · rfl
    · exact absurd step (not_step_epsilon noEpsilon)
  · rintro rfl
    exact .refl

theorem spells_cons_iff_of_no_epsilon (noEpsilon : a.hasEpsilon = false) :
    a.Spells s (x :: w) u ↔ ∃ t, a.Step s (.letter x) t ∧ a.Spells t w u := by
  rw [spells_cons_iff]
  constructor
  · intro h
    obtain ⟨s', t, glides, step, path⟩ := h
    obtain rfl := (glides_iff_eq noEpsilon).mp glides
    exact ⟨t, step, path⟩
  · intro h
    obtain ⟨t, step, path⟩ := h
    exact ⟨s, t, .refl, step, path⟩

end Automaton

end Determinize
