import Determinize.Proofs.Pipeline
import Determinize.Proofs.RenamedSubsets
import Mathlib.Logic.Equiv.Basic

/-!
Merging in a renamed automaton. The table of a deterministic automaton, renamed, is the table of the
renamed automaton (`Reduction.start_rename`), and every merge that a sweep or a class makes in the one
is made in the other (`Reduction.reduce_rename`). So names carry no meaning for any of the stages
(`Automaton.stages_rename`).
-/

namespace Determinize

variable {r : Renaming}

/-- A fold over images by steps that keep the images. -/
theorem foldl_image {α β γ δ : Type} {f : α → β} {g : γ → δ} {before : α → γ → α}
    {after : β → δ → β} (step : ∀ a c, after (f a) (g c) = f (before a c)) (l : List γ) (a : α) :
    (l.map g).foldl after (f a) = f (l.foldl before a) := by
  rw [List.foldl_map]
  exact List.foldl_hom f step

namespace Row

variable {row other : Row} {removed kept : State} {x : String}

def rename (r : Renaming) (row : Row) : Row where
  state := row.state.rename r
  isFinal := row.isFinal
  moves := row.moves.map (Prod.map id (State.rename r))

theorem next?_rename : (row.rename r).next? x = (row.next? x).map (State.rename r) := by
  rw [next?, next?, rename]
  induction row.moves with
  | nil => rfl
  | cons move moves ih =>
    rw [List.map_cons, List.lookup_cons, List.lookup_cons, ih]
    simp only [Prod.map, id]
    split <;> rfl

theorem agrees_rename : (row.rename r).agrees (other.rename r) = row.agrees other := by
  have moves : Function.Injective (List.map (Prod.map (id : String → String) (State.rename r))) :=
    List.map_injective_iff.mpr (Function.injective_id.prodMap (State.rename_injective r))
  rw [Bool.eq_iff_iff, agrees_iff, agrees_iff]
  exact and_congr_right' moves.eq_iff

theorem redirect_rename : (row.rename r).redirect (removed.rename r) (kept.rename r) =
    (row.redirect removed kept).rename r := by
  simp only [redirect, rename, List.map_map, Row.mk.injEq, true_and]
  refine List.map_congr_left fun move _ => ?_
  simp only [Function.comp_apply, Prod.map, id, State.rename_inj]
  split <;> rfl

end Row

def Merge.rename (r : Renaming) (merge : Merge) : Merge where
  removed := merge.removed.rename r
  kept := merge.kept.rename r

namespace Reduction

variable {a : Automaton} {m : Reduction} {p : Partition} {s removed kept initial : State} {x : String}
  {row : Row}

def rename (r : Renaming) (m : Reduction) : Reduction where
  rows := m.rows.map (Row.rename r)
  merges := m.merges.map (Merge.rename r)

theorem row?_rename : (m.rename r).row? (s.rename r) = (m.row? s).map (Row.rename r) := by
  simp only [row?, rename, List.find?_map, Function.comp_def, Row.rename, State.rename_inj]

theorem isLive_rename : (m.rename r).isLive (s.rename r) = m.isLive s := by
  rw [isLive, row?_rename, Option.isSome_map, isLive]

theorem next?_rename : (m.rename r).next? (s.rename r) x = (m.next? s x).map (State.rename r) := by
  rw [next?, next?, row?_rename, Option.bind_map, Option.map_bind]
  exact congrArg _ (funext fun row => Row.next?_rename)

theorem remove_rename :
    (m.rename r).remove (removed.rename r) (kept.rename r) = (m.remove removed kept).rename r := by
  simp only [remove, rename, List.filter_map, List.map_map, List.map_append, List.map_cons,
    List.map_nil, Function.comp_def, Row.rename, ne_eq, State.rename_inj, Reduction.mk.injEq]
  exact ⟨List.map_congr_left fun row _ => Row.redirect_rename, rfl⟩

/-! ### Sweeps -/

theorem twin?_rename : (m.rename r).twin? (row.rename r) = (m.twin? row).map (State.rename r) := by
  have state : ∀ row : Row, (row.rename r).state = row.state.rename r := fun _ => rfl
  simp only [twin?, rename, List.find?_map, Option.map_map, Function.comp_def, Row.agrees_rename,
    state, ne_eq, State.rename_inj]

theorem absorb_rename :
    absorb (initial.rename r) (m.rename r) (s.rename r) = (absorb initial m s).rename r := by
  rw [absorb, absorb, row?_rename, row?_rename]
  cases m.row? initial with
  | none => rfl
  | some row =>
    cases m.row? s with
    | none => rfl
    | some other =>
      simp only [Option.map_some, ne_eq, State.rename_inj, State.isDead_rename, Row.agrees_rename,
        remove_rename]
      split <;> rfl

theorem mergeState_rename :
    mergeState (a.rename r) (m.rename r) (s.rename r) = (mergeState a m s).rename r := by
  rw [mergeState, mergeState, row?_rename]
  cases m.row? s with
  | none => rfl
  | some row =>
    simp only [Option.map_some, Automaton.initial_rename, State.rename_inj, State.isDead_rename,
      twin?_rename, Automaton.toList_states_rename]
    split
    · exact foldl_image (fun m t => absorb_rename) _ _
    · split
      · rfl
      · cases m.twin? row with
        | none => rfl
        | some kept => exact remove_rename

theorem sweep_rename : (m.rename r).sweep (a.rename r) = (m.sweep a).rename r := by
  rw [sweep, sweep, Automaton.toList_states_rename]
  exact foldl_image (fun m s => mergeState_rename) _ _

theorem sweeps_rename (limit : Nat) :
    sweeps (a.rename r) limit (m.rename r) = (sweeps a limit m).rename r := by
  induction limit generalizing m with
  | zero => rfl
  | succ limit ih =>
    have merged : ∀ m : Reduction, (m.rename r).merges.length = m.merges.length := fun _ =>
      List.length_map _
    simp only [sweeps, sweep_rename, merged, ih]
    split <;> rfl

/-! ### Classes -/

def renameClasses (r : Renaming) (p : Partition) : Partition := p.map (List.map (State.rename r))

theorem classOf_rename : classOf (renameClasses r p) (s.rename r) = classOf p s := by
  simp only [classOf, renameClasses, List.findIdx_map, Function.comp_def,
    List.mem_map_of_injective (State.rename_injective r)]

theorem signature_rename : signature (renameClasses r p) (row.rename r) = signature p row := by
  simp only [signature, Row.rename, classOf_rename, List.map_map, Prod.mk.injEq, true_and]
  exact List.map_congr_left fun move _ => congrArg (Prod.mk move.1) classOf_rename

theorem groupBy_map {α β κ : Type} [DecidableEq κ] {f : α → β} {before : α → κ} {after : β → κ}
    (same : ∀ x, after (f x) = before x) (l : List α) :
    groupBy after (l.map f) = (groupBy before l).map (List.map f) := by
  simp only [groupBy, List.map_map, List.filter_map, Function.comp_def, same]

theorem finality_rename : (m.rename r).finality = renameClasses r m.finality := by
  have same : ∀ row : Row, (row.rename r).isFinal = row.isFinal := fun _ => rfl
  rw [finality, finality, rename, groupBy_map same]
  simp only [renameClasses, List.map_map, Function.comp_def]
  rfl

theorem split_rename : (m.rename r).split (renameClasses r p) = renameClasses r (m.split p) := by
  rw [split, split, rename, groupBy_map fun row => signature_rename]
  simp only [renameClasses, List.map_map, Function.comp_def]
  rfl

theorem refine_rename (limit : Nat) :
    (m.rename r).refine limit (renameClasses r p) = renameClasses r (m.refine limit p) := by
  induction limit generalizing p with
  | zero => rfl
  | succ limit ih =>
    have size : ∀ p : Partition, (renameClasses r p).length = p.length := fun _ => List.length_map _
    simp only [refine, split_rename, size, ih]
    split <;> rfl

theorem classes_rename : (m.rename r).classes = renameClasses r m.classes := by
  rw [classes, classes, finality_rename, refine_rename,
    show (m.rename r).rows.length = m.rows.length from List.length_map _]

theorem keeper?_rename (members : List State) :
    keeper? (initial.rename r) (members.map (State.rename r)) =
      (keeper? initial members).map (State.rename r) := by
  have listed := fun s => List.mem_map_of_injective (State.rename_injective r) (a := s) (l := members)
  have dead : .dead ∈ members.map (State.rename r) ↔ .dead ∈ members := listed .dead
  simp only [keeper?, listed, dead, List.head?_map]
  split
  · rfl
  · split <;> rfl

theorem mergeClass_rename (members : List State) :
    mergeClass (initial.rename r) (m.rename r) (members.map (State.rename r)) =
      (mergeClass initial m members).rename r := by
  rw [mergeClass, mergeClass, keeper?_rename]
  cases keeper? initial members with
  | none => rfl
  | some kept =>
    simp only [Option.map_some, List.filter_map, Function.comp_def, ne_eq, State.rename_inj,
      State.isDead_rename]
    exact foldl_image (fun m s => remove_rename) _ _

theorem mergeClasses_rename : (m.rename r).mergeClasses (a.rename r) = (m.mergeClasses a).rename r := by
  rw [mergeClasses, mergeClasses, classes_rename]
  exact foldl_image (fun m members => mergeClass_rename members) _ _

/-! ### The reduced automaton -/

theorem start_rename (deterministic : a.isDeterministic = true) :
    start (a.rename r) = (start a).rename r := by
  have row : ∀ s, Row.mk (s.rename r) ((a.rename r).isFinal (s.rename r))
      (a.alphabet.toList.filterMap fun x =>
        ((a.rename r).nextState? (s.rename r) (.letter x)).map fun d => (x, d)) =
      Row.rename r ⟨s, a.isFinal s, a.alphabet.toList.filterMap fun x =>
        (a.nextState? s (.letter x)).map fun d => (x, d)⟩ := by
    intro s
    simp only [Row.rename, Automaton.isFinal_rename, Automaton.nextState?_rename deterministic,
      List.map_filterMap, Option.map_map]
    rfl
  simp only [start, rename, Automaton.toList_states_rename, List.map_map, Reduction.mk.injEq]
  exact ⟨List.map_congr_left fun s _ => row s, rfl⟩

theorem reduce_rename (deterministic : a.isDeterministic = true) (mode : MergeMode) :
    reduce (a.rename r) mode = (reduce a mode).rename r := by
  cases mode with
  | singlePass => rw [reduce, reduce, start_rename deterministic, sweep_rename]
  | fixpoint =>
    rw [reduce, reduce, start_rename deterministic, Automaton.size_states_rename, sweeps_rename]
  | refine => rw [reduce, reduce, start_rename deterministic, mergeClasses_rename]

theorem transitions_rename (earlier ts : List Transition) :
    (m.rename r).transitions (earlier.map (Transition.rename r)) (ts.map (Transition.rename r)) =
      (m.transitions earlier ts).map (Transition.rename r) := by
  induction ts generalizing earlier with
  | nil => rfl
  | cons t rest ih =>
    have later : (m.rename r).transitions (t.rename r :: earlier.map (Transition.rename r))
        (rest.map (Transition.rename r)) =
        (m.transitions (t :: earlier) rest).map (Transition.rename r) := ih (t :: earlier)
    have next : t.symbol.letter?.bind ((m.rename r).next? (t.source.rename r)) =
        (t.symbol.letter?.bind (m.next? t.source)).map (State.rename r) := by
      rw [Option.map_bind]
      exact congrArg _ (funext fun x => next?_rename)
    have seen : ((earlier.map (Transition.rename r)).any fun e =>
        e.leaves (t.source.rename r) t.symbol) = earlier.any fun e => e.leaves t.source t.symbol := by
      simp only [List.any_map, Function.comp_def, Transition.leaves_rename]
    simp only [List.map_cons, transitions, show (t.rename r).source = t.source.rename r from rfl,
      show (t.rename r).symbol = t.symbol from rfl, seen, next, later]
    split
    · rfl
    · cases t.symbol.letter?.bind (m.next? t.source) <;> rfl

theorem toAutomaton_rename :
    (m.rename r).toAutomaton (a.rename r) = (m.toAutomaton a).rename r := by
  have live := fun s : State => isLive_rename (r := r) (m := m) (s := s)
  have kept := fun l : UniqueList State =>
    UniqueList.map_filter (s := l) (State.rename_injective r) live
  simp only [toAutomaton, Automaton.rename, kept, Automaton.mk.injEq, true_and]
  exact transitions_rename [] a.transitions

end Reduction

namespace Automaton

variable {a : Automaton}

theorem minimize_rename (declared : a.Declared) (deterministic : a.isDeterministic = true)
    (mode : MergeMode) : (a.rename r).minimize mode = (a.minimize mode).rename r := by
  rw [minimize_eq (declared_rename declared), minimize_eq declared, Reduction.reduce_rename deterministic, Reduction.toAutomaton_rename]

/-- Names carry no meaning. A renamed automaton is one of the same kind, and each stage makes of it
what it makes of the given automaton, renamed, with as many expansions and its transitions in the same
order. -/
theorem stages_rename {p : Parts} {kind : Kind} (r : Renaming) (built : p.toAutomaton kind = .ok a) :
    (a.rename r).parts.toAutomaton kind = .ok (a.rename r) ∧
      (a.rename r).eliminateEpsilon = a.eliminateEpsilon.rename r ∧
      (∀ budget, (a.rename r).determinize budget = (a.determinize budget).rename r) ∧
      (a.isDeterministic = true → ∀ mode, (a.rename r).minimize mode = (a.minimize mode).rename r) :=
  ⟨rebuild_rename built, eliminateEpsilon_rename, determinize_rename,
    minimize_rename (Parts.wellFormed_of_toAutomaton built).toDeclared⟩

/-- The first name in the order takes the place of the last one. -/
def exchange : Renaming := (Equiv.swap ⟨"a", by decide⟩ ⟨"start", by decide⟩).toEmbedding

theorem stages_rename_exchange :
    let a := (asThenBs.collapse.determinize none).dfa
    a.rename exchange ≠ a ∧
      (asThenBs.collapse.rename exchange).determinize (some 2) =
        (asThenBs.collapse.determinize (some 2)).rename exchange ∧
      (a.rename exchange).parts.toAutomaton .deterministic = .ok (a.rename exchange) ∧
      (a.rename exchange).minimize .fixpoint = (a.minimize .fixpoint).rename exchange := by
  intro a
  have built : a.parts.toAutomaton .deterministic = .ok a := by decide +kernel
  have deterministic : a.isDeterministic = true := by decide +kernel
  obtain ⟨_, _, constructions, _⟩ := stages_rename exchange toAutomaton_asThenBs
  obtain ⟨rebuilt, _, _, minimized⟩ := stages_rename exchange built
  exact ⟨by decide +kernel, constructions (some 2), rebuilt, minimized deterministic .fixpoint⟩

end Automaton

end Determinize
