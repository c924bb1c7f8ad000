import Determinize.Proofs.Path
import Determinize.Proofs.WellFormed

/-!
Walks of a partial transition function. A deterministic automaton and the table of a reduction are
both charts: a state has at most one next state on a letter. How the walks on all words end is what
tells two states apart.
-/

namespace Determinize

open Relation (ReflTransGen)

/-- At most one next state for every state and letter, and the states that are final. -/
structure Chart where
  next? : State → String → Option State
  isFinal : State → Bool

namespace Chart

variable {c d : Chart} {s t u : State} {x : String} {w : List String}

/-- Where the walk on a word ends; it may get stuck. -/
def walk? (c : Chart) (s : State) : List String → Option State
  | [] => some s
  | x :: w => (c.next? s x).bind fun t => c.walk? t w

/-- Whether the walk on a word ends in a final state, unless it gets stuck. -/
def outcome? (c : Chart) (s : State) (w : List String) : Option Bool :=
  (c.walk? s w).map c.isFinal

theorem outcome?_nil : c.outcome? s [] = some (c.isFinal s) := rfl

theorem outcome?_cons :
    c.outcome? s (x :: w) = (c.next? s x).bind fun t => c.outcome? t w := by
  rw [outcome?, walk?, Option.map_bind]
  rfl

theorem walk?_append {v : List String} :
    c.walk? s (w ++ v) = (c.walk? s w).bind fun t => c.walk? t v := by
  induction w generalizing s with
  | nil => rfl
  | cons x w ih =>
    rw [List.cons_append, walk?, walk?, Option.bind_assoc]
    exact congrArg _ (funext fun t => ih)

theorem outcome?_append {v : List String} :
    c.outcome? s (w ++ v) = (c.walk? s w).bind fun t => c.outcome? t v := by
  rw [outcome?, walk?_append, Option.map_bind]
  rfl

theorem isFinal_eq (same : c.outcome? s = d.outcome? t) : c.isFinal s = d.isFinal t :=
  Option.some.inj (congrFun same [])

/-- States whose walks end alike have next states on the same letters, whose walks end alike. -/
theorem next?_rel (same : c.outcome? s = d.outcome? t) (x : String) :
    Option.Rel (fun u v => c.outcome? u = d.outcome? v) (c.next? s x) (d.next? t x) := by
  have after : ∀ w, ((c.next? s x).bind fun u => c.outcome? u w) =
      (d.next? t x).bind fun v => d.outcome? v w := by
    intro w
    rw [← outcome?_cons, ← outcome?_cons, same]
  cases left : c.next? s x with
  | none =>
    cases right : d.next? t x with
    | none => exact .none
    | some v =>
      have := after []
      simp [left, right, outcome?_nil] at this
  | some u =>
    cases right : d.next? t x with
    | none =>
      have := after []
      simp [left, right, outcome?_nil] at this
    | some v =>
      refine .some (funext fun w => ?_)
      have := after w
      rwa [left, right] at this

theorem bind_eq_of_rel {α β γ : Type} {related : α → β → Prop} {a : Option α} {b : Option β}
    {f : α → Option γ} {g : β → Option γ} (rel : Option.Rel related a b)
    (same : ∀ u v, related u v → f u = g v) : a.bind f = b.bind g := by
  cases rel with
  | none => rfl
  | some both => exact same _ _ both

theorem map_eq_of_rel {α β γ : Type} {related : α → β → Prop} {a : Option α} {b : Option β}
    {f : α → γ} {g : β → γ} (rel : Option.Rel related a b)
    (same : ∀ u v, a = some u → b = some v → related u v → f u = g v) : a.map f = b.map g := by
  cases rel with
  | none => rfl
  | some both => exact congrArg some (same _ _ rfl rfl both)

theorem rel_of_map_eq {α β γ : Type} {related : α → β → Prop} {a : Option α} {b : Option β}
    {f : α → γ} {g : β → γ} (images : a.map f = b.map g)
    (same : ∀ u v, a = some u → b = some v → f u = g v → related u v) : Option.Rel related a b := by
  cases a with
  | none =>
    rw [Option.map_none, eq_comm, Option.map_eq_none_iff] at images
    exact images ▸ .none
  | some u =>
    obtain ⟨v, rfl, value⟩ := Option.map_eq_some_iff.mp images.symm
    exact .some (same u v rfl rfl value.symm)

theorem rel_map_left {α β γ : Type} {related : α → β → Prop} {other : γ → β → Prop} {a : Option α}
    {b : Option β} {f : α → γ} (rel : Option.Rel related a b)
    (same : ∀ u v, a = some u → related u v → other (f u) v) : Option.Rel other (a.map f) b := by
  cases rel with
  | none => exact .none
  | some both => exact .some (same _ _ rfl both)

/-- A relation kept by the next states, between states of equal finality, relates states whose walks
end alike. -/
theorem outcome?_eq_of_kept {related : State → State → Prop}
    (final : ∀ s t, related s t → c.isFinal s = d.isFinal t)
    (next : ∀ s t x, related s t → Option.Rel related (c.next? s x) (d.next? t x))
    (start : related s t) : c.outcome? s = d.outcome? t := by
  funext w
  induction w generalizing s t with
  | nil => rw [outcome?_nil, outcome?_nil, final s t start]
  | cons x w ih =>
    rw [outcome?_cons, outcome?_cons]
    exact bind_eq_of_rel (next s t x start) fun u v kept => ih kept

end Chart

namespace Automaton

variable {a : Automaton} {s t : State} {x : Symbol} {w : List String}

/-- The first transitions of the automaton with their least destinations. -/
def chart (a : Automaton) : Chart := ⟨fun s x => a.nextState? s (.letter x), a.isFinal⟩

theorem min?_mem {set : StateSet} (least : set.min? = some t) : t ∈ set :=
  List.mem_of_mem_head? (Option.mem_def.mpr least)

theorem leaves_of_find? {ts : List Transition} {m : Transition}
    (found : ts.find? (fun t => t.leaves s x) = some m) :
    m ∈ ts ∧ m.source = s ∧ m.symbol = x := by
  have left := List.find?_some found
  exact ⟨List.mem_of_find?_eq_some found, Transition.leaves_iff.mp left⟩

theorem step_of_nextState? (next : a.nextState? s x = some t) : a.Step s x t := by
  obtain ⟨m, found, least⟩ := Option.bind_eq_some_iff.mp next
  obtain ⟨member, source, symbol⟩ := leaves_of_find? found
  exact ⟨m, member, source, symbol, min?_mem least⟩

theorem nextState?_eq_some_iff (deterministic : a.isDeterministic = true) :
    a.nextState? s x = some t ↔ a.Step s x t := by
  refine ⟨step_of_nextState?, ?_⟩
  rintro ⟨m, member, rfl, rfl, target⟩
  obtain ⟨_, d, _, only⟩ :=
    Transition.isSingle_iff.mp ((isDeterministic_iff.mp deterministic).1 m member)
  have found : a.transitions.find? (fun n => n.leaves m.source m.symbol) = some m := by
    cases first : a.transitions.find? (fun n => n.leaves m.source m.symbol) with
    | none =>
      exact absurd (Transition.leaves_iff.mpr ⟨rfl, rfl⟩) (List.find?_eq_none.mp first m member)
    | some n =>
      obtain ⟨other, source, symbol⟩ := leaves_of_find? first
      rw [eq_of_leaves deterministic other member source symbol]
  rw [only] at target
  rw [nextState?, found, SortedSet.mem_singleton.mp target, Option.bind_some, only]
  rfl

theorem leads_iff_step : a.Leads s t ↔ ∃ y, a.Step s y t := by
  rw [Leads, Graph.edge_ofTransitions]
  constructor
  · intro h
    obtain ⟨m, member, source, target⟩ := h
    exact ⟨m.symbol, m, member, source, rfl, target⟩
  · intro h
    obtain ⟨_, m, member, source, _, target⟩ := h
    exact ⟨m, member, source, target⟩

theorem leads_of_spells (path : a.Spells s w t) : ReflTransGen a.Leads s t := by
  induction path with
  | done => exact .refl
  | glide step _ ih => exact .head (leads_iff_step.mpr ⟨_, step⟩) ih
  | read step _ ih => exact .head (leads_iff_step.mpr ⟨_, step⟩) ih

theorem exists_spells_of_leads (path : ReflTransGen a.Leads s t) : ∃ w, a.Spells s w t := by
  induction path using ReflTransGen.head_induction_on with
  | refl => exact ⟨[], .done⟩
  | head leads _ ih =>
    obtain ⟨y, step⟩ := leads_iff_step.mp leads
    obtain ⟨w, path⟩ := ih
    cases y with
    | epsilon => exact ⟨w, .glide step path⟩
    | letter x => exact ⟨x :: w, .read step path⟩

theorem mem_alphabet_of_spells (declared : a.Declared) (path : a.Spells s w t) :
    ∀ x ∈ w, x ∈ a.alphabet := by
  induction path with
  | done => simp
  | glide _ _ ih => exact ih
  | read step _ ih =>
    obtain ⟨m, member, _, symbol, _⟩ := step
    exact List.forall_mem_cons.mpr ⟨(declared.transitions m member).letter _ symbol, ih⟩

theorem leads_of_walk? (walked : a.chart.walk? s w = some t) : ReflTransGen a.Leads s t := by
  induction w generalizing s with
  | nil =>
    cases walked
    exact .refl
  | cons x w ih =>
    obtain ⟨u, next, rest⟩ := Option.bind_eq_some_iff.mp walked
    exact .head (leads_iff_step.mpr ⟨_, step_of_nextState? next⟩) (ih rest)

/-- A deterministic automaton has one path to go on. -/
theorem spells_iff_walk? (deterministic : a.isDeterministic = true) :
    a.Spells s w t ↔ a.chart.walk? s w = some t := by
  have noEpsilon := hasEpsilon_eq_false deterministic
  induction w generalizing s with
  | nil => rw [spells_nil_iff, glides_iff_eq noEpsilon, Chart.walk?, Option.some.injEq]
  | cons x w ih =>
    rw [spells_cons_iff_of_no_epsilon noEpsilon, Chart.walk?, Option.bind_eq_some_iff]
    exact exists_congr fun u => and_congr (nextState?_eq_some_iff deterministic).symm ih

theorem accepts_iff_outcome? (deterministic : a.isDeterministic = true) :
    a.accepts w = true ↔ a.chart.outcome? a.initial w = some true := by
  rw [accepts_iff, Chart.outcome?, Option.map_eq_some_iff]
  simp only [spells_iff_walk? deterministic]
  apply exists_congr
  intro s
  rw [and_comm]
  exact and_congr_right fun _ => isFinal_iff.symm

theorem nextState?_eq_none {x : String} (declared : a.Declared) (absent : x ∉ a.alphabet) :
    a.nextState? s (.letter x) = none := by
  apply Option.eq_none_iff_forall_ne_some.mpr
  intro t next
  obtain ⟨m, member, _, symbol, _⟩ := step_of_nextState? next
  exact absent ((declared.transitions m member).letter x symbol)

/-- A transition has a destination, so the first of its state and symbol has a least one. -/
theorem isSome_nextState? (declared : a.Declared) {m : Transition} (listed : m ∈ a.transitions) :
    (a.nextState? m.source m.symbol).isSome = true := by
  cases first : a.transitions.find? (fun t => t.leaves m.source m.symbol) with
  | none =>
    exact absurd (Transition.leaves_iff.mpr ⟨rfl, rfl⟩) (List.find?_eq_none.mp first m listed)
  | some t =>
    obtain ⟨d, target⟩ := (declared.transitions t (leaves_of_find? first).1).nonempty
    rw [nextState?, first, Option.bind_some, SortedSet.min?, List.isSome_head?]
    exact List.ne_nil_of_mem target

theorem mem_states_of_nextState? (declared : a.Declared) (next : a.nextState? s x = some t) :
    t ∈ a.states := by
  obtain ⟨m, member, rfl, rfl, target⟩ := step_of_nextState? next
  exact (declared.transitions m member).destinations t target

end Automaton

end Determinize
