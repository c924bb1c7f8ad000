import Determinize.Proofs.Pipeline

/-!
What the merging of classes leaves. States that no word over the alphabet tells apart are one class, and
of every class one state stays: the initial state, else the sink, else the first in the order of their
declaration. The sink stays beside the initial state.
-/

namespace Determinize

namespace Automaton

variable {a : Automaton} {s t : State} {x : String} {w : List String}

/-- The walks on every word over the alphabet either both get stuck, or both end and end in states of
equal finality. -/
def Indistinguishable (a : Automaton) (s t : State) : Prop :=
  ∀ w : List String, (∀ x ∈ w, x ∈ a.alphabet) → a.chart.outcome? s w = a.chart.outcome? t w

/-- The state that stays when the class of a state is merged. -/
inductive Keeper (a : Automaton) (s : State) : State → Prop
  | initial : a.Indistinguishable s a.initial → Keeper a s a.initial
  | sink : ¬ a.Indistinguishable s a.initial → .dead ∈ a.states → a.Indistinguishable s .dead →
    Keeper a s .dead
  | first {k : State} {earlier later : List State} : ¬ a.Indistinguishable s a.initial →
    (.dead ∈ a.states → ¬ a.Indistinguishable s .dead) →
    a.states.toList = earlier ++ k :: later → a.Indistinguishable s k →
    (∀ t ∈ earlier, ¬ a.Indistinguishable s t) → Keeper a s k

theorem walk?_eq_none (declared : a.Declared) (letter : x ∈ w) (absent : x ∉ a.alphabet) :
    a.chart.walk? s w = none := by
  induction w generalizing s with
  | nil => exact absurd letter List.not_mem_nil
  | cons y w ih =>
    rw [Chart.walk?]
    rcases List.mem_cons.mp letter with rfl | later
    · rw [show a.chart.next? s x = none from nextState?_eq_none declared absent, Option.bind_none]
    · exact Option.bind_eq_none_iff.mpr fun t _ => ih later

/-- No walk goes on at a letter outside the alphabet, so such words tell no states apart. -/
theorem indistinguishable_iff (declared : a.Declared) :
    a.Indistinguishable s t ↔ a.chart.outcome? s = a.chart.outcome? t := by
  constructor
  · intro alike
    funext w
    by_cases allowed : ∀ x ∈ w, x ∈ a.alphabet
    · exact alike w allowed
    · obtain ⟨x, letter, absent⟩ : ∃ x ∈ w, x ∉ a.alphabet := by simpa using allowed
      rw [Chart.outcome?, Chart.outcome?, walk?_eq_none declared letter absent,
        walk?_eq_none declared letter absent]
  · intro same w _
    rw [same]

end Automaton

namespace Reduction

open Automaton (Keeper Indistinguishable)

variable {a : Automaton} {s t : State} {κ : Type} [DecidableEq κ] {key : State → κ}

/-- The declared states with the key of a state. -/
def classBy (key : State → κ) (a : Automaton) (s : State) : List State :=
  a.states.toList.filter fun t => decide (key t = key s)

theorem mem_classBy : t ∈ classBy key a s ↔ t ∈ a.states ∧ key t = key s := by
  rw [classBy, List.mem_filter, decide_eq_true_iff]
  rfl

theorem isLive_mergeClasses_iff (declared : a.Declared)
    (classes : (start a).classes = divide key a.states.toList) (present : t ∈ a.states) :
    ((start a).mergeClasses a).isLive t = true ↔
      keeper? a.initial (classBy key a t) = some t ∨ t = .dead := by
  rw [(mergeClasses_spec declared).2, and_iff_right present, classes]
  constructor
  · intro kept
    have own := kept _ (mem_divide.mpr ⟨t, present, rfl⟩)
    rw [mem_dropped] at own
    by_cases dead : t = .dead
    · exact .inr dead
    · refine .inl (Decidable.byContradiction fun spared => own ⟨?_, spared, dead⟩)
      exact mem_classBy.mpr ⟨present, rfl⟩
  · intro stays members listed drop
    obtain ⟨s, _, rfl⟩ := mem_divide.mp listed
    obtain ⟨inside, spared, notDead⟩ := mem_dropped.mp drop
    have same := of_decide_eq_true (List.mem_filter.mp inside).2
    rcases stays with keeper | dead
    · rw [classBy, same] at keeper
      exact spared keeper
    · exact notDead dead

section Classes

variable (declared : a.Declared) (separates : Separates a key)

include declared separates

omit [DecidableEq κ] in
theorem key_eq_iff (first : s ∈ a.states) (second : t ∈ a.states) :
    key s = key t ↔ a.Indistinguishable t s := by
  rw [separates s first t second, Automaton.indistinguishable_iff declared]
  exact eq_comm

theorem exists_keeper (present : s ∈ a.states) :
    ∃ k ∈ a.states, keeper? a.initial (classBy key a s) = some k ∧ Keeper a s k := by
  have inClass : ∀ t ∈ a.states, t ∈ classBy key a s ↔ a.Indistinguishable s t := by
    intro t declaredThere
    rw [mem_classBy, and_iff_right declaredThere]
    exact key_eq_iff declared separates declaredThere present
  unfold keeper?
  split
  · rename_i here
    exact ⟨a.initial, declared.initial, rfl, .initial ((inClass _ declared.initial).mp here)⟩
  · rename_i notInitial
    rw [inClass _ declared.initial] at notInitial
    split
    · rename_i here
      have sink := (mem_classBy.mp here).1
      exact ⟨.dead, sink, rfl, .sink notInitial sink ((inClass _ sink).mp here)⟩
    · rename_i notSink
      -- the class holds the state itself, so it has a first member
      have itself : s ∈ classBy key a s := mem_classBy.mpr ⟨present, rfl⟩
      obtain ⟨k, first⟩ : ∃ k, (classBy key a s).head? = some k :=
        ⟨_, List.head?_eq_some_head (List.ne_nil_of_mem itself)⟩
      have inside := List.mem_of_mem_head? (Option.mem_def.mpr first)
      have listed := (mem_classBy.mp inside).1
      refine ⟨k, listed, first, ?_⟩
      rw [classBy, List.head?_filter, List.find?_eq_some_iff_append] at first
      obtain ⟨_, earlier, later, split, before⟩ := first
      refine .first notInitial (fun sink alike => notSink ((inClass _ sink).mpr alike)) split
        ((inClass k listed).mp inside) fun t member alike => ?_
      have declaredThere : t ∈ a.states := by
        rw [← UniqueList.mem_toList, split]
        exact List.mem_append_left _ member
      have other := before t member
      have same := (mem_classBy.mp ((inClass t declaredThere).mpr alike)).2
      simp [same] at other

end Classes

end Reduction

namespace Automaton

variable {a : Automaton} {p : Parts} {kind : Kind}

/-- The merging of classes leaves of every class of declared states the one that is its keeper, and the
sink if that is in the class too. What is left stays in the order of declaration. -/
theorem states_minimize_refine (built : p.toAutomaton kind = .ok a) (stages : List Stage) :
    let a := Stage.chain stages a
    let r := a.minimize .refine
    r.states.toList.Sublist a.states.toList ∧
      ∀ s ∈ a.states, ∃ k ∈ a.states, Keeper a s k ∧
        ∀ t ∈ a.states, a.Indistinguishable s t → (t ∈ r.states ↔ t = k ∨ t = .dead) := by
  intro a r
  have declared : a.Declared :=
    (Stage.wellFormed_chain (Parts.wellFormed_of_toAutomaton built) stages).toDeclared
  obtain ⟨κ, _, key, classes, separates⟩ := Reduction.exists_classes declared
  refine ⟨List.filter_sublist, fun s present => ?_⟩
  obtain ⟨k, listed, kept, keeper⟩ := Reduction.exists_keeper declared separates present
  refine ⟨k, listed, keeper, fun t there alike => ?_⟩
  have same := (Reduction.key_eq_iff declared separates there present).mpr alike
  have left : t ∈ r.states ↔ t ∈ a.states ∧ ((Reduction.start a).mergeClasses a).isLive t = true :=
    mem_states_minimize declared
  rw [left, and_iff_right there, Reduction.isLive_mergeClasses_iff declared classes there,
    show Reduction.classBy key a t = Reduction.classBy key a s by simp only [Reduction.classBy, same],
    kept, Option.some.injEq, eq_comm]

/-- Two states that accept all words of letters `a`, and one that leads to either. -/
def twins : Parts where
  initial := .simple "s"
  finals := [.simple "x", .simple "y"]
  states := [.simple "s", .simple "x", .simple "y"]
  alphabet := ["a", "b"]
  transitions := [⟨.simple "s", .letter "a", .singleton (.simple "x")⟩,
    ⟨.simple "s", .letter "b", .singleton (.simple "y")⟩,
    ⟨.simple "x", .letter "a", .singleton (.simple "y")⟩,
    ⟨.simple "y", .letter "a", .singleton (.simple "x")⟩]

theorem states_minimize_refine_twins :
    let a := Stage.chain [.eliminate] twins.collapse
    let r := a.minimize .refine
    r.states.toList = [.simple "s", .simple "x"] ∧ r.states.toList.Sublist a.states.toList ∧
      ∃ k ∈ a.states, Keeper a (.simple "y") k ∧
        ∀ t ∈ a.states, a.Indistinguishable (.simple "y") t → (t ∈ r.states ↔ t = k ∨ t = .dead) := by
  intro a r
  have built : twins.toAutomaton .deterministic = .ok twins.collapse := by decide
  have present : State.simple "y" ∈ a.states := UniqueList.contains_iff.mp (by decide)
  obtain ⟨order, classes⟩ := states_minimize_refine built [.eliminate]
  exact ⟨by decide, order, classes (.simple "y") present⟩

end Automaton

end Determinize
