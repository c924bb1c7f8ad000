import Determinize.Proofs.Image
import Determinize.Proofs.Walk
import Mathlib.Data.Set.Function

/-!
Complete automata, and those among them whose states are all reached and told apart by some word. The
latter have fewest states among the complete automata for their words, and two of them for the same
words are the same up to the names of the states.
-/

namespace Determinize

namespace Automaton

variable {a b : Automaton} {s t : State} {x : String} {w : List String} {v : Bool}

/-- The automaton has a transition for every declared state and letter. -/
def Complete (a : Automaton) : Prop :=
  ∀ s ∈ a.states, ∀ x ∈ a.alphabet, ∃ t ∈ a.transitions, t.source = s ∧ t.symbol = .letter x

/-- A deterministic automaton on which every word over the alphabet can be walked. -/
structure Total (a : Automaton) : Prop where
  declared : a.Declared
  deterministic : a.isDeterministic = true
  complete : a.Complete

/-- The automata have the same letters and accept the same words. -/
structure Equivalent (a b : Automaton) : Prop where
  letters : ∀ x, x ∈ a.alphabet ↔ x ∈ b.alphabet
  words : ∀ w, a.accepts w = b.accepts w

theorem Equivalent.symm (equivalent : a.Equivalent b) : b.Equivalent a :=
  ⟨fun x => (equivalent.letters x).symm, fun w => (equivalent.words w).symm⟩

theorem Equivalent.trans {c : Automaton} (first : a.Equivalent b) (second : b.Equivalent c) :
    a.Equivalent c :=
  ⟨fun x => (first.letters x).trans (second.letters x),
    fun w => (first.words w).trans (second.words w)⟩

namespace Total

variable (total : a.Total)

include total

theorem exists_nextState? (member : s ∈ a.states) (letter : x ∈ a.alphabet) :
    ∃ t ∈ a.states, a.nextState? s (.letter x) = some t := by
  obtain ⟨m, listed, source, symbol⟩ := total.complete s member x letter
  have admitted := total.declared.transitions m listed
  obtain ⟨t, target⟩ := admitted.nonempty
  have step : a.Step s (.letter x) t := ⟨m, listed, source, symbol, target⟩
  exact ⟨t, admitted.destinations t target, (nextState?_eq_some_iff total.deterministic).mpr step⟩

theorem exists_walk? (member : s ∈ a.states) (allowed : ∀ x ∈ w, x ∈ a.alphabet) :
    ∃ t ∈ a.states, a.chart.walk? s w = some t := by
  induction w generalizing s with
  | nil => exact ⟨s, member, rfl⟩
  | cons x w ih =>
    obtain ⟨letter, allowed⟩ := List.forall_mem_cons.mp allowed
    obtain ⟨u, present, next⟩ := total.exists_nextState? member letter
    obtain ⟨t, last, walked⟩ := ih present allowed
    refine ⟨t, last, ?_⟩
    rw [Chart.walk?, show a.chart.next? s x = some u from next, Option.bind_some, walked]

theorem mem_alphabet_of_walk? (walked : a.chart.walk? s w = some t) : ∀ x ∈ w, x ∈ a.alphabet :=
  mem_alphabet_of_spells total.declared ((spells_iff_walk? total.deterministic).mpr walked)

theorem accepts_eq_of_outcome? (ends : a.chart.outcome? a.initial w = some v) :
    a.accepts w = v := by
  have accepts := accepts_iff_outcome? (w := w) total.deterministic
  rw [ends, Option.some.injEq] at accepts
  exact Bool.eq_iff_iff.mpr accepts

theorem outcome?_initial_eq_some_iff :
    a.chart.outcome? a.initial w = some v ↔ (∀ x ∈ w, x ∈ a.alphabet) ∧ a.accepts w = v := by
  constructor
  · intro ends
    obtain ⟨t, walked, _⟩ := Option.map_eq_some_iff.mp ends
    exact ⟨total.mem_alphabet_of_walk? walked, total.accepts_eq_of_outcome? ends⟩
  · intro h
    obtain ⟨allowed, accepted⟩ := h
    obtain ⟨t, _, walked⟩ := total.exists_walk? total.declared.initial allowed
    have ends : a.chart.outcome? a.initial w = some (a.chart.isFinal t) := by
      rw [Chart.outcome?, walked, Option.map_some]
    rw [ends, ← total.accepts_eq_of_outcome? ends, accepted]

theorem outcome?_initial_eq (other : b.Total) (equivalent : a.Equivalent b) :
    a.chart.outcome? a.initial = b.chart.outcome? b.initial := by
  funext w
  apply Option.ext
  intro v
  rw [total.outcome?_initial_eq_some_iff, other.outcome?_initial_eq_some_iff, equivalent.words]
  simp only [equivalent.letters]

theorem exists_alike (other : b.Total) (equivalent : a.Equivalent b)
    (walked : a.chart.walk? a.initial w = some s) :
    ∃ t ∈ b.states, b.chart.walk? b.initial w = some t ∧
      b.chart.outcome? t = a.chart.outcome? s := by
  have allowed : ∀ x ∈ w, x ∈ b.alphabet := fun x member =>
    (equivalent.letters x).mp (total.mem_alphabet_of_walk? walked x member)
  obtain ⟨t, present, walked'⟩ := other.exists_walk? other.declared.initial allowed
  refine ⟨t, present, walked', funext fun v => ?_⟩
  have same := congrFun (total.outcome?_initial_eq other equivalent) (w ++ v)
  rw [Chart.outcome?_append, Chart.outcome?_append, walked, walked'] at same
  exact same.symm

/-- When no word is accepted, the walks from all states that a word leads to end alike. -/
theorem outcome?_eq_initial (rejects : ∀ w, a.accepts w = false)
    (walked : a.chart.walk? a.initial w = some s) :
    a.chart.outcome? s = a.chart.outcome? a.initial := by
  have allowed := total.mem_alphabet_of_walk? walked
  have ends : ∀ u, a.chart.outcome? s u = a.chart.outcome? a.initial (w ++ u) := by
    intro u
    rw [Chart.outcome?_append, walked, Option.bind_some]
  funext u
  apply Option.ext
  intro v
  rw [ends, total.outcome?_initial_eq_some_iff, total.outcome?_initial_eq_some_iff, rejects, rejects,
    List.forall_mem_append, and_iff_right allowed]

end Total

/-- A total automaton without states to spare: a word leads to every state, and different states are
told apart by a word. -/
structure Canonical (a : Automaton) : Prop extends Total a where
  reached : ∀ s ∈ a.states, ∃ w, a.chart.walk? a.initial w = some s
  distinct : ∀ s ∈ a.states, ∀ t ∈ a.states, a.chart.outcome? s = a.chart.outcome? t → s = t

namespace Canonical

variable (canonical : a.Canonical)

include canonical

theorem exists_map (total : b.Total) (equivalent : a.Equivalent b) :
    ∃ f : State → State, ∀ s ∈ a.states,
      f s ∈ b.states ∧ b.chart.outcome? (f s) = a.chart.outcome? s := by
  have : Nonempty State := ⟨.dead⟩
  have alike : ∀ s ∈ a.states, ∃ t, t ∈ b.states ∧ b.chart.outcome? t = a.chart.outcome? s := by
    intro s member
    obtain ⟨w, walked⟩ := canonical.reached s member
    obtain ⟨t, present, _, same⟩ := canonical.exists_alike total equivalent walked
    exact ⟨t, present, same⟩
  choose! f alike using alike
  exact ⟨f, alike⟩

theorem eq_of_map_eq {f : State → State}
    (alike : ∀ s ∈ a.states, f s ∈ b.states ∧ b.chart.outcome? (f s) = a.chart.outcome? s)
    (first : s ∈ a.states) (second : t ∈ a.states) (equal : f s = f t) : s = t := by
  apply canonical.distinct s first t second
  rw [← (alike s first).2, ← (alike t second).2, equal]

/-- No total automaton for the same words has fewer states. -/
theorem size_le (total : b.Total) (equivalent : a.Equivalent b) :
    a.states.size ≤ b.states.size := by
  obtain ⟨f, alike⟩ := canonical.exists_map total equivalent
  exact UniqueList.size_le_of_map (fun s member => (alike s member).1) fun s first t second =>
    canonical.eq_of_map_eq alike first second

end Canonical

/-- The automata are the same up to the names of their states. -/
structure Renames (f : State → State) (a b : Automaton) : Prop where
  states : Set.BijOn f {s | s ∈ a.states} {t | t ∈ b.states}
  initial : f a.initial = b.initial
  final : ∀ s ∈ a.states, b.isFinal (f s) = a.isFinal s
  next : ∀ s ∈ a.states, ∀ x, b.nextState? (f s) (.letter x) = (a.nextState? s (.letter x)).map f

/-- Canonical automata for the same words differ in the names of their states only. -/
theorem Canonical.exists_renames (canonical : a.Canonical) (other : b.Canonical)
    (equivalent : a.Equivalent b) : ∃ f, Renames f a b := by
  obtain ⟨f, alike⟩ := canonical.exists_map other.toTotal equivalent
  have named : ∀ s ∈ a.states, ∀ t ∈ b.states,
      a.chart.outcome? s = b.chart.outcome? t → f s = t := by
    intro s first t second same
    exact other.distinct (f s) (alike s first).1 t second ((alike s first).2.trans same)
  refine ⟨f, ⟨fun s member => (alike s member).1, ?_, ?_⟩, ?_, fun s member => ?_,
    fun s member x => ?_⟩
  · exact fun s first t second => canonical.eq_of_map_eq alike first second
  · intro t member
    obtain ⟨w, walked⟩ := other.reached t member
    obtain ⟨s, present, _, same⟩ := other.exists_alike canonical.toTotal equivalent.symm walked
    exact ⟨s, present, named s present t member same⟩
  · exact named _ canonical.declared.initial _ other.declared.initial
      (canonical.outcome?_initial_eq other.toTotal equivalent)
  · exact Chart.isFinal_eq (alike s member).2
  · have same := Chart.map_eq_of_rel (f := f) (g := id) (Chart.next?_rel (alike s member).2.symm x)
      fun u v left right ends => named u (mem_states_of_nextState? canonical.declared left) v
        (mem_states_of_nextState? other.declared right) ends
    rw [Option.map_id] at same
    exact same.symm

end Automaton

end Determinize
