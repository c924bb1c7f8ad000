import Determinize.Description
import Determinize.Proofs.WellFormed

/-!
Reading undoes describing. The labels, the texts of symbols and the sorted sets of destinations are
read back one by one; the flag of the description then selects checks that the automaton passes.
-/

namespace Determinize

variable {a : Automaton} {s : State} {t : Transition}

theorem declaredState_label (valid : s.Valid) : declaredState s.label = .ok s := by
  rw [declaredState, State.ofLabel?_label valid]

theorem movingState_label (valid : s.Valid) : movingState s.label = .ok s := by
  rw [movingState, State.ofLabel?_label valid]

theorem mapM_map_eq_ok {α β : Type} {write : α → β} {read : β → Except Error α} {l : List α}
    (back : ∀ a ∈ l, read (write a) = .ok a) : (l.map write).mapM read = .ok l := by
  induction l with
  | nil => rfl
  | cons a l ih =>
    rw [List.map_cons, List.mapM_cons, back a List.mem_cons_self,
      ih fun b member => back b (List.mem_cons_of_mem _ member)]
    rfl

theorem Symbol.ofText_text {x : Symbol} (letter : ∀ y, x = .letter y → isEpsilonText y = false) :
    ofText x.text = x := by
  cases x with
  | epsilon => decide
  | letter y => simp [ofText, text, letter y rfl]

theorem MoveDescription.toTransition_ofTransition (declared : a.Declared) (admitted : a.Admits t) :
    (ofTransition t).toTransition = .ok t := by
  have destinations : (t.destinations.toList.map State.label).mapM movingState =
      .ok t.destinations.toList :=
    mapM_map_eq_ok fun d member => movingState_label (declared.valid d (admitted.destinations d member))
  have source := movingState_label (declared.valid _ admitted.source)
  have symbol : Symbol.ofText t.symbol.text = t.symbol :=
    Symbol.ofText_text fun x letter => declared.letters x (admitted.letter x letter)
  simp only [toTransition, ofTransition, destinations, source, symbol]
  exact congrArg (fun set => Except.ok (⟨t.source, t.symbol, set⟩ : Transition))
    (SortedSet.ofList_toList t.destinations)

namespace Description

theorem toParts_ofAutomaton (declared : a.Declared) : (ofAutomaton a).toParts = .ok a.parts := by
  have initial := declaredState_label (declared.valid _ declared.initial)
  have finals : (a.finals.toList.map State.label).mapM declaredState = .ok a.finals.toList :=
    mapM_map_eq_ok fun s member => declaredState_label (declared.valid s (declared.finals s member))
  have states : (a.states.toList.map State.label).mapM declaredState = .ok a.states.toList :=
    mapM_map_eq_ok fun s member => declaredState_label (declared.valid s member)
  have moves : (a.transitions.map MoveDescription.ofTransition).mapM MoveDescription.toTransition =
      .ok a.transitions :=
    mapM_map_eq_ok fun t member =>
      MoveDescription.toTransition_ofTransition declared (declared.transitions t member)
  simp only [toParts, ofAutomaton, initial, finals, states, moves]
  rfl

theorem toAutomaton_ofAutomaton (wellFormed : a.WellFormed) :
    (ofAutomaton a).toAutomaton = .ok a := by
  have parts := toParts_ofAutomaton wellFormed.toDeclared
  have rebuilt := Automaton.rebuild_eq_ok wellFormed
  simp only [toAutomaton, parts]
  exact rebuilt

theorem wellFormed_of_toAutomaton {d : Description} (read : d.toAutomaton = .ok a) :
    a.WellFormed := by
  unfold toAutomaton at read
  cases parts : d.toParts with
  | error e =>
    rw [parts] at read
    cases read
  | ok p =>
    rw [parts] at read
    exact Parts.wellFormed_of_toAutomaton read

/-- The description of the automaton that a description is read as. -/
def normalize (d : Description) : Except Error Description := d.toAutomaton.map ofAutomaton

/-- Describing an automaton and reading the description gives the automaton, with its states, final
states and letters in their order. So a description that is read normalizes to one that is read as
the same automaton and normalizes to itself. -/
theorem read_describe :
    (∀ (p : Parts) (kind : Kind) (a : Automaton), p.toAutomaton kind = .ok a →
      (ofAutomaton a).toAutomaton = .ok a) ∧
    ∀ (d : Description) (a : Automaton), d.toAutomaton = .ok a →
      ∃ n, d.normalize = .ok n ∧ n.toAutomaton = .ok a ∧ n.normalize = .ok n := by
  refine ⟨fun p kind a built => ?_, fun d a read => ?_⟩
  · exact toAutomaton_ofAutomaton (Parts.wellFormed_of_toAutomaton built)
  · have back := toAutomaton_ofAutomaton (wellFormed_of_toAutomaton read)
    refine ⟨ofAutomaton a, ?_, back, ?_⟩
    · rw [normalize, read]
      rfl
    · rw [normalize, back]
      rfl

/-- Composite states that share a name, and the sink. -/
def overlapping : Parts where
  initial := .composite (.ofList ["p", "q"])
  finals := [.composite (.ofList ["q", "r"])]
  states := [.composite (.ofList ["p", "q"]), .composite (.ofList ["q", "r"]), .dead]
  alphabet := ["a"]
  transitions := [
    ⟨.composite (.ofList ["p", "q"]), .letter "a", .singleton (.composite (.ofList ["q", "r"]))⟩,
    ⟨.composite (.ofList ["q", "r"]), .letter "a", .singleton .dead⟩]

/-- A deterministic automaton that is not declared to be one. -/
def undeclaredLoop : Description where
  initial := "p"
  finals := ["p", "p"]
  states := ["p"]
  alphabet := ["a"]
  moves := [⟨"p", "a", ["p"]⟩]

theorem read_describe_overlapping :
    (ofAutomaton overlapping.collapse).toAutomaton = .ok overlapping.collapse ∧
      ∃ a n, undeclaredLoop.normalize = .ok n ∧ n.toAutomaton = .ok a ∧ n.normalize = .ok n := by
  have built : overlapping.toAutomaton .deterministic = .ok overlapping.collapse := by decide
  have read : undeclaredLoop.toAutomaton = .ok (Parts.collapse ⟨.simple "p", [.simple "p"],
      [.simple "p"], ["a"], [⟨.simple "p", .letter "a", .singleton (.simple "p")⟩]⟩) := by decide
  exact ⟨read_describe.1 overlapping .deterministic _ built, _, read_describe.2 undeclaredLoop _ read⟩

end Description

end Determinize
