import Determinize.CommandLine
import Determinize.Proofs.Budget
import Determinize.Proofs.Pipeline
import Determinize.Proofs.ReadBack
import Determinize.Proofs.Yaml.RoundTrip

/-!
Runs of the command line, in any format of which it is only assumed that the description a run has to
write is written and read back (`TextFormat.Returns`). Whether a run fails then depends on the file
alone. A run that does not fail writes an automaton that is read back as it was made, that accepts the
words of the one in the file, or some of them if a budget ran out, and of whose making the log holds one
report.
-/

namespace Determinize

/-- What the stages say of their work, as opposed to what a run says of its outcome. -/
def Event.Quiet (event : Event) : Prop := event.level = .debug ∨ event.level = .trace

def Event.isReport (event : Event) : Bool :=
  decide (event.level = .info) || decide (event.level = .warn)

theorem Event.filter_isReport_eq_nil {events : List Event} (quiet : ∀ event ∈ events, event.Quiet) :
    events.filter Event.isReport = [] := by
  refine List.filter_eq_nil_iff.mpr fun event member => ?_
  rcases quiet event member with level | level <;> simp [isReport, level]

namespace Exploration

variable {a : Automaton} {e : Exploration} {current : Subset} {x : String}

theorem quiet_report {event : Event} (quiet : ∀ event ∈ e.events, event.Quiet) (level : event.Quiet) :
    ∀ other ∈ (e.report event).events, other.Quiet := by
  intro other member
  rcases List.mem_append.mp member with before | last
  · exact quiet other before
  · rwa [List.mem_singleton.mp last]

theorem quiet_follow (quiet : ∀ event ∈ e.events, event.Quiet) :
    ∀ event ∈ (follow a current e x).events, event.Quiet := by
  simp only [follow]
  split
  · simp only [enqueue]
    split <;> exact quiet_report quiet (.inr rfl)
  · simp only [addDead]
    split
    · exact quiet
    · simp only [foldl_addMove_dead (a := a)]
      exact quiet_report quiet (.inl rfl)

theorem quiet_run (limit : Nat) (quiet : ∀ event ∈ e.events, event.Quiet) :
    ∀ event ∈ (run a limit e).events, event.Quiet := by
  refine run_keeps (motive := fun e => ∀ event ∈ e.events, event.Quiet) ?_ limit quiet
  intro e working quiet
  obtain ⟨current, pending, waiting⟩ := List.exists_cons_of_ne_nil working
  rw [step_eq_expand waiting]
  exact List.foldlRecOn (motive := fun e => ∀ event ∈ e.events, event.Quiet) a.alphabet.toList
    (follow a current) (b := ({ e with pending := pending } : Exploration).report
      (.expanding current.label)) (quiet_report quiet (.inl rfl)) fun _ quiet _ _ => quiet_follow quiet

end Exploration

namespace Automaton

variable {a : Automaton}

theorem quiet_eliminationEvents : ∀ event ∈ a.eliminationEvents, event.Quiet := by
  unfold eliminationEvents
  split
  · exact List.forall_mem_singleton.mpr (.inl rfl)
  · exact fun _ member => absurd member List.not_mem_nil

theorem quiet_determinizeEvents (budget : Option Nat) :
    ∀ event ∈ a.determinizeEvents budget, event.Quiet := by
  have start : ∀ event ∈ (Exploration.start a.eliminateEpsilon).events, event.Quiet :=
    fun _ member => absurd member List.not_mem_nil
  intro event member
  rw [determinizeEvents, List.append_assoc, List.mem_append, List.mem_append,
    List.mem_singleton] at member
  rcases member with eliminated | explored | rfl
  · exact quiet_eliminationEvents event eliminated
  · exact Exploration.quiet_run _ start event explored
  · exact .inl rfl

theorem quiet_minimizeEvents (mode : MergeMode) : ∀ event ∈ a.minimizeEvents mode, event.Quiet := by
  intro event member
  rw [minimizeEvents, List.mem_append, WorkingCopy.mergings, List.mem_filterMap,
    List.mem_singleton] at member
  rcases member with ⟨merge, _, said⟩ | rfl
  · obtain ⟨removed, _, said⟩ := Option.bind_eq_some_iff.mp said
    obtain ⟨kept, _, said⟩ := Option.bind_eq_some_iff.mp said
    cases said
    exact .inl rfl
  · exact .inl rfl

end Automaton

namespace CommandLine

variable {format : TextFormat} {o : Options} {bytes : Option ByteArray} {a b : Automaton}
  {failure : Failure} {w : List String}

/-- The description is written, and the text is read as that description. -/
def TextFormat.Returns (format : TextFormat) (d : Description) : Prop :=
  ∃ text, format.write? d = some text ∧ format.read? text = some d

theorem TextFormat.read?_yaml (d : Description) : TextFormat.yaml.read? d.toYaml = some d := by
  simp only [TextFormat.yaml, Description.ofYaml?, Description.read?_toYaml, Option.bind_some,
    Description.ofNode?_fields]

/-- The bytes are a text, the text is a description, and what it describes is the automaton. -/
def Loads (format : TextFormat) (bytes : Option ByteArray) (a : Automaton) : Prop :=
  ∃ text d, bytes.bind String.fromUTF8? = some text ∧ format.read? text = some d ∧
    d.toAutomaton = .ok a

/-- What keeps an automaton from being loaded. -/
inductive Refused (format : TextFormat) (bytes : Option ByteArray) : Failure → Prop
  | unreadable : bytes.bind String.fromUTF8? = none → Refused format bytes .unreadable
  | description {text : String} : bytes.bind String.fromUTF8? = some text →
    format.read? text = none → Refused format bytes .description
  | automaton {text : String} {d : Description} {e : Error} :
    bytes.bind String.fromUTF8? = some text → format.read? text = some d →
    d.toAutomaton = .error e → Refused format bytes (.automaton e)

/-- What a run says of the construction, when the construction without a budget expands a given number
of states. -/
def reports (o : Options) (all : Nat) : List Event :=
  if o.eliminateOnly then []
  else match o.steps with
    | none => [.finished all]
    | some budget => if budget < all then [.stopped budget] else [.finished all]

/-! ### Loading -/

theorem load_eq_ok_iff : load format bytes = .ok a ↔ Loads format bytes a := by
  unfold load Loads
  cases bytes.bind String.fromUTF8? with
  | none => simp
  | some text =>
    cases described : format.read? text with
    | none => simp [described]
    | some d => cases built : d.toAutomaton <;> simp [described, built, Except.mapError]

theorem load_eq_error_iff : load format bytes = .error failure ↔ Refused format bytes failure := by
  constructor
  · intro failed
    unfold load at failed
    split at failed
    · rename_i unreadable
      cases failed
      exact .unreadable unreadable
    · rename_i text readable
      split at failed
      · rename_i undescribed
        cases failed
        exact .description readable undescribed
      · rename_i d described
        cases built : d.toAutomaton with
        | ok a =>
          rw [built] at failed
          cases failed
        | error e =>
          rw [built] at failed
          cases failed
          exact .automaton readable described built
  · intro refused
    cases refused with
    | unreadable unreadable => simp only [load, unreadable]
    | description readable undescribed => simp only [load, readable, undescribed]
    | automaton readable described built =>
      simp only [load, readable, described, built]
      rfl

theorem refused_or_loads (format : TextFormat) (bytes : Option ByteArray) :
    (∃ failure, Refused format bytes failure) ∨ ∃ a, Loads format bytes a := by
  cases loaded : load format bytes with
  | error failure => exact .inl ⟨failure, load_eq_error_iff.mp loaded⟩
  | ok a => exact .inr ⟨a, load_eq_ok_iff.mp loaded⟩

theorem Loads.wellFormed (loads : Loads format bytes a) : a.WellFormed := by
  obtain ⟨_, _, _, _, built⟩ := loads
  exact Description.wellFormed_of_toAutomaton built

theorem fromUTF8?_toUTF8 (text : String) : String.fromUTF8? text.toUTF8 = some text :=
  dif_pos text.isValidUTF8

theorem run_of_refused (refused : Refused format bytes failure) : runWith format o bytes = .error failure := by
  rw [runWith, load_eq_error_iff.mpr refused]
  rfl

theorem run_of_loads {text : String} (loads : Loads format bytes a)
    (written : format.write? (Description.ofAutomaton (transform o a)) = some text) :
    runWith format o bytes = .ok ⟨text, events o a⟩ := by
  unfold runWith
  rw [load_eq_ok_iff.mpr loads]
  simp [bind, Except.bind, written, pure, Except.pure]

/-! ### The automaton a run makes -/

theorem wellFormed_transform (wellFormed : a.WellFormed) : (transform o a).WellFormed := by
  unfold transform
  split
  · exact Automaton.wellFormed_eliminateEpsilon wellFormed
  · have dfa : (a.determinize o.steps).dfa.WellFormed := Automaton.wellFormed_determinize wellFormed
    dsimp only
    split
    · exact Automaton.wellFormed_minimize dfa o.merge
    · exact dfa

/-- What a text describes is loaded, if the text is read as the description of an automaton. -/
theorem loads_of_read? {text : String} (wellFormed : a.WellFormed)
    (back : format.read? text = some (Description.ofAutomaton a)) :
    Loads format (some text.toUTF8) a := by
  refine ⟨text, Description.ofAutomaton a, ?_, back, Description.toAutomaton_ofAutomaton wellFormed⟩
  rw [Option.bind_some, fromUTF8?_toUTF8]

theorem accepts_transform (wellFormed : a.WellFormed) (complete : o.eliminateOnly = false) :
    (transform o a).accepts w = (a.determinize o.steps).dfa.accepts w := by
  have dfa : (a.determinize o.steps).dfa.WellFormed := Automaton.wellFormed_determinize wellFormed
  have deterministic : (a.determinize o.steps).dfa.isDeterministic = true :=
    Automaton.isDeterministic_determinize wellFormed
  rw [transform, if_neg (by simp [complete])]
  dsimp only
  split
  · exact Automaton.accepts_minimize dfa.toDeclared deterministic o.merge
  · rfl

theorem accepts_transform_of_eliminateOnly (wellFormed : a.WellFormed)
    (only : o.eliminateOnly = true) : (transform o a).accepts w = a.accepts w := by
  rw [transform, if_pos only, Automaton.accepts_eliminateEpsilon wellFormed.toDeclared]

theorem accepts_transform_of_enough (wellFormed : a.WellFormed)
    (enough : o.eliminateOnly = true ∨ ∀ n, o.steps = some n → (a.determinize none).steps ≤ n) :
    (transform o a).accepts w = a.accepts w := by
  cases only : o.eliminateOnly with
  | true => exact accepts_transform_of_eliminateOnly wellFormed only
  | false =>
    have enough := enough.resolve_left (by simp [only])
    rw [accepts_transform wellFormed only, ← Automaton.accepts_determinize wellFormed]
    cases steps : o.steps with
    | none => rfl
    | some budget => rw [Automaton.determinize_of_le wellFormed (enough budget steps)]

theorem accepts_of_accepts_transform (wellFormed : a.WellFormed)
    (accepted : (transform o a).accepts w = true) : a.accepts w = true := by
  cases only : o.eliminateOnly with
  | true => rwa [accepts_transform_of_eliminateOnly wellFormed only] at accepted
  | false =>
    rw [accepts_transform wellFormed only] at accepted
    exact Automaton.accepts_of_accepts_determinize wellFormed accepted

/-! ### The log -/

theorem outcome_determinize (wellFormed : a.WellFormed) (only : o.eliminateOnly = false) :
    [outcome (a.determinize o.steps)] = reports o (a.determinize none).steps := by
  have whole : outcome (a.determinize none) = .finished (a.determinize none).steps := by
    rw [outcome, Automaton.interrupted_determinize_none wellFormed]
    rfl
  rw [reports, if_neg (by simp [only])]
  cases o.steps with
  | none => exact congrArg (fun event => [event]) whole
  | some budget =>
    dsimp only
    split
    · rename_i short
      obtain ⟨interrupted, steps⟩ := Automaton.determinize_of_lt wellFormed short
      rw [outcome, if_pos interrupted, steps]
    · rename_i enough
      rw [Automaton.determinize_of_le wellFormed (Nat.le_of_not_lt enough), whole]

theorem filter_isReport_events (wellFormed : a.WellFormed) :
    (events o a).filter Event.isReport = reports o (a.determinize none).steps := by
  unfold events
  split
  · rename_i only
    rw [Event.filter_isReport_eq_nil Automaton.quiet_eliminationEvents, reports, if_pos only]
  · rename_i complete
    rw [Bool.not_eq_true] at complete
    have merging : ∀ event ∈ (if o.minimize then
        (a.determinize o.steps).dfa.minimizeEvents o.merge else []), event.Quiet := by
      split
      · exact Automaton.quiet_minimizeEvents o.merge
      · exact fun _ member => absurd member List.not_mem_nil
    have report : [outcome (a.determinize o.steps)].filter Event.isReport =
        [outcome (a.determinize o.steps)] := by
      rw [outcome]
      split <;> rfl
    dsimp only
    rw [List.filter_append, List.filter_append,
      Event.filter_isReport_eq_nil (Automaton.quiet_determinizeEvents o.steps),
      Event.filter_isReport_eq_nil merging, report, List.nil_append, List.append_nil,
      outcome_determinize wellFormed complete]

/-! ### Runs -/

/-- Suppose that what a run has to write is read back. Then the run fails exactly if the file holds no
automaton, whatever the options. Otherwise its output is loaded as the automaton that it made. That
automaton accepts the words of the one in the file, or some of them if the budget is too small for all
states, and the log says whether it was. -/
theorem run_outcome (format : TextFormat) (o : Options) (bytes : Option ByteArray)
    (returns : ∀ a, Loads format bytes a →
      format.Returns (Description.ofAutomaton (transform o a))) :
    (∀ failure, runWith format o bytes = .error failure ↔ Refused format bytes failure) ∧
    ((∃ failure, Refused format bytes failure) ∨ ∃ a, Loads format bytes a) ∧
    ∀ a, Loads format bytes a → ∃ output, runWith format o bytes = .ok output ∧
      format.write? (Description.ofAutomaton (transform o a)) = some output.text ∧
      Loads format (some output.text.toUTF8) (transform o a) ∧
      ((o.eliminateOnly = true ∨ ∀ n, o.steps = some n → (a.determinize none).steps ≤ n) →
        ∀ w, (transform o a).accepts w = a.accepts w) ∧
      (∀ w, (transform o a).accepts w = true → a.accepts w = true) ∧
      output.events.filter Event.isReport = reports o (a.determinize none).steps := by
  refine ⟨fun failure => ⟨fun failed => ?_, run_of_refused⟩, refused_or_loads format bytes,
    fun a loads => ?_⟩
  · rcases refused_or_loads format bytes with ⟨other, refused⟩ | ⟨a, loads⟩
    · rw [run_of_refused refused] at failed
      cases failed
      exact refused
    · obtain ⟨text, written, _⟩ := returns a loads
      rw [run_of_loads loads written] at failed
      cases failed
  · have wellFormed := loads.wellFormed
    obtain ⟨text, written, back⟩ := returns a loads
    refine ⟨_, run_of_loads loads written, written,
      loads_of_read? (wellFormed_transform wellFormed) back, ?_, ?_, ?_⟩
    · exact fun enough w => accepts_transform_of_enough wellFormed enough
    · exact fun w accepted => accepts_of_accepts_transform wellFormed accepted
    · exact filter_isReport_events wellFormed

/-- A missing file, a construction that runs out of its budget and is minimized, and one that does
not. -/
theorem run_outcome_asThenBs :
    let file := some (Description.ofAutomaton asThenBs.collapse).toYaml.toUTF8
    let short : Options := { minimize := true, merge := .refine, steps := some 1, file := "" }
    let long : Options := { minimize := true, steps := some 3, file := "" }
    let only : Options := { eliminateOnly := true, file := "" }
    run short none = .error .unreadable ∧
      (∃ output, run short file = .ok output ∧
        Loads .yaml (some output.text.toUTF8) (transform short asThenBs.collapse) ∧
        output.events.filter Event.isReport = [.stopped 1]) ∧
      (∃ output, run long file = .ok output ∧
        (∀ w, (transform long asThenBs.collapse).accepts w = asThenBs.collapse.accepts w) ∧
        output.events.filter Event.isReport = [.finished 3]) ∧
      ∃ output, run only file = .ok output ∧
        (∀ w, (transform only asThenBs.collapse).accepts w = asThenBs.collapse.accepts w) ∧
        output.events.filter Event.isReport = [] := by
  intro file short long only
  have loads : Loads .yaml file asThenBs.collapse :=
    loads_of_read? (Parts.wellFormed_of_toAutomaton toAutomaton_asThenBs) (TextFormat.read?_yaml _)
  have returns : ∀ o a, Loads .yaml file a →
      TextFormat.yaml.Returns (Description.ofAutomaton (transform o a)) :=
    fun _ _ _ => ⟨_, rfl, TextFormat.read?_yaml _⟩
  have all : (asThenBs.collapse.determinize none).steps = 3 := by decide
  refine ⟨((run_outcome .yaml short none fun _ loads => ?_).1 .unreadable).mpr (.unreadable rfl), ?_, ?_, ?_⟩
  · obtain ⟨_, _, readable, _⟩ := loads
    cases readable
  · obtain ⟨output, ran, _, back, _, _, report⟩ :=
      (run_outcome .yaml short file (returns short)).2.2 _ loads
    rw [all] at report
    exact ⟨output, ran, back, report⟩
  · obtain ⟨output, ran, _, _, words, _, report⟩ :=
      (run_outcome .yaml long file (returns long)).2.2 _ loads
    rw [all] at report
    refine ⟨output, ran, words (.inr fun n steps => ?_), report⟩
    cases steps
    exact Nat.le_of_eq all
  · obtain ⟨output, ran, _, _, words, _, report⟩ :=
      (run_outcome .yaml only file (returns only)).2.2 _ loads
    exact ⟨output, ran, words (.inl rfl), report⟩

end CommandLine

end Determinize
