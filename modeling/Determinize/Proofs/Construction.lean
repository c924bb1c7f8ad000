import Determinize.Proofs.WellFormed

/-!
Which parts make an automaton, and what an error says about parts that make none. The parts a general and a
deterministic automaton are made of (`Parts.General`, `Parts.Deterministic`) are described without the checks,
and so is what every error blames (`Parts.Faulty`); the checks accept exactly the former and name what is at
fault in all others (`Parts.toAutomaton_exact`).
-/

namespace Determinize

open Relation (ReflTransGen)

namespace UniqueList

variable {α : Type} [DecidableEq α] {l : List α}

theorem collapse_filter {p : α → Bool} : collapse (l.filter p) = (collapse l).filter p := by
  induction l with
  | nil => rfl
  | cons a l ih =>
    rw [collapse, List.filter_cons, List.filter_cons]
    split
    · rw [collapse, ih, List.filter_filter, List.filter_filter]
      simp only [Bool.and_comm]
    · rename_i fails
      rw [ih, List.filter_filter]
      refine List.filter_congr fun b _ => ?_
      by_cases same : b = a
      · simp [same, fails]
      · simp [same]

theorem collapse_eq_eraseDups : ∀ l : List α, collapse l = l.eraseDups
  | [] => rfl
  | a :: l => by
    have shorter : (l.filter fun b => !b == a).length < l.length + 1 :=
      Nat.lt_succ_of_le (List.length_filter_le _ _)
    rw [collapse, List.eraseDups_cons, ← collapse_eq_eraseDups (l.filter fun b => !b == a),
      collapse_filter]
    refine congrArg _ (List.filter_congr fun b _ => ?_)
    by_cases same : b = a <;> simp [same]
termination_by l => l.length

end UniqueList

/-- A name that a label can hold and that is not kept for something else. -/
structure Nameable (name : String) : Prop where
  nonempty : name ≠ ""
  undelimited : ∀ c ∈ name.toList, c ≠ '{' ∧ c ≠ '}' ∧ c ≠ ','
  unreserved : name ≠ "DEAD" ∧ name ≠ "INITIAL_STATE" ∧ name ≠ "FINAL_STATE"

theorem nameable_iff {name : String} : Nameable name ↔ State.NameAllowed name := by
  have reserved : name ∉ State.reservedNames ↔
      name ≠ "DEAD" ∧ name ≠ "INITIAL_STATE" ∧ name ≠ "FINAL_STATE" := by
    simp only [State.reservedNames, State.deadLabel, List.mem_cons, List.not_mem_nil, or_false, not_or]
    tauto
  rw [State.NameAllowed, reserved, State.validName_eq_true_iff]
  constructor
  · intro fits
    exact ⟨fits.unreserved, fits.nonempty, fits.undelimited⟩
  · rintro ⟨unreserved, nonempty, undelimited⟩
    exact ⟨nonempty, undelimited, unreserved⟩

namespace Parts

variable {p : Parts} {kind : Kind} {s t : State} {e : Error} {name : String}

def Leads (p : Parts) (s t : State) : Prop := ∃ m ∈ p.transitions, m.source = s ∧ t ∈ m.destinations

/-- What an automaton of either kind asks of its parts. -/
structure Consistent (p : Parts) : Prop where
  names : ∀ s ∈ p.states, ∀ name ∈ s.members, Nameable name
  composites : ∀ names, .composite names ∈ p.states → 2 ≤ names.toList.length
  initial : p.initial ∈ p.states
  finals : ∀ s ∈ p.finals, s ∈ p.states
  sources : ∀ t ∈ p.transitions, t.source ∈ p.states
  destinations : ∀ t ∈ p.transitions, (∃ d, d ∈ t.destinations) ∧ ∀ d ∈ t.destinations, d ∈ p.states
  symbols : ∀ t ∈ p.transitions, t.symbol = .epsilon ∨ ∃ x ∈ p.alphabet, t.symbol = .letter x
  letters : ∀ x ∈ p.alphabet,
    WhiteSpace.trim x.toList ≠ [] ∧ WhiteSpace.trim x.toList ≠ "λ".toList

structure General (p : Parts) : Prop extends Consistent p where
  dead_not_mem : .dead ∉ p.states
  eq_of_name : ∀ s ∈ p.states, ∀ t ∈ p.states, ∀ name ∈ s.members, name ∈ t.members → s = t

structure Deterministic (p : Parts) : Prop extends Consistent p where
  deterministic : p.collapse.isDeterministic = true
  dead_rejects : .dead ∈ p.states → ∀ s, ReflTransGen p.Leads .dead s → s ∉ p.finals

theorem isEpsilonText_eq_false_iff {x : String} : Symbol.isEpsilonText x = false ↔
    WhiteSpace.trim x.toList ≠ [] ∧ WhiteSpace.trim x.toList ≠ "λ".toList := by
  simp only [Symbol.isEpsilonText, Symbol.epsilonText, Bool.or_eq_false_iff, beq_eq_false_iff_ne]

theorem valid_iff : s.Valid ↔ (∀ name ∈ s.members, Nameable name) ∧
    ∀ names, s = .composite names → 2 ≤ names.toList.length := by
  simp only [nameable_iff]
  cases s with
  | simple name => simp [State.Valid, State.members]
  | composite names => simp [State.Valid, State.members, and_comm]
  | dead => simp [State.Valid, State.members]

theorem admits_iff {t : Transition} : p.collapse.Admits t ↔
    t.source ∈ p.states ∧ ((∃ d, d ∈ t.destinations) ∧ ∀ d ∈ t.destinations, d ∈ p.states) ∧
      (t.symbol = .epsilon ∨ ∃ x ∈ p.alphabet, t.symbol = .letter x) := by
  have symbols : (∀ x, t.symbol = .letter x → x ∈ p.alphabet) ↔
      t.symbol = .epsilon ∨ ∃ x ∈ p.alphabet, t.symbol = .letter x := by
    cases t.symbol with
    | epsilon => simp
    | letter x => simp
  rw [← symbols]
  simp only [← UniqueList.mem_ofList (l := p.states), ← UniqueList.mem_ofList (l := p.alphabet)]
  exact ⟨fun h => ⟨h.source, ⟨h.nonempty, h.destinations⟩, h.letter⟩,
    fun ⟨source, ⟨nonempty, destinations⟩, letter⟩ => ⟨source, nonempty, destinations, letter⟩⟩

theorem declared_collapse_iff : p.collapse.Declared ↔ p.Consistent := by
  have states : ∀ s, s ∈ p.collapse.states ↔ s ∈ p.states := fun _ => UniqueList.mem_ofList
  constructor
  · intro declared
    have valid := fun s member => valid_iff.mp (declared.valid s ((states s).mpr member))
    have admits := fun t member => admits_iff.mp (declared.transitions t member)
    refine ⟨fun s member => (valid s member).1, fun names member => (valid _ member).2 names rfl,
      (states _).mp declared.initial, fun s member => ?_, fun t member => (admits t member).1,
      fun t member => (admits t member).2.1, fun t member => (admits t member).2.2,
      fun x member => ?_⟩
    · exact (states s).mp (declared.finals s (UniqueList.mem_ofList.mpr member))
    · exact isEpsilonText_eq_false_iff.mp (declared.letters x (UniqueList.mem_ofList.mpr member))
  · intro consistent
    refine ⟨fun s member => ?_, (states _).mpr consistent.initial, fun s member => ?_,
      fun x member => ?_, fun t member => ?_⟩
    · have member := (states s).mp member
      exact valid_iff.mpr ⟨consistent.names s member,
        fun names same => consistent.composites names (same ▸ member)⟩
    · exact (states s).mpr (consistent.finals s (UniqueList.mem_ofList.mp member))
    · exact isEpsilonText_eq_false_iff.mpr (consistent.letters x (UniqueList.mem_ofList.mp member))
    · exact admits_iff.mpr ⟨consistent.sources t member, consistent.destinations t member,
        consistent.symbols t member⟩

theorem defect?_general_iff : p.defect? .general = none ↔ p.General := by
  have states : ∀ s, s ∈ p.collapse.states ↔ s ∈ p.states := fun _ => UniqueList.mem_ofList
  rw [defect?_general_eq_none_iff, declared_collapse_iff]
  constructor
  · rintro ⟨consistent, unshared⟩
    refine ⟨consistent, fun dead => unshared.dead_not_mem ((states _).mpr dead), ?_⟩
    simpa only [states] using unshared.eq_of_name
  · intro general
    refine ⟨general.toConsistent, fun dead => general.dead_not_mem ((states _).mp dead), ?_⟩
    simpa only [states] using general.eq_of_name

theorem leads_collapse_iff : p.collapse.Leads s t ↔ p.Leads s t := Graph.edge_ofTransitions

theorem defect?_deterministic_iff : p.defect? .deterministic = none ↔ p.Deterministic := by
  have leads : p.collapse.Leads = p.Leads := funext fun s => funext fun t => propext leads_collapse_iff
  have states : State.dead ∈ p.collapse.states ↔ State.dead ∈ p.states := UniqueList.mem_ofList
  have finals : ∀ s, s ∈ p.collapse.finals ↔ s ∈ p.finals := fun _ => UniqueList.mem_ofList
  rw [defect?_deterministic_eq_none_iff, declared_collapse_iff]
  constructor
  · rintro ⟨consistent, determined⟩
    refine ⟨consistent, determined.deterministic, ?_⟩
    simpa only [leads, states, finals] using determined.dead_rejects
  · intro deterministic
    refine ⟨deterministic.toConsistent, deterministic.deterministic, ?_⟩
    simpa only [leads, states, finals] using deterministic.dead_rejects

/-! ### What an error blames -/

/-- The parts speak of a state. -/
def Mentions (p : Parts) (s : State) : Prop :=
  s ∈ p.states ∨ s = p.initial ∨ s ∈ p.finals ∨
    ∃ t ∈ p.transitions, s = t.source ∨ s ∈ t.destinations

/-- The parts break the rule that an error is about, in what the error names. No parts are blamed for a
label, as states are no texts here. -/
inductive Faulty (p : Parts) : Kind → Error → Prop
  | sink : p.Mentions .dead → Faulty p .general (.reservedName "DEAD")
  | reservedName {kind : Kind} {s : State} {name : String} : p.Mentions s → name ∈ s.members →
    name = "DEAD" ∨ name = "INITIAL_STATE" ∨ name = "FINAL_STATE" → Faulty p kind (.reservedName name)
  | invalidName {kind : Kind} {s : State} {name : String} : p.Mentions s → name ∈ s.members →
    name = "" ∨ (∃ c ∈ name.toList, c = '{' ∨ c = '}' ∨ c = ',') →
    Faulty p kind (.invalidStateName name)
  | fewNames {kind : Kind} {names : NameSet} : p.Mentions (.composite names) →
    names.toList.length < 2 → Faulty p kind (.invalidStateName (State.composite names).label)
  | unknownInitial {kind : Kind} : p.initial ∉ p.states →
    Faulty p kind (.unknownInitialState p.initial)
  | unknownFinal {kind : Kind} {s : State} : s ∈ p.finals → s ∉ p.states →
    Faulty p kind (.unknownFinalState s)
  | unknownEndpoint {kind : Kind} {s : State} {t : Transition} : t ∈ p.transitions →
    s = t.source ∨ s ∈ t.destinations → s ∉ p.states → Faulty p kind (.unknownState s)
  | unknownLetter {kind : Kind} {t : Transition} {x : String} : t ∈ p.transitions →
    t.symbol = .letter x → x ∉ p.alphabet → Faulty p kind (.unknownLetter x)
  | emptyLetter {kind : Kind} {x : String} : x ∈ p.alphabet →
    WhiteSpace.trim x.toList = [] ∨ WhiteSpace.trim x.toList = "λ".toList →
    Faulty p kind .epsilonInAlphabet
  | noDestination {kind : Kind} {t : Transition} : t ∈ p.transitions → (∀ d, d ∉ t.destinations) →
    Faulty p kind (.noDestination t.source t.symbol)
  | sharedName {s t : State} {name : String} : s ∈ p.states → t ∈ p.states → s ≠ t →
    name ∈ s.members → name ∈ t.members → Faulty p .general (.sharedName name)
  | notDeterministic {earlier later : List Transition} {t : Transition} :
    p.transitions = earlier ++ t :: later →
    t.symbol = .epsilon ∨ (∃ d ∈ t.destinations, ∃ d' ∈ t.destinations, d ≠ d') ∨
      (∃ u ∈ earlier, u.source = t.source ∧ u.symbol = t.symbol) →
    Faulty p .deterministic (.notDeterministic t.source t.symbol)
  | deadAccepts {s : State} : .dead ∈ p.states → ReflTransGen p.Leads .dead s → s ∈ p.finals →
    Faulty p .deterministic .deadStateAccepts

theorem faulty_of_nameDefect? (mentioned : p.Mentions s) (member : name ∈ s.members)
    (found : State.nameDefect? name = some e) : p.Faulty kind e := by
  unfold State.nameDefect? at found
  split at found
  · rename_i reserved
    cases found
    refine .reservedName mentioned member ?_
    simp only [State.reservedNames, State.deadLabel, List.mem_cons, List.not_mem_nil, or_false]
      at reserved
    tauto
  · split at found
    · cases found
    · rename_i invalid
      cases found
      refine .invalidName mentioned member ?_
      by_contra fits
      refine invalid ?_
      simp only [not_or, not_exists, not_and] at fits
      simpa [State.validName, State.isDelimiter, and_assoc] using fits

theorem faulty_of_stateDefect? (mentioned : p.Mentions s) (found : s.defect? kind = some e) :
    p.Faulty kind e := by
  cases s with
  | simple name => exact faulty_of_nameDefect? mentioned (List.mem_singleton_self _) found
  | composite names =>
    simp only [State.defect?] at found
    split at found
    · rename_i few
      cases found
      exact .fewNames mentioned few
    · obtain ⟨name, member, found⟩ := List.exists_of_findSome?_eq_some found
      exact faulty_of_nameDefect? mentioned member found
  | dead =>
    cases kind with
    | general =>
      cases found
      exact .sink mentioned
    | deterministic => cases found

theorem faulty_of_undeclared? {unknown : State → Error} (mentioned : p.Mentions s)
    (blame : s ∉ p.states → p.Faulty kind (unknown s))
    (found : p.undeclared? kind unknown s = some e) : p.Faulty kind e := by
  rw [undeclared?, Option.or_eq_some_iff] at found
  rcases found with invalid | ⟨_, absent⟩
  · exact faulty_of_stateDefect? mentioned invalid
  · split at absent
    · cases absent
    · rename_i absent'
      cases absent
      exact blame absent'

theorem faulty_of_declarationDefect? (found : p.declarationDefect? kind = some e) :
    p.Faulty kind e := by
  simp only [declarationDefect?, Option.or_eq_some_iff] at found
  rcases found with states | ⟨_, initial | ⟨_, finals | ⟨_, letters⟩⟩⟩
  · obtain ⟨s, member, found⟩ := List.exists_of_findSome?_eq_some states
    exact faulty_of_stateDefect? (.inl member) found
  · exact faulty_of_undeclared? (.inr (.inl rfl)) .unknownInitial initial
  · obtain ⟨s, member, found⟩ := List.exists_of_findSome?_eq_some finals
    exact faulty_of_undeclared? (.inr (.inr (.inl member))) (.unknownFinal member) found
  · split at letters
    · rename_i some
      cases letters
      obtain ⟨x, member, empty⟩ := List.any_eq_true.mp some
      refine .emptyLetter member ?_
      by_contra fits
      rw [not_or] at fits
      rw [isEpsilonText_eq_false_iff.mpr fits] at empty
      cases empty
    · cases letters

theorem faulty_of_transitionDefect? {t : Transition} (member : t ∈ p.transitions)
    (found : p.transitionDefect? kind t = some e) : p.Faulty kind e := by
  unfold transitionDefect? at found
  split at found
  · rename_i empty
    cases found
    refine .noDestination member fun d target => ?_
    rw [SortedSet.isEmpty_eq_false_iff.mpr ⟨d, target⟩] at empty
    cases empty
  · rcases Option.or_eq_some_iff.mp found with endpoint | ⟨_, letter⟩
    · obtain ⟨s, end_, found⟩ := List.exists_of_findSome?_eq_some endpoint
      have end_ : s = t.source ∨ s ∈ t.destinations := List.mem_cons.mp end_
      exact faulty_of_undeclared? (.inr (.inr (.inr ⟨t, member, end_⟩))) (.unknownEndpoint member end_)
        found
    · split at letter
      · cases letter
      · rename_i x symbol
        split at letter
        · cases letter
        · rename_i absent
          cases letter
          exact .unknownLetter member symbol absent

theorem exists_of_firstRepeated? {earlier l : List String} (found : firstRepeated? earlier l = some name) :
    ∃ before after, l = before ++ name :: after ∧ (name ∈ earlier ∨ name ∈ before) := by
  induction l generalizing earlier with
  | nil => cases found
  | cons other rest ih =>
    rw [firstRepeated?] at found
    split at found
    · rename_i repeated
      cases found
      exact ⟨[], rest, rfl, .inl repeated⟩
    · obtain ⟨before, after, rfl, listed⟩ := ih found
      refine ⟨other :: before, after, rfl, ?_⟩
      rw [List.mem_cons] at listed ⊢
      tauto

theorem exists_of_firstConflict? {earlier ts : List Transition} {t : Transition}
    (found : Automaton.firstConflict? earlier ts = some t) :
    ∃ before after, ts = before ++ t :: after ∧
      (t.isSingle = false ∨ ∃ u, (u ∈ earlier ∨ u ∈ before) ∧ u.source = t.source ∧ u.symbol = t.symbol) := by
  induction ts generalizing earlier with
  | nil => cases found
  | cons u rest ih =>
    rw [Automaton.firstConflict?] at found
    split at found
    · obtain ⟨before, after, rfl, conflict⟩ := ih found
      refine ⟨u :: before, after, rfl, conflict.imp_right ?_⟩
      simp only [List.mem_cons]
      rintro ⟨v, listed, same⟩
      exact ⟨v, by tauto, same⟩
    · rename_i fails
      cases found
      refine ⟨[], rest, rfl, ?_⟩
      rw [Bool.and_eq_true, not_and_or, Bool.not_eq_true, Bool.not_eq_true, Bool.not_eq_false'] at fails
      rcases fails with several | repeated
      · exact .inl several
      · obtain ⟨v, listed, leaves⟩ := List.any_eq_true.mp repeated
        exact .inr ⟨v, .inl listed, Transition.leaves_iff.mp leaves⟩

/-- A name that comes twice among those of all declared states comes from two of them, as no state has a
name twice. -/
theorem faulty_of_sharedName? (found : p.sharedName? = some name) :
    p.Faulty .general (.sharedName name) := by
  obtain ⟨before, after, split, earlier⟩ := exists_of_firstRepeated? found
  have earlier := earlier.resolve_left List.not_mem_nil
  by_contra sound
  have once : (((UniqueList.ofList p.states).toList.flatMap State.members).filter (· = name)).Nodup := by
    rw [List.filter_flatMap, List.nodup_flatMap]
    refine ⟨fun s _ => (nodup_members s).filter _, ?_⟩
    refine (UniqueList.ofList p.states).nodup.imp_of_mem fun {s t} first second different other ours theirs => ?_
    obtain ⟨ourName, same⟩ := List.mem_filter.mp ours
    obtain ⟨theirName, _⟩ := List.mem_filter.mp theirs
    obtain rfl := of_decide_eq_true same
    exact sound (.sharedName (UniqueList.mem_ofList.mp first) (UniqueList.mem_ofList.mp second) different
      ourName theirName)
  have kept : (name :: after).filter (· = name) = name :: after.filter (· = name) :=
    List.filter_cons_of_pos (decide_eq_true rfl)
  rw [split, List.filter_append, kept, List.nodup_append] at once
  exact once.2.2 name (List.mem_filter.mpr ⟨earlier, decide_eq_true rfl⟩) name List.mem_cons_self rfl

theorem faulty_of_firstConflict? {t : Transition} (declared : p.collapse.Declared)
    (found : Automaton.firstConflict? [] p.transitions = some t) :
    p.Faulty .deterministic (.notDeterministic t.source t.symbol) := by
  obtain ⟨before, after, split, conflict⟩ := exists_of_firstConflict? found
  have listed : t ∈ p.collapse.transitions := by
    show t ∈ p.transitions
    rw [split]
    exact List.mem_append_right _ List.mem_cons_self
  refine .notDeterministic split ?_
  rcases conflict with several | ⟨u, earlier, same⟩
  · cases symbol : t.symbol with
    | epsilon => exact .inl rfl
    | letter x =>
      -- a destination there is, so there are two
      obtain ⟨d, target⟩ := (declared.transitions t listed).nonempty
      obtain empty | ⟨only, single⟩ | ⟨d, d', more, targets⟩ := SortedSet.shape t.destinations
      · rw [empty] at target
        exact absurd target SortedSet.not_mem_empty
      · rw [Transition.isSingle_iff.mpr ⟨x, only, symbol, single⟩] at several
        cases several
      · have distinct := t.destinations.nodup
        rw [targets, List.nodup_cons] at distinct
        refine .inr (.inl ⟨d, ?_, d', ?_, fun same => distinct.1 (same ▸ List.mem_cons_self)⟩)
        · rw [← SortedSet.mem_toList, targets]
          exact List.mem_cons_self
        · rw [← SortedSet.mem_toList, targets]
          exact List.mem_cons_of_mem _ List.mem_cons_self
  · exact .inr (.inr ⟨u, earlier.resolve_left List.not_mem_nil, same⟩)

theorem faulty_of_kindDefect? (declared : p.collapse.Declared) (found : p.kindDefect? kind = some e) :
    p.Faulty kind e := by
  cases kind with
  | general =>
    obtain ⟨name, shared, rfl⟩ := Option.map_eq_some_iff.mp found
    exact faulty_of_sharedName? shared
  | deterministic =>
    rcases Option.or_eq_some_iff.mp found with conflict | ⟨_, accepts⟩
    · obtain ⟨t, first, rfl⟩ := Option.map_eq_some_iff.mp conflict
      exact faulty_of_firstConflict? declared first
    · split at accepts
      · rename_i accepting
        cases accepts
        obtain ⟨dead, s, accepted, path⟩ := deadAccepts_iff.mp accepting
        exact .deadAccepts dead (ReflTransGen.mono (fun _ _ edge => leads_collapse_iff.mp edge) _ _ path) accepted
      · cases accepts

theorem faulty_of_defect? (found : p.defect? kind = some e) : p.Faulty kind e := by
  simp only [defect?, Option.or_eq_some_iff] at found
  rcases found with declaration | ⟨sound, transition | ⟨sound', defect⟩⟩
  · exact faulty_of_declarationDefect? declaration
  · obtain ⟨t, member, found⟩ := List.exists_of_findSome?_eq_some transition
    exact faulty_of_transitionDefect? member found
  · exact faulty_of_kindDefect? (checks_eq_none_iff.mp ⟨sound, sound'⟩).1 defect

theorem consistent_of_defect? (sound : p.defect? kind = none) : p.Consistent := by
  cases kind with
  | general => exact (defect?_general_iff.mp sound).toConsistent
  | deterministic => exact (defect?_deterministic_iff.mp sound).toConsistent

theorem Consistent.mem_states (consistent : p.Consistent) (mentioned : p.Mentions s) :
    s ∈ p.states := by
  rcases mentioned with declared | rfl | final | ⟨t, listed, rfl | target⟩
  · exact declared
  · exact consistent.initial
  · exact consistent.finals s final
  · exact consistent.sources t listed
  · exact (consistent.destinations t listed).2 s target

theorem Deterministic.single {t : Transition} (deterministic : p.Deterministic)
    (listed : t ∈ p.transitions) : ∃ x d, t.symbol = .letter x ∧ t.destinations = .singleton d :=
  Transition.isSingle_iff.mp ((Automaton.isDeterministic_iff.mp deterministic.deterministic).1 t listed)

theorem not_faulty (sound : p.defect? kind = none) : ¬ p.Faulty kind e := by
  intro faulty
  have consistent := consistent_of_defect? sound
  cases faulty with
  | sink mentioned =>
    exact (defect?_general_iff.mp sound).dead_not_mem (consistent.mem_states mentioned)
  | reservedName mentioned member reserved =>
    have unreserved := (consistent.names _ (consistent.mem_states mentioned) _ member).unreserved
    tauto
  | invalidName mentioned member invalid =>
    have fits := consistent.names _ (consistent.mem_states mentioned) _ member
    obtain empty | ⟨c, inside, delimiter⟩ := invalid
    · exact fits.nonempty empty
    · have free := fits.undelimited c inside
      tauto
  | fewNames mentioned few =>
    exact absurd (consistent.composites _ (consistent.mem_states mentioned)) (Nat.not_le_of_lt few)
  | unknownInitial absent => exact absent consistent.initial
  | unknownFinal final absent => exact absent (consistent.finals _ final)
  | unknownEndpoint listed endpoint absent =>
    exact absent (consistent.mem_states (.inr (.inr (.inr ⟨_, listed, endpoint⟩))))
  | unknownLetter listed symbol absent =>
    rcases consistent.symbols _ listed with epsilon | ⟨x, letter, same⟩
    · rw [symbol] at epsilon
      cases epsilon
    · rw [symbol] at same
      cases same
      exact absent letter
  | emptyLetter letter empty =>
    have visible := consistent.letters _ letter
    tauto
  | noDestination listed none =>
    obtain ⟨d, target⟩ := (consistent.destinations _ listed).1
    exact none d target
  | sharedName first second different ours theirs =>
    exact different ((defect?_general_iff.mp sound).eq_of_name _ first _ second _ ours theirs)
  | @notDeterministic earlier later t split conflict =>
    have deterministic := defect?_deterministic_iff.mp sound
    obtain ⟨x, only, letter, single⟩ :=
      deterministic.single (split ▸ List.mem_append_right _ List.mem_cons_self)
    rcases conflict with epsilon | ⟨d, target, d', target', different⟩ | ⟨u, before, source, symbol⟩
    · rw [letter] at epsilon
      cases epsilon
    · rw [single, SortedSet.mem_singleton] at target target'
      exact different (target.trans target'.symm)
    · have apart := (Automaton.isDeterministic_iff.mp deterministic.deterministic).2
      rw [show p.collapse.transitions = earlier ++ t :: later from split, List.pairwise_append] at apart
      rcases apart.2.2 u before t List.mem_cons_self with sources | symbols
      · exact sources source
      · exact symbols symbol
  | deadAccepts dead path final =>
    exact (defect?_deterministic_iff.mp sound).dead_rejects dead _ path final

theorem exists_toAutomaton_iff : (∃ a, p.toAutomaton kind = .ok a) ↔ p.defect? kind = none := by
  simp only [toAutomaton_eq_ok_iff, exists_and_left, exists_eq', and_true]

/-- The parts make a general automaton exactly if they are as such an automaton asks, and a deterministic
one likewise. An automaton that is made has the collections of its parts, with repetitions collapsed onto
the first, and their transitions. Where none is made the error names what is at fault, and nothing is at
fault where one is made. The test for a transition out of order is the one for determinism, and the search
from the sink ends with what paths from it lead to, on cycles too. -/
theorem toAutomaton_exact (p : Parts) :
    ((∃ a, p.toAutomaton .general = .ok a) ↔ p.General) ∧
    ((∃ a, p.toAutomaton .deterministic = .ok a) ↔ p.Deterministic) ∧
    (∀ kind a, p.toAutomaton kind = .ok a →
      a.initial = p.initial ∧ a.finals.toList = p.finals.eraseDups ∧
        a.states.toList = p.states.eraseDups ∧ a.alphabet.toList = p.alphabet.eraseDups ∧
        a.transitions = p.transitions) ∧
    (∀ kind e, p.toAutomaton kind = .error e → p.Faulty kind e) ∧
    (∀ kind e, p.Faulty kind e → ∀ a, p.toAutomaton kind ≠ .ok a) ∧
    (p.collapse.isDeterministic = true ↔ Automaton.firstConflict? [] p.transitions = none) ∧
    ∃ accepts, p.deadAccepts? = some accepts ∧ p.deadAccepts = accepts ∧
      (accepts = true ↔ .dead ∈ p.states ∧ ∃ s ∈ p.finals, ReflTransGen p.Leads .dead s) := by
  refine ⟨exists_toAutomaton_iff.trans defect?_general_iff,
    exists_toAutomaton_iff.trans defect?_deterministic_iff, fun kind a built => ?_,
    fun kind e refused => ?_, fun kind e faulty a built => ?_,
    Automaton.isDeterministic_iff_firstConflict?, ?_⟩
  · obtain ⟨_, rfl⟩ := toAutomaton_eq_ok_iff.mp built
    have collapsed := fun l : List State => UniqueList.collapse_eq_eraseDups l
    exact ⟨rfl, collapsed _, collapsed _, UniqueList.collapse_eq_eraseDups _, rfl⟩
  · unfold toAutomaton at refused
    split at refused
    · rename_i found
      cases refused
      exact faulty_of_defect? found
    · cases refused
  · exact not_faulty (toAutomaton_eq_ok_iff.mp built).1 faulty
  · obtain ⟨accepts, ended, exact⟩ := exists_deadAccepts? p
    have edges : p.graph.Edge = p.Leads := funext fun s => funext fun t => propext leads_collapse_iff
    exact ⟨accepts, ended, by rw [deadAccepts, ended, Option.getD_some], by rw [exact, edges]⟩

/-- Two composite states that share names, which only a deterministic automaton may have. -/
def sharing : Parts where
  initial := .simple "q"
  finals := [.simple "c", .simple "c"]
  states := [.simple "q", .composite (.ofList ["a", "b"]), .simple "c",
    .composite (.ofList ["a", "b", "c"])]
  alphabet := ["x", "x"]
  transitions := [⟨.simple "q", .letter "x", .singleton (.composite (.ofList ["a", "b", "c"]))⟩]

theorem toAutomaton_exact_sharing :
    sharing.Deterministic ∧ ¬ sharing.General ∧
      sharing.collapse.alphabet.toList = sharing.alphabet.eraseDups ∧
      sharing.toAutomaton .general = .error (.sharedName "a") ∧
      sharing.Faulty .general (.sharedName "a") ∧ ∀ e, ¬ sharing.Faulty .deterministic e := by
  have built : sharing.toAutomaton .deterministic = .ok sharing.collapse := by decide
  have refused : sharing.toAutomaton .general = .error (.sharedName "a") := by decide
  obtain ⟨general, deterministic, collapsed, faulty, sound, _⟩ := toAutomaton_exact sharing
  refine ⟨deterministic.mp ⟨_, built⟩, fun fits => ?_, (collapsed _ _ built).2.2.2.1, refused,
    faulty _ _ refused, fun e blamed => sound _ e blamed _ built⟩
  obtain ⟨a, accepted⟩ := general.mpr fits
  rw [refused] at accepted
  cases accepted

end Parts

end Determinize
