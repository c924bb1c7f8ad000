import Determinize.Proofs.RepresentedSweeps

/-!
Partition refinement on the working copy. A round numbers the signatures in the order in which they come
up (`renumber_seen`), so after it the numbers of the states are those of the classes of the divided
partition (`round_copy`), and their count, which is kept apart, is its length. The rounds end by their own
test (`rounds_copy`), every mode ends (`start_reduce?_eq`), and what is made of an automaton is what the
table makes of it (`minimize_eq`).
-/

namespace Determinize

namespace UniqueList

theorem collapse_concat {α : Type} [DecidableEq α] {l : List α} {a : α} :
    collapse (l ++ [a]) = if a ∈ l then collapse l else collapse l ++ [a] := by
  induction l with
  | nil => rfl
  | cons b l ih =>
    rw [List.cons_append, collapse, collapse, ih]
    by_cases later : a ∈ l
    · rw [if_pos later, if_pos (List.mem_cons_of_mem b later)]
    · rw [if_neg later]
      by_cases same : a = b
      · simp [same]
      · simp [later, same]

end UniqueList

theorem lookup_zipIdx {α : Type} [BEq α] [LawfulBEq α] {keys : List α} {k : α} {n : Nat}
    (listed : k ∈ keys) : (keys.zipIdx n).lookup k = some (keys.idxOf k + n) := by
  induction keys generalizing n with
  | nil => cases listed
  | cons key keys ih =>
    rw [List.zipIdx_cons, List.lookup_cons]
    cases same : k == key with
    | true =>
      obtain rfl := eq_of_beq same
      simp
    | false =>
      have other := ne_of_beq_false same
      rw [List.idxOf_cons_ne _ (Ne.symm other), ih ((List.mem_cons.mp listed).resolve_left other)]
      exact congrArg some (by omega)

theorem lookup_zipIdx_eq_none {α : Type} [BEq α] [LawfulBEq α] {keys : List α} {k : α} {n : Nat}
    (absent : k ∉ keys) : (keys.zipIdx n).lookup k = none := by
  refine List.lookup_eq_none_iff.mpr fun e member => ?_
  have listed := List.mem_map_of_mem (f := Prod.fst) member
  rw [List.zipIdx_map_fst] at listed
  exact bne_iff_ne.mpr (Ne.symm (ne_of_mem_of_not_mem listed absent))

theorem find?_eq_self {α : Type} [DecidableEq α] {l : List α} {c : α} :
    l.find? (fun a => decide (a = c)) = if c ∈ l then some c else none := by
  induction l with
  | nil => rfl
  | cons b l ih =>
    rw [List.find?_cons]
    by_cases same : b = c
    · simp [same]
    · simp [same, ih, Ne.symm same]

namespace WorkingCopy

variable {w : WorkingCopy} {state : WorkingCopy × Nat} {base : Nat} {members : List Nat}

theorem Counted.mergeClass (counted : Counted base state) : Counted base (mergeClass state members) := by
  unfold WorkingCopy.mergeClass
  split
  · refine List.foldlRecOn (motive := Counted base) _ _ counted fun state counted i _ => ?_
    obtain ⟨w, merged⟩ := state
    dsimp only [mergeMember]
    split
    · exact counted
    · exact counted.remove
  · exact counted

theorem Counted.refine? (ended : w.refine? = some state) : Counted w.merges.length state := by
  obtain ⟨classes, _, rfl⟩ := Option.map_eq_some_iff.mp ended
  exact List.foldlRecOn (motive := Counted w.merges.length) _ _ rfl fun _ counted _ _ => counted.mergeClass

theorem Counted.reduce? {mode : MergeMode} (ended : w.reduce? mode = some state) :
    Counted w.merges.length state := by
  cases mode with
  | singlePass =>
    cases ended
    exact .sweep
  | fixpoint => exact (show Counted w.merges.length (w, 0) from rfl).sweeps ended
  | refine => exact .refine? ended

end WorkingCopy

namespace Reduction

variable {a : Automaton} {m : Reduction} {p : Partition} {s t : State} {classes : List Nat} {merged : Nat}

/-! ### Signatures -/

/-- The class numbers at the places of two states are equal exactly if the states are in one class. -/
def Labels (a : Automaton) (p : Partition) (classes : List Nat) : Prop :=
  ∀ s ∈ a.states, ∀ t ∈ a.states,
    classes.getD (a.place s) 0 = classes.getD (a.place t) 0 ↔ classOf p s = classOf p t

theorem labels_map_classOf : Labels a p (a.states.toList.map (classOf p)) := by
  intro s first t second
  rw [Automaton.getD_map_place first, Automaton.getD_map_place second]

theorem live_start : (copy a (start a)).live = a.states.toList.map a.place := by
  rw [live_copy, List.filter_eq_self.mpr fun s present => isLive_start.mpr present]

/-- The numbers group the places of the states as they are grouped in the partition. -/
theorem Labels.groupBy_live (labels : Labels a p classes) (numbered : Numbered a p) :
    groupBy (fun i => classes.getD i 0) (copy a (start a)).live = p.map (List.map a.place) := by
  rw [live_start, groupBy_map]
  exact congrArg _ (groupBy_eq.trans ((divide_congr labels).trans numbered))

/-- The signature of the state at a place. -/
def signatureOf (a : Automaton) (classes : List Nat) (s : State) : WorkingCopy.Signature :=
  (copy a (start a)).signature classes (a.place s)

theorem signatureOf_eq (declared : a.Declared) (present : s ∈ a.states) : signatureOf a classes s =
    ⟨classes.getD (a.place s) 0, a.alphabet.toList.map fun x =>
      (a.nextState? s (.letter x)).map fun d => classes.getD (a.place d) 0⟩ := by
  rw [signatureOf, WorkingCopy.signature, List.getD_eq_getElem?_getD (l := (copy a (start a)).rows),
    rows_copy present, Option.getD_some, copyRow, List.map_map]
  refine congrArg _ (List.map_congr_left fun x _ => ?_)
  have representative : representative (start a).merges = id := rfl
  rw [Function.comp_apply, Reachable.start.next?_eq declared (isLive_start.mpr present), representative,
    Option.map_id, Option.map_map]
  rfl

/-- Signatures by numbers that label the classes divide them as signatures by the classes do. -/
theorem signatureOf_eq_iff (declared : a.Declared) (labels : Labels a p classes) (first : s ∈ a.states)
    (second : t ∈ a.states) :
    signatureOf a classes s = signatureOf a classes t ↔ roundKey a p s = roundKey a p t := by
  have places : ∀ x, (a.nextState? s (.letter x)).map (fun d => classes.getD (a.place d) 0) =
      (a.nextState? t (.letter x)).map (fun d => classes.getD (a.place d) 0) ↔
      (a.nextState? s (.letter x)).map (classOf p) = (a.nextState? t (.letter x)).map (classOf p) := by
    intro x
    cases next : a.nextState? s (.letter x) with
    | none => cases a.nextState? t (.letter x) <;> simp
    | some d =>
      cases next' : a.nextState? t (.letter x) with
      | none => simp
      | some d' =>
        have present := Automaton.mem_states_of_nextState? declared next
        have present' := Automaton.mem_states_of_nextState? declared next'
        simp only [Option.map_some, Option.some.injEq, labels d present d' present']
  rw [signatureOf_eq declared first, signatureOf_eq declared second, roundKey_eq_iff declared,
    WorkingCopy.Signature.mk.injEq, List.map_inj_left, labels s first t second]
  simp only [places]
  refine and_congr_right fun _ => ⟨fun same x => ?_, fun same x _ => same x⟩
  by_cases letter : x ∈ a.alphabet
  · exact same x letter
  · rw [Automaton.nextState?_eq_none declared letter, Automaton.nextState?_eq_none declared letter]

/-! ### A round -/

/-- The signatures in the order in which they come up. -/
def signatures (a : Automaton) (classes : List Nat) (states : List State) : List WorkingCopy.Signature :=
  UniqueList.collapse (states.map (signatureOf a classes))

/-- The numbers given when some states have been seen: a state seen has that of its signature. -/
def seen (a : Automaton) (classes : List Nat) (states : List State) : WorkingCopy.Renumbering where
  numbers := (signatures a classes states).zipIdx
  classes := a.states.toList.map fun s =>
    if s ∈ states then (signatures a classes states).idxOf (signatureOf a classes s) else 0

theorem signatures_concat {states : List State} : signatures a classes (states ++ [s]) =
    if signatureOf a classes s ∈ signatures a classes states then signatures a classes states
    else signatures a classes states ++ [signatureOf a classes s] := by
  rw [signatures, List.map_append, List.map_singleton, UniqueList.collapse_concat]
  simp only [signatures, UniqueList.mem_collapse]

theorem renumber_seen {states : List State} (present : s ∈ a.states) :
    (copy a (start a)).renumber classes (seen a classes states) (a.place s) =
      seen a classes (states ++ [s]) := by
  have found : ∀ t ∈ states, signatureOf a classes t ∈ signatures a classes states := fun t member =>
    UniqueList.mem_collapse.mpr (List.mem_map_of_mem member)
  have own : (copy a (start a)).signature classes (a.place s) = signatureOf a classes s := rfl
  rw [WorkingCopy.renumber, own]
  by_cases old : signatureOf a classes s ∈ signatures a classes states
  · have grown : signatures a classes (states ++ [s]) = signatures a classes states :=
      signatures_concat.trans (if_pos old)
    simp only [seen, lookup_zipIdx old, grown, Automaton.set_map_place present]
    refine congrArg _ (List.map_congr_left fun t _ => ?_)
    by_cases same : t = s <;> simp [same]
  · have grown : signatures a classes (states ++ [s]) =
        signatures a classes states ++ [signatureOf a classes s] :=
      signatures_concat.trans (if_neg old)
    simp only [seen, lookup_zipIdx_eq_none old, grown, Automaton.set_map_place present,
      List.length_zipIdx, List.zipIdx_append]
    refine congr (congrArg _ (by simp)) (List.map_congr_left fun t _ => ?_)
    by_cases same : t = s
    · simp [same, List.idxOf_append, old]
    · by_cases before : t ∈ states
      · simp [same, before, List.idxOf_append_of_mem (found t before)]
      · simp [same, before]

theorem foldl_renumber {states : List State} (listed : ∀ s ∈ states, s ∈ a.states) :
    (states.map a.place).foldl ((copy a (start a)).renumber classes)
      ⟨[], List.replicate a.states.size 0⟩ = seen a classes states := by
  induction states using List.reverseRecOn with
  | nil => simp [seen, signatures, UniqueList.collapse, UniqueList.size]
  | append_singleton states s ih =>
    have present := listed s (List.mem_append_right _ (List.mem_singleton_self s))
    rw [List.map_append, List.foldl_append,
      ih fun t member => listed t (List.mem_append_left _ member)]
    exact renumber_seen present

/-- The classes of a round and their count are those of the divided partition. -/
theorem round_copy (declared : a.Declared) (labels : Labels a p classes) :
    let next := (copy a (start a)).round (copy a (start a)).live classes
    next.classes = a.states.toList.map (classOf ((start a).split p)) ∧
      next.numbers.length = ((start a).split p).length := by
  have same : divide (signatureOf a classes) a.states.toList = (start a).split p := by
    rw [split_start]
    exact divide_congr fun s first t second => signatureOf_eq_iff declared labels first second
  have ended := @foldl_renumber a classes a.states.toList fun _ => id
  rw [← live_start, ← @size_copy a (start a)] at ended
  intro next
  rw [show next = _ from ended, ← same]
  refine ⟨List.map_congr_left fun s present => ?_, ?_⟩
  · rw [if_pos present, classOf_divide present]
    rfl
  · rw [seen, List.length_zipIdx, divide, List.length_map]
    rfl

/-- The rounds end with the first one that makes as many classes as there were, in so far as they are
given enough of them. -/
theorem rounds_copy (declared : a.Declared) {k limit : Nat} (labels : Labels a p classes)
    (enough : k < limit) (turns : ∀ i < k, ((start a).split^[i + 1] p).length ≠ ((start a).split^[i] p).length)
    (stands : ((start a).split^[k + 1] p).length = ((start a).split^[k] p).length) :
    (copy a (start a)).rounds (copy a (start a)).live limit classes p.length =
      some (a.states.toList.map (classOf ((start a).split^[k + 1] p))) := by
  induction limit generalizing k p classes with
  | zero => exact absurd enough (Nat.not_lt_zero k)
  | succ limit ih =>
    obtain ⟨named, count⟩ := round_copy declared labels
    rw [WorkingCopy.rounds, named, count]
    cases k with
    | zero => exact if_pos stands
    | succ k =>
      have first : ((start a).split p).length ≠ p.length := turns 0 (Nat.succ_pos k)
      rw [if_neg first]
      exact ih labels_map_classOf (Nat.lt_of_succ_lt_succ enough)
        (fun i small => turns (i + 1) (Nat.succ_lt_succ small)) stands

/-! ### Final states apart from the others -/

theorem finality_copy : (copy a (start a)).finality =
    a.states.toList.map fun s => ((start a).isFinal s).toNat := List.map_map

theorem toNat_isFinal_eq_iff (first : s ∈ a.states) (second : t ∈ a.states) :
    ((start a).isFinal s).toNat = ((start a).isFinal t).toNat ↔ a.isFinal s = a.isFinal t := by
  rw [Reachable.start.isFinal_eq (isLive_start.mpr first),
    Reachable.start.isFinal_eq (isLive_start.mpr second)]
  cases a.isFinal s <;> cases a.isFinal t <;> decide

theorem labels_finality : Labels a (start a).finality (copy a (start a)).finality := by
  intro s first t second
  rw [finality_copy, Automaton.getD_map_place first, Automaton.getD_map_place second, finality_start,
    classOf_eq_iff first second, toNat_isFinal_eq_iff first second]

/-- The count that the rounds begin with is that of the values of finality that come up. -/
theorem count_finality : (copy a (start a)).count (copy a (start a)).finality =
    (start a).finality.length := by
  have same : divide (fun s => ((start a).isFinal s).toNat) a.states.toList = (start a).finality := by
    rw [finality_start]
    exact divide_congr fun s first t second => toNat_isFinal_eq_iff first second
  rw [← same, WorkingCopy.count, live_start, List.map_map, divide, List.length_map, finality_copy]
  refine congrArg (fun l => (UniqueList.collapse l).length) (List.map_congr_left fun s present => ?_)
  exact Automaton.getD_map_place present _ _

/-! ### Merging classes -/

theorem keeper?_copy {members : List State} (listed : ∀ s ∈ members, s ∈ a.states) :
    (copy a m).keeper? (members.map a.place) = (keeper? a.initial members).map a.place := by
  have first : ∀ c : State, members.find? (fun s => decide (some (a.place s) = a.states.index? c)) =
      if c ∈ members then some c else none := by
    intro c
    rw [← find?_eq_self, ← List.head?_filter, ← List.head?_filter]
    refine congrArg List.head? (List.filter_congr fun s member => decide_eq_decide.mpr ?_)
    exact Automaton.some_place_eq_index?_iff (listed s member)
  have initial : members.find? (fun s => decide (some (a.place s) = (copy a m).initial)) = _ :=
    first a.initial
  have dead : members.find? (fun s => decide (some (a.place s) = (copy a m).dead)) = _ := first .dead
  rw [WorkingCopy.keeper?, List.find?_map, List.find?_map, List.head?_map, Function.comp_def,
    Function.comp_def, initial, dead, keeper?]
  split
  · rfl
  · split
    · rfl
    · rfl

theorem mergeClass_copy {members : List State}
    (listed : ∀ s ∈ members, s ∈ a.states) :
    (WorkingCopy.mergeClass (copy a m, merged) (members.map a.place)).1 =
      copy a (mergeClass a.initial m members) := by
  unfold WorkingCopy.mergeClass mergeClass
  rw [show (copy a m, merged).1 = copy a m from rfl, keeper?_copy listed]
  cases found : keeper? a.initial members with
  | none => rfl
  | some kept =>
    have present : kept ∈ a.states := listed kept (keeper?_spec found).1
    clear found
    dsimp only [Option.map_some]
    rw [List.foldl_filter, List.foldl_map]
    induction members generalizing m merged with
    | nil => rfl
    | cons s members ih =>
      obtain ⟨here, listed⟩ := List.forall_mem_cons.mp listed
      have stays : (a.place s = a.place kept || decide (some (a.place s) = (copy a m).dead)) =
          !(decide (s ≠ kept) && !s.isDead) := by
        rw [Bool.eq_iff_iff]
        simp [Automaton.place_inj here, eq_dead_copy_iff here, State.isDead_iff, or_iff_not_imp_left]
      rw [List.foldl_cons, List.foldl_cons, WorkingCopy.mergeMember, stays]
      cases decide (s ≠ kept) && !s.isDead with
      | false => exact ih listed
      | true =>
        rw [remove_copy here]
        exact ih listed

theorem foldl_mergeClass_copy {q : Partition} (listed : ∀ members ∈ q, ∀ s ∈ members, s ∈ a.states) :
    ((q.map (List.map a.place)).foldl WorkingCopy.mergeClass (copy a m, merged)).1 =
      copy a (q.foldl (mergeClass a.initial) m) := by
  induction q generalizing m merged with
  | nil => rfl
  | cons members q ih =>
    obtain ⟨here, listed⟩ := List.forall_mem_cons.mp listed
    rw [List.map_cons, List.foldl_cons, List.foldl_cons, ← ih listed, ← mergeClass_copy here]

theorem exists_refine?_copy (declared : a.Declared) : ∃ merged,
    (copy a (start a)).refine? = some (copy a ((start a).mergeClasses a), merged) := by
  obtain ⟨k, small, turns, stands⟩ := exists_last_round declared
  have classes := classes_eq_rounds small turns stands
  have ended := rounds_copy declared labels_finality small turns stands
  have numbered : Numbered a (start a).classes := classes ▸ numbered_rounds
  have inside : ∀ members ∈ (start a).classes, ∀ s ∈ members, s ∈ a.states := by
    intro members listed s member
    obtain ⟨_, _, _, mem_iff⟩ := class_spec declared listed
    exact ((mem_iff s).mp member).1
  rw [← count_finality, ← rounds, ← classes] at ended
  rw [WorkingCopy.refine?, size_copy, ended, Option.map_some, labels_map_classOf.groupBy_live numbered]
  exact ⟨_, congrArg some (Prod.ext (foldl_mergeClass_copy inside) rfl)⟩

/-! ### The modes -/

theorem start_reduce?_copy (declared : a.Declared) (mode : MergeMode) : ∃ merged,
    (WorkingCopy.start a).reduce? mode = some (copy a (reduce a mode), merged) := by
  rw [start_eq_copy declared]
  cases mode with
  | singlePass => exact ⟨_, congrArg some (Prod.ext (Reachable.start.sweep_copy declared) rfl)⟩
  | fixpoint =>
    rw [WorkingCopy.reduce?, size_copy]
    exact Reachable.start.exists_sweeps_copy declared (List.length_map _).le
  | refine => exact exists_refine?_copy declared

/-- Every mode ends on the copy of the table that it comes to, having counted its merges. -/
theorem reduce_copy (declared : a.Declared) (mode : MergeMode) :
    WorkingCopy.reduce a mode = (copy a (reduce a mode), (reduce a mode).merges.length) := by
  obtain ⟨merged, ended⟩ := start_reduce?_copy declared mode
  have counted : (WorkingCopy.start a).merges.length + merged = (copy a (reduce a mode)).merges.length :=
    WorkingCopy.Counted.reduce? ended
  have none : (WorkingCopy.start a).merges = [] := rfl
  rw [none, List.length_nil, Nat.zero_add, copy, List.length_map] at counted
  rw [WorkingCopy.reduce, ended, Option.getD_some, counted]

/-- No mode runs out of its limit. -/
theorem start_reduce?_eq (declared : a.Declared) (mode : MergeMode) :
    (WorkingCopy.start a).reduce? mode = some (WorkingCopy.reduce a mode) := by
  obtain ⟨merged, ended⟩ := start_reduce?_copy declared mode
  rw [WorkingCopy.reduce, ended, Option.getD_some]

end Reduction

namespace Automaton

variable {a : Automaton} {s : State} {x : String} {w : List String} {mode : MergeMode}

theorem minimize_eq (declared : a.Declared) (mode : MergeMode) :
    a.minimize mode = (Reduction.reduce a mode).toAutomaton a := by
  rw [minimize, Reduction.reduce_copy declared,
    (Reduction.reachable_reduce declared mode).toAutomaton_copy declared]

theorem mem_states_minimize (declared : a.Declared) :
    s ∈ (a.minimize mode).states ↔ s ∈ a.states ∧ (Reduction.reduce a mode).isLive s = true := by
  rw [minimize_eq declared]
  exact Reduction.mem_states_toAutomaton

theorem nextState?_minimize (declared : a.Declared) :
    (a.minimize mode).nextState? s (.letter x) = (Reduction.reduce a mode).next? s x := by
  rw [minimize_eq declared]
  exact (Reduction.reachable_reduce declared mode).nextState?_toAutomaton declared

theorem isFinal_minimize (declared : a.Declared) (member : s ∈ (a.minimize mode).states) :
    (a.minimize mode).isFinal s = a.isFinal s := by
  rw [minimize_eq declared]
  exact Reduction.Reachable.isFinal_toAutomaton ((mem_states_minimize declared).mp member).2

theorem outcome?_minimize (declared : a.Declared) (member : s ∈ (a.minimize mode).states) :
    (a.minimize mode).chart.outcome? s = a.chart.outcome? s := by
  rw [minimize_eq declared]
  exact (Reduction.reachable_reduce declared mode).outcome?_toAutomaton declared
    ((mem_states_minimize declared).mp member).2

theorem initial_mem_minimize (declared : a.Declared) : a.initial ∈ (a.minimize mode).states :=
  (mem_states_minimize declared).mpr
    ⟨declared.initial, (Reduction.reachable_reduce declared mode).isLive_initial declared⟩

theorem declared_minimize (declared : a.Declared) : (a.minimize mode).Declared := by
  rw [minimize_eq declared]
  exact (Reduction.reachable_reduce declared mode).declared_toAutomaton declared

theorem minimizeEvents_eq (declared : a.Declared) (mode : MergeMode) :
    a.minimizeEvents mode = ((Reduction.reduce a mode).merges.map fun e => .merging e.removed e.kept) ++
      [.minimized mode (Reduction.reduce a mode).merges.length] := by
  rw [minimizeEvents, Reduction.reduce_copy declared]
  dsimp only
  rw [(Reduction.reachable_reduce declared mode).mergings_copy]

theorem wellFormed_minimize (wellFormed : a.WellFormed) (mode : MergeMode) :
    (a.minimize mode).WellFormed := by
  rw [minimize_eq wellFormed.toDeclared]
  exact (Reduction.reachable_reduce wellFormed.toDeclared mode).wellFormed_toAutomaton wellFormed

theorem isDeterministic_minimize (declared : a.Declared) (mode : MergeMode) :
    (a.minimize mode).isDeterministic = true := by
  rw [minimize_eq declared]
  exact Reduction.isDeterministic_toAutomaton

theorem accepts_minimize (declared : a.Declared) (deterministic : a.isDeterministic = true)
    (mode : MergeMode) : (a.minimize mode).accepts w = a.accepts w := by
  have ends : (a.minimize mode).chart.outcome? a.initial = a.chart.outcome? a.initial :=
    outcome?_minimize declared (initial_mem_minimize declared)
  rw [Bool.eq_iff_iff, accepts_iff_outcome? (isDeterministic_minimize declared mode),
    accepts_iff_outcome? deterministic]
  exact iff_of_eq (congrArg (fun f => f w = some true) ends)

end Automaton

end Determinize
