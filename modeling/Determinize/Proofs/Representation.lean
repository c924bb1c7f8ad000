import Determinize.Proofs.Image
import Determinize.Proofs.Sweep
import Mathlib.Data.List.Nodup

/-!
The working copy of merging and the table by names. The working copy that a table stands for has at
the place of each declared state what the table says of it (`Reduction.copy`). Entering the moves of an
automaton one by one gives the copy that its first table stands for (`start_eq_copy`); removing a state,
comparing two and writing out what is left do to the copy what they do to the table.
-/

namespace Determinize

/-! ### Lists by places -/

section Places

variable {α β : Type} [DecidableEq α] {l : List α} {a b : α}

theorem modify_map_idxOf (nodup : l.Nodup) (member : a ∈ l) (g : α → β) (h : β → β) :
    (l.map g).modify (l.idxOf a) h = l.map fun b => if b = a then h (g b) else g b := by
  induction l with
  | nil => cases member
  | cons c l ih =>
    obtain ⟨fresh, nodup⟩ := List.nodup_cons.mp nodup
    by_cases same : c = a
    · subst same
      have others : l.map (fun b => if b = c then h (g b) else g b) = l.map g :=
        List.map_congr_left fun b listed => if_neg (ne_of_mem_of_not_mem listed fresh)
      simp [others]
    · rw [List.idxOf_cons_ne _ same, List.map_cons, List.modify_succ_cons, List.map_cons, if_neg same,
        ih nodup ((List.mem_cons.mp member).resolve_left (Ne.symm same))]

theorem set_map_idxOf (nodup : l.Nodup) (member : a ∈ l) (g : α → β) (v : β) :
    (l.map g).set (l.idxOf a) v = l.map fun b => if b = a then v else g b := by
  rw [List.set_eq_modify, modify_map_idxOf nodup member]

theorem getElem?_map_idxOf (member : a ∈ l) (g : α → β) : (l.map g)[l.idxOf a]? = some (g a) := by
  rw [List.getElem?_map, List.getElem?_idxOf member, Option.map_some]

theorem getD_map_idxOf (member : a ∈ l) (g : α → β) (v : β) : (l.map g).getD (l.idxOf a) v = g a := by
  rw [List.getD_eq_getElem?_getD, getElem?_map_idxOf member, Option.getD_some]

/-- The places are those of the elements in turn. -/
theorem range_length (nodup : l.Nodup) : List.range l.length = l.map fun a => l.idxOf a := by
  refine List.ext_getElem (by simp) fun i first second => ?_
  rw [List.getElem_range, List.getElem_map, nodup.idxOf_getElem]

end Places

namespace UniqueList

variable {α : Type} [DecidableEq α] {s : UniqueList α} {a : α}

theorem index?_eq_some (member : a ∈ s) : s.index? a = some (s.toList.idxOf a) := by
  obtain ⟨i, found⟩ := Option.isSome_iff_exists.mp (List.isSome_idxOf?.mpr (mem_toList.mpr member))
  rw [index?, List.idxOf_eq_getD_idxOf?, found, Option.getD_some]

theorem index?_eq_none (absent : a ∉ s) : s.index? a = none := List.idxOf?_eq_none_iff.mpr absent

end UniqueList

namespace Automaton

variable {a : Automaton} {s t : State}

def place (a : Automaton) (s : State) : Nat := a.states.toList.idxOf s

theorem place_inj (declared : s ∈ a.states) : a.place s = a.place t ↔ s = t := List.idxOf_inj declared

theorem index?_states (declared : s ∈ a.states) : a.states.index? s = some (a.place s) :=
  UniqueList.index?_eq_some declared

theorem some_place_eq_index?_iff (declared : s ∈ a.states) :
    some (a.place s) = a.states.index? t ↔ s = t := by
  by_cases other : t ∈ a.states
  · rw [index?_states other, Option.some.injEq, place_inj declared]
  · rw [UniqueList.index?_eq_none other]
    exact iff_of_false (by simp) fun same => other (same ▸ declared)

section At

variable {β : Type} (declared : s ∈ a.states) (g : State → β)

include declared

theorem modify_map_place (h : β → β) : (a.states.toList.map g).modify (a.place s) h =
    a.states.toList.map fun t => if t = s then h (g t) else g t :=
  modify_map_idxOf a.states.nodup declared g h

theorem set_map_place (v : β) : (a.states.toList.map g).set (a.place s) v =
    a.states.toList.map fun t => if t = s then v else g t :=
  set_map_idxOf a.states.nodup declared g v

theorem getElem?_map_place : (a.states.toList.map g)[a.place s]? = some (g s) :=
  getElem?_map_idxOf declared g

theorem getD_map_place (v : β) : (a.states.toList.map g).getD (a.place s) v = g s :=
  getD_map_idxOf declared g v

end At

theorem range_size : List.range a.states.size = a.states.toList.map a.place :=
  range_length a.states.nodup

end Automaton

namespace Reduction

variable {a : Automaton} {m : Reduction} {s t r k d : State} {x : String} {rows : List (List (Option Nat))}

/-! ### The copy of a table -/

def copyRow (a : Automaton) (next : State → String → Option State) (s : State) : List (Option Nat) :=
  a.alphabet.toList.map fun x => (next s x).map a.place

/-- The working copy that a table stands for. -/
def copy (a : Automaton) (m : Reduction) : WorkingCopy where
  alive := a.states.toList.map m.isLive
  finals := a.states.toList.map m.isFinal
  rows := a.states.toList.map (copyRow a m.next?)
  initial := a.states.index? a.initial
  dead := a.states.index? .dead
  merges := m.merges.map fun e => (a.place e.removed, a.place e.kept)

theorem eq_initial_copy_iff (present : s ∈ a.states) :
    some (a.place s) = (copy a m).initial ↔ s = a.initial :=
  Automaton.some_place_eq_index?_iff present

theorem eq_dead_copy_iff (present : s ∈ a.states) : some (a.place s) = (copy a m).dead ↔ s = .dead :=
  Automaton.some_place_eq_index?_iff present

theorem size_copy : (copy a m).size = a.states.size := List.length_map _

theorem isAlive_copy (present : s ∈ a.states) : (copy a m).isAlive (a.place s) = m.isLive s :=
  Automaton.getD_map_place present _ _

theorem live_copy : (copy a m).live = (a.states.toList.filter m.isLive).map a.place := by
  rw [WorkingCopy.live, size_copy, Automaton.range_size, List.filter_map]
  exact congrArg _ (List.filter_congr fun s present => isAlive_copy present)

theorem finals_copy (present : s ∈ a.states) : (copy a m).finals[a.place s]? = some (m.isFinal s) :=
  Automaton.getElem?_map_place present _

theorem rows_copy (present : s ∈ a.states) :
    (copy a m).rows[a.place s]? = some (copyRow a m.next? s) :=
  Automaton.getElem?_map_place present _

/-! ### Entering moves -/

/-- Where the first of some transitions leads from a state on a letter. -/
def firstMove (ts : List Transition) (s : State) (x : String) : Option State :=
  (ts.find? fun t => t.leaves s (.letter x)).bind fun t => t.destinations.min?

theorem firstMove_cons {u : Transition} {ts : List Transition} : firstMove (u :: ts) s x =
    if u.leaves s (.letter x) then u.destinations.min? else firstMove ts s x := by
  rw [firstMove, List.find?_cons, firstMove]
  cases u.leaves s (.letter x) <;> rfl

theorem exists_min? {u : Transition} (admits : a.Admits u) :
    ∃ d ∈ a.states, u.destinations.min? = some d := by
  obtain ⟨_, ⟨d, target⟩, destinations, _⟩ := admits
  have first : u.destinations.min? = _ := List.head?_eq_some_head (List.ne_nil_of_mem target)
  exact ⟨_, destinations _ (Automaton.min?_mem first), first⟩

theorem enterMove_copyRow {next : State → String → Option State} {u : Transition} (admits : a.Admits u) :
    WorkingCopy.enterMove a (a.states.toList.map (copyRow a next)) u =
      a.states.toList.map (copyRow a fun s x =>
        if u.leaves s (.letter x) then (next s x).or u.destinations.min? else next s x) := by
  obtain ⟨d, present, first⟩ := exists_min? admits
  unfold WorkingCopy.enterMove
  cases symbol : u.symbol with
  | epsilon => simp [Transition.leaves, symbol, Symbol.letter?]
  | letter y =>
    have listed := admits.letter y symbol
    simp only [Symbol.letter?, Option.bind_some, first, Automaton.index?_states admits.source,
      UniqueList.index?_eq_some listed, Automaton.index?_states present]
    rw [Automaton.modify_map_place admits.source]
    refine List.map_congr_left fun s _ => ?_
    by_cases here : u.source = s
    · rw [if_pos here.symm, copyRow, modify_map_idxOf a.alphabet.nodup listed]
      refine List.map_congr_left fun x _ => ?_
      by_cases same : y = x
      · dsimp only
        rw [if_pos same.symm, if_pos (Transition.leaves_iff.mpr ⟨here, symbol.trans (congrArg _ same)⟩),
          Option.map_or]
        rfl
      · simp [Transition.leaves, symbol, same, Ne.symm same]
    · rw [if_neg (Ne.symm here)]
      exact List.map_congr_left fun x _ => by simp [Transition.leaves, here]

/-- Of all moves entered for a state and a letter the first one counts. -/
theorem foldl_enterMove {ts : List Transition} (admitted : ∀ u ∈ ts, a.Admits u)
    (next : State → String → Option State) :
    ts.foldl (WorkingCopy.enterMove a) (a.states.toList.map (copyRow a next)) =
      a.states.toList.map (copyRow a fun s x => (next s x).or (firstMove ts s x)) := by
  induction ts generalizing next with
  | nil => simp [firstMove]
  | cons u ts ih =>
    obtain ⟨admits, admitted⟩ := List.forall_mem_cons.mp admitted
    obtain ⟨d, _, first⟩ := exists_min? admits
    rw [List.foldl_cons, enterMove_copyRow admits, ih admitted]
    refine List.map_congr_left fun s _ => List.map_congr_left fun x _ => congrArg _ ?_
    dsimp only
    rw [firstMove_cons]
    split
    · rw [first, Option.or_assoc, Option.some_or]
    · rfl

theorem foldl_enterFinal {finals : List State} (declared : ∀ s ∈ finals, s ∈ a.states)
    (before : State → Bool) :
    finals.foldl (WorkingCopy.enterFinal a) (a.states.toList.map before) =
      a.states.toList.map fun s => before s || decide (s ∈ finals) := by
  induction finals generalizing before with
  | nil => simp
  | cons t finals ih =>
    obtain ⟨here, declared⟩ := List.forall_mem_cons.mp declared
    rw [List.foldl_cons, WorkingCopy.enterFinal, Automaton.index?_states here]
    dsimp only
    rw [Automaton.set_map_place here, ih declared]
    refine List.map_congr_left fun s _ => ?_
    by_cases same : s = t <;> simp [same]

theorem Reachable.isFinal_eq (reachable : Reachable a m) (live : m.isLive s = true) :
    m.isFinal s = a.isFinal s := by
  rw [isFinal, reachable.row?_eq_some live]
  rfl

/-- The copy that merging begins with is that of the first table. -/
theorem start_eq_copy (declared : a.Declared) : WorkingCopy.start a = copy a (start a) := by
  have live : ∀ s ∈ a.states, (start a).isLive s = true := fun s present => isLive_start.mpr present
  have alive : List.replicate a.states.size true = a.states.toList.map (start a).isLive := by
    rw [List.map_congr_left live, List.map_const']
    rfl
  have finals : a.finals.toList.foldl (WorkingCopy.enterFinal a) (List.replicate a.states.size false) =
      a.states.toList.map (start a).isFinal := by
    have none : List.replicate a.states.size false = a.states.toList.map fun _ => false :=
      List.map_const'.symm
    rw [none, foldl_enterFinal declared.finals]
    refine List.map_congr_left fun s present => ?_
    rw [Reachable.start.isFinal_eq (live s present), Bool.false_or]
    rfl
  have rows : a.transitions.foldl (WorkingCopy.enterMove a)
      (List.replicate a.states.size (List.replicate a.alphabet.size none)) =
      a.states.toList.map (copyRow a (start a).next?) := by
    have none : List.replicate a.states.size (List.replicate a.alphabet.size none) =
        a.states.toList.map (copyRow a fun _ _ => none) := by
      have row : ∀ s, copyRow a (fun _ _ => none) s = List.replicate a.alphabet.size none :=
        fun _ => List.map_const'
      rw [List.map_congr_left fun s _ => row s, List.map_const']
      rfl
    rw [none, foldl_enterMove declared.transitions]
    refine List.map_congr_left fun s present => List.map_congr_left fun x _ => ?_
    dsimp only
    rw [Reachable.start.next?_eq declared (live s present), Option.none_or]
    exact congrArg _ Option.map_id'.symm
  rw [WorkingCopy.start, alive, finals, rows]
  rfl

/-! ### Removing a state -/

theorem isFinal_remove (stays : s ≠ r) : (m.remove r k).isFinal s = m.isFinal s := by
  rw [isFinal, isFinal, row?_remove stays, Option.any_map]
  rfl

theorem isFinal_remove_self : (m.remove r k).isFinal r = false := by
  rw [isFinal, row?_remove_self]
  rfl

theorem copyRow_remove_self :
    copyRow a (m.remove r k).next? r = (copyRow a m.next? r).map fun _ => none := by
  rw [copyRow, copyRow, List.map_map]
  refine List.map_congr_left fun x _ => ?_
  rw [next?, row?_remove_self]
  rfl

theorem copyRow_remove (present : r ∈ a.states) (stays : s ≠ r) : copyRow a (m.remove r k).next? s =
    (copyRow a m.next? s).map (WorkingCopy.redirect (a.place r) (a.place k)) := by
  rw [copyRow, copyRow, List.map_map]
  refine List.map_congr_left fun x _ => ?_
  rw [Function.comp_apply, next?_remove stays]
  cases m.next? s x with
  | none => rfl
  | some d =>
    by_cases leads : d = r
    · simp [WorkingCopy.redirect, leads]
    · have apart : a.place d ≠ a.place r := fun same =>
        leads ((Automaton.place_inj present).mp same.symm).symm
      simp [WorkingCopy.redirect, leads, apart]

/-- Wiping a row and redirecting the others does what removing the row from the table does. -/
theorem remove_copy (present : r ∈ a.states) :
    (copy a m).remove (a.place r) (a.place k) = copy a (m.remove r k) := by
  have alive : (a.states.toList.map m.isLive).set (a.place r) false =
      a.states.toList.map (m.remove r k).isLive := by
    rw [Automaton.set_map_place present]
    refine List.map_congr_left fun s _ => ?_
    rw [Bool.eq_iff_iff, isLive_remove_iff]
    split <;> simp [*]
  have finals : (a.states.toList.map m.isFinal).set (a.place r) false =
      a.states.toList.map (m.remove r k).isFinal := by
    rw [Automaton.set_map_place present]
    refine List.map_congr_left fun s _ => ?_
    split
    · rename_i same
      rw [same, isFinal_remove_self]
    · rename_i stays
      rw [isFinal_remove stays]
  have rows : ((a.states.toList.map (copyRow a m.next?)).modify (a.place r) fun row =>
      row.map fun _ => none).map (List.map (WorkingCopy.redirect (a.place r) (a.place k))) =
      a.states.toList.map (copyRow a (m.remove r k).next?) := by
    rw [Automaton.modify_map_place present, List.map_map]
    refine List.map_congr_left fun s _ => ?_
    rw [Function.comp_apply]
    split
    · rename_i same
      rw [same, copyRow_remove_self, List.map_map]
      rfl
    · rename_i stays
      rw [copyRow_remove present stays]
  have merges : (m.remove r k).merges = m.merges ++ [⟨r, k⟩] := rfl
  simp only [WorkingCopy.remove, copy, alive, finals, rows, merges, List.map_append, List.map_cons,
    List.map_nil]

/-! ### Comparing two states -/

theorem Reachable.mem_states_of_next? (reachable : Reachable a m) (declared : a.Declared)
    (next : m.next? s x = some d) : d ∈ a.states := by
  rw [reachable.next?_eq declared (isLive_of_next? next)] at next
  obtain ⟨t, before, rfl⟩ := Option.map_eq_some_iff.mp next
  have live := reachable.isLive_representative (Automaton.mem_states_of_nextState? declared before)
  exact (reachable.isLive_iff.mp live).1

theorem Reachable.equivalent_copy (reachable : Reachable a m) (declared : a.Declared)
    (first : m.isLive s = true) (second : m.isLive t = true) :
    (copy a m).equivalent (a.place s) (a.place t) = true ↔ m.Agree s t := by
  have present := (reachable.isLive_iff.mp first).1
  have present' := (reachable.isLive_iff.mp second).1
  rw [reachable.agree_iff declared first second, WorkingCopy.equivalent, finals_copy present,
    finals_copy present', rows_copy present, rows_copy present', Bool.and_eq_true, decide_eq_true_iff,
    decide_eq_true_iff, Option.some.injEq, Option.some.injEq, reachable.isFinal_eq first,
    reachable.isFinal_eq second, copyRow, copyRow, List.map_inj_left]
  refine and_congr_right fun _ => forall₂_congr fun x _ => ⟨fun same => ?_, congrArg _⟩
  cases next : m.next? s x with
  | none =>
    rw [next, Option.map_none] at same
    exact (Option.map_eq_none_iff.mp same.symm).symm
  | some d =>
    rw [next, Option.map_some] at same
    obtain ⟨d', next', places⟩ := Option.map_eq_some_iff.mp same.symm
    rw [next', (Automaton.place_inj (reachable.mem_states_of_next? declared next')).mp places]

/-! ### What is left -/

theorem keeps_copy (present : s ∈ a.states) : (copy a m).keeps a s = m.isLive s := by
  rw [WorkingCopy.keeps, Automaton.index?_states present, Option.any_some, isAlive_copy present]

/-- Where the row of a state leads, in the names of states. -/
theorem Reachable.destination_copy (reachable : Reachable a m) (declared : a.Declared)
    (present : s ∈ a.states) (letter : x ∈ a.alphabet) :
    (((copy a m).next? (a.place s) (a.alphabet.toList.idxOf x)).bind fun d => a.states.toList[d]?) =
      m.next? s x := by
  rw [WorkingCopy.next?, rows_copy present, Option.bind_some, copyRow, getElem?_map_idxOf letter, Option.join_some]
  cases next : m.next? s x with
  | none => rfl
  | some d =>
    rw [Option.map_some, Option.bind_some]
    exact List.getElem?_idxOf (reachable.mem_states_of_next? declared next)

/-- The pairs of a state and a letter for which a move was written are those of the transitions seen, as
far as the states are there. -/
def Written (a : Automaton) (m : Reduction) (earlier : List Transition) (emitted : List (Nat × Nat)) :
    Prop :=
  ∀ s x, m.isLive s = true → x ∈ a.alphabet →
    ((a.place s, a.alphabet.toList.idxOf x) ∈ emitted ↔
      (earlier.any fun e => e.leaves s (.letter x)) = true)

theorem Written.skip {u : Transition} {earlier : List Transition} {emitted : List (Nat × Nat)}
    (written : Written a m earlier emitted) (before : ∀ s x, m.isLive s = true →
      u.leaves s (.letter x) = true → (earlier.any fun e => e.leaves s (.letter x)) = true) :
    Written a m (u :: earlier) emitted := by
  intro s x live letter
  rw [written s x live letter, List.any_cons, Bool.or_eq_true]
  exact ⟨.inr, fun either => either.elim (before s x live) id⟩

theorem Written.enter {u : Transition} {earlier : List Transition} {emitted : List (Nat × Nat)} {y : String}
    (written : Written a m earlier emitted) (reachable : Reachable a m)
    (leaves_iff : ∀ s x, u.leaves s (.letter x) = true ↔ s = u.source ∧ x = y) :
    Written a m (u :: earlier) ((a.place u.source, a.alphabet.toList.idxOf y) :: emitted) := by
  intro s x live letter
  have present := (reachable.isLive_iff.mp live).1
  rw [List.mem_cons, written s x live letter, List.any_cons, Bool.or_eq_true, leaves_iff, Prod.mk.injEq,
    Automaton.place_inj present, List.idxOf_inj letter]

theorem Reachable.transitions_copy (reachable : Reachable a m) (declared : a.Declared)
    {ts earlier : List Transition} {emitted : List (Nat × Nat)} (admitted : ∀ u ∈ ts, a.Admits u)
    (written : Written a m earlier emitted) :
    (copy a m).transitions a emitted ts = m.transitions earlier ts := by
  induction ts generalizing earlier emitted with
  | nil => rfl
  | cons u ts ih =>
    obtain ⟨admits, admitted⟩ := List.forall_mem_cons.mp admitted
    rw [WorkingCopy.transitions, transitions, Automaton.index?_states admits.source]
    cases symbol : u.symbol with
    | epsilon =>
      have skipped := ih admitted (written.skip (u := u) fun s x _ leaves => by
        simp [Transition.leaves, symbol] at leaves)
      simp only [Symbol.letter?, Option.bind_none, skipped, ite_self]
    | letter y =>
      have listed := admits.letter y symbol
      have leaves_iff : ∀ s x, u.leaves s (.letter x) = true ↔ s = u.source ∧ x = y := fun s x => by
        rw [Transition.leaves_iff, symbol, Symbol.letter.injEq, eq_comm, @eq_comm _ y]
      simp only [Symbol.letter?, Option.bind_some, UniqueList.index?_eq_some listed,
        isAlive_copy admits.source]
      cases live : m.isLive u.source with
      | false =>
        have skipped := ih admitted (written.skip fun s x live' leaves => by
          rw [((leaves_iff s x).mp leaves).1, live] at live'
          cases live')
        simp only [Bool.not_false, Bool.true_or, if_true, next?_eq_none live, skipped, ite_self]
      | true =>
        have before := written u.source y live listed
        by_cases again : (earlier.any fun e => e.leaves u.source (.letter y)) = true
        · have skipped := ih admitted (written.skip fun s x _ leaves => by
            obtain ⟨rfl, rfl⟩ := (leaves_iff s x).mp leaves
            exact again)
          rw [decide_eq_true (before.mpr again), if_pos again, ← skipped]
          rfl
        · rw [decide_eq_false (before.not.mpr again), if_neg again,
            ih admitted (written.enter reachable leaves_iff),
            reachable.destination_copy declared admits.source listed]
          rfl

theorem Reachable.toAutomaton_copy (reachable : Reachable a m) (declared : a.Declared) :
    (copy a m).toAutomaton a = m.toAutomaton a := by
  have kept : ∀ l : UniqueList State, (∀ s ∈ l, s ∈ a.states) →
      l.filter ((copy a m).keeps a) = l.filter m.isLive := by
    intro l inside
    apply UniqueList.eq_of_toList_eq
    exact List.filter_congr fun s member => keeps_copy (inside s member)
  have nothing : Written a m [] [] := fun _ _ _ _ => iff_of_false List.not_mem_nil Bool.false_ne_true
  rw [WorkingCopy.toAutomaton, toAutomaton, kept a.finals declared.finals, kept a.states fun _ => id,
    reachable.transitions_copy declared declared.transitions nothing]

theorem Reachable.mem_states_of_mem_merges (reachable : Reachable a m) {e : Merge}
    (member : e ∈ m.merges) : e.removed ∈ a.states ∧ e.kept ∈ a.states := by
  induction reachable with
  | start => cases member
  | remove before live keeps _ _ _ _ ih =>
    rcases List.mem_append.mp member with old | new
    · exact ih old
    · obtain rfl := List.mem_singleton.mp new
      exact ⟨(before.isLive_iff.mp live).1, (before.isLive_iff.mp keeps).1⟩

theorem Reachable.mergings_copy (reachable : Reachable a m) :
    (copy a m).mergings a = m.merges.map fun e => .merging e.removed e.kept := by
  rw [WorkingCopy.mergings, copy, List.filterMap_map, ← List.filterMap_eq_map]
  refine List.filterMap_congr fun e member => ?_
  obtain ⟨removed, kept⟩ := reachable.mem_states_of_mem_merges member
  simp [Automaton.place, List.getElem?_idxOf removed, List.getElem?_idxOf kept]

end Reduction

end Determinize
