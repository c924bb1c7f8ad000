import Determinize.Proofs.SubsetLabel
import Mathlib.Data.List.Perm.Basic

/-!
The invariant of the subset construction. The sets found so far are told apart by their labels, a word
leads to each of them, and they are the expanded ones together with those on the stack; the
transitions are the moves of the expanded ones, one for each letter (`Exploration.Tracks`). One letter
keeps the invariant (`tracks_follow`), so the letters of an expansion do, and so does a run.
-/

namespace Determinize

namespace Exploration

variable {a : Automaton} {e : Exploration} {set : StateSet} {x : String} {current : Subset}
  {done pending : List Subset} {emitted : List Transition}

def move (a : Automaton) (found : Subset) (x : String) : Transition :=
  ⟨found.label, .letter x, .singleton (subsetState (target a found.members x))⟩

def moves (a : Automaton) (found : Subset) : List Transition := a.alphabet.toList.map (move a found)

/-- The empty set, for which the sink stands. -/
def sink : Subset := ⟨.empty, .dead⟩

theorem knows_iff : e.knows set = true ↔ ∃ found ∈ e.discovered, found.members = set := by
  simp [knows]

theorem knows_append {e' : Exploration} (found : Subset)
    (discovered : e'.discovered = e.discovered ++ [found]) :
    e'.knows set = true ↔ e.knows set = true ∨ found.members = set := by
  rw [knows_iff, knows_iff, discovered]
  simp only [List.mem_append, List.mem_singleton, or_and_right, exists_or, exists_eq_left]

/-! ### What following a letter does -/

theorem foldl_addMove_dead (letters : List String) :
    letters.foldl (fun e y => e.addMove .dead y .dead) e =
      { e with transitions := e.transitions ++ letters.map (move a sink) } := by
  induction letters generalizing e with
  | nil => simp
  | cons y letters ih =>
    rw [List.foldl_cons, ih]
    simp [addMove, move, sink, target_empty, subsetState_empty]

theorem follow_of_label {label : State}
    (labelled : subsetLabel? (target a current.members x) = some label) :
    follow a current e x =
      ((e.report (.moving current.label x label)).addMove current.label x label).enqueue
        ⟨target a current.members x, label⟩ := by
  simp only [follow, labelled]

theorem follow_of_empty (empty : target a current.members x = .empty) :
    follow a current e x = (addDead a e current.label x).addMove current.label x .dead := by
  simp only [follow, empty]
  rfl

section Follow

variable (wellFormed : a.WellFormed) (discoverable : a.Discoverable current.members)

include wellFormed discoverable

theorem follow_known (known : e.knows (target a current.members x) = true) :
    ∃ events, follow a current e x =
      { e with transitions := e.transitions ++ [move a current x], events := events } := by
  by_cases empty : target a current.members x = .empty
  · rw [empty] at known
    refine ⟨e.events, ?_⟩
    simp [follow_of_empty empty, addDead, known, addMove, move, empty, subsetState_empty]
  · have labelled := (discoverable_target (x := x) wellFormed discoverable).subsetLabel?_eq_some
      wellFormed.toDeclared empty
    have known' : knows ((e.report (.moving current.label x
        (subsetState (target a current.members x)))).addMove current.label x
        (subsetState (target a current.members x))) (target a current.members x) = true := known
    rw [follow_of_label labelled, enqueue, if_pos known']
    exact ⟨_, rfl⟩

theorem follow_new (new : e.knows (target a current.members x) = false)
    (nonempty : target a current.members x ≠ .empty) :
    ∃ events, follow a current e x =
      { e with
        discovered := e.discovered ++
          [⟨target a current.members x, subsetState (target a current.members x)⟩]
        pending := ⟨target a current.members x, subsetState (target a current.members x)⟩ :: e.pending
        transitions := e.transitions ++ [move a current x]
        events := events } := by
  have labelled := (discoverable_target (x := x) wellFormed discoverable).subsetLabel?_eq_some
    wellFormed.toDeclared nonempty
  have new' : knows ((e.report (.moving current.label x
      (subsetState (target a current.members x)))).addMove current.label x
      (subsetState (target a current.members x))) (target a current.members x) = false := new
  rw [follow_of_label labelled, enqueue, if_neg (by rw [new']; decide)]
  exact ⟨_, rfl⟩

omit wellFormed discoverable in
/-- The first letter that leads nowhere adds the sink with its loops. -/
theorem follow_sink (new : e.knows .empty = false) (empty : target a current.members x = .empty) :
    ∃ events, follow a current e x =
      { e with
        discovered := e.discovered ++ [sink]
        transitions := e.transitions ++ moves a sink ++ [move a current x]
        events := events } := by
  rw [follow_of_empty empty, addDead, if_neg (by simp [new])]
  simp only [foldl_addMove_dead (a := a)]
  refine ⟨e.events ++ [.addingDead current.label x], ?_⟩
  simp [addMove, report, moves, move, empty, sink, subsetState_empty]

theorem knows_follow :
    (follow a current e x).knows set = true ↔
      e.knows set = true ∨ target a current.members x = set := by
  cases known : e.knows (target a current.members x) with
  | true =>
    obtain ⟨events, same⟩ := follow_known wellFormed discoverable known
    rw [same]
    exact (or_iff_left_of_imp fun reached => reached ▸ known).symm
  | false =>
    by_cases empty : target a current.members x = .empty
    · obtain ⟨events, same⟩ := follow_sink (empty ▸ known) empty
      rw [same, empty]
      exact knows_append sink rfl
    · obtain ⟨events, same⟩ := follow_new wellFormed discoverable known empty
      rw [same]
      exact knows_append ⟨_, subsetState (target a current.members x)⟩ rfl

end Follow

/-! ### The invariant -/

/-- What an exploration has found: `done` are the sets with all their moves, `waiting` the others, and
`emitted` the moves that one of the others has already. -/
structure Tracks (a : Automaton) (e : Exploration) (done waiting : List Subset)
    (emitted : List Transition) : Prop where
  discovered : e.discovered.Perm (done ++ waiting)
  transitions : e.transitions.Perm (done.flatMap (moves a) ++ emitted)
  label : ∀ found ∈ e.discovered, found.label = subsetState found.members
  word : ∀ found ∈ e.discovered, ∃ w : List String, (∀ x ∈ w, x ∈ a.alphabet) ∧
    found.members = reached a w
  distinct : (e.discovered.map Subset.members).Nodup
  closed : ∀ found ∈ done, ∀ x ∈ a.alphabet, e.knows (target a found.members x) = true
  start : e.knows (reached a []) = true

theorem tracks_start (a : Automaton) : Tracks a (start a) [] (start a).pending [] := by
  have only : ∀ found ∈ (start a).discovered, found = ⟨liveStates [a.initial], a.initial⟩ :=
    fun found member => List.mem_singleton.mp member
  refine ⟨.refl _, .refl _, fun found member => ?_, fun found member => ?_, ?_, ?_, ?_⟩
  · rw [only found member]
    cases initial : a.initial <;> rfl
  · rw [only found member]
    exact ⟨[], by simp, rfl⟩
  · exact List.nodup_singleton _
  · simp
  · exact knows_iff.mpr ⟨_, List.mem_singleton_self _, rfl⟩

theorem Tracks.discoverable (tracks : Tracks a e done pending emitted) (wellFormed : a.WellFormed)
    {found : Subset} (member : found ∈ e.discovered) : a.Discoverable found.members := by
  obtain ⟨w, _, led⟩ := tracks.word found member
  rw [led]
  exact discoverable_reached wellFormed w

theorem Tracks.current_mem (tracks : Tracks a e done (current :: pending) emitted) :
    current ∈ e.discovered :=
  tracks.discovered.mem_iff.mpr (List.mem_append_right _ List.mem_cons_self)

theorem Tracks.word_target (tracks : Tracks a e done pending emitted)
    (member : current ∈ e.discovered) (letter : x ∈ a.alphabet) :
    ∃ w : List String, (∀ x ∈ w, x ∈ a.alphabet) ∧ target a current.members x = reached a w := by
  obtain ⟨w, allowed, led⟩ := tracks.word current member
  refine ⟨w ++ [x], fun y mem => ?_, ?_⟩
  · rcases List.mem_append.mp mem with before | last
    · exact allowed y before
    · rwa [List.mem_singleton.mp last]
  · rw [reached_append, ← led]

theorem Tracks.distinct_append (tracks : Tracks a e done pending emitted)
    (new : e.knows set = false) : (e.discovered.map Subset.members ++ [set]).Nodup := by
  refine List.nodup_append.mpr ⟨tracks.distinct, List.nodup_singleton _, fun s first t second same => ?_⟩
  obtain ⟨other, member, rfl⟩ := List.mem_map.mp first
  have known := knows_iff.mpr ⟨other, member, same.trans (List.mem_singleton.mp second)⟩
  rw [new] at known
  cases known

/-- Adding a set that a letter leads to. Of the expanded sets only the sink may be new. -/
theorem Tracks.add (tracks : Tracks a e done (current :: pending) emitted)
    {e' : Exploration} {found : Subset} {done' waiting' : List Subset} {emitted' : List Transition}
    (letter : x ∈ a.alphabet) (new : e.knows (target a current.members x) = false)
    (members : found.members = target a current.members x)
    (label : found.label = subsetState found.members)
    (discovered : e'.discovered = e.discovered ++ [found])
    (split : e'.discovered.Perm (done' ++ waiting'))
    (transitions : e'.transitions.Perm (done'.flatMap (moves a) ++ emitted'))
    (closed : ∀ other ∈ done', other ∈ done ∨ other = sink)
    (known : sink ∈ done' → e'.knows .empty = true) :
    Tracks a e' done' waiting' emitted' := by
  have kept : ∀ set, e.knows set = true → e'.knows set = true :=
    fun set known => (knows_append found discovered).mpr (.inl known)
  have both : ∀ other ∈ e'.discovered, other ∈ e.discovered ∨ other = found := by
    intro other member
    rwa [discovered, List.mem_append, List.mem_singleton] at member
  refine ⟨split, transitions, fun other member => ?_, fun other member => ?_, ?_,
    fun other member y letter => ?_, kept _ tracks.start⟩
  · rcases both other member with before | rfl
    · exact tracks.label other before
    · exact label
  · rcases both other member with before | rfl
    · exact tracks.word other before
    · rw [members]
      exact tracks.word_target tracks.current_mem letter
  · rw [discovered, List.map_append, List.map_singleton, members]
    exact tracks.distinct_append new
  · rcases closed other member with before | rfl
    · exact kept _ (tracks.closed other before y letter)
    · rw [show target a sink.members y = .empty from target_empty]
      exact known member

theorem perm_append_between {α : Type} {l first last : List α} (split : l.Perm (first ++ last))
    (more : List α) : (l ++ more).Perm (first ++ more ++ last) := by
  have moved : (first ++ (last ++ more)).Perm (first ++ (more ++ last)) :=
    List.perm_append_comm.append_left first
  rw [← List.append_assoc, ← List.append_assoc] at moved
  exact (split.append_right more).trans moved

theorem tracks_follow (wellFormed : a.WellFormed)
    (tracks : Tracks a e done (current :: e.pending) emitted) (letter : x ∈ a.alphabet) :
    ∃ done', Tracks a (follow a current e x) done' (current :: (follow a current e x).pending)
      (emitted ++ [move a current x]) := by
  have discoverable := tracks.discoverable wellFormed tracks.current_mem
  cases known : e.knows (target a current.members x) with
  | true =>
    obtain ⟨events, same⟩ := follow_known wellFormed discoverable known
    rw [same]
    refine ⟨done, tracks.discovered, ?_, tracks.label, tracks.word, tracks.distinct, tracks.closed,
      tracks.start⟩
    rw [← List.append_assoc]
    exact tracks.transitions.append_right _
  | false =>
    by_cases empty : target a current.members x = .empty
    · obtain ⟨events, same⟩ := follow_sink (empty ▸ known) empty
      rw [same]
      refine ⟨done ++ [sink], tracks.add letter known empty.symm rfl rfl ?_ ?_ ?_ ?_⟩
      · exact perm_append_between tracks.discovered [sink]
      · rw [List.flatMap_append, List.flatMap_singleton, ← List.append_assoc]
        exact (perm_append_between tracks.transitions (moves a sink)).append_right _
      · intro other member
        rwa [List.mem_append, List.mem_singleton] at member
      · exact fun _ => (knows_append sink rfl).mpr (.inr rfl)
    · obtain ⟨events, same⟩ := follow_new wellFormed discoverable known empty
      rw [same]
      refine ⟨done, tracks.add letter known rfl rfl rfl ?_ ?_ (fun _ => .inl) fun expanded => ?_⟩
      · have split : e.discovered.Perm (done ++ [current] ++ e.pending) := by
          rw [List.append_assoc]
          exact tracks.discovered
        have placed := perm_append_between split
          [⟨target a current.members x, subsetState (target a current.members x)⟩]
        rw [List.append_assoc, List.append_assoc] at placed
        exact placed
      · rw [← List.append_assoc]
        exact tracks.transitions.append_right _
      · have before := tracks.discovered.mem_iff.mpr (List.mem_append_left _ expanded)
        exact (knows_append _ rfl).mpr (.inl (knows_iff.mpr ⟨sink, before, rfl⟩))

theorem tracks_foldl_follow (wellFormed : a.WellFormed) (letters : List String)
    (tracks : Tracks a e done (current :: e.pending) emitted)
    (allowed : ∀ x ∈ letters, x ∈ a.alphabet) :
    (∃ done', Tracks a (letters.foldl (follow a current) e) done'
      (current :: (letters.foldl (follow a current) e).pending)
      (emitted ++ letters.map (move a current))) ∧
    ∀ set, (letters.foldl (follow a current) e).knows set = true ↔
      e.knows set = true ∨ ∃ x ∈ letters, target a current.members x = set := by
  induction letters generalizing e done emitted with
  | nil => exact ⟨⟨done, by simpa using tracks⟩, by simp⟩
  | cons x letters ih =>
    obtain ⟨letter, allowed⟩ := List.forall_mem_cons.mp allowed
    obtain ⟨done', next⟩ := tracks_follow wellFormed tracks letter
    obtain ⟨⟨done'', last⟩, known⟩ := ih next allowed
    rw [List.foldl_cons]
    refine ⟨⟨done'', by simpa using last⟩, fun set => (known set).trans ?_⟩
    rw [knows_follow wellFormed (tracks.discoverable wellFormed tracks.current_mem),
      List.exists_mem_cons_iff, or_assoc]

theorem step_eq_expand (waiting : e.pending = current :: pending) :
    step a e = expand a current { e with pending := pending } := by
  rw [step]
  simp only [waiting]

/-- What an expansion keeps, a run keeps. -/
theorem run_keeps {motive : Exploration → Prop}
    (keeps : ∀ e, e.pending ≠ [] → motive e → motive (step a e)) (limit : Nat) (start : motive e) :
    motive (run a limit e) := by
  induction limit generalizing e with
  | zero => exact start
  | succ limit ih =>
    rw [run]
    split
    · exact start
    · rename_i working
      rw [List.isEmpty_iff] at working
      exact ih (keeps e working start)

theorem tracks_step (wellFormed : a.WellFormed) (tracks : Tracks a e done e.pending []) :
    ∃ done', Tracks a (step a e) done' (step a e).pending [] := by
  cases waiting : e.pending with
  | nil =>
    rw [step]
    simp only [waiting]
    exact ⟨done, by simpa [waiting] using tracks⟩
  | cons current rest =>
    have popped : Tracks a (({ e with pending := rest } : Exploration).report (.expanding current.label))
        done (current :: rest) [] :=
      ⟨waiting ▸ tracks.discovered, tracks.transitions, tracks.label, tracks.word, tracks.distinct,
        tracks.closed, tracks.start⟩
    obtain ⟨⟨done', expanded⟩, known⟩ :=
      tracks_foldl_follow wellFormed a.alphabet.toList popped fun _ => id
    rw [step_eq_expand waiting]
    refine ⟨done' ++ [current], ?_, ?_, expanded.label, expanded.word, expanded.distinct, ?_,
      expanded.start⟩
    · rw [List.append_assoc]
      exact expanded.discovered
    · rw [List.flatMap_append, List.flatMap_singleton, List.append_nil]
      exact expanded.transitions
    · intro found member x letter
      rcases List.mem_append.mp member with before | last
      · exact expanded.closed found before x letter
      · rw [List.mem_singleton.mp last]
        exact (known _).mpr (.inr ⟨x, letter, rfl⟩)

theorem tracks_run (wellFormed : a.WellFormed) (limit : Nat) (tracks : Tracks a e done e.pending []) :
    ∃ done', Tracks a (run a limit e) done' (run a limit e).pending [] :=
  run_keeps (motive := fun e => ∃ done, Tracks a e done e.pending [])
    (fun _ _ ⟨_, tracks⟩ => tracks_step wellFormed tracks) limit ⟨done, tracks⟩

end Exploration

end Determinize
