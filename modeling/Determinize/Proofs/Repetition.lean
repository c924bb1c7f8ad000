import Determinize.Proofs.Budget
import Determinize.Proofs.Pipeline

/-!
Determinizing again. In the automaton of a finished search every set that was found is a single state, so
a search of it comes to these states one by one: it is the first search with every set replaced by the set
of the one state that stands for it (`Exploration.run_alone`). What is listed stays the same, with the
whole automaton (`determinize_determinize`).
-/

namespace Determinize

/-- The state that stands for a set, as a set of its own. The sink is left out of it. -/
def Subset.alone (found : Subset) : Subset := ⟨liveStates [found.label], found.label⟩

namespace Exploration

variable {a : Automaton} {e full : Exploration} {current found other : Subset} {s t : State}
  {x : String} {done : List Subset}

def alone (e : Exploration) : Exploration :=
  { e with discovered := e.discovered.map Subset.alone, pending := e.pending.map Subset.alone }

theorem mem_liveStates_singleton : t ∈ liveStates [s] ↔ t = s ∧ s ≠ .dead := by
  rw [mem_liveStates, List.mem_singleton]
  exact and_congr_right fun same => same ▸ Iff.rfl

theorem liveStates_singleton_inj (same : liveStates [s] = liveStates [t]) : s = t := by
  have members : ∀ u, u = s ∧ s ≠ .dead ↔ u = t ∧ t ≠ .dead := fun u => by
    rw [← mem_liveStates_singleton, same, mem_liveStates_singleton]
  by_cases dead : s = .dead
  · by_cases dead' : t = .dead
    · rw [dead, dead']
    · exact ((members t).mpr ⟨rfl, dead'⟩).1.symm
  · exact ((members s).mp ⟨rfl, dead⟩).1

theorem subsetLabel?_liveStates_singleton (live : s ≠ .dead) :
    subsetLabel? (liveStates [s]) = some s := by
  cases s with
  | simple name => rfl
  | composite names => rfl
  | dead => contradiction

/-- What is found and what waits is found in the whole search. -/
structure Within (full e : Exploration) : Prop where
  discovered : ∀ found ∈ e.discovered, found ∈ full.discovered
  pending : ∀ found ∈ e.pending, found ∈ full.discovered

section Repetition

variable (wellFormed : a.WellFormed) (tracks : Tracks a full done [] [])

include wellFormed tracks

omit wellFormed in
theorem target_mem_discovered (member : current ∈ full.discovered) (letter : x ∈ a.alphabet) :
    (⟨target a current.members x, subsetState (target a current.members x)⟩ : Subset) ∈
      full.discovered := by
  have known := tracks.closed current (mem_done tracks member) x letter
  obtain ⟨found, listed, same⟩ := knows_iff.mp known
  rw [← same, ← tracks.label found listed]
  exact listed

theorem target_alone (member : current ∈ full.discovered) (letter : x ∈ a.alphabet) :
    target (full.toAutomaton a) current.alone.members x =
      liveStates [subsetState (target a current.members x)] := by
  apply SortedSet.ext
  intro t
  have next := nextState?_toAutomaton wellFormed tracks member letter
  have step : (full.toAutomaton a).Step current.label (.letter x) t ↔
      t = subsetState (target a current.members x) := by
    rw [← Automaton.nextState?_eq_some_iff (tracks.isDeterministic wellFormed), next,
      Option.some.injEq]
    exact eq_comm
  rw [mem_target, Subset.alone, mem_liveStates_singleton]
  simp only [mem_liveStates_singleton, and_assoc, exists_eq_left]
  rw [step]
  constructor
  · rintro ⟨live, _, rfl⟩
    exact ⟨rfl, live⟩
  · rintro ⟨rfl, live⟩
    refine ⟨live, fun dead => live ?_, rfl⟩
    rw [tracks.members_of_dead wellFormed member dead, target_empty, subsetState_empty]

/-- Only sets that were found are known to have labels of their own. -/
theorem alone_members_eq_iff (first : found ∈ full.discovered) (second : other ∈ full.discovered) :
    found.alone.members = other.alone.members ↔ found.members = other.members := by
  constructor
  · intro same
    rw [tracks.eq_of_label_eq wellFormed first second (liveStates_singleton_inj same)]
  · intro same
    rw [Subset.alone, Subset.alone, tracks.label found first, tracks.label other second, same]

theorem knows_alone (within : Within full e) (member : other ∈ full.discovered) :
    e.alone.knows other.alone.members = e.knows other.members := by
  rw [Bool.eq_iff_iff, knows_iff, knows_iff]
  constructor
  · rintro ⟨found', listed, same⟩
    obtain ⟨found, before, rfl⟩ := List.mem_map.mp listed
    have first := within.discovered found before
    exact ⟨found, before, (alone_members_eq_iff wellFormed tracks first member).mp same⟩
  · rintro ⟨found, before, same⟩
    have first := within.discovered found before
    refine ⟨found.alone, List.mem_map_of_mem before, ?_⟩
    exact (alone_members_eq_iff wellFormed tracks first member).mpr same

theorem enqueue_alone (within : Within full e) (member : other ∈ full.discovered) :
    e.alone.enqueue other.alone = (e.enqueue other).alone := by
  rw [enqueue, enqueue, knows_alone wellFormed tracks within member]
  split
  · rfl
  · simp only [alone, List.map_append, List.map_cons, List.map_nil]

theorem addDead_alone (within : Within full e) (member : sink ∈ full.discovered) :
    addDead (full.toAutomaton a) e.alone s x = (addDead a e s x).alone := by
  have known : e.alone.knows .empty = e.knows .empty :=
    knows_alone wellFormed tracks within member
  have loops : ∀ (letters : List String) (e : Exploration),
      letters.foldl (fun e y => e.addMove .dead y .dead) e.alone =
        (letters.foldl (fun e y => e.addMove .dead y .dead) e).alone := fun _ _ =>
    List.foldl_hom alone fun _ _ => rfl
  have reported : e.alone.report (.addingDead s x) = (e.report (.addingDead s x)).alone := rfl
  rw [addDead, addDead, known]
  split
  · rfl
  · simp only [reported, loops, toAutomaton]
    simp only [alone, List.map_append, List.map_cons, List.map_nil]
    rfl

theorem follow_alone (within : Within full e) (member : current ∈ full.discovered)
    (letter : x ∈ a.alphabet) :
    follow (full.toAutomaton a) current.alone e.alone x = (follow a current e x).alone := by
  have found := target_mem_discovered tracks member letter
  have targets := target_alone wellFormed tracks member letter
  have discoverable := discoverable_target (x := x) wellFormed (tracks.discoverable wellFormed member)
  by_cases empty : target a current.members x = .empty
  · rw [empty] at found
    rw [empty, subsetState_empty] at targets
    rw [follow_of_empty empty, follow_of_empty targets]
    have added := addDead_alone (s := current.label) (x := x) wellFormed tracks within found
    exact congrArg (fun e => addMove e current.label x .dead) added
  · have live := discoverable.subsetState_ne_dead wellFormed.toDeclared empty
    have labelled := discoverable.subsetLabel?_eq_some wellFormed.toDeclared empty
    have labelled' := subsetLabel?_liveStates_singleton live
    rw [← targets] at labelled'
    rw [follow_of_label labelled, follow_of_label labelled', targets]
    have moved : Within full ((e.report (.moving current.label x
        (subsetState (target a current.members x)))).addMove current.label x
        (subsetState (target a current.members x))) := ⟨within.discovered, within.pending⟩
    exact enqueue_alone wellFormed tracks moved found

theorem within_follow (within : Within full e) (member : current ∈ full.discovered)
    (letter : x ∈ a.alphabet) : Within full (follow a current e x) := by
  have found := target_mem_discovered tracks member letter
  have discoverable := tracks.discoverable wellFormed member
  cases known : e.knows (target a current.members x) with
  | true =>
    obtain ⟨events, same⟩ := follow_known wellFormed discoverable known
    rw [same]
    exact ⟨within.discovered, within.pending⟩
  | false =>
    by_cases empty : target a current.members x = .empty
    · obtain ⟨events, same⟩ := follow_sink (empty ▸ known) empty
      rw [empty] at found
      rw [same]
      exact ⟨List.forall_mem_append.mpr ⟨within.discovered, List.forall_mem_singleton.mpr found⟩,
        within.pending⟩
    · obtain ⟨events, same⟩ := follow_new wellFormed discoverable known empty
      rw [same]
      exact ⟨List.forall_mem_append.mpr ⟨within.discovered, List.forall_mem_singleton.mpr found⟩,
        List.forall_mem_cons.mpr ⟨found, within.pending⟩⟩

theorem foldl_follow_alone (letters : List String) (within : Within full e)
    (member : current ∈ full.discovered) (allowed : ∀ x ∈ letters, x ∈ a.alphabet) :
    letters.foldl (follow (full.toAutomaton a) current.alone) e.alone =
        (letters.foldl (follow a current) e).alone ∧
      Within full (letters.foldl (follow a current) e) := by
  induction letters generalizing e with
  | nil => exact ⟨rfl, within⟩
  | cons x letters ih =>
    obtain ⟨letter, allowed⟩ := List.forall_mem_cons.mp allowed
    rw [List.foldl_cons, List.foldl_cons, follow_alone wellFormed tracks within member letter]
    exact ih (within_follow wellFormed tracks within member letter) allowed

theorem step_alone (within : Within full e) :
    step (full.toAutomaton a) e.alone = (step a e).alone ∧ Within full (step a e) := by
  cases waiting : e.pending with
  | nil =>
    have same : step a e = e := by
      rw [step]
      simp only [waiting]
    have same' : step (full.toAutomaton a) e.alone = e.alone := by
      rw [step]
      simp only [alone, waiting, List.map_nil]
    rw [same, same']
    exact ⟨rfl, within⟩
  | cons current pending =>
    have waiting' : e.alone.pending = current.alone :: pending.map Subset.alone :=
      congrArg (List.map Subset.alone) waiting
    obtain ⟨member, rest⟩ := List.forall_mem_cons.mp (waiting ▸ within.pending)
    have popped : Within full (({ e with pending := pending } : Exploration).report
        (.expanding current.label)) := ⟨within.discovered, rest⟩
    obtain ⟨same, followed⟩ :=
      foldl_follow_alone wellFormed tracks a.alphabet.toList popped member fun _ => id
    rw [step_eq_expand waiting, step_eq_expand waiting']
    exact ⟨congrArg (fun e => { e with steps := e.steps + 1 }) same, followed.discovered,
      followed.pending⟩

/-- The search of the automaton is the search that made it, set by set. -/
theorem run_alone (within : Within full e) (limit : Nat) :
    run (full.toAutomaton a) limit e.alone = (run a limit e).alone ∧
      Within full (run a limit e) := by
  induction limit generalizing e with
  | zero => exact ⟨rfl, within⟩
  | succ limit ih =>
    obtain ⟨same, next⟩ := step_alone wellFormed tracks within
    rw [run, run, same, show e.alone.pending.isEmpty = e.pending.isEmpty from List.isEmpty_map]
    split
    · exact ⟨rfl, within⟩
    · exact ih next

omit wellFormed in
theorem within_start : Within full (start a) := by
  obtain ⟨found, listed, led⟩ := knows_iff.mp tracks.start
  have label : found.label = a.initial := by
    rw [tracks.label found listed, led, subsetState_reached_nil]
  have initial : (⟨liveStates [a.initial], a.initial⟩ : Subset) ∈ full.discovered := by
    rw [← label]
    rw [show reached a [] = liveStates [a.initial] from rfl, ← label] at led
    rwa [← led]
  exact ⟨List.forall_mem_singleton.mpr initial, List.forall_mem_singleton.mpr initial⟩

theorem finals_alone (within : Within full e) :
    e.alone.finals (full.toAutomaton a) = e.finals a := by
  have labels : ∀ found ∈ e.discovered,
      found.alone.members.toList.any (full.toAutomaton a).isFinal =
        found.members.toList.any a.isFinal := fun found listed => by
    have member := within.discovered found listed
    have known : full.knows found.members = true := knows_iff.mpr ⟨found, member, rfl⟩
    have final := isFinal_toAutomaton wellFormed tracks known
    rw [← tracks.label found member] at final
    rw [Bool.eq_iff_iff]
    simp only [List.any_eq_true, SortedSet.mem_toList, Subset.alone, mem_liveStates_singleton,
      and_assoc, exists_eq_left, final, Automaton.isFinal_iff (a := a)]
    refine and_iff_right_of_imp fun accepted dead => ?_
    obtain ⟨t, inside, _⟩ := accepted
    rw [tracks.members_of_dead wellFormed member dead] at inside
    exact SortedSet.not_mem_empty inside
  rw [finals, finals, alone, List.filter_map, List.map_map]
  exact congrArg (fun kept : List Subset => UniqueList.ofList (kept.map Subset.label))
    (List.filter_congr labels)

theorem toAutomaton_alone (within : Within full e) :
    e.alone.toAutomaton (full.toAutomaton a) = e.toAutomaton a := by
  have labels : e.alone.discovered.map Subset.label = e.discovered.map Subset.label := by
    rw [alone, List.map_map]
    rfl
  rw [toAutomaton, finals_alone wellFormed tracks within, labels]
  rfl

end Repetition

end Exploration

namespace Automaton

variable {a : Automaton} {p : Parts} {kind : Kind} {full : Exploration} {done : List Subset}

theorem explore_toAutomaton (wellFormed : a.WellFormed)
    (tracks : Exploration.Tracks a full done [] []) (budget : Option Nat) :
    (full.toAutomaton a).explore budget = (a.explore budget).alone := by
  have again : ∀ limit, Exploration.run (full.toAutomaton a) limit (.start (full.toAutomaton a)) =
      (Exploration.run a limit (.start a)).alone := fun limit =>
    (Exploration.run_alone wellFormed tracks (Exploration.within_start tracks) limit).1
  cases budget with
  | some budget => exact again budget
  | none =>
    -- the two searches have different bounds on their expansions, but both come to their end
    have enough : (full.toAutomaton a).explore none =
        Exploration.run (full.toAutomaton a) a.subsetCount (.start (full.toAutomaton a)) := by
      apply Exploration.run_eq_of_finished
      · exact pending_explore (tracks.wellFormed_toAutomaton wellFormed)
      · rw [again]
        exact congrArg (List.map Subset.alone) (pending_explore wellFormed)
    exact enough.trans (again a.subsetCount)

theorem determinize_dfa (wellFormed : a.WellFormed) (budget : Option Nat) :
    (a.determinize none).dfa.determinize budget = a.determinize budget := by
  have plain := wellFormed_eliminateEpsilon wellFormed
  obtain ⟨done, tracks⟩ := tracks_explore plain none
  rw [pending_explore plain] at tracks
  have deterministic : (a.determinize none).dfa.isDeterministic = true :=
    isDeterministic_determinize wellFormed
  have direct := eliminateEpsilon_eq_self (hasEpsilon_eq_false deterministic)
  have again := explore_toAutomaton plain tracks budget
  have within := (Exploration.run_alone plain tracks (Exploration.within_start tracks)
    (budget.getD a.eliminateEpsilon.subsetCount)).2
  have dfa := Exploration.toAutomaton_alone plain tracks within
  rw [determinize, direct]
  dsimp only [determinize]
  rw [again]
  exact congrArg₂ (fun dfa interrupted => (⟨dfa, _, interrupted⟩ : Construction)) dfa
    (congrArg (!·) List.isEmpty_map)

/-- Determinizing the automaton of a construction repeats the construction: it comes to the same
automaton, with its lists in the same order, after as many expansions, and is not interrupted. That is so
with a budget as well. -/
theorem determinize_determinize (built : p.toAutomaton kind = .ok a) :
    let d := (a.determinize none).dfa
    d.determinize none = a.determinize none ∧ (d.determinize none).interrupted = false ∧
      ∀ budget, d.determinize (some budget) = a.determinize (some budget) := by
  intro d
  have wellFormed := Parts.wellFormed_of_toAutomaton built
  have again : d.determinize none = a.determinize none := determinize_dfa wellFormed none
  refine ⟨again, ?_, fun budget => determinize_dfa wellFormed (some budget)⟩
  rw [again]
  exact interrupted_determinize_none wellFormed

/-- The sink is the empty set in the first search, and the state `DEAD` in the second. -/
theorem determinize_determinize_asThenBs :
    let a := asThenBs.collapse
    let d := (a.determinize none).dfa
    d.determinize none = a.determinize none ∧ (d.determinize none).steps = 3 ∧
      State.dead ∈ d.states ∧ d.determinize (some 2) = a.determinize (some 2) := by
  intro a d
  have steps : (a.determinize none).steps = 3 := by decide
  have dead : State.dead ∈ d.states := UniqueList.contains_iff.mp (by decide)
  obtain ⟨again, _, budgets⟩ := determinize_determinize toAutomaton_asThenBs
  exact ⟨again, by rw [again, steps], dead, budgets 2⟩

end Automaton

end Determinize
