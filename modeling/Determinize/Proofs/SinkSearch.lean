import Determinize.Automaton.Validity
import Determinize.Proofs.Closure
import Mathlib.Tactic.Tauto

/-!
The search that decides whether the sink accepts anything. From a state it has not been to it pushes
all destinations, those it has been to as well, so a state may wait more than once. A step therefore
either takes a state off the stack, or trades the destinations of a state that is new for as many
places on the stack: `work` counts both, and the search ends within as many steps (`exists_meetsFinal?`).
-/

namespace Determinize

open Relation (ReflTransGen)

namespace Parts

variable {p : Parts} {s t : State} {visited stack : List State} {limit : Nat}

theorem mem_targets : t ∈ p.targets s ↔ p.graph.Edge s t := by
  simp [targets, graph, Graph.edge_ofTransitions, SortedSet.mem_toList, and_assoc]

/-- What a search from some states has done when it has been to some and still has to look at others:
both are reached from the first ones, none of the former is final, and edges that leave these end in
either. -/
structure Seeks (p : Parts) (starts visited stack : List State) : Prop where
  started : ∀ s ∈ starts, s ∈ visited ∨ s ∈ stack
  reached : ∀ s, s ∈ visited ∨ s ∈ stack → ∃ r ∈ starts, ReflTransGen p.graph.Edge r s
  closed : ∀ s ∈ visited, ∀ t, p.graph.Edge s t → t ∈ visited ∨ t ∈ stack
  rejects : ∀ s ∈ visited, s ∉ p.finals

/-- The destinations that have not been pushed yet. -/
def unpushed (p : Parts) (visited : List State) : List State :=
  (p.transitions.filter fun t => decide (t.source ∉ visited)).flatMap fun t => t.destinations.toList

def work (p : Parts) (visited stack : List State) : Nat := stack.length + (p.unpushed visited).length

theorem length_unpushed_cons (new : s ∉ visited) :
    (p.targets s).length + (p.unpushed (s :: visited)).length = (p.unpushed visited).length := by
  unfold targets unpushed
  induction p.transitions with
  | nil => rfl
  | cons t rest ih =>
    by_cases here : t.source = s
    · simp [here, new] at ih ⊢
      omega
    · by_cases old : t.source ∈ visited
      · simpa [here, old] using ih
      · simp [here, old] at ih ⊢
        omega

variable {starts : List State}

theorem seeks_start : p.Seeks starts [] starts :=
  ⟨fun _ member => .inr member, fun s found => ⟨s, found.resolve_left List.not_mem_nil, .refl⟩,
    fun _ member => absurd member List.not_mem_nil, fun _ member => absurd member List.not_mem_nil⟩

theorem Seeks.skip (seeks : p.Seeks starts visited (s :: stack)) (seen : s ∈ visited) :
    p.Seeks starts visited stack := by
  have left : ∀ t, t ∈ visited ∨ t ∈ s :: stack → t ∈ visited ∨ t ∈ stack := by
    rintro t (old | waiting)
    · exact .inl old
    · rcases List.mem_cons.mp waiting with rfl | later
      · exact .inl seen
      · exact .inr later
  exact ⟨fun t member => left t (seeks.started t member),
    fun t found => seeks.reached t (found.imp_right (List.mem_cons_of_mem s)),
    fun t member u edge => left u (seeks.closed t member u edge), seeks.rejects⟩

theorem Seeks.visit (seeks : p.Seeks starts visited (s :: stack)) (rejects : s ∉ p.finals) :
    p.Seeks starts (s :: visited) ((p.targets s).reverse ++ stack) := by
  have kept : ∀ t, t ∈ visited ∨ t ∈ s :: stack →
      t ∈ s :: visited ∨ t ∈ (p.targets s).reverse ++ stack := by
    simp only [List.mem_cons, List.mem_append]
    tauto
  refine ⟨fun t member => kept t (seeks.started t member), fun t found => ?_,
    fun t member u edge => ?_, List.forall_mem_cons.mpr ⟨rejects, seeks.rejects⟩⟩
  · by_cases target : t ∈ p.targets s
    · obtain ⟨r, start, path⟩ := seeks.reached s (.inr List.mem_cons_self)
      exact ⟨r, start, path.tail (mem_targets.mp target)⟩
    · refine seeks.reached t ?_
      simp only [List.mem_cons, List.mem_append, List.mem_reverse] at found ⊢
      tauto
  · rcases List.mem_cons.mp member with rfl | old
    · exact .inr (List.mem_append_left _ (List.mem_reverse.mpr (mem_targets.mpr edge)))
    · exact kept u (seeks.closed t old u edge)

/-- With nothing left to look at, the search has been to all that is reached. -/
theorem Seeks.not_mem_finals (seeks : p.Seeks starts visited []) (start : s ∈ starts)
    (path : ReflTransGen p.graph.Edge s t) : t ∉ p.finals := by
  have all : ∀ u, u ∈ visited ∨ u ∈ [] → u ∈ visited := fun u found =>
    found.resolve_right List.not_mem_nil
  suffices member : t ∈ visited from seeks.rejects t member
  induction path with
  | refl => exact all s (seeks.started s start)
  | tail _ edge ih => exact all _ (seeks.closed _ ih _ edge)

/-- A search that is given as many steps as there is work ends, and finds a final state exactly if one
is reached. -/
theorem exists_meetsFinal? (seeks : p.Seeks starts visited stack) (enough : p.work visited stack ≤ limit) :
    ∃ met, p.meetsFinal? limit visited stack = some met ∧
      (met = true ↔ ∃ s ∈ starts, ∃ t ∈ p.finals, ReflTransGen p.graph.Edge s t) := by
  have rejected : ∀ {visited}, p.Seeks starts visited [] →
      (false = true ↔ ∃ s ∈ starts, ∃ t ∈ p.finals, ReflTransGen p.graph.Edge s t) := fun seeks =>
    ⟨nofun, fun ⟨_, start, _, final, path⟩ => absurd final (seeks.not_mem_finals start path)⟩
  induction limit generalizing visited stack with
  | zero =>
    obtain rfl : stack = [] := by
      rw [← List.length_eq_zero_iff]
      unfold work at enough
      omega
    exact ⟨false, rfl, rejected seeks⟩
  | succ limit ih =>
    cases stack with
    | nil => exact ⟨false, rfl, rejected seeks⟩
    | cons s stack =>
      rw [work, List.length_cons] at enough
      rw [meetsFinal?]
      split
      · rename_i seen
        exact ih (seeks.skip seen) (by unfold work; omega)
      · rename_i new
        split
        · rename_i final
          obtain ⟨r, start, path⟩ := seeks.reached s (.inr List.mem_cons_self)
          exact ⟨true, rfl, fun _ => ⟨r, start, s, final, path⟩, fun _ => rfl⟩
        · rename_i rejects
          have same := length_unpushed_cons (p := p) new
          refine ih (seeks.visit rejects) ?_
          simp only [work, List.length_append, List.length_reverse]
          omega

/-- The search from the sink ends, and finds a final state exactly if the sink is declared and leads
to one. -/
theorem exists_deadAccepts? (p : Parts) : ∃ accepts, p.deadAccepts? = some accepts ∧
    (accepts = true ↔
      .dead ∈ p.states ∧ ∃ s ∈ p.finals, ReflTransGen p.graph.Edge .dead s) := by
  have all : p.unpushed [] = p.transitions.flatMap fun t => t.destinations.toList := by
    rw [unpushed, List.filter_eq_self.mpr fun _ _ => decide_eq_true List.not_mem_nil]
  unfold deadAccepts?
  split
  · rename_i declared
    obtain ⟨accepts, ended, exact⟩ := exists_meetsFinal? (seeks_start : p.Seeks [.dead] [] [.dead])
      (Nat.le_of_eq (by rw [work, all, List.length_singleton, Nat.add_comm]))
    exact ⟨accepts, ended, by simpa [declared] using exact⟩
  · rename_i undeclared
    exact ⟨false, rfl, nofun, fun both => absurd both.1 undeclared⟩

theorem deadAccepts_iff : p.deadAccepts = true ↔
    .dead ∈ p.states ∧ ∃ s ∈ p.finals, ReflTransGen p.graph.Edge .dead s := by
  obtain ⟨accepts, ended, exact⟩ := exists_deadAccepts? p
  rw [deadAccepts, ended]
  exact exact

/-- The sink may lead back to itself. -/
example : (Parts.mk (.simple "p") [.simple "p"] [.simple "p", .dead, .simple "q"] ["x"]
      [⟨.dead, .letter "x", .singleton (.simple "q")⟩, ⟨.simple "q", .letter "x", .singleton .dead⟩,
        ⟨.simple "p", .letter "x", .singleton .dead⟩]).deadAccepts? = some false := by decide

/-- The search stops at the first final state, but tells no more and no less than the set of all that
is reached. -/
theorem deadAccepts_eq_any_reach : p.deadAccepts =
    (decide (.dead ∈ p.states) && (p.graph.reach .dead).toList.any fun s => decide (s ∈ p.finals)) := by
  rw [Bool.eq_iff_iff, deadAccepts_iff]
  simp only [Bool.and_eq_true, decide_eq_true_eq, List.any_eq_true, SortedSet.mem_toList, Graph.mem_reach]
  tauto

end Parts

end Determinize
