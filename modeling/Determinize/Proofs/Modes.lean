import Determinize.Proofs.Reduced
import Determinize.Proofs.Refinement
import Determinize.Proofs.Sweep

/-!
What the modes of merging come to. Sweeps and the merging of classes both come to a reachable table
(`reachable_reduce`), so the language is kept whichever mode is taken. After the merging of classes no
two states that are left have walks that end alike, unless they are the initial state and the sink.
-/

namespace Determinize

namespace Reduction

variable {a : Automaton} {m : Reduction} {s t k : State} {members : List State}

/-! ### Sweeps -/

theorem Reachable.sweep (declared : a.Declared) (reachable : Reachable a m) :
    Reachable a (m.sweep a) :=
  reachable.of_steps declared steps_sweep

theorem Reachable.sweeps (declared : a.Declared) (reachable : Reachable a m) (limit : Nat) :
    Reachable a (sweeps a limit m) :=
  reachable.of_steps declared steps_sweeps

/-! ### Classes -/

theorem Reachable.foldl_remove {rs : List State} (reachable : Reachable a m)
    (keeps : m.isLive k = true) (nodup : rs.Nodup) (live : ∀ r ∈ rs, m.isLive r = true)
    (allowed : ∀ r ∈ rs, r ≠ k ∧ r ≠ a.initial ∧ r ≠ .dead ∧
      a.chart.outcome? r = a.chart.outcome? k) :
    Reachable a (rs.foldl (fun m r => m.remove r k) m) ∧
      ∀ s, (rs.foldl (fun m r => m.remove r k) m).isLive s = true ↔ m.isLive s = true ∧ s ∉ rs := by
  induction rs generalizing m with
  | nil => exact ⟨reachable, fun s => by simp⟩
  | cons r rs ih =>
    obtain ⟨fresh, nodup⟩ := List.nodup_cons.mp nodup
    obtain ⟨⟨different, notInitial, notDead, same⟩, allowed⟩ := List.forall_mem_cons.mp allowed
    obtain ⟨removable, live⟩ := List.forall_mem_cons.mp live
    have step := reachable.remove removable keeps different notInitial notDead same
    obtain ⟨last, kept⟩ := ih step (isLive_remove_iff.mpr ⟨keeps, different.symm⟩) nodup
      (fun t member => isLive_remove_iff.mpr
        ⟨live t member, fun equal => fresh (equal ▸ member)⟩) allowed
    refine ⟨last, fun s => (kept s).trans ?_⟩
    rw [isLive_remove_iff, List.mem_cons, not_or, and_assoc]

/-- The members of a class that are merged into its keeper. -/
def dropped (initial : State) (members : List State) : List State :=
  members.filter fun s => decide (keeper? initial members ≠ some s) && !s.isDead

theorem mem_dropped {initial : State} :
    s ∈ dropped initial members ↔
      s ∈ members ∧ keeper? initial members ≠ some s ∧ s ≠ .dead := by
  rw [dropped, List.mem_filter, Bool.and_eq_true, decide_eq_true_iff, Bool.not_eq_true',
    State.isDead_eq_false_iff]

theorem keeper?_spec {initial : State} (found : keeper? initial members = some k) :
    k ∈ members ∧ (initial ∈ members → k = initial) ∧
      (.dead ∈ members → k = initial ∨ k = .dead) := by
  unfold keeper? at found
  split at found
  · rename_i present
    cases found
    exact ⟨present, fun _ => rfl, fun _ => .inl rfl⟩
  · rename_i absent
    split at found
    · rename_i present
      cases found
      exact ⟨present, fun initial => absurd initial absent, fun _ => .inr rfl⟩
    · rename_i deadAbsent
      exact ⟨List.mem_of_mem_head? found, fun initial => absurd initial absent,
        fun dead => absurd dead deadAbsent⟩

theorem mergeClass_eq {initial : State} :
    mergeClass initial m members = match keeper? initial members with
      | none => m
      | some kept => (dropped initial members).foldl (fun m s => m.remove s kept) m := by
  unfold mergeClass
  cases found : keeper? initial members with
  | none => rfl
  | some kept => simp [dropped, found, eq_comm]

theorem Reachable.mergeClass (reachable : Reachable a m) (nodup : members.Nodup)
    (live : ∀ s ∈ members, m.isLive s = true)
    (alike : ∀ s ∈ members, ∀ t ∈ members, a.chart.outcome? s = a.chart.outcome? t) :
    Reachable a (mergeClass a.initial m members) ∧
      ∀ s, (Reduction.mergeClass a.initial m members).isLive s = true ↔
        m.isLive s = true ∧ s ∉ dropped a.initial members := by
  rw [mergeClass_eq]
  split
  · rename_i absent
    have empty : members = [] := by
      unfold keeper? at absent
      split at absent
      · cases absent
      · split at absent
        · cases absent
        · exact List.head?_eq_none_iff.mp absent
    subst empty
    exact ⟨reachable, fun s => by simp [dropped]⟩
  · rename_i kept found
    obtain ⟨present, initial, _⟩ := keeper?_spec found
    refine reachable.foldl_remove (live kept present) (nodup.filter _)
      (fun r member => live r (mem_dropped.mp member).1) fun r member => ?_
    obtain ⟨inside, spared, notDead⟩ := mem_dropped.mp member
    have different : r ≠ kept := fun same => spared (same ▸ found)
    refine ⟨different, fun same => different ?_, notDead, alike r inside kept present⟩
    rw [initial (same ▸ inside), same]

theorem Reachable.foldl_mergeClass {classes : Partition} (reachable : Reachable a m)
    (disjoint : classes.Pairwise List.Disjoint) (nodup : ∀ members ∈ classes, members.Nodup)
    (live : ∀ members ∈ classes, ∀ s ∈ members, m.isLive s = true)
    (alike : ∀ members ∈ classes, ∀ s ∈ members, ∀ t ∈ members,
      a.chart.outcome? s = a.chart.outcome? t) :
    Reachable a (classes.foldl (Reduction.mergeClass a.initial) m) ∧
      ∀ s, (classes.foldl (Reduction.mergeClass a.initial) m).isLive s = true ↔
        m.isLive s = true ∧ ∀ members ∈ classes, s ∉ dropped a.initial members := by
  induction classes generalizing m with
  | nil => exact ⟨reachable, fun s => by simp⟩
  | cons members classes ih =>
    obtain ⟨apart, disjoint⟩ := List.pairwise_cons.mp disjoint
    obtain ⟨nodupHere, nodup⟩ := List.forall_mem_cons.mp nodup
    obtain ⟨liveHere, live⟩ := List.forall_mem_cons.mp live
    obtain ⟨alikeHere, alike⟩ := List.forall_mem_cons.mp alike
    obtain ⟨step, left⟩ := reachable.mergeClass nodupHere liveHere alikeHere
    -- the classes are disjoint, so the others are all there still
    have still : ∀ others ∈ classes, ∀ s ∈ others,
        (Reduction.mergeClass a.initial m members).isLive s = true := by
      intro others listed s member
      refine (left s).mpr ⟨live others listed s member, fun drop => ?_⟩
      exact apart others listed (mem_dropped.mp drop).1 member
    obtain ⟨last, kept⟩ := ih step disjoint nodup still alike
    refine ⟨last, fun s => (kept s).trans ?_⟩
    rw [left, List.forall_mem_cons, and_assoc]

theorem class_spec (declared : a.Declared) (listed : members ∈ (start a).classes) :
    members.Nodup ∧ ∃ s ∈ a.states, ∀ t, t ∈ members ↔
      t ∈ a.states ∧ a.chart.outcome? t = a.chart.outcome? s := by
  obtain ⟨κ, _, key, classes, separates⟩ := exists_classes declared
  rw [classes] at listed
  obtain ⟨s, member, rfl⟩ := mem_divide.mp listed
  refine ⟨a.states.nodup.filter _, s, member, fun t => ?_⟩
  rw [List.mem_filter, decide_eq_true_iff]
  exact and_congr_right fun present => separates t present s member

theorem pairwise_disjoint_classes (declared : a.Declared) :
    (start a).classes.Pairwise List.Disjoint := by
  obtain ⟨κ, _, key, classes, _⟩ := exists_classes declared
  exact classes ▸ pairwise_disjoint_divide

theorem exists_class (declared : a.Declared) (present : s ∈ a.states) :
    ∃ members ∈ (start a).classes, s ∈ members := by
  obtain ⟨κ, _, key, classes, _⟩ := exists_classes declared
  rw [classes]
  exact exists_mem_divide present

theorem mergeClasses_spec (declared : a.Declared) :
    Reachable a ((start a).mergeClasses a) ∧
      ∀ s, ((start a).mergeClasses a).isLive s = true ↔
        s ∈ a.states ∧ ∀ members ∈ (start a).classes, s ∉ dropped a.initial members := by
  have within : ∀ members ∈ (start a).classes, ∀ s ∈ members, (start a).isLive s = true := by
    intro members listed s member
    obtain ⟨_, _, _, mem_iff⟩ := class_spec declared listed
    exact isLive_start.mpr ((mem_iff s).mp member).1
  have alike : ∀ members ∈ (start a).classes, ∀ s ∈ members, ∀ t ∈ members,
      a.chart.outcome? s = a.chart.outcome? t := by
    intro members listed s first t second
    obtain ⟨_, _, _, mem_iff⟩ := class_spec declared listed
    exact ((mem_iff s).mp first).2.trans ((mem_iff t).mp second).2.symm
  obtain ⟨reachable, live⟩ := Reachable.start.foldl_mergeClass (pairwise_disjoint_classes declared)
    (fun members listed => (class_spec declared listed).1) within alike
  refine ⟨reachable, fun s => (live s).trans ?_⟩
  rw [isLive_start]

/-- Two states that are left are told apart by a word, unless they are the initial state and the sink,
which stay in any case. -/
def Refined (a : Automaton) (m : Reduction) : Prop :=
  ∀ s t, m.isLive s = true → m.isLive t = true → a.chart.outcome? s = a.chart.outcome? t →
    s = t ∨ s = a.initial ∧ t = .dead ∨ s = .dead ∧ t = a.initial

theorem refined_reduce (declared : a.Declared) : Refined a (reduce a .refine) := by
  intro s t first second same
  obtain ⟨present, kept⟩ := ((mergeClasses_spec declared).2 s).mp first
  obtain ⟨present', kept'⟩ := ((mergeClasses_spec declared).2 t).mp second
  obtain ⟨members, listed, member⟩ := exists_class declared present
  have member' : t ∈ members := by
    obtain ⟨_, _, _, mem_iff⟩ := class_spec declared listed
    exact (mem_iff t).mpr ⟨present', same.symm.trans ((mem_iff s).mp member).2⟩
  have stays : ∀ r ∈ members, r ∉ dropped a.initial members →
      keeper? a.initial members = some r ∨ r = .dead := by
    intro r inside notDropped
    refine or_iff_not_imp_left.mpr fun spared => Decidable.byContradiction fun notDead => ?_
    exact notDropped (mem_dropped.mpr ⟨inside, spared, notDead⟩)
  obtain keeper | rfl := stays s member (kept members listed)
  · obtain keeper' | rfl := stays t member' (kept' members listed)
    · exact .inl (Option.some.inj (keeper.symm.trans keeper'))
    · obtain initial | dead := (keeper?_spec keeper).2.2 member'
      · exact .inr (.inl ⟨initial, rfl⟩)
      · exact .inl dead
  · obtain keeper' | rfl := stays t member' (kept' members listed)
    · obtain initial | dead := (keeper?_spec keeper').2.2 member
      · exact .inr (.inr ⟨rfl, initial⟩)
      · exact .inl dead.symm
    · exact .inl rfl

theorem reachable_reduce (declared : a.Declared) (mode : MergeMode) :
    Reachable a (reduce a mode) := by
  cases mode with
  | singlePass => exact Reachable.start.sweep declared
  | fixpoint => exact Reachable.start.sweeps declared _
  | refine => exact (mergeClasses_spec declared).1

end Reduction

end Determinize
