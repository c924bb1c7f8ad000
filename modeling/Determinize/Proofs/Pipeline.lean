import Determinize.Proofs.Determinization
import Determinize.Proofs.RepresentedRefinement

/-!
Chains of stages. Every stage leaves a well-formed automaton (`wellFormed_apply`), which is what every
stage needs, so the stages can be chained in any order. A chain of stages that run to their end keeps
the accepted words.
-/

namespace Determinize

open Relation (ReflTransGen)

/-- A transformation of automata. -/
inductive Stage
  | eliminate
  | determinize (budget : Option Nat)
  | minimize (mode : MergeMode)
deriving DecidableEq

/-- Words of letters `a`, at least one, and letters `b` after them. -/
def asThenBs : Parts where
  initial := .simple "start"
  finals := [.simple "b"]
  states := [.simple "start", .simple "a", .simple "b"]
  alphabet := ["a", "b"]
  transitions := [⟨.simple "start", .epsilon, .singleton (.simple "a")⟩,
    ⟨.simple "a", .letter "a", .ofList [.simple "a", .simple "b"]⟩,
    ⟨.simple "b", .letter "b", .singleton (.simple "b")⟩]

theorem toAutomaton_asThenBs : asThenBs.toAutomaton .general = .ok asThenBs.collapse := by decide

namespace Stage

variable {a : Automaton} {p : Parts} {kind : Kind} {stages : List Stage} {w : List String}

def apply : Stage → Automaton → Automaton
  | eliminate, a => a.eliminateEpsilon
  | determinize budget, a => (a.determinize budget).dfa
  | minimize mode, a => a.minimize mode

/-- The automaton at the end of a chain of stages. -/
def chain (stages : List Stage) (a : Automaton) : Automaton :=
  stages.foldl (fun a stage => stage.apply a) a

/-- The stage runs to its end on an automaton that is of the kind it is made for. -/
def Suits (a : Automaton) : Stage → Prop
  | eliminate => True
  | determinize budget => budget = none
  | minimize _ => a.isDeterministic = true

instance (a : Automaton) (stage : Stage) : Decidable (stage.Suits a) :=
  match stage with
  | eliminate => inferInstanceAs (Decidable True)
  | determinize budget => inferInstanceAs (Decidable (budget = none))
  | minimize _ => inferInstanceAs (Decidable (a.isDeterministic = true))

/-- Every stage of the chain suits what the stages before it come to. -/
def AllSuit : List Stage → Automaton → Prop
  | [], _ => True
  | stage :: stages, a => stage.Suits a ∧ AllSuit stages (stage.apply a)

instance decidableAllSuit : (stages : List Stage) → (a : Automaton) → Decidable (AllSuit stages a)
  | [], _ => .isTrue trivial
  | stage :: stages, a =>
    have := decidableAllSuit stages (stage.apply a)
    inferInstanceAs (Decidable (stage.Suits a ∧ AllSuit stages (stage.apply a)))

theorem wellFormed_apply (wellFormed : a.WellFormed) (stage : Stage) :
    (stage.apply a).WellFormed := by
  cases stage with
  | eliminate => exact Automaton.wellFormed_eliminateEpsilon wellFormed
  | determinize budget => exact Automaton.wellFormed_determinize wellFormed
  | minimize mode => exact Automaton.wellFormed_minimize wellFormed mode

theorem wellFormed_chain (wellFormed : a.WellFormed) (stages : List Stage) :
    (chain stages a).WellFormed := by
  induction stages generalizing a with
  | nil => exact wellFormed
  | cons stage stages ih => exact ih (wellFormed_apply wellFormed stage)

theorem declared_chain (built : p.toAutomaton kind = .ok a) (stages : List Stage) :
    (chain stages a).Declared :=
  (wellFormed_chain (Parts.wellFormed_of_toAutomaton built) stages).toDeclared

/-- Whatever a chain of stages comes to would pass the checks again and be built the same. -/
theorem validated_chain (built : p.toAutomaton kind = .ok a) (stages : List Stage) :
    (chain stages a).parts.toAutomaton (chain stages a).kind = .ok (chain stages a) ∧
      (chain stages a).Declared ∧
      (∀ budget, ((chain stages a).determinize budget).dfa.isDeterministic = true) ∧
      (∀ mode, ((chain stages a).minimize mode).isDeterministic = true) ∧
      ((chain stages a).isDeterministic = false → (chain stages a).Unshared) ∧
      ∀ s, ReflTransGen (chain stages a).Leads .dead s → s ∉ (chain stages a).finals := by
  have wellFormed := wellFormed_chain (Parts.wellFormed_of_toAutomaton built) stages
  refine ⟨Automaton.rebuild_eq_ok wellFormed, wellFormed.toDeclared, fun budget => ?_, fun mode => ?_,
    wellFormed.unshared, fun s path => wellFormed.dead_rejects path⟩
  · exact Automaton.isDeterministic_determinize wellFormed
  · exact Automaton.isDeterministic_minimize wellFormed.toDeclared mode

/-- A construction that is interrupted, and merging on an automaton that is not deterministic. -/
theorem validated_chain_asThenBs :
    let a := chain [.determinize (some 1), .eliminate] asThenBs.collapse
    let b := chain [.eliminate, .minimize .singlePass] asThenBs.collapse
    a.parts.toAutomaton .deterministic = .ok a ∧ b.parts.toAutomaton .deterministic = .ok b := by
  have interrupted := validated_chain toAutomaton_asThenBs [.determinize (some 1), .eliminate]
  have general := validated_chain toAutomaton_asThenBs [.eliminate, .minimize .singlePass]
  have kinds : (chain [.determinize (some 1), .eliminate] asThenBs.collapse).kind = .deterministic ∧
      (chain [.eliminate, .minimize .singlePass] asThenBs.collapse).kind = .deterministic := by
    decide +kernel
  exact ⟨kinds.1 ▸ interrupted.1, kinds.2 ▸ general.1⟩

/-! ### Accepted words -/

theorem accepts_apply (wellFormed : a.WellFormed) {stage : Stage} (suits : stage.Suits a) :
    (stage.apply a).accepts w = a.accepts w := by
  cases stage with
  | eliminate => exact Automaton.accepts_eliminateEpsilon wellFormed.toDeclared
  | determinize budget =>
    cases suits
    exact Automaton.accepts_determinize wellFormed
  | minimize mode => exact Automaton.accepts_minimize wellFormed.toDeclared suits mode

theorem accepts_of_allSuit (wellFormed : a.WellFormed) (suit : AllSuit stages a) :
    (chain stages a).accepts w = a.accepts w := by
  induction stages generalizing a with
  | nil => rfl
  | cons stage stages ih =>
    obtain ⟨here, rest⟩ := suit
    exact (ih (wellFormed_apply wellFormed stage) rest).trans (accepts_apply wellFormed here)

/-- A chain of stages that run to their end keeps the accepted words. -/
theorem accepts_chain (built : p.toAutomaton kind = .ok a) (suit : AllSuit stages a)
    (w : List String) : (chain stages a).accepts w = a.accepts w :=
  accepts_of_allSuit (Parts.wellFormed_of_toAutomaton built) suit

theorem accepts_chain_asThenBs :
    (chain [.eliminate, .determinize none, .minimize .fixpoint, .determinize none, .minimize .refine]
      asThenBs.collapse).accepts ["a", "b"] = true := by
  have suit : AllSuit [.eliminate, .determinize none, .minimize .fixpoint, .determinize none,
      .minimize .refine] asThenBs.collapse := by decide +kernel
  have kept := accepts_chain toAutomaton_asThenBs suit ["a", "b"]
  have accepted : asThenBs.collapse.accepts ["a", "b"] = true := by decide
  exact kept.trans accepted

end Stage

end Determinize
