import Mathlib.Logic.Function.Basic

/-!
# Functional refinement along runs

A concrete machine is a step relation labelled with operations, an abstract one a
partial function. `abs` takes concrete states to abstract ones. If under a
condition `C` every concrete step is a step of the abstract machine, and without it
the abstract machine is stuck, then the abstract machine follows a concrete run to
its end exactly when every step of the run meets the condition: `follows_iff`.
-/

namespace Simulation

universe u v w

variable {S : Type u} {O : Type v} {A : Type w}

/-- The operations of a run, each with the state it leads to. -/
def Trace (step : S → O → S → Prop) : S → List (O × S) → Prop
  | _, [] => True
  | s, (o, s') :: t => step s o s' ∧ Trace step s' t

/-- The state a run ends in. -/
def final : S → List (O × S) → S
  | s, [] => s
  | _, (_, s') :: t => final s' t

/-- Every operation of a run is done in a state that meets `C`. -/
def Along (C : S → O → Prop) : S → List (O × S) → Prop
  | _, [] => True
  | s, (o, s') :: t => C s o ∧ Along C s' t

/-- The abstract machine does the operations of a list. -/
def follow (astep : A → O → Option A) : A → List O → Option A
  | a, [] => some a
  | a, o :: os => (astep a o).bind fun a' => follow astep a' os

variable {step : S → O → S → Prop} {astep : A → O → Option A} {I : S → Prop} {C : S → O → Prop}
  {abs : S → A}

theorem follows_iff (hI : ∀ s o s', I s → step s o s' → I s')
    (hsim : ∀ s o s', I s → step s o s' → C s o → astep (abs s) o = some (abs s'))
    (hstuck : ∀ s o s', I s → step s o s' → ¬ C s o → astep (abs s) o = none)
    {s : S} {t : List (O × S)} (hs : I s) (ht : Trace step s t) :
    follow astep (abs s) (t.map Prod.fst) = some (abs (final s t)) ↔ Along C s t := by
  induction t generalizing s with
  | nil => exact ⟨fun _ => trivial, fun _ => rfl⟩
  | cons x t ih =>
    obtain ⟨o, s'⟩ := x
    obtain ⟨hstep, ht⟩ := ht
    have ih := ih (hI s o s' hs hstep) ht
    rw [List.map_cons, follow]
    by_cases hC : C s o
    · rw [hsim s o s' hs hstep hC, Option.bind_some]
      exact ih.trans ⟨fun h => ⟨hC, h⟩, fun h => h.2⟩
    · rw [hstuck s o s' hs hstep hC, Option.bind_none]
      exact ⟨fun h => (nomatch h), fun h => absurd h.1 hC⟩

end Simulation
