import Mathlib.Tactic.Common
import YHsys.Lib.ExceptBind

/-!
# Loops that end

A loop without a counter, `for(;;)` or `while`, given by its round: from a state the round
leaves the loop with a result, goes on from another state, or fails. `Ends round s x` says that
the loop started in `s` ends, after finitely many rounds, and in what. `Ends.of_round` peels
one round off, so that a loop is compared with a function that recurses on a bound for the
number of rounds.
-/

namespace Loop

universe u v

variable {ε : Type u} {σ ρ : Type v} {round : σ → Except ε (ρ ⊕ σ)}

/-- The loop ends: its result, or the error of its last round. -/
inductive Ends (round : σ → Except ε (ρ ⊕ σ)) : σ → Except ε ρ → Prop where
  | leave {s : σ} {r : ρ} : round s = .ok (.inl r) → Ends round s (.ok r)
  | fail {s : σ} {e : ε} : round s = .error e → Ends round s (.error e)
  | next {s s' : σ} {x : Except ε ρ} : round s = .ok (.inr s') → Ends round s' x → Ends round s x

theorem Ends.of_round {s : σ} {rest : σ → Except ε ρ}
    (h : ∀ s', round s = .ok (.inr s') → Ends round s' (rest s')) :
    Ends round s (round s >>= Sum.elim .ok rest) := by
  cases hr : round s with
  | error e => exact .fail hr
  | ok y =>
    cases y with
    | inl r => exact .leave hr
    | inr s' => exact .next hr (h s' hr)

end Loop
