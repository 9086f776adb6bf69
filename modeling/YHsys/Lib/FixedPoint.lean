import Mathlib.Data.Nat.Notation
import Mathlib.Tactic.Common
import YHsys.Lib.ExceptBind
import YHsys.Lib.Loops

/-!
# Repeating a step until nothing changes

`settle f n x` applies `f`, which may fail, until the value stays the same, at most `n`
times. If each change makes a measure smaller, as many rounds as the measure of the start
are enough: the loop that repeats `f` ends there by itself, in a fixed point.
-/

namespace FixedPoint

variable {α ε : Type} [DecidableEq α]

/-- Apply `f` until nothing changes. -/
def settle (f : α → Except ε α) : ℕ → α → Except ε α
  | 0, x => .ok x
  | n + 1, x => do
    let y ← f x
    if y = x then .ok y else settle f n y

/-- Each change makes `μ` smaller. -/
def Shrinks (f : α → Except ε α) (μ : α → ℕ) : Prop :=
  ∀ {x y}, f x = .ok y → y = x ∨ μ y < μ x

variable {f : α → Except ε α} {μ : α → ℕ}

theorem settle_ok {P : α → Prop} (hstep : ∀ {x}, P x → ∃ y, f x = .ok y ∧ P y) (n : ℕ) {x : α}
    (hx : P x) : ∃ y, settle f n x = .ok y ∧ P y := by
  induction n generalizing x with
  | zero => exact ⟨x, rfl, hx⟩
  | succ n ih =>
    obtain ⟨z, hz, hP⟩ := hstep hx
    simp only [settle, hz, Except.ok_bind]
    split
    · exact ⟨z, rfl, hP⟩
    · exact ih hP

theorem settle_fixed (hf : Shrinks f μ) {n : ℕ} {x y : α} (hn : μ x < n)
    (h : settle f n x = .ok y) : f y = .ok y := by
  induction n generalizing x with
  | zero => exact absurd hn (Nat.not_lt_zero _)
  | succ n ih =>
    obtain ⟨z, hz, h⟩ := Except.bind_eq_ok.mp h
    split at h
    · rename_i heq
      cases h
      rwa [heq] at hz ⊢
    · rename_i hne
      rcases hf hz with heq | hlt
      · exact absurd heq hne
      · exact ih (by omega) h

/-- One round of the loop without a counter. -/
def settleRound (f : α → Except ε α) (x : α) : Except ε (α ⊕ α) := do
  let y ← f x
  .ok (if y = x then .inl y else .inr y)

theorem settle_ends (hf : Shrinks f μ) {n : ℕ} {x : α} (hn : μ x < n) :
    Loop.Ends (settleRound f) x (settle f n x) := by
  induction n generalizing x with
  | zero => exact absurd hn (Nat.not_lt_zero _)
  | succ n ih =>
    cases hx : f x with
    | error e =>
      simp only [settle, hx, Except.error_bind]
      exact .fail (by simp only [settleRound, hx, Except.error_bind])
    | ok y =>
      simp only [settle, hx, Except.ok_bind]
      by_cases heq : y = x
      · rw [if_pos heq]
        exact .leave (by simp only [settleRound, hx, Except.ok_bind, if_pos heq])
      · rw [if_neg heq]
        have hlt := (hf hx).resolve_left heq
        exact .next (by simp only [settleRound, hx, Except.ok_bind, if_neg heq]) (ih (by omega))

theorem settle_sat {E : ε → Prop} {R : α → α → Prop} (hrefl : ∀ x, R x x)
    (htrans : ∀ {x y z}, R x y → R y z → R x z) (hstep : ∀ x, (f x).Sat E (R x)) (n : ℕ) (x : α) :
    (settle f n x).Sat E (R x) := by
  induction n generalizing x with
  | zero => exact .ok (hrefl x)
  | succ n ih =>
    refine (hstep x).bind fun y hy => ?_
    split
    · exact .ok hy
    · exact (ih y).post fun z hz => htrans hy hz

end FixedPoint
