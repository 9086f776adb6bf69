import Mathlib.Tactic.NormNum
import Mathlib.Tactic.Ring
import YHsys.Compiler.Ir

/-!
# Python's quotient of two integers

`int(a / b)` goes through a double: the quotient is rounded to 53 bits and then truncated.
It overflows from half a unit below `2 ^ 1024` on, and for operands of less than 52 bits it
is the integer quotient: the rounding cannot reach the next integer.
-/

namespace YHsys.Compiler

/-! ## Rounding -/

theorem roundHalfEven_lt_iff {a d N : ℕ} (hd : 0 < d) (hN : N % 2 = 0) :
    roundHalfEven a d < N ↔ 2 * a < d * (2 * N - 1) := by
  have hdiv : d * (a / d) + a % d = a := Nat.div_add_mod a d
  have hr : a % d < d := Nat.mod_lt a hd
  unfold roundHalfEven
  dsimp only
  generalize a / d = q at hdiv ⊢
  generalize a % d = r at hdiv hr ⊢
  -- at the last integer below `N` only a remainder below one half stays below
  rcases Nat.lt_trichotomy (q + 1) N with hlt | heq | hgt
  · have hmul : d * (2 * q + 3) ≤ d * (2 * N - 1) := Nat.mul_le_mul_left d (by omega)
    have hleft : (if 2 * r < d then q else if d < 2 * r then q + 1 else q + q % 2) < N := by
      split_ifs <;> omega
    refine iff_of_true hleft ?_
    rw [Nat.mul_add, Nat.mul_left_comm] at hmul
    omega
  · have hmul : d * (2 * N - 1) = 2 * (d * q) + d := by
      rw [show 2 * N - 1 = 2 * q + 1 by omega, Nat.mul_add, Nat.mul_left_comm, Nat.mul_one]
    rw [hmul]
    split_ifs <;> omega
  · have hmul : d * (2 * N - 1) ≤ d * (2 * q) := Nat.mul_le_mul_left d (by omega)
    have hleft : ¬(if 2 * r < d then q else if d < 2 * r then q + 1 else q + q % 2) < N := by
      split_ifs <;> omega
    refine iff_of_false hleft ?_
    rw [Nat.mul_left_comm] at hmul
    omega

theorem le_roundHalfEven (a d : ℕ) : a / d ≤ roundHalfEven a d := by
  unfold roundHalfEven
  dsimp only
  split_ifs <;> omega

/-! ## Overflow -/

/-! ## Small operands -/

theorem roundHalfEven_scaled {a b j : ℕ} (hb : 0 < b) (hj : 0 < j) (hbj : b < 2 ^ (j + 1)) :
    roundHalfEven (a * 2 ^ j) b / 2 ^ j = a / b := by
  have hdiv : b * (a / b) + a % b = a := Nat.div_add_mod a b
  have hr : a % b < b := Nat.mod_lt a hb
  apply Nat.div_eq_of_lt_le
  · calc a / b * 2 ^ j ≤ a * 2 ^ j / b := by
          rw [Nat.le_div_iff_mul_le hb, Nat.mul_right_comm]
          exact Nat.mul_le_mul_right _ (Nat.div_mul_le_self a b)
      _ ≤ roundHalfEven (a * 2 ^ j) b := le_roundHalfEven _ _
  · have heven : ((a / b + 1) * 2 ^ j) % 2 = 0 := by
      obtain ⟨i, rfl⟩ : ∃ i, j = i + 1 := ⟨j - 1, by omega⟩
      rw [pow_succ, ← Nat.mul_assoc, Nat.mul_mod_left]
    rw [roundHalfEven_lt_iff hb heven]
    generalize a / b = q at hdiv ⊢
    generalize a % b = r at hdiv hr
    -- the remainder is at least one short of `b`, and `b` is less than two scales
    have hstep : b * (q + 1) * 2 ^ j = (a + (b - r)) * 2 ^ j := by
      congr 1
      rw [Nat.mul_add, Nat.mul_one]
      omega
    have hscale : 2 ^ j ≤ (b - r) * 2 ^ j := Nat.le_mul_of_pos_left _ (by omega)
    have hsub : b * (2 * ((q + 1) * 2 ^ j) - 1) = 2 * (b * (q + 1) * 2 ^ j) - b := by
      rw [Nat.mul_sub, Nat.mul_one, Nat.mul_assoc b, Nat.mul_left_comm]
    rw [hsub, hstep, Nat.add_mul]
    rw [pow_succ] at hbj
    omega

theorem floatDiv_eq_div {a b : ℕ} (ha : a < 2 ^ 52) (hb : 0 < b) (hb' : b < 2 ^ 54) :
    floatDiv a b = some (a / b) := by
  have hlog : a / b ≠ 0 → (a / b).log2 < 52 := fun hq =>
    (Nat.log2_lt hq).mpr ((Nat.div_le_self a b).trans_lt ha)
  unfold floatDiv
  dsimp only
  generalize 1024 = E
  split_ifs with hq hhalf hk hv
  · rw [hq]
  · rw [roundHalfEven_scaled hb (by omega) hb']
  · refine congrArg some (roundHalfEven_scaled hb (by omega) ?_)
    have hle : b * 2 ^ (a / b).log2 ≤ a := by
      calc b * 2 ^ (a / b).log2 ≤ b * (a / b) := Nat.mul_le_mul_left b (Nat.log2_self_le hq)
        _ ≤ a := Nat.mul_div_le a b
    have hsplit : 2 ^ (52 - (a / b).log2 + 1) * 2 ^ (a / b).log2 = 2 ^ 53 := by
      rw [← pow_add]
      congr 1
      omega
    refine Nat.lt_of_mul_lt_mul_right (a := 2 ^ (a / b).log2) ?_
    rw [hsplit]
    omega
  · exact absurd (hlog hq) hk
  · exact absurd (hlog hq) hk

end YHsys.Compiler
