import Mathlib.Data.Nat.Bitwise
import Mathlib.Tactic.Common
import Mathlib.Tactic.Ring

/-!
# 64-bit division in user programs (`user/div64.c`)

RV32 has no 64-bit division, so the compiler calls `__udivdi3`, `__umoddi3`, `__divdi3` and
`__moddi3`. They share one restoring division, which takes in a bit of the dividend a turn.

After `k` turns the quotient and the remainder are those of the `k` high bits of the dividend
(`divTurns_spec`). These bits are a number below `2 ^ k`, and so is the remainder: the shift
to the left has room for it in each of the 64 turns, for divisors beyond `2 ^ 63` as well.
-/

namespace YHsys.User

open BitVec (le_def ofInt ofInt_neg slt toNat_or)

/-! ## The code -/

/-- One turn of the loop of `udivmod64`, for bit `i`, on `q` and `r`. -/
def divStep (n d : BitVec 64) (i : ℕ) (s : BitVec 64 × BitVec 64) : BitVec 64 × BitVec 64 :=
  let r := (s.2 <<< 1) ||| ((n >>> i) &&& 1#64)
  if d ≤ r then (s.1 ||| (1#64 <<< i), r - d) else (s.1, r)

/-- `q` and `r` after `k` turns; the first turn is for bit 63. -/
def divTurns (n d : BitVec 64) : ℕ → BitVec 64 × BitVec 64
  | 0 => (0, 0)
  | k + 1 => divStep n d (63 - k) (divTurns n d k)

/-- `udivmod64` (`div64.c:4`): the quotient, and what it leaves in `*rem`. -/
def udivmod64 (n d : BitVec 64) : BitVec 64 × BitVec 64 :=
  if d = 0 then (0, 0) else divTurns n d 64

/-- `__udivdi3` (`div64.c:29`). -/
def udivdi3 (n d : BitVec 64) : BitVec 64 := (udivmod64 n d).1

/-- `__umoddi3` (`div64.c:35`). -/
def umoddi3 (n d : BitVec 64) : BitVec 64 := (udivmod64 n d).2

/-- `uabs64` (`div64.c:43`). -/
def uabs64 (x : BitVec 64) : BitVec 64 := if x.slt 0 then -(x + 1) + 1 else x

/-- `__divdi3` (`div64.c:51`). -/
def divdi3 (n d : BitVec 64) : BitVec 64 :=
  let neg := n.slt 0 ^^ d.slt 0
  let q := (udivmod64 (uabs64 n) (uabs64 d)).1
  if neg then -q else q

/-- `__moddi3` (`div64.c:61`). -/
def moddi3 (n d : BitVec 64) : BitVec 64 :=
  let r := (udivmod64 (uabs64 n) (uabs64 d)).2
  if n.slt 0 then -r else r

/-! ## One turn -/

variable {n d : BitVec 64}

theorem div_two_pow_succ (n i : ℕ) : n / 2 ^ i = 2 * (n / 2 ^ (i + 1)) + n / 2 ^ i % 2 := by
  rw [Nat.pow_succ, ← Nat.div_div_eq_div_mul]
  omega

theorem shift_in_toNat {r : BitVec 64} (hr : r.toNat < 2 ^ 63) (i : ℕ) :
    ((r <<< 1) ||| ((n >>> i) &&& 1#64)).toNat = 2 * r.toNat + n.toNat / 2 ^ i % 2 := by
  have hshift : (r <<< 1).toNat = 2 * r.toNat := by
    rw [BitVec.toNat_shiftLeft, Nat.shiftLeft_eq]
    omega
  have hbit : ((n >>> i) &&& 1#64).toNat = n.toNat / 2 ^ i % 2 := by
    rw [BitVec.toNat_and, BitVec.toNat_ushiftRight, Nat.shiftRight_eq_div_pow]
    exact Nat.and_one_is_mod _
  rw [toNat_or, hshift, hbit, Nat.mul_comm, ← Nat.shiftLeft_eq r.toNat 1,
    ← Nat.shiftLeft_add_eq_or_of_lt (by omega)]

theorem set_bit_toNat {q : BitVec 64} {a i : ℕ} (hi : i < 64) (hq : q.toNat = a * 2 ^ (i + 1)) :
    (q ||| (1#64 <<< i)).toNat = (2 * a + 1) * 2 ^ i := by
  have hone : (1#64 <<< i).toNat = 2 ^ i := by
    rw [BitVec.toNat_shiftLeft, Nat.shiftLeft_eq]
    have : 2 ^ i < 2 ^ 64 := Nat.pow_lt_pow_right (by decide) hi
    simpa using Nat.mod_eq_of_lt this
  rw [toNat_or, hone, hq, ← Nat.shiftLeft_eq,
    ← Nat.shiftLeft_add_eq_or_of_lt (Nat.pow_lt_pow_right (by decide) (Nat.lt_succ_self i)),
    Nat.shiftLeft_eq, Nat.pow_succ]
  ring

/-- The quotient and the remainder of the bits from `i` up. -/
structure DivOf (n d : BitVec 64) (i : ℕ) (s : BitVec 64 × BitVec 64) : Prop where
  quot : s.1.toNat = n.toNat / 2 ^ i / d.toNat * 2 ^ i
  rem : s.2.toNat = n.toNat / 2 ^ i % d.toNat

theorem DivOf.rem_lt {i : ℕ} {s : BitVec 64 × BitVec 64} (h : DivOf n d (i + 1) s) :
    s.2.toNat < 2 ^ 63 := by
  have hn := n.isLt
  have hhigh : n.toNat / 2 ^ (i + 1) ≤ n.toNat / 2 :=
    Nat.div_le_div_left (by rw [Nat.pow_succ]; have := Nat.one_le_two_pow (n := i); omega)
      (by decide)
  rw [h.rem]
  have := Nat.mod_le (n.toNat / 2 ^ (i + 1)) d.toNat
  omega

theorem DivOf.step {i : ℕ} {s : BitVec 64 × BitVec 64} (hd : d ≠ 0) (hi : i < 64)
    (h : DivOf n d (i + 1) s) : DivOf n d i (divStep n d i s) := by
  have hdpos : 0 < d.toNat := Nat.pos_of_ne_zero fun h0 => hd (BitVec.eq_of_toNat_eq h0)
  have hin := shift_in_toNat (n := n) h.rem_lt i
  have hbits := div_two_pow_succ n.toNat i
  have hbit := Nat.mod_lt (n.toNat / 2 ^ i) (show 0 < 2 by decide)
  have hlt := Nat.mod_lt (n.toNat / 2 ^ (i + 1)) hdpos
  have hdm := Nat.div_add_mod (n.toNat / 2 ^ (i + 1)) d.toNat
  rw [h.rem] at hin
  generalize hA : n.toNat / 2 ^ (i + 1) / d.toNat = a at *
  generalize hR : n.toNat / 2 ^ (i + 1) % d.toNat = r at *
  -- the bits from `i` up, over the old quotient and remainder
  have hnum : n.toNat / 2 ^ i = 2 * r + n.toNat / 2 ^ i % 2 + d.toNat * (2 * a) := by
    rw [hbits, ← hdm, Nat.mul_add_mod]
    ring_nf
    omega
  unfold divStep
  dsimp only
  split_ifs with hge
  · rw [le_def, hin] at hge
    have hnum' : n.toNat / 2 ^ i =
        (2 * r + n.toNat / 2 ^ i % 2 - d.toNat) + d.toNat * (2 * a + 1) := by
      rw [Nat.mul_add]
      omega
    have hsmall : 2 * r + n.toNat / 2 ^ i % 2 - d.toNat < d.toNat := by omega
    constructor
    · rw [set_bit_toNat hi (by rw [h.quot, hA])]
      rw [hnum', Nat.add_mul_div_left _ _ hdpos, Nat.div_eq_of_lt hsmall, Nat.zero_add]
    · rw [BitVec.toNat_sub_of_le (by rw [le_def, hin]; exact hge), hin]
      conv_rhs => rw [hnum', Nat.add_mul_mod_self_left, Nat.mod_eq_of_lt hsmall]
  · rw [le_def, hin, Nat.not_le] at hge
    constructor
    · show s.1.toNat = _
      rw [h.quot, hA]
      conv_rhs => rw [hnum, Nat.add_mul_div_left _ _ hdpos, Nat.div_eq_of_lt hge, Nat.zero_add]
      rw [Nat.pow_succ]
      ring
    · show BitVec.toNat _ = _
      rw [hin]
      conv_rhs => rw [hnum, Nat.add_mul_mod_self_left, Nat.mod_eq_of_lt hge]

/-! ## The loop -/

theorem divTurns_spec (n : BitVec 64) (hd : d ≠ 0) {k : ℕ} (hk : k ≤ 64) :
    DivOf n d (64 - k) (divTurns n d k) := by
  induction k with
  | zero =>
    have hn : n.toNat / 2 ^ 64 = 0 := Nat.div_eq_of_lt n.isLt
    constructor
    · show 0 = n.toNat / 2 ^ 64 / d.toNat * 2 ^ 64
      rw [hn, Nat.zero_div, Nat.zero_mul]
    · show 0 = n.toNat / 2 ^ 64 % d.toNat
      rw [hn, Nat.zero_mod]
  | succ k ih =>
    have hpos : 64 - k = 63 - k + 1 := by omega
    have hprev := ih (by omega)
    rw [hpos] at hprev
    rw [show 64 - (k + 1) = 63 - k by omega]
    exact hprev.step hd (by omega)

theorem divTurns_rem_lt (n : BitVec 64) (hd : d ≠ 0) {k : ℕ} (hk : k < 64) :
    (divTurns n d k).2.toNat < 2 ^ 63 := by
  have h := divTurns_spec n hd hk.le
  rw [show 64 - k = 63 - k + 1 by omega] at h
  exact h.rem_lt

theorem udivdi3_toNat (n : BitVec 64) (hd : d ≠ 0) :
    (udivdi3 n d).toNat = n.toNat / d.toNat := by
  rw [udivdi3, udivmod64, if_neg hd, (divTurns_spec n hd (Nat.le_refl 64)).quot]
  simp

theorem umoddi3_toNat (n : BitVec 64) (hd : d ≠ 0) :
    (umoddi3 n d).toNat = n.toNat % d.toNat := by
  rw [umoddi3, udivmod64, if_neg hd, (divTurns_spec n hd (Nat.le_refl 64)).rem]
  simp

/-! ## Signs -/

theorem uabs64_toNat (x : BitVec 64) : (uabs64 x).toNat = x.toInt.natAbs := by
  have hx := x.isLt
  unfold uabs64
  split_ifs with hneg
  · have hneg' : x.toInt < 0 := by simpa [slt] using hneg
    have heq : -(x + 1) + 1 = -x := by rw [BitVec.neg_add, BitVec.sub_add_cancel]
    rw [heq, BitVec.toNat_neg]
    rw [BitVec.toInt_eq_toNat_bmod, Int.bmod_def] at *
    split_ifs at * <;> omega
  · have hneg' : ¬ x.toInt < 0 := by simpa [slt] using hneg
    rw [BitVec.toInt_eq_toNat_bmod, Int.bmod_def] at *
    split_ifs at * <;> omega

theorem slt_zero_iff (x : BitVec 64) : x.slt 0 = true ↔ x.toInt < 0 := by
  simp [slt]

theorem uabs64_ne_zero (hd : d ≠ 0) : uabs64 d ≠ 0 := by
  intro h
  have habs : d.toInt.natAbs = 0 := by rw [← uabs64_toNat, h]; rfl
  exact hd (BitVec.eq_of_toInt_eq (Int.natAbs_eq_zero.mp habs))

theorem eq_ofInt_of_toNat {x : BitVec 64} {a : ℕ} (h : x.toNat = a) : x = ofInt 64 a := by
  subst h
  simp

theorem quot_abs (n : BitVec 64) (hd : d ≠ 0) :
    (udivmod64 (uabs64 n) (uabs64 d)).1 =
      ofInt 64 ((n.toInt.natAbs : ℤ).tdiv d.toInt.natAbs) := by
  refine eq_ofInt_of_toNat ?_
  rw [← uabs64_toNat, ← uabs64_toNat]
  exact udivdi3_toNat _ (uabs64_ne_zero hd)

theorem rem_abs (n : BitVec 64) (hd : d ≠ 0) :
    (udivmod64 (uabs64 n) (uabs64 d)).2 =
      ofInt 64 ((n.toInt.natAbs : ℤ).tmod d.toInt.natAbs) := by
  refine eq_ofInt_of_toNat ?_
  rw [← uabs64_toNat, ← uabs64_toNat]
  exact umoddi3_toNat _ (uabs64_ne_zero hd)

theorem toInt_signs (x : BitVec 64) :
    x.slt 0 = true ∧ x.toInt = -x.toInt.natAbs ∨ x.slt 0 = false ∧ x.toInt = x.toInt.natAbs := by
  cases hx : x.slt 0 with
  | true =>
    have := (slt_zero_iff x).mp hx
    exact .inl ⟨rfl, by omega⟩
  | false =>
    have : ¬ x.toInt < 0 := fun h => by rw [(slt_zero_iff x).mpr h] at hx; cases hx
    exact .inr ⟨rfl, by omega⟩

theorem divdi3_eq (n : BitVec 64) (hd : d ≠ 0) :
    divdi3 n d = ofInt 64 (n.toInt.tdiv d.toInt) := by
  unfold divdi3
  rw [quot_abs n hd]
  rcases toInt_signs n with ⟨hn, hn'⟩ | ⟨hn, hn'⟩ <;> rcases toInt_signs d with ⟨hd, hd'⟩ | ⟨hd, hd'⟩
  · rw [hn, hd, if_neg (by decide)]
    conv_rhs => rw [hn', hd', Int.neg_tdiv_neg]
  · rw [hn, hd, if_pos (by decide), ← ofInt_neg]
    conv_rhs => rw [hn', hd', Int.neg_tdiv]
  · rw [hn, hd, if_pos (by decide), ← ofInt_neg]
    conv_rhs => rw [hn', hd', Int.tdiv_neg]
  · rw [hn, hd, if_neg (by decide)]
    conv_rhs => rw [hn', hd']

theorem moddi3_eq (n : BitVec 64) (hd : d ≠ 0) :
    moddi3 n d = ofInt 64 (n.toInt.tmod d.toInt) := by
  have habs : (n.toInt.natAbs : ℤ).tmod d.toInt = (n.toInt.natAbs : ℤ).tmod d.toInt.natAbs := by
    rcases toInt_signs d with ⟨-, hd'⟩ | ⟨-, hd'⟩
    · conv_lhs => rw [hd', Int.tmod_neg]
    · conv_lhs => rw [hd']
  unfold moddi3
  rw [rem_abs n hd, ← habs]
  rcases toInt_signs n with ⟨hn, hn'⟩ | ⟨hn, hn'⟩
  · rw [hn, if_pos rfl, ← ofInt_neg]
    conv_rhs => rw [hn', Int.neg_tmod]
  · rw [hn, if_neg (by decide)]
    conv_rhs => rw [hn']

theorem natAbs_tmod_lt (n : BitVec 64) (hd : d ≠ 0) :
    (n.toInt.tmod d.toInt).natAbs < d.toInt.natAbs := by
  rw [Int.natAbs_tmod]
  exact Nat.mod_lt _ (Int.natAbs_pos.mpr fun h => hd (BitVec.eq_of_toInt_eq h))

theorem moddi3_toInt (n : BitVec 64) (hd : d ≠ 0) :
    (moddi3 n d).toInt = n.toInt.tmod d.toInt := by
  have hlt := natAbs_tmod_lt n hd
  have hlo := d.le_toInt
  have hhi := d.toInt_lt
  rw [moddi3_eq n hd]
  exact BitVec.toInt_ofInt_eq_self (by decide) (by omega) (by omega)

/-! ## The result -/

/-- The four helpers compute quotients and remainders: of 64-bit numbers without sign, with
no bit lost on the way, and of two's complement numbers, rounded toward zero, the remainder
with the sign of the dividend; all modulo `2 ^ 64`. -/
theorem div64_correct (n d : BitVec 64) (hd : d ≠ 0) :
    ((udivdi3 n d).toNat = n.toNat / d.toNat ∧ (umoddi3 n d).toNat = n.toNat % d.toNat ∧
      ∀ k < 64, ((divTurns n d k).2 <<< 1).toNat = 2 * (divTurns n d k).2.toNat) ∧
    (divdi3 n d = BitVec.ofInt 64 (n.toInt.tdiv d.toInt) ∧
      (moddi3 n d).toInt = n.toInt.tmod d.toInt ∧
      n = divdi3 n d * d + moddi3 n d ∧ (moddi3 n d).toInt.natAbs < d.toInt.natAbs) := by
  refine ⟨⟨udivdi3_toNat n hd, umoddi3_toNat n hd, fun k hk => ?_⟩, divdi3_eq n hd,
    moddi3_toInt n hd, ?_, ?_⟩
  · have := divTurns_rem_lt n hd hk
    rw [BitVec.toNat_shiftLeft, Nat.shiftLeft_eq]
    omega
  · rw [divdi3_eq n hd, moddi3_eq n hd]
    conv_rhs => rw [← BitVec.ofInt_toInt (x := d)]
    rw [← BitVec.ofInt_mul, ← BitVec.ofInt_add, BitVec.ofInt_toInt, Int.add_comm,
      Int.tmod_add_tdiv_mul, BitVec.ofInt_toInt]
  · rw [moddi3_toInt n hd]
    exact natAbs_tmod_lt n hd

/-- The smallest number divided by -1 wraps around to itself. -/
theorem div64_correct_min :
    (divdi3 (BitVec.intMin 64) (-1) =
        BitVec.ofInt 64 ((BitVec.intMin 64).toInt.tdiv (-1 : BitVec 64).toInt) ∧
      divdi3 (BitVec.intMin 64) (-1) = BitVec.intMin 64) ∧
    (umoddi3 (-1) (-2)).toNat = (-1 : BitVec 64).toNat % (-2 : BitVec 64).toNat :=
  ⟨⟨(div64_correct (BitVec.intMin 64) (-1) (by decide)).2.1, by decide +kernel⟩,
    (div64_correct (-1) (-2) (by decide)).1.2.1⟩

end YHsys.User
