import Mathlib.Tactic.NormNum
import YHsys.Compiler.FloatDiv
import YHsys.Compiler.RingFold

/-!
# Folding and the 32-bit operators

`_fold_binary` computes with Python's integers, the machine with 32-bit words. For literals
that are 32-bit numbers the two agree on quotients, comparisons and logical operators.
Python's remainder has the sign of the divisor, its shifts raise for a negative count and do not
reduce the count modulo 32: `FoldAgrees` says when these operators agree as well.
-/

namespace YHsys.Compiler

open BitVec (ofInt toInt_inj toInt_ofInt toNat_inj toNat_ofInt)

/-- A signed 32-bit number. -/
def IsInt32 (n : ℤ) : Prop := -2147483648 ≤ n ∧ n < 2147483648

instance (n : ℤ) : Decidable (IsInt32 n) := inferInstanceAs (Decidable (_ ∧ _))

/-- The operands for which folding an operator other than the ring operators has the result of
the machine. -/
def FoldAgrees (op : BinaryOp) (a b : ℤ) : Prop :=
  match op with
  | .mod => b ∣ a ∨ (a < 0 ↔ b < 0)
  | .shl => 0 ≤ b ∧ (b < 32 ∨ 2 ^ (32 - b.toNat % 32) ∣ a)
  | .shr => 0 ≤ b ∧ (b < 32 ∨ (-2 ^ (b.toNat % 32) ≤ a ∧ a < 2 ^ (b.toNat % 32)))
  | _ => True

/-- Folding returns the 32-bit result. -/
def FoldsTo32 (op : BinaryOp) (a b : ℤ) (v : BitVec 32) : Prop :=
  ∃ k, foldBinary op a b = .ok k ∧ BitVec.ofInt 32 k = v

theorem foldsTo32_of_ok {op : BinaryOp} {a b k : ℤ} {v : BitVec 32}
    (h : foldBinary op a b = .ok k) : FoldsTo32 op a b v ↔ ofInt 32 k = v := by
  constructor
  · rintro ⟨k', hk', hv⟩
    rw [h] at hk'
    cases hk'
    exact hv
  · exact fun hv => ⟨k, h, hv⟩

theorem not_foldsTo32_of_error {op : BinaryOp} {a b : ℤ} {e : PyError} {v : BitVec 32}
    (h : foldBinary op a b = .error e) : ¬ FoldsTo32 op a b v := by
  rintro ⟨k, hk, -⟩
  rw [h] at hk
  cases hk

/-! ## Words and numbers -/

theorem toInt_ofInt_of_isInt32 {n : ℤ} (h : IsInt32 n) : (ofInt 32 n).toInt = n := by
  obtain ⟨hlo, hhi⟩ := h
  rw [toInt_ofInt]
  exact Int.bmod_eq_of_le (by norm_num; omega) (by norm_num; omega)

theorem ofInt_eq_iff_toInt {n : ℤ} {v : BitVec 32} (h : IsInt32 n) :
    ofInt 32 n = v ↔ n = v.toInt := by
  rw [← toInt_inj, toInt_ofInt_of_isInt32 h]

theorem ofInt_eq_iff {m n : ℤ} (hm : IsInt32 m) (hn : IsInt32 n) :
    ofInt 32 m = ofInt 32 n ↔ m = n := by
  rw [ofInt_eq_iff_toInt hm, toInt_ofInt_of_isInt32 hn]

theorem ofInt_pyBool (p : Bool) : ofInt 32 (pyBool p) = boolWord p := by
  cases p <;> rfl

section

variable {a b : ℤ}

/-! ## Quotients and remainders -/

theorem isInt32_natAbs (h : IsInt32 a) : a.natAbs ≤ 2147483648 := by
  obtain ⟨hlo, hhi⟩ := h
  omega

theorem signed_quotient (a b : ℤ) :
    (if (a < 0) = (b < 0) then ((a.natAbs / b.natAbs : ℕ) : ℤ) else -((a.natAbs / b.natAbs : ℕ) : ℤ)) =
      a.tdiv b := by
  have hsplit : ∀ c : ℤ, (∃ n : ℕ, c = n ∧ ¬ c < 0) ∨ ∃ n : ℕ, c = -n ∧ c < 0 := by
    intro c
    rcases lt_or_ge c 0 with hc | hc
    · exact .inr ⟨c.natAbs, by omega, hc⟩
    · exact .inl ⟨c.natAbs, by omega, by omega⟩
  obtain ⟨n, ha, hn⟩ | ⟨n, ha, hn⟩ := hsplit a <;>
    obtain ⟨k, hb, hk⟩ | ⟨k, hb, hk⟩ := hsplit b <;>
    simp only [hn, hk, eq_iff_iff, true_iff, false_iff, not_true, if_true, if_false] <;>
    simp [ha, hb]

theorem pyDiv_eq (ha : IsInt32 a) (hb : IsInt32 b) (h0 : b ≠ 0) :
    pyDiv a b = .ok (a.tdiv b) := by
  have hA := isInt32_natAbs ha
  have hB := isInt32_natAbs hb
  have hq : floatDiv a.natAbs b.natAbs = some (a.natAbs / b.natAbs) :=
    floatDiv_eq_div (by norm_num; omega) (by omega) (by norm_num; omega)
  rw [pyDiv, if_neg h0, hq]
  exact congrArg Except.ok (signed_quotient a b)

theorem fold_div (ha : IsInt32 a) (hb : IsInt32 b) (h0 : b ≠ 0) :
    FoldsTo32 .div a b (binary32 .div (ofInt 32 a) (ofInt 32 b)) := by
  have hne : ofInt 32 b ≠ 0 := fun h => h0 ((ofInt_eq_iff hb (by decide)).mp h)
  have hfold : foldBinary .div a b = .ok (a.tdiv b) := pyDiv_eq ha hb h0
  rw [foldsTo32_of_ok hfold, binary32, if_neg hne, ← toInt_inj,
    BitVec.toInt_sdiv, toInt_ofInt, toInt_ofInt_of_isInt32 ha, toInt_ofInt_of_isInt32 hb]

theorem fmod_eq_tmod_iff (h0 : b ≠ 0) : a.fmod b = a.tmod b ↔ b ∣ a ∨ (a < 0 ↔ b < 0) := by
  rw [Int.fmod_eq_tmod]
  split_ifs <;> omega

theorem isInt32_fmod (hb : IsInt32 b) (h0 : b ≠ 0) : IsInt32 (a.fmod b) := by
  obtain ⟨hlo, hhi⟩ := hb
  have hpos := Int.emod_nonneg a h0
  have hlt := Int.emod_lt a h0
  rw [Int.fmod_eq_emod]
  constructor <;> split_ifs <;> omega

theorem fold_mod_iff (ha : IsInt32 a) (hb : IsInt32 b) (h0 : b ≠ 0) :
    FoldsTo32 .mod a b (binary32 .mod (ofInt 32 a) (ofInt 32 b)) ↔
      FoldAgrees .mod a b := by
  have hfold : foldBinary .mod a b = .ok (a.fmod b) := by rw [foldBinary, pyMod, if_neg h0]
  have hne : ofInt 32 b ≠ 0 := fun h => h0 ((ofInt_eq_iff hb (by decide)).mp h)
  rw [foldsTo32_of_ok hfold, ofInt_eq_iff_toInt (isInt32_fmod hb h0), binary32, if_neg hne,
    BitVec.toInt_srem, toInt_ofInt_of_isInt32 ha, toInt_ofInt_of_isInt32 hb, fmod_eq_tmod_iff h0,
    FoldAgrees]

/-! ## Shifts -/

theorem shiftCount (h : 0 ≤ b) (hb : IsInt32 b) : (ofInt 32 b).toNat = b.toNat := by
  obtain ⟨hlo, hhi⟩ := hb
  rw [toNat_ofInt]
  norm_num
  omega

theorem ofInt_mul_two_pow (n : ℕ) :
    ofInt 32 (a * 2 ^ n) = ofInt 32 a <<< n := by
  rw [BitVec.ofInt_mul, BitVec.shiftLeft_eq_mul_twoPow]
  congr 1
  rw [← toNat_inj, BitVec.toNat_twoPow]
  norm_cast

theorem ofInt_eq_zero_iff (n : ℤ) : ofInt 32 n = 0 ↔ 2 ^ 32 ∣ n := by
  rw [← toNat_inj, toNat_ofInt, show (0 : BitVec 32).toNat = 0 from rfl,
    Int.toNat_eq_zero]
  push_cast
  omega

theorem shl_eq_zero_iff (n : ℕ) :
    ofInt 32 a <<< (n % 32) = 0 ↔ 2 ^ (32 - n % 32) ∣ a := by
  have hsplit : (2 : ℤ) ^ 32 = 2 ^ (32 - n % 32) * 2 ^ (n % 32) := by
    rw [← pow_add]
    congr 1
    omega
  rw [← ofInt_mul_two_pow, ofInt_eq_zero_iff, hsplit]
  exact Int.mul_dvd_mul_iff_right (by positivity)

theorem fold_shl_iff (hb : IsInt32 b) :
    FoldsTo32 .shl a b (binary32 .shl (ofInt 32 a) (ofInt 32 b)) ↔
      FoldAgrees .shl a b := by
  rcases lt_or_ge b 0 with hneg | hpos
  · have hfold : foldBinary .shl a b = .error (.valueError "negative shift count") := by
      rw [foldBinary, pyShl, if_pos hneg]
    exact iff_of_false (not_foldsTo32_of_error hfold) fun h => absurd h.1 (by omega)
  · have hfold : foldBinary .shl a b = .ok (a * 2 ^ b.toNat) := by
      rw [foldBinary, pyShl, if_neg (by omega)]
    rw [foldsTo32_of_ok hfold, binary32, shiftCount hpos hb, ofInt_mul_two_pow, FoldAgrees]
    rcases lt_or_ge b 32 with hlt | hge
    · rw [Nat.mod_eq_of_lt (show b.toNat < 32 by omega)]
      exact iff_of_true rfl ⟨hpos, .inl hlt⟩
    · rw [BitVec.shiftLeft_eq_zero (show 32 ≤ b.toNat by omega), eq_comm,
        show (0#32 : BitVec 32) = 0 from rfl, shl_eq_zero_iff]
      simp [hpos, not_lt.mpr hge]

theorem isInt32_shiftRight (ha : IsInt32 a) (n : ℕ) : IsInt32 (a >>> n) := by
  obtain ⟨hlo, hhi⟩ := ha
  have hpos : (1 : ℤ) ≤ ((2 ^ n : ℕ) : ℤ) := by exact_mod_cast Nat.two_pow_pos n
  rw [Int.shiftRight_eq_div_pow]
  generalize ((2 ^ n : ℕ) : ℤ) = d at hpos ⊢
  constructor
  · rw [Int.le_ediv_iff_mul_le (by omega)]
    omega
  · rw [Int.ediv_lt_iff_lt_mul (by omega)]
    omega

theorem shiftRight_eq_iff (ha : IsInt32 a) {n : ℕ} (hn : 32 ≤ n) (r : ℕ) :
    a >>> n = a >>> r ↔ -2 ^ r ≤ a ∧ a < 2 ^ r := by
  obtain ⟨hlo, hhi⟩ := ha
  have hlarge : (2 : ℤ) ^ 32 ≤ 2 ^ n := pow_le_pow_right₀ (by norm_num) hn
  have hr : (0 : ℤ) < 2 ^ r := by positivity
  norm_num at hlarge
  rw [Int.shiftRight_eq_div_pow, Int.shiftRight_eq_div_pow]
  push_cast
  generalize (2 : ℤ) ^ n = d at hlarge ⊢
  generalize (2 : ℤ) ^ r = e at hr ⊢
  rcases lt_or_ge a 0 with hneg | hpos
  · rw [Int.ediv_eq_neg_one_of_neg_of_le hneg (by omega), eq_comm]
    constructor
    · intro h
      have := Int.mul_ediv_add_emod a e
      have := Int.emod_nonneg a hr.ne'
      rw [h] at *
      omega
    · rintro ⟨h, -⟩
      exact Int.ediv_eq_neg_one_of_neg_of_le hneg (by omega)
  · rw [Int.ediv_eq_zero_of_lt hpos (by omega), eq_comm]
    constructor
    · intro h
      have := Int.mul_ediv_add_emod a e
      have := Int.emod_lt_of_pos a hr
      rw [h] at *
      omega
    · rintro ⟨-, h⟩
      exact Int.ediv_eq_zero_of_lt hpos h

theorem fold_shr_iff (ha : IsInt32 a) (hb : IsInt32 b) :
    FoldsTo32 .shr a b (binary32 .shr (ofInt 32 a) (ofInt 32 b)) ↔
      FoldAgrees .shr a b := by
  rcases lt_or_ge b 0 with hneg | hpos
  · have hfold : foldBinary .shr a b = .error (.valueError "negative shift count") := by
      rw [foldBinary, pyShr, if_pos hneg]
    exact iff_of_false (not_foldsTo32_of_error hfold) fun h => absurd h.1 (by omega)
  · have hfold : foldBinary .shr a b = .ok (a >>> b.toNat) := by
      rw [foldBinary, pyShr, if_neg (by omega)]
    rw [foldsTo32_of_ok hfold, binary32, shiftCount hpos hb,
      ofInt_eq_iff_toInt (isInt32_shiftRight ha _), BitVec.toInt_sshiftRight,
      toInt_ofInt_of_isInt32 ha, FoldAgrees]
    rcases lt_or_ge b 32 with hlt | hge
    · rw [Nat.mod_eq_of_lt (show b.toNat < 32 by omega)]
      exact iff_of_true rfl ⟨hpos, .inl hlt⟩
    · rw [shiftRight_eq_iff ha (show 32 ≤ b.toNat by omega)]
      simp [hpos, not_lt.mpr hge]

/-! ## All operators -/

theorem fold_bool {op : BinaryOp} {p : Bool} {v : BitVec 32}
    (hfold : foldBinary op a b = .ok (pyBool p)) (hv : v = boolWord p) : FoldsTo32 op a b v := by
  rw [foldsTo32_of_ok hfold, ofInt_pyBool, hv]

theorem ofInt_beq (ha : IsInt32 a) (hb : IsInt32 b) :
    (ofInt 32 a == ofInt 32 b) = (a == b) := by
  rw [Bool.eq_iff_iff, beq_iff_eq, beq_iff_eq, ofInt_eq_iff ha hb]

theorem ofInt_slt (ha : IsInt32 a) (hb : IsInt32 b) :
    (ofInt 32 a).slt (ofInt 32 b) = decide (a < b) := by
  rw [BitVec.slt_eq_decide, toInt_ofInt_of_isInt32 ha, toInt_ofInt_of_isInt32 hb]

theorem ofInt_beq_zero (ha : IsInt32 a) : (ofInt 32 a == 0) = (a == 0) :=
  ofInt_beq ha (b := 0) (by decide)

theorem foldsTo32_iff {op : BinaryOp} (hop : op.isRing = false) (ha : IsInt32 a) (hb : IsInt32 b)
    (h0 : op.isDivision = true → b ≠ 0) :
    FoldsTo32 op a b (binary32 op (ofInt 32 a) (ofInt 32 b)) ↔
      FoldAgrees op a b := by
  cases op with
  | add | sub | mul | band | bor | bxor => cases hop
  | div => exact iff_of_true (fold_div ha hb (h0 rfl)) trivial
  | mod => exact fold_mod_iff ha hb (h0 rfl)
  | shl => exact fold_shl_iff hb
  | shr => exact fold_shr_iff ha hb
  | eq => exact iff_of_true (fold_bool rfl (by rw [binary32, ofInt_beq ha hb])) trivial
  | ne => exact iff_of_true (fold_bool rfl (by rw [binary32, bne, bne, ofInt_beq ha hb])) trivial
  | lt => exact iff_of_true (fold_bool rfl (by rw [binary32, ofInt_slt ha hb])) trivial
  | gt => exact iff_of_true (fold_bool rfl (by rw [binary32, ofInt_slt hb ha])) trivial
  | le =>
    refine iff_of_true (fold_bool rfl ?_) trivial
    rw [binary32, ofInt_slt hb ha, ← decide_not]
    simp only [not_lt]
  | ge =>
    refine iff_of_true (fold_bool rfl ?_) trivial
    rw [binary32, ofInt_slt ha hb, ← decide_not]
    simp only [not_lt, ge_iff_le]
  | land | lor =>
    refine iff_of_true (fold_bool rfl ?_) trivial
    rw [binary32, bne, bne, bne, bne, ofInt_beq_zero ha, ofInt_beq_zero hb]

end

end YHsys.Compiler
