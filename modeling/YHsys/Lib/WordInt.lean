import Mathlib.Data.Int.Bitwise

/-!
# Integers as machine words

`BitVec.ofInt w` reduces an integer of any size to `w` bits in two's complement. The ring
operations and the bitwise operations on integers commute with it.
-/

namespace WordInt

open BitVec (ofInt)

variable {w : ℕ}

theorem getLsbD_ofInt (n : ℤ) (i : ℕ) :
    (ofInt w n).getLsbD i = (decide (i < w) && n.testBit i) := by
  cases n with
  | ofNat k => exact BitVec.getLsbD_ofNat w k i
  | negSucc k =>
    rw [BitVec.ofInt_negSucc_eq_not_ofNat, BitVec.getLsbD_not, BitVec.getLsbD_ofNat]
    by_cases hi : i < w
    · simp [hi, Int.testBit]
    · simp [hi]

theorem ofInt_bitwise {f : Bool → Bool → Bool} {op : BitVec w → BitVec w → BitVec w}
    {m n k : ℤ} (hk : ∀ i, k.testBit i = f (m.testBit i) (n.testBit i))
    (hop : ∀ (x y : BitVec w) (i : ℕ), i < w →
      (op x y).getLsbD i = f (x.getLsbD i) (y.getLsbD i)) :
    ofInt w k = op (ofInt w m) (ofInt w n) := by
  refine BitVec.eq_of_getLsbD_eq fun i hi => ?_
  rw [hop _ _ i hi]
  simp only [getLsbD_ofInt, hi, decide_true, Bool.true_and, hk]

theorem ofInt_land (m n : ℤ) :
    ofInt w (Int.land m n) = ofInt w m &&& ofInt w n :=
  ofInt_bitwise (Int.testBit_land m n) fun _ _ _ _ => BitVec.getLsbD_and

theorem ofInt_lor (m n : ℤ) :
    ofInt w (Int.lor m n) = ofInt w m ||| ofInt w n :=
  ofInt_bitwise (Int.testBit_lor m n) fun _ _ _ _ => BitVec.getLsbD_or

theorem ofInt_xor (m n : ℤ) :
    ofInt w (Int.xor m n) = ofInt w m ^^^ ofInt w n :=
  ofInt_bitwise (Int.testBit_lxor m n) fun _ _ _ _ => BitVec.getLsbD_xor

theorem ofInt_lnot (n : ℤ) : ofInt w (Int.lnot n) = ~~~ofInt w n := by
  refine BitVec.eq_of_getLsbD_eq fun i hi => ?_
  rw [BitVec.getLsbD_not]
  simp only [getLsbD_ofInt, hi, decide_true, Bool.true_and, Int.testBit_lnot]

theorem ofInt_sub (m n : ℤ) :
    ofInt w (m - n) = ofInt w m - ofInt w n := by
  rw [Int.sub_eq_add_neg, BitVec.ofInt_add, BitVec.ofInt_neg, BitVec.sub_eq_add_neg]

end WordInt
