import Mathlib.Data.BitVec
import Mathlib.Data.Nat.ModEq
import Mathlib.Logic.Function.Basic

/-!
# Ring buffers with free-running counters

`n` cells and two `w`-bit counters that are never reset: the next element goes to, or
comes from, the cell with the counter's index modulo `n`. `Holds` says which list is in
the buffer. If `n` divides `2 ^ w`, the overflow of a counter does no harm.
-/

/-- The cells, the count of elements taken out and the count of elements put in. -/
structure RingBuffer (α : Type*) (w n : ℕ) where
  data : Fin n → α
  head : BitVec w
  tail : BitVec w

namespace RingBuffer

open BitVec (add_assoc ofNat ofNat_add toNat_ofNat)

variable {α : Type*} {w n : ℕ} [NeZero n]

/-- The cell of a counter. -/
def index (n : ℕ) [NeZero n] (c : BitVec w) : Fin n := Fin.ofNat n c.toNat

def push (r : RingBuffer α w n) (x : α) : RingBuffer α w n :=
  { r with data := Function.update r.data (index n r.tail) x, tail := r.tail + 1 }

def pop (r : RingBuffer α w n) : RingBuffer α w n := { r with head := r.head + 1 }

/-- The buffer holds `l`, oldest element first. -/
structure Holds (r : RingBuffer α w n) (l : List α) : Prop where
  length : l.length ≤ n
  tail : r.tail = r.head + BitVec.ofNat w l.length
  get : ∀ i x, l[i]? = some x → r.data (index n (r.head + BitVec.ofNat w i)) = x

theorem index_add (hdvd : n ∣ 2 ^ w) (c : BitVec w) (i : ℕ) :
    index n (c + ofNat w i) = Fin.ofNat n (c.toNat + i) := by
  refine Fin.ext ?_
  simp only [index, Fin.ofNat, BitVec.toNat_add, toNat_ofNat, Nat.add_mod_mod]
  exact Nat.mod_mod_of_dvd _ hdvd

theorem index_add_ne (hdvd : n ∣ 2 ^ w) (c : BitVec w) {i j : ℕ} (hij : i < j) (hj : j < n) :
    index n (c + ofNat w i) ≠ index n (c + ofNat w j) := by
  rw [index_add hdvd, index_add hdvd]
  intro h
  have h : (c.toNat + i) % n = (c.toNat + j) % n := congrArg Fin.val h
  have h := Nat.ModEq.add_left_cancel' c.toNat h
  rw [Nat.ModEq, Nat.mod_eq_of_lt (hij.trans hj), Nat.mod_eq_of_lt hj] at h
  omega

namespace Holds

variable {r : RingBuffer α w n} {l : List α} {x : α}

theorem ofNat_inj {i j : ℕ} (hi : i < 2 ^ w) (hj : j < 2 ^ w)
    (h : ofNat w i = ofNat w j) : i = j := by
  have h := congrArg BitVec.toNat h
  rwa [toNat_ofNat, toNat_ofNat, Nat.mod_eq_of_lt hi, Nat.mod_eq_of_lt hj] at h

theorem sub_toNat (h : Holds r l) (hlt : n < 2 ^ w) : (r.tail - r.head).toNat = l.length := by
  have hlen := h.length
  rw [h.tail, BitVec.add_comm, BitVec.add_sub_cancel, toNat_ofNat,
    Nat.mod_eq_of_lt (by omega)]

theorem full_iff (h : Holds r l) (hlt : n < 2 ^ w) :
    r.tail = r.head + ofNat w n ↔ l.length = n := by
  have hlen := h.length
  rw [h.tail]
  constructor
  · intro heq
    exact ofNat_inj (by omega) hlt (by simpa using heq)
  · intro heq
    rw [heq]

theorem empty_iff (h : Holds r l) (hlt : n < 2 ^ w) : r.head = r.tail ↔ l = [] := by
  have hlen := h.length
  rw [← List.length_eq_zero_iff, h.tail]
  constructor
  · intro heq
    have heq : ofNat w l.length = ofNat w 0 := by simpa using heq
    exact ofNat_inj (by omega) (by omega) heq
  · intro heq
    simp [heq]

theorem push (h : Holds r l) (hdvd : n ∣ 2 ^ w) (hl : l.length < n) (x : α) :
    Holds (r.push x) (l ++ [x]) := by
  have htail := h.tail
  refine ⟨by simp only [List.length_append, List.length_singleton]; omega, ?_, fun i y hi => ?_⟩
  · show r.tail + 1 = r.head + _
    rw [htail, List.length_append, List.length_singleton, ofNat_add, add_assoc]
    rfl
  · show Function.update r.data (index n r.tail) x (index n (r.head + ofNat w i)) = y
    by_cases hil : i < l.length
    · rw [List.getElem?_append_left hil] at hi
      rw [htail, Function.update_of_ne (index_add_ne hdvd r.head hil hl)]
      exact h.get i y hi
    · obtain rfl : i = l.length := by
        have := (List.getElem?_eq_some_iff.mp hi).1
        simp only [List.length_append, List.length_singleton] at this
        omega
      rw [← htail, Function.update_self]
      simpa using hi

theorem pop (h : Holds r (x :: l)) : r.data (index n r.head) = x ∧ Holds r.pop l := by
  have hget := h.get 0 x rfl
  refine ⟨by simpa using hget, ⟨?_, ?_, fun i y hi => ?_⟩⟩
  · have := h.length
    simp only [List.length_cons] at this
    omega
  · show r.tail = r.head + 1 + _
    rw [h.tail, List.length_cons, Nat.add_comm, ofNat_add, ← add_assoc]
    rfl
  · have hnext := h.get (i + 1) y hi
    rw [Nat.add_comm, ofNat_add, ← add_assoc] at hnext
    exact hnext

end Holds

end RingBuffer
