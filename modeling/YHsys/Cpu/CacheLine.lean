import Mathlib.Data.BitVec
import Mathlib.Logic.Function.Basic

/-!
# Cache lines and the memory behind the caches

Both caches hold lines of four words, index them with the bits `11:4` of the virtual
address and tag them with the bits `31:12` of the physical one. A line comes from memory
as a burst of four beats, the last one marked. `Refilling` is what a cache knows while it
collects them: the words received so far.
-/

namespace YHsys.Cpu

/-- The four words of a line. The caches read and write a 128-bit row by words only. -/
abbrev Line := BitVec 2 → BitVec 32

/-- Memory by lines, numbered by the bits `31:4` of the address. -/
abbrev LineMem := BitVec 28 → Line

/-! ## Parts of an address -/

def tagOf (a : BitVec 32) : BitVec 20 := a.extractLsb' 12 20
def indexOf (a : BitVec 32) : BitVec 8 := a.extractLsb' 4 8
def wordOf (a : BitVec 32) : BitVec 2 := a.extractLsb' 2 2
def lineOf (a : BitVec 32) : BitVec 28 := a.extractLsb' 4 28

/-- The word at an address. -/
def LineMem.read (mem : LineMem) (a : BitVec 32) : BitVec 32 := mem (lineOf a) (wordOf a)

/-- Every word holds its address plus one. -/
def addressMem : LineMem := fun l w => (l ++ w : BitVec 30) ++ 1#2

/-- The addresses are the same within a page. -/
def SameOffset (a b : BitVec 32) : Prop := a.extractLsb' 0 12 = b.extractLsb' 0 12

instance (a b : BitVec 32) : Decidable (SameOffset a b) :=
  inferInstanceAs (Decidable (_ = _))

theorem lineOf_eq (a : BitVec 32) : lineOf a = tagOf a ++ indexOf a := by
  refine BitVec.eq_of_getLsbD_eq fun i hi => ?_
  simp only [lineOf, tagOf, indexOf, BitVec.getLsbD_extractLsb', BitVec.getLsbD_append]
  by_cases h : i < 8
  · simp [h, hi]
  · have hlt : i - 8 < 20 := by omega
    simp [h, hi, hlt, show 12 + (i - 8) = 4 + i by omega]

theorem SameOffset.bit {a b : BitVec 32} (h : SameOffset a b) {i : ℕ} (hi : i < 12) :
    a.getLsbD i = b.getLsbD i := by
  have := congrArg (·.getLsbD i) h
  simpa [hi] using this

theorem SameOffset.index {a b : BitVec 32} (h : SameOffset a b) : indexOf a = indexOf b := by
  refine BitVec.eq_of_getLsbD_eq fun i hi => ?_
  simp only [indexOf, BitVec.getLsbD_extractLsb', hi, decide_true, Bool.true_and]
  exact h.bit (by omega)

theorem SameOffset.word {a b : BitVec 32} (h : SameOffset a b) : wordOf a = wordOf b := by
  refine BitVec.eq_of_getLsbD_eq fun i hi => ?_
  simp only [wordOf, BitVec.getLsbD_extractLsb', hi, decide_true, Bool.true_and]
  exact h.bit (by omega)

/-! ## Bursts -/

/-- One beat of the read channel. -/
structure Beat where
  data : BitVec 32
  last : Bool
deriving DecidableEq, Repr

/-- The answer to a read of a line. -/
def lineBeats (l : Line) : List Beat := [⟨l 0, false⟩, ⟨l 1, false⟩, ⟨l 2, false⟩, ⟨l 3, true⟩]

/-- The beats that memory can deliver in a cycle: those it still owes, and the answer to an
address that it takes in this cycle. -/
def offered (mem : LineMem) (pending : List Beat) (arvalid arready : Bool) (line : BitVec 28) :
    List Beat :=
  if arvalid && arready then pending ++ lineBeats (mem line) else pending

/-- `refill_cnt` words of the line have arrived, in order, and the rest is on its way. -/
structure Refilling (l : Line) (cnt : BitVec 2) (buffer : Line) (pending : List Beat) : Prop where
  beats : pending = (lineBeats l).drop cnt.toNat
  words : ∀ j, j < cnt → buffer j = l j

namespace Refilling

variable {l buffer : Line} {cnt : BitVec 2} {pending : List Beat}

theorem start (l buffer : Line) : Refilling l 0 buffer (lineBeats l) :=
  ⟨rfl, fun j hj => absurd hj (by simp)⟩

theorem cons (h : Refilling l cnt buffer pending) :
    ∃ rest, pending = ⟨l cnt, decide (cnt = 3)⟩ :: rest ∧ (cnt = 3 → rest = []) ∧
      (cnt ≠ 3 → Refilling l (cnt + 1) (Function.update buffer cnt (l cnt)) rest) := by
  have hcases : ∀ c : BitVec 2, c = 0 ∨ c = 1 ∨ c = 2 ∨ c = 3 := by decide
  have hsucc : ∀ c : BitVec 2, c ≠ 3 → (c + 1).toNat = c.toNat + 1 := by decide
  have hbelow : ∀ c j : BitVec 2, c ≠ 3 → j < c + 1 → j ≠ c → j < c := by decide
  refine ⟨(lineBeats l).drop (cnt.toNat + 1), ?_, ?_, fun hne => ⟨?_, fun j hj => ?_⟩⟩
  · rw [h.beats]
    rcases hcases cnt with rfl | rfl | rfl | rfl <;> rfl
  · rintro rfl
    rfl
  · rw [hsucc cnt hne]
  · by_cases hjc : j = cnt
    · rw [hjc, Function.update_self]
    · rw [Function.update_of_ne hjc]
      exact h.words j (hbelow cnt j hne hj hjc)

theorem buffered (h : Refilling l 3 buffer pending) {k : BitVec 2} (hk : k ≠ 3) :
    buffer k = l k := by
  have hlt : ∀ j : BitVec 2, j ≠ 3 → j < 3 := by decide
  exact h.words k (hlt k hk)

end Refilling

namespace BurstTail

end BurstTail

end YHsys.Cpu
