import YHsys.Cpu.Stages

/-!
# The branch predictor

`btb.v`: a table of two-bit counters predicts the direction of a fetched branch, and the direction
is compared when `es_stage` has resolved the branch. `Btb.step` is one clock edge without reset,
with the registers of all its always-blocks.

The module keeps one prediction for the comparison, in `pred_taken_reg`. At the edge at which a
branch is fetched that register takes the value that `pred_taken` has *before* the edge, which is
the prediction of the fetch one cycle earlier. The target in `correct_pc` is the one `es_stage`
shows in the cycle of the comparison, one cycle after the branch.
-/

namespace YHsys.Cpu

/-! ## One clock edge -/

/-- The inputs of `btb` in one cycle. -/
structure BtbIn where
  ifPc : BitVec 32 := 0
  ifInst : BitVec 32 := 0
  esPc : BitVec 32 := 0
  esBranchEn : Bool := false
  esBranchTaken : Bool := false
  esBranchTarget : BitVec 32 := 0
  coreStall : Bool := false
  excpFlush : Bool := false
deriving DecidableEq, Repr

/-- The registers of `btb`, as reset leaves them. -/
structure Btb where
  predTable : BitVec 8 → BitVec 2 := fun _ => 0b01
  predTaken : Bool := false
  predValid : Bool := false
  predTakenReg : Bool := false
  esPcReg : BitVec 32 := 0
  esBranchEnReg : Bool := false
  esBranchTakenReg : Bool := false
  predFlush : Bool := false
  correctPc : BitVec 32 := 0x80000000
  predHitCntEn : Bool := false
  predMissCntEn : Bool := false

/-- Bits 9 to 2 of a PC. -/
def predIndex (pc : BitVec 32) : BitVec 8 := pc.extractLsb' 2 8

/-- The two-bit counter after a resolved branch. -/
def counterNext (counter : BitVec 2) (taken : Bool) : BitVec 2 :=
  match counter with
  | 0b11 => if taken then 0b11 else 0b10
  | 0b10 => if taken then 0b11 else 0b01
  | 0b01 => if taken then 0b10 else 0b00
  | 0b00 => if taken then 0b01 else 0b00

namespace BtbIn

def isBranchInst (i : BtbIn) : Bool := i.ifInst.extractLsb' 0 7 = (0b1100011 : BitVec 7)

/-- A branch is fetched and the core does not stall. -/
def fetches (i : BtbIn) : Bool := !i.coreStall && i.isBranchInst

/-- What follows the branch that `es_stage` resolves. -/
def successor (i : BtbIn) : BitVec 32 := if i.esBranchTaken then i.esBranchTarget else i.esPc + 4

end BtbIn

namespace Btb

/-- The direction the table gives for the fetched instruction. -/
def predicts (s : Btb) (i : BtbIn) : Bool := decide (0b10 ≤ s.predTable (predIndex i.ifPc))

def predCorrect (s : Btb) : Bool := s.esBranchEnReg && s.predTakenReg == s.esBranchTakenReg

def predWrong (s : Btb) : Bool := s.esBranchEnReg && s.predTakenReg != s.esBranchTakenReg

def tableNext (s : Btb) (i : BtbIn) : BitVec 8 → BitVec 2 :=
  if i.excpFlush then fun _ => 0b01
  else if !i.coreStall && s.esBranchEnReg then
    Function.update s.predTable (predIndex s.esPcReg)
      (counterNext (s.predTable (predIndex s.esPcReg)) s.esBranchTakenReg)
  else s.predTable

/-- One edge of the clock. Two always-blocks assign `pred_flush`; the last one, which clears it,
wins. -/
def step (s : Btb) (i : BtbIn) : Btb :=
  let shows := !(i.coreStall || i.excpFlush) && i.isBranchInst
  let missed := !i.excpFlush && s.predWrong
  { predTable := s.tableNext i
    predTaken := shows && s.predicts i
    predValid := shows
    predTakenReg := if i.fetches then s.predTaken else s.predTakenReg
    esPcReg := if i.coreStall then s.esPcReg else i.esPc
    esBranchEnReg := if i.coreStall then s.esBranchEnReg else i.esBranchEn
    esBranchTakenReg := if i.coreStall then s.esBranchTakenReg else i.esBranchTaken
    predFlush := missed && !s.predFlush
    correctPc :=
      if missed then if s.esBranchTakenReg then i.esBranchTarget else s.esPcReg + 4
      else s.correctPc
    predHitCntEn := !i.excpFlush && s.predCorrect
    predMissCntEn := missed }

/-- The registers in every cycle after reset. -/
def run (ins : ℕ → BtbIn) : ℕ → Btb
  | 0 => {}
  | n + 1 => (run ins n).step (ins n)

end Btb

open Btb (run step)

/-! ## Predictions and comparisons -/

section

variable (ins : ℕ → BtbIn)

/-- The prediction made for the instruction fetched in cycle `f`. -/
def predictionOf (f : ℕ) : Bool := (Btb.run ins f).predicts (ins f)

/-- What `pred_taken` shows in a cycle: the prediction of the fetch one cycle earlier, and 0 if
there was none, or a stall or an exception. -/
def shownPrediction : ℕ → Bool
  | 0 => false
  | n + 1 => !((ins n).coreStall || (ins n).excpFlush) && (ins n).isBranchInst && predictionOf ins n

/-- A branch is fetched in cycle `f`, `es_stage` resolves it in cycle `r`, and the comparison is
made in cycle `c`, the next one without a stall or a stalled one before that. -/
structure Resolved (f r c : ℕ) : Prop where
  fetched : (ins f).fetches = true
  before : f < r
  same : (ins f).ifPc = (ins r).esPc
  branch : (ins r).esBranchEn = true
  moves : (ins r).coreStall = false
  after : r < c
  waits : ∀ k, r < k → k < c → (ins k).coreStall = true

/-- The last branch fetched without a stall before cycle `c`. -/
structure LastFetch (g c : ℕ) : Prop where
  fetched : (ins g).fetches = true
  before : g < c
  last : ∀ k, g < k → k < c → (ins k).fetches = false

/-- `pred_flush` rises at the edge that ends cycle `c`. -/
def Raises (c : ℕ) : Prop :=
  (Btb.run ins c).predFlush = false ∧ (Btb.run ins (c + 1)).predFlush = true

/-- The comparison is with the branch's own prediction, and the fetch goes on where the branch
leads. -/
def RecoversRight (f r c : ℕ) : Prop :=
  (Btb.run ins c).predTakenReg = predictionOf ins f ∧
  (Btb.run ins (c + 1)).correctPc = (ins r).successor

instance (c : ℕ) : Decidable (Raises ins c) := inferInstanceAs (Decidable (_ ∧ _))

instance (f r c : ℕ) : Decidable (RecoversRight ins f r c) := inferInstanceAs (Decidable (_ ∧ _))

end

section

variable {ins : ℕ → BtbIn} {f r g c : ℕ}

theorem kept_until {α : Type*} {x : ℕ → α} {a c : ℕ} (hac : a ≤ c)
    (h : ∀ k, a ≤ k → k < c → x (k + 1) = x k) : x c = x a := by
  induction c, hac using Nat.le_induction with
  | base => rfl
  | succ c hac ih =>
    rw [h c hac (Nat.lt_succ_self c)]
    exact ih fun k hak hkc => h k hak (hkc.trans (Nat.lt_succ_self c))

theorem predTaken_eq_shown : ∀ n, (run ins n).predTaken = shownPrediction ins n
  | 0 => rfl
  | _ + 1 => rfl

theorem LastFetch.latched (h : LastFetch ins g c) :
    (run ins c).predTakenReg = shownPrediction ins g := by
  have hkept : (run ins c).predTakenReg = (run ins (g + 1)).predTakenReg :=
    kept_until (x := fun k => (run ins k).predTakenReg) h.before fun k hgk hkc => by
      simp [run, step, h.last k hgk hkc]
  rw [hkept, ← predTaken_eq_shown]
  simp [run, step, h.fetched]

theorem Resolved.registers (h : Resolved ins f r c) :
    (run ins c).esPcReg = (ins r).esPc ∧
    (run ins c).esBranchTakenReg = (ins r).esBranchTaken := by
  have hkept := kept_until (x := fun k => ((run ins k).esPcReg,
    (run ins k).esBranchTakenReg)) h.after fun k hrk hkc => by
      simp [run, step, h.waits k hrk hkc]
  have hloaded : ((run ins (r + 1)).esPcReg, (run ins (r + 1)).esBranchTakenReg) =
      ((ins r).esPc, (ins r).esBranchTaken) := by
    simp [run, step, h.moves]
  exact Prod.mk.inj (hkept.trans hloaded)

theorem Raises.missed (h : Raises ins c) :
    (ins c).excpFlush = false ∧ (run ins c).predWrong = true := by
  have hflush := h.2
  simp only [run, step, Bool.and_eq_true, Bool.not_eq_true'] at hflush
  exact hflush.1

/-- The direction compared is the one that `pred_taken` showed when the last branch was fetched,
so it is right if that is also the prediction of the resolved branch; and the PC is right unless
the branch is taken and `es_stage` does not show its target any more. -/
theorem recovers_right_iff (hres : Resolved ins f r c) (hraises : Raises ins c)
    (hlast : LastFetch ins g c) :
    RecoversRight ins f r c ↔
      shownPrediction ins g = predictionOf ins f ∧
      ((ins r).esBranchTaken = true → (ins c).esBranchTarget = (ins r).esBranchTarget) := by
  obtain ⟨hpc, htaken⟩ := hres.registers
  obtain ⟨hexcp, hwrong⟩ := hraises.missed
  have hcorrect : (Btb.run ins (c + 1)).correctPc =
      if (ins r).esBranchTaken then (ins c).esBranchTarget else (ins r).esPc + 4 := by
    simp [Btb.run, Btb.step, hexcp, hwrong, hpc, htaken]
  unfold RecoversRight BtbIn.successor
  rw [hlast.latched, hcorrect]
  refine and_congr_right fun _ => ?_
  cases (ins r).esBranchTaken <;> simp

end

/-! ## A loop -/

/-- The branch at `0x80000000` with target `0x80000010`, fetched in the cycles `fs` and resolved,
taken, two cycles later. -/
def loopTrace (fs : List ℕ) (n : ℕ) : BtbIn :=
  let resolves := decide (n ∈ fs.map (· + 2))
  { ifPc := if n ∈ fs then 0x80000000 else 0
    ifInst := if n ∈ fs then 0x00000863 else 0x00000013
    esPc := if resolves then 0x80000000 else 0
    esBranchEn := resolves
    esBranchTaken := resolves
    esBranchTarget := if resolves then 0x80000010 else 0 }

/-- The branch is fetched twice in a row, and the second one shows the same target. -/
theorem recovers_right_iff_twice :
    Resolved (loopTrace [0, 1]) 0 2 3 ∧ RecoversRight (loopTrace [0, 1]) 0 2 3 := by
  have hres : Resolved (loopTrace [0, 1]) 0 2 3 :=
    ⟨by decide, by decide, by decide, by decide, by decide, by decide, by omega⟩
  have hlast : LastFetch (loopTrace [0, 1]) 1 3 :=
    ⟨by decide, by decide, fun k hk hk3 => by
      obtain rfl : k = 2 := by omega
      decide⟩
  exact ⟨hres, (recovers_right_iff hres (by decide) hlast).mpr (by decide)⟩

/-- The first time, `correct_pc` is 0 and not the target. The second time the branch is predicted
taken and is taken, and the flush is raised nevertheless. -/
theorem recovery_goes_wrong :
    Resolved (loopTrace [0, 4]) 0 2 3 ∧ Raises (loopTrace [0, 4]) 3 ∧
    (Btb.run (loopTrace [0, 4]) 4).correctPc = 0 ∧
    (loopTrace [0, 4] 2).successor = 0x80000010 ∧
    Resolved (loopTrace [0, 4]) 4 6 7 ∧ Raises (loopTrace [0, 4]) 7 ∧
    predictionOf (loopTrace [0, 4]) 4 = true ∧
    (Btb.run (loopTrace [0, 4]) 7).predTakenReg = false ∧
    ¬ RecoversRight (loopTrace [0, 4]) 0 2 3 ∧ ¬ RecoversRight (loopTrace [0, 4]) 4 6 7 := by
  refine ⟨⟨by decide, by decide, by decide, by decide, by decide, by decide, by omega⟩, by decide,
    by decide, by decide, ⟨by decide, by decide, by decide, by decide, by decide, by decide,
    by omega⟩, by decide, by decide, by decide, by decide, by decide⟩

end YHsys.Cpu
