import YHsys.Cpu.Stages
import Mathlib.Tactic.Tauto

/-!
# Decode and execute against RV32IM

`isaExec` says what the manual asks of an instruction, `legal` which words are instructions of
RV32IM and Zicsr. The formats of the immediates are those of the decoder, which are the manual's.

`es_stage` does what the manual asks for register-register instructions of RV32I, LUI, AUIPC, JAL,
JALR and branches. It has no path from the immediate to the ALU, so a register-immediate
instruction computes with 0; the decoder takes the instructions of the M extension for those of
RV32I with the same `funct3`; and it lets reserved encodings pass.
-/

namespace YHsys.Cpu

/-! ## The manual -/

/-- A register as an operand; `x0` is 0. -/
def readReg (regfile : BitVec 5 → BitVec 32) (r : BitVec 5) : BitVec 32 :=
  if r = 0 then 0 else regfile r

/-- `OP` and `OP-IMM` of RV32I; `alternate` is SUB for ADD and SRA for SRL. -/
def isaAlu (funct3 : BitVec 3) (alternate : Bool) (a b : BitVec 32) : BitVec 32 :=
  match funct3 with
  | 0b000 => if alternate then a - b else a + b
  | 0b001 => a <<< (b.toNat % 32)
  | 0b010 => if a.slt b then 1 else 0
  | 0b011 => if a.ult b then 1 else 0
  | 0b100 => a ^^^ b
  | 0b101 => if alternate then a.sshiftRight (b.toNat % 32) else a >>> (b.toNat % 32)
  | 0b110 => a ||| b
  | 0b111 => a &&& b

/-- MUL, MULH, MULHSU, MULHU, DIV, DIVU, REM and REMU. -/
def isaMul (funct3 : BitVec 3) (a b : BitVec 32) : BitVec 32 :=
  match funct3 with
  | 0b000 => a * b
  | 0b001 => (a.signExtend 64 * b.signExtend 64).extractLsb' 32 32
  | 0b010 => (a.signExtend 64 * b.setWidth 64).extractLsb' 32 32
  | 0b011 => (a.setWidth 64 * b.setWidth 64).extractLsb' 32 32
  | 0b100 => if b = 0 then -1 else a.sdiv b
  | 0b101 => if b = 0 then -1 else a / b
  | 0b110 => if b = 0 then a else a.srem b
  | 0b111 => if b = 0 then a else a % b

def isaBranch (funct3 : BitVec 3) (a b : BitVec 32) : Bool :=
  match funct3 with
  | 0b000 => a == b
  | 0b001 => a != b
  | 0b100 => a.slt b
  | 0b101 => !a.slt b
  | 0b110 => a.ult b
  | 0b111 => !a.ult b
  | _ => false

/-- The words that are instructions of RV32IM or Zicsr. Outside the decoder's opcodes that is
FENCE; of `SYSTEM` they are ECALL, EBREAK and the CSR instructions. -/
def legal (w : BitVec 32) : Bool :=
  let f := funct3Of w
  let u := funct7Of w
  match opcodeOf w with
  | some .rtype => u = 0 ∨ u = 1 ∨ u = 0b0100000 ∧ (f = 0 ∨ f = 5)
  | some .itype => (f = 1 → u = 0) ∧ (f = 5 → u = 0 ∨ u = 0b0100000)
  | some .load => f ≠ 3 ∧ f ≠ 6 ∧ f ≠ 7
  | some .store => f = 0 ∨ f = 1 ∨ f = 2
  | some .branch => f ≠ 2 ∧ f ≠ 3
  | some .jalr => f = 0
  | some .csr => (f ≠ 0 ∧ f ≠ 4) ∨ w = 0x00000073 ∨ w = 0x00100073
  | some .jal | some .lui | some .auipc => true
  | none => w.extractLsb' 0 7 = (0b0001111 : BitVec 7) ∧ f = 0

/-- What the manual asks of an instruction: its result, and where it branches or jumps to. -/
structure IsaOut where
  result : Option (BitVec 32) := none
  branch : Option (BitVec 32) := none
  jump : Option (BitVec 32) := none
deriving DecidableEq, Repr

/-- Register-register, register-immediate, LUI, AUIPC, JAL, JALR and branch instructions. -/
def isaExec (w pc : BitVec 32) (regfile : BitVec 5 → BitVec 32) : Option IsaOut :=
  let f := funct3Of w
  let a := readReg regfile (rs1Of w)
  let b := readReg regfile (rs2Of w)
  match opcodeOf w with
  | some .rtype =>
      some { result := some (if funct7Of w = 1 then isaMul f a b
        else isaAlu f (funct7Of w = 0b0100000) a b) }
  | some .itype =>
      some { result := some (isaAlu f (f = 5 ∧ funct7Of w = 0b0100000) a (immI w)) }
  | some .lui => some { result := some (immU w) }
  | some .auipc => some { result := some (pc + immU w) }
  | some .jal => some { result := some (pc + 4), jump := some (pc + immJ w) }
  | some .jalr => some { result := some (pc + 4), jump := some ((a + immI w) &&& ~~~1) }
  | some .branch => some { branch := if isaBranch f a b then some (pc + immB w) else none }
  | _ => none

/-- The outputs of `es_stage` are as asked. -/
def EsOut.Meets (o : EsOut) (spec : IsaOut) : Prop :=
  (∀ r, spec.result = some r → o.aluOut = r) ∧
  (if o.branchTaken then some o.branchTarget else none) = spec.branch ∧
  (if o.jumpTaken then some o.jumpTarget else none) = spec.jump

/-- `id_stage` and `es_stage` implement a word: an instruction has the result, the branch decision
and the target of the manual, and a word that is no instruction raises the exception. -/
def Implements (w : BitVec 32) : Prop :=
  (legal w = true → ∀ pc regfile spec, isaExec w pc regfile = some spec →
    (esOut w pc regfile).Meets spec) ∧
  (legal w = false → idExcpEn true w = true)

/-! ## What the stages compute -/

section

variable {w : BitVec 32} {pc : BitVec 32} {regfile : BitVec 5 → BitVec 32}

theorem aluOut_arithmetic (f : BitVec 3) (alternate : Bool) (pc imm a b : BitVec 32)
    (halt : alternate = true → f = 0 ∨ f = 5) :
    let op := arithmeticOp f alternate true
    aluOut op (aluOperands op pc imm a b).1 (aluOperands op pc imm a b).2 =
      isaAlu f alternate a b := by
  have hneg : ~~~b + 1 = -b := (BitVec.neg_eq_not_add b).symm
  rcases funct3_cases f with rfl | rfl | rfl | rfl | rfl | rfl | rfl | rfl <;>
    cases alternate <;>
    simp_all [arithmeticOp, aluOperands, aluOut, isaAlu, BitVec.sub_eq_add_neg]

theorem aluOut_immediate (f : BitVec 3) (alternate : Bool) (pc imm a b : BitVec 32) :
    let op := arithmeticOp f alternate false
    aluOut op (aluOperands op pc imm a b).1 (aluOperands op pc imm a b).2 =
      isaAlu f (alternate && f = 5) a b := by
  rcases funct3_cases f with rfl | rfl | rfl | rfl | rfl | rfl | rfl | rfl <;>
    cases alternate <;>
    simp [arithmeticOp, aluOperands, aluOut, isaAlu]

theorem esOut_rtype (hop : opcodeOf w = some .rtype)
    (halt : funct7Of w = 0b0100000 → funct3Of w = 0 ∨ funct3Of w = 5) :
    esOut w pc regfile = ⟨isaAlu (funct3Of w) (funct7Of w = 0b0100000)
      (readReg regfile (rs1Of w)) (readReg regfile (rs2Of w)), false, 0, false, 0⟩ := by
  simp only [esOut, idControl, idRs1Data, idRs2Data, idRs1, idRs2, hop, readReg, EsOut.mk.injEq,
    Bool.false_and]
  refine ⟨aluOut_arithmetic _ _ _ _ _ _ fun h => halt (of_decide_eq_true h), ?_⟩
  simp

theorem esOut_itype (hop : opcodeOf w = some .itype) :
    esOut w pc regfile = ⟨isaAlu (funct3Of w) (decide (funct7Of w = 0b0100000) && funct3Of w = 5)
      (readReg regfile (rs1Of w)) 0, false, 0, false, 0⟩ := by
  simp only [esOut, idControl, idRs1Data, idRs2Data, idRs1, idRs2, hop, readReg, EsOut.mk.injEq,
    Bool.false_and, if_true]
  refine ⟨aluOut_immediate _ _ _ _ _ _, ?_⟩
  simp

end

/-! ## Where the results agree -/

/-- An instruction of the M extension, read as one of RV32I, when `x0` is an operand. -/
def mulReadsZero (funct3 : BitVec 3) (zero1 zero2 : Bool) : Bool :=
  match funct3 with
  | 0b000 => zero1 && zero2
  | 0b001 => zero1
  | 0b010 => zero1 && zero2
  | 0b011 => zero2
  | 0b100 => false
  | 0b101 => false
  | 0b110 => zero2
  | 0b111 => zero1

/-- An immediate that does not matter: it is 0, or the register is `x0` and hides it. -/
def immediateHidden (funct3 : BitVec 3) (imm : BitVec 32) (zero1 : Bool) : Bool :=
  match funct3 with
  | 0b010 => imm = 0 || zero1 && !(0 : BitVec 32).slt imm
  | 0b111 => imm = 0 || zero1
  | 0b001 | 0b101 => imm.toNat % 32 = 0 || zero1
  | _ => imm = 0

/-- The words that the two stages implement. -/
def executesRight (w : BitVec 32) : Bool :=
  let f := funct3Of w
  let u := funct7Of w
  match opcodeOf w with
  | some .rtype => u = 0 ∨ u = 0b0100000 ∧ (f = 0 ∨ f = 5) ∨
      u = 1 ∧ mulReadsZero f (rs1Of w = 0) (rs2Of w = 0) = true
  | some .itype => (f = 1 → u = 0) ∧ (f = 5 → u = 0 ∨ u = 0b0100000) ∧
      immediateHidden f (immI w) (rs1Of w = 0) = true
  | some .branch => f ≠ 2 ∧ f ≠ 3
  | some .jalr => f = 0
  | _ => true

theorem readReg_const (r : BitVec 5) (c : BitVec 32) :
    readReg (fun _ => c) r = if r = 0 then 0 else c := rfl

theorem mul_agrees_iff (f : BitVec 3) (r1 r2 : BitVec 5) :
    (∀ regfile, isaAlu f false (readReg regfile r1) (readReg regfile r2) =
      isaMul f (readReg regfile r1) (readReg regfile r2)) ↔
      mulReadsZero f (r1 = 0) (r2 = 0) = true := by
  constructor
  · intro h
    -- equal operands tell the two operations apart
    have h0 := h fun _ => 0
    have h1 := h fun _ => 1
    have hm := h fun _ => -1
    simp only [readReg_const] at h0 h1 hm
    rcases funct3_cases f with rfl | rfl | rfl | rfl | rfl | rfl | rfl | rfl <;>
      by_cases hz1 : r1 = 0 <;> by_cases hz2 : r2 = 0 <;>
      simp only [hz1, hz2, if_true, if_false] at h0 h1 hm ⊢ <;>
      first
        | rfl
        | exact absurd h1 (by decide)
        | exact absurd h0 (by decide)
        | exact absurd hm (by decide)
  · intro h regfile
    rcases funct3_cases f with rfl | rfl | rfl | rfl | rfl | rfl | rfl | rfl <;>
      simp only [mulReadsZero, Bool.and_eq_true, decide_eq_true_eq, Bool.false_eq_true] at h <;>
      simp [isaAlu, isaMul, readReg, h, BitVec.ult]

theorem shift_one_eq : ∀ k < 32, ((1 : BitVec 32) <<< k = 1 → k = 0) ∧
    ((1 : BitVec 32) >>> k = 1 → k = 0) ∧ ((1 : BitVec 32).sshiftRight k = 1 → k = 0) := by
  decide

theorem eq_zero_of_slt {x : BitVec 32} (h1 : x.slt 0 = false) (h2 : (0 : BitVec 32).slt x = false) :
    x = 0 := by
  have h1' : ¬ x.toInt < 0 := by simpa [BitVec.slt] using h1
  have h2' : ¬ 0 < x.toInt := by simpa [BitVec.slt] using h2
  refine BitVec.eq_of_toInt_eq ?_
  rw [show (0 : BitVec 32).toInt = 0 from rfl]
  omega

theorem immediate_shows (imm : BitVec 32) :
    ((0#32 + 0#32 = 0#32 + imm) → imm = 0#32) ∧ ((0#32 ^^^ 0#32 = 0#32 ^^^ imm) → imm = 0#32) ∧
    ((0#32 ||| 0#32 = 0#32 ||| imm) → imm = 0#32) ∧
    ((imm &&& 0#32 = imm &&& imm) → imm = 0#32) ∧
    (((if (0#32).ult 0#32 then 1#32 else 0#32) = if (0#32).ult imm then 1#32 else 0#32) →
      imm = 0#32) := by
  refine ⟨?_, ?_, ?_, ?_, ?_⟩
  · intro h
    simpa using h.symm
  · intro h
    simpa using h.symm
  · intro h
    simpa using h.symm
  · intro h
    simpa using h.symm
  · intro h
    by_contra hne
    have hpos : (0#32).ult imm = true := by
      simpa [BitVec.ult, Nat.pos_iff_ne_zero] using fun hz : imm.toNat = 0 =>
        hne (BitVec.eq_of_toNat_eq hz)
    simp [hpos] at h

theorem slt_ite_eq {p q : Bool}
    (h : (if p = true then 1#32 else 0#32) = if q = true then 1#32 else 0#32) : p = q := by
  cases p <;> cases q <;> simp_all

theorem immediate_agrees_iff (f : BitVec 3) (alternate : Bool) (r1 : BitVec 5) (imm : BitVec 32)
    (halt : alternate = true → f = 5) :
    (∀ regfile, isaAlu f alternate (readReg regfile r1) 0 =
      isaAlu f alternate (readReg regfile r1) imm) ↔
      immediateHidden f imm (r1 = 0) = true := by
  have hplain : f ≠ 5 → alternate = false := by
    intro hf
    cases alternate
    · rfl
    · exact absurd (halt rfl) hf
  constructor
  · intro h
    have h0 := h fun _ => 0
    have h1 := h fun _ => 1
    have hi := h fun _ => imm
    simp only [readReg_const, ite_self] at h0 h1 hi
    have hk := shift_one_eq (imm.toNat % 32) (Nat.mod_lt _ (by decide))
    obtain ⟨hadd, hxor, hor, hand, hult⟩ := immediate_shows imm
    rcases funct3_cases f with rfl | rfl | rfl | rfl | rfl | rfl | rfl | rfl
    · rw [hplain (by decide)] at h0
      exact decide_eq_true (hadd h0)
    · by_cases hr : r1 = 0
      · simp [immediateHidden, hr]
      · rw [if_neg hr] at h1
        simp [immediateHidden, hk.1 h1.symm]
    · have hlt : (0#32).slt imm = false :=
        (slt_ite_eq (show (if (0#32).slt 0#32 = true then 1#32 else 0#32) =
          if (0#32).slt imm = true then 1#32 else 0#32 from h0)).symm
      by_cases hr : r1 = 0
      · simp [immediateHidden, hr, hlt]
      · rw [if_neg hr] at hi
        have hneg : imm.slt 0#32 = imm.slt imm :=
          slt_ite_eq (show (if imm.slt 0#32 = true then 1#32 else 0#32) =
            if imm.slt imm = true then 1#32 else 0#32 from hi)
        have hirrefl : imm.slt imm = false := by simp [BitVec.slt]
        simp [immediateHidden, eq_zero_of_slt (hneg.trans hirrefl) hlt]
    · exact decide_eq_true (hult h0)
    · exact decide_eq_true (hxor h0)
    · by_cases hr : r1 = 0
      · simp [immediateHidden, hr]
      · rw [if_neg hr] at h1
        have hzero : imm.toNat % 32 = 0 := by
          cases alternate
          · exact hk.2.1 h1.symm
          · exact hk.2.2 h1.symm
        simp [immediateHidden, hzero]
    · exact decide_eq_true (hor h0)
    · by_cases hr : r1 = 0
      · simp [immediateHidden, hr]
      · rw [if_neg hr] at hi
        simp [immediateHidden, hand hi]
  · intro h regfile
    rcases funct3_cases f with rfl | rfl | rfl | rfl | rfl | rfl | rfl | rfl
    · rw [show imm = 0 from of_decide_eq_true h]
    · have hh : imm.toNat % 32 = 0 ∨ r1 = 0 := by simpa [immediateHidden] using h
      rcases hh with hh | hh <;> simp [isaAlu, readReg, hh]
    · have hh : imm = 0#32 ∨ r1 = 0 ∧ (0#32).slt imm = false := by
        simpa [immediateHidden] using h
      rcases hh with hh | ⟨hr, hh⟩
      · rw [hh]
        rfl
      · simp [isaAlu, readReg, hr, hh]
    · rw [show imm = 0 from of_decide_eq_true h]
    · rw [show imm = 0 from of_decide_eq_true h]
    · have hh : imm.toNat % 32 = 0 ∨ r1 = 0 := by simpa [immediateHidden] using h
      rcases hh with hh | hh <;> cases alternate <;> simp [isaAlu, readReg, hh]
    · rw [show imm = 0 from of_decide_eq_true h]
    · have hh : imm = 0#32 ∨ r1 = 0 := by simpa [immediateHidden] using h
      rcases hh with hh | hh
      · rw [hh]
        rfl
      · simp [isaAlu, readReg, hh]

/-! ## All words -/

section

variable {w : BitVec 32}

theorem implements_rtype (hop : opcodeOf w = some .rtype) :
    Implements w ↔ executesRight w = true := by
  have hexcp : idExcpEn true w = false := by simp [idExcpEn, idControl, hop]
  by_cases hlegal : legal w = true
  · have hl : funct7Of w = 0 ∨ funct7Of w = 1 ∨
        funct7Of w = 0b0100000 ∧ (funct3Of w = 0 ∨ funct3Of w = 5) := by
      simpa [legal, hop] using hlegal
    have halt : funct7Of w = 0b0100000 → funct3Of w = 0 ∨ funct3Of w = 5 := by
      intro h32
      rw [h32] at hl
      rcases hl with hl | hl | hl
      · exact absurd hl (by decide)
      · exact absurd hl (by decide)
      · exact hl.2
    have hmeets : Implements w ↔ ∀ regfile, isaAlu (funct3Of w) (funct7Of w = 0b0100000)
        (readReg regfile (rs1Of w)) (readReg regfile (rs2Of w)) =
          if funct7Of w = 1 then
            isaMul (funct3Of w) (readReg regfile (rs1Of w)) (readReg regfile (rs2Of w))
          else isaAlu (funct3Of w) (funct7Of w = 0b0100000)
            (readReg regfile (rs1Of w)) (readReg regfile (rs2Of w)) := by
      simp [Implements, hlegal, isaExec, hop, EsOut.Meets, esOut_rtype hop halt]
    rw [hmeets]
    by_cases hm : funct7Of w = 1
    · simp only [hm, if_true]
      rw [show decide ((1 : BitVec 7) = 0b0100000) = false from rfl, mul_agrees_iff]
      simp [executesRight, hop, hm]
    · simp only [hm, if_false, implies_true, true_iff]
      simp only [executesRight, hop, decide_eq_true_eq]
      tauto
  · have hl : ¬ (funct7Of w = 0 ∨ funct7Of w = 1 ∨
        funct7Of w = 0b0100000 ∧ (funct3Of w = 0 ∨ funct3Of w = 5)) := by
      simpa [legal, hop] using hlegal
    constructor
    · intro h
      exact absurd ((h.2 (Bool.eq_false_iff.mpr hlegal)).symm.trans hexcp) (by decide)
    · intro h
      simp only [executesRight, hop, decide_eq_true_eq] at h
      tauto

theorem implements_itype (hop : opcodeOf w = some .itype) :
    Implements w ↔ executesRight w = true := by
  have hexcp : idExcpEn true w = false := by simp [idExcpEn, idControl, hop]
  have hright : executesRight w = true ↔
      legal w = true ∧ immediateHidden (funct3Of w) (immI w) (rs1Of w = 0) = true := by
    simp [executesRight, legal, hop, and_assoc]
  rw [hright]
  by_cases hlegal : legal w = true
  · have hagree := immediate_agrees_iff (funct3Of w)
      (decide (funct7Of w = 0b0100000) && funct3Of w = 5) (rs1Of w) (immI w) (by simp)
    simp only [Implements, hlegal, isaExec, hop, esOut_itype hop, EsOut.Meets, true_and, ← hagree]
    simp [Bool.and_comm, and_comm]
  · constructor
    · intro h
      exact absurd ((h.2 (Bool.eq_false_iff.mpr hlegal)).symm.trans hexcp) (by decide)
    · exact fun h => absurd h.1 hlegal

theorem branchCond_eq_isaBranch (f : BitVec 3) (a b : BitVec 32) :
    branchCond true f a b = isaBranch f a b := by
  rcases funct3_cases f with rfl | rfl | rfl | rfl | rfl | rfl | rfl | rfl <;> rfl

theorem implements_branch (hop : opcodeOf w = some .branch) :
    Implements w ↔ executesRight w = true := by
  have hright : executesRight w = legal w := by simp [executesRight, legal, hop]
  have hexcp : idExcpEn true w = false := by simp [idExcpEn, idControl, hop]
  rw [hright]
  constructor
  · intro h
    by_contra hlegal
    exact absurd ((h.2 (Bool.eq_false_iff.mpr hlegal)).symm.trans hexcp) (by decide)
  · intro hlegal
    refine ⟨fun _ pc regfile spec hspec => ?_, fun h => absurd (h.symm.trans hlegal) (by decide)⟩
    simp only [isaExec, hop, Option.some.injEq] at hspec
    subst hspec
    simp only [EsOut.Meets, esOut, idControl, idRs1Data, idRs2Data, idRs1, idRs2, idImm, hop,
      branchCond_eq_isaBranch, readReg, Bool.true_and]
    refine ⟨by simp, ?_, by simp⟩
    split <;> simp_all

theorem implements_jalr (hop : opcodeOf w = some .jalr) :
    Implements w ↔ executesRight w = true := by
  have hright : executesRight w = legal w := by simp [executesRight, legal, hop]
  have hexcp : idExcpEn true w = false := by simp [idExcpEn, idControl, hop]
  rw [hright]
  constructor
  · intro h
    by_contra hlegal
    exact absurd ((h.2 (Bool.eq_false_iff.mpr hlegal)).symm.trans hexcp) (by decide)
  · intro hlegal
    refine ⟨fun _ pc regfile spec hspec => ?_, fun h => absurd (h.symm.trans hlegal) (by decide)⟩
    simp only [isaExec, hop, Option.some.injEq] at hspec
    subst hspec
    simp [EsOut.Meets, esOut, idControl, idRs1Data, idRs1, idImm, hop, readReg, aluOperands, aluOut]

theorem implements_upper (hop : opcodeOf w = some .lui ∨ opcodeOf w = some .auipc ∨
    opcodeOf w = some .jal) : Implements w := by
  refine ⟨fun _ pc regfile spec hspec => ?_, ?_⟩
  · rcases hop with hop | hop | hop <;>
      simp only [isaExec, hop, Option.some.injEq] at hspec <;> subst hspec <;>
      simp [EsOut.Meets, esOut, idControl, idImm, hop, aluOperands, aluOut]
  · intro h
    rcases hop with hop | hop | hop <;> simp [legal, hop] at h

theorem implements_other (hop : opcodeOf w = some .load ∨ opcodeOf w = some .store ∨
    opcodeOf w = some .csr ∨ opcodeOf w = none) : Implements w := by
  refine ⟨fun _ pc regfile spec hspec => ?_, fun h => ?_⟩
  · rcases hop with hop | hop | hop | hop <;> simp [isaExec, hop] at hspec
  · rcases hop with hop | hop | hop | hop <;>
      simp [legal, idExcpEn, idControl, hop] at h ⊢ <;> tauto

end

end YHsys.Cpu
