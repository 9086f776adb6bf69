import Mathlib.Data.BitVec

/-!
# Traps: `exception_unit` (`csr.v`) and the fetch stage (`if_stage.v`)

Both modules as they compute, one clock edge a step. `exception_unit` has one CSR write
port. On a trap it assigns three writes to the port's registers in one block, and of
several nonblocking assignments to a register the last one counts.

The repository has no module that connects the two; `Core` connects the ports that belong
together by name and comment: `core_stall` and `excp_flush`, and `pc_redirect_en` and
`pc_redirect_addr` to `int_trap_en` and `trap_pc`.
-/

namespace YHsys.Cpu

/-! ## Arbitration -/

/-- The exception wires of a pipeline stage. -/
structure StageExcp where
  en : Bool
  code : BitVec 4
  pc : BitVec 32
deriving DecidableEq, Repr

/-- The input wires of `exception_unit` that it reads. -/
structure ExcpIn where
  ifExcp : StageExcp
  idExcp : StageExcp
  exExcp : StageExcp
  memExcp : StageExcp
  extIrq : Bool
  timerIrq : Bool
  softIrq : Bool
  mstatus : BitVec 32
  mtvec : BitVec 32
  stvec : BitVec 32
  medeleg : BitVec 32
  mideleg : BitVec 32
  mie : BitVec 32
  mip : BitVec 32
  curPriv : BitVec 2
deriving DecidableEq, Repr

/-- `trap_en`, `trap_code`, `trap_pc`, `is_irq`, `trap_to_s` and `is_ecall`. -/
structure TrapReq where
  en : Bool
  code : BitVec 4
  pc : BitVec 32
  isIrq : Bool
  toS : Bool
  isEcall : Bool
deriving DecidableEq, Repr

/-- `PRIV_U`, `PRIV_S`, `PRIV_M`. -/
def privUser : BitVec 2 := 0b00
def privSupervisor : BitVec 2 := 0b01
def privMachine : BitVec 2 := 0b11

/-- `EXC_ECALL_U`, `EXC_ECALL_S`, `EXC_ECALL_M` (`riscv_excp_defines.h`). -/
def excEcallU : BitVec 4 := 8
def excEcallS : BitVec 4 := 9
def excEcallM : BitVec 4 := 11

/-- `EXC_SOFT_IRQ`, `EXC_TIMER_IRQ`, `EXC_EXT_IRQ`. -/
def excSoftIrq : BitVec 4 := 0
def excTimerIrq : BitVec 4 := 1
def excExtIrq : BitVec 4 := 2

namespace ExcpIn

variable (i : ExcpIn)

/-- Interrupts are enabled at the current privilege. -/
def irqEnabled : Bool :=
  (i.curPriv == privMachine && i.mstatus.getLsbD 3) ||
    (i.curPriv == privSupervisor && i.mstatus.getLsbD 1) || i.curPriv == privUser

/-- No trap. -/
def noTrap : TrapReq := ⟨false, 0, 0, false, false, false⟩

/-- An interrupt; `trap_pc` keeps its default. -/
def irqTrap (code : BitVec 4) (toS : Bool) : TrapReq := ⟨true, code, 0, true, toS, false⟩

/-- An exception of a stage. Only the last two stages look for an `ecall`. -/
def stageTrap (x : StageExcp) (ecalls : Bool) : TrapReq where
  en := true
  code := x.code
  pc := x.pc
  isIrq := false
  toS := i.medeleg.getLsbD x.code.toNat
  isEcall := ecalls && (x.code == excEcallU || x.code == excEcallS || x.code == excEcallM)

/-- The part of the arbitration for interrupts (`csr.v:98`). -/
def interrupt : TrapReq :=
  if i.irqEnabled then
    if i.extIrq && i.mie.getLsbD 11 && i.mip.getLsbD 11 then
      irqTrap excExtIrq (i.mideleg.getLsbD 11)
    else if i.timerIrq && i.mie.getLsbD 7 && i.mip.getLsbD 7 then
      irqTrap excTimerIrq (i.mideleg.getLsbD 7)
    else if i.softIrq && i.mie.getLsbD 3 && i.mip.getLsbD 3 then
      irqTrap excSoftIrq (i.mideleg.getLsbD 3)
    else noTrap
  else noTrap

/-- The arbitration (`csr.v:86`): exceptions override interrupts, the oldest one first. -/
def arbitrate : TrapReq :=
  let t :=
    if i.memExcp.en then i.stageTrap i.memExcp true
    else if i.exExcp.en then i.stageTrap i.exExcp true
    else if i.idExcp.en then i.stageTrap i.idExcp false
    else if i.ifExcp.en then i.stageTrap i.ifExcp false
    else i.interrupt
  if t.isEcall then { t with toS := i.curPriv == privUser } else t

end ExcpIn

/-! ## The CSR write port -/

/-- CSR addresses (`riscv_csr_defines.h`). -/
def csrMstatus : BitVec 12 := 0x300
def csrMepc : BitVec 12 := 0x341
def csrMcause : BitVec 12 := 0x342
def csrSstatus : BitVec 12 := 0x100
def csrSepc : BitVec 12 := 0x141
def csrScause : BitVec 12 := 0x142

/-- A write through the port. -/
structure CsrWrite where
  en : Bool
  addr : BitVec 12
  data : BitVec 32
deriving DecidableEq, Repr

/-- `{27'b0, is_irq, 4'b0, trap_code}`: 36 bits for a register of 32. -/
def TrapReq.cause (t : TrapReq) : BitVec 32 :=
  (0#27 ++ BitVec.ofBool t.isIrq ++ 0#4 ++ t.code : BitVec 36).setWidth 32

/-- `mstatus` with `SPIE = SIE`, `SIE = 0` and the privilege in bits 12 and 11. -/
def enterS (mstatus : BitVec 32) (priv : BitVec 2) : BitVec 32 :=
  mstatus.extractLsb' 13 19 ++ priv ++ mstatus.extractLsb' 6 5 ++ mstatus.extractLsb' 1 1 ++
    mstatus.extractLsb' 2 3 ++ 0#1 ++ mstatus.extractLsb' 0 1

/-- `mstatus` with `MPIE = MIE`, `MIE = 0` and the privilege in `MPP`. -/
def enterM (mstatus : BitVec 32) (priv : BitVec 2) : BitVec 32 :=
  mstatus.extractLsb' 13 19 ++ priv ++ mstatus.extractLsb' 8 3 ++ mstatus.extractLsb' 3 1 ++
    mstatus.extractLsb' 4 3 ++ 0#1 ++ mstatus.extractLsb' 0 3

/-- The registers of `exception_unit`. -/
structure ExcpUnit where
  csrWr : CsrWrite
  pcRedirectEn : Bool
  pcRedirectAddr : BitVec 32
  inTrap : Bool
deriving DecidableEq, Repr

namespace ExcpUnit

variable (u : ExcpUnit)

/-- Assign a write to the port. -/
def csrWrite (addr : BitVec 12) (data : BitVec 32) : ExcpUnit :=
  { u with csrWr := ⟨true, addr, data⟩ }

/-- The clocked block (`csr.v:165`) without reset. -/
def clock (i : ExcpIn) : ExcpUnit :=
  let t := i.arbitrate
  if t.en && !u.inTrap then
    let u := { u with inTrap := true, pcRedirectEn := true }
    if t.toS then
      let u := u.csrWrite csrSepc t.pc
      let u := u.csrWrite csrScause t.cause
      let u := u.csrWrite csrSstatus (enterS i.mstatus i.curPriv)
      { u with pcRedirectAddr := i.stvec }
    else
      let u := u.csrWrite csrMepc t.pc
      let u := u.csrWrite csrMcause t.cause
      let u := u.csrWrite csrMstatus (enterM i.mstatus i.curPriv)
      { u with pcRedirectAddr := i.mtvec }
  else { u with csrWr := ⟨false, 0, 0⟩, pcRedirectEn := false, inTrap := false }

end ExcpUnit

/-! ## The fetch stage -/

/-- `PC_INIT_VAL`. -/
def pcInitVal : BitVec 32 := 0x80000000

/-- The instruction `addi x0, x0, 0`. -/
def nop : BitVec 32 := 0x00000013

/-- The input wires of `if_stage`. -/
structure IfIn where
  coreStall : Bool
  excpFlush : Bool
  predFlush : Bool
  intTrapEn : Bool
  trapPc : BitVec 32
  branchTaken : Bool
  branchTarget : BitVec 32
  jumpTaken : Bool
  jumpTarget : BitVec 32
  mretReady : Bool
  mepc : BitVec 32
  mmuReady : Bool
  mmuExcpEn : Bool
  mmuPaddr : BitVec 32
  imemInst : BitVec 32
deriving DecidableEq, Repr

/-- The registers of `if_stage`; the fetch address `if_vaddr` is `if_pc`. -/
structure IfStage where
  pc : BitVec 32
  inst : BitVec 32
  valid : Bool
  imemAddr : BitVec 32
deriving DecidableEq, Repr

namespace IfStage

variable (f : IfStage)

/-- `next_pc` (`if_stage.v:53`). -/
def nextPc (i : IfIn) : BitVec 32 :=
  if i.intTrapEn then i.trapPc
  else if i.mretReady then i.mepc
  else if i.jumpTaken then i.jumpTarget
  else if i.branchTaken then i.branchTarget
  else f.pc + 4

/-- The two clocked blocks (`if_stage.v:77`) without reset. -/
def clock (i : IfIn) : IfStage :=
  let pc :=
    if i.excpFlush || i.predFlush then pcInitVal
    else if i.coreStall || !i.mmuReady then f.pc
    else f.nextPc i
  if i.excpFlush || i.predFlush || i.mmuExcpEn then ⟨pc, nop, false, pcInitVal⟩
  else if i.coreStall || !i.mmuReady then ⟨pc, f.inst, false, f.imemAddr⟩
  else ⟨pc, i.imemInst, true, i.mmuPaddr⟩

end IfStage

/-! ## The two together -/

/-- The input wires of `if_stage` that do not come from `exception_unit`. -/
structure FetchIn where
  predFlush : Bool
  branchTaken : Bool
  branchTarget : BitVec 32
  jumpTaken : Bool
  jumpTarget : BitVec 32
  mretReady : Bool
  mepc : BitVec 32
  mmuReady : Bool
  mmuExcpEn : Bool
  mmuPaddr : BitVec 32
  imemInst : BitVec 32
deriving DecidableEq, Repr

structure CoreIn where
  excp : ExcpIn
  fetch : FetchIn
deriving DecidableEq, Repr

structure Core where
  unit : ExcpUnit
  ifs : IfStage
deriving DecidableEq, Repr

namespace Core

variable (c : Core)

/-- The wires of `if_stage` in a cycle. -/
def ifIn (i : CoreIn) : IfIn where
  coreStall := i.excp.arbitrate.en
  excpFlush := i.excp.arbitrate.en
  predFlush := i.fetch.predFlush
  intTrapEn := c.unit.pcRedirectEn
  trapPc := c.unit.pcRedirectAddr
  branchTaken := i.fetch.branchTaken
  branchTarget := i.fetch.branchTarget
  jumpTaken := i.fetch.jumpTaken
  jumpTarget := i.fetch.jumpTarget
  mretReady := i.fetch.mretReady
  mepc := i.fetch.mepc
  mmuReady := i.fetch.mmuReady
  mmuExcpEn := i.fetch.mmuExcpEn
  mmuPaddr := i.fetch.mmuPaddr
  imemInst := i.fetch.imemInst

/-- One cycle. -/
def clock (i : CoreIn) : Core := ⟨c.unit.clock i.excp, c.ifs.clock (c.ifIn i)⟩

/-- `exception_unit` accepts a trap to S-mode at this edge. -/
def AcceptsS (i : CoreIn) : Prop :=
  i.excp.arbitrate.en = true ∧ c.unit.inTrap = false ∧ i.excp.arbitrate.toS = true

instance (i : CoreIn) : Decidable (c.AcceptsS i) := inferInstanceAs (Decidable (_ ∧ _))

/-- The fetch stage passes on an instruction at this edge, from the address `pc`. -/
def Fetches (i : CoreIn) : Prop := (c.clock i).ifs.valid = true

end Core

/-- A run: the state in each cycle, with the wires of that cycle. -/
structure CoreRun where
  state : ℕ → Core
  wires : ℕ → CoreIn
  edge : ∀ n, state (n + 1) = (state n).clock (wires n)

namespace CoreRun

variable (r : CoreRun)

/-- What `scause` must be: the code of an exception, a value with bit 31 for an interrupt. -/
def CauseOk (t : TrapReq) (v : BitVec 32) : Prop :=
  if t.isIrq then v.getLsbD 31 = true else v = t.code.setWidth 32

/-- The trap accepted in cycle `n` reaches the kernel: writes set `sepc` to the PC `pc` of
the instruction and `scause`, and the fetch stage goes on at `stvec` without an instruction
from elsewhere in between. -/
structure Delivered (n : ℕ) (pc : BitVec 32) : Prop where
  sepc : ∃ k, n < k ∧ (r.state k).unit.csrWr = ⟨true, csrSepc, pc⟩
  scause : ∃ k v, n < k ∧ (r.state k).unit.csrWr = ⟨true, csrScause, v⟩ ∧
    CauseOk (r.wires n).excp.arbitrate v
  fetch : ∃ k, n < k ∧ (r.state k).ifs.pc = (r.wires n).excp.stvec ∧
    ∀ j, n < j → j < k → ¬ (r.state j).Fetches (r.wires j)

end CoreRun

/-! ## What traps do -/

theorem ExcpUnit.clock_accepts {u : ExcpUnit} {i : ExcpIn} (hen : i.arbitrate.en = true)
    (hin : u.inTrap = false) (hs : i.arbitrate.toS = true) :
    u.clock i = ⟨⟨true, csrSstatus, enterS i.mstatus i.curPriv⟩, true, i.stvec, true⟩ := by
  unfold ExcpUnit.clock
  dsimp only
  rw [hen, hin, if_pos (show (true && !false) = true from rfl), if_pos hs]
  rfl

theorem ExcpUnit.clock_csrWr (u : ExcpUnit) (i : ExcpIn) :
    (u.clock i).csrWr.en = true →
      (u.clock i).csrWr.addr = csrSstatus ∨ (u.clock i).csrWr.addr = csrMstatus := by
  unfold ExcpUnit.clock
  dsimp only
  split_ifs
  · exact fun _ => .inl rfl
  · exact fun _ => .inr rfl
  · exact nofun

theorem IfStage.clock_flush (f : IfStage) {i : IfIn} (h : i.excpFlush = true) :
    f.clock i = ⟨pcInitVal, nop, false, pcInitVal⟩ := by
  unfold IfStage.clock
  simp [h]

namespace CoreRun

variable {r : CoreRun}

theorem csrWr_ne {n k : ℕ} (hk : n < k) {addr : BitVec 12} {v : BitVec 32} (hs : addr ≠ csrSstatus)
    (hm : addr ≠ csrMstatus) : (r.state k).unit.csrWr ≠ ⟨true, addr, v⟩ := by
  intro h
  obtain ⟨j, rfl⟩ : ∃ j, k = j + 1 := ⟨k - 1, by omega⟩
  rw [r.edge j] at h
  have hcases := ExcpUnit.clock_csrWr (r.state j).unit (r.wires j).excp
  have h' : ((r.state j).unit.clock (r.wires j).excp).csrWr = ⟨true, addr, v⟩ := h
  rw [h'] at hcases
  rcases hcases rfl with heq | heq
  · exact hs heq
  · exact hm heq

end CoreRun

/-- **Traps do not reach the kernel.** For every trap that is accepted with delegation to
S-mode, in any state: no later write through the CSR port sets `sepc` or `scause`, so the
trap is not delivered, whatever PC is asked for. What the edge does: the port writes
`sstatus`, the redirect to `stvec` is raised, and the PC is set to its reset value. -/
theorem trap_not_delivered (r : CoreRun) {n : ℕ} (h : (r.state n).AcceptsS (r.wires n)) :
    (∀ pc, ¬ r.Delivered n pc) ∧
    (∀ k v, n < k → (r.state k).unit.csrWr ≠ ⟨true, csrSepc, v⟩ ∧
      (r.state k).unit.csrWr ≠ ⟨true, csrScause, v⟩) ∧
    (r.state (n + 1)).unit.csrWr =
      ⟨true, csrSstatus, enterS (r.wires n).excp.mstatus (r.wires n).excp.curPriv⟩ ∧
    (r.state (n + 1)).unit.pcRedirectEn = true ∧
    (r.state (n + 1)).unit.pcRedirectAddr = (r.wires n).excp.stvec ∧
    (r.state (n + 1)).ifs.pc = pcInitVal := by
  have hport : ∀ k v, n < k → (r.state k).unit.csrWr ≠ ⟨true, csrSepc, v⟩ ∧
      (r.state k).unit.csrWr ≠ ⟨true, csrScause, v⟩ := fun k v hk =>
    ⟨CoreRun.csrWr_ne hk (by decide) (by decide), CoreRun.csrWr_ne hk (by decide) (by decide)⟩
  have hunit := (congrArg Core.unit (r.edge n)).trans (ExcpUnit.clock_accepts h.1 h.2.1 h.2.2)
  have hifs := (congrArg Core.ifs (r.edge n)).trans
    (IfStage.clock_flush (r.state n).ifs (show ((r.state n).ifIn (r.wires n)).excpFlush = true from h.1))
  refine ⟨fun pc hd => ?_, hport, by rw [hunit], by rw [hunit], by rw [hunit], by rw [hifs]⟩
  obtain ⟨k, hk, hwr⟩ := hd.sepc
  exact (hport k pc hk).1 hwr

/-! ## A system call -/

/-- Quiet wires in user mode. -/
def quietIn : CoreIn where
  excp := ⟨⟨false, 0, 0⟩, ⟨false, 0, 0⟩, ⟨false, 0, 0⟩, ⟨false, 0, 0⟩, false, false, false, 0,
    0x80000100, 0x3ffff000, 0, 0, 0, 0, privUser⟩
  fetch := ⟨false, false, 0, false, 0, false, 0, true, false, 0x80000000, nop⟩

/-- An `ecall` at `0x1000` reaches the memory stage. -/
def ecallIn : CoreIn := { quietIn with excp := { quietIn.excp with memExcp := ⟨true, excEcallU, 0x1000⟩ } }

/-- The `ecall` comes in the first cycle. -/
def ecallRun : CoreRun where
  state := Nat.rec ⟨⟨⟨false, 0, 0⟩, false, 0x80000000, false⟩, ⟨0x1010, nop, true, 0x100c⟩⟩
    fun n c => c.clock (if n = 0 then ecallIn else quietIn)
  wires n := if n = 0 then ecallIn else quietIn
  edge _ := rfl

/-- The system call is accepted, but `sepc` and `scause` are never written, and the fetch
stage passes on the instruction at `0x80000000` before it goes to `stvec`. -/
theorem ecall_not_delivered :
    (ecallRun.state 0).AcceptsS (ecallRun.wires 0) ∧ ¬ ecallRun.Delivered 0 0x1000 ∧
      (ecallRun.state 1).ifs.pc = 0x80000000 ∧ (ecallRun.state 1).Fetches (ecallRun.wires 1) ∧
      (ecallRun.state 2).ifs.pc = 0x3ffff000 := by
  refine ⟨by decide, fun hd => ?_, by decide, (by decide : _ = true), by decide⟩
  obtain ⟨k, hk, hwr⟩ := hd.sepc
  exact CoreRun.csrWr_ne hk (by decide) (by decide) hwr

theorem trap_not_delivered_ecall :
    (ecallRun.state 0).AcceptsS (ecallRun.wires 0) ∧ (∀ pc, ¬ ecallRun.Delivered 0 pc) :=
  ⟨by decide, (trap_not_delivered ecallRun (by decide)).1⟩

end YHsys.Cpu
