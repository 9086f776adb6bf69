import YHsys.Compiler.Codegen
import YHsys.Compiler.OptimizeSound

/-!
# The RV32 machine

What the assembly of the back end does: 32-bit registers, a memory of bytes, and a program
counter that counts the lines of the text. `Rv.apply` is the effect of an instruction that goes
on with the next line, `step` one line of a run. An `ecall` is left to the system, and
`data` gives the addresses of the strings.
-/

namespace YHsys.Compiler

open Function (update update_apply update_of_ne update_self)

/-- The results of the `M` extension by zero are as the manual has them. -/
def AluOp.eval (op : AluOp) (x y : BitVec 32) : BitVec 32 :=
  match op with
  | .add => x + y
  | .sub => x - y
  | .mul => x * y
  | .div => if y = 0 then -1 else x.sdiv y
  | .rem => if y = 0 then x else x.srem y
  | .divu => if y = 0 then -1 else x / y
  | .remu => if y = 0 then x else x % y
  | .sll => x <<< (y.toNat % 32)
  | .sra => x.sshiftRight (y.toNat % 32)
  | .and => x &&& y
  | .or => x ||| y
  | .xor => x ^^^ y
  | .slt => boolWord (x.slt y)

def BranchOp.holds (op : BranchOp) (x y : BitVec 32) : Bool :=
  match op with
  | .beq => x == y
  | .bne => x != y
  | .bge => !x.slt y

structure Machine where
  regs : Reg → BitVec 32
  mem : BitVec 32 → BitVec 8
  pc : ℕ

namespace Machine

/-- The value of a register; `zero` is always 0. -/
def get (m : Machine) (r : Reg) : BitVec 32 := if r = .zero then 0 else m.regs r

def set (m : Machine) (r : Reg) (v : BitVec 32) : Machine :=
  { m with regs := update m.regs r v }

def next (m : Machine) : Machine := { m with pc := m.pc + 1 }

def goto (m : Machine) (p : ℕ) : Machine := { m with pc := p }

/-- The word at an address, its low byte first. -/
def loadWord (m : Machine) (a : BitVec 32) : BitVec 32 :=
  m.mem (a + 3) ++ m.mem (a + 2) ++ m.mem (a + 1) ++ m.mem a

def storeByte (m : Machine) (a : BitVec 32) (v : BitVec 8) : Machine :=
  { m with mem := update m.mem a v }

def storeWord (m : Machine) (a v : BitVec 32) : Machine :=
  (((m.storeByte a (v.extractLsb' 0 8)).storeByte (a + 1) (v.extractLsb' 8 8)).storeByte (a + 2)
    (v.extractLsb' 16 8)).storeByte (a + 3) (v.extractLsb' 24 8)

@[simp] theorem get_zero (m : Machine) : m.get .zero = 0 := rfl

theorem get_set_self (m : Machine) {r : Reg} (v : BitVec 32) (h : r ≠ .zero) :
    (m.set r v).get r = v := by
  simp [get, set, h]

theorem get_set_of_ne (m : Machine) {r r' : Reg} (v : BitVec 32) (h : r ≠ r') :
    (m.set r' v).get r = m.get r := by
  simp [get, set, update_of_ne h]

@[simp] theorem get_next (m : Machine) (r : Reg) : m.next.get r = m.get r := by
  simp only [get, next]

@[simp] theorem pc_goto (m : Machine) (p : ℕ) : (m.goto p).pc = p := rfl

@[simp] theorem get_storeWord (m : Machine) (a v : BitVec 32) (r : Reg) :
    (m.storeWord a v).get r = m.get r := by
  simp only [get, storeWord, storeByte]

@[simp] theorem pc_next (m : Machine) : m.next.pc = m.pc + 1 := rfl

@[simp] theorem loadWord_set (m : Machine) (r : Reg) (v a : BitVec 32) :
    (m.set r v).loadWord a = m.loadWord a := by
  simp only [loadWord, set]

@[simp] theorem loadWord_next (m : Machine) (a : BitVec 32) : m.next.loadWord a = m.loadWord a := by
  simp only [loadWord, next]

theorem bytes_append (v : BitVec 32) :
    v.extractLsb' 24 8 ++ v.extractLsb' 16 8 ++ v.extractLsb' 8 8 ++ v.extractLsb' 0 8 = v := by
  refine BitVec.eq_of_getLsbD_eq fun i hi => ?_
  simp only [BitVec.getLsbD_append, BitVec.getLsbD_extractLsb']
  by_cases h1 : i < 8
  · simp [h1]
  · by_cases h2 : i - 8 < 8
    · simp [h1, h2, show 8 + (i - 8) = i by omega]
    · by_cases h3 : i - 8 - 8 < 8
      · simp [h1, h2, h3, show 16 + (i - 8 - 8) = i by omega]
      · simp [h1, h2, h3, show i - 8 - 8 - 8 < 8 by omega, show 24 + (i - 8 - 8 - 8) = i by omega]

@[simp] theorem loadWord_storeWord (m : Machine) (a v : BitVec 32) :
    (m.storeWord a v).loadWord a = v := by
  have h01 : a ≠ a + 1 := by bv_omega
  have h02 : a ≠ a + 2 := by bv_omega
  have h03 : a ≠ a + 3 := by bv_omega
  have h12 : a + 1 ≠ a + 2 := by bv_omega
  have h13 : a + 1 ≠ a + 3 := by bv_omega
  have h23 : a + 2 ≠ a + 3 := by bv_omega
  simp only [loadWord, storeWord, storeByte, update_self, update_of_ne h01,
    update_of_ne h02, update_of_ne h03, update_of_ne h12,
    update_of_ne h13, update_of_ne h23]
  exact bytes_append v

end Machine

/-! ## Instructions -/

/-- The effect of an instruction after which the next line follows. -/
def Rv.apply (data : AsmLabel → BitVec 32) (m : Machine) : Rv → Machine
  | .alu op rd rs1 rs2 => m.set rd (op.eval (m.get rs1) (m.get rs2))
  | .addi rd rs imm => m.set rd (m.get rs + BitVec.ofInt 32 imm)
  | .xori rd rs imm => m.set rd (m.get rs ^^^ BitVec.ofInt 32 imm)
  | .slli rd rs shamt => m.set rd (m.get rs <<< shamt)
  | .seqz rd rs => m.set rd (boolWord (m.get rs == 0))
  | .snez rd rs => m.set rd (boolWord (m.get rs != 0))
  | .mv rd rs => m.set rd (m.get rs)
  | .li rd imm => m.set rd (BitVec.ofInt 32 imm)
  | .la rd l => m.set rd (data l)
  | .lw rd offset base => m.set rd (m.loadWord (m.get base + BitVec.ofInt 32 offset))
  | .sw rs offset base => m.storeWord (m.get base + BitVec.ofInt 32 offset) (m.get rs)
  | .sb rs offset base =>
      m.storeByte (m.get base + BitVec.ofInt 32 offset) ((m.get rs).extractLsb' 0 8)
  | .branch _ _ _ _ | .j _ | .jal _ | .ret | .ecall => m

/-- Whether the next line follows. -/
def Rv.isStraight : Rv → Bool
  | .branch _ _ _ _ | .j _ | .jal _ | .ret | .ecall => false
  | _ => true

def findLabel (code : List AsmLine) (l : AsmLabel) : Option ℕ := code.findIdx? (· = .label l)

def jumpTo (code : List AsmLine) (l : AsmLabel) (m : Machine) : Option Machine :=
  (findLabel code l).map m.goto

/-- One instruction. -/
def Rv.exec (data : AsmLabel → BitVec 32) (code : List AsmLine) (m : Machine) :
    Rv → Option Machine
  | .branch op rs1 rs2 l =>
      if op.holds (m.get rs1) (m.get rs2) then jumpTo code l m else some m.next
  | .j l => jumpTo code l m
  | .jal l => jumpTo code l (m.set .ra (BitVec.ofNat 32 (m.pc + 1)))
  | .ret => some (m.goto (m.get .ra).toNat)
  | .ecall => none
  | i => some (i.apply data m).next

/-- One line. A run stops at an `ecall` and outside the text. -/
def rvStep (data : AsmLabel → BitVec 32) (code : List AsmLine) (m : Machine) : Option Machine :=
  match code[m.pc]? with
  | none => none
  | some (.label _) => some m.next
  | some (.instr i) => i.exec data code m

/-- Some lines, one after the other. -/
def RvSteps (data : AsmLabel → BitVec 32) (code : List AsmLine) : Machine → Machine → Prop :=
  Relation.ReflTransGen fun m m' => rvStep data code m = some m'

/-! ## Blocks -/

section

variable {data : AsmLabel → BitVec 32} {code : List AsmLine}

theorem RvSteps.head {m m1 m2 : Machine} (h : rvStep data code m = some m1)
    (hs : RvSteps data code m1 m2) : RvSteps data code m m2 :=
  Relation.ReflTransGen.head h hs

theorem Rv.exec_of_straight {i : Rv} (h : i.isStraight = true) (m : Machine) :
    i.exec data code m = some (i.apply data m).next := by
  cases i <;> first | rfl | cases h

/-! One line at a time. -/

theorem rvStep_label {m : Machine} {l : AsmLabel} (h : code[m.pc]? = some (.label l)) :
    rvStep data code m = some m.next := by
  simp only [rvStep, h]

theorem rvStep_straight {m : Machine} {i : Rv} (h : code[m.pc]? = some (.instr i))
    (hi : i.isStraight = true) : rvStep data code m = some (i.apply data m).next := by
  simp only [rvStep, h]
  exact Rv.exec_of_straight hi m

theorem rvStep_jump {m : Machine} {l : AsmLabel} {p : ℕ} (h : code[m.pc]? = some (.instr (.j l)))
    (hl : findLabel code l = some p) : rvStep data code m = some (m.goto p) := by
  simp only [rvStep, h, Rv.exec, jumpTo, hl, Option.map_some]

theorem rvStep_branch {m : Machine} {op : BranchOp} {r : Reg} {l : AsmLabel} {p : ℕ}
    (h : code[m.pc]? = some (.instr (.branch op r .zero l))) (hl : findLabel code l = some p) :
    rvStep data code m =
      some (if op.holds (m.get r) 0 then m.goto p else m.next) := by
  simp only [rvStep, h, Rv.exec, jumpTo, hl, Option.map_some, Machine.get_zero]
  split_ifs <;> rfl

theorem findLabel_append (done rest : List AsmLine) {l : AsmLabel} (h : .label l ∉ done) :
    findLabel (done ++ .label l :: rest) l = some done.length := by
  have hnone : done.findIdx? (· = .label l) = none := by
    rw [List.findIdx?_eq_none_iff]
    intro x hx
    exact decide_eq_false fun he => h (he ▸ hx)
  rw [findLabel, List.findIdx?_append, hnone, List.findIdx?_cons]
  simp

/-- Instructions that follow each other. -/
def runBlock (data : AsmLabel → BitVec 32) (m : Machine) (is : List Rv) : Machine :=
  is.foldl (fun m i => (i.apply data m).next) m

theorem runBlock_append (m : Machine) (is js : List Rv) :
    runBlock data m (is ++ js) = runBlock data (runBlock data m is) js :=
  List.foldl_append

@[simp] theorem pc_apply (m : Machine) (i : Rv) : (i.apply data m).pc = m.pc := by
  cases i <;> rfl

theorem pc_runBlock (is : List Rv) (m : Machine) :
    (runBlock data m is).pc = m.pc + is.length := by
  induction is generalizing m with
  | nil => rfl
  | cons i is ih =>
    rw [runBlock, List.foldl_cons, ← runBlock, ih, Machine.pc_next, pc_apply, List.length_cons]
    omega

theorem steps_block {is : List Rv} {rest : List AsmLine}
    (hs : ∀ i ∈ is, i.isStraight = true) : ∀ (done : List AsmLine) {m : Machine},
    code = done ++ (is.map .instr ++ rest) → m.pc = done.length →
    RvSteps data code m (runBlock data m is) := by
  induction is with
  | nil => exact fun _ _ _ _ => .refl
  | cons i is ih =>
    intro done m hcode hpc
    have hline : code[m.pc]? = some (.instr i) := by
      rw [hcode, hpc]
      simp
    refine .head (rvStep_straight hline (hs i (by simp))) (ih (fun j hj => hs j (by simp [hj])) (done ++ [.instr i]) ?_ ?_)
    · simp [hcode]
    · simp [hpc]

/-! ## Where a run stores -/

variable {region : BitVec 32 → Prop} {m m' : Machine}

end

end YHsys.Compiler
