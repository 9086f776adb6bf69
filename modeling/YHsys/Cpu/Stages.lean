import Mathlib.Data.BitVec

/-!
# Decode, execute and memory stages (`id_stage.v`, `es_stage.v`, `ms_stage.v`)

The combinational logic of the three stages, and the registers between them for a cycle without
reset. Each `case` of the decoder is a definition of its own, as in the source.

Left out are the CSR and exception fields that a later stage only hands on, and `alu.v`, which no
module instantiates.
-/

namespace YHsys.Cpu

/-! ## Fields of an instruction -/

/-- The opcodes of `riscv_inst_defines.h`. -/
inductive Opcode where
  | rtype
  | itype
  | load
  | store
  | branch
  | jal
  | jalr
  | lui
  | auipc
  | csr
deriving DecidableEq, Repr

/-- The opcode of an instruction word, if it is one of those the decoder knows. -/
def opcodeOf (w : BitVec 32) : Option Opcode :=
  let op : BitVec 7 := w.extractLsb' 0 7
  if op = 0b0110011 then some .rtype
  else if op = 0b0010011 then some .itype
  else if op = 0b0000011 then some .load
  else if op = 0b0100011 then some .store
  else if op = 0b1100011 then some .branch
  else if op = 0b1101111 then some .jal
  else if op = 0b1100111 then some .jalr
  else if op = 0b0110111 then some .lui
  else if op = 0b0010111 then some .auipc
  else if op = 0b1110011 then some .csr
  else none

def rdOf (w : BitVec 32) : BitVec 5 := w.extractLsb' 7 5
def funct3Of (w : BitVec 32) : BitVec 3 := w.extractLsb' 12 3
def rs1Of (w : BitVec 32) : BitVec 5 := w.extractLsb' 15 5
def rs2Of (w : BitVec 32) : BitVec 5 := w.extractLsb' 20 5
def funct7Of (w : BitVec 32) : BitVec 7 := w.extractLsb' 25 7

theorem funct3_cases : ∀ f : BitVec 3,
    f = 0#3 ∨ f = 1#3 ∨ f = 2#3 ∨ f = 3#3 ∨ f = 4#3 ∨ f = 5#3 ∨ f = 6#3 ∨ f = 7#3 := by
  decide

/-- `{{20{inst[31]}}, inst[31:20]}`. -/
def immI (w : BitVec 32) : BitVec 32 := (w.extractLsb' 20 12).signExtend 32

/-- `{{20{inst[31]}}, inst[31:25], inst[11:7]}`. -/
def immS (w : BitVec 32) : BitVec 32 := (w.extractLsb' 25 7 ++ w.extractLsb' 7 5).signExtend 32

/-- `{{19{inst[31]}}, inst[31], inst[7], inst[30:25], inst[11:8], 1'b0}`. -/
def immB (w : BitVec 32) : BitVec 32 :=
  (w.extractLsb' 31 1 ++ w.extractLsb' 7 1 ++ w.extractLsb' 25 6 ++ w.extractLsb' 8 4 ++
    (0 : BitVec 1)).signExtend 32

/-- `{inst[31:12], 12'b0}`. -/
def immU (w : BitVec 32) : BitVec 32 := w.extractLsb' 12 20 ++ (0 : BitVec 12)

/-- `{{11{inst[31]}}, inst[31], inst[19:12], inst[20], inst[30:21], 1'b0}`. -/
def immJ (w : BitVec 32) : BitVec 32 :=
  (w.extractLsb' 31 1 ++ w.extractLsb' 12 8 ++ w.extractLsb' 20 1 ++ w.extractLsb' 21 10 ++
    (0 : BitVec 1)).signExtend 32

/-! ## `id_stage` -/

/-- The codes of `id_alu_op`, in the order of their four bits. -/
inductive AluCode where
  | add
  | sub
  | sll
  | slt
  | sltu
  | xor
  | srl
  | sra
  | or
  | and
  | lui
  | auipc
  | jal
  | jalr
  | passRs1
  | passImm
deriving DecidableEq, Repr

/-- `MEM_OP_*` of `id_stage.v`: a width, the same for loads and for stores. -/
def memOpNone : BitVec 2 := 0b00
def memOpB : BitVec 2 := 0b01
def memOpH : BitVec 2 := 0b10
def memOpW : BitVec 2 := 0b11

/-- The case that finds `id_rs1` (`id_stage.v:162`). -/
def idRs1 (w : BitVec 32) : BitVec 5 :=
  match opcodeOf w with
  | some .rtype | some .store | some .branch => rs1Of w
  | some .itype | some .load | some .jalr | some .csr => rs1Of w
  | _ => 0

/-- The case that finds `id_rs2` (`id_stage.v:162`). -/
def idRs2 (w : BitVec 32) : BitVec 5 :=
  match opcodeOf w with
  | some .rtype | some .store | some .branch => rs2Of w
  | _ => 0

/-- `id_rd` (`id_stage.v:180`). -/
def idRd (w : BitVec 32) : BitVec 5 :=
  match opcodeOf w with
  | some .rtype | some .itype | some .load | some .lui | some .auipc | some .jal | some .jalr =>
      rdOf w
  | some .csr => if funct3Of w ≠ 0 then rdOf w else 0
  | _ => 0

/-- `id_imm` (`id_stage.v:197`). -/
def idImm (w : BitVec 32) : BitVec 32 :=
  match opcodeOf w with
  | some .itype | some .load | some .jalr => immI w
  | some .store => immS w
  | some .branch => immB w
  | some .lui | some .auipc => immU w
  | some .jal => immJ w
  | some .csr => (w.extractLsb' 20 12).setWidth 32
  | _ => 0

/-- The control signals of the decoder. -/
structure Control where
  funct3 : BitVec 3 := 0
  regWen : Bool := false
  aluEn : Bool := false
  aluOp : AluCode := .add
  memEn : Bool := false
  memOp : BitVec 2 := memOpNone
  branchEn : Bool := false
  jumpEn : Bool := false
  csrEn : Bool := false
  illegal : Bool := false
deriving DecidableEq, Repr

/-- `id_alu_op` of a register-register or register-immediate instruction: `alternate` is the test
of the upper seven bits for `7'b0100000`, `subtracts` whether `000` looks at it. -/
def arithmeticOp (funct3 : BitVec 3) (alternate subtracts : Bool) : AluCode :=
  match funct3 with
  | 0b000 => if subtracts && alternate then .sub else .add
  | 0b001 => .sll
  | 0b010 => .slt
  | 0b011 => .sltu
  | 0b100 => .xor
  | 0b101 => if alternate then .sra else .srl
  | 0b110 => .or
  | 0b111 => .and

/-- The main case of the decoder (`id_stage.v:238`). -/
def idControl (w : BitVec 32) : Control :=
  let f := funct3Of w
  let wen := decide (idRd w ≠ 0)
  match opcodeOf w with
  | some .rtype =>
      { funct3 := f, regWen := wen, aluEn := true,
        aluOp := arithmeticOp f (funct7Of w = 0b0100000) true }
  | some .itype =>
      { funct3 := f, regWen := wen, aluEn := true,
        aluOp := arithmeticOp f (funct7Of w = 0b0100000) false }
  | some .load =>
      { funct3 := f, regWen := wen, aluEn := true, memEn := true,
        memOp := if f = 0b000 ∨ f = 0b100 then memOpB else if f = 0b001 ∨ f = 0b101 then memOpH
          else if f = 0b010 then memOpW else memOpNone
        illegal := decide (f = 0b011 ∨ f = 0b110 ∨ f = 0b111) }
  | some .store =>
      { funct3 := f, aluEn := true, memEn := true,
        memOp := if f = 0b000 then memOpB else if f = 0b001 then memOpH
          else if f = 0b010 then memOpW else memOpNone
        illegal := decide ¬ (f = 0b000 ∨ f = 0b001 ∨ f = 0b010) }
  | some .branch => { funct3 := f, aluEn := true, aluOp := .sub, branchEn := true }
  | some .lui => { aluEn := true, aluOp := .lui, regWen := wen }
  | some .auipc => { aluEn := true, aluOp := .auipc, regWen := wen }
  | some .jal => { aluEn := true, aluOp := .jal, jumpEn := true, regWen := wen }
  | some .jalr => { aluEn := true, aluOp := .jalr, jumpEn := true, regWen := wen }
  | some .csr => { funct3 := f, csrEn := true, regWen := wen, illegal := decide (f = 0 ∨ f = 4) }
  | none => { illegal := true }

/-- `id_excp_en` of the illegal-instruction exception. -/
def idExcpEn (valid : Bool) (w : BitVec 32) : Bool := valid && (idControl w).illegal

/-- `id_rs1_data`: the operand, with no forwarding. -/
def idRs1Data (w : BitVec 32) (regfile : BitVec 5 → BitVec 32) : BitVec 32 :=
  if idRs1 w = 0 then 0 else regfile (idRs1 w)

def idRs2Data (w : BitVec 32) (regfile : BitVec 5 → BitVec 32) : BitVec 32 :=
  if idRs2 w = 0 then 0 else regfile (idRs2 w)

/-! ## `es_stage` -/

/-- The operands of the ALU (`es_stage.v:131`); `a` and `b` are `fw_rs1_data` and
`fw_rs2_data`. -/
def aluOperands (op : AluCode) (pc imm a b : BitVec 32) : BitVec 32 × BitVec 32 :=
  match op with
  | .lui => (0, imm)
  | .auipc => (pc, imm)
  | .jal | .jalr => (pc, 4)
  | .passRs1 => (a, 0)
  | .passImm => (imm, 0)
  | _ => (a, if op = .sub then ~~~b + 1 else b)

/-- The core of the ALU (`es_stage.v:164`). -/
def aluOut (op : AluCode) (a b : BitVec 32) : BitVec 32 :=
  match op with
  | .add | .sub => a + b
  | .sll => a <<< b.extractLsb' 0 5
  | .slt => if a.slt b then 1 else 0
  | .sltu => if a.ult b then 1 else 0
  | .xor => a ^^^ b
  | .srl => a >>> b.extractLsb' 0 5
  | .sra => a.sshiftRight (b.extractLsb' 0 5).toNat
  | .or => a ||| b
  | .and => a &&& b
  | .lui => b
  | .auipc | .jal | .jalr => a + b
  | .passRs1 | .passImm => a

/-- `branch_cond` (`es_stage.v:187`). -/
def branchCond (branchEn : Bool) (funct3 : BitVec 3) (a b : BitVec 32) : Bool :=
  branchEn && match funct3 with
  | 0b000 => a == b
  | 0b001 => a != b
  | 0b100 => a.slt b
  | 0b101 => !a.slt b
  | 0b110 => a.ult b
  | 0b111 => !a.ult b
  | _ => false

/-- What `es_stage` computes for an instruction. -/
structure EsOut where
  aluOut : BitVec 32
  branchTaken : Bool
  branchTarget : BitVec 32
  jumpTaken : Bool
  jumpTarget : BitVec 32
deriving DecidableEq, Repr

/-- The combinational outputs of `es_stage` for the outputs of `id_stage`, without forwarding. -/
def esOut (w : BitVec 32) (pc : BitVec 32) (regfile : BitVec 5 → BitVec 32) : EsOut :=
  let c := idControl w
  let a := idRs1Data w regfile
  let b := idRs2Data w regfile
  let imm := idImm w
  let operands := aluOperands c.aluOp pc imm a b
  let taken := c.branchEn && branchCond c.branchEn c.funct3 a b
  { aluOut := Cpu.aluOut c.aluOp operands.1 operands.2
    branchTaken := taken
    branchTarget := if taken then pc + imm else 0
    jumpTaken := c.jumpEn
    jumpTarget :=
      if c.jumpEn then if c.aluOp = .jalr then (a + imm) &&& ~~~1 else pc + imm else 0 }

/-- The registers from `es_stage` to `ms_stage` that the latter computes with. -/
structure ExRegs where
  aluResult : BitVec 32
  rs2Data : BitVec 32
  funct3 : BitVec 3
  memEn : Bool
  memOp : BitVec 2
  excpEn : Bool
  valid : Bool
deriving DecidableEq, Repr

/-- The registers after an edge without stall and flush (`es_stage.v:288`). -/
def exNext (valid : Bool) (w pc : BitVec 32) (regfile : BitVec 5 → BitVec 32) : ExRegs :=
  let c := idControl w
  { aluResult := (esOut w pc regfile).aluOut
    rs2Data := idRs2Data w regfile
    funct3 := c.funct3
    memEn := c.memEn
    memOp := c.memOp
    excpEn := idExcpEn valid w
    valid := valid }

/-! ## `ms_stage` -/

/-- `MEM_OP_LOAD` and `MEM_OP_STORE` of `ms_stage.v`. -/
def memOpLoad : BitVec 2 := 0b01
def memOpStore : BitVec 2 := 0b10

/-- The wires of the MMU and of the data memory. -/
structure MsIn where
  mmuReady : Bool
  mmuExcpEn : Bool
  dmemRdata : BitVec 32
deriving DecidableEq, Repr

/-- `load_data_final` (`ms_stage.v:73`). -/
def loadDataFinal (ex : ExRegs) (i : MsIn) : BitVec 32 :=
  if ex.memEn && ex.memOp == memOpLoad && !i.mmuExcpEn && i.mmuReady then
    match ex.funct3 with
    | 0b000 => (i.dmemRdata.extractLsb' 0 8).signExtend 32
    | 0b001 => (i.dmemRdata.extractLsb' 0 16).signExtend 32
    | 0b010 => i.dmemRdata
    | 0b100 => (i.dmemRdata.extractLsb' 0 8).setWidth 32
    | 0b101 => (i.dmemRdata.extractLsb' 0 16).setWidth 32
    | _ => 0
  else 0

/-- `dmem_we` (`ms_stage.v:88`). -/
def dmemWe (ex : ExRegs) (i : MsIn) : Bool :=
  if ex.valid && ex.memEn && i.mmuReady && !i.mmuExcpEn && !ex.excpEn then
    ex.memOp == memOpStore
  else false

/-- `ms_result` after an edge without stall and flush, the MMU ready (`ms_stage.v:140`). -/
def msResult (ex : ExRegs) (i : MsIn) : BitVec 32 :=
  if ex.memEn && ex.memOp == memOpLoad then loadDataFinal ex i else ex.aluResult

end YHsys.Cpu
