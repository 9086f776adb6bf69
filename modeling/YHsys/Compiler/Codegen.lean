import YHsys.Compiler.Execution

/-!
# The RV32 back end

`backend/riscv/codegen_rv32.py`. A function has a frame with a slot for every symbol; ten
registers hold scalars, handed out in one pass over the code by where a name is first and last
mentioned in the text. While the instructions are emitted, two flags for each variable say
whether its register has its value and whether its slot is out of date.

Assembly is a list of labels and instructions; directives, comments and the counters of
`CodegenStats` are left out, and labels are told apart by what they are made from.
-/

namespace YHsys.Compiler

/-! ## Assembly -/

/-- The registers the back end uses. -/
inductive Reg where
  | zero | ra | sp | s0
  | t0 | t1 | t2 | t3 | t4 | t5 | t6
  | a0 | a1 | a2 | a3 | a4 | a5 | a6 | a7
deriving DecidableEq, Repr

/-- The words `EmitState.fresh` is called with. -/
inductive TempLabel where
  | andFalse
  | andEnd
  | orTrue
  | orEnd
deriving DecidableEq, Repr

/-- The labels inside `.L_print_int`. -/
inductive PrintLabel where
  | absDone
  | digits
  | loop
  | sign
  | newline
deriving DecidableEq, Repr

/-- The labels: of a function, of the IR (`.L_user_`), fresh ones with the prefix of their
function, and those of the code and data that every program shares. -/
inductive AsmLabel where
  | func (name : String)
  | user (l : Label)
  | temp (labelPrefix : String) (kind : TempLabel) (id : ℕ)
  | halt
  | printInt
  | printStep (l : PrintLabel)
  | str (cid : ℕ)
deriving DecidableEq, Repr

/-- The operations of two registers. -/
inductive AluOp where
  | add | sub | mul | div | rem | divu | remu
  | sll | sra | and | or | xor | slt
deriving DecidableEq, Repr

inductive BranchOp where
  | beq
  | bne
  | bge
deriving DecidableEq, Repr

/-- The instructions and pseudo-instructions that are printed. -/
inductive Rv where
  | alu (op : AluOp) (rd rs1 rs2 : Reg)
  | addi (rd rs : Reg) (imm : ℤ)
  | xori (rd rs : Reg) (imm : ℤ)
  | slli (rd rs : Reg) (shamt : ℕ)
  | seqz (rd rs : Reg)
  | snez (rd rs : Reg)
  | mv (rd rs : Reg)
  | li (rd : Reg) (imm : ℤ)
  | la (rd : Reg) (l : AsmLabel)
  | lw (rd : Reg) (offset : ℤ) (base : Reg)
  | sw (rs : Reg) (offset : ℤ) (base : Reg)
  | sb (rs : Reg) (offset : ℤ) (base : Reg)
  | branch (op : BranchOp) (rs1 rs2 : Reg) (l : AsmLabel)
  | j (l : AsmLabel)
  | jal (l : AsmLabel)
  | ret
  | ecall
deriving DecidableEq, Repr

inductive AsmLine where
  | label (l : AsmLabel)
  | instr (i : Rv)
deriving DecidableEq, Repr

/-! ## Frames -/

structure SymbolLayout where
  offset : ℕ
  words : ℕ
  isArray : Bool
deriving DecidableEq, Repr

structure FrameLayout where
  symbols : List (String × SymbolLayout)
  frameSize : ℕ
  savedS0Offset : ℕ
  savedRaOffset : ℕ

/-- `align_up` (`helpers.py:6`) to a multiple of 16. -/
def alignUp16 (value : ℕ) : ℕ := (value + 15) / 16 * 16

/-- The loop of `_build_frame_layout`. -/
def layoutSymbols : List IrSymbol → List (String × SymbolLayout) → ℕ →
    Except PyError (List (String × SymbolLayout) × ℕ)
  | [], symbols, offset => .ok (symbols, offset)
  | sym :: rest, symbols, offset =>
    let words := sym.size.getD 1
    if words ≤ 0 then .error (.codegenError ("invalid symbol size for '" ++ sym.name ++ "'"))
    else if (symbols.lookup sym.name).isSome then
      .error (.codegenError ("duplicate symbol '" ++ sym.name ++ "'"))
    else
      layoutSymbols rest (symbols ++ [(sym.name, ⟨offset, words.toNat, sym.size.isSome⟩)])
        (offset + words.toNat * 4)

/-- `_build_frame_layout` (`codegen_rv32.py:94`). -/
def buildFrameLayout (func : IrFunction) : Except PyError FrameLayout := do
  let (symbols, offset) ← layoutSymbols func.symbols [] 0
  let frameSize := alignUp16 (max 16 (offset + 8))
  .ok ⟨symbols, frameSize, frameSize - 8, frameSize - 4⟩

/-- `_symbol_layout` (`codegen_rv32.py:118`). -/
def FrameLayout.symbol (layout : FrameLayout) (name : String) : Except PyError SymbolLayout :=
  match layout.symbols.lookup name with
  | none => .error (.codegenError ("use of undefined variable '" ++ name ++ "'"))
  | some slot => .ok slot

/-- The slot of a name that must be a scalar. -/
def FrameLayout.scalar (layout : FrameLayout) (name : String) : Except PyError SymbolLayout := do
  let slot ← layout.symbol name
  if slot.isArray then .error (.codegenError ("array variable requires index: " ++ name))
  else .ok slot

/-- The slot of a name that must be an array. -/
def FrameLayout.array (layout : FrameLayout) (name : String) : Except PyError SymbolLayout := do
  let slot ← layout.symbol name
  if slot.isArray then .ok slot
  else .error (.codegenError ("scalar variable cannot be indexed: " ++ name))

/-- `name in _scalar_symbols(layout)`. -/
def FrameLayout.isScalar (layout : FrameLayout) (name : String) : Bool :=
  (layout.symbols.lookup name).any fun slot => !slot.isArray

/-! ## Names that instructions use and define -/

mutual
/-- `_expr_uses` (`codegen_rv32.py:129`). -/
def exprUses (layout : FrameLayout) : Expr → Except PyError (List String)
  | .int _ => .ok []
  | .var name => do
      let slot ← layout.symbol name
      .ok (if slot.isArray then [] else [name])
  | .array name index => do
      let _ ← layout.array name
      exprUses layout index
  | .call _ args => argsUses layout args
  | .unary _ operand => exprUses layout operand
  | .binary _ lhs rhs => do
      let uses ← exprUses layout lhs
      let more ← exprUses layout rhs
      .ok (uses ++ more)

def argsUses (layout : FrameLayout) : List Expr → Except PyError (List String)
  | [] => .ok []
  | arg :: args => do
      let uses ← exprUses layout arg
      let more ← argsUses layout args
      .ok (uses ++ more)
end

/-- The uses and definitions of a store target, in `_instruction_uses_defs`. -/
def targetUsesDefs (layout : FrameLayout) : LValue → Except PyError (List String × List String)
  | .var name => do
      let _ ← layout.scalar name
      .ok ([], [name])
  | .array _ index => do
      let uses ← exprUses layout index
      .ok (uses, [])

/-- An operation, in `_instruction_uses_defs`. -/
def actionUsesDefs (layout : FrameLayout) : Action → Except PyError (List String × List String)
  | .assign target e => do
      let uses ← exprUses layout e
      let (more, defs) ← targetUsesDefs layout target
      .ok (uses ++ more, defs)
  | .call _ args target => do
      let uses ← argsUses layout args
      match target with
      | none => .ok (uses, [])
      | some target => do
        let (more, defs) ← targetUsesDefs layout target
        .ok (uses ++ more, defs)
  | .sysWriteExpr e | .sysPauseExpr e | .sysExitExpr e | .returnExpr e => do
      let uses ← exprUses layout e
      .ok (uses, [])
  | .arrayZero _ _ => .ok ([], [])
  | .sysWriteConst _ _ _ => .ok ([], [])

/-- `_instruction_uses_defs` (`codegen_rv32.py:159`). -/
def instructionUsesDefs (layout : FrameLayout) : Instr → Except PyError (List String × List String)
  | .ifGoto cond _ => do
      let uses ← exprUses layout cond
      .ok (uses, [])
  | .act a => actionUsesDefs layout a
  | .label _ => .ok ([], [])
  | .goto _ => .ok ([], [])

/-- `_analyze_liveness` (`codegen_rv32.py:193`): `live` before the first instruction, and
`live_out` of each. Control is taken to go from every instruction to the next in the text. -/
def analyzeLiveness (layout : FrameLayout) :
    List Instr → Except PyError (List String × List (List String))
  | [] => .ok ([], [])
  | ins :: rest => do
      let (live, outs) ← analyzeLiveness layout rest
      let (uses, defs) ← instructionUsesDefs layout ins
      .ok (live.filter (· ∉ defs) ++ uses, live :: outs)

/-! ## Registers for variables -/

def allocatableRegs : List Reg := [.t0, .t1, .t2, .t3, .t4, .t5, .t6, .a1, .a2, .a3]

def argRegs : List Reg := [.a0, .a1, .a2, .a3, .a4, .a5]

/-- A name of `order` with `first_seen` and `last_seen`. -/
structure Span where
  name : String
  start : ℕ
  last : ℕ

/-- A name is mentioned at instruction `idx`. -/
def mention (idx : ℕ) (order : List Span) (name : String) : List Span :=
  if order.any (·.name = name) then
    order.map fun span => if span.name = name then { span with last := idx } else span
  else order ++ [⟨name, idx, idx⟩]

/-- The first loop of `_build_register_allocation`. -/
def spans (layout : FrameLayout) : ℕ → List Instr → List Span → Except PyError (List Span)
  | _, [], order => .ok order
  | idx, ins :: rest, order => do
      let (uses, defs) ← instructionUsesDefs layout ins
      let names := ((uses ++ defs).filter layout.isScalar).insertionSort (· ≤ ·)
      spans layout (idx + 1) rest (names.foldl (mention idx) order)

structure VarLocation where
  name : String
  reg : Option Reg
  stackOffset : ℕ

/-- The state of the second loop of `_build_register_allocation`. In `active` a variable stands
with its register and its last mention. -/
structure LinearScan where
  locations : List VarLocation
  regToVar : Reg → Option String
  freeRegs : List Reg
  active : List (Reg × ℕ)

/-- `expire` (`codegen_rv32.py:228`). -/
def LinearScan.expire (s : LinearScan) (before : ℕ) : LinearScan :=
  { s with
    freeRegs := s.freeRegs ++ (s.active.filter (·.2 < before)).map (·.1)
    active := s.active.filter fun x => ¬ x.2 < before }

/-- One turn of the second loop. -/
def LinearScan.place (layout : FrameLayout) (s : LinearScan) (span : Span) :
    Except PyError LinearScan := do
  let s := s.expire span.start
  let slot ← layout.symbol span.name
  match s.freeRegs with
  | reg :: freeRegs =>
    .ok
      { locations := s.locations ++ [⟨span.name, some reg, slot.offset⟩]
        regToVar := Function.update s.regToVar reg (some span.name)
        freeRegs := freeRegs
        active := (s.active ++ [(reg, span.last)]).insertionSort fun x y => x.2 ≤ y.2 }
  | [] => .ok { s with locations := s.locations ++ [⟨span.name, none, slot.offset⟩] }

structure RegisterAllocation where
  locations : List VarLocation
  regToVar : Reg → Option String
  liveOut : List (List String)

/-- `locations.get(name)`, if it is a register. Scalars that no instruction mentions have none. -/
def RegisterAllocation.reg (alloc : RegisterAllocation) (name : String) : Option Reg :=
  (alloc.locations.find? (·.name = name)).bind (·.reg)

/-- `_build_register_allocation` (`codegen_rv32.py:207`). -/
def buildRegisterAllocation (layout : FrameLayout) (code : List Instr) :
    Except PyError RegisterAllocation := do
  let (_, liveOut) ← analyzeLiveness layout code
  let order ← spans layout 0 code []
  let s ← order.foldlM (LinearScan.place layout) ⟨[], fun _ => none, allocatableRegs, []⟩
  .ok ⟨s.locations, s.regToVar, liveOut⟩

/-! ## Emission -/

/-- `EmitState`, with the lines emitted so far. -/
structure Emit where
  lines : List AsmLine
  labelId : ℕ
  stackDepth : ℤ
  valid : String → Bool
  dirty : String → Bool

/-- What stays the same while a function is emitted. -/
structure EmitEnv where
  layout : FrameLayout
  alloc : RegisterAllocation
  labelPrefix : String

namespace Emit

def instr (s : Emit) (i : Rv) : Emit := { s with lines := s.lines ++ [.instr i] }

def label (s : Emit) (l : AsmLabel) : Emit := { s with lines := s.lines ++ [.label l] }

/-- The flags of a variable. -/
def mark (s : Emit) (name : String) (valid dirty : Bool) : Emit :=
  { s with
    valid := Function.update s.valid name valid
    dirty := Function.update s.dirty name dirty }

/-- `fresh` (`codegen_rv32.py:38`). -/
def fresh (s : Emit) (env : EmitEnv) (kind : TempLabel) : AsmLabel × Emit :=
  (.temp env.labelPrefix kind (s.labelId + 1), { s with labelId := s.labelId + 1 })

/-- `_emit_push` (`codegen_rv32.py:270`). -/
def push (s : Emit) (reg : Reg) : Emit :=
  { (s.instr (.addi .sp .sp (-4))).instr (.sw reg 0 .sp) with stackDepth := s.stackDepth + 4 }

/-- `_emit_pop` (`codegen_rv32.py:276`). -/
def pop (s : Emit) (reg : Reg) : Emit :=
  { (s.instr (.lw reg 0 .sp)).instr (.addi .sp .sp 4) with stackDepth := s.stackDepth - 4 }

/-- `_emit_jal` (`codegen_rv32.py:361`): `sp` is a multiple of 16 at a call. -/
def jal (s : Emit) (l : AsmLabel) : Emit :=
  let padding := (16 - s.stackDepth % 16) % 16
  if padding = 0 then s.instr (.jal l)
  else ((s.instr (.addi .sp .sp (-padding))).instr (.jal l)).instr (.addi .sp .sp padding)

end Emit

/-- `_prepare_reg_for_clobber` (`codegen_rv32.py:282`). -/
def prepareRegForClobber (env : EmitEnv) (reg : Reg) (s : Emit) : Except PyError Emit :=
  match env.alloc.regToVar reg with
  | none => .ok s
  | some owner =>
    if !s.valid owner then .ok s
    else if s.dirty owner then do
      let slot ← env.layout.symbol owner
      .ok ((s.instr (.sw reg slot.offset .s0)).mark owner false false)
    else .ok (s.mark owner false false)

/-- `_load_var_into_reg` (`codegen_rv32.py:297`). -/
def loadVarIntoReg (env : EmitEnv) (name : String) (reg : Reg) (s : Emit) :
    Except PyError Emit := do
  let slot ← env.layout.scalar name
  match env.alloc.reg name with
  | none => do
    let s ← prepareRegForClobber env reg s
    .ok (s.instr (.lw reg slot.offset .s0))
  | some src => do
    let s := if !s.valid name then (s.instr (.lw src slot.offset .s0)).mark name true false else s
    if reg ≠ src then do
      let s ← prepareRegForClobber env reg s
      .ok (s.instr (.mv reg src))
    else .ok s

/-- `_store_scalar_from_reg` (`codegen_rv32.py:325`). -/
def storeScalarFromReg (env : EmitEnv) (name : String) (valueReg : Reg) (s : Emit) :
    Except PyError Emit := do
  let slot ← env.layout.scalar name
  match env.alloc.reg name with
  | none => .ok (s.instr (.sw valueReg slot.offset .s0))
  | some dst =>
    if dst ≠ valueReg then do
      let s ← prepareRegForClobber env dst s
      .ok ((s.instr (.mv dst valueReg)).mark name true true)
    else .ok (s.mark name true true)

/-- One turn of the loop of `_spill_active_registers`. -/
def spillVar (active : Option (List String)) (s : Emit) (loc : VarLocation) : Emit :=
  match loc.reg with
  | none => s
  | some reg =>
    if active.any (loc.name ∉ ·) then s
    else if s.valid loc.name && s.dirty loc.name then
      (s.instr (.sw reg loc.stackOffset .s0)).mark loc.name false false
    else s.mark loc.name false false

/-- `_spill_active_registers` (`codegen_rv32.py:347`). -/
def spillActiveRegisters (env : EmitEnv) (active : Option (List String)) (s : Emit) : Emit :=
  env.alloc.locations.foldl (spillVar active) s

/-- The arguments of a call, from the stack to their registers, the last one first. -/
def popArgs (env : EmitEnv) : List Reg → Emit → Except PyError Emit
  | [], s => .ok s
  | reg :: regs, s => do
    let s ← prepareRegForClobber env reg s
    popArgs env regs (s.pop reg)

/-- `_emit_call_expr` (`codegen_rv32.py:373`) after the arguments have been pushed. -/
def finishCall (env : EmitEnv) (name : String) (args : ℕ) (target : Reg) (s : Emit) :
    Except PyError Emit := do
  let s := spillActiveRegisters env none s
  let s ← popArgs env (argRegs.take args).reverse s
  let s := s.jal (.func name)
  if target ≠ .a0 then do
    let s ← prepareRegForClobber env target s
    .ok (s.instr (.mv target .a0))
  else .ok s

/-- The operation of a unary operator, in `_emit_eval_expr`. -/
def emitUnary (op : UnaryOp) (target : Reg) (s : Emit) : Emit :=
  match op with
  | .plus => s
  | .minus => s.instr (.alu .sub target .zero target)
  | .not => s.instr (.seqz target target)
  | .bitNot => s.instr (.xori target target (-1))

/-- The operation of a binary operator other than `&&` and `||`, in `_emit_eval_expr`: the left
operand is in `target`, the right one in `a4`. -/
def emitBinary (op : BinaryOp) (target : Reg) (s : Emit) : Emit :=
  match op with
  | .add => s.instr (.alu .add target target .a4)
  | .sub => s.instr (.alu .sub target target .a4)
  | .mul => s.instr (.alu .mul target target .a4)
  | .div => s.instr (.alu .div target target .a4)
  | .mod => s.instr (.alu .rem target target .a4)
  | .shl => s.instr (.alu .sll target target .a4)
  | .shr => s.instr (.alu .sra target target .a4)
  | .band => s.instr (.alu .and target target .a4)
  | .bor => s.instr (.alu .or target target .a4)
  | .bxor => s.instr (.alu .xor target target .a4)
  | .eq => (s.instr (.alu .xor target target .a4)).instr (.seqz target target)
  | .ne => (s.instr (.alu .xor target target .a4)).instr (.snez target target)
  | .lt => s.instr (.alu .slt target target .a4)
  | .le => (s.instr (.alu .slt target .a4 target)).instr (.xori target target 1)
  | .gt => s.instr (.alu .slt target .a4 target)
  | .ge => (s.instr (.alu .slt target target .a4)).instr (.xori target target 1)
  | .land => s
  | .lor => s

mutual
/-- `_emit_eval_expr` (`codegen_rv32.py:396`). -/
def emitEvalExpr (env : EmitEnv) : Expr → Reg → Emit → Except PyError Emit
  | .int value, target, s => do
      let s ← prepareRegForClobber env target s
      .ok (s.instr (.li target value))
  | .var name, target, s => loadVarIntoReg env name target s
  | .array name index, target, s => do
      let slot ← env.layout.array name
      let s ← emitEvalExpr env index target s
      let s := s.instr (.slli target target 2)
      let addrReg := if target = .a4 then .a5 else .a4
      let s ← prepareRegForClobber env addrReg s
      .ok (((s.instr (.addi addrReg .s0 slot.offset)).instr (.alu .add addrReg addrReg target)).instr
        (.lw target 0 addrReg))
  | .call name args, target, s =>
      if args.length > argRegs.length then
        .error (.codegenError ("function '" ++ name ++ "' called with too many arguments"))
      else do
        let s ← emitArgs env args s
        finishCall env name args.length target s
  | .unary op operand, target, s => do
      let s ← emitEvalExpr env operand target s
      .ok (emitUnary op target s)
  | .binary .land lhs rhs, target, s => do
      let (falseLabel, s) := s.fresh env .andFalse
      let (endLabel, s) := s.fresh env .andEnd
      let s ← emitEvalExpr env lhs target s
      let s := s.instr (.branch .beq target .zero falseLabel)
      let s ← emitEvalExpr env rhs target s
      let s := (s.instr (.snez target target)).instr (.j endLabel)
      .ok (((s.label falseLabel).instr (.li target 0)).label endLabel)
  | .binary .lor lhs rhs, target, s => do
      let (trueLabel, s) := s.fresh env .orTrue
      let (endLabel, s) := s.fresh env .orEnd
      let s ← emitEvalExpr env lhs target s
      let s := s.instr (.branch .bne target .zero trueLabel)
      let s ← emitEvalExpr env rhs target s
      let s := (s.instr (.snez target target)).instr (.j endLabel)
      .ok (((s.label trueLabel).instr (.li target 1)).label endLabel)
  | .binary op lhs rhs, target, s => do
      let s ← emitEvalExpr env lhs target s
      let s ← emitEvalExpr env rhs target (s.push target)
      let s := (s.instr (.mv .a4 target)).pop target
      .ok (emitBinary op target s)

/-- The loop of `_emit_call_expr` that pushes the arguments. -/
def emitArgs (env : EmitEnv) : List Expr → Emit → Except PyError Emit
  | [], s => .ok s
  | arg :: args, s => do
      let s ← emitEvalExpr env arg .t0 s
      emitArgs env args (s.push .t0)
end

/-- `_emit_store_lvalue` (`codegen_rv32.py:512`). -/
def emitStoreLvalue (env : EmitEnv) (target : LValue) (valueReg : Reg) (s : Emit) :
    Except PyError Emit :=
  match target with
  | .var name => storeScalarFromReg env name valueReg s
  | .array name index => do
    let slot ← env.layout.array name
    let s ← emitEvalExpr env index .t0 (s.push valueReg)
    let s := ((s.instr (.slli .t0 .t0 2)).instr (.addi .a6 .s0 slot.offset)).instr
      (.alu .add .a6 .a6 .t0)
    .ok ((s.pop .a5).instr (.sw .a5 0 .a6))

/-! ## Functions -/

/-- The numbers `load_syscall_table` finds. -/
structure SyscallTable where
  write : ℕ
  pause : ℕ
  exit : ℕ

/-- `_emit_function_epilogue` (`codegen_rv32.py:625`). -/
def emitFunctionEpilogue (env : EmitEnv) (s : Emit) : Except PyError Emit :=
  if s.stackDepth ≠ 0 then
    .error (.codegenError "unbalanced temporary stack while emitting function epilogue")
  else
    .ok ((((s.instr (.lw .ra env.layout.savedRaOffset .sp)).instr
      (.lw .s0 env.layout.savedS0Offset .sp)).instr (.addi .sp .sp env.layout.frameSize)).instr .ret)

/-- The stores of `array_zero`. -/
def zeroWords (slot : SymbolLayout) (size : ℤ) (s : Emit) : Emit :=
  (List.range size.toNat).foldl
    (fun s i => s.instr (.sw .zero ((slot.offset + i * 4 : ℕ) : ℤ) .s0)) s

/-- An operation, in the loop of `_emit_function` (`codegen_rv32.py:672`). -/
def emitAction (sys : SyscallTable) (constants : List IrConstant) (env : EmitEnv) (s : Emit) :
    Action → Except PyError Emit
  | .assign target e => do
      let s ← emitEvalExpr env e .t0 s
      emitStoreLvalue env target .t0 s
  | .call name args target => do
      let s ← emitEvalExpr env (.call name args) .a0 s
      match target with
      | none => .ok s
      | some target => emitStoreLvalue env target .a0 s
  | .arrayZero name size => do
      let slot ← env.layout.symbol name
      if !slot.isArray then
        .error (.codegenError ("array_zero used on scalar symbol '" ++ name ++ "'"))
      else .ok (zeroWords slot size s)
  | .sysWriteConst fd cid size =>
      if cid ∉ constants.map (·.cid) then
        .error (.codegenError ("unknown constant id 'str" ++ toString cid ++ "'"))
      else do
        let s := spillActiveRegisters env none s
        let s ← prepareRegForClobber env .a1 s
        let s ← prepareRegForClobber env .a2 s
        .ok (((((s.instr (.li .a0 fd)).instr (.la .a1 (.str cid))).instr (.li .a2 size)).instr
          (.li .a7 sys.write)).instr .ecall)
  | .sysWriteExpr e => do
      let s ← emitEvalExpr env e .a0 s
      .ok ((spillActiveRegisters env none s).jal .printInt)
  | .sysPauseExpr e => do
      let s ← emitEvalExpr env e .a0 s
      .ok (((spillActiveRegisters env none s).instr (.li .a7 sys.pause)).instr .ecall)
  | .sysExitExpr e => do
      let s ← emitEvalExpr env e .a0 s
      .ok ((((spillActiveRegisters env none s).instr (.li .a7 sys.exit)).instr .ecall).instr
        (.j .halt))
  | .returnExpr e => do
      let s ← emitEvalExpr env e .a0 s
      emitFunctionEpilogue env s

/-- One turn of the loop of `_emit_function`; `liveOut` is `live_out` of the instruction. -/
def emitInstr (sys : SyscallTable) (constants : List IrConstant) (env : EmitEnv)
    (liveOut : List String) (s : Emit) : Instr → Except PyError Emit
  | .label l => .ok ((spillActiveRegisters env none s).label (.user l))
  | .goto l => .ok ((spillActiveRegisters env (some liveOut) s).instr (.j (.user l)))
  | .ifGoto cond l => do
      let s ← emitEvalExpr env cond .t0 s
      .ok ((spillActiveRegisters env (some liveOut) s).instr (.branch .bne .t0 .zero (.user l)))
  | .act a => emitAction sys constants env s a

/-- The loop of `_emit_function`. -/
def emitInstrs (sys : SyscallTable) (constants : List IrConstant) (env : EmitEnv) :
    List Instr → List (List String) → Emit → Except PyError Emit
  | ins :: rest, liveOut :: outs, s => do
      let s ← emitInstr sys constants env liveOut s ins
      emitInstrs sys constants env rest outs s
  | _, _, s => .ok s

/-- The loop that stores the parameters in their slots. -/
def emitParams (layout : FrameLayout) : List String → List Reg → Emit → Except PyError Emit
  | param :: params, reg :: regs, s => do
      let slot ← layout.symbol param
      if slot.isArray then
        .error (.codegenError ("function parameter cannot be array: " ++ param))
      else emitParams layout params regs (s.instr (.sw reg slot.offset .s0))
  | _, _, s => .ok s

/-- The label of the first jump without a target, in `_validate_branch_labels`. -/
def undefinedLabel (code : List Instr) : Option Label :=
  (code.filterMap fun ins => ins.target).find? fun l => l ∉ Flat.labels code

/-- `_emit_function` (`codegen_rv32.py:634`). -/
def emitFunction (sys : SyscallTable) (constants : List IrConstant) (labelPrefix : String)
    (func : IrFunction) : Except PyError (List AsmLine) :=
  if func.params.length > argRegs.length then
    .error (.codegenError ("function '" ++ func.name ++ "' has too many parameters"))
  else do
    let layout ← buildFrameLayout func
    let alloc ← buildRegisterAllocation layout func.instructions
    match undefinedLabel func.instructions with
    | some l => .error (.codegenError ("branch target label not defined: " ++ l.text))
    | none => do
      let s : Emit := ⟨[], 0, 0, fun _ => false, fun _ => false⟩
      let s := (s.label (.func func.name)).instr (.addi .sp .sp (-layout.frameSize))
      let s := ((s.instr (.sw .s0 layout.savedS0Offset .sp)).instr
        (.sw .ra layout.savedRaOffset .sp)).instr (.mv .s0 .sp)
      let s ← emitParams layout func.params argRegs s
      let s ← emitInstrs sys constants ⟨layout, alloc, labelPrefix⟩ func.instructions alloc.liveOut s
      .ok s.lines

/-! ## Programs -/

/-- `_emit_print_int_helper` (`codegen_rv32.py:531`). -/
def printIntHelper (sysWriteNo : ℕ) : List AsmLine :=
  [.label .printInt,
    .instr (.addi .sp .sp (-64)),
    .instr (.sw .ra 60 .sp),
    .instr (.sw .s0 56 .sp),
    .instr (.mv .s0 .a0),
    .instr (.addi .t1 .sp 48),
    .instr (.li .t2 0),
    .instr (.branch .bge .s0 .zero (.printStep .absDone)),
    .instr (.li .t2 1),
    .instr (.alu .sub .s0 .zero .s0),
    .label (.printStep .absDone),
    .instr (.mv .t3 .s0),
    .instr (.branch .bne .t3 .zero (.printStep .digits)),
    .instr (.addi .t1 .t1 (-1)),
    .instr (.li .t4 48),
    .instr (.sb .t4 0 .t1),
    .instr (.j (.printStep .sign)),
    .label (.printStep .digits),
    .instr (.li .t5 10),
    .label (.printStep .loop),
    .instr (.alu .remu .t6 .t3 .t5),
    .instr (.alu .divu .t3 .t3 .t5),
    .instr (.addi .t6 .t6 48),
    .instr (.addi .t1 .t1 (-1)),
    .instr (.sb .t6 0 .t1),
    .instr (.branch .bne .t3 .zero (.printStep .loop)),
    .label (.printStep .sign),
    .instr (.branch .beq .t2 .zero (.printStep .newline)),
    .instr (.addi .t1 .t1 (-1)),
    .instr (.li .t6 45),
    .instr (.sb .t6 0 .t1),
    .label (.printStep .newline),
    .instr (.li .t6 10),
    .instr (.sb .t6 48 .sp),
    .instr (.addi .t3 .sp 49),
    .instr (.alu .sub .a2 .t3 .t1),
    .instr (.li .a0 1),
    .instr (.mv .a1 .t1),
    .instr (.li .a7 sysWriteNo),
    .instr .ecall,
    .instr (.lw .ra 60 .sp),
    .instr (.lw .s0 56 .sp),
    .instr (.addi .sp .sp 64),
    .instr .ret]

/-- `op == "sys_write_expr"`. -/
def isWriteExpr : Instr → Bool
  | .act (.sysWriteExpr _) => true
  | _ => false

/-- The text section and the strings of the data section. -/
structure AsmProgram where
  text : List AsmLine
  strings : List (ℕ × String)
deriving DecidableEq, Repr

/-- `generate_asm` (`codegen_rv32.py:748`). -/
def generateAsm (m : IrModule) (sys : SyscallTable) : Except PyError AsmProgram := do
  let functions := m.allFunctions
  let parts ← functions.mapM fun func =>
    emitFunction sys m.constants (if functions.length > 1 then func.name else "") func
  let needsPrintInt := functions.any fun func => func.instructions.any isWriteExpr
  .ok
    { text := parts.flatten ++ [.label .halt, .instr (.j .halt)] ++
        if needsPrintInt then printIntHelper sys.write else []
      strings := m.constants.map fun c => (c.cid, c.text) }

end YHsys.Compiler
