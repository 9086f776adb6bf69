import Mathlib.Data.List.Sort
import YHsys.Compiler.Analyzer
import YHsys.Compiler.Ir

/-!
# Lowering

`ir/builder.py`: statements become flat code with labels. Constants are folded on the way,
and a branch whose condition folds to a constant is lowered without its test.
-/

namespace YHsys.Compiler

/-- The builder of one function. `constants` is shared by the functions of a program; its
ids are the numbers below `constId`. -/
structure Builder where
  instructions : List Instr
  constants : List IrConstant
  labelId : ℕ
  constId : ℕ
  hasReturn : Bool
  /-- Whether `return_op` is `sys_exit_expr`. -/
  isMain : Bool
  /-- The builder's `label_prefix`. -/
  labelFunc : String
  cids : constants.map (·.cid) = List.range constId

namespace Builder

/-- `fresh_label` (`builder.py:53`). -/
def freshLabel (b : Builder) (kind : LabelKind) : Label × Builder :=
  (⟨b.labelFunc, kind, b.labelId + 1⟩, { b with labelId := b.labelId + 1 })

/-- `add` (`builder.py:59`). -/
def add (b : Builder) (i : Instr) : Builder := { b with instructions := b.instructions ++ [i] }

/-- `add_const_string` (`builder.py:62`). -/
def addConstString (b : Builder) (text : String) : ℕ × Builder :=
  (b.constId,
    { b with
      constants := b.constants ++ [⟨b.constId, text, text.utf8ByteSize⟩]
      constId := b.constId + 1
      cids := by rw [List.map_append, b.cids, List.range_succ]; rfl })

/-- `self.return_op`. -/
def returnOp (b : Builder) (e : Expr) : Action :=
  if b.isMain then .sysExitExpr e else .returnExpr e

end Builder

/-- An lvalue read as an expression: in the IR they are the same dictionary. -/
def LValue.toExpr : LValue → Expr
  | .var name => .var name
  | .array name index => .array name index

/-! ## Expressions -/

/-- `_try_fold_expr` (`builder.py:123`). -/
def tryFoldExpr (e : Expr) : Except PyError Expr :=
  match e with
  | .unary op (.int value) => .ok (.int (foldUnary op value))
  | .binary op (.int lhs) (.int rhs) =>
    if op.isDivision ∧ rhs = 0 then .ok e
    else do
      let value ← foldBinary op lhs rhs
      .ok (.int value)
  | _ => .ok e

mutual
/-- `lower_expr` (`builder.py:148`). -/
def lowerExpr : Expr → Except PyError Expr
  | .int value => .ok (.int value)
  | .var name => .ok (.var name)
  | .array name index => do
      let index ← lowerExpr index
      .ok (.array name index)
  | .call name args => do
      let args ← lowerArgs args
      .ok (.call name args)
  | .unary op operand => do
      let operand ← lowerExpr operand
      tryFoldExpr (.unary op operand)
  | .binary op lhs rhs => do
      let lhs ← lowerExpr lhs
      let rhs ← lowerExpr rhs
      tryFoldExpr (.binary op lhs rhs)

def lowerArgs : List Expr → Except PyError (List Expr)
  | [] => .ok []
  | arg :: args => do
      let arg ← lowerExpr arg
      let args ← lowerArgs args
      .ok (arg :: args)
end

/-- `lower_lvalue` (`builder.py:68`). -/
def lowerLvalue : LValue → Except PyError LValue
  | .var name => .ok (.var name)
  | .array name index => do
      let index ← lowerExpr index
      .ok (.array name index)

/-! ## Statements -/

/-- The store of a value: a call keeps its own instruction (`builder.py:174` and `:271`). -/
def storeInstr (target : LValue) : Expr → Instr
  | .call name args => .act (.call name args (some target))
  | e => .act (.assign target e)

/-- `op_map` in `lower_assign`. `=` is not in it. -/
def AssignOp.binaryOp : AssignOp → Option BinaryOp
  | .set => none
  | .add => some .add
  | .sub => some .sub
  | .mul => some .mul
  | .div => some .div
  | .mod => some .mod

/-- `lower_assign` (`builder.py:170`). -/
def lowerAssign (b : Builder) (target : LValue) (op : AssignOp) (e : Expr) :
    Except PyError Builder := do
  let target ← lowerLvalue target
  let rhs ← lowerExpr e
  match op.binaryOp with
  | none => .ok (b.add (storeInstr target rhs))
  | some op => do
    let e ← tryFoldExpr (.binary op target.toExpr rhs)
    .ok (b.add (.act (.assign target e)))

/-- `delta` in `lower_incdec`. -/
def IncDecOp.delta : IncDecOp → ℤ
  | .inc => 1
  | .dec => -1

/-- `lower_incdec` (`builder.py:190`). -/
def lowerIncdec (b : Builder) (target : LValue) (op : IncDecOp) : Except PyError Builder := do
  let target ← lowerLvalue target
  let e ← tryFoldExpr (.binary .add target.toExpr (.int op.delta))
  .ok (b.add (.act (.assign target e)))

/-- `lower_expr` of an argument that may be missing. -/
def lowerArgument : Option Expr → Except PyError Expr
  | none => .error (.valueError "unsupported expression type: <class 'NoneType'>")
  | some e => lowerExpr e

/-- `lower_call` (`builder.py:251`), of a builtin. -/
def lowerCall (b : Builder) (name : BuiltinName) (argExpr : Option Expr)
    (argString : Option String) : Except PyError Builder :=
  match name with
  | .printStr =>
    let text := argString.getD ""
    let (cid, b) := b.addConstString text
    .ok (b.add (.act (.sysWriteConst 1 cid text.utf8ByteSize)))
  | .printInt => do
    let e ← lowerArgument argExpr
    .ok (b.add (.act (.sysWriteExpr e)))
  | .pause => do
    let e ← lowerArgument argExpr
    .ok (b.add (.act (.sysPauseExpr e)))

/-- `lower_if` (`builder.py:201`); the branches are given by how they are lowered. -/
def lowerIf (b : Builder) (cond : Expr) (thenBlock elseBranch : Builder → Except PyError Builder) :
    Except PyError Builder := do
  let cond ← lowerExpr cond
  match truthyConst cond with
  | some true => thenBlock b
  | some false => elseBranch b
  | none => do
    let (thenLabel, b) := b.freshLabel .ifThen
    let (elseLabel, b) := b.freshLabel .ifElse
    let (endLabel, b) := b.freshLabel .ifEnd
    let b := ((b.add (.ifGoto cond thenLabel)).add (.goto elseLabel)).add (.label thenLabel)
    let b ← thenBlock b
    let b := (b.add (.goto endLabel)).add (.label elseLabel)
    let b ← elseBranch b
    .ok (b.add (.label endLabel))

/-- `lower_while` (`builder.py:233`). -/
def lowerWhile (b : Builder) (cond : Expr) (body : Builder → Except PyError Builder) :
    Except PyError Builder := do
  let cond ← lowerExpr cond
  if truthyConst cond = some false then .ok b
  else do
    let (condLabel, b) := b.freshLabel .whileCond
    let (bodyLabel, b) := b.freshLabel .whileBody
    let (endLabel, b) := b.freshLabel .whileEnd
    let b := (((b.add (.label condLabel)).add (.ifGoto cond bodyLabel)).add (.goto endLabel)).add
      (.label bodyLabel)
    let b ← body b
    .ok ((b.add (.goto condLabel)).add (.label endLabel))

/-- A declaration, in `lower_stmt`. -/
def lowerVarDecl (b : Builder) (name : String) (size : Option ℤ) (init : Option Expr) :
    Except PyError Builder :=
  match size, init with
  | some size, _ => .ok (b.add (.act (.arrayZero name size)))
  | none, none => .ok (b.add (storeInstr (.var name) (.int 0)))
  | none, some e => do
    let e ← lowerExpr e
    .ok (b.add (storeInstr (.var name) e))

/-- An expression statement, in `lower_stmt`: only a call leaves code. -/
def lowerExprStmt (b : Builder) (e : Expr) : Except PyError Builder := do
  match ← lowerExpr e with
  | .call name args => .ok (b.add (.act (.call name args none)))
  | _ => .ok b

/-- `return`, in `lower_stmt`. -/
def lowerReturn (b : Builder) (e : Expr) : Except PyError Builder := do
  let e ← lowerExpr e
  .ok { b.add (.act (b.returnOp e)) with hasReturn := true }

mutual
/-- `lower_stmt` (`builder.py:264`). -/
def lowerStmt : Stmt → Builder → Except PyError Builder
  | .varDecl name size init, b => lowerVarDecl b name size init
  | .assign target op e, b => lowerAssign b target op e
  | .incDec target op, b => lowerIncdec b target op
  | .builtin name argExpr argString, b => lowerCall b name argExpr argString
  | .expr e, b => lowerExprStmt b e
  | .ite cond thenBlock elseBranch, b =>
      lowerIf b cond (fun b => lowerBlock thenBlock b) (fun b => lowerElse elseBranch b)
  | .while cond body, b => lowerWhile b cond (fun b => lowerBlock body b)
  | .ret e, b => lowerReturn b e
  | .empty, b => .ok b

/-- `lower_block` (`builder.py:304`): what follows a `return` in a block is not lowered. -/
def lowerBlock : List Stmt → Builder → Except PyError Builder
  | [], b => .ok b
  | .ret e :: _, b => lowerStmt (.ret e) b
  | s :: rest, b => do
      let b ← lowerStmt s b
      lowerBlock rest b

/-- The `else` branch, in `lower_if`. -/
def lowerElse : Else → Builder → Except PyError Builder
  | .none, b => .ok b
  | .block block, b => lowerBlock block b
  | .elif cond thenBlock elseBranch, b =>
      lowerIf b cond (fun b => lowerBlock thenBlock b) (fun b => lowerElse elseBranch b)
end

theorem lowerBlock_cons {s : Stmt} {rest : List Stmt} {b : Builder} (h : ∀ e, s ≠ .ret e) :
    lowerBlock (s :: rest) b = lowerStmt s b >>= fun b => lowerBlock rest b := by
  cases s with
  | ret e => exact absurd rfl (h e)
  | _ => simp [lowerBlock]

/-! ## Programs -/

/-- `finalize` (`builder.py:310`): the code of a function, with the `return 0` of a body
without any `return`. -/
def Builder.finalize (b : Builder) : List Instr :=
  if b.hasReturn then b.instructions
  else b.instructions ++ [.act (b.returnOp (.int 0))]

/-- The symbols of a function, sorted by name. -/
def irSymbols (symbols : List SymbolInfo) : List IrSymbol :=
  (symbols.map fun s => (⟨s.name, s.size⟩ : IrSymbol)).insertionSort fun s t => s.name ≤ t.name

/-- `IRBuilder.__init__` (`builder.py:31`). -/
def Builder.new (constants : List IrConstant) (constId : ℕ) (isMain : Bool) (labelFunc : String)
    (cids : constants.map (·.cid) = List.range constId) : Builder :=
  ⟨[], constants, 0, constId, false, isMain, labelFunc, cids⟩

/-- `_lower_single_main` (`builder.py:317`). -/
def lowerSingleMain (body : Block) (symbols : List SymbolInfo) : Except PyError IrModule := do
  let b ← lowerBlock body (.new [] 0 true "" rfl)
  .ok ⟨irSymbols symbols, b.constants, b.finalize, []⟩

/-- `semantic_info.function(name)`. -/
def ProgramInfo.get (info : ProgramInfo) (name : String) : Except PyError FunctionInfo :=
  match info.function name with
  | some f => .ok f
  | none => .error (.keyError name)

/-- The loop of `lower_program` (`builder.py:335`): the functions, and the shared table of
constants after them. -/
def lowerFunctions (info : ProgramInfo) (constants : List IrConstant) (constId : ℕ)
    (cids : constants.map (·.cid) = List.range constId) :
    List FunctionDef → Except PyError (List IrFunction × List IrConstant)
  | [] => .ok ([], constants)
  | func :: rest => do
    let fi ← info.get func.name
    let b ← lowerBlock func.body
      (.new constants constId (func.name = "main") func.name cids)
    let (funcs, constants) ← lowerFunctions info b.constants b.constId b.cids rest
    .ok (⟨func.name, fi.params, irSymbols fi.symbols, b.finalize⟩ :: funcs, constants)

/-- `lower_program` (`builder.py:324`). The copy of `main` in the module is the last one. -/
def lowerProgram (program : Program) (info : ProgramInfo) : Except PyError IrModule :=
  match program.functions with
  | [func] =>
    if func.name = "main" then do
      let fi ← info.get "main"
      lowerSingleMain func.body fi.symbols
    else lowerMany program.functions
  | functions => lowerMany functions
where
  lowerMany (functions : List FunctionDef) : Except PyError IrModule := do
    let (funcs, constants) ← lowerFunctions info [] 0 rfl functions
    match funcs.reverse.find? (·.name = "main") with
    | some main => .ok ⟨main.symbols, constants, main.instructions, funcs⟩
    | none => .ok ⟨[], constants, [], funcs⟩

end YHsys.Compiler
