import Mathlib.Data.Finset.Card
import Mathlib.Data.List.ReduceOption
import Mathlib.Logic.Function.Basic
import YHsys.Compiler.Ir
import YHsys.Lib.FixedPoint

/-!
# The optimizer

`ir/optimizer.py`. One pass over a function scans its code with the constants known so
far, then prunes decided branches, unreachable code, dead stores and labels; passes are
repeated until a module stays the same. A pass that drops instructions is written as the
list of what becomes of each instruction, and `reduceOption` takes out the dropped ones.

The source's `while` loops are given a number of turns. That these are enough, so that
every loop ends by its own condition, is proved beside the facts about each pass.
-/

namespace YHsys.Compiler

/-! ## Expressions -/

/-- The constants known for scalars: the source's dictionary `env`. -/
abbrev ConstEnv := String → Option ℤ

namespace ConstEnv

def empty : ConstEnv := fun _ => none

def set (env : ConstEnv) (x : String) (value : ℤ) : ConstEnv := Function.update env x (some value)

def pop (env : ConstEnv) (x : String) : ConstEnv := Function.update env x none

end ConstEnv

def notNot (e : Expr) : Expr := .unary .not (.unary .not e)

/-- A unary operator in `_simplify_expr` (`optimizer.py:119`), its operand simplified. -/
def simplifyUnary (op : UnaryOp) : Expr → Expr
  | .int value => .int (foldUnary op value)
  | operand => .unary op operand

/-- The rules of `_simplify_expr` for an operator that is not applied to two constants
(`optimizer.py:135`). -/
def simplifyRules (op : BinaryOp) (lhs rhs : Expr) : Expr :=
  match op with
  | .add =>
    if lhs = .int 0 then rhs
    else if rhs = .int 0 then lhs
    else .binary op lhs rhs
  | .sub => if rhs = .int 0 then lhs else .binary op lhs rhs
  | .mul =>
    if lhs = .int 0 ∨ rhs = .int 0 then .int 0
    else if lhs = .int 1 then rhs
    else if rhs = .int 1 then lhs
    else .binary op lhs rhs
  | .div => if rhs = .int 1 then lhs else .binary op lhs rhs
  | .land =>
    if truthyConst lhs = some false ∨ truthyConst rhs = some false then .int 0
    else if truthyConst lhs = some true then notNot rhs
    else if truthyConst rhs = some true then notNot lhs
    else .binary op lhs rhs
  | .lor =>
    if truthyConst lhs = some true ∨ truthyConst rhs = some true then .int 1
    else if truthyConst lhs = some false then notNot rhs
    else if truthyConst rhs = some false then notNot lhs
    else .binary op lhs rhs
  | _ => .binary op lhs rhs

/-- A binary operator in `_simplify_expr` (`optimizer.py:125`), its operands simplified. -/
def simplifyBinary (op : BinaryOp) (lhs rhs : Expr) : Except PyError Expr :=
  match lhs, rhs with
  | .int m, .int n =>
    if op.isDivision ∧ n = 0 then .ok (.binary op lhs rhs)
    else do
      let value ← foldBinary op m n
      .ok (.int value)
  | _, _ => .ok (simplifyRules op lhs rhs)

/-- A variable in `_simplify_expr`. -/
def simplifyVar (env : ConstEnv) (x : String) : Expr :=
  match env x with
  | some value => .int value
  | none => .var x

mutual
/-- `_simplify_expr` (`optimizer.py:96`), with at most `n` turns of its inner loops. -/
def simplifyExprN (env : ConstEnv) : ℕ → Expr → Except PyError Expr
  | 0, e => .ok e
  | _ + 1, .int value => .ok (.int value)
  | _ + 1, .var x => .ok (simplifyVar env x)
  | n + 1, .array x index => do
      let index ← simplifyExprN env n index
      .ok (.array x index)
  | n + 1, .call f args => do
      let args ← args.mapM (simplifyFixedPointN env n)
      .ok (.call f args)
  | n + 1, .unary op operand => do
      let operand ← simplifyExprN env n operand
      .ok (simplifyUnary op operand)
  | n + 1, .binary op lhs rhs => do
      let lhs ← simplifyExprN env n lhs
      let rhs ← simplifyExprN env n rhs
      simplifyBinary op lhs rhs

/-- `_simplify_fixed_point` (`optimizer.py:178`). -/
def simplifyFixedPointN (env : ConstEnv) : ℕ → Expr → Except PyError Expr
  | 0, e => .ok e
  | n + 1, e => do
      let next ← simplifyExprN env n e
      if next = e then .ok next else simplifyFixedPointN env n next
end

mutual
/-- What every simplification makes smaller. -/
def Expr.weight : Expr → ℕ
  | .int _ => 1
  | .var _ => 2
  | .array _ index => index.weight + 1
  | .call _ args => Expr.argsWeight args + 1
  | .unary _ operand => operand.weight + 1
  | .binary _ lhs rhs => lhs.weight + rhs.weight + 2

def Expr.argsWeight : List Expr → ℕ
  | [] => 0
  | arg :: args => arg.weight + 2 + Expr.argsWeight args
end

/-- `_simplify_fixed_point` with enough turns. -/
def simplifyFixedPoint (env : ConstEnv) (e : Expr) : Except PyError Expr :=
  simplifyFixedPointN env (e.weight + 2) e

/-! ## The scan -/

/-- `_invalidate_on_store` (`optimizer.py:194`). -/
def invalidateOnStore (symbols : List IrSymbol) (env : ConstEnv) : LValue → ConstEnv
  | .var x => env.pop x
  | .array x _ => (symbols.filter (·.size.isSome)).foldl (fun env s => env.pop s.name) (env.pop x)

/-- An assignment, in the loop of `_optimize_once` (`optimizer.py:272`). -/
def afterAssign (symbols : List IrSymbol) (env : ConstEnv) (target : LValue) (e : Expr) :
    ConstEnv :=
  match target, e with
  | .var x, .int value => (invalidateOnStore symbols env target).set x value
  | _, _ => invalidateOnStore symbols env target

/-- The target of a call, in the loop of `_optimize_once` (`optimizer.py:291`). -/
def scanTarget (env : ConstEnv) : LValue → Except PyError LValue
  | .var x => .ok (.var x)
  | .array x index => do
      let index ← simplifyFixedPoint env index
      .ok (.array x index)

/-- An operation, in the loop of `_optimize_once`, and `env` after it. -/
def scanAction (symbols : List IrSymbol) (env : ConstEnv) :
    Action → Except PyError (Action × ConstEnv)
  | .assign target e => do
      let e ← simplifyFixedPoint env e
      .ok (.assign target e, afterAssign symbols env target e)
  | .arrayZero x size => .ok (.arrayZero x size, env.pop x)
  | .call f args none => do
      let args ← args.mapM (simplifyFixedPoint env)
      .ok (.call f args none, env)
  | .call f args (some target) => do
      let args ← args.mapM (simplifyFixedPoint env)
      let target ← scanTarget env target
      .ok (.call f args (some target), invalidateOnStore symbols env target)
  | .sysWriteConst fd cid size => .ok (.sysWriteConst fd cid size, env)
  | .sysWriteExpr e => do
      let e ← simplifyFixedPoint env e
      .ok (.sysWriteExpr e, env)
  | .sysPauseExpr e => do
      let e ← simplifyFixedPoint env e
      .ok (.sysPauseExpr e, env)
  | .sysExitExpr e => do
      let e ← simplifyFixedPoint env e
      .ok (.sysExitExpr e, env)
  | .returnExpr e => do
      let e ← simplifyFixedPoint env e
      .ok (.returnExpr e, env)

/-- A branch whose condition is a constant is a jump, or nothing. -/
def pruneBranch : Instr → Option Instr
  | .ifGoto cond l =>
    match truthyConst cond with
    | some true => some (.goto l)
    | some false => none
    | none => some (.ifGoto cond l)
  | ins => some ins

/-- One turn of the loop of `_optimize_once` (`optimizer.py:241`): what it appends to
`new_instructions`, if anything, and `env` after it. -/
def scanInstr (symbols : List IrSymbol) (env : ConstEnv) :
    Instr → Except PyError (Option Instr × ConstEnv)
  | .label l => .ok (some (.label l), .empty)
  | .goto l => .ok (some (.goto l), .empty)
  | .ifGoto cond l => do
      let cond ← simplifyFixedPoint env cond
      .ok (pruneBranch (.ifGoto cond l), .empty)
  | .act a => do
      let (a, env) ← scanAction symbols env a
      .ok (some (.act a), env)

/-- The loop of `_optimize_once`. -/
def scan (symbols : List IrSymbol) : ConstEnv → List Instr → Except PyError (List (Option Instr))
  | _, [] => .ok []
  | env, ins :: rest => do
      let (kept, env) ← scanInstr symbols env ins
      let rest ← scan symbols env rest
      .ok (kept :: rest)

/-! ## Branches and reachability -/

/-- `_remove_dead_branches` (`optimizer.py:323`). -/
def removeDeadBranches (code : List Instr) : List Instr := (code.map pruneBranch).reduceOption

/-- `label_to_index.get(l)`: in a dictionary the last of several definitions counts. -/
def labelToIndex (code : List Instr) (l : Label) : Option ℕ :=
  ((List.range code.length).filter fun idx => code[idx]? = some (.label l)).getLast?

/-- `op in ("sys_exit_expr", "return_expr")`. -/
def Action.exits : Action → Bool
  | .sysExitExpr _ => true
  | .returnExpr _ => true
  | _ => false

/-- Where control can go after instruction `idx`. In the worklist of
`_remove_unreachable_code` the one that is taken first stands first. -/
def successors (code : List Instr) (idx : ℕ) : Instr → List ℕ
  | .goto l => (labelToIndex code l).toList
  | .ifGoto _ l => (idx + 1) :: (labelToIndex code l).toList
  | .label _ => [idx + 1]
  | .act a => if a.exits then [] else [idx + 1]

/-- The `while worklist` of `_remove_unreachable_code` (`optimizer.py:352`). -/
def visit (code : List Instr) : ℕ → List ℕ → List ℕ → List ℕ
  | 0, _, visited => visited
  | _ + 1, [], visited => visited
  | n + 1, idx :: worklist, visited =>
    match code[idx]? with
    | none => visit code n worklist visited
    | some ins =>
      if idx ∈ visited then visit code n worklist visited
      else visit code n (successors code idx ins ++ worklist) (idx :: visited)

/-- `visited` at the end of the loop. -/
def reachable (code : List Instr) : List ℕ := visit code (2 * code.length + 1) [0] []

/-- What `_remove_unreachable_code` leaves of each instruction. -/
def keepReachable (code : List Instr) : List (Option Instr) :=
  code.mapIdx fun idx ins => if idx ∈ reachable code then some ins else none

/-- `_remove_unreachable_code` (`optimizer.py:339`). -/
def removeUnreachableCode (code : List Instr) : List Instr := (keepReachable code).reduceOption

/-! ## Dead stores -/

mutual
/-- `_expr_reads` (`optimizer.py:382`). -/
def exprReads : Expr → Finset String
  | .int _ => ∅
  | .var x => {x}
  | .array x index => {x} ∪ exprReads index
  | .call _ args => argsReads args
  | .unary _ operand => exprReads operand
  | .binary _ lhs rhs => exprReads lhs ∪ exprReads rhs

def argsReads : List Expr → Finset String
  | [] => ∅
  | arg :: args => exprReads arg ∪ argsReads args
end

/-- A divisor that is a constant other than 0. -/
def isNonzeroConst : Expr → Bool
  | .int value => value ≠ 0
  | _ => false

/-- `_expr_is_side_effect_free` (`optimizer.py:406`). -/
def exprIsSideEffectFree : Expr → Bool
  | .int _ => true
  | .var _ => true
  | .array _ index => exprIsSideEffectFree index
  | .call _ _ => false
  | .unary _ operand => exprIsSideEffectFree operand
  | .binary op lhs rhs =>
    (!op.isDivision || isNonzeroConst rhs) && exprIsSideEffectFree lhs && exprIsSideEffectFree rhs

/-- The index of a target that is an array element is read. -/
def LValue.reads : LValue → Finset String
  | .var _ => ∅
  | .array _ index => exprReads index

def LValue.defs : LValue → Finset String
  | .var x => {x}
  | .array _ _ => ∅

/-- `uses[idx]` of an operation (`optimizer.py:445`). -/
def Action.uses : Action → Finset String
  | .assign target e => exprReads e ∪ target.reads
  | .arrayZero _ _ => ∅
  | .call _ args target => argsReads args ∪ target.elim ∅ LValue.reads
  | .sysWriteConst _ _ _ => ∅
  | .sysWriteExpr e => exprReads e
  | .sysPauseExpr e => exprReads e
  | .sysExitExpr e => exprReads e
  | .returnExpr e => exprReads e

/-- `defs[idx]` of an operation. -/
def Action.defs : Action → Finset String
  | .assign target _ => target.defs
  | .call _ _ target => target.elim ∅ LValue.defs
  | _ => ∅

/-- `uses[idx]`. -/
def instrUses : Instr → Finset String
  | .ifGoto cond _ => exprReads cond
  | .act a => a.uses
  | _ => ∅

/-- `defs[idx]`. -/
def instrDefs : Instr → Finset String
  | .act a => a.defs
  | _ => ∅

/-- `live_in` and `live_out`. -/
structure Live where
  liveIn : List (Finset String)
  liveOut : List (Finset String)

/-- `live_in[idx]`; nothing is live past the end, where the source has no successor. -/
def Live.inAt (live : Live) (idx : ℕ) : Finset String := live.liveIn.getD idx ∅

def Live.outAt (live : Live) (idx : ℕ) : Finset String := live.liveOut.getD idx ∅

/-- The union of `live_in` over some instructions. -/
def Live.inOf (live : Live) (succs : List ℕ) : Finset String :=
  succs.foldl (fun acc succ => acc ∪ live.inAt succ) ∅

/-- `next_in`, from `next_out`. -/
def liveBefore (ins : Instr) (out : Finset String) : Finset String :=
  instrUses ins ∪ (out \ instrDefs ins)

/-- One turn of the inner loop of `_remove_dead_stores` (`optimizer.py:480`), with
`changed`. -/
def liveStep (code : List Instr) (idx : ℕ) (st : Live × Bool) : Live × Bool :=
  match code[idx]? with
  | none => st
  | some ins =>
    let live := st.1
    let nextOut := live.inOf (successors code idx ins)
    let nextIn := liveBefore ins nextOut
    if nextOut ≠ live.outAt idx ∨ nextIn ≠ live.inAt idx then
      (⟨live.liveIn.set idx nextIn, live.liveOut.set idx nextOut⟩, true)
    else st

/-- The inner loop of `_remove_dead_stores`, from the last instruction to the first. -/
def liveRound (code : List Instr) (live : Live) : Live × Bool :=
  (List.range code.length).foldr (liveStep code) (live, false)

/-- The `while changed` of `_remove_dead_stores`. -/
def liveLoop (code : List Instr) : ℕ → Live → Live
  | 0, live => live
  | n + 1, live =>
    let (live, changed) := liveRound code live
    if changed then liveLoop code n live else live

/-- Every name some instruction uses. -/
def usedNames (code : List Instr) : Finset String :=
  code.foldr (fun ins acc => instrUses ins ∪ acc) ∅

/-- `live_in` and `live_out` at the end of the loop. -/
def liveness (code : List Instr) : Live :=
  liveLoop code (2 * code.length * (usedNames code).card + 1)
    ⟨List.replicate code.length ∅, List.replicate code.length ∅⟩

/-- Whether instruction `idx` stores a value nobody reads. -/
def isDeadStore (live : Live) (idx : ℕ) : Instr → Bool
  | .act (.assign (.var x) e) => x ∉ live.outAt idx ∧ exprIsSideEffectFree e
  | _ => false

/-- What `_remove_dead_stores` leaves of each instruction. -/
def keepStores (code : List Instr) : List (Option Instr) :=
  code.mapIdx fun idx ins => if isDeadStore (liveness code) idx ins then none else some ins

/-- `_remove_dead_stores` (`optimizer.py:425`). -/
def removeDeadStores (code : List Instr) : List Instr := (keepStores code).reduceOption

/-! ## Jumps and labels -/

/-- A jump to the label that follows it. -/
def isIdleJump (code : List Instr) (idx : ℕ) : Instr → Bool
  | .goto l => code[idx + 1]? = some (.label l)
  | _ => false

/-- The first loop of `_cleanup_control_flow` (`optimizer.py:511`). -/
def keepJumps (code : List Instr) : List (Option Instr) :=
  code.mapIdx fun idx ins => if isIdleJump code idx ins then none else some ins

/-- Whether some instruction jumps to `l`. -/
def isTarget (code : List Instr) (l : Label) : Bool :=
  code.any fun
    | .goto l' => l' = l
    | .ifGoto _ l' => l' = l
    | _ => false

def keepLabel (code : List Instr) : Instr → Option Instr
  | .label l => if isTarget code l then some (.label l) else none
  | ins => some ins

/-- The second loop of `_cleanup_control_flow` (`optimizer.py:525`). -/
def keepLabels (code : List Instr) : List (Option Instr) := code.map (keepLabel code)

/-- One turn of `_cleanup_control_flow`. -/
def cleanupRound (code : List Instr) : List Instr :=
  (keepLabels (keepJumps code).reduceOption).reduceOption

/-- The `while True` of `_cleanup_control_flow`; `changed` says that something was
dropped. -/
def cleanupLoop : ℕ → List Instr → List Instr
  | 0, code => code
  | n + 1, code =>
    let pruned := cleanupRound code
    if pruned.length = code.length then pruned else cleanupLoop n pruned

/-- `_cleanup_control_flow` (`optimizer.py:506`). -/
def cleanupControlFlow (code : List Instr) : List Instr := cleanupLoop (code.length + 1) code

/-! ## Modules -/

/-- `_optimize_once` (`optimizer.py:226`) of the code of one function. -/
def optimizeCode (symbols : List IrSymbol) (code : List Instr) : Except PyError (List Instr) := do
  let kept ← scan symbols .empty code
  let code := removeUnreachableCode (removeDeadBranches kept.reduceOption)
  .ok (cleanupControlFlow (removeDeadStores code))

/-- `_optimize_once` of a function. -/
def optimizeFunction (func : IrFunction) : Except PyError IrFunction := do
  let code ← optimizeCode func.symbols func.instructions
  .ok { func with instructions := code }

/-- `_optimize_once` (`optimizer.py:226`) of a module. The copy of `main` is the first one. -/
def optimizeOnce (m : IrModule) : Except PyError IrModule :=
  if m.functions = [] then do
    let code ← optimizeCode m.symbols m.instructions
    .ok { m with instructions := code }
  else do
    let funcs ← m.functions.mapM optimizeFunction
    match funcs.find? (·.name = "main") with
    | some main =>
      .ok { m with functions := funcs, symbols := main.symbols, instructions := main.instructions }
    | none => .ok { m with functions := funcs }

/-- What every change to an operation makes smaller. -/
def Action.weight : Action → ℕ
  | .assign _ e => e.weight
  | .arrayZero _ _ => 0
  | .call _ args none => Expr.argsWeight args
  | .call _ args (some (.var _)) => Expr.argsWeight args
  | .call _ args (some (.array _ index)) => Expr.argsWeight args + index.weight
  | .sysWriteConst _ _ _ => 0
  | .sysWriteExpr e => e.weight
  | .sysPauseExpr e => e.weight
  | .sysExitExpr e => e.weight
  | .returnExpr e => e.weight

def instrWeight : Instr → ℕ
  | .act a => a.weight + 1
  | .label _ => 1
  | .goto _ => 1
  | .ifGoto cond _ => cond.weight + 2

def codeWeight (code : List Instr) : ℕ := (code.map instrWeight).sum

/-- The weight of the code `_optimize_once` works on. -/
def IrModule.weight (m : IrModule) : ℕ :=
  if m.functions = [] then codeWeight m.instructions
  else (m.functions.map fun f => codeWeight f.instructions).sum

/-- `optimize_ir` (`optimizer.py:205`), without its statistics. -/
def optimizeIr (m : IrModule) : Except PyError IrModule :=
  FixedPoint.settle optimizeOnce (2 * m.weight + 2) m

end YHsys.Compiler
