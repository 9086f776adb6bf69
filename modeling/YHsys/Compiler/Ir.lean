import Mathlib.Data.Int.Bitwise
import YHsys.Compiler.Syntax
import YHsys.Lib.ExceptBind
import YHsys.Lib.FlatCode

/-!
# The intermediate representation and constant folding

`ir/ir_types.py`, and the two functions that fold an operator applied to constants, which
`ir/builder.py` and `ir/optimizer.py` both define with the same text. They compute with
Python's integers, which have no bound, and with Python's operators: `/` is the division
of floats, `%` rounds toward minus infinity, a negative shift count raises `ValueError`.
The memory and the recursion depth of the interpreter are taken to be unlimited.
-/

namespace YHsys.Compiler

/-- The exceptions the compiler's later phases can raise. -/
inductive PyError where
  | valueError (message : String)
  | overflowError (message : String)
  | zeroDivisionError (message : String)
  | keyError (key : String)
  | codegenError (message : String)
deriving DecidableEq, Repr

/-! ## Python's division -/

/-- `a / b` rounded to the nearest integer, ties to even. -/
def roundHalfEven (a b : ℕ) : ℕ :=
  let q := a / b
  let r := a % b
  if 2 * r < b then q
  else if b < 2 * r then q + 1
  else q + q % 2

/-- `int(a / b)` for non-negative `a` and positive `b`: the quotient is rounded to a double
(53 bits), then truncated. `none` is the `OverflowError` of a quotient that rounds to
`2 ^ 1024` or more. -/
def floatDiv (a b : ℕ) : Option ℕ :=
  let q := a / b
  if q = 0 then
    -- below one half the result is 0; above it the rounding may reach 1
    some (if 2 * a < b then 0 else roundHalfEven (a * 2 ^ 53) b / 2 ^ 53)
  else
    let k := Nat.log2 q
    if k < 52 then some (roundHalfEven (a * 2 ^ (52 - k)) b / 2 ^ (52 - k))
    else
      let v := roundHalfEven a (b * 2 ^ (k - 52)) * 2 ^ (k - 52)
      if v < 2 ^ 1024 then some v else none

/-- `int(lhs / rhs)`. -/
def pyDiv (lhs rhs : ℤ) : Except PyError ℤ :=
  if rhs = 0 then .error (.zeroDivisionError "division by zero")
  else
    match floatDiv lhs.natAbs rhs.natAbs with
    | none => .error (.overflowError "integer division result too large for a float")
    | some q => .ok (if (lhs < 0) = (rhs < 0) then q else -q)

/-- `lhs % rhs`. -/
def pyMod (lhs rhs : ℤ) : Except PyError ℤ :=
  if rhs = 0 then .error (.zeroDivisionError "integer modulo by zero")
  else .ok (lhs.fmod rhs)

/-- `lhs << rhs`. -/
def pyShl (lhs rhs : ℤ) : Except PyError ℤ :=
  if rhs < 0 then .error (.valueError "negative shift count") else .ok (lhs * 2 ^ rhs.toNat)

/-- `lhs >> rhs`. -/
def pyShr (lhs rhs : ℤ) : Except PyError ℤ :=
  if rhs < 0 then .error (.valueError "negative shift count") else .ok (lhs >>> rhs.toNat)

/-- `1 if b else 0`. -/
def pyBool (b : Bool) : ℤ := if b then 1 else 0

/-! ## Folding -/

/-- `_fold_unary` (`builder.py:73`, `optimizer.py:32`). -/
def foldUnary (op : UnaryOp) (value : ℤ) : ℤ :=
  match op with
  | .plus => value
  | .minus => -value
  | .not => if value ≠ 0 then 0 else 1
  | .bitNot => Int.lnot value

/-- `_fold_binary` (`builder.py:84`, `optimizer.py:43`). -/
def foldBinary (op : BinaryOp) (lhs rhs : ℤ) : Except PyError ℤ :=
  match op with
  | .add => .ok (lhs + rhs)
  | .sub => .ok (lhs - rhs)
  | .mul => .ok (lhs * rhs)
  | .div => pyDiv lhs rhs
  | .mod => pyMod lhs rhs
  | .shl => pyShl lhs rhs
  | .shr => pyShr lhs rhs
  | .band => .ok (Int.land lhs rhs)
  | .bor => .ok (Int.lor lhs rhs)
  | .bxor => .ok (Int.xor lhs rhs)
  | .eq => .ok (pyBool (lhs == rhs))
  | .ne => .ok (pyBool (lhs != rhs))
  | .lt => .ok (pyBool (lhs < rhs))
  | .le => .ok (pyBool (lhs ≤ rhs))
  | .gt => .ok (pyBool (lhs > rhs))
  | .ge => .ok (pyBool (lhs ≥ rhs))
  | .land => .ok (pyBool (lhs != 0 && rhs != 0))
  | .lor => .ok (pyBool (lhs != 0 || rhs != 0))

/-- `op in ("/", "%")`. -/
def BinaryOp.isDivision (op : BinaryOp) : Bool := op = .div ∨ op = .mod

/-- `_truthy_const` (`builder.py:143`, `optimizer.py:90`). -/
def truthyConst : Expr → Option Bool
  | .int value => some (value ≠ 0)
  | _ => none

/-! ## Instructions -/

/-- The words `fresh_label` is called with. -/
inductive LabelKind where
  | ifThen
  | ifElse
  | ifEnd
  | whileCond
  | whileBody
  | whileEnd
deriving DecidableEq, Repr

def LabelKind.text : LabelKind → String
  | .ifThen => "if_then"
  | .ifElse => "if_else"
  | .ifEnd => "if_end"
  | .whileCond => "while_cond"
  | .whileBody => "while_body"
  | .whileEnd => "while_end"

/-- A label made by `fresh_label`: the builder's `label_prefix` (a function's name, or
empty), the word it was called with and the running number. -/
structure Label where
  func : String
  kind : LabelKind
  id : ℕ
deriving DecidableEq, Repr

/-- The name of a label, as `fresh_label` spells it. -/
def Label.text (l : Label) : String :=
  if l.func = "" then l.kind.text ++ "_" ++ toString l.id
  else l.func ++ "_" ++ l.kind.text ++ "_" ++ toString l.id

/-- The operations other than `label`, `goto` and `if_goto`. The constant `cid` is the one
with the id `str{cid}`. -/
inductive Action where
  | assign (target : LValue) (expr : Expr)
  | arrayZero (name : String) (size : ℤ)
  | call (name : String) (args : List Expr) (target : Option LValue)
  | sysWriteConst (fd : ℤ) (cid : ℕ) (size : ℕ)
  | sysWriteExpr (expr : Expr)
  | sysPauseExpr (expr : Expr)
  | sysExitExpr (expr : Expr)
  | returnExpr (expr : Expr)
deriving DecidableEq, Repr

abbrev Instr := Flat.Instr Action Expr Label

structure IrSymbol where
  name : String
  size : Option ℤ
deriving DecidableEq, Repr

structure IrConstant where
  cid : ℕ
  text : String
  size : ℕ
deriving DecidableEq, Repr

structure IrFunction where
  name : String
  params : List String
  symbols : List IrSymbol
  instructions : List Instr
deriving DecidableEq, Repr

/-- A module. For a program of one function `functions` is empty; otherwise `symbols` and
`instructions` are a copy of those of `main`. -/
structure IrModule where
  symbols : List IrSymbol
  constants : List IrConstant
  instructions : List Instr
  functions : List IrFunction
deriving DecidableEq, Repr

end YHsys.Compiler
