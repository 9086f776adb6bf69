import Mathlib.Data.Int.Notation
import Mathlib.Tactic.Common

/-!
# The YHC language

The syntax tree the parser builds (`frontend/ast/nodes.py`). Source positions, which
the tree carries only for error messages, are left out.

An expression of the IR (`ir/ir_types.py`, a dictionary with a `kind`) has the same six
kinds as an expression of the source, and an IR store target the same two as an lvalue, so
`Expr` and `LValue` serve both.
-/

namespace YHsys.Compiler

inductive UnaryOp where
  | plus
  | minus
  | not
  | bitNot
deriving DecidableEq, Repr

inductive BinaryOp where
  | add
  | sub
  | mul
  | div
  | mod
  | shl
  | shr
  | lt
  | le
  | gt
  | ge
  | eq
  | ne
  | band
  | bxor
  | bor
  | land
  | lor
deriving DecidableEq, Repr

/-- `=`, `+=`, `-=`, `*=`, `/=`, `%=`. -/
inductive AssignOp where
  | set
  | add
  | sub
  | mul
  | div
  | mod
deriving DecidableEq, Repr

inductive IncDecOp where
  | inc
  | dec
deriving DecidableEq, Repr

inductive BuiltinName where
  | printInt
  | printStr
  | pause
deriving DecidableEq, Repr

/-- `IntLiteral`, `VariableExpr`, `ArrayAccessExpr`, `CallExpr`, `UnaryExpr`, `BinaryExpr`. -/
inductive Expr where
  | int (value : ℤ)
  | var (name : String)
  | array (name : String) (index : Expr)
  | call (name : String) (args : List Expr)
  | unary (op : UnaryOp) (operand : Expr)
  | binary (op : BinaryOp) (lhs rhs : Expr)
deriving Repr, Inhabited

/-- A variable, or an element of an array. -/
inductive LValue where
  | var (name : String)
  | array (name : String) (index : Expr)
deriving Repr

mutual
/-- A statement. `builtin` holds whichever argument the parser found. -/
inductive Stmt where
  | varDecl (name : String) (size : Option ℤ) (init : Option Expr)
  | assign (target : LValue) (op : AssignOp) (expr : Expr)
  | incDec (target : LValue) (op : IncDecOp)
  | builtin (name : BuiltinName) (argExpr : Option Expr) (argString : Option String)
  | expr (e : Expr)
  | ite (cond : Expr) (thenBlock : List Stmt) (elseBranch : Else)
  | while (cond : Expr) (body : List Stmt)
  | ret (e : Expr)
  | empty

/-- The `else_branch` of an `IfStmt`: none, a block, or another `IfStmt`. -/
inductive Else where
  | none
  | block (b : List Stmt)
  | elif (cond : Expr) (thenBlock : List Stmt) (elseBranch : Else)
end

deriving instance Repr for Stmt, Else

abbrev Block := List Stmt

structure FunctionDef where
  name : String
  params : List String
  body : Block
deriving Repr

structure Program where
  functions : List FunctionDef
deriving Repr

/-! ## Equality of expressions -/

mutual
def Expr.beq : Expr → Expr → Bool
  | .int a, .int b => a == b
  | .var x, .var y => x == y
  | .array x i, .array y j => x == y && i.beq j
  | .call f as, .call g bs => f == g && Expr.beqArgs as bs
  | .unary o a, .unary o' b => o == o' && a.beq b
  | .binary o a b, .binary o' a' b' => o == o' && a.beq a' && b.beq b'
  | _, _ => false

def Expr.beqArgs : List Expr → List Expr → Bool
  | [], [] => true
  | a :: as, b :: bs => a.beq b && Expr.beqArgs as bs
  | _, _ => false
end

mutual
theorem Expr.beq_iff : ∀ a b : Expr, a.beq b = true ↔ a = b
  | .int a, b => by cases b <;> simp [Expr.beq]
  | .var x, b => by cases b <;> simp [Expr.beq]
  | .array x i, b => by cases b <;> simp [Expr.beq, Expr.beq_iff i]
  | .call f as, b => by cases b <;> simp [Expr.beq, Expr.beqArgs_iff as]
  | .unary o a, b => by cases b <;> simp [Expr.beq, Expr.beq_iff a]
  | .binary o l r, b => by
    cases b <;> simp [Expr.beq, Expr.beq_iff l, Expr.beq_iff r, and_assoc]

theorem Expr.beqArgs_iff : ∀ as bs : List Expr, Expr.beqArgs as bs = true ↔ as = bs
  | [], bs => by cases bs <;> simp [Expr.beqArgs]
  | a :: as, bs => by cases bs <;> simp [Expr.beqArgs, Expr.beq_iff a, Expr.beqArgs_iff as]
end

instance : DecidableEq Expr := fun a b => decidable_of_iff (a.beq b = true) (Expr.beq_iff a b)

deriving instance DecidableEq for LValue

end YHsys.Compiler
