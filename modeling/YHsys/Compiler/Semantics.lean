import YHsys.Compiler.Builder

/-!
# What programs mean

The behaviour of expressions, of statements as the language defines them, and of flat IR
code, over an arbitrary meaning of the operators (`OpSem`) and of the functions that a
body calls. Values are kept abstract: `lit n` is the value a constant stands for.

A call can show events and give a result, and changes nothing in the caller: every
function has its own variables. So an expression leaves the store alone.

The value of an assignment is computed before the index of its target. A compound
assignment and `++`, `--` compute the index once, `--` adds `-1`.
-/

namespace YHsys.Compiler

open Flat (Outcome)

/-- What can be seen of a running program. -/
inductive Event (V : Type) where
  | printInt (v : V)
  | printStr (text : String)
  | pause (v : V)
  | call (name : String) (args : List V)
deriving DecidableEq, Repr

/-- A meaning of the operators. An operation without a result stops the program. -/
structure OpSem (V : Type) where
  lit : ℤ → V
  unary : UnaryOp → V → Option V
  /-- The operators other than `&&` and `||`, whose meaning follows from `truthy`. -/
  binary : BinaryOp → V → V → Option V
  truthy : V → Bool
  read : List V → V → Option V
  write : List V → V → V → Option (List V)
  truthy_bool : ∀ b, truthy (lit (pyBool b)) = b

variable {V : Type}

/-- A truth value, as `0` or `1`. -/
def OpSem.bool (S : OpSem V) (b : Bool) : V := S.lit (pyBool b)

/-- A binary operator on two values. -/
def OpSem.apply (S : OpSem V) (op : BinaryOp) (v w : V) : Option V :=
  match op with
  | .land => some (S.bool (S.truthy v && S.truthy w))
  | .lor => some (S.bool (S.truthy v || S.truthy w))
  | op => S.binary op v w

/-- The builder's folding is exact: where it has a result, it is the operator's. -/
structure OpSem.Exact (S : OpSem V) : Prop where
  unary : ∀ op n, S.unary op (S.lit n) = some (S.lit (foldUnary op n))
  binary : ∀ op m n k, foldBinary op m n = .ok k →
    S.apply op (S.lit m) (S.lit n) = some (S.lit k)

/-- The variables and the arrays of one function. -/
structure Store (V : Type) where
  vars : String → V
  arrs : String → List V

def Store.setVar (σ : Store V) (x : String) (v : V) : Store V :=
  { σ with vars := Function.update σ.vars x v }

def Store.setArr (σ : Store V) (x : String) (l : List V) : Store V :=
  { σ with arrs := Function.update σ.arrs x l }

section

variable (S : OpSem V) (call : String → List V → Beh (Event V) V)

/-! ## Expressions -/

mutual
def eval : Expr → Store V → Beh (Event V) V
  | .int n, _ => pure (S.lit n)
  | .var x, σ => pure (σ.vars x)
  | .array x index, σ => eval index σ >>= fun i => .ofOption (S.read (σ.arrs x) i)
  | .call f args, σ => evalArgs args σ >>= call f
  | .unary op e, σ => eval e σ >>= fun v => .ofOption (S.unary op v)
  | .binary .land a b, σ => eval a σ >>= fun v =>
      if S.truthy v then eval b σ >>= fun w => pure (S.bool (S.truthy w))
      else pure (S.bool false)
  | .binary .lor a b, σ => eval a σ >>= fun v =>
      if S.truthy v then pure (S.bool true)
      else eval b σ >>= fun w => pure (S.bool (S.truthy w))
  | .binary op a b, σ => eval a σ >>= fun v => eval b σ >>= fun w => .ofOption (S.binary op v w)

def evalArgs : List Expr → Store V → Beh (Event V) (List V)
  | [], _ => pure []
  | e :: es, σ => eval e σ >>= fun v => evalArgs es σ >>= fun vs => pure (v :: vs)
end

/-- The test of a condition. -/
def test (e : Expr) (σ : Store V) : Beh (Event V) Bool :=
  eval S call e σ >>= fun v => pure (S.truthy v)

/-- Put `v` where `index` says in the array `x`. -/
def putArr (x : String) (i v : V) (σ : Store V) : Beh (Event V) (Store V) :=
  .ofOption (S.write (σ.arrs x) i v) >>= fun l => pure (σ.setArr x l)

/-- Put `v` into a target. -/
def put (target : LValue) (v : V) (σ : Store V) : Beh (Event V) (Store V) :=
  match target with
  | .var x => pure (σ.setVar x v)
  | .array x index => eval S call index σ >>= fun i => putArr S x i v σ

/-- A new array of zeros. -/
def zeros (size : ℤ) : List V := List.replicate size.toNat (S.lit 0)

/-! ## Statements -/

/-- How a statement ends: in a store, or by returning a value. -/
abbrev Ended (V : Type) := Outcome (Store V) V

/-- Replace the value in a target by what `f` makes of it. -/
def updateTarget (target : LValue) (f : V → Beh (Event V) V) (σ : Store V) :
    Beh (Event V) (Ended V) :=
  match target with
  | .var x => f (σ.vars x) >>= fun v => pure (.normal (σ.setVar x v))
  | .array x index => do
    let i ← eval S call index σ
    let old ← .ofOption (S.read (σ.arrs x) i)
    let v ← f old
    let σ ← putArr S x i v σ
    pure (.normal σ)

def execVarDecl (x : String) (size : Option ℤ) (init : Option Expr) (σ : Store V) :
    Beh (Event V) (Ended V) :=
  match size, init with
  | some size, _ => pure (.normal (σ.setArr x (zeros S size)))
  | none, none => pure (.normal (σ.setVar x (S.lit 0)))
  | none, some e => eval S call e σ >>= fun v => pure (.normal (σ.setVar x v))

def execAssign (target : LValue) (op : AssignOp) (e : Expr) (σ : Store V) :
    Beh (Event V) (Ended V) :=
  match op.binaryOp with
  | none => do
    let v ← eval S call e σ
    let σ ← put S call target v σ
    pure (.normal σ)
  | some op => updateTarget S call target
      (fun old => eval S call e σ >>= fun v => .ofOption (S.binary op old v)) σ

def execIncDec (target : LValue) (op : IncDecOp) (σ : Store V) :
    Beh (Event V) (Ended V) :=
  updateTarget S call target (fun old => .ofOption (S.binary .add old (S.lit op.delta))) σ

/-- A builtin. One without its argument does not occur in a program the analyzer accepts. -/
def execBuiltin (name : BuiltinName) (argExpr : Option Expr) (argString : Option String)
    (σ : Store V) : Beh (Event V) (Ended V) :=
  match name, argExpr, argString with
  | .printStr, _, some text => Beh.emit (.printStr text) >>= fun _ => pure (.normal σ)
  | .printInt, some e, _ =>
      eval S call e σ >>= fun v => Beh.emit (.printInt v) >>= fun _ => pure (.normal σ)
  | .pause, some e, _ =>
      eval S call e σ >>= fun v => Beh.emit (.pause v) >>= fun _ => pure (.normal σ)
  | _, _, _ => ⊥

mutual
def execStmt : Stmt → Store V → Beh (Event V) (Ended V)
  | .varDecl x size init, σ => execVarDecl S call x size init σ
  | .assign target op e, σ => execAssign S call target op e σ
  | .incDec target op, σ => execIncDec S call target op σ
  | .builtin name argExpr argString, σ => execBuiltin S call name argExpr argString σ
  | .expr e, σ => eval S call e σ >>= fun _ => pure (.normal σ)
  | .ite c t e, σ => test S call c σ >>= fun b => if b then execBlock t σ else execElse e σ
  | .while c body, σ => Flat.loop (test S call c) (fun σ => execBlock body σ) σ
  | .ret e, σ => eval S call e σ >>= fun v => pure (.returned v)
  | .empty, σ => pure (.normal σ)

def execBlock : List Stmt → Store V → Beh (Event V) (Ended V)
  | [], σ => pure (.normal σ)
  | s :: rest, σ => execStmt s σ >>= Flat.andThen fun σ => execBlock rest σ

def execElse : Else → Store V → Beh (Event V) (Ended V)
  | .none, σ => pure (.normal σ)
  | .block b, σ => execBlock b σ
  | .elif c t e, σ => test S call c σ >>= fun b => if b then execBlock t σ else execElse e σ
end

/-! ## IR code -/

/-- The constant with an id, of the size the instruction gives. -/
def constText (constants : List IrConstant) (cid size : ℕ) : Option String :=
  (constants.find? (·.cid = cid)).bind fun c => if c.size = size then some c.text else none

/-- One IR operation. -/
def act (constants : List IrConstant) (a : Action) (σ : Store V) :
    Beh (Event V) (Ended V) :=
  match a with
  | .assign target e => do
    let v ← eval S call e σ
    let σ ← put S call target v σ
    pure (.normal σ)
  | .arrayZero x size => pure (.normal (σ.setArr x (zeros S size)))
  | .call f args target => do
    let vs ← evalArgs S call args σ
    let v ← call f vs
    match target with
    | none => pure (.normal σ)
    | some target => do
      let σ ← put S call target v σ
      pure (.normal σ)
  | .sysWriteConst _ cid size => do
    let text ← .ofOption (constText constants cid size)
    Beh.emit (.printStr text) >>= fun _ => pure (.normal σ)
  | .sysWriteExpr e =>
      eval S call e σ >>= fun v => Beh.emit (.printInt v) >>= fun _ => pure (.normal σ)
  | .sysPauseExpr e =>
      eval S call e σ >>= fun v => Beh.emit (.pause v) >>= fun _ => pure (.normal σ)
  | .sysExitExpr e => eval S call e σ >>= fun v => pure (.returned v)
  | .returnExpr e => eval S call e σ >>= fun v => pure (.returned v)

/-- The meaning of IR code. -/
def irSem (constants : List IrConstant) : Flat.Sem (Event V) Action Expr (Store V) V where
  act := act S call constants
  test := test S call

end

/-! ## Facts about expressions -/

section

variable {S : OpSem V} {call : String → List V → Beh (Event V) V}

theorem eval_binary_int (op : BinaryOp) (m n : ℤ) (σ : Store V) :
    eval S call (.binary op (.int m) (.int n)) σ =
      .ofOption (S.apply op (S.lit m) (S.lit n)) := by
  cases op with
  | land => by_cases h : S.truthy (S.lit m) = true <;> simp [eval, OpSem.apply, h]
  | lor => by_cases h : S.truthy (S.lit m) = true <;> simp [eval, OpSem.apply, h]
  | _ => simp [eval, OpSem.apply]

theorem eval_unary_congr {a a' : Expr} {σ : Store V} (ha : eval S call a' σ = eval S call a σ)
    (op : UnaryOp) : eval S call (.unary op a') σ = eval S call (.unary op a) σ := by
  simp [eval, ha]

theorem eval_binary_congr {a a' b b' : Expr} {σ : Store V}
    (ha : eval S call a' σ = eval S call a σ) (hb : eval S call b' σ = eval S call b σ)
    (op : BinaryOp) : eval S call (.binary op a' b') σ = eval S call (.binary op a b) σ := by
  cases op <;> simp [eval, ha, hb]

/-- Whether a call stands in an expression. -/
def Expr.hasCall : Expr → Bool
  | .int _ | .var _ => false
  | .array _ index => index.hasCall
  | .call _ _ => true
  | .unary _ e => e.hasCall
  | .binary _ a b => a.hasCall || b.hasCall

theorem eval_of_not_hasCall (σ : Store V) : ∀ {e : Expr}, e.hasCall = false →
    ∃ o, eval S call e σ = .ofOption o
  | .int n, _ => ⟨some (S.lit n), rfl⟩
  | .var x, _ => ⟨some (σ.vars x), rfl⟩
  | .array x index, h => by
    obtain ⟨o, ho⟩ := eval_of_not_hasCall σ (e := index) h
    refine ⟨o.bind fun i => S.read (σ.arrs x) i, ?_⟩
    cases o <;> simp [eval, ho]
  | .call f args, h => by simp [Expr.hasCall] at h
  | .unary op a, h => by
    obtain ⟨o, ho⟩ := eval_of_not_hasCall σ (e := a) h
    refine ⟨o.bind fun v => S.unary op v, ?_⟩
    cases o <;> simp [eval, ho]
  | .binary op a b, h => by
    have h' : a.hasCall = false ∧ b.hasCall = false := by simpa [Expr.hasCall] using h
    obtain ⟨o, ho⟩ := eval_of_not_hasCall σ h'.1
    obtain ⟨o', ho'⟩ := eval_of_not_hasCall σ h'.2
    refine ⟨o.bind fun v => match op with
      | .land => if S.truthy v then o'.map (fun w => S.bool (S.truthy w)) else some (S.bool false)
      | .lor => if S.truthy v then some (S.bool true) else o'.map (fun w => S.bool (S.truthy w))
      | op => o'.bind fun w => S.binary op v w, ?_⟩
    cases o with
    | none => cases op <;> simp [eval, ho]
    | some v =>
      by_cases hv : S.truthy v = true <;> cases o' <;> cases op <;> simp [eval, ho, ho', hv]

end

/-! ## Python's own operators -/

/-- The operators as the folding computes them, on unbounded integers. -/
def pySem : OpSem ℤ where
  lit := id
  unary op v := some (foldUnary op v)
  binary op v w := (foldBinary op v w).toOption
  truthy v := v != 0
  read l i := if i < 0 then none else l[i.toNat]?
  write l i v := if 0 ≤ i ∧ i.toNat < l.length then some (l.set i.toNat v) else none
  truthy_bool b := by cases b <;> rfl

theorem pySem_exact : pySem.Exact where
  unary _ _ := rfl
  binary op m n k h := by
    have hk : (foldBinary op m n).toOption = some k := by rw [h]; rfl
    cases op with
    | land => exact hk
    | lor => exact hk
    | _ => exact hk

end YHsys.Compiler
