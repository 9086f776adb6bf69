import YHsys.Compiler.Optimizer

/-!
# Simplification in one pass

`_simplify_fixed_point` repeats `_simplify_expr` until nothing changes, and does so again
for every argument of a call inside. `simplify` is one pass, by recursion on the
expression. One pass is enough: its result does not change any more
(`simplify_idem`), and the loops with their numbers of turns compute it
(`simplifyFixedPoint_eq`), errors included.
-/

namespace YHsys.Compiler

open Except (bind_eq_ok ok_bind)
open Compiler.Expr (argsWeight weight)

variable {env env' : ConstEnv}

mutual
/-- One pass of `_simplify_expr`. -/
def simplify (env : ConstEnv) : Expr → Except PyError Expr
  | .int value => .ok (.int value)
  | .var x => .ok (simplifyVar env x)
  | .array x index => do
      let index ← simplify env index
      .ok (.array x index)
  | .call f args => do
      let args ← simplifyArgs env args
      .ok (.call f args)
  | .unary op operand => do
      let operand ← simplify env operand
      .ok (simplifyUnary op operand)
  | .binary op lhs rhs => do
      let lhs ← simplify env lhs
      let rhs ← simplify env rhs
      simplifyBinary op lhs rhs

def simplifyArgs (env : ConstEnv) : List Expr → Except PyError (List Expr)
  | [] => .ok []
  | arg :: args => do
      let arg ← simplify env arg
      let args ← simplifyArgs env args
      .ok (arg :: args)
end

def Expr.isConst : Expr → Bool
  | .int _ => true
  | _ => false

/-! ## What one operator can become -/

/-- The results of `simplifyUnary`. -/
inductive UnaryResult (op : UnaryOp) (a : Expr) : Expr → Prop where
  | const (n : ℤ) : UnaryResult op a (.int n)
  | same (h : a.isConst = false) : UnaryResult op a (.unary op a)

theorem simplifyUnary_result (op : UnaryOp) (a : Expr) :
    UnaryResult op a (simplifyUnary op a) := by
  cases a with
  | int n => exact .const _
  | _ => exact .same rfl

theorem simplifyUnary_of_not_const {op : UnaryOp} {a : Expr} (h : a.isConst = false) :
    simplifyUnary op a = .unary op a := by
  cases a with
  | int n => cases h
  | _ => rfl

theorem simplifyUnary_not_not {a : Expr} (h : a.isConst = false) :
    simplifyUnary .not (simplifyUnary .not a) = notNot a := by
  rw [simplifyUnary_of_not_const h]
  rfl

/-- The operand that decides `&&` or `||` by itself. -/
def BinaryOp.absorbing : BinaryOp → Option Bool
  | .land => some false
  | .lor => some true
  | _ => none

theorem simplifyRules_logical {op : BinaryOp} {z : Bool} (hop : op.absorbing = some z)
    (a b : Expr) : simplifyRules op a b =
      if truthyConst a = some z ∨ truthyConst b = some z then .int (pyBool z)
      else if truthyConst a = some (!z) then notNot b
      else if truthyConst b = some (!z) then notNot a
      else .binary op a b := by
  cases op <;> cases hop <;> rfl

theorem foldBinary_logical {op : BinaryOp} {z : Bool} (hop : op.absorbing = some z) (m n : ℤ) :
    foldBinary op m n = .ok (pyBool (if (m != 0) = z then z else n != 0)) := by
  cases op <;> cases hop <;> cases hm : m != 0 <;> simp [foldBinary, hm]

theorem isDivision_of_logical {op : BinaryOp} {z : Bool} (hop : op.absorbing = some z) :
    op.isDivision = false := by
  cases op <;> cases hop <;> rfl

theorem truthyConst_eq (n : ℤ) : truthyConst (.int n) = some (n != 0) := by
  by_cases hn : n = 0 <;> simp [truthyConst, hn]

theorem truthyConst_const {e : Expr} {v : Bool} (h : truthyConst e = some v) :
    ∃ n, e = .int n ∧ (n != 0) = v := by
  cases e with
  | int n => exact ⟨n, rfl, Option.some.inj (truthyConst_eq n ▸ h)⟩
  | _ => simp [truthyConst] at h

theorem truthyConst_of_not_const {e : Expr} (h : e.isConst = false) : truthyConst e = none := by
  cases e with
  | int n => cases h
  | _ => rfl

theorem isConst_iff {e : Expr} : e.isConst = true ↔ ∃ n, e = .int n := by
  cases e <;> simp [Expr.isConst]

/-- The results of `simplifyBinary`. -/
inductive BinaryResult (op : BinaryOp) (a b : Expr) : Expr → Prop where
  | const (n : ℤ) : BinaryResult op a b (.int n)
  | same : BinaryResult op a b (.binary op a b)
  | left : BinaryResult op a b a
  | right : BinaryResult op a b b
  | notNotLeft {z : Bool} (hop : op.absorbing = some z) (h : a.isConst = false) :
      BinaryResult op a b (notNot a)
  | notNotRight {z : Bool} (hop : op.absorbing = some z) (h : b.isConst = false) :
      BinaryResult op a b (notNot b)

theorem simplifyRules_result_logical {op : BinaryOp} {z : Bool} (hop : op.absorbing = some z)
    {a b : Expr} (h : ¬(a.isConst = true ∧ b.isConst = true)) :
    BinaryResult op a b (simplifyRules op a b) := by
  rw [simplifyRules_logical hop]
  split_ifs with _ ha hb
  · exact .const _
  · -- the left operand is a constant, so the right one is none
    obtain ⟨n, rfl, -⟩ := truthyConst_const ha
    exact .notNotRight hop (by simpa [Expr.isConst] using h)
  · obtain ⟨n, rfl, -⟩ := truthyConst_const hb
    exact .notNotLeft hop (by simpa [Expr.isConst] using h)
  · exact .same

theorem simplifyRules_result (op : BinaryOp) {a b : Expr}
    (h : ¬(a.isConst = true ∧ b.isConst = true)) : BinaryResult op a b (simplifyRules op a b) := by
  cases op with
  | land => exact simplifyRules_result_logical rfl h
  | lor => exact simplifyRules_result_logical rfl h
  | add =>
    simp only [simplifyRules]
    split_ifs
    · exact .right
    · exact .left
    · exact .same
  | sub =>
    simp only [simplifyRules]
    split_ifs
    · exact .left
    · exact .same
  | mul =>
    simp only [simplifyRules]
    split_ifs
    · exact .const 0
    · exact .right
    · exact .left
    · exact .same
  | div =>
    simp only [simplifyRules]
    split_ifs
    · exact .left
    · exact .same
  | _ => exact .same

theorem simplifyBinary_rules (op : BinaryOp) {a b : Expr}
    (h : ¬(a.isConst = true ∧ b.isConst = true)) :
    simplifyBinary op a b = .ok (simplifyRules op a b) := by
  unfold simplifyBinary
  split
  · exact absurd ⟨rfl, rfl⟩ h
  · rfl

theorem simplifyBinary_int (op : BinaryOp) (m n : ℤ) :
    simplifyBinary op (.int m) (.int n) =
      if op.isDivision ∧ n = 0 then .ok (.binary op (.int m) (.int n))
      else foldBinary op m n >>= fun value => .ok (.int value) := rfl

theorem simplifyBinary_result {op : BinaryOp} {a b c : Expr} (h : simplifyBinary op a b = .ok c) :
    BinaryResult op a b c := by
  by_cases hc : a.isConst = true ∧ b.isConst = true
  · obtain ⟨m, rfl⟩ := isConst_iff.mp hc.1
    obtain ⟨n, rfl⟩ := isConst_iff.mp hc.2
    rw [simplifyBinary_int] at h
    split at h
    · cases h
      exact .same
    · obtain ⟨k, -, hk⟩ := bind_eq_ok.mp h
      cases hk
      exact .const k
  · rw [simplifyBinary_rules op hc] at h
    cases h
    exact simplifyRules_result op hc

/-! ## Weight -/

theorem simplifyVar_weight (env : ConstEnv) (x : String) :
    simplifyVar env x = .var x ∨ (simplifyVar env x).weight < (Expr.var x).weight := by
  unfold simplifyVar
  split
  · exact .inr (by simp [weight])
  · exact .inl rfl

theorem UnaryResult.weight_lt {op : UnaryOp} {a b c : Expr} (h : UnaryResult op b c)
    (hb : b = a ∨ b.weight < a.weight) :
    c = .unary op a ∨ c.weight < (Expr.unary op a).weight := by
  cases h with
  | const n => exact .inr (by cases a <;> simp [weight])
  | same =>
    rcases hb with rfl | hlt
    · exact .inl rfl
    · exact .inr (by simp only [weight]; omega)

theorem BinaryResult.weight_lt {op : BinaryOp} {a b a' b' c : Expr} (h : BinaryResult op a' b' c)
    (ha : a' = a ∨ a'.weight < a.weight) (hb : b' = b ∨ b'.weight < b.weight) :
    c = .binary op a b ∨ c.weight < (Expr.binary op a b).weight := by
  have ha' : a'.weight ≤ a.weight := by
    rcases ha with rfl | hlt
    · exact le_rfl
    · exact hlt.le
  have hb' : b'.weight ≤ b.weight := by
    rcases hb with rfl | hlt
    · exact le_rfl
    · exact hlt.le
  have hpos : ∀ e : Expr, 0 < e.weight := fun e => by cases e <;> simp [weight]
  have hposa := hpos a
  have hposb := hpos b
  cases h with
  | const n => exact .inr (by simp only [weight]; omega)
  | same =>
    rcases ha with rfl | hlt
    · rcases hb with rfl | hlt
      · exact .inl rfl
      · exact .inr (by simp only [weight]; omega)
    · exact .inr (by simp only [weight]; omega)
  | left => exact .inr (by simp only [weight]; omega)
  | right => exact .inr (by simp only [weight]; omega)
  | notNotLeft => exact .inr (by simp only [notNot, weight]; omega)
  | notNotRight => exact .inr (by simp only [notNot, weight]; omega)

mutual
theorem simplify_weight : ∀ {e e' : Expr}, simplify env e = .ok e' →
    e' = e ∨ e'.weight < e.weight
  | .int n, e', h => by
    cases h
    exact .inl rfl
  | .var x, e', h => by
    cases h
    exact simplifyVar_weight env x
  | .array x index, e', h => by
    obtain ⟨index', hi, h⟩ := bind_eq_ok.mp h
    cases h
    rcases simplify_weight hi with rfl | hlt
    · exact .inl rfl
    · exact .inr (by simp only [weight]; omega)
  | .call f args, e', h => by
    obtain ⟨args', ha, h⟩ := bind_eq_ok.mp h
    cases h
    rcases simplifyArgs_weight ha with rfl | hlt
    · exact .inl rfl
    · exact .inr (by simp only [weight]; omega)
  | .unary op a, e', h => by
    obtain ⟨a', ha, h⟩ := bind_eq_ok.mp h
    cases h
    exact (simplifyUnary_result op a').weight_lt (simplify_weight ha)
  | .binary op a b, e', h => by
    obtain ⟨a', ha, h⟩ := bind_eq_ok.mp h
    obtain ⟨b', hb, h⟩ := bind_eq_ok.mp h
    exact (simplifyBinary_result h).weight_lt (simplify_weight ha) (simplify_weight hb)

theorem simplifyArgs_weight : ∀ {es es' : List Expr}, simplifyArgs env es = .ok es' →
    es' = es ∨ argsWeight es' < argsWeight es
  | [], es', h => by
    cases h
    exact .inl rfl
  | e :: es, es', h => by
    obtain ⟨e', he, h⟩ := bind_eq_ok.mp h
    obtain ⟨es', hes, h⟩ := bind_eq_ok.mp h
    cases h
    rcases simplify_weight he with rfl | hlt <;> rcases simplifyArgs_weight hes with rfl | hlt' <;>
      first
      | exact .inl rfl
      | exact .inr (by simp only [argsWeight]; omega)
end

/-! ## One pass is enough -/

theorem simplify_notNot {e : Expr} (hc : e.isConst = false) (h : simplify env e = .ok e) :
    simplify env (notNot e) = .ok (notNot e) := by
  simp only [notNot, simplify, h, ok_bind, simplifyUnary_of_not_const hc]
  rfl

theorem simplifyVar_idem (env : ConstEnv) (x : String) :
    simplify env (simplifyVar env x) = .ok (simplifyVar env x) := by
  unfold simplifyVar
  split
  · rfl
  · rename_i h
    simp only [simplify, simplifyVar, h]

mutual
theorem simplify_idem : ∀ {e e' : Expr}, simplify env e = .ok e' → simplify env e' = .ok e'
  | .int n, e', h => by
    cases h
    rfl
  | .var x, e', h => by
    cases h
    exact simplifyVar_idem env x
  | .array x index, e', h => by
    obtain ⟨index', hi, h⟩ := bind_eq_ok.mp h
    cases h
    rw [simplify, simplify_idem hi]
    rfl
  | .call f args, e', h => by
    obtain ⟨args', ha, h⟩ := bind_eq_ok.mp h
    cases h
    rw [simplify, simplifyArgs_idem ha]
    rfl
  | .unary op a, e', h => by
    obtain ⟨a', ha, h⟩ := bind_eq_ok.mp h
    cases h
    cases a' with
    | int n => rfl
    | _ => rw [simplifyUnary_of_not_const rfl, simplify, simplify_idem ha]; rfl
  | .binary op a b, e', h => by
    obtain ⟨a', ha, h⟩ := bind_eq_ok.mp h
    obtain ⟨b', hb, h⟩ := bind_eq_ok.mp h
    have ha' := simplify_idem ha
    have hb' := simplify_idem hb
    cases simplifyBinary_result h with
    | const n => rfl
    | same => rw [simplify, ha', hb', ok_bind, ok_bind, h]
    | left => exact ha'
    | right => exact hb'
    | notNotLeft _ hc => exact simplify_notNot hc ha'
    | notNotRight _ hc => exact simplify_notNot hc hb'

theorem simplifyArgs_idem : ∀ {es es' : List Expr}, simplifyArgs env es = .ok es' →
    simplifyArgs env es' = .ok es'
  | [], es', h => by
    cases h
    rfl
  | e :: es, es', h => by
    obtain ⟨e', he, h⟩ := bind_eq_ok.mp h
    obtain ⟨es', hes, h⟩ := bind_eq_ok.mp h
    cases h
    rw [simplifyArgs, simplify_idem he, simplifyArgs_idem hes]
    rfl
end

theorem simplifyArgs_eq_mapM {f : Expr → Except PyError Expr} : ∀ {es : List Expr} {n : ℕ},
    (∀ e, e.weight + 2 ≤ n → f e = simplify env e) → argsWeight es ≤ n →
    es.mapM f = simplifyArgs env es
  | [], _, _, _ => rfl
  | e :: es, n, hf, hn => by
    rw [argsWeight] at hn
    rw [List.mapM_cons, hf e (by omega), simplifyArgs_eq_mapM hf (by omega), simplifyArgs]
    rfl

theorem simplifyN_eq (n : ℕ) :
    (∀ e : Expr, e.weight ≤ n → simplifyExprN env n e = simplify env e) ∧
    (∀ e : Expr, e.weight + 2 ≤ n → simplifyFixedPointN env n e = simplify env e) := by
  induction n with
  | zero =>
    constructor
    · intro e he
      cases e <;> simp [weight] at he
    · intro e he
      omega
  | succ n ih =>
    obtain ⟨ihe, ihf⟩ := ih
    constructor
    · intro e he
      cases e with
      | int v => rfl
      | var x => rfl
      | array x index =>
        rw [weight] at he
        rw [simplifyExprN, simplify, ihe index (by omega)]
      | call f args =>
        rw [weight] at he
        rw [simplifyExprN, simplify, simplifyArgs_eq_mapM ihf (by omega)]
      | unary op a =>
        rw [weight] at he
        rw [simplifyExprN, simplify, ihe a (by omega)]
      | binary op a b =>
        rw [weight] at he
        rw [simplifyExprN, simplify, ihe a (by omega), ihe b (by omega)]
    · intro e he
      rw [simplifyFixedPointN, ihe e (by omega)]
      cases h : simplify env e with
      | error err => rfl
      | ok e' =>
        rw [ok_bind]
        split_ifs with heq
        · rfl
        · -- the second turn finds nothing left to do
          have hlt := (simplify_weight h).resolve_left heq
          rw [ihf e' (by omega), simplify_idem h]

@[simp] theorem simplifyFixedPoint_eq (env : ConstEnv) (e : Expr) :
    simplifyFixedPoint env e = simplify env e :=
  (simplifyN_eq _).2 e le_rfl

theorem mapM_simplifyFixedPoint (env : ConstEnv) (es : List Expr) :
    es.mapM (simplifyFixedPoint env) = simplifyArgs env es :=
  simplifyArgs_eq_mapM (fun e _ => simplifyFixedPoint_eq env e) le_rfl

end YHsys.Compiler
