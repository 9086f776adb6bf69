import YHsys.Compiler.FoldSpec

/-!
# When simplification is exact

`exactSpec S` asks that each rewrite be right in the semantics `S`: a fold has the
operator's result, a tested constant counts as true iff it is not 0, and a dropped operand
has no call. Such a simplification keeps the behaviour (`eval_simplify`).
-/

namespace YHsys.Compiler

open Except (bind_eq_ok ok_bind)

variable {V : Type}

/-- The identities behind the rules of `_simplify_expr`. -/
structure OpSem.Laws (S : OpSem V) : Prop where
  zero_add : ∀ v, S.binary .add (S.lit 0) v = some v
  add_zero : ∀ v, S.binary .add v (S.lit 0) = some v
  sub_zero : ∀ v, S.binary .sub v (S.lit 0) = some v
  zero_mul : ∀ v, S.binary .mul (S.lit 0) v = some (S.lit 0)
  mul_zero : ∀ v, S.binary .mul v (S.lit 0) = some (S.lit 0)
  one_mul : ∀ v, S.binary .mul (S.lit 1) v = some v
  mul_one : ∀ v, S.binary .mul v (S.lit 1) = some v
  div_one : ∀ v, S.binary .div v (S.lit 1) = some v
  not : ∀ v, S.unary .not v = some (S.bool (!S.truthy v))

/-- No operation stops the program. -/
structure OpSem.Total (S : OpSem V) : Prop where
  unary : ∀ op v, ∃ w, S.unary op v = some w
  binary : ∀ op v w, ∃ u, S.binary op v w = some u
  read : ∀ l i, ∃ v, S.read l i = some v

/-- The constant counts as true iff it is not 0. -/
def TruthExact (S : OpSem V) (n : ℤ) : Prop := S.truthy (S.lit n) = (n != 0)

/-- A folded binary operator has the operator's result. The quotient of floats must also be
the integer quotient. -/
structure FoldExact (S : OpSem V) (op : BinaryOp) (m n k : ℤ) : Prop where
  fold : foldBinary op m n = .ok k
  value : S.apply op (S.lit m) (S.lit n) = some (S.lit k)
  div : op = .div → k = m.tdiv n
  truth : ∀ {z}, op.absorbing = some z → TruthExact S m ∧ TruthExact S n

/-- A folded unary operator has the operator's result. -/
def UnaryExact (S : OpSem V) (op : UnaryOp) (n : ℤ) : Prop :=
  S.unary op (S.lit n) = some (S.lit (foldUnary op n))

theorem unaryExact_not {S : OpSem V} (hL : S.Laws) {n : ℤ} (h : TruthExact S n) :
    UnaryExact S .not n := by
  rw [UnaryExact, hL.not, show S.truthy (S.lit n) = (n != 0) from h]
  by_cases hn : n = 0 <;> simp [hn, foldUnary, OpSem.bool, pyBool]

theorem truthExact_bool (S : OpSem V) (b : Bool) : TruthExact S (pyBool b) := by
  rw [TruthExact, S.truthy_bool]
  cases b <;> rfl

/-- Every rewrite is right in `S`. `f() && 0` is not: it loses the call. -/
def exactSpec (S : OpSem V) (hL : S.Laws) : FoldSpec where
  unary := UnaryExact S
  binary := FoldExact S
  truth := TruthExact S
  drop e := e.hasCall = false
  fold h := h.fold
  div h := h.div rfl
  logical hop h := h.truth hop
  not h := unaryExact_not hL h
  bool := truthExact_bool S

/-- The store has the constants that `env` knows. -/
def ConstEnv.Agrees (S : OpSem V) (env : ConstEnv) (σ : Store V) : Prop :=
  ∀ x n, env x = some n → σ.vars x = S.lit n

variable {S : OpSem V} {call : String → List V → Beh (Event V) V} {env : ConstEnv}

/-! ## Simplification keeps the behaviour -/

theorem eval_pure (hT : S.Total) (σ : Store V) : ∀ {e : Expr}, e.hasCall = false →
    ∃ v, eval S call e σ = pure v
  | .int n, _ => ⟨_, rfl⟩
  | .var x, _ => ⟨_, rfl⟩
  | .array x index, h => by
    obtain ⟨i, hi⟩ := eval_pure hT σ (e := index) h
    obtain ⟨v, hv⟩ := hT.read (σ.arrs x) i
    exact ⟨v, by simp [eval, hi, hv]⟩
  | .call f args, h => by simp [Expr.hasCall] at h
  | .unary op a, h => by
    obtain ⟨v, hv⟩ := eval_pure hT σ (e := a) h
    obtain ⟨w, hw⟩ := hT.unary op v
    exact ⟨w, by simp [eval, hv, hw]⟩
  | .binary op a b, h => by
    have h' : a.hasCall = false ∧ b.hasCall = false := by simpa [Expr.hasCall] using h
    obtain ⟨v, hv⟩ := eval_pure hT σ h'.1
    obtain ⟨w, hw⟩ := eval_pure hT σ h'.2
    obtain ⟨u, hu⟩ : ∃ u, S.apply op v w = some u := by
      cases op with
      | land => exact ⟨_, rfl⟩
      | lor => exact ⟨_, rfl⟩
      | _ => exact hT.binary _ v w
    refine ⟨u, ?_⟩
    cases op with
    | land =>
      cases hu
      by_cases ht : S.truthy v = true <;> simp [eval, hv, hw, ht]
    | lor =>
      cases hu
      by_cases ht : S.truthy v = true <;> simp [eval, hv, hw, ht]
    | _ =>
      have hu' : S.binary _ v w = some u := hu
      simp [eval, hv, hw, hu']

theorem eval_notNot (hL : S.Laws) (e : Expr) (σ : Store V) :
    eval S call (notNot e) σ = eval S call e σ >>= fun v => pure (S.bool (S.truthy v)) := by
  simp [notNot, eval, hL.not, OpSem.bool, S.truthy_bool]

theorem TestOk.truthy {hL : S.Laws} {e : Expr} (h : TestOk (exactSpec S hL) e) {v : Bool}
    (hv : truthyConst e = some v) : ∃ n, e = .int n ∧ S.truthy (S.lit n) = v := by
  obtain ⟨n, rfl, hn⟩ := truthyConst_const hv
  exact ⟨n, rfl, (show TruthExact S n from h n rfl).trans hn⟩

theorem eval_arith {op : BinaryOp} (hop : op.absorbing = none) (a b : Expr) (σ : Store V) :
    eval S call (.binary op a b) σ = eval S call a σ >>= fun v =>
      eval S call b σ >>= fun w => .ofOption (S.binary op v w) := by
  cases op with
  | land | lor => cases hop
  | _ => simp only [eval]

theorem eval_logical {op : BinaryOp} {z : Bool} (hop : op.absorbing = some z) (a b : Expr)
    (σ : Store V) : eval S call (.binary op a b) σ = eval S call a σ >>= fun v =>
      if S.truthy v = z then pure (S.bool z)
      else eval S call b σ >>= fun w => pure (S.bool (S.truthy w)) := by
  cases op <;> cases hop
  · rw [eval]
    congr 1
    funext v
    by_cases hv : S.truthy v = true <;> simp [hv]
  · rw [eval]

section

variable {a b : Expr} {σ : Store V}

theorem eval_add_rules (hL : S.Laws) :
    eval S call (simplifyRules .add a b) σ = eval S call (.binary .add a b) σ := by
  unfold simplifyRules
  dsimp only
  split_ifs with ha hb
  · simp [ha, eval, hL.zero_add]
  · simp [hb, eval, hL.add_zero]
  · rfl

theorem eval_mul_rules (hL : S.Laws) (hT : S.Total) (ha : a = .int 0 → b.hasCall = false)
    (hb : b = .int 0 → a.hasCall = false) :
    eval S call (simplifyRules .mul a b) σ = eval S call (.binary .mul a b) σ := by
  unfold simplifyRules
  dsimp only
  split_ifs with h0 h1 h2
  · rcases h0 with rfl | rfl
    · obtain ⟨v, hv⟩ : ∃ v, eval S call b σ = pure v := eval_pure hT σ (ha rfl)
      simp [eval, hv, hL.zero_mul]
    · obtain ⟨v, hv⟩ : ∃ v, eval S call a σ = pure v := eval_pure hT σ (hb rfl)
      simp [eval, hv, hL.mul_zero]
  · simp [h1, eval, hL.one_mul]
  · simp [h2, eval, hL.mul_one]
  · rfl

theorem eval_logical_rules (hL : S.Laws) (hT : S.Total) {op : BinaryOp} {z : Bool}
    (hop : op.absorbing = some z) (ha : TestOk (exactSpec S hL) a) (hb : TestOk (exactSpec S hL) b)
    (hdrop : truthyConst b = some z → a.hasCall = false) :
    eval S call (simplifyRules op a b) σ = eval S call (.binary op a b) σ := by
  rw [simplifyRules_logical hop, eval_logical hop]
  split_ifs with h0 h1 h2
  · rcases h0 with h0 | h0
    · obtain ⟨n, rfl, hn⟩ := ha.truthy h0
      simp [eval, hn, OpSem.bool]
    · obtain ⟨v, hv⟩ : ∃ v, eval S call a σ = pure v := eval_pure hT σ (hdrop h0)
      obtain ⟨n, rfl, hn⟩ := hb.truthy h0
      simp [eval, hv, hn, OpSem.bool]
  · obtain ⟨n, rfl, hn⟩ := ha.truthy h1
    simp [eval_notNot hL, eval, hn]
  · obtain ⟨n, rfl, hn⟩ := hb.truthy h2
    rw [eval_notNot hL]
    simp only [eval, Beh.pure_bind', hn]
    congr 1
    funext v
    by_cases hv : S.truthy v = z
    · simp [hv]
    · simp [Bool.eq_not.mpr hv]
  · rw [eval_logical hop]

theorem eval_simplifyRules (hL : S.Laws) (hT : S.Total) {op : BinaryOp}
    (hc : ¬(a.isConst = true ∧ b.isConst = true)) (h : BinaryOk (exactSpec S hL) op a b) :
    eval S call (simplifyRules op a b) σ = eval S call (.binary op a b) σ := by
  cases op with
  | add => exact eval_add_rules hL
  | sub =>
    unfold simplifyRules
    dsimp only
    split_ifs with hb
    · simp [hb, eval, hL.sub_zero]
    · rfl
  | mul =>
    obtain ⟨ha, hb⟩ := binaryOk_mul hc h
    exact eval_mul_rules hL hT ha hb
  | div =>
    unfold simplifyRules
    dsimp only
    split_ifs with hb
    · simp [hb, eval, hL.div_one]
    · rfl
  | land =>
    obtain ⟨ha, hb, hdrop⟩ := binaryOk_logical rfl hc h
    exact eval_logical_rules hL hT rfl ha hb hdrop
  | lor =>
    obtain ⟨ha, hb, hdrop⟩ := binaryOk_logical rfl hc h
    exact eval_logical_rules hL hT rfl ha hb hdrop
  | _ => rfl

theorem eval_simplifyBinary (hL : S.Laws) (hT : S.Total) {op : BinaryOp} {c : Expr}
    (h : BinaryOk (exactSpec S hL) op a b) (hc : simplifyBinary op a b = .ok c) :
    eval S call c σ = eval S call (.binary op a b) σ := by
  by_cases hconst : a.isConst = true ∧ b.isConst = true
  · obtain ⟨m, rfl⟩ := isConst_iff.mp hconst.1
    obtain ⟨n, rfl⟩ := isConst_iff.mp hconst.2
    rw [simplifyBinary_int] at hc
    split at hc
    · cases hc
      rfl
    · rename_i hdiv
      obtain ⟨k, hk⟩ := (binaryOk_int h).resolve_left hdiv
      rw [hk.fold, ok_bind] at hc
      cases hc
      rw [eval_binary_int, hk.value]
      rfl
  · rw [simplifyBinary_rules op hconst] at hc
    cases hc
    exact eval_simplifyRules hL hT hconst h

theorem eval_simplifyUnary {op : UnaryOp} (h : ∀ n, a = .int n → UnaryExact S op n) :
    eval S call (simplifyUnary op a) σ = eval S call (.unary op a) σ := by
  cases a with
  | int n => simp [simplifyUnary, eval, show S.unary op (S.lit n) = _ from h n rfl]
  | _ => rfl

theorem eval_simplifyVar (hσ : env.Agrees S σ) (x : String) :
    eval S call (simplifyVar env x) σ = eval S call (.var x) σ := by
  unfold simplifyVar
  split
  · rename_i n hn
    simp [eval, hσ x n hn]
  · rfl

mutual
theorem eval_simplify (hL : S.Laws) (hT : S.Total) (hσ : env.Agrees S σ) :
    ∀ {e e' : Expr}, FoldsOk (exactSpec S hL) env e → simplify env e = .ok e' →
      eval S call e' σ = eval S call e σ
  | .int n, e', _, h => by
    cases h
    rfl
  | .var x, e', _, h => by
    cases h
    exact eval_simplifyVar hσ x
  | .array x index, e', hex, h => by
    rw [FoldsOk] at hex
    obtain ⟨i, hi, h⟩ := bind_eq_ok.mp h
    cases h
    simp [eval, eval_simplify hL hT hσ hex hi]
  | .call f args, e', hex, h => by
    rw [FoldsOk] at hex
    obtain ⟨as, has, h⟩ := bind_eq_ok.mp h
    cases h
    simp [eval, evalArgs_simplifyArgs hL hT hσ hex has]
  | .unary op a, e', hex, h => by
    rw [FoldsOk] at hex
    obtain ⟨a', ha, h⟩ := bind_eq_ok.mp h
    cases h
    rw [eval_simplifyUnary fun n hn => hex.2 n (hn ▸ ha)]
    exact eval_unary_congr (eval_simplify hL hT hσ hex.1 ha) op
  | .binary op a b, e', hex, h => by
    rw [FoldsOk] at hex
    obtain ⟨a', ha, h⟩ := bind_eq_ok.mp h
    obtain ⟨b', hb, h⟩ := bind_eq_ok.mp h
    rw [eval_simplifyBinary hL hT (hex.2.2 a' b' ha hb) h]
    exact eval_binary_congr (eval_simplify hL hT hσ hex.1 ha)
      (eval_simplify hL hT hσ hex.2.1 hb) op

theorem evalArgs_simplifyArgs (hL : S.Laws) (hT : S.Total) (hσ : env.Agrees S σ) :
    ∀ {es es' : List Expr}, ArgsFoldOk (exactSpec S hL) env es → simplifyArgs env es = .ok es' →
      evalArgs S call es' σ = evalArgs S call es σ
  | [], es', _, h => by
    cases h
    rfl
  | e :: es, es', hex, h => by
    rw [ArgsFoldOk] at hex
    obtain ⟨e', he, h⟩ := bind_eq_ok.mp h
    obtain ⟨es', hes, h⟩ := bind_eq_ok.mp h
    cases h
    simp [evalArgs, eval_simplify hL hT hσ hex.1 he, evalArgs_simplifyArgs hL hT hσ hex.2 hes]
end

end

end YHsys.Compiler
