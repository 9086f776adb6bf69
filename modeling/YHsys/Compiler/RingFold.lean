import YHsys.Compiler.OptimizeSound
import YHsys.Lib.WordInt

/-!
# Folding of ring operators

The operators `+`, `-`, `*`, `&`, `|`, `^` and the unary `+`, `-`, `~` commute with the
reduction of integers to 32 bits. So the builder and the optimizer may compute with integers
of any size: what they fold an expression of these operators to is its 32-bit value.
-/

namespace YHsys.Compiler

def UnaryOp.isRing : UnaryOp → Bool
  | .plus | .minus | .bitNot => true
  | .not => false

def BinaryOp.isRing : BinaryOp → Bool
  | .add | .sub | .mul | .band | .bor | .bxor => true
  | _ => false

/-- An expression of ring operators over literals and variables. -/
def Expr.isRing : Expr → Bool
  | .int _ => true
  | .var _ => true
  | .unary op a => op.isRing && a.isRing
  | .binary op a b => op.isRing && a.isRing && b.isRing
  | .array _ _ => false
  | .call _ _ => false

/-- No variable stands in the expression. -/
def Expr.isLiteral : Expr → Bool
  | .int _ => true
  | .unary _ a => a.isLiteral
  | .binary _ a b => a.isLiteral && b.isLiteral
  | _ => false

theorem unaryExact_ring {op : UnaryOp} (h : op.isRing = true) (n : ℤ) :
    UnaryExact sem32 op n := by
  cases op with
  | plus => rfl
  | minus => exact congrArg some BitVec.ofInt_neg.symm
  | bitNot => exact congrArg some (WordInt.ofInt_lnot n).symm
  | not => cases h

theorem foldExact_ring {op : BinaryOp} (h : op.isRing = true) (m n : ℤ) :
    ∃ k, FoldExact sem32 op m n k := by
  cases op with
  | add => exact ⟨m + n, rfl, congrArg some (BitVec.ofInt_add m n).symm, nofun, nofun⟩
  | sub => exact ⟨m - n, rfl, congrArg some (WordInt.ofInt_sub m n).symm, nofun, nofun⟩
  | mul => exact ⟨m * n, rfl, congrArg some (BitVec.ofInt_mul m n).symm, nofun, nofun⟩
  | band => exact ⟨m.land n, rfl, congrArg some (WordInt.ofInt_land m n).symm, nofun, nofun⟩
  | bor => exact ⟨m.lor n, rfl, congrArg some (WordInt.ofInt_lor m n).symm, nofun, nofun⟩
  | bxor => exact ⟨m.xor n, rfl, congrArg some (WordInt.ofInt_xor m n).symm, nofun, nofun⟩
  | _ => cases h

theorem isDivision_ring {op : BinaryOp} (h : op.isRing = true) :
    op.isDivision = false := by
  cases op <;> first | rfl | cases h

theorem absorbing_ring {op : BinaryOp} (h : op.isRing = true) :
    op.absorbing = none := by
  cases op <;> first | rfl | cases h

/-! ## The builder -/

theorem lowerExpr_ring (call : String → List (BitVec 32) → Beh (Event (BitVec 32)) (BitVec 32))
    (σ : Store (BitVec 32)) : ∀ {e : Expr}, e.isRing = true → e.isLiteral = true →
    ∃ n, lowerExpr e = .ok (.int n) ∧ eval sem32 call e σ = pure (BitVec.ofInt 32 n)
  | .int n, _, _ => ⟨n, rfl, rfl⟩
  | .unary op a, hr, hl => by
    rw [Expr.isRing, Bool.and_eq_true] at hr
    obtain ⟨n, hn, hv⟩ := lowerExpr_ring call σ hr.2 (e := a) hl
    refine ⟨foldUnary op n, by rw [lowerExpr, hn]; rfl, ?_⟩
    rw [eval, hv, Beh.pure_bind', show sem32.unary op (BitVec.ofInt 32 n) = _ from
      unaryExact_ring hr.1 n]
    rfl
  | .binary op a b, hr, hl => by
    rw [Expr.isRing, Bool.and_eq_true, Bool.and_eq_true] at hr
    rw [Expr.isLiteral, Bool.and_eq_true] at hl
    obtain ⟨m, hm, hv⟩ := lowerExpr_ring call σ hr.1.2 hl.1
    obtain ⟨n, hn, hw⟩ := lowerExpr_ring call σ hr.2 hl.2
    obtain ⟨k, hk⟩ := foldExact_ring hr.1.1 m n
    refine ⟨k, ?_, ?_⟩
    · rw [lowerExpr, hm, hn, Except.ok_bind, Except.ok_bind, tryFoldExpr,
        if_neg (by simp [isDivision_ring hr.1.1]), hk.fold, Except.ok_bind]
    · have ha : eval sem32 call (.int m) σ = eval sem32 call a σ := hv.symm
      have hb : eval sem32 call (.int n) σ = eval sem32 call b σ := hw.symm
      rw [← eval_binary_congr ha hb op, eval_binary_int, hk.value]
      rfl

/-! ## The optimizer -/

theorem simplify_ring {env : ConstEnv} : ∀ {e e' : Expr}, e.isRing = true →
    simplify env e = .ok e' → e'.isRing = true
  | .int n, e', _, h => by
    cases h
    rfl
  | .var x, e', _, h => by
    cases h
    unfold simplifyVar
    split <;> rfl
  | .unary op a, e', hr, h => by
    rw [Expr.isRing, Bool.and_eq_true] at hr
    obtain ⟨a', ha, h⟩ := Except.bind_eq_ok.mp h
    cases h
    have hra := simplify_ring hr.2 ha
    cases hc : a'.isConst with
    | true =>
      obtain ⟨n, rfl⟩ := isConst_iff.mp hc
      rfl
    | false =>
      rw [simplifyUnary_of_not_const hc, Expr.isRing, hr.1, hra]
      rfl
  | .binary op a b, e', hr, h => by
    rw [Expr.isRing, Bool.and_eq_true, Bool.and_eq_true] at hr
    obtain ⟨a', ha, h⟩ := Except.bind_eq_ok.mp h
    obtain ⟨b', hb, h⟩ := Except.bind_eq_ok.mp h
    have hra := simplify_ring hr.1.2 ha
    have hrb := simplify_ring hr.2 hb
    cases simplifyBinary_result h with
    | const n => rfl
    | same => simp [Expr.isRing, hr.1.1, hra, hrb]
    | left => exact hra
    | right => exact hrb
    | notNotLeft hop _ | notNotRight hop _ =>
      rw [absorbing_ring hr.1.1] at hop
      cases hop

theorem hasCall_ring : ∀ {e : Expr}, e.isRing = true → e.hasCall = false
  | .int _, _ => rfl
  | .var _, _ => rfl
  | .unary op a, h => by
    rw [Expr.isRing, Bool.and_eq_true] at h
    exact hasCall_ring (e := a) h.2
  | .binary op a b, h => by
    rw [Expr.isRing, Bool.and_eq_true, Bool.and_eq_true] at h
    simp [Expr.hasCall, hasCall_ring h.1.2, hasCall_ring h.2]

theorem binaryOk_ring {op : BinaryOp} {a b : Expr} (hop : op.isRing = true) (ha : a.isRing = true)
    (hb : b.isRing = true) : BinaryOk (exactSpec sem32 sem32_laws) op a b := by
  unfold BinaryOk
  split
  · exact .inr (foldExact_ring hop _ _)
  · rw [absorbing_ring hop]
    exact fun _ => ⟨fun _ => hasCall_ring hb, fun _ => hasCall_ring ha⟩

theorem foldsOk_ring {env : ConstEnv} : ∀ {e : Expr}, e.isRing = true →
    FoldsOk (exactSpec sem32 sem32_laws) env e
  | .int _, _ => by simp [FoldsOk]
  | .var _, _ => by simp [FoldsOk]
  | .unary op a, h => by
    rw [Expr.isRing, Bool.and_eq_true] at h
    rw [FoldsOk]
    exact ⟨foldsOk_ring h.2, fun n _ => unaryExact_ring h.1 n⟩
  | .binary op a b, h => by
    rw [Expr.isRing, Bool.and_eq_true, Bool.and_eq_true] at h
    rw [FoldsOk]
    exact ⟨foldsOk_ring h.1.2, foldsOk_ring h.2, fun a' b' ha hb =>
      binaryOk_ring h.1.1 (simplify_ring h.1.2 ha) (simplify_ring h.2 hb)⟩

/-- The builder folds a tree of literals and ring operators to an integer with its 32-bit
value, and the optimizer keeps the 32-bit value of every expression of ring operators, under
all constants that reduce to the values of their variables. -/
theorem ring_folding_exact
    (call : String → List (BitVec 32) → Beh (Event (BitVec 32)) (BitVec 32))
    (σ : Store (BitVec 32)) :
    (∀ e : Expr, e.isRing = true → e.isLiteral = true →
      ∃ n, lowerExpr e = .ok (.int n) ∧ eval sem32 call e σ = pure (BitVec.ofInt 32 n)) ∧
    ∀ (env : ConstEnv) (e : Expr), e.isRing = true →
      (∀ x n, env x = some n → σ.vars x = BitVec.ofInt 32 n) →
      ∃ e', simplifyFixedPoint env e = .ok e' ∧ eval sem32 call e' σ = eval sem32 call e σ := by
  refine ⟨fun e hr hl => lowerExpr_ring call σ hr hl, fun env e hr hσ => ?_⟩
  have hfolds : FoldsOk (exactSpec sem32 sem32_laws) env e := foldsOk_ring hr
  obtain ⟨e', he⟩ := simplify_ok hfolds
  exact ⟨e', by rw [simplifyFixedPoint_eq, he],
    eval_simplify sem32_laws sem32_total hσ hfolds he⟩

end YHsys.Compiler
