import YHsys.Compiler.Simplify
import YHsys.Compiler.Semantics

/-!
# Simplification under a specification

`_simplify_expr` computes with Python's integers, and drops operands that it takes not to
matter. A `FoldSpec` says what is asked of each single rewrite: of folded operators, of
constants that are tested, of dropped operands. `FoldsOk F env e` says that every rewrite
that simplifying `e` with the known constants `env` makes is as `F` asks. Then
simplification returns (`simplify_ok`).

Simplifying with some constants and then with more is the same as simplifying with all of
them at once, and meets `F` as well (`simplify_over`).
-/

namespace YHsys.Compiler

open Except (bind_eq_ok ok_bind)

/-- What is asked of the rewrites of a simplification. -/
structure FoldSpec where
  /-- The unary operator may be folded on this constant. -/
  unary : UnaryOp → ℤ → Prop
  /-- The binary operator may be folded on these constants, to this one. -/
  binary : BinaryOp → ℤ → ℤ → ℤ → Prop
  /-- The constant may be tested. -/
  truth : ℤ → Prop
  /-- The operand may be dropped. -/
  drop : Expr → Prop
  fold : ∀ {op m n k}, binary op m n k → foldBinary op m n = .ok k
  /-- A folded quotient is not rounded. -/
  div : ∀ {m n k}, binary .div m n k → k = m.tdiv n
  logical : ∀ {op z m n k}, op.absorbing = some z → binary op m n k → truth m ∧ truth n
  not : ∀ {n}, truth n → unary .not n
  bool : ∀ b, truth (pyBool b)

section

variable (F : FoldSpec)

/-- The expression, if it is a constant, may be tested. -/
def TestOk (e : Expr) : Prop := ∀ n, e = .int n → F.truth n

/-- A binary operator on simplified operands. -/
def BinaryOk (op : BinaryOp) (a b : Expr) : Prop :=
  match a, b with
  | .int m, .int n => (op.isDivision ∧ n = 0) ∨ ∃ k, F.binary op m n k
  | _, _ =>
    match op.absorbing with
    | some z => TestOk F a ∧ TestOk F b ∧ (truthyConst b = some z → F.drop a)
    | none => op = .mul → (a = .int 0 → F.drop b) ∧ (b = .int 0 → F.drop a)

mutual
/-- Every rewrite that simplifying `e` makes is as `F` asks. -/
def FoldsOk (env : ConstEnv) : Expr → Prop
  | .int _ => True
  | .var _ => True
  | .array _ index => FoldsOk env index
  | .call _ args => ArgsFoldOk env args
  | .unary op a => FoldsOk env a ∧ ∀ n, simplify env a = .ok (.int n) → F.unary op n
  | .binary op a b => FoldsOk env a ∧ FoldsOk env b ∧
      ∀ a' b', simplify env a = .ok a' → simplify env b = .ok b' → BinaryOk F op a' b'

def ArgsFoldOk (env : ConstEnv) : List Expr → Prop
  | [] => True
  | e :: es => FoldsOk env e ∧ ArgsFoldOk env es
end

end

variable {F : FoldSpec} {env env' : ConstEnv}

theorem binaryOk_int {op : BinaryOp} {m n : ℤ} (h : BinaryOk F op (.int m) (.int n)) :
    (op.isDivision ∧ n = 0) ∨ ∃ k, F.binary op m n k := h

theorem binaryOk_logical {op : BinaryOp} {z : Bool} (hop : op.absorbing = some z) {a b : Expr}
    (hc : ¬(a.isConst = true ∧ b.isConst = true)) (h : BinaryOk F op a b) :
    TestOk F a ∧ TestOk F b ∧ (truthyConst b = some z → F.drop a) := by
  unfold BinaryOk at h
  split at h
  · exact absurd ⟨rfl, rfl⟩ hc
  · rwa [hop] at h

theorem binaryOk_mul {a b : Expr} (hc : ¬(a.isConst = true ∧ b.isConst = true))
    (h : BinaryOk F .mul a b) :
    (a = .int 0 → F.drop b) ∧ (b = .int 0 → F.drop a) := by
  unfold BinaryOk at h
  split at h
  · exact absurd ⟨rfl, rfl⟩ hc
  · exact h rfl

/-! ## Simplification returns -/

theorem simplifyBinary_ok {op : BinaryOp} {a b : Expr} (h : BinaryOk F op a b) :
    ∃ c, simplifyBinary op a b = .ok c := by
  by_cases hc : a.isConst = true ∧ b.isConst = true
  · obtain ⟨m, rfl⟩ := isConst_iff.mp hc.1
    obtain ⟨n, rfl⟩ := isConst_iff.mp hc.2
    rw [simplifyBinary_int]
    split
    · exact ⟨_, rfl⟩
    · rename_i hdiv
      obtain ⟨k, hk⟩ := (binaryOk_int h).resolve_left hdiv
      exact ⟨.int k, by rw [F.fold hk, ok_bind]⟩
  · exact ⟨_, simplifyBinary_rules op hc⟩

mutual
theorem simplify_ok : ∀ {e : Expr}, FoldsOk F env e → ∃ e', simplify env e = .ok e'
  | .int n, _ => ⟨_, rfl⟩
  | .var x, _ => ⟨_, rfl⟩
  | .array x index, h => by
    obtain ⟨i, hi⟩ := simplify_ok (e := index) (by simpa only [FoldsOk] using h)
    exact ⟨.array x i, by rw [simplify, hi]; rfl⟩
  | .call f args, h => by
    obtain ⟨as, has⟩ : ∃ as, simplifyArgs env args = .ok as :=
      simplifyArgs_ok (by simpa only [FoldsOk] using h)
    exact ⟨.call f as, by rw [simplify, has]; rfl⟩
  | .unary op a, h => by
    rw [FoldsOk] at h
    obtain ⟨a', ha⟩ := simplify_ok h.1
    exact ⟨simplifyUnary op a', by rw [simplify, ha]; rfl⟩
  | .binary op a b, h => by
    rw [FoldsOk] at h
    obtain ⟨ha, hb, hop⟩ := h
    obtain ⟨a', ha'⟩ := simplify_ok ha
    obtain ⟨b', hb'⟩ := simplify_ok hb
    obtain ⟨c, hc⟩ := simplifyBinary_ok (hop a' b' ha' hb')
    exact ⟨c, by rw [simplify, ha', hb']; exact hc⟩

theorem simplifyArgs_ok : ∀ {es : List Expr}, ArgsFoldOk F env es →
    ∃ es', simplifyArgs env es = .ok es'
  | [], _ => ⟨_, rfl⟩
  | e :: es, h => by
    rw [ArgsFoldOk] at h
    obtain ⟨e', he⟩ := simplify_ok h.1
    obtain ⟨es', hes⟩ := simplifyArgs_ok h.2
    exact ⟨e' :: es', by rw [simplifyArgs, he, hes]; rfl⟩
end

/-! ## More constants later -/

/-- The constants of `env`, and those of `env'` for the other variables. -/
def ConstEnv.over (env env' : ConstEnv) : ConstEnv := fun x => (env x).or (env' x)

theorem simplify_simplifyVar (env env' : ConstEnv) (x : String) :
    simplify env' (simplifyVar env x) = .ok (simplifyVar (env.over env') x) := by
  unfold simplifyVar ConstEnv.over
  cases h : env x with
  | some n => rfl
  | none => rfl

theorem simplify_simplifyUnary {op : UnaryOp} {a a' : Expr} (h : simplify env' a = .ok a') :
    simplify env' (simplifyUnary op a) = .ok (simplifyUnary op a') := by
  cases a with
  | int n =>
    cases h
    rfl
  | _ => rw [simplifyUnary_of_not_const rfl, simplify, h]; rfl

theorem simplify_notNot_eq {a a' : Expr} (h : simplify env' a = .ok a') :
    simplify env' (notNot a) = .ok (simplifyUnary .not (simplifyUnary .not a')) := by
  rw [notNot, simplify, simplify, h]
  rfl

theorem simplifyBinary_left {op : BinaryOp} {m : ℤ} {b c : Expr} (hdiv : op.isDivision = false)
    (hconst : ∀ n, b = .int n → foldBinary op m n >>= (fun k => .ok (.int k)) = .ok c)
    (hrule : b.isConst = false → simplifyRules op (.int m) b = c) :
    simplifyBinary op (.int m) b = .ok c := by
  cases b with
  | int n =>
    rw [simplifyBinary_int, if_neg (by simp [hdiv])]
    exact hconst n rfl
  | _ => rw [simplifyBinary_rules op (by simp [Expr.isConst]), hrule rfl]

theorem simplifyBinary_right {op : BinaryOp} {n : ℤ} {a c : Expr}
    (hdiv : ¬(op.isDivision = true ∧ n = 0))
    (hconst : ∀ m, a = .int m → foldBinary op m n >>= (fun k => .ok (.int k)) = .ok c)
    (hrule : a.isConst = false → simplifyRules op a (.int n) = c) :
    simplifyBinary op a (.int n) = .ok c := by
  cases a with
  | int m =>
    rw [simplifyBinary_int, if_neg hdiv]
    exact hconst m rfl
  | _ => rw [simplifyBinary_rules op (by simp [Expr.isConst]), hrule rfl]

theorem foldUnary_not_not (n : ℤ) : foldUnary .not (foldUnary .not n) = pyBool (n != 0) := by
  by_cases h : n = 0 <;> simp [foldUnary, pyBool, h]

section

variable {a b a' b' : Expr}

theorem simplify_arith_rules {op : BinaryOp} (hop : op.absorbing = none)
    (ha : simplify env' a = .ok a') (hb : simplify env' b = .ok b') (hex : BinaryOk F op a' b') :
    simplify env' (simplifyRules op a b) = simplifyBinary op a' b' := by
  have hsame : simplify env' (.binary op a b) = simplifyBinary op a' b' := by
    rw [simplify, ha, hb, ok_bind, ok_bind]
  unfold simplifyRules
  cases op with
  | add =>
    dsimp only
    split_ifs with h h
    · subst h
      cases ha
      rw [hb]
      exact (simplifyBinary_left rfl (fun n hn => by simp [foldBinary, hn])
        fun hn => by simp [simplifyRules]).symm
    · subst h
      cases hb
      rw [ha]
      exact (simplifyBinary_right (by simp [BinaryOp.isDivision])
        (fun m hm => by simp [foldBinary, hm])
        fun hm => by cases a' <;> simp_all [simplifyRules, Expr.isConst]).symm
    · exact hsame
  | sub =>
    dsimp only
    split_ifs with h
    · subst h
      cases hb
      rw [ha]
      exact (simplifyBinary_right (by simp [BinaryOp.isDivision])
        (fun m hm => by simp [foldBinary, hm]) fun hm => by simp [simplifyRules]).symm
    · exact hsame
  | mul =>
    dsimp only
    split_ifs with h h h
    · rcases h with rfl | rfl
      · cases ha
        exact (simplifyBinary_left rfl (fun n hn => by simp [foldBinary])
          fun hn => by simp [simplifyRules]).symm
      · cases hb
        exact (simplifyBinary_right (by simp [BinaryOp.isDivision])
          (fun m hm => by simp [foldBinary]) fun hm => by simp [simplifyRules]).symm
    · subst h
      cases ha
      rw [hb]
      exact (simplifyBinary_left rfl (fun n hn => by simp [foldBinary, hn])
        fun hn => by cases b' <;> simp_all [simplifyRules, Expr.isConst]).symm
    · subst h
      cases hb
      rw [ha]
      exact (simplifyBinary_right (by simp [BinaryOp.isDivision])
        (fun m hm => by simp [foldBinary, hm])
        fun hm => by cases a' <;> simp_all [simplifyRules, Expr.isConst]).symm
    · exact hsame
  | div =>
    dsimp only
    split_ifs with h
    · subst h
      cases hb
      rw [ha]
      refine (simplifyBinary_right (by simp) (fun m hm => ?_) fun hm => by simp [simplifyRules]).symm
      -- the quotient of floats by 1 is exact here
      subst hm
      obtain ⟨k, hk⟩ := (binaryOk_int hex).resolve_left (by simp)
      rw [F.fold hk, ok_bind, F.div hk, Int.tdiv_one]
    · exact hsame
  | land => cases hop
  | lor => cases hop
  | _ => exact hsame

theorem simplify_logical_rules {op : BinaryOp} {z : Bool} (hop : op.absorbing = some z)
    (ha : simplify env' a = .ok a') (hb : simplify env' b = .ok b') :
    simplify env' (simplifyRules op a b) = simplifyBinary op a' b' := by
  have hdiv := isDivision_of_logical hop
  rw [simplifyRules_logical hop]
  split_ifs with h h h
  · rcases h with h | h
    · obtain ⟨n, rfl, hn⟩ := truthyConst_const h
      cases ha
      exact (simplifyBinary_left hdiv (fun k _ => by simp [foldBinary_logical hop, hn])
        fun _ => by simp [simplifyRules_logical hop, h]).symm
    · obtain ⟨n, rfl, hn⟩ := truthyConst_const h
      cases hb
      exact (simplifyBinary_right (by simp [hdiv]) (fun k _ => by simp [foldBinary_logical hop, hn])
        fun _ => by simp [simplifyRules_logical hop, h]).symm
  · obtain ⟨n, rfl, hn⟩ := truthyConst_const h
    cases ha
    rw [simplify_notNot_eq hb]
    refine (simplifyBinary_left hdiv (fun k hk => ?_) fun hk => ?_).symm
    · simp [foldBinary_logical hop, hn, hk, simplifyUnary, foldUnary_not_not]
    · simp [simplifyRules_logical hop, h, truthyConst_of_not_const hk, simplifyUnary_not_not hk]
  · obtain ⟨n, rfl, hn⟩ := truthyConst_const h
    cases hb
    rw [simplify_notNot_eq ha]
    refine (simplifyBinary_right (by simp [hdiv]) (fun k hk => ?_) fun hk => ?_).symm
    · by_cases hz : (k != 0) = z
      · simp [foldBinary_logical hop, hk, simplifyUnary, foldUnary_not_not, hz]
      · simp [foldBinary_logical hop, hn, hk, simplifyUnary, foldUnary_not_not,
          Bool.eq_not.mpr hz]
    · simp [simplifyRules_logical hop, h, truthyConst_of_not_const hk, simplifyUnary_not_not hk]
  · rw [simplify, ha, hb, ok_bind, ok_bind]

theorem simplify_simplifyBinary {op : BinaryOp} {c : Expr} (hc : simplifyBinary op a b = .ok c)
    (ha : simplify env' a = .ok a') (hb : simplify env' b = .ok b') (hex : BinaryOk F op a' b') :
    simplify env' c = simplifyBinary op a' b' := by
  by_cases hconst : a.isConst = true ∧ b.isConst = true
  · obtain ⟨m, rfl⟩ := isConst_iff.mp hconst.1
    obtain ⟨n, rfl⟩ := isConst_iff.mp hconst.2
    cases ha
    cases hb
    rw [hc]
    rw [simplifyBinary_int] at hc
    split at hc
    · rename_i hdiv
      cases hc
      simp [simplify, simplifyBinary_int, hdiv]
    · obtain ⟨k, -, hk⟩ := bind_eq_ok.mp hc
      cases hk
      rfl
  · rw [simplifyBinary_rules op hconst] at hc
    cases hc
    cases hop : op.absorbing with
    | some z => exact simplify_logical_rules hop ha hb
    | none => exact simplify_arith_rules hop ha hb hex

end

/-! ## More constants meet the specification too -/

theorem truth_foldUnary_not (F : FoldSpec) (n : ℤ) : F.truth (foldUnary .not n) := by
  have heq : foldUnary .not n = pyBool (n == 0) := by
    by_cases hn : n = 0 <;> simp [foldUnary, pyBool, hn]
  rw [heq]
  exact F.bool _

theorem foldsOk_notNot {b b' : Expr} (hb : simplify env b = .ok b') (hex : FoldsOk F env b)
    (ht : TestOk F b') : FoldsOk F env (notNot b) := by
  rw [notNot, FoldsOk, FoldsOk]
  refine ⟨⟨hex, fun n hn => ?_⟩, fun n hn => F.not ?_⟩
  · rw [hb] at hn
    exact F.not (ht n (Except.ok.inj hn))
  · -- a constant that `!` gives is 0 or 1
    rw [simplify, hb, ok_bind] at hn
    have hn := Except.ok.inj hn
    cases b' with
    | int k =>
      cases hn
      exact truth_foldUnary_not F k
    | _ => cases hn

theorem testOk_of_logical {op : BinaryOp} {z : Bool} (hop : op.absorbing = some z) {a b : Expr}
    (h : BinaryOk F op a b) : TestOk F a ∧ TestOk F b := by
  by_cases hc : a.isConst = true ∧ b.isConst = true
  · obtain ⟨m, rfl⟩ := isConst_iff.mp hc.1
    obtain ⟨n, rfl⟩ := isConst_iff.mp hc.2
    obtain ⟨k, hk⟩ := (binaryOk_int h).resolve_left (by simp [isDivision_of_logical hop])
    obtain ⟨hm, hn⟩ := F.logical hop hk
    constructor
    · rintro _ ⟨⟩
      exact hm
    · rintro _ ⟨⟩
      exact hn
  · obtain ⟨ha, hb, -⟩ := binaryOk_logical hop hc h
    exact ⟨ha, hb⟩

theorem foldsOk_simplifyBinary {op : BinaryOp} {a b c a' b' : Expr}
    (hc : simplifyBinary op a b = .ok c) (ha : simplify env' a = .ok a')
    (hb : simplify env' b = .ok b') (hea : FoldsOk F env' a) (heb : FoldsOk F env' b)
    (hex : BinaryOk F op a' b') : FoldsOk F env' c := by
  cases simplifyBinary_result hc with
  | const n => simp [FoldsOk]
  | same =>
    rw [FoldsOk]
    refine ⟨hea, heb, fun a'' b'' ha'' hb'' => ?_⟩
    rw [ha] at ha''
    rw [hb] at hb''
    cases ha''
    cases hb''
    exact hex
  | left => exact hea
  | right => exact heb
  | notNotLeft hop _ => exact foldsOk_notNot ha hea (testOk_of_logical hop hex).1
  | notNotRight hop _ => exact foldsOk_notNot hb heb (testOk_of_logical hop hex).2

mutual
theorem simplify_over : ∀ {e e1 : Expr}, FoldsOk F (env.over env') e →
    simplify env e = .ok e1 →
    simplify env' e1 = simplify (env.over env') e ∧ FoldsOk F env' e1
  | .int n, e1, _, h => by
    cases h
    exact ⟨rfl, by simp [FoldsOk]⟩
  | .var x, e1, _, h => by
    cases h
    refine ⟨simplify_simplifyVar env env' x, ?_⟩
    unfold simplifyVar
    split <;> simp [FoldsOk]
  | .array x index, e1, hex, h => by
    rw [FoldsOk] at hex
    obtain ⟨i, hi, h⟩ := bind_eq_ok.mp h
    cases h
    obtain ⟨heq, hex'⟩ := simplify_over hex hi
    exact ⟨by rw [simplify, simplify, heq], by rwa [FoldsOk]⟩
  | .call f args, e1, hex, h => by
    rw [FoldsOk] at hex
    obtain ⟨as, has, h⟩ := bind_eq_ok.mp h
    cases h
    obtain ⟨heq, hex'⟩ := simplifyArgs_over hex has
    exact ⟨by rw [simplify, simplify, heq], by rwa [FoldsOk]⟩
  | .unary op a, e1, hex, h => by
    rw [FoldsOk] at hex
    obtain ⟨a1, ha, h⟩ := bind_eq_ok.mp h
    cases h
    obtain ⟨heq, hex'⟩ := simplify_over hex.1 ha
    obtain ⟨a2, ha2⟩ := simplify_ok hex'
    have ha2' : simplify (env.over env') a = .ok a2 := heq ▸ ha2
    refine ⟨by rw [simplify_simplifyUnary ha2, simplify, ha2', ok_bind], ?_⟩
    cases hc : a1.isConst with
    | true =>
      obtain ⟨n, rfl⟩ := isConst_iff.mp hc
      simp [simplifyUnary, FoldsOk]
    | false =>
      rw [simplifyUnary_of_not_const hc, FoldsOk]
      exact ⟨hex', fun n hn => hex.2 n (heq ▸ hn)⟩
  | .binary op a b, e1, hex, h => by
    rw [FoldsOk] at hex
    obtain ⟨hea, heb, hop⟩ := hex
    obtain ⟨a1, ha, h⟩ := bind_eq_ok.mp h
    obtain ⟨b1, hb, h⟩ := bind_eq_ok.mp h
    obtain ⟨heqa, hea'⟩ := simplify_over hea ha
    obtain ⟨heqb, heb'⟩ := simplify_over heb hb
    obtain ⟨a2, ha2⟩ := simplify_ok hea'
    obtain ⟨b2, hb2⟩ := simplify_ok heb'
    have hex2 : BinaryOk F op a2 b2 := hop a2 b2 (heqa ▸ ha2) (heqb ▸ hb2)
    constructor
    · rw [simplify_simplifyBinary h ha2 hb2 hex2, simplify, ← heqa, ← heqb, ha2, hb2]
      rfl
    · exact foldsOk_simplifyBinary h ha2 hb2 hea' heb' hex2

theorem simplifyArgs_over : ∀ {es es1 : List Expr},
    ArgsFoldOk F (env.over env') es → simplifyArgs env es = .ok es1 →
    simplifyArgs env' es1 = simplifyArgs (env.over env') es ∧ ArgsFoldOk F env' es1
  | [], es1, _, h => by
    cases h
    exact ⟨rfl, by simp [ArgsFoldOk]⟩
  | e :: es, es1, hex, h => by
    rw [ArgsFoldOk] at hex
    obtain ⟨e1, he, h⟩ := bind_eq_ok.mp h
    obtain ⟨es1, hes, h⟩ := bind_eq_ok.mp h
    cases h
    obtain ⟨heq, hex'⟩ := simplify_over hex.1 he
    obtain ⟨heqs, hexs'⟩ := simplifyArgs_over hex.2 hes
    exact ⟨by rw [simplifyArgs, simplifyArgs, heq, heqs], by rw [ArgsFoldOk]; exact ⟨hex', hexs'⟩⟩
end

end YHsys.Compiler
