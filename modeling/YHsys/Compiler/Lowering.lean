import YHsys.Compiler.Semantics

/-!
# Lowering keeps the meaning

The code `lower_block` emits behaves as the block. Expressions first: folding constants
changes no behaviour where it is exact. Then each statement leaves, between two states
of the builder, the code of a tree (`Flat.Tree`) with the statement's behaviour and with
labels of its own (`Sim`); that the flat code of a tree behaves as the tree is
`Flat.run_code`.
-/

namespace YHsys.Compiler

open Except (bind_eq_ok ok_bind)

open Flat (Tree Outcome andThen)

variable {V : Type} {S : OpSem V} {call : String → List V → Beh (Event V) V}

/-! ## Expressions -/

theorem OpSem.Exact.truthy_lit (hS : S.Exact) (n : ℤ) : S.truthy (S.lit n) = (n != 0) := by
  have hand : S.apply .land (S.lit n) (S.lit n) = some (S.lit (pyBool (n != 0 && n != 0))) :=
    hS.binary .land n n _ rfl
  have hval : S.bool (S.truthy (S.lit n) && S.truthy (S.lit n)) =
      S.lit (pyBool (n != 0 && n != 0)) := Option.some.inj hand
  have := congrArg S.truthy hval
  rwa [OpSem.bool, S.truthy_bool, S.truthy_bool, Bool.and_self, Bool.and_self] at this

theorem eval_tryFoldExpr (hS : S.Exact) {e e' : Expr} (h : tryFoldExpr e = .ok e')
    (σ : Store V) : eval S call e' σ = eval S call e σ := by
  unfold tryFoldExpr at h
  split at h
  · rename_i op value
    cases h
    simp [eval, hS.unary]
  · rename_i op lhs rhs
    split at h
    · cases h
      rfl
    · obtain ⟨k, hk, hk'⟩ := bind_eq_ok.mp h
      cases hk'
      rw [eval_binary_int, hS.binary op lhs rhs k hk]
      rfl
  · cases h
    rfl

mutual
theorem eval_lowerExpr (hS : S.Exact) : ∀ {e e' : Expr}, lowerExpr e = .ok e' →
    ∀ σ : Store V, eval S call e' σ = eval S call e σ
  | .int n, e', h, σ => by
    cases h
    rfl
  | .var x, e', h, σ => by
    cases h
    rfl
  | .array x index, e', h, σ => by
    rw [lowerExpr] at h
    obtain ⟨i, hi, he⟩ := bind_eq_ok.mp h
    cases he
    simp [eval, eval_lowerExpr hS hi σ]
  | .call f args, e', h, σ => by
    rw [lowerExpr] at h
    obtain ⟨as, has, he⟩ := bind_eq_ok.mp h
    cases he
    simp [eval, evalArgs_lowerArgs hS has σ]
  | .unary op a, e', h, σ => by
    rw [lowerExpr] at h
    obtain ⟨a', ha, he⟩ := bind_eq_ok.mp h
    rw [eval_tryFoldExpr hS he]
    exact eval_unary_congr (eval_lowerExpr hS ha σ) op
  | .binary op a b, e', h, σ => by
    rw [lowerExpr] at h
    obtain ⟨a', ha, h⟩ := bind_eq_ok.mp h
    obtain ⟨b', hb, he⟩ := bind_eq_ok.mp h
    rw [eval_tryFoldExpr hS he]
    exact eval_binary_congr (eval_lowerExpr hS ha σ) (eval_lowerExpr hS hb σ) op

theorem evalArgs_lowerArgs (hS : S.Exact) : ∀ {es es' : List Expr}, lowerArgs es = .ok es' →
    ∀ σ : Store V, evalArgs S call es' σ = evalArgs S call es σ
  | [], es', h, σ => by
    cases h
    rfl
  | e :: es, es', h, σ => by
    rw [lowerArgs] at h
    obtain ⟨a, ha, h⟩ := bind_eq_ok.mp h
    obtain ⟨as, has, he⟩ := bind_eq_ok.mp h
    cases he
    simp [evalArgs, eval_lowerExpr hS ha σ, evalArgs_lowerArgs hS has σ]
end

/-! ## Targets -/

/-- The index of the target of a compound assignment or of `++`, `--` has no call. -/
def LValue.indexHasCall : LValue → Bool
  | .var _ => false
  | .array _ index => index.hasCall

mutual
def Stmt.targetsCallFree : Stmt → Bool
  | .assign target op _ => op.binaryOp.isNone || !target.indexHasCall
  | .incDec target _ => !target.indexHasCall
  | .ite _ t e => Stmt.blockCallFree t && e.targetsCallFree
  | .while _ body => Stmt.blockCallFree body
  | _ => true

def Stmt.blockCallFree : List Stmt → Bool
  | [] => true
  | s :: rest => s.targetsCallFree && Stmt.blockCallFree rest

def Else.targetsCallFree : Else → Bool
  | .none => true
  | .block b => Stmt.blockCallFree b
  | .elif _ t e => Stmt.blockCallFree t && e.targetsCallFree
end

theorem put_lowerLvalue (hS : S.Exact) {target target' : LValue}
    (h : lowerLvalue target = .ok target') (v : V) (σ : Store V) :
    put S call target' v σ = put S call target v σ := by
  cases target with
  | var x =>
    cases h
    rfl
  | array x index =>
    rw [lowerLvalue] at h
    obtain ⟨i, hi, he⟩ := bind_eq_ok.mp h
    cases he
    simp [put, eval_lowerExpr hS hi σ]

theorem act_update (hS : S.Exact) {target target' : LValue} (h : lowerLvalue target = .ok target')
    (hfree : target.indexHasCall = false) {op : BinaryOp} (hland : op ≠ .land) (hlor : op ≠ .lor)
    {rhs : Expr} {f : Beh (Event V) V} {σ : Store V} (hrhs : eval S call rhs σ = f)
    (cs : List IrConstant) :
    act S call cs (.assign target' (.binary op target'.toExpr rhs)) σ =
      updateTarget S call target (fun old => f >>= fun v => .ofOption (S.binary op old v)) σ := by
  have heval : ∀ a, eval S call (.binary op a rhs) σ =
      eval S call a σ >>= fun old => f >>= fun v => .ofOption (S.binary op old v) := by
    intro a
    cases op <;> simp_all [eval]
  cases target with
  | var x =>
    cases h
    simp [act, updateTarget, put, LValue.toExpr, heval, eval]
  | array x index =>
    rw [lowerLvalue] at h
    obtain ⟨i, hi, he⟩ := bind_eq_ok.mp h
    cases he
    obtain ⟨o, ho⟩ : ∃ o, eval S call index σ = .ofOption o := eval_of_not_hasCall σ hfree
    have hi' : eval S call i σ = .ofOption o := (eval_lowerExpr hS hi σ).trans ho
    cases o with
    | none => simp [act, updateTarget, LValue.toExpr, heval, eval, hi', ho]
    | some iv => simp [act, updateTarget, put, LValue.toExpr, heval, eval, hi', ho]

/-! ## The code between two states of the builder -/

/-- Between `b` and `b'` the builder emitted the code of `t`, with labels of its own. -/
structure Emits (b b' : Builder) (t : Tree Action Expr Label) : Prop where
  code : b'.instructions = b.instructions ++ t.code
  labels : ∀ l ∈ Flat.labels t.code,
    l.func = b.labelFunc ∧ b.labelId < l.id ∧ l.id ≤ b'.labelId
  nodup : (Flat.labels t.code).Nodup
  le : b.labelId ≤ b'.labelId
  func : b'.labelFunc = b.labelFunc
  constants : ∃ cs, b'.constants = b.constants ++ cs

namespace Emits

variable {b b1 b2 b3 b' : Builder} {t u : Tree Action Expr Label}

theorem skip (b : Builder) : Emits b b .skip :=
  ⟨by simp [Tree.code], by simp [Tree.code, Flat.labels], by simp [Tree.code, Flat.labels],
    le_rfl, rfl, [], by simp⟩

theorem act (b : Builder) (a : Action) : Emits b (b.add (.act a)) (.act a) :=
  ⟨rfl, by simp [Tree.code, Flat.labels], by simp [Tree.code, Flat.labels], le_rfl, rfl, [],
    by simp [Builder.add]⟩

theorem disjoint (ht : Emits b b1 t) (hu : Emits b2 b3 u) (hle : b1.labelId ≤ b2.labelId) :
    (Flat.labels t.code).Disjoint (Flat.labels u.code) := by
  intro l hl hl'
  have h1 := (ht.labels l hl).2.2
  have h2 := (hu.labels l hl').2.1
  omega

theorem seq (ht : Emits b b1 t) (hu : Emits b1 b' u) : Emits b b' (.seq t u) where
  code := by rw [hu.code, ht.code, Tree.code, List.append_assoc]
  labels := by
    intro l hl
    simp only [Tree.code, Flat.labels_append, List.mem_append] at hl
    have hle := ht.le
    have hle' := hu.le
    rcases hl with hl | hl
    · obtain ⟨hf, hlo, hhi⟩ := ht.labels l hl
      exact ⟨hf, hlo, by omega⟩
    · obtain ⟨hf, hlo, hhi⟩ := hu.labels l hl
      exact ⟨hf.trans ht.func, by omega, hhi⟩
  nodup := by
    simp only [Tree.code, Flat.labels_append]
    exact List.nodup_append'.mpr ⟨ht.nodup, hu.nodup, ht.disjoint hu le_rfl⟩
  le := ht.le.trans hu.le
  func := hu.func.trans ht.func
  constants := by
    obtain ⟨cs, hcs⟩ := ht.constants
    obtain ⟨cs', hcs'⟩ := hu.constants
    exact ⟨cs ++ cs', by rw [hcs', hcs, List.append_assoc]⟩

/-- The builder after `n` calls of `fresh_label` and the instructions `seg`. -/
def after (b : Builder) (n : ℕ) (seg : List Instr) : Builder :=
  { b with labelId := b.labelId + n, instructions := b.instructions ++ seg }

theorem ite {c : Expr} {thenL elseL endL : Label}
    (hthen : thenL = ⟨b.labelFunc, .ifThen, b.labelId + 1⟩)
    (helse : elseL = ⟨b.labelFunc, .ifElse, b.labelId + 2⟩)
    (hend : endL = ⟨b.labelFunc, .ifEnd, b.labelId + 3⟩)
    (ht : Emits (after b 3 [.ifGoto c thenL, .goto elseL, .label thenL]) b1 t)
    (hu : Emits (after b1 0 [.goto endL, .label elseL]) b2 u) :
    Emits b (b2.add (.label endL)) (.ite c thenL elseL endL t u) where
  code := by
    simp [Builder.add, hu.code, ht.code, after, Tree.code]
  labels := by
    intro l hl
    have hle := ht.le
    have hle' := hu.le
    have hfunc := ht.func
    simp only [after, Nat.add_zero] at hle hle' hfunc
    simp only [Tree.code, Flat.labels_append, Flat.labels, List.mem_append, List.mem_cons,
      List.not_mem_nil, or_false] at hl
    simp only [Builder.add]
    rcases hl with rfl | hl | rfl | hl | rfl
    · rw [hthen]
      exact ⟨rfl, by simp, by simp; omega⟩
    · obtain ⟨hf, hlo, hhi⟩ := ht.labels l hl
      simp only [after] at hf hlo
      exact ⟨hf, by omega, by omega⟩
    · rw [helse]
      exact ⟨rfl, by simp, by simp; omega⟩
    · obtain ⟨hf, hlo, hhi⟩ := hu.labels l hl
      simp only [after, Nat.add_zero] at hf hlo
      exact ⟨hf.trans hfunc, by omega, hhi⟩
    · rw [hend]
      exact ⟨rfl, by simp, by simp; omega⟩
  nodup := by
    have hle := ht.le
    have ht' : ∀ l ∈ Flat.labels t.code, b.labelId + 3 < l.id ∧ l.id ≤ b1.labelId :=
      fun l hl => (ht.labels l hl).2
    have hu' : ∀ l ∈ Flat.labels u.code, b1.labelId < l.id := fun l hl => (hu.labels l hl).2.1
    simp only [after] at hle
    have hdis : (Flat.labels t.code).Disjoint (Flat.labels u.code) := fun l hl hl' => by
      have := ht' l hl
      have := hu' l hl'
      omega
    have hlist : Flat.labels (Tree.ite c thenL elseL endL t u).code =
        thenL :: (Flat.labels t.code ++ elseL :: (Flat.labels u.code ++ [endL])) := by
      simp [Tree.code, Flat.labels]
    rw [hlist, List.nodup_cons, List.nodup_append', List.nodup_cons, List.nodup_append', hthen,
      helse, hend]
    refine ⟨?_, ht.nodup, ⟨?_, hu.nodup, List.nodup_singleton _, ?_⟩, ?_⟩
    · grind
    · grind
    · intro l hl hl'
      grind
    · intro l hl hl'
      grind [List.Disjoint]
  le := by
    have hle := ht.le
    have hle' := hu.le
    simp only [after, Nat.add_zero] at hle hle'
    simp only [Builder.add]
    omega
  func := hu.func.trans ht.func
  constants := by
    obtain ⟨cs, hcs⟩ := ht.constants
    obtain ⟨cs', hcs'⟩ := hu.constants
    exact ⟨cs ++ cs', by simp [Builder.add, hcs', after, hcs]⟩

theorem loop {c : Expr} {condL bodyL endL : Label}
    (hcond : condL = ⟨b.labelFunc, .whileCond, b.labelId + 1⟩)
    (hbody : bodyL = ⟨b.labelFunc, .whileBody, b.labelId + 2⟩)
    (hend : endL = ⟨b.labelFunc, .whileEnd, b.labelId + 3⟩)
    (ht : Emits (after b 3 [.label condL, .ifGoto c bodyL, .goto endL, .label bodyL]) b1 t) :
    Emits b (after b1 0 [.goto condL, .label endL]) (.loop c condL bodyL endL t) where
  code := by
    simp [ht.code, after, Tree.code]
  labels := by
    intro l hl
    have hle := ht.le
    simp only [after] at hle
    simp only [Tree.code, Flat.labels_append, Flat.labels, List.mem_append, List.mem_cons,
      List.not_mem_nil, or_false] at hl
    simp only [after, Nat.add_zero]
    rcases hl with (rfl | rfl) | hl | rfl
    · rw [hcond]
      exact ⟨rfl, by simp, by simp; omega⟩
    · rw [hbody]
      exact ⟨rfl, by simp, by simp; omega⟩
    · obtain ⟨hf, hlo, hhi⟩ := ht.labels l hl
      simp only [after] at hf hlo
      exact ⟨hf, by omega, hhi⟩
    · rw [hend]
      exact ⟨rfl, by simp, by simp; omega⟩
  nodup := by
    have ht' : ∀ l ∈ Flat.labels t.code, b.labelId + 3 < l.id := fun l hl => (ht.labels l hl).2.1
    have hlist : Flat.labels (Tree.loop c condL bodyL endL t).code =
        condL :: bodyL :: (Flat.labels t.code ++ [endL]) := by
      simp [Tree.code, Flat.labels]
    rw [hlist, hcond, hbody, hend]
    grind [List.nodup_append, List.nodup_cons, ht.nodup]
  le := by
    have hle := ht.le
    simp only [after, Nat.add_zero] at hle ⊢
    omega
  func := ht.func
  constants := ht.constants

end Emits

/-- The code emitted between `b` and `b'` behaves as `f`, in any table that goes on from
that of `b'`. -/
def Sim (S : OpSem V) (call : String → List V → Beh (Event V) V) (b b' : Builder)
    (f : Store V → Beh (Event V) (Ended V)) : Prop :=
  ∃ t, Emits b b' t ∧ ∀ cs σ, t.exec (irSem S call (b'.constants ++ cs)) σ = f σ

namespace Sim

variable {b b1 b2 b3 b' : Builder} {f g : Store V → Beh (Event V) (Ended V)}

theorem skip (b : Builder) : Sim S call b b fun σ => pure (.normal σ) :=
  ⟨.skip, .skip b, fun _ _ => rfl⟩

theorem act (b : Builder) {a : Action} (h : ∀ cs σ, act S call cs a σ = f σ) :
    Sim S call b (b.add (.act a)) f :=
  ⟨.act a, .act b a, fun _ σ => h _ σ⟩

theorem congr (h : Sim S call b b' f) (hfg : ∀ σ, f σ = g σ) : Sim S call b b' g := by
  obtain ⟨t, ht, hexec⟩ := h
  exact ⟨t, ht, fun cs σ => (hexec cs σ).trans (hfg σ)⟩

theorem seq (hf : Sim S call b b1 f) (hg : Sim S call b1 b' g) :
    Sim S call b b' fun σ => f σ >>= andThen g := by
  obtain ⟨t, ht, hexec⟩ := hf
  obtain ⟨u, hu, hexec'⟩ := hg
  refine ⟨.seq t u, ht.seq hu, fun cs σ => ?_⟩
  obtain ⟨cs', hcs'⟩ := hu.constants
  have hu' : u.exec (irSem S call (b'.constants ++ cs)) = g := funext (hexec' cs)
  have ht' := hexec (cs' ++ cs) σ
  rw [← List.append_assoc, ← hcs'] at ht'
  rw [Tree.exec, ht', hu']

theorem ite {c c' : Expr} {b1 b2 : Builder} {thenL elseL endL : Label}
    (hc : ∀ σ, test S call c' σ = test S call c σ)
    (hthen : thenL = ⟨b.labelFunc, .ifThen, b.labelId + 1⟩)
    (helse : elseL = ⟨b.labelFunc, .ifElse, b.labelId + 2⟩)
    (hend : endL = ⟨b.labelFunc, .ifEnd, b.labelId + 3⟩)
    (hf : Sim S call (Emits.after b 3 [.ifGoto c' thenL, .goto elseL, .label thenL]) b1 f)
    (hg : Sim S call (Emits.after b1 0 [.goto endL, .label elseL]) b2 g) :
    Sim S call b (b2.add (.label endL)) fun σ =>
      test S call c σ >>= fun v => if v then f σ else g σ := by
  obtain ⟨t, ht, hexec⟩ := hf
  obtain ⟨u, hu, hexec'⟩ := hg
  refine ⟨_, Emits.ite hthen helse hend ht hu, fun cs σ => ?_⟩
  obtain ⟨cs', hcs'⟩ := hu.constants
  have hcs' : b2.constants = b1.constants ++ cs' := hcs'
  have hu' := hexec' cs σ
  have ht' := hexec (cs' ++ cs) σ
  rw [← List.append_assoc, ← hcs'] at ht'
  have htest : (irSem S call ((b2.add (.label endL)).constants ++ cs)).test c' σ =
      test S call c σ := hc σ
  rw [Tree.exec, htest]
  refine congrArg (Beh.bind _) (funext fun v => ?_)
  cases v with
  | true => exact ht'
  | false => exact hu'

theorem loop {c c' : Expr} {b1 : Builder} {condL bodyL endL : Label}
    (hc : ∀ σ, test S call c' σ = test S call c σ)
    (hcond : condL = ⟨b.labelFunc, .whileCond, b.labelId + 1⟩)
    (hbody : bodyL = ⟨b.labelFunc, .whileBody, b.labelId + 2⟩)
    (hend : endL = ⟨b.labelFunc, .whileEnd, b.labelId + 3⟩)
    (hf : Sim S call
      (Emits.after b 3 [.label condL, .ifGoto c' bodyL, .goto endL, .label bodyL]) b1 f) :
    Sim S call b (Emits.after b1 0 [.goto condL, .label endL]) (Flat.loop (test S call c) f) := by
  obtain ⟨t, ht, hexec⟩ := hf
  refine ⟨_, Emits.loop hcond hbody hend ht, fun cs σ => ?_⟩
  have htest : (irSem S call (b1.constants ++ cs)).test c' = test S call c := funext hc
  have hbody : t.exec (irSem S call (b1.constants ++ cs)) = f := funext (hexec cs)
  show Flat.loop _ _ σ = _
  rw [← htest, ← hbody]
  rfl

theorem hasReturn (h : Sim S call b b' f) : Sim S call b { b' with hasReturn := true } f := by
  obtain ⟨t, ht, hexec⟩ := h
  exact ⟨t, ⟨ht.code, ht.labels, ht.nodup, ht.le, ht.func, ht.constants⟩, hexec⟩

end Sim

/-! ## Statements without parts -/

variable {b b' : Builder} {a a' : Analyzer}

theorem sim_store (b : Builder) (target : LValue) (e : Expr) :
    Sim S call b (b.add (storeInstr target e)) fun σ =>
      eval S call e σ >>= fun v => put S call target v σ >>= fun σ => pure (.normal σ) := by
  cases e with
  | call f args =>
    refine Sim.act b fun cs σ => ?_
    simp [act, eval]
  | _ => exact Sim.act b fun cs σ => rfl

theorem sim_varDecl (hS : S.Exact) {x : String} {size : Option ℤ} {init : Option Expr}
    (h : lowerVarDecl b x size init = .ok b') :
    Sim S call b b' (execVarDecl S call x size init) := by
  cases size with
  | some n =>
    cases h
    exact Sim.act b fun cs σ => rfl
  | none =>
    cases init with
    | none =>
      cases h
      exact (sim_store b (.var x) (.int 0)).congr fun σ => by simp [execVarDecl, eval, put]
    | some e =>
      obtain ⟨e', he, hb⟩ := bind_eq_ok.mp h
      cases hb
      refine (sim_store b (.var x) e').congr fun σ => ?_
      simp [execVarDecl, eval_lowerExpr hS he σ, put]

theorem AssignOp.binaryOp_strict {op : AssignOp} {bop : BinaryOp} (h : op.binaryOp = some bop) :
    bop ≠ .land ∧ bop ≠ .lor := by
  cases op <;> simp only [AssignOp.binaryOp, Option.some.injEq, reduceCtorEq] at h <;> subst h <;>
    exact ⟨nofun, nofun⟩

theorem tryFoldExpr_update (op : BinaryOp) (target : LValue) (rhs : Expr) :
    tryFoldExpr (.binary op target.toExpr rhs) = .ok (.binary op target.toExpr rhs) := by
  cases target <;> rfl

theorem sim_assign (hS : S.Exact) {target : LValue} {op : AssignOp} {e : Expr}
    (hfree : (op.binaryOp.isNone || !target.indexHasCall) = true)
    (h : lowerAssign b target op e = .ok b') :
    Sim S call b b' (execAssign S call target op e) := by
  obtain ⟨target', ht, h⟩ := bind_eq_ok.mp h
  obtain ⟨rhs, hr, h⟩ := bind_eq_ok.mp h
  cases hop : op.binaryOp with
  | none =>
    rw [hop] at h
    cases h
    refine (sim_store b target' rhs).congr fun σ => ?_
    simp [execAssign, hop, eval_lowerExpr hS hr σ, put_lowerLvalue hS ht]
  | some bop =>
    rw [hop] at h hfree
    simp only [tryFoldExpr_update, ok_bind] at h
    cases h
    obtain ⟨hland, hlor⟩ := AssignOp.binaryOp_strict hop
    refine Sim.act b fun cs σ => ?_
    rw [act_update hS ht (by simpa using hfree) hland hlor (eval_lowerExpr hS hr σ)]
    simp [execAssign, hop]

theorem sim_incDec (hS : S.Exact) {target : LValue} {op : IncDecOp}
    (hfree : (!target.indexHasCall) = true) (h : lowerIncdec b target op = .ok b') :
    Sim S call b b' (execIncDec S call target op) := by
  obtain ⟨target', ht, h⟩ := bind_eq_ok.mp h
  rw [tryFoldExpr_update] at h
  cases h
  refine Sim.act b fun cs σ => ?_
  rw [act_update hS ht (by simpa using hfree) (show BinaryOp.add ≠ .land from nofun)
    (show BinaryOp.add ≠ .lor from nofun) rfl]
  simp [execIncDec, eval]

theorem constText_append {cs cs' : List IrConstant} {c : IrConstant} {n : ℕ}
    (hn : cs.map (·.cid) = List.range n) (hc : c.cid = n) :
    constText (cs ++ [c] ++ cs') n c.size = some c.text := by
  have hfind : (cs ++ [c] ++ cs').find? (·.cid = n) = some c := by
    rw [List.append_assoc, List.find?_append, List.find?_eq_none.mpr, Option.none_or]
    · simp [hc]
    · intro d hd
      have : d.cid ∈ List.range n := hn ▸ List.mem_map_of_mem hd
      simp only [List.mem_range] at this
      simp only [decide_eq_true_eq]
      omega
  rw [constText, hfind]
  simp

theorem sim_printStr (b : Builder) (text : String) :
    Sim S call b ((b.addConstString text).2.add
      (.act (.sysWriteConst 1 (b.addConstString text).1 text.utf8ByteSize)))
      fun σ => Beh.emit (.printStr text) >>= fun _ => pure (.normal σ) := by
  refine ⟨.act _, ⟨rfl, by simp [Tree.code, Flat.labels], by simp [Tree.code, Flat.labels],
    le_rfl, rfl, [⟨b.constId, text, text.utf8ByteSize⟩], rfl⟩, fun cs σ => ?_⟩
  have htext : constText (b.constants ++ [⟨b.constId, text, text.utf8ByteSize⟩] ++ cs) b.constId
      text.utf8ByteSize = some text := constText_append b.cids rfl
  show act S call (b.constants ++ [⟨b.constId, text, text.utf8ByteSize⟩] ++ cs)
    (.sysWriteConst 1 b.constId text.utf8ByteSize) σ = _
  simp only [act, htext, Beh.ofOption_some, Beh.pure_bind']

theorem sim_builtin (hS : S.Exact) {name : BuiltinName} {argExpr : Option Expr}
    {argString : Option String} (ha : a.checkBuiltin name argExpr argString = .ok ())
    (h : lowerCall b name argExpr argString = .ok b') :
    Sim S call b b' (execBuiltin S call name argExpr argString) := by
  cases name with
  | printStr =>
    cases argString with
    | none => simp [Analyzer.checkBuiltin] at ha
    | some text =>
      cases h
      exact sim_printStr b text
  | printInt =>
    cases argExpr with
    | none => simp [Analyzer.checkBuiltin] at ha
    | some e =>
      obtain ⟨e', he, hb⟩ := bind_eq_ok.mp h
      cases hb
      refine Sim.act b fun cs σ => ?_
      simp [act, execBuiltin, eval_lowerExpr hS he σ]
  | pause =>
    cases argExpr with
    | none => simp [Analyzer.checkBuiltin] at ha
    | some e =>
      obtain ⟨e', he, hb⟩ := bind_eq_ok.mp h
      cases hb
      refine Sim.act b fun cs σ => ?_
      simp [act, execBuiltin, eval_lowerExpr hS he σ]

theorem sim_callStmt (hS : S.Exact) {f : String} {args : List Expr}
    (h : lowerExprStmt b (.call f args) = .ok b') :
    Sim S call b b' fun σ => eval S call (.call f args) σ >>= fun _ => pure (.normal σ) := by
  obtain ⟨e', he, hb⟩ := bind_eq_ok.mp h
  rw [lowerExpr] at he
  obtain ⟨args', hargs, he⟩ := bind_eq_ok.mp he
  cases he
  cases hb
  refine Sim.act b fun cs σ => ?_
  simp [act, eval, evalArgs_lowerArgs hS hargs σ]

theorem sim_return (hS : S.Exact) {e : Expr} (h : lowerReturn b e = .ok b') :
    Sim S call b b' fun σ => eval S call e σ >>= fun v => pure (.returned v) := by
  obtain ⟨e', he, hb⟩ := bind_eq_ok.mp h
  cases hb
  refine Sim.hasReturn (Sim.act b fun cs σ => ?_)
  unfold Builder.returnOp
  split <;> simp [act, eval_lowerExpr hS he σ]

/-! ## Branches and loops -/

theorem test_lowerExpr (hS : S.Exact) {c c' : Expr} (h : lowerExpr c = .ok c') (σ : Store V) :
    test S call c' σ = test S call c σ := by
  simp [test, eval_lowerExpr hS h σ]

theorem test_of_const (hS : S.Exact) {c c' : Expr} (h : lowerExpr c = .ok c') {v : Bool}
    (hv : truthyConst c' = some v) (σ : Store V) : test S call c σ = pure v := by
  rw [← test_lowerExpr hS h]
  cases c' <;> simp only [truthyConst, Option.some.injEq, reduceCtorEq] at hv
  rename_i n
  simp only [test, eval, Beh.pure_bind', hS.truthy_lit]
  rw [← hv]
  congr 1
  by_cases hn : n = 0 <;> simp [hn]

theorem sim_if (hS : S.Exact) {c : Expr} {f g : Store V → Beh (Event V) (Ended V)}
    {lowerThen lowerElse : Builder → Except PyError Builder}
    (hthen : ∀ {b b'}, lowerThen b = .ok b' → Sim S call b b' f)
    (helse : ∀ {b b'}, lowerElse b = .ok b' → Sim S call b b' g)
    (h : lowerIf b c lowerThen lowerElse = .ok b') :
    Sim S call b b' fun σ => test S call c σ >>= fun v => if v then f σ else g σ := by
  obtain ⟨c', hc, h⟩ := bind_eq_ok.mp h
  cases hv : truthyConst c' with
  | some v =>
    rw [hv] at h
    cases v with
    | true =>
      refine (hthen h).congr fun σ => ?_
      simp [test_of_const hS hc hv σ]
    | false =>
      refine (helse h).congr fun σ => ?_
      simp [test_of_const hS hc hv σ]
  | none =>
    rw [hv] at h
    obtain ⟨b1, hb1, h⟩ := bind_eq_ok.mp h
    obtain ⟨b2, hb2, h⟩ := bind_eq_ok.mp h
    cases h
    -- the builder's states, with the added instructions gathered
    have hf := hthen hb1
    have hg := helse hb2
    simp only [Builder.add, List.append_assoc, List.cons_append, List.nil_append] at hf hg
    exact Sim.ite (test_lowerExpr hS hc) rfl rfl rfl hf hg

theorem sim_while (hS : S.Exact) {c : Expr} {f : Store V → Beh (Event V) (Ended V)}
    {lowerBody : Builder → Except PyError Builder}
    (hbody : ∀ {b b'}, lowerBody b = .ok b' → Sim S call b b' f)
    (h : lowerWhile b c lowerBody = .ok b') :
    Sim S call b b' (Flat.loop (test S call c) f) := by
  obtain ⟨c', hc, h⟩ := bind_eq_ok.mp h
  split at h
  · rename_i hv
    cases h
    refine (Sim.skip b).congr fun σ => ?_
    rw [Flat.loop_eq, test_of_const hS hc hv σ]
    simp
  · obtain ⟨b1, hb1, h⟩ := bind_eq_ok.mp h
    cases h
    have hf := hbody hb1
    simp only [Builder.add, List.append_assoc, List.cons_append, List.nil_append] at hf ⊢
    exact Sim.loop (test_lowerExpr hS hc) rfl rfl rfl hf

mutual
theorem sim_stmt (hS : S.Exact) : ∀ {s : Stmt} {a a' : Analyzer} {b b' : Builder},
    a.analyzeStmt s = .ok a' → s.targetsCallFree = true → lowerStmt s b = .ok b' →
    Sim S call b b' (execStmt S call s)
  | .varDecl x size init, a, a', b, b', _, _, h => by
    rw [lowerStmt] at h
    exact (sim_varDecl hS h).congr fun σ => by rw [execStmt]
  | .assign target op e, a, a', b, b', _, hfree, h => by
    rw [lowerStmt] at h
    rw [Stmt.targetsCallFree] at hfree
    exact (sim_assign hS hfree h).congr fun σ => by rw [execStmt]
  | .incDec target op, a, a', b, b', _, hfree, h => by
    rw [lowerStmt] at h
    rw [Stmt.targetsCallFree] at hfree
    exact (sim_incDec hS hfree h).congr fun σ => by rw [execStmt]
  | .builtin name argExpr argString, a, a', b, b', ha, _, h => by
    rw [lowerStmt] at h
    rw [Analyzer.analyzeStmt] at ha
    obtain ⟨_, hcheck, _⟩ := bind_eq_ok.mp ha
    exact (sim_builtin hS hcheck h).congr fun σ => by rw [execStmt]
  | .expr e, a, a', b, b', ha, _, h => by
    rw [lowerStmt] at h
    cases e with
    | call f args => exact (sim_callStmt hS h).congr fun σ => by rw [execStmt]
    | _ => simp [Analyzer.analyzeStmt] at ha
  | .ite c t e, a, a', b, b', ha, hfree, h => by
    rw [lowerStmt] at h
    rw [Analyzer.analyzeStmt] at ha
    obtain ⟨_, _, ha⟩ := bind_eq_ok.mp ha
    obtain ⟨a1, ht, he⟩ := bind_eq_ok.mp ha
    rw [Stmt.targetsCallFree, Bool.and_eq_true] at hfree
    refine (sim_if hS (fun h => sim_block hS ht hfree.1 h) (fun h => sim_else hS he hfree.2 h)
      h).congr fun σ => ?_
    rw [execStmt]
  | .while c body, a, a', b, b', ha, hfree, h => by
    rw [lowerStmt] at h
    rw [Analyzer.analyzeStmt] at ha
    obtain ⟨_, _, hbody⟩ := bind_eq_ok.mp ha
    rw [Stmt.targetsCallFree] at hfree
    refine (sim_while hS (fun h => sim_block hS hbody hfree h) h).congr fun σ => ?_
    rw [execStmt]
  | .ret e, a, a', b, b', _, _, h => by
    rw [lowerStmt] at h
    exact (sim_return hS h).congr fun σ => by rw [execStmt]
  | .empty, a, a', b, b', _, _, h => by
    rw [lowerStmt] at h
    cases h
    exact (Sim.skip b).congr fun σ => by rw [execStmt]

theorem sim_block (hS : S.Exact) : ∀ {s : List Stmt} {a a' : Analyzer} {b b' : Builder},
    a.analyzeBlock s = .ok a' → Stmt.blockCallFree s = true → lowerBlock s b = .ok b' →
    Sim S call b b' (execBlock S call s)
  | [], a, a', b, b', _, _, h => by
    rw [lowerBlock] at h
    cases h
    exact (Sim.skip b).congr fun σ => by rw [execBlock]
  | s :: rest, a, a', b, b', ha, hfree, h => by
    rw [Analyzer.analyzeBlock] at ha
    obtain ⟨a1, hs, hrest⟩ := bind_eq_ok.mp ha
    rw [Stmt.blockCallFree, Bool.and_eq_true] at hfree
    by_cases hret : ∃ e, s = .ret e
    · -- what follows a return is neither lowered nor run
      obtain ⟨e, rfl⟩ := hret
      rw [lowerBlock] at h
      refine (sim_stmt hS hs hfree.1 h).congr fun σ => ?_
      simp [execBlock, execStmt]
    · rw [lowerBlock_cons fun e he => hret ⟨e, he⟩] at h
      obtain ⟨b1, hb1, hb'⟩ := bind_eq_ok.mp h
      refine ((sim_stmt hS hs hfree.1 hb1).seq (sim_block hS hrest hfree.2 hb')).congr fun σ => ?_
      rw [execBlock]

theorem sim_else (hS : S.Exact) : ∀ {e : Else} {a a' : Analyzer} {b b' : Builder},
    a.analyzeElse e = .ok a' → e.targetsCallFree = true → lowerElse e b = .ok b' →
    Sim S call b b' (execElse S call e)
  | .none, a, a', b, b', _, _, h => by
    rw [lowerElse] at h
    cases h
    exact (Sim.skip b).congr fun σ => by rw [execElse]
  | .block s, a, a', b, b', ha, hfree, h => by
    rw [lowerElse] at h
    rw [Analyzer.analyzeElse] at ha
    rw [Else.targetsCallFree] at hfree
    exact (sim_block hS ha hfree h).congr fun σ => by rw [execElse]
  | .elif c t e, a, a', b, b', ha, hfree, h => by
    rw [lowerElse] at h
    rw [Analyzer.analyzeElse] at ha
    obtain ⟨_, _, ha⟩ := bind_eq_ok.mp ha
    obtain ⟨a1, ht, he⟩ := bind_eq_ok.mp ha
    rw [Else.targetsCallFree, Bool.and_eq_true] at hfree
    refine (sim_if hS (fun h => sim_block hS ht hfree.1 h) (fun h => sim_else hS he hfree.2 h)
      h).congr fun σ => ?_
    rw [execElse]
end

/-! ## The result -/

theorem run_lowerBlock (hS : S.Exact) {arities : List (String × ℕ)} {func : FunctionDef}
    {info : FunctionInfo} (hacc : analyzeFunction arities func = .ok info)
    (hfree : Stmt.blockCallFree func.body = true) (hb : b.instructions = [])
    (hlow : lowerBlock func.body b = .ok b') (σ : Store V) :
    Flat.run (irSem S call b'.constants) b'.instructions 0 σ = execBlock S call func.body σ := by
  obtain ⟨a, _, hacc⟩ := bind_eq_ok.mp hacc
  obtain ⟨a', hbody, _⟩ := bind_eq_ok.mp hacc
  obtain ⟨t, ht, hexec⟩ : Sim S call b b' _ := sim_block hS hbody hfree hlow
  have hcode : b'.instructions = t.code := by rw [ht.code, hb, List.nil_append]
  have hrun := hexec [] σ
  rw [List.append_nil] at hrun
  rw [hcode, Flat.run_code t (Flat.uniqueLabels_of_nodup ht.nodup), hrun]

/-- Lowering simulates the structured semantics. For every body the analyzer accepts, in
which no index of a compound assignment or of `++`, `--` has a call, every exact meaning
of the operators and every meaning of the called functions: from any store, the emitted
code reaches a return with value `v` after the events `t` exactly when the body returns
`v` after `t`, and it reaches the position past its end in store `σ'` after `t` exactly
when the body ends normally in `σ'` after `t`. -/
theorem lower_block_simulates {V : Type} (S : OpSem V) (hS : S.Exact)
    (call : String → List V → Beh (Event V) V) (arities : List (String × ℕ))
    (func : FunctionDef) (info : FunctionInfo) (hacc : analyzeFunction arities func = .ok info)
    (hfree : Stmt.blockCallFree func.body = true) (b b' : Builder) (hb : b.instructions = [])
    (hlow : lowerBlock func.body b = .ok b') (σ : Store V) (t : List (Event V)) :
    (∀ v, (Flat.run (irSem S call b'.constants) b'.instructions 0 σ).Obs t (some (.returned v)) ↔
      (execBlock S call func.body σ).Obs t (some (.returned v))) ∧
    (∀ σ', (Flat.run (irSem S call b'.constants) b'.instructions 0 σ).Obs t (some (.normal σ')) ↔
      (execBlock S call func.body σ).Obs t (some (.normal σ'))) := by
  rw [run_lowerBlock hS hacc hfree hb hlow σ]
  exact ⟨fun _ => Iff.rfl, fun _ => Iff.rfl⟩

/-- `int main() { int x = 1; if (x) { x += 2; } print_int(x); return x; }`. -/
def addTwo : FunctionDef where
  name := "main"
  params := []
  body :=
    [.varDecl "x" none (some (.int 1)),
      .ite (.var "x") [.assign (.var "x") .add (.int 2)] .none,
      .builtin .printInt (some (.var "x")) none,
      .ret (.var "x")]

/-- The code of `addTwo` prints 3 and returns it. -/
theorem lower_block_simulates_addTwo :
    ∃ b', lowerBlock addTwo.body (.new [] 0 true "" rfl) = .ok b' ∧
      (Flat.run (irSem pySem (fun _ _ => ⊥) b'.constants) b'.instructions 0
        ⟨fun _ => 0, fun _ => []⟩).Obs [.printInt 3] (some (.returned 3)) := by
  have hlow : (lowerBlock addTwo.body (.new [] 0 true "" rfl)).isOk = true := by decide +kernel
  obtain ⟨b', hb'⟩ := Except.exists_ok hlow
  have hacc : (analyzeFunction [("main", 0)] addTwo).isOk = true := by decide +kernel
  obtain ⟨info, hinfo⟩ := Except.exists_ok hacc
  refine ⟨b', hb', ?_⟩
  refine ((lower_block_simulates pySem pySem_exact _ _ addTwo info hinfo (by decide) _ b' rfl hb'
    _ _).1 3).mpr ?_
  simp [addTwo, execBlock, execStmt, execVarDecl, execAssign, updateTarget, execBuiltin, test,
    eval, AssignOp.binaryOp, pySem, foldBinary, Store.setVar, Except.toOption,
    Beh.obs_map_some, Beh.obs_emit_some]

end YHsys.Compiler
