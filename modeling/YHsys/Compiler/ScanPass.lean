import YHsys.Compiler.FoldExact
import YHsys.Lib.FlatSim

/-!
# Constant propagation

The scan of `_optimize_once` keeps the behaviour of a function. `envAt` is the dictionary of
known constants when the scan comes to an instruction. A label clears it only after the scan
has passed it, so the invariant of a run is that at every instruction that is not a label
the store has the constants of `envAt`: control reaches such an instruction only from the
one before it.
-/

namespace YHsys.Compiler

open Except (bind_eq_ok)
open Beh (obs_bind_some obs_pure_some)

open Flat (OutRel Follows Pass KeepsLabels)

variable {V : Type} {S : OpSem V} {call : String → List V → Beh (Event V) V}
  {symbols : List IrSymbol} {env env' : ConstEnv} {σ : Store V}

/-! ## Stores -/

theorem ConstEnv.agrees_empty (S : OpSem V) (σ : Store V) : ConstEnv.empty.Agrees S σ :=
  fun _ _ h => nomatch h

theorem ConstEnv.Agrees.mono {τ : Store V} (h : env.Agrees S σ)
    (hle : ∀ x n, env' x = some n → env x = some n ∧ τ.vars x = σ.vars x) : env'.Agrees S τ := by
  intro x n hx
  obtain ⟨hx, hτ⟩ := hle x n hx
  rw [hτ, h x n hx]

theorem pop_some {x y : String} {n : ℤ} (h : env.pop x y = some n) : env y = some n ∧ y ≠ x := by
  by_cases hy : y = x
  · subst hy
    simp [ConstEnv.pop] at h
  · rw [ConstEnv.pop, Function.update_of_ne hy] at h
    exact ⟨h, hy⟩

theorem popAll_some {names : List IrSymbol} {y : String} {n : ℤ}
    (h : names.foldl (fun env s => env.pop s.name) env y = some n) : env y = some n := by
  induction names generalizing env with
  | nil => exact h
  | cons s names ih => exact (pop_some (ih h)).1

theorem invalidateOnStore_some {target : LValue} {y : String} {n : ℤ}
    (h : invalidateOnStore symbols env target y = some n) : env y = some n ∧ y ∉ target.defs := by
  cases target with
  | var x =>
    obtain ⟨hy, hne⟩ := pop_some h
    exact ⟨hy, by simpa [LValue.defs] using hne⟩
  | array x index => exact ⟨(pop_some (popAll_some h)).1, by simp [LValue.defs]⟩

theorem put_vars {target : LValue} {v : V} {t : List (Event V)} {τ : Store V}
    (h : (put S call target v σ).Obs t (some τ)) {y : String} (hy : y ∉ target.defs) :
    τ.vars y = σ.vars y := by
  cases target with
  | var x =>
    obtain ⟨-, rfl⟩ := obs_pure_some.mp h
    exact Function.update_of_ne (by simpa [LValue.defs] using hy) _ _
  | array x index =>
    obtain ⟨_, _, i, -, -, h⟩ := obs_bind_some.mp h
    obtain ⟨_, _, l, -, -, h⟩ := obs_bind_some.mp h
    obtain ⟨-, rfl⟩ := obs_pure_some.mp h
    rfl

theorem agrees_put {target : LValue} {v : V} {t : List (Event V)} {τ : Store V}
    (hσ : env.Agrees S σ) (h : (put S call target v σ).Obs t (some τ)) :
    (invalidateOnStore symbols env target).Agrees S τ :=
  hσ.mono fun _ _ hx => ⟨(invalidateOnStore_some hx).1, put_vars h (invalidateOnStore_some hx).2⟩

theorem agrees_afterAssign {target : LValue} {e e' : Expr} {v : V} {t t' : List (Event V)}
    {τ : Store V} (hσ : env.Agrees S σ) (he : eval S call e' σ = eval S call e σ)
    (hv : (eval S call e σ).Obs t' (some v)) (h : (put S call target v σ).Obs t (some τ)) :
    (afterAssign symbols env target e').Agrees S τ := by
  have hinv : (invalidateOnStore symbols env target).Agrees S τ := agrees_put hσ h
  unfold afterAssign
  split
  · rename_i x n
    -- the value stored is the constant
    rw [← he] at hv
    obtain ⟨-, rfl⟩ := obs_pure_some.mp hv
    obtain ⟨-, rfl⟩ := obs_pure_some.mp h
    intro y k hy
    by_cases hyx : y = x
    · subst hyx
      rw [ConstEnv.set, Function.update_self] at hy
      cases hy
      exact Function.update_self _ _ _
    · rw [ConstEnv.set, Function.update_of_ne hyx] at hy
      exact hinv y k hy
  · exact hinv

/-! ## Operations -/

/-- The index of a target, if it has one. -/
def LValue.indices : LValue → List Expr
  | .var _ => []
  | .array _ index => [index]

/-- The expressions of an operation that the scan simplifies. -/
def Action.exprs : Action → List Expr
  | .assign _ e => [e]
  | .arrayZero _ _ => []
  | .call _ args target => args ++ target.elim [] LValue.indices
  | .sysWriteConst _ _ _ => []
  | .sysWriteExpr e => [e]
  | .sysPauseExpr e => [e]
  | .sysExitExpr e => [e]
  | .returnExpr e => [e]

/-- The expressions of an instruction that the scan simplifies. -/
def instrExprs : Instr → List Expr
  | .ifGoto cond _ => [cond]
  | .act a => a.exprs
  | _ => []

/-- Simplifying `e` with `env` keeps its behaviour. -/
def Keeps (S : OpSem V) (call : String → List V → Beh (Event V) V) (env : ConstEnv) (e : Expr) :
    Prop :=
  ∀ {σ : Store V} {e'}, env.Agrees S σ → simplify env e = .ok e' →
    eval S call e' σ = eval S call e σ

theorem evalArgs_keeps (hσ : env.Agrees S σ) : ∀ {es es' : List Expr},
    (∀ e ∈ es, Keeps S call env e) → simplifyArgs env es = .ok es' →
    evalArgs S call es' σ = evalArgs S call es σ
  | [], es', _, h => by
    cases h
    rfl
  | e :: es, es', hk, h => by
    obtain ⟨e', he, h⟩ := bind_eq_ok.mp h
    obtain ⟨es', hes, h⟩ := bind_eq_ok.mp h
    cases h
    rw [evalArgs, evalArgs, hk e (by simp) hσ he,
      evalArgs_keeps hσ (fun e he => hk e (by simp [he])) hes]

theorem put_scanTarget {target target' : LValue} (hσ : env.Agrees S σ)
    (hk : ∀ e ∈ target.indices, Keeps S call env e) (h : scanTarget env target = .ok target')
    (v : V) : put S call target' v σ = put S call target v σ := by
  cases target with
  | var x =>
    cases h
    rfl
  | array x index =>
    obtain ⟨i, hi, h⟩ := bind_eq_ok.mp h
    cases h
    rw [simplifyFixedPoint_eq] at hi
    simp only [put, hk index (by simp [LValue.indices]) hσ hi]

theorem invalidate_scanTarget {target target' : LValue} (h : scanTarget env target = .ok target') :
    invalidateOnStore symbols env target' = invalidateOnStore symbols env target := by
  cases target with
  | var x =>
    cases h
    rfl
  | array x index =>
    obtain ⟨i, -, h⟩ := bind_eq_ok.mp h
    cases h
    rfl

/-- Same outcome, and the constants of `env` in the store after it. -/
abbrev SameKnown (S : OpSem V) (env : ConstEnv) : Ended V → Ended V → Prop :=
  OutRel fun σ σ' => σ = σ' ∧ env.Agrees S σ

theorem sameKnown_emit (hσ : env.Agrees S σ) {e e' : Expr}
    (he : eval S call e' σ = eval S call e σ) (ev : V → Event V) :
    Beh.Rel (SameKnown S env)
      (eval S call e σ >>= fun v => Beh.emit (ev v) >>= fun _ => pure (.normal σ))
      (eval S call e' σ >>= fun v => Beh.emit (ev v) >>= fun _ => pure (.normal σ)) := by
  rw [he]
  refine .of_obs fun t o ho => ?_
  obtain ⟨_, _, v, -, -, ho⟩ := obs_bind_some.mp ho
  obtain ⟨_, _, _, -, -, ho⟩ := obs_bind_some.mp ho
  obtain ⟨-, rfl⟩ := obs_pure_some.mp ho
  exact .normal ⟨rfl, hσ⟩

theorem sameKnown_return {e e' : Expr} (he : eval S call e' σ = eval S call e σ) :
    Beh.Rel (SameKnown S env) (eval S call e σ >>= fun v => pure (.returned v))
      (eval S call e' σ >>= fun v => pure (.returned v)) := by
  rw [he]
  refine (Beh.Rel.refl _).bind fun v _ hv => ?_
  subst hv
  exact .pure (.returned v)

/-- A scanned operation does the same. -/
theorem act_scanAction {cs : List IrConstant} {a a' : Action} (hσ : env.Agrees S σ)
    (hk : ∀ e ∈ a.exprs, Keeps S call env e) (h : scanAction symbols env a = .ok (a', env')) :
    Beh.Rel (SameKnown S env') (act S call cs a σ) (act S call cs a' σ) := by
  cases a with
  | assign target e =>
    obtain ⟨e', he, h⟩ := bind_eq_ok.mp h
    cases h
    rw [simplifyFixedPoint_eq] at he
    have heval := hk e (by simp [Action.exprs]) hσ he
    simp only [act, heval]
    refine .of_obs fun t o ho => ?_
    obtain ⟨t1, t2, v, -, hv, ho⟩ := obs_bind_some.mp ho
    obtain ⟨t3, t4, τ, -, hτ, ho⟩ := obs_bind_some.mp ho
    obtain ⟨-, rfl⟩ := obs_pure_some.mp ho
    exact .normal ⟨rfl, agrees_afterAssign hσ heval hv hτ⟩
  | arrayZero x size =>
    cases h
    exact .pure (.normal ⟨rfl, hσ.mono fun y n hy => ⟨(pop_some hy).1, rfl⟩⟩)
  | call f args target =>
    cases target with
    | none =>
      obtain ⟨args', hargs, h⟩ := bind_eq_ok.mp h
      cases h
      rw [mapM_simplifyFixedPoint] at hargs
      have hargs := evalArgs_keeps hσ (fun e he => hk e (by simpa [Action.exprs] using he)) hargs
      simp only [act, hargs]
      refine .of_obs fun t o ho => ?_
      obtain ⟨_, _, vs, -, -, ho⟩ := obs_bind_some.mp ho
      obtain ⟨_, _, v, -, -, ho⟩ := obs_bind_some.mp ho
      obtain ⟨-, rfl⟩ := obs_pure_some.mp ho
      exact .normal ⟨rfl, hσ⟩
    | some target =>
      obtain ⟨args', hargs, h⟩ := bind_eq_ok.mp h
      obtain ⟨target', ht, h⟩ := bind_eq_ok.mp h
      cases h
      rw [mapM_simplifyFixedPoint] at hargs
      have hargs := evalArgs_keeps hσ (fun e he => hk e (by simp [Action.exprs, he])) hargs
      have hput := put_scanTarget hσ (fun e he => hk e (by simp [Action.exprs, he])) ht
      simp only [act, hargs, hput, invalidate_scanTarget ht]
      refine .of_obs fun t o ho => ?_
      obtain ⟨_, _, vs, -, -, ho⟩ := obs_bind_some.mp ho
      obtain ⟨_, _, v, -, -, ho⟩ := obs_bind_some.mp ho
      obtain ⟨_, _, τ, -, hτ, ho⟩ := obs_bind_some.mp ho
      obtain ⟨-, rfl⟩ := obs_pure_some.mp ho
      exact .normal ⟨rfl, agrees_put hσ hτ⟩
  | sysWriteConst fd cid size =>
    cases h
    refine .of_obs fun t o ho => ?_
    obtain ⟨_, _, text, -, -, ho⟩ := obs_bind_some.mp ho
    obtain ⟨_, _, _, -, -, ho⟩ := obs_bind_some.mp ho
    obtain ⟨-, rfl⟩ := obs_pure_some.mp ho
    exact .normal ⟨rfl, hσ⟩
  | sysWriteExpr e =>
    obtain ⟨e', he, h⟩ := bind_eq_ok.mp h
    cases h
    rw [simplifyFixedPoint_eq] at he
    exact sameKnown_emit hσ (hk e (by simp [Action.exprs]) hσ he) .printInt
  | sysPauseExpr e =>
    obtain ⟨e', he, h⟩ := bind_eq_ok.mp h
    cases h
    rw [simplifyFixedPoint_eq] at he
    exact sameKnown_emit hσ (hk e (by simp [Action.exprs]) hσ he) .pause
  | sysExitExpr e =>
    obtain ⟨e', he, h⟩ := bind_eq_ok.mp h
    cases h
    rw [simplifyFixedPoint_eq] at he
    exact sameKnown_return (hk e (by simp [Action.exprs]) hσ he)
  | returnExpr e =>
    obtain ⟨e', he, h⟩ := bind_eq_ok.mp h
    cases h
    rw [simplifyFixedPoint_eq] at he
    exact sameKnown_return (hk e (by simp [Action.exprs]) hσ he)

/-! ## The scan, instruction by instruction -/

/-- `env` when the scan, begun with `env`, comes to instruction `i`. -/
def envAt (symbols : List IrSymbol) (env : ConstEnv) : List Instr → ℕ → ConstEnv
  | _, 0 => env
  | [], _ + 1 => env
  | ins :: rest, i + 1 =>
    match scanInstr symbols env ins with
    | .ok (_, env) => envAt symbols env rest i
    | .error _ => env

theorem scan_cons {ins : Instr} {rest : List Instr} {kept : List (Option Instr)}
    (h : scan symbols env (ins :: rest) = .ok kept) :
    ∃ y env' kept', scanInstr symbols env ins = .ok (y, env') ∧
      scan symbols env' rest = .ok kept' ∧ kept = y :: kept' := by
  obtain ⟨⟨y, env'⟩, hi, h⟩ := bind_eq_ok.mp h
  obtain ⟨kept', hr, h⟩ := bind_eq_ok.mp h
  cases h
  exact ⟨y, env', kept', hi, hr, rfl⟩

theorem scan_length {code : List Instr} {kept : List (Option Instr)}
    (h : scan symbols env code = .ok kept) : kept.length = code.length := by
  induction code generalizing env kept with
  | nil =>
    cases h
    rfl
  | cons ins rest ih =>
    obtain ⟨y, env', kept', -, hr, rfl⟩ := scan_cons h
    rw [List.length_cons, List.length_cons, ih hr]

theorem scan_get {code : List Instr} {kept : List (Option Instr)}
    (h : scan symbols env code = .ok kept) {i : ℕ} {ins : Instr} {y : Option Instr}
    (hi : code[i]? = some ins) (hy : kept[i]? = some y) :
    scanInstr symbols (envAt symbols env code i) ins =
      .ok (y, envAt symbols env code (i + 1)) := by
  induction code generalizing env kept i with
  | nil => cases hi
  | cons ins' rest ih =>
    obtain ⟨y', env', kept', hs, hr, rfl⟩ := scan_cons h
    cases i with
    | zero =>
      cases hi
      cases hy
      simp only [envAt, hs]
    | succ i =>
      have := ih hr hi hy
      simp only [envAt, hs]
      exact this

theorem pruneBranch_true {c : Expr} {l : Label} (h : truthyConst c = some true) :
    pruneBranch (.ifGoto c l) = some (.goto l) := by
  simp [pruneBranch, h]

theorem pruneBranch_false {c : Expr} {l : Label} (h : truthyConst c = some false) :
    pruneBranch (.ifGoto c l) = none := by
  simp [pruneBranch, h]

theorem pruneBranch_none {c : Expr} {l : Label} (h : truthyConst c = none) :
    pruneBranch (.ifGoto c l) = some (.ifGoto c l) := by
  simp [pruneBranch, h]

theorem pruneBranch_label {c : Expr} {l l' : Label} :
    pruneBranch (.ifGoto c l) ≠ some (.label l') := by
  cases h : truthyConst c with
  | none => simp [pruneBranch_none h]
  | some v => cases v <;> simp [pruneBranch_true, pruneBranch_false, h]

theorem scan_labels {code : List Instr} {kept : List (Option Instr)} (hu : Flat.UniqueLabels code)
    (h : scan symbols env code = .ok kept) : KeepsLabels code kept := by
  have hlabel : ∀ {q : ℕ} {l : Label}, code[q]? = some (.label l) →
      kept[q]? = some (some (.label l)) := by
    intro q l hq
    have hlt : q < kept.length := by
      rw [scan_length h]
      exact (List.getElem?_eq_some_iff.mp hq).1
    have hs := scan_get h hq (List.getElem?_eq_getElem hlt)
    rw [List.getElem?_eq_getElem hlt]
    simp only [scanInstr, Except.ok.injEq, Prod.mk.injEq] at hs
    rw [← hs.1]
  refine ⟨hu, scan_length h, fun {q l} hq => ?_, fun _ hq => hlabel hq, fun _ hq => hlabel hq⟩
  have hlt : q < code.length := by
    rw [← scan_length h]
    exact (List.getElem?_eq_some_iff.mp hq).1
  have hs := scan_get h (List.getElem?_eq_getElem hlt) hq
  rw [List.getElem?_eq_getElem hlt]
  cases hc : code[q] with
  | label l' =>
    rw [hc] at hs
    simp only [scanInstr, Except.ok.injEq, Prod.mk.injEq, Option.some.injEq] at hs
    rw [hs.1]
  | goto l' =>
    rw [hc] at hs
    simp [scanInstr] at hs
  | ifGoto cond l' =>
    rw [hc] at hs
    obtain ⟨c, -, hs⟩ := bind_eq_ok.mp hs
    simp only [Except.ok.injEq, Prod.mk.injEq] at hs
    exact absurd hs.1 pruneBranch_label
  | act a =>
    rw [hc] at hs
    obtain ⟨⟨a', env'⟩, -, hs⟩ := bind_eq_ok.mp hs
    simp at hs

/-! ## The pass -/

/-- Where control stands at instruction `i`, the store has the constants that the scan
knows there. -/
def KnownAt (S : OpSem V) (symbols : List IrSymbol) (code : List Instr) (i : ℕ) (σ : Store V) :
    Prop :=
  (∃ l, code[i]? = some (.label l)) ∨ (envAt symbols .empty code i).Agrees S σ

/-- Every simplification the scan makes keeps the behaviour, and every constant condition
counts as true iff it is not 0. -/
structure ScanKeeps (S : OpSem V) (call : String → List V → Beh (Event V) V)
    (symbols : List IrSymbol) (code : List Instr) : Prop where
  exprs : ∀ {i ins e}, code[i]? = some ins → e ∈ instrExprs ins →
    Keeps S call (envAt symbols .empty code i) e
  conds : ∀ {i c l n}, code[i]? = some (.ifGoto c l) →
    simplify (envAt symbols .empty code i) c = .ok (.int n) → TruthExact S n

theorem test_const {n : ℤ} {v : Bool} (h : TruthExact S n) (hv : (n != 0) = v) (σ : Store V) :
    test S call (.int n) σ = pure v := by
  simp only [test, eval, Beh.pure_bind', show S.truthy (S.lit n) = (n != 0) from h, hv]

theorem follows_pruneBranch {Sm : Flat.Sem (Event V) Action Expr (Store V) V} {code : List Instr}
    {R : ℕ → Store V → Store V → Prop} {i : ℕ} {c c' : Expr} {l : Label}
    (htest : Sm.test c σ = Sm.test c' σ)
    (hconst : ∀ n, c' = .int n → Sm.test c' σ = pure (n != 0))
    (hjump : ∀ q, Flat.find code l = some q → R q σ σ) (hR : R (i + 1) σ σ) :
    Follows Sm Sm code R i σ σ (.ifGoto c l) (pruneBranch (.ifGoto c' l)) := by
  cases ht : truthyConst c' with
  | none =>
    rw [pruneBranch_none ht]
    exact .ifGoto htest hjump hR
  | some v =>
    obtain ⟨n, rfl, hn⟩ := truthyConst_const ht
    have hc := htest.trans (hconst n rfl)
    rw [hn] at hc
    cases v with
    | true =>
      rw [pruneBranch_true ht]
      exact .always hc hjump
    | false =>
      rw [pruneBranch_false ht]
      exact .never hc hR

theorem scan_pass {code : List Instr} {kept : List (Option Instr)} {cs : List IrConstant}
    (hu : Flat.UniqueLabels code) (h : scan symbols .empty code = .ok kept)
    (hk : ScanKeeps S call symbols code) :
    Pass (irSem S call cs) (irSem S call cs) code kept
      (fun i σ σ' => σ = σ' ∧ KnownAt S symbols code i σ) (fun σ σ' => σ = σ') where
  labels := scan_labels hu h
  ends := fun hR _ => hR.1
  follows := by
    rintro i ins y σ _ ⟨rfl, hknown⟩ hi hy
    have hs := scan_get h hi hy
    -- a jump leads to a label, where nothing has to be known
    have hjump : ∀ l q, Flat.find code l = some q → σ = σ ∧ KnownAt S symbols code q σ :=
      fun l q hq => ⟨rfl, .inl ⟨l, Flat.find_some hq⟩⟩
    have hempty : envAt symbols .empty code (i + 1) = .empty →
        σ = σ ∧ KnownAt S symbols code (i + 1) σ := fun he =>
      ⟨rfl, .inr (by rw [he]; exact ConstEnv.agrees_empty S σ)⟩
    have hσ : (∀ l, ins ≠ .label l) → (envAt symbols .empty code i).Agrees S σ := fun hne =>
      hknown.resolve_left fun ⟨l, hl⟩ => hne l (Option.some.inj (hi.symm.trans hl))
    cases ins with
    | label l =>
      simp only [scanInstr, Except.ok.injEq, Prod.mk.injEq] at hs
      obtain ⟨rfl, he⟩ := hs
      exact .label (hempty he.symm)
    | goto l =>
      simp only [scanInstr, Except.ok.injEq, Prod.mk.injEq] at hs
      obtain ⟨rfl, -⟩ := hs
      exact .goto (hjump l)
    | ifGoto c l =>
      have hσ := hσ (by simp)
      obtain ⟨c', hc, hs⟩ := bind_eq_ok.mp hs
      rw [simplifyFixedPoint_eq] at hc
      simp only [Except.ok.injEq, Prod.mk.injEq] at hs
      obtain ⟨rfl, he⟩ := hs
      refine follows_pruneBranch ?_ ?_ (hjump l) (hempty he.symm)
      · simp only [irSem, test, hk.exprs hi (by simp [instrExprs]) hσ hc]
      · rintro n rfl
        exact test_const (hk.conds hi hc) rfl σ
    | act a =>
      have hσ := hσ (by simp)
      obtain ⟨⟨a', env'⟩, ha, hs⟩ := bind_eq_ok.mp hs
      simp only [Except.ok.injEq, Prod.mk.injEq] at hs
      obtain ⟨rfl, rfl⟩ := hs
      refine .act ?_
      have hrel : Beh.Rel (SameKnown S _) (act S call cs a σ) (act S call cs a' σ) :=
        act_scanAction hσ (fun e he => hk.exprs hi he) ha
      exact hrel.mono fun o o' ho => ho.mono fun _ _ hR => ⟨hR.1, .inr hR.2⟩

end YHsys.Compiler
