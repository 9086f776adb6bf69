import YHsys.Compiler.ScanPass

/-!
# The constants a function can come to know

`MayKnow code i x n`: some straight line of instructions before `i` gives `x` the constant
`n`. Every pass keeps the order of the instructions it keeps, and the scan forgets at a
label, so in every pass of the optimizer the constants known at an instruction are among
these, however often the passes are repeated.

`CodeOk` asks that every rewrite of every instruction meet a specification, with whatever
constants the instruction may know. It is a property of the code before the optimizer, and
each pass keeps it (`CodeOk.transfer`).
-/

namespace YHsys.Compiler

open Except (bind_eq_ok ok_bind)
open Compiler.Action (exprs)

open Flat (newPos newPos_keep exists_newPos)

/-- The constants that instructions before `i` can give to `x`. -/
inductive MayKnow (code : List Instr) : ℕ → String → ℤ → Prop where
  | keep {i : ℕ} {x : String} {n : ℤ} (h : MayKnow code i x n) : MayKnow code (i + 1) x n
  | assign {i : ℕ} {x : String} {e : Expr} {n : ℤ} {env : ConstEnv}
      (hi : code[i]? = some (.act (.assign (.var x) e)))
      (henv : ∀ y m, env y = some m → MayKnow code i y m) (he : simplify env e = .ok (.int n)) :
      MayKnow code (i + 1) x n

/-- `env` knows only what it may know at instruction `i`. -/
def ConstEnv.Within (code : List Instr) (i : ℕ) (env : ConstEnv) : Prop :=
  ∀ x n, env x = some n → MayKnow code i x n

section

variable (F : FoldSpec)

/-- Every rewrite of the instruction with the constants of `env` is as `F` asks. -/
structure InstrOk (env : ConstEnv) (ins : Instr) : Prop where
  exprs : ∀ e ∈ instrExprs ins, FoldsOk F env e
  cond : ∀ {c l n}, ins = .ifGoto c l → simplify env c = .ok (.int n) → F.truth n

/-- Every rewrite of every instruction is as `F` asks, whatever it may know. -/
def CodeOk (code : List Instr) : Prop :=
  ∀ {i : ℕ} {ins : Instr} {env : ConstEnv}, code[i]? = some ins → env.Within code i →
    InstrOk F env ins

/-- `ins'` knows no more than `ins` did: with any constants it is rewritten as `ins` is with
`f` of them, and stores the same constant. -/
structure Derives (code : List Instr) (j : ℕ) (ins ins' : Instr) (f : ConstEnv → ConstEnv) :
    Prop where
  within : ∀ {env}, env.Within code j → (f env).Within code j
  exact : ∀ {env}, InstrOk F (f env) ins → InstrOk F env ins'
  stores : ∀ {env x e' n}, InstrOk F (f env) ins → ins' = .act (.assign (.var x) e') →
    simplify env e' = .ok (.int n) →
    ∃ e, ins = .act (.assign (.var x) e) ∧ simplify (f env) e = .ok (.int n)

end

variable {F : FoldSpec} {code : List Instr} {kept : List (Option Instr)}
  {symbols : List IrSymbol} {env env' : ConstEnv}

theorem MayKnow.mono {i j : ℕ} {x : String} {n : ℤ} (h : MayKnow code i x n) (hij : i ≤ j) :
    MayKnow code j x n := by
  induction hij with
  | refl => exact h
  | step _ ih => exact .keep ih

theorem ConstEnv.Within.empty (code : List Instr) (i : ℕ) : ConstEnv.empty.Within code i :=
  fun _ _ h => nomatch h

open ConstEnv.Within (empty)

theorem ConstEnv.Within.of_le {i : ℕ} (h : env.Within code i)
    (hle : ∀ x n, env' x = some n → env x = some n) : env'.Within code (i + 1) :=
  fun x n hx => .keep (h x n (hle x n hx))

/-! ## Passes keep the specification -/

theorem Derives.copy (j : ℕ) (ins : Instr) : Derives F code j ins ins id where
  within h := h
  exact h := h
  stores := by
    rintro env x e' n - rfl he
    exact ⟨e', rfl, he⟩

theorem Derives.goto (j : ℕ) (ins : Instr) (l : Label) : Derives F code j ins (.goto l) id where
  within h := h
  exact _ := ⟨by simp [instrExprs], by simp⟩
  stores := by simp

theorem mayKnow_kept (hcode : CodeOk F code)
    (hk : ∀ {j : ℕ} {ins'}, kept[j]? = some (some ins') →
      ∃ ins f, code[j]? = some ins ∧ Derives F code j ins ins' f)
    {p : ℕ} {x : String} {n : ℤ} (h : MayKnow kept.reduceOption p x n) :
    ∀ {i : ℕ}, p ≤ newPos kept i → MayKnow code i x n := by
  induction h with
  | keep _ ih => exact fun hi => ih (by omega)
  | @assign p x e n env hp _ he ih =>
    intro i hi
    obtain ⟨j, hj, rfl⟩ := exists_newPos hp
    obtain ⟨ins, f, hins, hd⟩ := hk hj
    have hwithin : (f env).Within code j := hd.within fun y m hy => ih y m hy le_rfl
    obtain ⟨e', rfl, he'⟩ := hd.stores (hcode hins hwithin) rfl he
    refine (MayKnow.assign hins hwithin he').mono ?_
    by_contra hlt
    have := Flat.newPos_mono kept (show i ≤ j by omega)
    omega

theorem CodeOk.transfer (hcode : CodeOk F code)
    (hk : ∀ {j : ℕ} {ins'}, kept[j]? = some (some ins') →
      ∃ ins f, code[j]? = some ins ∧ Derives F code j ins ins' f) :
    CodeOk F kept.reduceOption := by
  intro p ins' env hp henv
  obtain ⟨j, hj, rfl⟩ := exists_newPos hp
  obtain ⟨ins, f, hins, hd⟩ := hk hj
  exact hd.exact (hcode hins (hd.within fun x n hx => mayKnow_kept hcode hk (henv x n hx) le_rfl))

theorem CodeOk.drop (hcode : CodeOk F code)
    (hk : ∀ {j : ℕ} {ins}, kept[j]? = some (some ins) → code[j]? = some ins) :
    CodeOk F kept.reduceOption :=
  hcode.transfer fun {j ins} hj => ⟨ins, id, hk hj, .copy j ins⟩

/-! ## The scan -/

theorem within_afterAssign {i : ℕ} {target : LValue} {e e' : Expr} (h : env.Within code i)
    (hi : code[i]? = some (.act (.assign target e))) (he : simplify env e = .ok e') :
    (afterAssign symbols env target e').Within code (i + 1) := by
  have hinv : (invalidateOnStore symbols env target).Within code (i + 1) :=
    h.of_le fun x n hx => (invalidateOnStore_some hx).1
  unfold afterAssign
  split
  · rename_i x n
    intro y k hy
    by_cases hyx : y = x
    · subst hyx
      rw [ConstEnv.set, Function.update_self] at hy
      cases hy
      exact .assign hi h he
    · rw [ConstEnv.set, Function.update_of_ne hyx] at hy
      exact hinv y k hy
  · exact hinv

theorem within_scanAction {i : ℕ} {a a' : Action} (h : env.Within code i)
    (hi : code[i]? = some (.act a)) (hs : scanAction symbols env a = .ok (a', env')) :
    env'.Within code (i + 1) := by
  have hstep : env.Within code (i + 1) := h.of_le fun _ _ hx => hx
  cases a with
  | assign target e =>
    obtain ⟨e', he, hs⟩ := bind_eq_ok.mp hs
    cases hs
    rw [simplifyFixedPoint_eq] at he
    exact within_afterAssign h hi he
  | arrayZero x size =>
    cases hs
    exact h.of_le fun y n hy => (pop_some hy).1
  | call f args target =>
    cases target with
    | none =>
      obtain ⟨args', -, hs⟩ := bind_eq_ok.mp hs
      cases hs
      exact hstep
    | some target =>
      obtain ⟨args', -, hs⟩ := bind_eq_ok.mp hs
      obtain ⟨target', -, hs⟩ := bind_eq_ok.mp hs
      cases hs
      exact h.of_le fun y n hy => (invalidateOnStore_some hy).1
  | sysWriteConst fd cid size =>
    cases hs
    exact hstep
  | sysWriteExpr e | sysPauseExpr e | sysExitExpr e | returnExpr e =>
    obtain ⟨e', -, hs⟩ := bind_eq_ok.mp hs
    cases hs
    exact hstep

theorem within_scanInstr {i : ℕ} {ins : Instr} {y : Option Instr} (h : env.Within code i)
    (hi : code[i]? = some ins) (hs : scanInstr symbols env ins = .ok (y, env')) :
    env'.Within code (i + 1) := by
  cases ins with
  | label l =>
    cases hs
    exact empty _ _
  | goto l =>
    cases hs
    exact empty _ _
  | ifGoto c l =>
    obtain ⟨c', -, hs⟩ := bind_eq_ok.mp hs
    cases hs
    exact empty _ _
  | act a =>
    obtain ⟨⟨a', env''⟩, ha, hs⟩ := bind_eq_ok.mp hs
    cases hs
    exact within_scanAction h hi ha

theorem within_envAt (h : scan symbols .empty code = .ok kept) {i : ℕ} (hi : i ≤ code.length) :
    (envAt symbols .empty code i).Within code i := by
  induction i with
  | zero =>
    rw [show envAt symbols .empty code 0 = .empty by cases code <;> rfl]
    exact empty _ _
  | succ i ih =>
    have hlt : i < code.length := by omega
    have hlt' : i < kept.length := scan_length h ▸ hlt
    exact within_scanInstr (ih hlt.le) (List.getElem?_eq_getElem hlt)
      (scan_get h (List.getElem?_eq_getElem hlt) (List.getElem?_eq_getElem hlt'))

/-! ### The scan returns -/

theorem argsFoldOk_iff {es : List Expr} :
    ArgsFoldOk F env es ↔ ∀ e ∈ es, FoldsOk F env e := by
  induction es with
  | nil => simp [ArgsFoldOk]
  | cons e es ih => simp [ArgsFoldOk, ih]

theorem scanTarget_ok {target : LValue} (h : ∀ e ∈ target.indices, FoldsOk F env e) :
    ∃ target', scanTarget env target = .ok target' := by
  cases target with
  | var x => exact ⟨_, rfl⟩
  | array x index =>
    obtain ⟨i, hi⟩ := simplify_ok (h index (by simp [LValue.indices]))
    exact ⟨.array x i, by rw [scanTarget, simplifyFixedPoint_eq, hi]; rfl⟩

theorem scanAction_ok {a : Action} (h : ∀ e ∈ a.exprs, FoldsOk F env e) :
    ∃ r, scanAction symbols env a = .ok r := by
  cases a with
  | assign target e =>
    obtain ⟨e', he⟩ := simplify_ok (h e (by simp [exprs]))
    exact ⟨_, by rw [scanAction, simplifyFixedPoint_eq, he]; rfl⟩
  | arrayZero x size => exact ⟨_, rfl⟩
  | call f args target =>
    obtain ⟨args', hargs⟩ : ∃ args', simplifyArgs env args = .ok args' := simplifyArgs_ok
      (argsFoldOk_iff.mpr fun e he => h e (by simp [exprs, he]))
    cases target with
    | none => exact ⟨_, by rw [scanAction, mapM_simplifyFixedPoint, hargs]; rfl⟩
    | some target =>
      obtain ⟨target', ht⟩ : ∃ target', scanTarget env target = .ok target' :=
        scanTarget_ok fun e he => h e (by simp [exprs, he])
      exact ⟨_, by rw [scanAction, mapM_simplifyFixedPoint, hargs, ht]; rfl⟩
  | sysWriteConst fd cid size => exact ⟨_, rfl⟩
  | sysWriteExpr e | sysPauseExpr e | sysExitExpr e | returnExpr e =>
    obtain ⟨e', he⟩ := simplify_ok (h e (by simp [exprs]))
    exact ⟨_, by rw [scanAction, simplifyFixedPoint_eq, he]; rfl⟩

theorem scanInstr_ok {ins : Instr} (h : InstrOk F env ins) :
    ∃ y env', scanInstr symbols env ins = .ok (y, env') := by
  cases ins with
  | label l => exact ⟨_, _, rfl⟩
  | goto l => exact ⟨_, _, rfl⟩
  | ifGoto c l =>
    obtain ⟨c', hc⟩ := simplify_ok (h.exprs c (by simp [instrExprs]))
    exact ⟨_, _, by rw [scanInstr, simplifyFixedPoint_eq, hc]; rfl⟩
  | act a =>
    obtain ⟨⟨a', env'⟩, ha⟩ : ∃ r, scanAction symbols env a = .ok r := scanAction_ok h.exprs
    exact ⟨_, _, by rw [scanInstr, ha]; rfl⟩

theorem scan_drop_ok (hcode : CodeOk F code) (d : ℕ) : ∀ {i : ℕ} {env : ConstEnv},
    code.length - i = d → env.Within code i → ∃ kept, scan symbols env (code.drop i) = .ok kept := by
  induction d with
  | zero =>
    intro i env hd _
    rw [List.drop_eq_nil_of_le (by omega)]
    exact ⟨[], rfl⟩
  | succ d ih =>
    intro i env hd henv
    have hlt : i < code.length := by omega
    obtain ⟨y, env', hs⟩ : ∃ y env', scanInstr symbols env code[i] = .ok (y, env') :=
      scanInstr_ok (hcode (List.getElem?_eq_getElem hlt) henv)
    obtain ⟨kept, hk⟩ := ih (i := i + 1) (by omega)
      (within_scanInstr henv (List.getElem?_eq_getElem hlt) hs)
    rw [List.drop_eq_getElem_cons hlt]
    exact ⟨y :: kept, by simp only [scan, hs, ok_bind, hk]⟩

theorem CodeOk.scan_ok (hcode : CodeOk F code) :
    ∃ kept, scan symbols .empty code = .ok kept := by
  have h : ∃ kept, scan symbols .empty (code.drop 0) = .ok kept :=
    scan_drop_ok hcode _ rfl (empty _ _)
  simpa using h

/-! ### What the scan leaves -/

theorem mem_simplifyArgs {es es' : List Expr} (h : simplifyArgs env es = .ok es') {e' : Expr}
    (he' : e' ∈ es') : ∃ e ∈ es, simplify env e = .ok e' := by
  induction es generalizing es' with
  | nil =>
    cases h
    cases he'
  | cons e es ih =>
    obtain ⟨e1, he, h⟩ := bind_eq_ok.mp h
    obtain ⟨es1, hes, h⟩ := bind_eq_ok.mp h
    cases h
    rcases List.mem_cons.mp he' with rfl | hmem
    · exact ⟨e, by simp, he⟩
    · obtain ⟨e2, hmem', he2⟩ := ih hes hmem
      exact ⟨e2, by simp [hmem'], he2⟩

theorem mem_scanTarget {target target' : LValue} (h : scanTarget env target = .ok target')
    {e' : Expr} (he' : e' ∈ target'.indices) : ∃ e ∈ target.indices, simplify env e = .ok e' := by
  cases target with
  | var x =>
    cases h
    cases he'
  | array x index =>
    obtain ⟨i, hi, h⟩ := bind_eq_ok.mp h
    cases h
    rw [simplifyFixedPoint_eq] at hi
    rw [LValue.indices, List.mem_singleton] at he'
    exact ⟨index, by simp [LValue.indices], he' ▸ hi⟩

theorem mem_scanAction {a a' : Action} (h : scanAction symbols env a = .ok (a', env')) {e' : Expr}
    (he' : e' ∈ a'.exprs) : ∃ e ∈ a.exprs, simplify env e = .ok e' := by
  cases a with
  | assign target e =>
    obtain ⟨e1, he, h⟩ := bind_eq_ok.mp h
    cases h
    rw [simplifyFixedPoint_eq] at he
    rw [exprs, List.mem_singleton] at he'
    exact ⟨e, by simp [exprs], he' ▸ he⟩
  | arrayZero x size =>
    cases h
    cases he'
  | call f args target =>
    cases target with
    | none =>
      obtain ⟨args', hargs, h⟩ := bind_eq_ok.mp h
      cases h
      rw [mapM_simplifyFixedPoint] at hargs
      obtain ⟨e, hmem, he⟩ := mem_simplifyArgs hargs (by simpa [exprs] using he')
      exact ⟨e, by simp [exprs, hmem], he⟩
    | some target =>
      obtain ⟨args', hargs, h⟩ := bind_eq_ok.mp h
      obtain ⟨target', ht, h⟩ := bind_eq_ok.mp h
      cases h
      rw [mapM_simplifyFixedPoint] at hargs
      rcases List.mem_append.mp he' with hmem | hmem
      · obtain ⟨e, hmem, he⟩ := mem_simplifyArgs hargs hmem
        exact ⟨e, by simp [exprs, hmem], he⟩
      · obtain ⟨e, hmem, he⟩ := mem_scanTarget ht hmem
        exact ⟨e, by simp [exprs, hmem], he⟩
  | sysWriteConst fd cid size =>
    cases h
    cases he'
  | sysWriteExpr e | sysPauseExpr e | sysExitExpr e | returnExpr e =>
    obtain ⟨e1, he, h⟩ := bind_eq_ok.mp h
    cases h
    rw [simplifyFixedPoint_eq] at he
    rw [exprs, List.mem_singleton] at he'
    exact ⟨e, by simp [exprs], he' ▸ he⟩

theorem scanAction_assign {a : Action} {target : LValue} {e' : Expr}
    (h : scanAction symbols env a = .ok (.assign target e', env')) :
    ∃ e, a = .assign target e ∧ simplify env e = .ok e' := by
  cases a with
  | assign target1 e =>
    obtain ⟨e1, he, h⟩ := bind_eq_ok.mp h
    cases h
    rw [simplifyFixedPoint_eq] at he
    exact ⟨e, rfl, he⟩
  | arrayZero x size => cases h
  | call f args target1 =>
    cases target1 with
    | none =>
      obtain ⟨args', -, h⟩ := bind_eq_ok.mp h
      cases h
    | some target1 =>
      obtain ⟨args', -, h⟩ := bind_eq_ok.mp h
      obtain ⟨target', -, h⟩ := bind_eq_ok.mp h
      cases h
  | sysWriteConst fd cid size => cases h
  | sysWriteExpr e | sysPauseExpr e | sysExitExpr e | returnExpr e =>
    obtain ⟨e1, -, h⟩ := bind_eq_ok.mp h
    cases h

theorem derives_act {j : ℕ} {a a' : Action} (henv : env.Within code j)
    (h : scanAction symbols env a = .ok (a', env')) :
    Derives F code j (.act a) (.act a') env.over where
  within := by
    intro env1 henv1 x n hx
    unfold ConstEnv.over at hx
    rcases Option.or_eq_some_iff.mp hx with hx | ⟨-, hx⟩
    · exact henv x n hx
    · exact henv1 x n hx
  exact := by
    intro env1 hex
    refine ⟨fun e' he' => ?_, by simp⟩
    obtain ⟨e, hmem, he⟩ := mem_scanAction h he'
    exact (simplify_over (hex.exprs e hmem) he).2
  stores := by
    intro env1 x e' n hex ha he'
    cases ha
    obtain ⟨e, rfl, he⟩ := scanAction_assign h
    have := (simplify_over (hex.exprs e (by simp [instrExprs, exprs])) he).1
    exact ⟨e, rfl, this ▸ he'⟩

theorem derives_ifGoto {j : ℕ} {c c' : Expr} {l : Label} (henv : env.Within code j)
    (h : simplify env c = .ok c') :
    Derives F code j (.ifGoto c l) (.ifGoto c' l) env.over where
  within := by
    intro env1 henv1 x n hx
    unfold ConstEnv.over at hx
    rcases Option.or_eq_some_iff.mp hx with hx | ⟨-, hx⟩
    · exact henv x n hx
    · exact henv1 x n hx
  exact := by
    intro env1 hex
    obtain ⟨heq, hex'⟩ := simplify_over (hex.exprs c (by simp [instrExprs])) h
    constructor
    · simpa [instrExprs] using hex'
    · rintro c1 l1 n hc hn
      cases hc
      exact hex.cond rfl (heq ▸ hn)
  stores := by simp

theorem CodeOk.scan_kept (hcode : CodeOk F code)
    (h : scan symbols .empty code = .ok kept) : CodeOk F kept.reduceOption := by
  refine hcode.transfer fun {j ins'} hj => ?_
  have hlt : j < code.length := scan_length h ▸ (List.getElem?_eq_some_iff.mp hj).1
  have hins := List.getElem?_eq_getElem hlt
  have henv := within_envAt h hlt.le
  have hs := scan_get h hins hj
  refine ⟨code[j], ?_⟩
  cases hc : code[j] with
  | label l =>
    rw [hc] at hs
    simp only [scanInstr, Except.ok.injEq, Prod.mk.injEq, Option.some.injEq] at hs
    obtain ⟨rfl, -⟩ := hs
    exact ⟨id, hc ▸ hins, .copy j _⟩
  | goto l =>
    rw [hc] at hs
    simp only [scanInstr, Except.ok.injEq, Prod.mk.injEq, Option.some.injEq] at hs
    obtain ⟨rfl, -⟩ := hs
    exact ⟨id, hc ▸ hins, .copy j _⟩
  | ifGoto c l =>
    rw [hc] at hs
    obtain ⟨c', hc', hs⟩ := bind_eq_ok.mp hs
    rw [simplifyFixedPoint_eq] at hc'
    simp only [Except.ok.injEq, Prod.mk.injEq] at hs
    cases ht : truthyConst c' with
    | none =>
      rw [pruneBranch_none ht] at hs
      cases hs.1
      exact ⟨_, hc ▸ hins, derives_ifGoto henv hc'⟩
    | some v =>
      cases v with
      | true =>
        rw [pruneBranch_true ht] at hs
        cases hs.1
        exact ⟨id, hc ▸ hins, .goto j _ l⟩
      | false =>
        rw [pruneBranch_false ht] at hs
        cases hs.1
  | act a =>
    rw [hc] at hs
    obtain ⟨⟨a', env'⟩, ha, hs⟩ := bind_eq_ok.mp hs
    simp only [Except.ok.injEq, Prod.mk.injEq, Option.some.injEq] at hs
    obtain ⟨rfl, -⟩ := hs
    exact ⟨_, hc ▸ hins, derives_act henv ha⟩

theorem CodeOk.scanKeeps {V : Type} {S : OpSem V} {hL : S.Laws} (hT : S.Total)
    (hcode : CodeOk (exactSpec S hL) code) (h : scan symbols .empty code = .ok kept)
    (call : String → List V → Beh (Event V) V) : ScanKeeps S call symbols code where
  exprs := by
    intro i ins e hi he σ e' hσ hs
    have hlt := (List.getElem?_eq_some_iff.mp hi).1
    exact eval_simplify hL hT hσ ((hcode hi (within_envAt h hlt.le)).exprs e he) hs
  conds := by
    intro i c l n hi hn
    have hlt := (List.getElem?_eq_some_iff.mp hi).1
    exact (hcode hi (within_envAt h hlt.le)).cond rfl hn

end YHsys.Compiler
