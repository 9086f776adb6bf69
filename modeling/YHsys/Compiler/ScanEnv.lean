import YHsys.Compiler.ScanPass
import YHsys.Compiler.OptimizeSound
import YHsys.Lib.FlatSteps

/-!
# The constants that the scan knows

The loop of `_optimize_once` goes over the text of a function once and carries `env`, the
constants that variables are known to hold. Control goes through the same text in many ways.
Whenever it comes to an instruction, each constant in the `env` with which the scan deals with
that instruction is the value of its variable: an operation changes `env` along with the
store, and all else that control can come from lies before a label, where `env` is cleared.
-/

namespace YHsys.Compiler

open Flat (Step Steps)

variable {V : Type} {S : OpSem V} {call : String → List V → Beh (Event V) V}
  {symbols : List IrSymbol} {code : List Instr} {cs : List IrConstant} {env : ConstEnv}

/-- `env` when the loop of `_optimize_once` comes to instruction `i`, if nothing that it
simplifies before that raises an exception. -/
def envBefore (symbols : List IrSymbol) (code : List Instr) (i : ℕ) : Except PyError ConstEnv :=
  (code.take i).foldlM
    (fun env ins => do
      let (_, env) ← scanInstr symbols env ins
      .ok env)
    .empty

/-- The `env` with which the loop deals with instruction `i`. At a label the first thing it
does is `env.clear()`. -/
def scanEnv (symbols : List IrSymbol) (code : List Instr) (i : ℕ) : Except PyError ConstEnv := do
  let env ← envBefore symbols code i
  match code[i]? with
  | some (.label _) => .ok .empty
  | _ => .ok env

theorem envBefore_succ {i : ℕ} {ins : Instr} {env' : ConstEnv} (hi : code[i]? = some ins)
    (h : envBefore symbols code (i + 1) = .ok env') :
    ∃ env y, envBefore symbols code i = .ok env ∧ scanInstr symbols env ins = .ok (y, env') := by
  rw [envBefore, List.take_add_one, hi, Option.toList_some, List.foldlM_append] at h
  obtain ⟨env, henv, h⟩ := Except.bind_eq_ok.mp h
  rw [List.foldlM_cons] at h
  obtain ⟨env'', hins, h⟩ := Except.bind_eq_ok.mp h
  obtain ⟨⟨y, env1⟩, hins, h'⟩ := Except.bind_eq_ok.mp hins
  cases h'
  cases h
  exact ⟨env, y, henv, hins⟩

/-- Where control can be: at a label, or where the store has the constants of `env`. -/
def EnvHolds (S : OpSem V) (symbols : List IrSymbol) (code : List Instr) (i : ℕ) (σ : Store V) :
    Prop :=
  (∃ l, code[i]? = some (.label l)) ∨
    ∀ env, envBefore symbols code i = .ok env → env.Agrees S σ

theorem EnvHolds.agrees {i : ℕ} {ins : Instr} {σ : Store V}
    (h : EnvHolds S symbols code i σ) (hi : code[i]? = some ins) (hne : ∀ l, ins ≠ .label l)
    (henv : envBefore symbols code i = .ok env) : env.Agrees S σ := by
  refine (h.resolve_left ?_) env henv
  rintro ⟨l, hl⟩
  exact hne l (Option.some.inj (hi.symm.trans hl))

theorem EnvHolds.of_cleared {i : ℕ} {ins : Instr} {σ : Store V} (hi : code[i]? = some ins)
    (hclear : ∀ {env y env'}, scanInstr symbols env ins = .ok (y, env') → env' = .empty) :
    EnvHolds S symbols code (i + 1) σ := by
  refine .inr fun env' henv' => ?_
  obtain ⟨env, y, -, hins⟩ := envBefore_succ hi henv'
  rw [hclear hins]
  exact ConstEnv.agrees_empty S σ

theorem EnvHolds.step
    (hk : ∀ {i ins env e}, code[i]? = some ins → envBefore symbols code i = .ok env →
      e ∈ instrExprs ins → Keeps S call env e)
    {i j : ℕ} {σ τ : Store V} {t : List (Event V)} (h : EnvHolds S symbols code i σ)
    (hstep : Step (irSem S call cs) code i σ t j τ) : EnvHolds S symbols code j τ := by
  cases hstep with
  | act hp ha =>
    refine .inr fun env' henv' => ?_
    obtain ⟨env, y, henv, hins⟩ := envBefore_succ hp henv'
    obtain ⟨⟨a', env1⟩, hact, hins⟩ := Except.bind_eq_ok.mp hins
    cases hins
    have hσ : env.Agrees S σ := h.agrees hp (fun l => nofun) henv
    have hrel : Beh.Rel _ (act S call cs _ σ) _ :=
      act_scanAction hσ (fun e he => hk hp henv he) hact
    obtain ⟨o, ho, -⟩ := hrel.left.ends t _ ha
    cases ho with
    | normal hτ => exact hτ.2
  | label hp =>
    refine .of_cleared hp fun hins => ?_
    cases hins
    rfl
  | goto hp hl => exact .inl ⟨_, Flat.find_some hl⟩
  | taken hp hc hl => exact .inl ⟨_, Flat.find_some hl⟩
  | passed hp hc =>
    refine .of_cleared hp fun hins => ?_
    obtain ⟨c', -, hins⟩ := Except.bind_eq_ok.mp hins
    cases hins
    rfl

/-- Each time control comes to instruction `i`, every constant with which the scan deals with
`i` is the value of its variable. -/
theorem scanEnv_sound
    (hk : ∀ {i ins env e}, code[i]? = some ins → envBefore symbols code i = .ok env →
      e ∈ instrExprs ins → Keeps S call env e)
    {i : ℕ} {σ τ : Store V} {t : List (Event V)}
    (hrun : Steps (irSem S call cs) code 0 σ t i τ) (henv : scanEnv symbols code i = .ok env)
    {x : String} {v : ℤ} (hx : env x = some v) : τ.vars x = S.lit v := by
  have hstart : EnvHolds S symbols code 0 σ := by
    refine .inr fun env' henv' => ?_
    cases henv'
    exact ConstEnv.agrees_empty S σ
  have hholds : EnvHolds S symbols code i τ :=
    hrun.invariant hstart fun h hstep => h.step hk hstep
  obtain ⟨env0, henv0, henv⟩ := Except.bind_eq_ok.mp henv
  split at henv
  · cases henv
    cases hx
  · rename_i hne
    cases henv
    rcases hholds with ⟨l, hl⟩ | hagrees
    · exact absurd hl (hne l)
    · exact hagrees env henv0 x v hx

/-- `x = 7; print_int(x);`. -/
def printSeven : List Instr :=
  [.act (.assign (.var "x") (.int 7)), .act (.sysWriteExpr (.var "x"))]

theorem keeps_int (n : ℤ) : Keeps S call env (.int n) := by
  intro σ e' _ h
  cases h
  rfl

theorem keeps_var (x : String) : Keeps S call env (.var x) := by
  intro σ e' hσ h
  cases h
  cases hx : env x with
  | none => simp only [simplifyVar, hx]
  | some n => simp only [simplifyVar, hx, eval, hσ x n hx]

theorem printSeven_keeps {i : ℕ} {ins : Instr} {e : Expr} (hi : printSeven[i]? = some ins)
    (he : e ∈ instrExprs ins) : Keeps S call env e := by
  match i, hi with
  | 0, hi =>
    cases hi
    rw [List.mem_singleton.mp he]
    exact fun {_ _} => keeps_int 7
  | 1, hi =>
    cases hi
    rw [List.mem_singleton.mp he]
    exact fun {_ _} => keeps_var "x"
  | i + 2, hi => cases hi

/-- Where `x` is printed, the scan knows that it is 7. -/
theorem scanEnv_sound_printSeven :
    ∃ env t τ, scanEnv [] printSeven 1 = .ok env ∧ env "x" = some 7 ∧
      Steps (irSem sem32 (fun _ _ => ⊥) []) printSeven 0 ⟨fun _ => 0, fun _ => []⟩ t 1 τ ∧
      τ.vars "x" = sem32.lit 7 := by
  have henv : scanEnv [] printSeven 1 =
      .ok (afterAssign [] .empty (.var "x") (.int 7)) := rfl
  have hsteps : Steps (irSem sem32 (fun _ _ => ⊥) []) printSeven 0 ⟨fun _ => 0, fun _ => []⟩ ([] ++ []) 1
      ((Store.mk (fun _ => 0) (fun _ => [])).setVar "x" (sem32.lit 7)) := by
    refine .tail .refl (.act rfl ?_)
    simp only [irSem, act, eval, put, Beh.pure_bind']
    exact Beh.obs_pure_some.mpr ⟨rfl, rfl⟩
  exact ⟨_, _, _, henv, rfl, hsteps,
    scanEnv_sound (fun hi _ he => printSeven_keeps hi he) hsteps henv rfl⟩

end YHsys.Compiler
