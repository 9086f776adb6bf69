import Mathlib.Algebra.BigOperators.Group.List.Basic
import Mathlib.Data.List.Forall2
import YHsys.Compiler.ScanPass
import YHsys.Compiler.FlowPass
import YHsys.Compiler.DeadStores

/-!
# The optimizer comes to an end

Each pass leaves the code as it is or makes it lighter, so that `optimize_ir`, which repeats
its passes until a module stays the same, ends. The number of turns that `optimizeIr` allows
is enough: its result is a fixed point of `_optimize_once`. So is the number of turns that
`cleanupControlFlow` allows.
-/

namespace YHsys.Compiler

open Except (bind_eq_ok)

/-- The code is the same or lighter. -/
def Slims (code code' : List Instr) : Prop := code' = code ∨ codeWeight code' < codeWeight code

theorem Slims.refl (code : List Instr) : Slims code code := .inl rfl

theorem Slims.le {code code' : List Instr} (h : Slims code code') :
    codeWeight code' ≤ codeWeight code := by
  rcases h with rfl | h
  · exact le_rfl
  · exact h.le

theorem Slims.trans {code1 code2 code3 : List Instr} (h : Slims code1 code2)
    (h' : Slims code2 code3) : Slims code1 code3 := by
  rcases h' with rfl | h'
  · exact h
  · exact .inr (h'.trans_le h.le)

theorem instrWeight_pos (ins : Instr) : 0 < instrWeight ins := by
  cases ins <;> simp [instrWeight]

theorem codeWeight_cons (ins : Instr) (code : List Instr) :
    codeWeight (ins :: code) = instrWeight ins + codeWeight code := by
  simp [codeWeight]

theorem slims_of_kept {kept : List (Option Instr)} {code : List Instr}
    (hlen : kept.length = code.length)
    (hk : ∀ {j : ℕ} {ins'}, kept[j]? = some (some ins') →
      ∃ ins, code[j]? = some ins ∧ (ins' = ins ∨ instrWeight ins' < instrWeight ins)) :
    Slims code kept.reduceOption := by
  induction kept generalizing code with
  | nil =>
    rw [List.eq_nil_of_length_eq_zero hlen.symm]
    exact .refl _
  | cons y kept ih =>
    obtain ⟨ins, code, rfl⟩ := List.exists_cons_of_length_eq_add_one hlen.symm
    have hrest : Slims code kept.reduceOption :=
      ih (by simpa using hlen) fun {j ins'} hj => by simpa using hk (j := j + 1) (by simpa using hj)
    have hle := hrest.le
    cases y with
    | none =>
      rw [List.reduceOption_cons_of_none]
      have := instrWeight_pos ins
      exact .inr (by rw [codeWeight_cons]; omega)
    | some ins' =>
      rw [List.reduceOption_cons_of_some]
      obtain ⟨_, hins, hw⟩ := hk (j := 0) rfl
      cases hins
      rcases hw with rfl | hw
      · rcases hrest with heq | hlt
        · exact .inl (by rw [heq])
        · exact .inr (by rw [codeWeight_cons, codeWeight_cons]; omega)
      · exact .inr (by rw [codeWeight_cons, codeWeight_cons]; omega)

theorem slims_of_drop {kept : List (Option Instr)} {code : List Instr}
    (hlen : kept.length = code.length)
    (hk : ∀ {j : ℕ} {ins}, kept[j]? = some (some ins) → code[j]? = some ins) :
    Slims code kept.reduceOption :=
  slims_of_kept hlen fun hj => ⟨_, hk hj, .inl rfl⟩

/-! ## The scan -/

section

variable {symbols : List IrSymbol} {env env' : ConstEnv}

theorem scanTarget_weight {target target' : LValue} (h : scanTarget env target = .ok target') :
    target' = target ∨ ∃ x i i', target = .array x i ∧ target' = .array x i' ∧
      i'.weight < i.weight := by
  cases target with
  | var x =>
    cases h
    exact .inl rfl
  | array x index =>
    obtain ⟨i, hi, h⟩ := bind_eq_ok.mp h
    cases h
    rw [simplifyFixedPoint_eq] at hi
    rcases simplify_weight hi with rfl | hlt
    · exact .inl rfl
    · exact .inr ⟨x, index, i, rfl, rfl, hlt⟩

theorem scanAction_weight {a a' : Action} (h : scanAction symbols env a = .ok (a', env')) :
    a' = a ∨ a'.weight < a.weight := by
  cases a with
  | assign target e =>
    obtain ⟨e', he, h⟩ := bind_eq_ok.mp h
    cases h
    rw [simplifyFixedPoint_eq] at he
    exact (simplify_weight he).imp (fun heq => by rw [heq]) id
  | arrayZero x size =>
    cases h
    exact .inl rfl
  | call f args target =>
    cases target with
    | none =>
      obtain ⟨args', hargs, h⟩ := bind_eq_ok.mp h
      cases h
      rw [mapM_simplifyFixedPoint] at hargs
      exact (simplifyArgs_weight hargs).imp (fun heq => by rw [heq]) id
    | some target =>
      obtain ⟨args', hargs, h⟩ := bind_eq_ok.mp h
      obtain ⟨target', ht, h⟩ := bind_eq_ok.mp h
      cases h
      rw [mapM_simplifyFixedPoint] at hargs
      rcases scanTarget_weight ht with rfl | ⟨x, i, i', rfl, rfl, hi⟩
      · rcases simplifyArgs_weight hargs with rfl | hlt
        · exact .inl rfl
        · cases target' <;> exact .inr (by simp only [Action.weight]; omega)
      · have hle : Expr.argsWeight args' ≤ Expr.argsWeight args := by
          rcases simplifyArgs_weight hargs with rfl | hlt
          · exact le_rfl
          · exact hlt.le
        exact .inr (by simp only [Action.weight]; omega)
  | sysWriteConst fd cid size =>
    cases h
    exact .inl rfl
  | sysWriteExpr e | sysPauseExpr e | sysExitExpr e | returnExpr e =>
    obtain ⟨e', he, h⟩ := bind_eq_ok.mp h
    cases h
    rw [simplifyFixedPoint_eq] at he
    exact (simplify_weight he).imp (fun heq => by rw [heq]) id

theorem pruneBranch_weight {ins ins' : Instr} (h : pruneBranch ins = some ins') :
    ins' = ins ∨ instrWeight ins' < instrWeight ins := by
  cases ins with
  | ifGoto c l =>
    cases ht : truthyConst c with
    | none =>
      rw [pruneBranch_none ht] at h
      cases h
      exact .inl rfl
    | some v =>
      cases v with
      | true =>
        rw [pruneBranch_true ht] at h
        cases h
        exact .inr (by simp [instrWeight])
      | false =>
        rw [pruneBranch_false ht] at h
        cases h
  | _ =>
    cases h
    exact .inl rfl

theorem scanInstr_weight {ins ins' : Instr}
    (h : scanInstr symbols env ins = .ok (some ins', env')) :
    ins' = ins ∨ instrWeight ins' < instrWeight ins := by
  cases ins with
  | label l =>
    cases h
    exact .inl rfl
  | goto l =>
    cases h
    exact .inl rfl
  | ifGoto c l =>
    obtain ⟨c', hc, hb⟩ := bind_eq_ok.mp h
    rw [simplifyFixedPoint_eq] at hc
    simp only [Except.ok.injEq, Prod.mk.injEq] at hb
    rcases simplify_weight hc with rfl | hlt
    · exact pruneBranch_weight hb.1
    · have hw : instrWeight (.ifGoto c' l) < instrWeight (.ifGoto c l) := by
        simp only [instrWeight]
        omega
      rcases pruneBranch_weight hb.1 with rfl | hlt'
      · exact .inr hw
      · exact .inr (hlt'.trans hw)
  | act a =>
    obtain ⟨⟨a', env''⟩, ha, h⟩ := bind_eq_ok.mp h
    cases h
    refine (scanAction_weight ha).imp (fun heq => by rw [heq]) fun hlt => ?_
    simp only [instrWeight]
    omega

theorem scan_slims {code : List Instr} {kept : List (Option Instr)}
    (h : scan symbols .empty code = .ok kept) : Slims code kept.reduceOption := by
  refine slims_of_kept (scan_length h) fun {j ins'} hj => ?_
  have hlt : j < code.length := scan_length h ▸ (List.getElem?_eq_some_iff.mp hj).1
  have hins := List.getElem?_eq_getElem hlt
  exact ⟨_, hins, scanInstr_weight (scan_get h hins hj)⟩

end

/-! ## The other passes -/

section

variable {code : List Instr}

theorem removeDeadBranches_slims : Slims code (removeDeadBranches code) := by
  refine slims_of_kept (by simp) fun {j ins'} hj => ?_
  rw [List.getElem?_map, Option.map_eq_some_iff] at hj
  obtain ⟨ins, hins, h⟩ := hj
  exact ⟨ins, hins, pruneBranch_weight h⟩

theorem removeUnreachableCode_slims : Slims code (removeUnreachableCode code) :=
  slims_of_drop (by simp [keepReachable]) fun hj => (keepReachable_some hj).1

theorem removeDeadStores_slims : Slims code (removeDeadStores code) :=
  slims_of_drop (by simp [keepStores]) keepStores_some

theorem cleanupRound_slims : Slims code (cleanupRound code) :=
  (slims_of_drop (by simp [keepJumps]) keepJumps_some).trans
    (slims_of_drop (by simp [keepLabels]) keepLabels_some)

theorem cleanupLoop_slims (n : ℕ) : Slims code (cleanupLoop n code) := by
  induction n generalizing code with
  | zero => exact .refl _
  | succ n ih =>
    simp only [cleanupLoop]
    split
    · exact cleanupRound_slims
    · exact cleanupRound_slims.trans ih

theorem cleanupRound_length_le : (cleanupRound code).length ≤ code.length := by
  refine (List.reduceOption_length_le _).trans ?_
  rw [keepLabels, List.length_map]
  exact (List.reduceOption_length_le _).trans (by simp [keepJumps])

theorem optimizeCode_slims {symbols : List IrSymbol} {code' : List Instr}
    (h : optimizeCode symbols code = .ok code') : Slims code code' := by
  obtain ⟨kept, hkept, h⟩ := bind_eq_ok.mp h
  cases h
  exact (scan_slims hkept).trans (removeDeadBranches_slims.trans
    (removeUnreachableCode_slims.trans (removeDeadStores_slims.trans (cleanupLoop_slims _))))

end

/-! ## Modules -/

theorem functions_trans {R : IrFunction → IrFunction → Prop}
    (hR : ∀ {f1 f2 f3}, R f1 f2 → R f2 f3 → R f1 f3) {l1 l2 l3 : List IrFunction}
    (h : List.Forall₂ R l1 l2) (h' : List.Forall₂ R l2 l3) : List.Forall₂ R l1 l3 := by
  induction h generalizing l3 with
  | nil => exact h'
  | cons hf _ ih =>
    obtain _ | ⟨hf', hrest⟩ := h'
    exact .cons (hR hf hf') (ih hrest)

theorem functions_mem_right {R : IrFunction → IrFunction → Prop} {l l' : List IrFunction}
    (h : List.Forall₂ R l l') {f' : IrFunction} (hf' : f' ∈ l') : ∃ f ∈ l, R f f' := by
  induction h with
  | nil => cases hf'
  | cons hr _ ih =>
    rcases List.mem_cons.mp hf' with rfl | hf'
    · exact ⟨_, by simp, hr⟩
    · obtain ⟨f, hf, hfr⟩ := ih hf'
      exact ⟨f, by simp [hf], hfr⟩

theorem optimizeFunction_ok {f f' : IrFunction} (h : optimizeFunction f = .ok f') :
    ∃ code, optimizeCode f.symbols f.instructions = .ok code ∧
      f' = { f with instructions := code } := by
  obtain ⟨code, hcode, h⟩ := bind_eq_ok.mp h
  exact ⟨code, hcode, (Except.ok.inj h).symm⟩

def functionsWeight (funcs : List IrFunction) : ℕ :=
  (funcs.map fun f => codeWeight f.instructions).sum

theorem functions_slim {funcs funcs' : List IrFunction}
    (h : List.Forall₂ (fun f f' => optimizeFunction f = .ok f') funcs funcs') :
    funcs' = funcs ∨ functionsWeight funcs' < functionsWeight funcs := by
  induction h with
  | nil => exact .inl rfl
  | @cons f f' funcs funcs' hf _ ih =>
    obtain ⟨code, hcode, rfl⟩ := optimizeFunction_ok hf
    have hle : functionsWeight funcs' ≤ functionsWeight funcs := by
      rcases ih with rfl | ih
      · exact le_rfl
      · exact ih.le
    rcases optimizeCode_slims hcode with rfl | hlt
    · rcases ih with rfl | ih
      · exact .inl rfl
      · exact .inr (by simpa [functionsWeight] using ih)
    · refine .inr ?_
      simp only [functionsWeight, List.map_cons, List.sum_cons] at hle ⊢
      omega

namespace IrModule

/-- The module's own symbols and code are those of its first `main`. -/
def Synced (m : IrModule) : Prop :=
  ∀ main, m.functions.find? (·.name = "main") = some main →
    m.symbols = main.symbols ∧ m.instructions = main.instructions

open scoped Classical in
/-- What each change to a module makes smaller. A first pass may only copy `main`. -/
noncomputable def measure (m : IrModule) : ℕ := 2 * m.weight + if m.Synced then 0 else 1

theorem measure_le (m : IrModule) : m.measure ≤ 2 * m.weight + 1 := by
  unfold measure
  split <;> omega

theorem weight_of_functions {m : IrModule} (h : m.functions ≠ []) :
    m.weight = functionsWeight m.functions := by
  rw [weight, if_neg h, functionsWeight]

end IrModule

theorem optimizeOnce_shrinks : FixedPoint.Shrinks optimizeOnce IrModule.measure := by
  intro m m' h
  unfold optimizeOnce at h
  split_ifs at h with hempty
  · -- the code of a single function
    obtain ⟨code, hcode, h⟩ := bind_eq_ok.mp h
    cases h
    rcases optimizeCode_slims hcode with heq | hlt
    · exact .inl (by rw [heq])
    · have hsynced : ∀ m1 : IrModule, m1.functions = [] → m1.Synced := fun m1 h1 main hmain => by
        simp [h1] at hmain
      refine .inr ?_
      simp only [IrModule.measure, if_pos (hsynced m hempty),
        if_pos (hsynced { m with instructions := code } hempty), IrModule.weight, if_pos hempty]
      omega
  · obtain ⟨funcs, hfuncs, h⟩ := bind_eq_ok.mp h
    have hall := Except.mapM_eq_ok.mp hfuncs
    have hne : funcs ≠ [] := by
      rintro rfl
      exact hempty (by simpa using hall.length_eq)
    -- the functions and the copy of `main` are all that changes
    obtain ⟨hm', hsynced, hsame⟩ : m'.functions = funcs ∧ m'.Synced ∧
        (funcs = m.functions → m.Synced → m' = m) := by
      split at h
      · rename_i main hmain
        cases h
        refine ⟨rfl, fun main' hmain' => ?_, fun heq hs => ?_⟩
        · cases hmain.symm.trans hmain'
          exact ⟨rfl, rfl⟩
        · subst heq
          obtain ⟨hsym, hins⟩ := hs main hmain
          rw [← hsym, ← hins]
      · rename_i hnone
        cases h
        refine ⟨rfl, fun main' hmain' => ?_, fun heq _ => by rw [heq]⟩
        exact absurd (hnone.symm.trans hmain') (by simp)
    have hw := IrModule.weight_of_functions hempty
    have hw' : m'.weight = functionsWeight funcs := by
      rw [IrModule.weight_of_functions (by rw [hm']; exact hne), hm']
    rcases functions_slim hall with heq | hlt
    · by_cases hs : m.Synced
      · exact .inl (hsame heq hs)
      · refine .inr ?_
        simp only [IrModule.measure, if_pos hsynced, if_neg hs, hw, hw', heq]
        omega
    · refine .inr ?_
      have := m'.measure_le
      simp only [IrModule.measure, if_pos hsynced, hw, hw']
      omega

theorem optimizeIr_fixed {m m' : IrModule} (h : optimizeIr m = .ok m') :
    optimizeOnce m' = .ok m' :=
  FixedPoint.settle_fixed optimizeOnce_shrinks (by have := m.measure_le; omega) h

end YHsys.Compiler
