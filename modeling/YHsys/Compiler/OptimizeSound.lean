import YHsys.Compiler.OptimizerEnds
import YHsys.Compiler.FallThrough
import YHsys.Compiler.Execution

/-!
# The optimizer keeps the behaviour of a module

`sem32` is the arithmetic of the target: 32 bits, quotients rounded toward zero, shifts by
the low five bits. The optimizer computes with Python's integers instead, which agree with
it on constants that no fold makes too large, on quotients of nonnegative numbers, and so
on: `CodeOk (exactSpec sem32 _)` asks just that of every fold the optimizer could come to
make in a function, and that it drop no call. Under it `optimize_ir` returns, at a fixed
point, a module with the behaviour of the old one.
-/

namespace YHsys.Compiler

/-! ## 32-bit arithmetic -/

def boolWord (b : Bool) : BitVec 32 := if b then 1 else 0

def unary32 (op : UnaryOp) (v : BitVec 32) : BitVec 32 :=
  match op with
  | .plus => v
  | .minus => -v
  | .not => boolWord (v == 0)
  | .bitNot => ~~~v

/-- The operators. A quotient by zero is as the `M` extension has it. -/
def binary32 (op : BinaryOp) (v w : BitVec 32) : BitVec 32 :=
  match op with
  | .add => v + w
  | .sub => v - w
  | .mul => v * w
  | .div => if w = 0 then -1 else v.sdiv w
  | .mod => if w = 0 then v else v.srem w
  | .shl => v <<< (w.toNat % 32)
  | .shr => v.sshiftRight (w.toNat % 32)
  | .band => v &&& w
  | .bor => v ||| w
  | .bxor => v ^^^ w
  | .eq => boolWord (v == w)
  | .ne => boolWord (v != w)
  | .lt => boolWord (v.slt w)
  | .le => boolWord (!w.slt v)
  | .gt => boolWord (w.slt v)
  | .ge => boolWord (!v.slt w)
  | .land => boolWord (v != 0 && w != 0)
  | .lor => boolWord (v != 0 || w != 0)

/-- The 32-bit semantics. What an array access out of bounds reads does not matter to
programs that make none; it writes nothing and stops. -/
def sem32 : OpSem (BitVec 32) where
  lit n := BitVec.ofInt 32 n
  unary op v := some (unary32 op v)
  binary op v w := some (binary32 op v w)
  truthy v := v != 0
  read l i := some (l.getD i.toNat 0)
  write l i v := if i.toNat < l.length then some (l.set i.toNat v) else none
  truthy_bool b := by cases b <;> decide

theorem sem32_bool (b : Bool) : sem32.bool b = boolWord b := by cases b <;> decide

theorem sem32_laws : sem32.Laws where
  zero_add v := by simp [sem32, binary32]
  add_zero v := by simp [sem32, binary32]
  sub_zero v := by simp [sem32, binary32]
  zero_mul v := by simp [sem32, binary32]
  mul_zero v := by simp [sem32, binary32]
  one_mul v := by simp [sem32, binary32]
  mul_one v := by simp [sem32, binary32]
  div_one v := by simp [sem32, binary32, BitVec.sdiv_one]
  not v := by
    rw [sem32_bool]
    simp [sem32, unary32, bne]

theorem sem32_total : sem32.Total where
  unary _ _ := ⟨_, rfl⟩
  binary _ _ _ := ⟨_, rfl⟩
  read _ _ := ⟨_, rfl⟩

/-! ## One function -/

section

variable {V : Type} {S : OpSem V} {hL : S.Laws} {symbols : List IrSymbol} {code : List Instr}

theorem pruneBranch_idem {ins ins' : Instr} (h : pruneBranch ins = some ins') :
    pruneBranch ins' = some ins' := by
  cases ins with
  | ifGoto c l =>
    cases ht : truthyConst c with
    | none =>
      rw [pruneBranch_none ht] at h
      cases h
      exact pruneBranch_none ht
    | some v =>
      cases v with
      | true =>
        rw [pruneBranch_true ht] at h
        cases h
        rfl
      | false =>
        rw [pruneBranch_false ht] at h
        cases h
  | _ =>
    cases h
    rfl

theorem scanInstr_pruned {env env' : ConstEnv} {ins ins' : Instr}
    (h : scanInstr symbols env ins = .ok (some ins', env')) : pruneBranch ins' = some ins' := by
  cases ins with
  | label l =>
    cases h
    rfl
  | goto l =>
    cases h
    rfl
  | ifGoto c l =>
    obtain ⟨c', -, h⟩ := Except.bind_eq_ok.mp h
    simp only [Except.ok.injEq, Prod.mk.injEq] at h
    exact pruneBranch_idem h.1
  | act a =>
    obtain ⟨⟨a', env''⟩, -, h⟩ := Except.bind_eq_ok.mp h
    cases h
    rfl

theorem removeDeadBranches_scan {kept : List (Option Instr)}
    (h : scan symbols .empty code = .ok kept) :
    removeDeadBranches kept.reduceOption = kept.reduceOption := by
  have hsame : ∀ ins ∈ kept.reduceOption, pruneBranch ins = some ins := by
    intro ins hins
    obtain ⟨j, hj⟩ := List.mem_iff_getElem?.mp (List.reduceOption_mem_iff.mp hins)
    have hlt : j < code.length := scan_length h ▸ (List.getElem?_eq_some_iff.mp hj).1
    exact scanInstr_pruned (scan_get h (List.getElem?_eq_getElem hlt) hj)
  rw [removeDeadBranches, List.map_congr_left hsame]
  simp [List.reduceOption]

theorem scan_refines (hT : S.Total) (hu : Flat.UniqueLabels code)
    (hcode : CodeOk (exactSpec S hL) code) {kept : List (Option Instr)}
    (h : scan symbols .empty code = .ok kept) : Refines S code kept.reduceOption where
  run call cs σ := runCode_eq ((scan_pass hu h (hcode.scanKeeps hT h call)).run_rel
    ⟨rfl, .inr (by cases code <;> exact ConstEnv.agrees_empty S σ)⟩)
  unique := (scan_labels hu h).unique_new
  folds hF := hF.scan_kept h

theorem optimizeCode_refines (hT : S.Total) (hu : Flat.UniqueLabels code)
    (hcode : CodeOk (exactSpec S hL) code) (symbols : List IrSymbol) :
    ∃ code', optimizeCode symbols code = .ok code' ∧ Refines S code code' := by
  obtain ⟨kept, hkept⟩ : ∃ kept, scan symbols .empty code = .ok kept := hcode.scan_ok
  have hscan : Refines S code kept.reduceOption := scan_refines hT hu hcode hkept
  have hreach := removeUnreachableCode_refines (S := S) hscan.unique
  have hstores := removeDeadStores_refines hT.safe hreach.unique
  have hclean := cleanupControlFlow_refines (S := S) hstores.unique
  refine ⟨cleanupControlFlow (removeDeadStores (removeUnreachableCode kept.reduceOption)), ?_,
    hscan.trans (hreach.trans (hstores.trans hclean))⟩
  rw [optimizeCode, hkept, Except.ok_bind, removeDeadBranches_scan hkept]

end

/-! ## Modules -/

section

variable {V : Type} {S : OpSem V}

/-- The function has the same name, parameters and symbols, and code of the same behaviour. -/
structure FunctionRefines (S : OpSem V) (f f' : IrFunction) : Prop where
  name : f'.name = f.name
  params : f'.params = f.params
  symbols : f'.symbols = f.symbols
  code : Refines S f.instructions f'.instructions

/-- The module has the same constants, and its functions are refined one by one. -/
structure ModuleRefines (S : OpSem V) (m m' : IrModule) : Prop where
  constants : m'.constants = m.constants
  functions : List.Forall₂ (FunctionRefines S) m.allFunctions m'.allFunctions

theorem FunctionRefines.trans {f1 f2 f3 : IrFunction} (h : FunctionRefines S f1 f2)
    (h' : FunctionRefines S f2 f3) : FunctionRefines S f1 f3 :=
  ⟨h'.name.trans h.name, h'.params.trans h.params, h'.symbols.trans h.symbols,
    h.code.trans h'.code⟩

theorem ModuleRefines.refl {m : IrModule}
    (h : ∀ f ∈ m.allFunctions, Flat.UniqueLabels f.instructions) : ModuleRefines S m m where
  constants := rfl
  functions := List.forall₂_same.mpr fun f hf => ⟨rfl, rfl, rfl, .refl (h f hf)⟩

theorem ModuleRefines.trans {m1 m2 m3 : IrModule} (h : ModuleRefines S m1 m2)
    (h' : ModuleRefines S m2 m3) : ModuleRefines S m1 m3 :=
  ⟨h'.constants.trans h.constants, functions_trans .trans h.functions h'.functions⟩

/-- Every fold in every function is exact, and its labels are unique. -/
def ModuleOk (hL : S.Laws) (m : IrModule) : Prop :=
  ∀ f ∈ m.allFunctions, Flat.UniqueLabels f.instructions ∧
    CodeOk (exactSpec S hL) f.instructions

theorem ModuleRefines.ok {hL : S.Laws} {m m' : IrModule} (h : ModuleRefines S m m')
    (hm : ModuleOk hL m) : ModuleOk hL m' := by
  intro f' hf'
  obtain ⟨f, hf, href⟩ := functions_mem_right h.functions hf'
  exact ⟨href.code.unique, href.code.folds (hm f hf).2⟩

theorem optimizeFunction_refines {hL : S.Laws} (hT : S.Total) {f : IrFunction}
    (hu : Flat.UniqueLabels f.instructions) (hcode : CodeOk (exactSpec S hL) f.instructions) :
    ∃ f', optimizeFunction f = .ok f' ∧ FunctionRefines S f f' := by
  obtain ⟨code, hopt, href⟩ := optimizeCode_refines hT hu hcode f.symbols
  exact ⟨{ f with instructions := code }, by rw [optimizeFunction, hopt, Except.ok_bind],
    rfl, rfl, rfl, href⟩

theorem optimizeFunctions_refine {hL : S.Laws} (hT : S.Total) {funcs : List IrFunction}
    (h : ∀ f ∈ funcs, Flat.UniqueLabels f.instructions ∧
      CodeOk (exactSpec S hL) f.instructions) :
    ∃ funcs', funcs.mapM optimizeFunction = .ok funcs' ∧
      List.Forall₂ (FunctionRefines S) funcs funcs' := by
  simp only [Except.mapM_eq_ok]
  induction funcs with
  | nil => exact ⟨[], .nil, .nil⟩
  | cons f funcs ih =>
    obtain ⟨hu, hcode⟩ := h f (by simp)
    obtain ⟨f', hf, href⟩ := optimizeFunction_refines hT hu hcode
    obtain ⟨funcs', hfuncs, hrefs⟩ := ih fun g hg => h g (by simp [hg])
    exact ⟨f' :: funcs', .cons hf hfuncs, .cons href hrefs⟩

theorem IrModule.allFunctions_of_ne {m : IrModule} (h : m.functions ≠ []) :
    m.allFunctions = m.functions := if_neg h

theorem optimizeOnce_refines {hL : S.Laws} (hT : S.Total) {m : IrModule} (hm : ModuleOk hL m) :
    ∃ m', optimizeOnce m = .ok m' ∧ ModuleRefines S m m' := by
  by_cases hempty : m.functions = []
  · have hall : m.allFunctions = [⟨"main", [], m.symbols, m.instructions⟩] := if_pos hempty
    obtain ⟨hu, hcode⟩ := hm ⟨"main", [], m.symbols, m.instructions⟩ (by simp [hall])
    obtain ⟨code, hopt, href⟩ := optimizeCode_refines hT hu hcode m.symbols
    refine ⟨{ m with instructions := code }, ?_, rfl, ?_⟩
    · rw [optimizeOnce, if_pos hempty, hopt, Except.ok_bind]
    · rw [hall, show IrModule.allFunctions { m with instructions := code } =
        [⟨"main", [], m.symbols, code⟩] from if_pos hempty]
      exact .cons ⟨rfl, rfl, rfl, href⟩ .nil
  · have hall := IrModule.allFunctions_of_ne hempty
    obtain ⟨funcs, hmap, hrefs⟩ : ∃ funcs, m.functions.mapM optimizeFunction = .ok funcs ∧
        List.Forall₂ (FunctionRefines S) m.functions funcs :=
      optimizeFunctions_refine hT fun f hf => hm f (by rwa [hall])
    have hne : funcs ≠ [] := by
      rintro rfl
      exact hempty (by simpa using hrefs.length_eq)
    -- only the functions and the copy of `main` change
    have hm' : ∀ m' : IrModule, m'.constants = m.constants → m'.functions = funcs →
        ModuleRefines S m m' := by
      intro m' hconst hfuncs
      refine ⟨hconst, ?_⟩
      rw [hall, IrModule.allFunctions_of_ne (by rw [hfuncs]; exact hne), hfuncs]
      exact hrefs
    rw [optimizeOnce, if_neg hempty, hmap, Except.ok_bind]
    cases funcs.find? (·.name = "main") with
    | some main => exact ⟨_, rfl, hm' _ rfl rfl⟩
    | none => exact ⟨_, rfl, hm' _ rfl rfl⟩

theorem optimizeIr_refines {hL : S.Laws} (hT : S.Total) {m : IrModule} (hm : ModuleOk hL m) :
    ∃ m', optimizeIr m = .ok m' ∧ ModuleRefines S m m' := by
  refine FixedPoint.settle_ok (fun {m1} h1 => ?_) _ (.refl fun f hf => (hm f hf).1)
  obtain ⟨m2, hopt, h2⟩ := optimizeOnce_refines hT (h1.ok hm)
  exact ⟨m2, hopt, h1.trans h2⟩

/-! ## Runs -/

theorem ModuleRefines.function {m m' : IrModule} (h : ModuleRefines S m m') (name : String) :
    Option.Rel (FunctionRefines S) (m.function name) (m'.function name) := by
  unfold IrModule.function
  have hall := h.functions
  generalize m.allFunctions = l at hall
  generalize m'.allFunctions = l' at hall
  induction hall with
  | nil => exact .none
  | @cons f f' l l' hf _ ih =>
    by_cases hname : f.name = name
    · simpa [List.find?_cons, hf.name, hname] using Option.Rel.some hf
    · simpa [List.find?_cons, hf.name, hname] using ih

theorem found_congr {α : Type} {o o' : Option IrFunction}
    {k k' : IrFunction → Beh (Event V) α} (h : Option.Rel (FunctionRefines S) o o')
    (hk : ∀ {f f'}, FunctionRefines S f f' → k' f' = k f) :
    (Beh.ofOption o' >>= k') = (Beh.ofOption o >>= k) := by
  cases h with
  | none => simp only [Beh.ofOption_none, Beh.bot_bind]
  | some href => simp only [Beh.ofOption_some, Beh.pure_bind', hk href]

theorem callN_refines {m m' : IrModule} (h : ModuleRefines S m m') (init : Store V) (n : ℕ) :
    callN S m' init n = callN S m init n := by
  induction n with
  | zero => rfl
  | succ n ih =>
    funext f vs
    simp only [callN, ih, h.constants]
    congr 1
    funext _
    refine found_congr (h.function f) fun {func func'} href => ?_
    rw [href.params, href.code.run]

theorem behaviour_refines {m m' : IrModule} (h : ModuleRefines S m m') (init : Store V) :
    behaviour S m' init = behaviour S m init := by
  unfold behaviour
  simp only [callN_refines h, h.constants]
  congr 1
  funext n
  refine found_congr (h.function "main") fun {func func'} href => ?_
  rw [href.code.run]

end

/-! ## `O1` and no optimization -/

/-- `int main() { int x = n; print_int(x % 3); return 0; }`. -/
def printMod (n : Expr) : Program where
  functions := [{
    name := "main"
    params := []
    body :=
      [.varDecl "x" none (some n),
        .builtin .printInt (some (.binary .mod (.var "x") (.int 3))) none,
        .ret (.int 0)] }]

/-- The module with a value of `x` and the expression that is printed. -/
def printModIr (n : ℤ) : IrModule where
  symbols := [⟨"x", none⟩]
  constants := []
  instructions :=
    [.act (.assign (.var "x") (.int n)),
      .act (.sysWriteExpr (.binary .mod (.var "x") (.int 3))),
      .act (.sysExitExpr (.int 0))]
  functions := []

theorem printMod_lowered (n : ℤ) : ∃ info, analyze (printMod (.int n)) = .ok info ∧
    lowerProgram (printMod (.int n)) info = .ok (printModIr n) := by
  refine ⟨_, rfl, rfl⟩

theorem printMod_mayKnow {n : ℤ} {i : ℕ} {x : String} {k : ℤ}
    (h : MayKnow (printModIr n).instructions i x k) : k = n := by
  induction h with
  | keep _ ih => exact ih
  | @assign i x e k env hi _ he =>
    match i, hi with
    | 0, hi =>
      cases hi
      exact (Expr.int.inj (Except.ok.inj he)).symm
    | 1, hi => cases hi
    | 2, hi => cases hi
    | i + 3, hi => simp [printModIr] at hi

theorem printMod_folds {n k : ℤ} (hfold : FoldExact sem32 .mod n 3 k) :
    ∀ f ∈ (printModIr n).allFunctions, CodeOk (exactSpec sem32 sem32_laws) f.instructions := by
  intro f hf
  have hf : f = ⟨"main", [], (printModIr n).symbols, (printModIr n).instructions⟩ := by
    simpa [IrModule.allFunctions, printModIr] using hf
  subst hf
  intro i ins env hi henv
  match i, hi with
  | 0, hi =>
    cases hi
    exact ⟨by simp [instrExprs, Action.exprs, FoldsOk], by simp⟩
  | 1, hi =>
    cases hi
    refine ⟨?_, by simp⟩
    simp only [instrExprs, Action.exprs, List.mem_singleton, forall_eq, FoldsOk, true_and]
    intro a' b' ha hb
    cases ha
    cases hb
    unfold simplifyVar
    cases hx : env "x" with
    | none => rintro ⟨⟩
    | some v =>
      cases printMod_mayKnow (henv "x" v hx)
      exact .inr ⟨k, hfold⟩
  | 2, hi =>
    cases hi
    exact ⟨by simp [instrExprs, Action.exprs, FoldsOk], by simp⟩
  | i + 3, hi => simp [printModIr] at hi

/-- What `optimize_ir` leaves when the remainder is folded to `k`. -/
def printedConst (k : ℤ) : IrModule where
  symbols := [⟨"x", none⟩]
  constants := []
  instructions := [.act (.sysWriteExpr (.int k)), .act (.sysExitExpr (.int 0))]
  functions := []

theorem behaviour_printModIr (n : ℤ) (init : Store (BitVec 32)) :
    behaviour sem32 (printModIr n) init =
      Beh.emit (.printInt (binary32 .mod (.ofInt 32 n) 3)) >>= fun _ => pure (some 0) := by
  have hfun : (printModIr n).function "main" =
      some ⟨"main", [], (printModIr n).symbols, (printModIr n).instructions⟩ := rfl
  simp only [behaviour, hfun, Beh.ofOption_some, Beh.pure_bind', runCode]
  rw [← Beh.sup_const (Beh.emit _ >>= _)]
  congr 1
  funext n
  rw [Flat.run_eq, Flat.step_act rfl]
  simp only [irSem, act, eval, put, Beh.pure_bind', Flat.andThen]
  rw [Flat.run_eq, Flat.step_act rfl]
  simp only [act, eval, Beh.pure_bind', Beh.bind_assoc', Flat.andThen]
  rw [Flat.run_eq, Flat.step_act rfl]
  simp [act, eval, exitValue, sem32, Flat.andThen, Store.setVar]

theorem behaviour_printedConst (k : ℤ) (init : Store (BitVec 32)) :
    behaviour sem32 (printedConst k) init =
      Beh.emit (.printInt (.ofInt 32 k)) >>= fun _ => pure (some 0) := by
  have hfun : (printedConst k).function "main" =
      some ⟨"main", [], (printedConst k).symbols, (printedConst k).instructions⟩ := rfl
  simp only [behaviour, hfun, Beh.ofOption_some, Beh.pure_bind', runCode]
  rw [← Beh.sup_const (Beh.emit _ >>= _)]
  congr 1
  funext n
  rw [Flat.run_eq, Flat.step_act rfl]
  simp only [irSem, act, eval, Beh.pure_bind', Beh.bind_assoc', Flat.andThen]
  rw [Flat.run_eq, Flat.step_act rfl]
  simp [act, eval, exitValue, sem32, Flat.andThen]

theorem printed_inj {v w : BitVec 32} {r : Option (BitVec 32)}
    (h : (Beh.emit (.printInt v) >>= fun _ => pure r : Beh (Event (BitVec 32)) _) =
      Beh.emit (.printInt w) >>= fun _ => pure r) : v = w := by
  have hobs : (Beh.emit (.printInt v) >>= fun _ => pure r : Beh (Event (BitVec 32)) _).Obs
      [.printInt v] (some r) :=
    Beh.obs_bind_some.mpr ⟨_, [], ⟨⟩, rfl, Beh.obs_emit_some.mpr rfl, Beh.obs_pure_some.mpr ⟨rfl, rfl⟩⟩
  rw [h] at hobs
  obtain ⟨t1, t2, _, ht, h1, h2⟩ := Beh.obs_bind_some.mp hobs
  cases Beh.obs_emit_some.mp h1
  cases (Beh.obs_pure_some.mp h2).1
  simpa using ht

end YHsys.Compiler
