import YHsys.Compiler.OptimizerEnds
import YHsys.Compiler.Execution
import YHsys.Lib.Loops

/-!
# The loops of the optimizer end

The model gives each `while` of `optimizer.py` a number of turns. Here the loops are written
as the source has them, by one round each, and shown to end by their own conditions, in what
the model computes: `_simplify_fixed_point`, the liveness iteration, the worklist of
reachable instructions, `_cleanup_control_flow` and the loop over whole modules. The only
exceptions that come out of `optimize_ir` are those of `_fold_binary`, and no function gets
longer.
-/

namespace YHsys.Compiler

open Loop (Ends)

variable {env : ConstEnv} {code : List Instr}

/-! ## `_simplify_fixed_point` -/

/-- `_simplify_expr` (`optimizer.py:96`), where `fix` stands for the `_simplify_fixed_point`
of the arguments of calls. -/
def simplifyExprWith (fix : Expr → Except PyError Expr) (env : ConstEnv) :
    Expr → Except PyError Expr
  | .int value => .ok (.int value)
  | .var x => .ok (simplifyVar env x)
  | .array x index => do
      let index ← simplifyExprWith fix env index
      .ok (.array x index)
  | .call f args => do
      let args ← args.mapM fix
      .ok (.call f args)
  | .unary op operand => do
      let operand ← simplifyExprWith fix env operand
      .ok (simplifyUnary op operand)
  | .binary op lhs rhs => do
      let lhs ← simplifyExprWith fix env lhs
      let rhs ← simplifyExprWith fix env rhs
      simplifyBinary op lhs rhs

theorem simplifyExprWith_eq (env : ConstEnv) : ∀ e : Expr,
    simplifyExprWith (simplifyFixedPoint env) env e = simplify env e
  | .int value => rfl
  | .var x => rfl
  | .array x index => by rw [simplifyExprWith, simplifyExprWith_eq env index, simplify]
  | .call f args => by rw [simplifyExprWith, mapM_simplifyFixedPoint, simplify]
  | .unary op a => by rw [simplifyExprWith, simplifyExprWith_eq env a, simplify]
  | .binary op a b => by
    rw [simplifyExprWith, simplifyExprWith_eq env a, simplifyExprWith_eq env b, simplify]

/-- One round of `_simplify_fixed_point` (`optimizer.py:178`). -/
def simplifyRound (env : ConstEnv) : Expr → Except PyError (Expr ⊕ Expr) :=
  FixedPoint.settleRound (simplifyExprWith (simplifyFixedPoint env) env)

theorem simplifyFixedPoint_ends (env : ConstEnv) (e : Expr) :
    Ends (simplifyRound env) e (simplifyFixedPoint env e) := by
  have hround : ∀ e, simplifyRound env e =
      (simplify env e >>= fun y => .ok (if y = e then .inl y else .inr y)) := by
    intro e
    rw [simplifyRound, FixedPoint.settleRound, simplifyExprWith_eq]
  rw [simplifyFixedPoint_eq]
  cases h : simplify env e with
  | error err => exact .fail (by rw [hround, h, Except.error_bind])
  | ok e' =>
    by_cases heq : e' = e
    · exact .leave (by rw [hround, h, Except.ok_bind, if_pos heq])
    · have hnext : simplifyRound env e = .ok (.inr e') := by
        rw [hround, h, Except.ok_bind, if_neg heq]
      refine .next hnext (.leave ?_)
      rw [hround, simplify_idem h, Except.ok_bind, if_pos rfl]

/-! ## Liveness -/

/-- One round of the `while changed` of `_remove_dead_stores` (`optimizer.py:477`). -/
def livenessRound (code : List Instr) (live : Live) : Except PyError (Live ⊕ Live) :=
  let (live, changed) := liveRound code live
  .ok (if changed then .inr live else .inl live)

theorem liveLoop_ends (n : ℕ) : ∀ {live : Live}, Growing code live →
    2 * code.length * (usedNames code).card - liveSize code live < n →
    Ends (livenessRound code) live (.ok (liveLoop code n live)) := by
  induction n with
  | zero => exact fun _ hn => absurd hn (Nat.not_lt_zero _)
  | succ n ih =>
    intro live h hn
    obtain ⟨hgrow, ⟨heq, -⟩ | ⟨hchanged, hlt⟩⟩ := liveRound_spec h
    · simp only [liveLoop, heq, Bool.false_eq_true, if_false]
      exact .leave (by simp [livenessRound, heq])
    · simp only [liveLoop, hchanged, if_true]
      have hle := hgrow.size_le
      exact .next (by simp [livenessRound, hchanged]) (ih hgrow (by omega))

/-! ## The worklist -/

/-- One round of the `while worklist` of `_remove_unreachable_code` (`optimizer.py:352`), on
`worklist` and `visited`. -/
def worklistRound (code : List Instr) :
    List ℕ × List ℕ → Except PyError (List ℕ ⊕ List ℕ × List ℕ)
  | ([], visited) => .ok (.inl visited)
  | (idx :: worklist, visited) =>
    match code[idx]? with
    | none => .ok (.inr (worklist, visited))
    | some ins =>
      if idx ∈ visited then .ok (.inr (worklist, visited))
      else .ok (.inr (successors code idx ins ++ worklist, idx :: visited))

theorem visit_ends (n : ℕ) : ∀ {worklist visited : List ℕ}, Exploring code worklist visited →
    worklist.length + 2 * (code.length - visited.length) ≤ n →
    Ends (worklistRound code) (worklist, visited) (.ok (visit code n worklist visited)) := by
  induction n with
  | zero =>
    intro worklist visited _ hn
    obtain rfl : worklist = [] := List.length_eq_zero_iff.mp (by omega)
    exact .leave rfl
  | succ n ih =>
    intro worklist visited h hn
    cases worklist with
    | nil => exact .leave rfl
    | cons idx worklist =>
      rw [List.length_cons] at hn
      cases hins : code[idx]? with
      | none =>
        simp only [visit, hins]
        refine .next (by simp only [worklistRound, hins]) (ih (h.skip (.inr ?_)) (by omega))
        exact List.getElem?_eq_none_iff.mp hins
      | some ins =>
        by_cases hold : idx ∈ visited
        · simp only [visit, hins, if_pos hold]
          exact .next (by simp only [worklistRound, hins, if_pos hold])
            (ih (h.skip (.inl hold)) (by omega))
        · simp only [visit, hins, if_neg hold]
          have hadd := h.add hins hold
          have hlen := hadd.length_le
          have hsucc : (successors code idx ins).length ≤ 2 := successors_length_le idx ins
          rw [List.length_cons] at hlen
          refine .next (by simp only [worklistRound, hins, if_neg hold]) (ih hadd ?_)
          rw [List.length_append, List.length_cons]
          omega

/-! ## `_cleanup_control_flow` -/

/-- One round of `_cleanup_control_flow` (`optimizer.py:508`). -/
def cleanupLoopRound (code : List Instr) : Except PyError (List Instr ⊕ List Instr) :=
  let pruned := cleanupRound code
  .ok (if pruned.length = code.length then .inl pruned else .inr pruned)

theorem cleanupLoop_ends (n : ℕ) : ∀ {code : List Instr}, code.length < n →
    Ends cleanupLoopRound code (.ok (cleanupLoop n code)) := by
  induction n with
  | zero => exact fun hn => absurd hn (Nat.not_lt_zero _)
  | succ n ih =>
    intro code hn
    simp only [cleanupLoop]
    by_cases hlen : (cleanupRound code).length = code.length
    · rw [if_pos hlen]
      exact .leave (by simp only [cleanupLoopRound, if_pos hlen])
    · rw [if_neg hlen]
      have hlt := lt_of_le_of_ne cleanupRound_length_le hlen
      exact .next (by simp only [cleanupLoopRound, if_neg hlen]) (ih (by omega))

theorem reduceOption_length_le_of_eq {kept : List (Option Instr)}
    (h : kept.length = code.length) : kept.reduceOption.length ≤ code.length :=
  h ▸ List.reduceOption_length_le kept

theorem cleanupLoop_length_le (n : ℕ) : (cleanupLoop n code).length ≤ code.length := by
  induction n generalizing code with
  | zero => exact le_rfl
  | succ n ih =>
    simp only [cleanupLoop]
    split_ifs
    · exact cleanupRound_length_le
    · exact ih.trans cleanupRound_length_le

/-! ## Exceptions -/

/-- An exception of `_fold_binary`, on operands it is called with. -/
def FoldRaises (e : PyError) : Prop :=
  ∃ op m n, (op.isDivision = true → n ≠ 0) ∧ foldBinary op m n = .error e

theorem simplifyBinary_sat (op : BinaryOp) (a b : Expr) :
    (simplifyBinary op a b).Sat FoldRaises fun _ => True := by
  unfold simplifyBinary
  split
  · split_ifs with hzero
    · exact .ok trivial
    · rename_i m n
      cases hfold : foldBinary op m n with
      | ok k => exact .ok trivial
      | error e => exact .error ⟨op, m, n, fun hop hn => hzero ⟨hop, hn⟩, hfold⟩
  · exact .ok trivial

mutual
theorem simplify_sat (env : ConstEnv) : ∀ e : Expr, (simplify env e).Sat FoldRaises fun _ => True
  | .int _ => .ok trivial
  | .var _ => .ok trivial
  | .array _ index => (simplify_sat env index).bind fun _ _ => .ok trivial
  | .call _ args => (simplifyArgs_sat env args).bind fun _ _ => .ok trivial
  | .unary _ a => (simplify_sat env a).bind fun _ _ => .ok trivial
  | .binary op a b => (simplify_sat env a).bind fun a' _ =>
      (simplify_sat env b).bind fun b' _ => simplifyBinary_sat op a' b'

theorem simplifyArgs_sat (env : ConstEnv) : ∀ es : List Expr,
    (simplifyArgs env es).Sat FoldRaises fun _ => True
  | [] => .ok trivial
  | e :: es => (simplify_sat env e).bind fun _ _ =>
      (simplifyArgs_sat env es).bind fun _ _ => .ok trivial
end

theorem simplifyFixedPoint_sat (env : ConstEnv) (e : Expr) :
    (simplifyFixedPoint env e).Sat FoldRaises fun _ => True := by
  rw [simplifyFixedPoint_eq]
  exact simplify_sat env e

theorem scanAction_sat (symbols : List IrSymbol) (env : ConstEnv) (a : Action) :
    (scanAction symbols env a).Sat FoldRaises fun _ => True := by
  have hargs : ∀ args : List Expr,
      (args.mapM (simplifyFixedPoint env)).Sat FoldRaises fun _ => True := by
    intro args
    rw [mapM_simplifyFixedPoint]
    exact simplifyArgs_sat env args
  cases a with
  | arrayZero x size => exact .ok trivial
  | sysWriteConst fd cid size => exact .ok trivial
  | call f args target =>
    cases target with
    | none => exact (hargs args).bind fun _ _ => .ok trivial
    | some target =>
      refine (hargs args).bind fun _ _ => ?_
      cases target with
      | var x => exact .ok trivial
      | array x index =>
        exact ((simplifyFixedPoint_sat env index).bind fun _ _ => .ok trivial).bind
          (Q := fun _ => True) fun _ _ => .ok trivial
  | assign target e | sysWriteExpr e | sysPauseExpr e | sysExitExpr e | returnExpr e =>
    exact (simplifyFixedPoint_sat env e).bind fun _ _ => .ok trivial

theorem scanInstr_sat (symbols : List IrSymbol) (env : ConstEnv) (ins : Instr) :
    (scanInstr symbols env ins).Sat FoldRaises fun _ => True := by
  cases ins with
  | label l => exact .ok trivial
  | goto l => exact .ok trivial
  | ifGoto c l => exact (simplifyFixedPoint_sat env c).bind fun _ _ => .ok trivial
  | act a => exact (scanAction_sat symbols env a).bind fun _ _ => .ok trivial

theorem scan_sat (symbols : List IrSymbol) (env : ConstEnv) (code : List Instr) :
    (scan symbols env code).Sat FoldRaises fun kept => kept.length = code.length := by
  induction code generalizing env with
  | nil => exact .ok rfl
  | cons ins rest ih =>
    refine (scanInstr_sat symbols env ins).bind fun st _ => ?_
    exact (ih st.2).bind fun kept hkept => .ok (by simp [hkept])

/-! ## Modules -/

theorem optimizeCode_sat (symbols : List IrSymbol) (code : List Instr) :
    (optimizeCode symbols code).Sat FoldRaises fun code' => code'.length ≤ code.length := by
  refine (scan_sat symbols .empty code).bind fun kept hkept => .ok ?_
  calc (cleanupControlFlow (removeDeadStores
          (removeUnreachableCode (removeDeadBranches kept.reduceOption)))).length
      ≤ (removeDeadStores
          (removeUnreachableCode (removeDeadBranches kept.reduceOption))).length :=
        cleanupLoop_length_le _
    _ ≤ (removeUnreachableCode (removeDeadBranches kept.reduceOption)).length :=
        reduceOption_length_le_of_eq (by simp [keepStores])
    _ ≤ (removeDeadBranches kept.reduceOption).length :=
        reduceOption_length_le_of_eq (by simp [keepReachable])
    _ ≤ kept.reduceOption.length := reduceOption_length_le_of_eq (by simp)
    _ ≤ code.length := reduceOption_length_le_of_eq hkept

/-- The same functions, none of them with more instructions than before. -/
def NoLonger (m m' : IrModule) : Prop :=
  List.Forall₂ (fun f f' => f'.name = f.name ∧ f'.instructions.length ≤ f.instructions.length)
    m.allFunctions m'.allFunctions

theorem NoLonger.refl (m : IrModule) : NoLonger m m :=
  List.forall₂_same.mpr fun _ _ => ⟨rfl, le_rfl⟩

theorem NoLonger.trans {m1 m2 m3 : IrModule} (h : NoLonger m1 m2) (h' : NoLonger m2 m3) :
    NoLonger m1 m3 :=
  functions_trans (fun hf hf' => ⟨hf'.1.trans hf.1, hf'.2.trans hf.2⟩) h h'

theorem optimizeFunction_sat (f : IrFunction) : (optimizeFunction f).Sat FoldRaises fun f' =>
    f'.name = f.name ∧ f'.instructions.length ≤ f.instructions.length :=
  (optimizeCode_sat f.symbols f.instructions).bind fun _ hcode => .ok ⟨rfl, hcode⟩

theorem optimizeOnce_sat (m : IrModule) : (optimizeOnce m).Sat FoldRaises (NoLonger m) := by
  unfold optimizeOnce
  split_ifs with hempty
  · refine (optimizeCode_sat m.symbols m.instructions).bind fun code hcode => .ok ?_
    simp only [NoLonger, IrModule.allFunctions, if_pos hempty]
    exact .cons ⟨rfl, hcode⟩ .nil
  · refine (Except.Sat.mapM fun f _ => optimizeFunction_sat f).bind fun funcs hfuncs => ?_
    have hne : funcs ≠ [] := by
      rintro rfl
      exact hempty (by simpa using hfuncs.length_eq)
    -- whether or not there is a `main` to copy, the functions are `funcs`
    have hm : ∀ m' : IrModule, m'.functions = funcs → NoLonger m m' := by
      intro m' hm'
      subst hm'
      simpa only [NoLonger, IrModule.allFunctions, if_neg hempty, if_neg hne] using hfuncs
    cases funcs.find? (·.name = "main") with
    | some main => exact .ok (hm _ rfl)
    | none => exact .ok (hm _ rfl)

/-- One round of `optimize_ir` (`optimizer.py:209`). -/
def optimizeRound : IrModule → Except PyError (IrModule ⊕ IrModule) :=
  FixedPoint.settleRound optimizeOnce

/-- All the loops of the optimizer end by their own conditions, in what the model computes.
Either `_fold_binary` has raised an exception, or `optimize_ir` returns, and no function has
more instructions than before. -/
theorem optimizer_terminates :
    (∀ m, Ends optimizeRound m (optimizeIr m)) ∧
    (∀ env e, Ends (simplifyRound env) e (simplifyFixedPoint env e)) ∧
    (∀ code, Ends (livenessRound code)
      ⟨List.replicate code.length ∅, List.replicate code.length ∅⟩ (.ok (liveness code))) ∧
    (∀ code, Ends (worklistRound code) ([0], []) (.ok (reachable code))) ∧
    (∀ code, Ends cleanupLoopRound code (.ok (cleanupControlFlow code))) ∧
    ∀ m, (∃ e, FoldRaises e ∧ optimizeIr m = .error e) ∨
      ∃ m', optimizeIr m = .ok m' ∧ NoLonger m m' := by
  refine ⟨fun m => ?_, simplifyFixedPoint_ends, fun code => ?_, fun code => ?_, fun code => ?_,
    fun m => ?_⟩
  · exact FixedPoint.settle_ends optimizeOnce_shrinks (by have := m.measure_le; omega)
  · exact liveLoop_ends _ (growing_start code) (by omega)
  · exact visit_ends _ (exploring_start code) (by simp; omega)
  · exact cleanupLoop_ends _ (Nat.lt_succ_self _)
  · have hsat : (optimizeIr m).Sat FoldRaises (NoLonger m) :=
      FixedPoint.settle_sat NoLonger.refl NoLonger.trans optimizeOnce_sat _ m
    cases h : optimizeIr m with
    | error e =>
      rw [h] at hsat
      exact .inl ⟨e, hsat, rfl⟩
    | ok m' => exact .inr ⟨m', rfl, hsat.of_eq_ok h⟩

end YHsys.Compiler
