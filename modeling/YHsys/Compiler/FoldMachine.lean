import YHsys.Compiler.EmitFacts
import YHsys.Compiler.Fold32
import YHsys.Compiler.Rv32

/-!
# Folding and the emitted code

The lines `_emit_eval_expr` emits for an operator and two literals leave the operator's 32-bit
result in the target register (`emitted_result`). So `_fold_binary` agrees with them where
`FoldAgrees` holds, and nowhere else.
-/

namespace YHsys.Compiler

open Machine (get_next get_set_of_ne get_set_self)
open BitVec (ofInt)

section

variable {data : AsmLabel → BitVec 32} {env : EmitEnv} {target : Reg} {s s' : Emit}

/-! ## What is emitted -/

/-- The registers an expression can be evaluated into: `t0` and `a0`, and any other that the code
of an operator does not use itself. -/
def Reg.isTarget (r : Reg) : Bool := r ≠ .zero ∧ r ≠ .sp ∧ r ≠ .a4

/-- The spill of the variable in `reg`, if one is needed. -/
inductive SpillOf (reg : Reg) : List Rv → Prop
  | none : SpillOf reg []
  | store (offset : ℤ) : SpillOf reg [.sw reg offset .s0]

theorem prepareRegForClobber_spill (h : prepareRegForClobber env target s = .ok s') :
    ∃ spill, SpillOf target spill ∧ s'.lines = s.lines ++ spill.map .instr ∧
      s'.labelId = s.labelId ∧
      ∀ t : Emit, t.valid = s'.valid → prepareRegForClobber env target t = .ok t := by
  unfold prepareRegForClobber at h ⊢
  cases howner : env.alloc.regToVar target with
  | none =>
    rw [howner] at h
    cases h
    exact ⟨[], .none, by simp, rfl, fun t _ => rfl⟩
  | some owner =>
    rw [howner] at h
    dsimp only at h ⊢
    have hfree : ∀ s0 s1 : Emit, s1 = s0.mark owner false false → ∀ t : Emit, t.valid = s1.valid →
        t.valid owner = false := by
      rintro s0 _ rfl t ht
      rw [ht, Emit.mark]
      exact Function.update_self ..
    split_ifs at h with hvalid hdirty
    · cases h
      refine ⟨[], .none, by simp, rfl, fun t ht => ?_⟩
      rw [ht, if_pos hvalid]
    · obtain ⟨slot, -, hs⟩ := Except.bind_eq_ok.mp h
      cases hs
      refine ⟨[_], .store slot.offset, rfl, rfl, fun t ht => ?_⟩
      rw [hfree _ _ rfl t ht]
      rfl
    · cases h
      refine ⟨[], .none, by simp [Emit.mark], rfl, fun t ht => ?_⟩
      rw [hfree _ _ rfl t ht]
      rfl

/-- The lines of an operator other than `&&` and `||`. -/
def binaryBlock (op : BinaryOp) (target : Reg) : List Rv :=
  match op with
  | .add => [.alu .add target target .a4]
  | .sub => [.alu .sub target target .a4]
  | .mul => [.alu .mul target target .a4]
  | .div => [.alu .div target target .a4]
  | .mod => [.alu .rem target target .a4]
  | .shl => [.alu .sll target target .a4]
  | .shr => [.alu .sra target target .a4]
  | .band => [.alu .and target target .a4]
  | .bor => [.alu .or target target .a4]
  | .bxor => [.alu .xor target target .a4]
  | .eq => [.alu .xor target target .a4, .seqz target target]
  | .ne => [.alu .xor target target .a4, .snez target target]
  | .lt => [.alu .slt target target .a4]
  | .le => [.alu .slt target .a4 target, .xori target target 1]
  | .gt => [.alu .slt target .a4 target]
  | .ge => [.alu .slt target target .a4, .xori target target 1]
  | .land => []
  | .lor => []

theorem lines_emitBinary (op : BinaryOp) (s : Emit) :
    (emitBinary op target s).lines = s.lines ++ (binaryBlock op target).map .instr := by
  cases op <;> simp [emitBinary, binaryBlock, Emit.instr]

/-- The lines that bring two literals to the target and to `a4`. -/
def literalBlock (a b : ℤ) (target : Reg) : List Rv :=
  [.li target a, .addi .sp .sp (-4), .sw target 0 .sp, .li target b, .mv .a4 target,
    .lw target 0 .sp, .addi .sp .sp 4]

theorem lines_arith {op : BinaryOp} (hop : op.absorbing = none) {a b : ℤ}
    (h : emitEvalExpr env (.binary op (.int a) (.int b)) target s = .ok s') :
    ∃ spill, SpillOf target spill ∧ s'.lines =
      s.lines ++ (spill ++ (literalBlock a b target ++ binaryBlock op target)).map .instr := by
  rw [emitEvalExpr_binary (by rintro rfl; cases hop) (by rintro rfl; cases hop)] at h
  obtain ⟨s1, h1, h⟩ := Except.bind_eq_ok.mp h
  obtain ⟨s2, h2, h⟩ := Except.bind_eq_ok.mp h
  rw [emitEvalExpr] at h1 h2
  obtain ⟨s0, h0, h1⟩ := Except.bind_eq_ok.mp h1
  obtain ⟨spill, hspill, hlines, -, hfree⟩ := prepareRegForClobber_spill h0
  cases h1
  rw [hfree ((s0.instr (.li target a)).push target) rfl] at h2
  cases h2
  cases h
  refine ⟨spill, hspill, ?_⟩
  simp [lines_emitBinary, Emit.pop, Emit.push, Emit.instr, hlines, literalBlock]

/-- The lines of `&&` and `||` on two literals. -/
def logicalLines (br : BranchOp) (out a b : ℤ) (skip last : AsmLabel) (target : Reg) :
    List AsmLine :=
  [.instr (.li target a), .instr (.branch br target .zero skip), .instr (.li target b),
    .instr (.snez target target), .instr (.j last), .label skip, .instr (.li target out),
    .label last]

/-- The numbers of the labels so far have been counted. -/
def Emit.Counted (s : Emit) : Prop :=
  ∀ p kind id, .label (.temp p kind id) ∈ s.lines → id ≤ s.labelId

theorem lines_logical {op : BinaryOp} {z : Bool} (hop : op.absorbing = some z) {a b : ℤ}
    (h : emitEvalExpr env (.binary op (.int a) (.int b)) target s = .ok s') (hs : s.Counted) :
    ∃ spill skip last, SpillOf target spill ∧ .label skip ∉ s.lines ∧ .label last ∉ s.lines ∧
      skip ≠ last ∧ s'.lines = s.lines ++ (spill.map .instr ++
        logicalLines (if z then .bne else .beq) (pyBool z) a b skip last target) := by
  have hnew : ∀ kind n, .label (.temp env.labelPrefix kind (s.labelId + n + 1)) ∉ s.lines := by
    intro kind n hmem
    have := hs _ _ _ hmem
    omega
  cases op with
  | land | lor =>
    cases hop
    simp only [emitEvalExpr, Emit.fresh] at h
    obtain ⟨s1, h1, h⟩ := Except.bind_eq_ok.mp h
    obtain ⟨s0, h0, h1⟩ := Except.bind_eq_ok.mp h1
    obtain ⟨spill, hspill, hlines, -, hfree⟩ := prepareRegForClobber_spill h0
    cases h1
    obtain ⟨s2, h2, h⟩ := Except.bind_eq_ok.mp h
    rw [hfree ((s0.instr (.li target a)).instr _) rfl] at h2
    cases h2
    cases h
    first
    | refine ⟨spill, _, _, hspill, hnew .andFalse 0, hnew .andEnd 1, by simp, ?_⟩
      simp [Emit.instr, Emit.label, hlines, logicalLines, pyBool]
      done
    | refine ⟨spill, _, _, hspill, hnew .orTrue 0, hnew .orEnd 1, by simp, ?_⟩
      simp [Emit.instr, Emit.label, hlines, logicalLines, pyBool]
  | _ => cases hop

/-! ## What it computes -/

theorem isStraight_spill {spill : List Rv} (h : SpillOf target spill) :
    ∀ i ∈ spill, i.isStraight = true := by
  cases h <;> simp [Rv.isStraight]

theorem isStraight_arith (op : BinaryOp) (a b : ℤ) :
    ∀ i ∈ literalBlock a b target ++ binaryBlock op target, i.isStraight = true := by
  have hall : (literalBlock a b target ++ binaryBlock op target).all Rv.isStraight = true := by
    cases op <;> rfl
  exact List.all_eq_true.mp hall

theorem runBlock_literals {a b : ℤ} (ht : target.isTarget = true) (m : Machine) :
    (runBlock data m (literalBlock a b target)).get target = ofInt 32 a ∧
      (runBlock data m (literalBlock a b target)).get .a4 = ofInt 32 b := by
  obtain ⟨h0, hsp, ha4⟩ := of_decide_eq_true ht
  unfold literalBlock
  generalize (-4 : ℤ) = down
  generalize (4 : ℤ) = up
  constructor
  · simp only [runBlock, List.foldl_cons, List.foldl_nil, Rv.apply, get_next,
      Machine.loadWord_next, Machine.loadWord_set, get_set_self _ _ h0,
      get_set_of_ne _ _ hsp, get_set_of_ne _ _ hsp.symm,
      get_set_of_ne _ _ (show Reg.sp ≠ .a4 by decide), Machine.get_storeWord,
      Machine.loadWord_storeWord]
  · simp only [runBlock, List.foldl_cons, List.foldl_nil, Rv.apply, get_next,
      get_set_of_ne _ _ (show Reg.a4 ≠ .sp by decide), get_set_of_ne _ _ ha4.symm,
      get_set_self _ _ (show Reg.a4 ≠ .zero by decide), get_set_self _ _ h0]

theorem runBlock_binary {op : BinaryOp} (hop : op.absorbing = none) (ht : target.isTarget = true)
    (m : Machine) : (runBlock data m (binaryBlock op target)).get target =
      binary32 op (m.get target) (m.get .a4) := by
  obtain ⟨h0, hsp, ha4⟩ := of_decide_eq_true ht
  have hnot : ∀ p : Bool, boolWord p ^^^ ofInt 32 1 = boolWord (!p) := by decide
  have hxor : ∀ v w : BitVec 32, (v ^^^ w == 0) = (v == w) := by
    intro v w
    rw [Bool.eq_iff_iff, beq_iff_eq, beq_iff_eq]
    exact BitVec.xor_eq_zero_iff
  cases op with
  | land | lor => cases hop
  | _ =>
    simp only [runBlock, binaryBlock, List.foldl_cons, List.foldl_nil, Rv.apply, get_next,
      get_set_self _ _ h0, AluOp.eval, binary32, hnot, bne, hxor]

/-- `&&` and `||` jump over the right literal if the left one decides. -/
theorem steps_logical (data : AsmLabel → BitVec 32) {code done rest : List AsmLine} {br : BranchOp} {out a b : ℤ}
    {skip last : AsmLabel} {m : Machine}
    (hcode : code = done ++ (logicalLines br out a b skip last target ++ rest))
    (hskip : .label skip ∉ done) (hlast : .label last ∉ done) (hne : skip ≠ last)
    (ht : target ≠ .zero) (hpc : m.pc = done.length) :
    ∃ m', RvSteps data code m m' ∧ m'.pc = done.length + 8 ∧
      m'.get target = if br.holds (ofInt 32 a) 0 then ofInt 32 out
        else boolWord (ofInt 32 b != 0) := by
  have hline : ∀ {m0 : Machine} {k : ℕ} {line : AsmLine}, m0.pc = done.length + k →
      (logicalLines br out a b skip last target)[k]? = some line → code[m0.pc]? = some line := by
    intro m0 k line hpc0 hk
    obtain ⟨hlt, -⟩ := List.getElem?_eq_some_iff.mp hk
    rw [hpc0, hcode, List.getElem?_append_right (by omega), Nat.add_sub_cancel_left,
      List.getElem?_append_left hlt, hk]
  have hskipAt : findLabel code skip = some (done.length + 5) := by
    have h := findLabel_append (done ++ (logicalLines br out a b skip last target).take 5)
      (.instr (.li target out) :: .label last :: rest) (l := skip) (by simp [logicalLines, hskip])
    simpa [logicalLines, hcode] using h
  have hlastAt : findLabel code last = some (done.length + 7) := by
    have h := findLabel_append (done ++ (logicalLines br out a b skip last target).take 7) rest
      (l := last) (by simp [logicalLines, hlast, hne.symm])
    simpa [logicalLines, hcode] using h
  set m1 := ((Rv.li target a).apply data m).next with hm1
  have hpc1 : m1.pc = done.length + 1 := by simp [hm1, hpc]
  have hget1 : m1.get target = ofInt 32 a := by
    rw [hm1, get_next, Rv.apply, get_set_self _ _ ht]
  have h1 : rvStep data code m = some m1 := rvStep_straight (hline (k := 0) hpc rfl) rfl
  have h2 : rvStep data code m1 = _ := rvStep_branch (hline hpc1 rfl) hskipAt
  rw [hget1] at h2
  split_ifs at h2 ⊢ with htaken
  · refine ⟨_, .head h1 (.head h2 (.head (rvStep_label (hline (k := 5) rfl rfl))
      (.head (rvStep_straight (hline (k := 6) rfl rfl) rfl)
        (.head (rvStep_label (hline (k := 7) ?_ rfl)) .refl)))), ?_, ?_⟩
    · simp
    · simp
    · rw [get_next, get_next, Rv.apply, get_set_self _ _ ht]
  · refine ⟨_, .head h1 (.head h2 (.head (rvStep_straight (hline (k := 2) ?_ rfl) rfl)
      (.head (rvStep_straight (hline (k := 3) ?_ rfl) rfl)
        (.head (rvStep_jump (hline (k := 4) ?_ rfl) hlastAt)
          (.head (rvStep_label (hline (k := 7) rfl rfl)) .refl))))), rfl, ?_⟩
    · simp [hpc1]
    · simp [hpc1]
    · simp [hpc1]
    · rw [get_next]
      change (((Rv.snez target target).apply data _).next).get target = _
      simp only [get_next, Rv.apply, get_set_self _ _ ht]

theorem logical_value {op : BinaryOp} {z : Bool} (hop : op.absorbing = some z) (v w : BitVec 32) :
    (if (if z then BranchOp.bne else .beq).holds v 0 then ofInt 32 (pyBool z)
      else boolWord (w != 0)) = binary32 op v w := by
  cases op with
  | land | lor =>
    cases hop
    simp only [if_true, Bool.false_eq_true, if_false, BranchOp.holds, binary32, ofInt_pyBool, bne]
    cases v == 0 <;> rfl
  | _ => cases hop

theorem emitted_result (data : AsmLabel → BitVec 32) (rest : List AsmLine) {op : BinaryOp} {a b : ℤ}
    {m : Machine} (ht : target.isTarget = true) (hs : s.Counted)
    (h : emitEvalExpr env (.binary op (.int a) (.int b)) target s = .ok s')
    (hpc : m.pc = s.lines.length) :
    ∃ m', RvSteps data (s'.lines ++ rest) m m' ∧ m'.pc = s'.lines.length ∧
      m'.get target = binary32 op (ofInt 32 a) (ofInt 32 b) := by
  cases hop : op.absorbing with
  | none =>
    obtain ⟨spill, hspill, hlines⟩ := lines_arith hop h
    have hstraight : ∀ i ∈ spill ++ (literalBlock a b target ++ binaryBlock op target),
        i.isStraight = true := by
      intro i hi
      rcases List.mem_append.mp hi with hi | hi
      · exact isStraight_spill hspill i hi
      · exact isStraight_arith op a b i hi
    have hcode : s'.lines ++ rest = s.lines ++ ((spill ++ (literalBlock a b target ++
        binaryBlock op target)).map .instr ++ rest) := by
      rw [hlines, List.append_assoc]
    refine ⟨_, steps_block hstraight s.lines hcode hpc, ?_, ?_⟩
    · simp only [pc_runBlock, hpc, hlines, List.length_append, List.length_map]
    · rw [runBlock_append, runBlock_append, runBlock_binary hop ht,
        (runBlock_literals ht _).1, (runBlock_literals ht _).2]
  | some z =>
    obtain ⟨spill, skip, last, hspill, hskip, hlast, hne, hlines⟩ := lines_logical hop h hs
    obtain ⟨h0, -, -⟩ := of_decide_eq_true ht
    have hcode : s'.lines ++ rest = s.lines ++ spill.map .instr ++ (logicalLines
        (if z then .bne else .beq) (pyBool z) a b skip last target ++ rest) := by
      simp [hlines]
    have hpc' : (runBlock data m spill).pc = (s.lines ++ spill.map AsmLine.instr).length := by
      simp [pc_runBlock, hpc]
    obtain ⟨m', hsteps, hend, hget⟩ := steps_logical data hcode (by simp [hskip])
      (by simp [hlast]) hne h0 hpc'
    have hspills : RvSteps data (s'.lines ++ rest) m (runBlock data m spill) :=
      steps_block (isStraight_spill hspill) s.lines (by rw [hcode, List.append_assoc]) hpc
    refine ⟨m', hspills.trans hsteps, ?_, ?_⟩
    · rw [hend, hlines]
      simp [logicalLines]
      omega
    · rw [hget]
      exact logical_value hop _ _

/-- For literals that are 32-bit numbers, folding an operator other than the ring operators
has the result of the code emitted for it exactly where `FoldAgrees` says so. -/
theorem fold_matches_code (data : AsmLabel → BitVec 32) (rest : List AsmLine) {op : BinaryOp}
    {a b : ℤ} {m : Machine} (hop : op.isRing = false) (ha : IsInt32 a) (hb : IsInt32 b)
    (h0 : op.isDivision = true → b ≠ 0) (ht : target.isTarget = true) (hs : s.Counted)
    (h : emitEvalExpr env (.binary op (.int a) (.int b)) target s = .ok s')
    (hpc : m.pc = s.lines.length) :
    ∃ m', RvSteps data (s'.lines ++ rest) m m' ∧ m'.pc = s'.lines.length ∧
      ((∃ k, foldBinary op a b = .ok k ∧ BitVec.ofInt 32 k = m'.get target) ↔
        FoldAgrees op a b) := by
  obtain ⟨m', hsteps, hend, hget⟩ := emitted_result data rest ht hs h hpc
  refine ⟨m', hsteps, hend, ?_⟩
  rw [hget]
  exact foldsTo32_iff hop ha hb h0

end

/-- No variable has a register, and nothing has been emitted. -/
def bareEnv : EmitEnv := ⟨⟨[], 16, 8, 12⟩, ⟨[], fun _ => none, []⟩, ""⟩

def bareEmit : Emit := ⟨[], 0, 0, fun _ => false, fun _ => false⟩

def bareMachine : Machine := ⟨fun _ => 0, fun _ => 0, 0⟩

theorem bareEmit_counted : bareEmit.Counted := fun _ _ _ h => absurd h List.not_mem_nil

theorem emit_bare (b : ℤ) :
    emitEvalExpr bareEnv (.binary .mod (.int (-7)) (.int b)) .t0 bareEmit = .ok (emitBinary .mod .t0
      (((((bareEmit.instr (.li .t0 (-7))).push .t0).instr (.li .t0 b)).instr (.mv .a4 .t0)).pop .t0)) :=
  rfl

/-- `-7 % -3`: the operands have the same sign. -/
theorem fold_matches_code_negatives : ∃ s' m',
    emitEvalExpr bareEnv (.binary .mod (.int (-7)) (.int (-3))) .t0 bareEmit = .ok s' ∧
      RvSteps (fun _ => 0) (s'.lines ++ []) bareMachine m' ∧
      ∃ k, foldBinary .mod (-7) (-3) = .ok k ∧ BitVec.ofInt 32 k = m'.get .t0 := by
  obtain ⟨m', hsteps, -, hiff⟩ := fold_matches_code (fun _ => 0) []
    (m := bareMachine) rfl (by decide) (by decide) (by decide) rfl bareEmit_counted (emit_bare (-3))
    rfl
  exact ⟨_, m', emit_bare _, hsteps, hiff.mpr (.inr (by decide))⟩

/-- `-7 % 3` is folded to 2, and its code computes -1. -/
theorem fold_differs_from_code : ∃ s' m',
    emitEvalExpr bareEnv (.binary .mod (.int (-7)) (.int 3)) .t0 bareEmit = .ok s' ∧
      RvSteps (fun _ => 0) (s'.lines ++ []) bareMachine m' ∧ m'.pc = s'.lines.length ∧
      foldBinary .mod (-7) 3 = .ok 2 ∧ m'.get .t0 = BitVec.ofInt 32 (-1) := by
  obtain ⟨m', hsteps, hend, hget⟩ := emitted_result (fun _ => 0) [] (m := bareMachine) rfl
    bareEmit_counted (emit_bare 3) rfl
  exact ⟨_, m', emit_bare _, hsteps, hend, by decide, hget.trans (by decide)⟩

end YHsys.Compiler
