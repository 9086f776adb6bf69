import YHsys.Compiler.EmitFacts
import YHsys.Compiler.Optimizer
import YHsys.Compiler.Builder
import YHsys.Compiler.Analyzer
import YHsys.Lib.FlatReach

/-!
# Write-back at jumps

Before a jump the back end stores the variables whose register copies are newer than their slots,
but only those in `live_out`. `_analyze_liveness` finds them in one pass over the text: a variable
is in `live_out` of an instruction iff the text after it reads the variable before it writes it
(`mem_liveOut`). Where the target of the jump reads a variable that the text after the jump does
not read first, the new value is lost.
-/

namespace YHsys.Compiler

open Except (bind_eq_ok ok_bind)

open Flat

section

variable {layout : FrameLayout} {code : List Instr} {x : String}

/-- `name in uses` of `_instruction_uses_defs`. -/
def usesVar (layout : FrameLayout) (x : String) (ins : Instr) : Bool :=
  match instructionUsesDefs layout ins with
  | .ok (uses, _) => x ∈ uses
  | .error _ => false

/-- `name in defs` of `_instruction_uses_defs`. -/
def defsVar (layout : FrameLayout) (x : String) (ins : Instr) : Bool :=
  match instructionUsesDefs layout ins with
  | .ok (_, defs) => x ∈ defs
  | .error _ => false

/-- Some path that starts at a position reads a variable before it writes it. -/
abbrev ReadsVarFirst (layout : FrameLayout) (code : List Instr) (x : String) (p : ℕ) : Prop :=
  ReadsFirst Action.exits (usesVar layout x) (defsVar layout x) code p

/-- The text reads a variable before it writes it. -/
abbrev readsVarNext (layout : FrameLayout) (x : String) (text : List Instr) : Bool :=
  readsNext (usesVar layout x) (defsVar layout x) text

/-! ## The analysis -/

theorem mem_analyzeLiveness : ∀ {code : List Instr} {live : List String} {outs : List (List String)},
    analyzeLiveness layout code = .ok (live, outs) →
      (x ∈ live ↔ readsVarNext layout x code = true)
  | [], live, outs, h => by
    cases h
    simp [readsVarNext, readsNext]
  | ins :: rest, live, outs, h => by
    obtain ⟨⟨live', outs'⟩, hrest, h⟩ := bind_eq_ok.mp h
    obtain ⟨⟨uses, defs⟩, hins, h⟩ := bind_eq_ok.mp h
    cases h
    have ih : x ∈ live' ↔ _ := mem_analyzeLiveness hrest
    simp only [readsVarNext, readsNext, usesVar, defsVar, hins] at ih ⊢
    simp [ih, or_comm, and_comm]

theorem mem_liveOut : ∀ {code : List Instr} {live : List String} {outs : List (List String)},
    analyzeLiveness layout code = .ok (live, outs) → ∀ {i : ℕ}, i < code.length →
      ∃ out, outs[i]? = some out ∧ ∀ x, x ∈ out ↔ readsVarNext layout x (code.drop (i + 1)) = true
  | [], _, _, _, _, hi => absurd hi (Nat.not_lt_zero _)
  | ins :: rest, live, outs, h, i, hi => by
    obtain ⟨⟨live', outs'⟩, hrest, h⟩ := bind_eq_ok.mp h
    obtain ⟨⟨uses, defs⟩, hins, h⟩ := bind_eq_ok.mp h
    cases h
    cases i with
    | zero => exact ⟨live', rfl, fun x => mem_analyzeLiveness hrest⟩
    | succ i =>
      obtain ⟨out, hout, hmem⟩ := mem_liveOut hrest (Nat.lt_of_succ_lt_succ hi)
      exact ⟨out, hout, hmem⟩

/-! ## The slots of the locations -/

/-- A location has the offset of its variable's slot. -/
def SlotOffsets (layout : FrameLayout) (locations : List VarLocation) : Prop :=
  ∀ loc ∈ locations, ∃ slot, layout.symbol loc.name = .ok slot ∧ loc.stackOffset = slot.offset

theorem slotOffsets_place {s s' : LinearScan} {span : Span} (hs : SlotOffsets layout s.locations)
    (h : s.place layout span = .ok s') : SlotOffsets layout s'.locations := by
  obtain ⟨slot, hslot, h⟩ := bind_eq_ok.mp h
  have hnew : ∀ reg, SlotOffsets layout (s.locations ++ [⟨span.name, reg, slot.offset⟩]) := by
    intro reg loc hloc
    rcases List.mem_append.mp hloc with hloc | hloc
    · exact hs loc hloc
    · cases List.mem_singleton.mp hloc
      exact ⟨slot, hslot, rfl⟩
  split at h
  · cases h
    exact hnew _
  · cases h
    exact hnew _

theorem slotOffsets_places {order : List Span} : ∀ {s s' : LinearScan},
    SlotOffsets layout s.locations → order.foldlM (LinearScan.place layout) s = .ok s' →
      SlotOffsets layout s'.locations := by
  induction order with
  | nil =>
    intro s s' hs h
    cases h
    exact hs
  | cons span order ih =>
    intro s s' hs h
    rw [List.foldlM_cons] at h
    obtain ⟨s1, h1, h⟩ := bind_eq_ok.mp h
    exact ih (slotOffsets_place hs h1) h

theorem buildRegisterAllocation_eq_ok {alloc : RegisterAllocation}
    (h : buildRegisterAllocation layout code = .ok alloc) :
    (∃ live, analyzeLiveness layout code = .ok (live, alloc.liveOut)) ∧
      SlotOffsets layout alloc.locations := by
  obtain ⟨⟨live, outs⟩, hlive, h⟩ := bind_eq_ok.mp h
  obtain ⟨order, -, h⟩ := bind_eq_ok.mp h
  obtain ⟨s, hplace, h⟩ := bind_eq_ok.mp h
  cases h
  exact ⟨⟨live, hlive⟩, slotOffsets_places (by simp [SlotOffsets]) hplace⟩

/-! ## The stores -/

theorem lines_spillVar (active : Option (List String)) (s : Emit) (loc : VarLocation) :
    ∃ stores, (spillVar active s loc).lines = s.lines ++ stores := by
  unfold spillVar
  split
  · exact ⟨[], (List.append_nil _).symm⟩
  · split_ifs
    · exact ⟨[], (List.append_nil _).symm⟩
    · exact ⟨_, rfl⟩
    · exact ⟨[], (List.append_nil _).symm⟩

theorem lines_spillVars (active : Option (List String)) (locs : List VarLocation) :
    ∀ s : Emit, ∃ stores, (locs.foldl (spillVar active) s).lines = s.lines ++ stores := by
  induction locs with
  | nil => exact fun s => ⟨[], (List.append_nil _).symm⟩
  | cons loc locs ih =>
    intro s
    obtain ⟨first, hfirst⟩ := lines_spillVar active s loc
    obtain ⟨stores, hstores⟩ := ih (spillVar active s loc)
    exact ⟨first ++ stores, by rw [List.foldl_cons, hstores, hfirst, List.append_assoc]⟩

theorem flags_spillVar (active : Option (List String)) (s : Emit) {loc : VarLocation}
    (h : loc.name ≠ x) : (spillVar active s loc).valid x = s.valid x ∧
      (spillVar active s loc).dirty x = s.dirty x := by
  have hne : x ≠ loc.name := h.symm
  unfold spillVar
  split
  · exact ⟨rfl, rfl⟩
  · split_ifs <;> simp [Emit.mark, Emit.instr, Function.update_of_ne hne]

theorem spills_dirty {active : List String} (hx : x ∈ active) {loc : VarLocation} {reg : Reg}
    (hreg : loc.reg = some reg) {locs : List VarLocation} :
    ∀ {s : Emit}, locs.find? (·.name = x) = some loc → s.valid x = true → s.dirty x = true →
      ∃ stores, (locs.foldl (spillVar (some active)) s).lines = s.lines ++ stores ∧
        .instr (.sw reg loc.stackOffset .s0) ∈ stores := by
  induction locs with
  | nil => exact fun h => nomatch h
  | cons l locs ih =>
    intro s hfind hvalid hdirty
    by_cases hname : l.name = x
    · -- its own turn
      have hloc : l = loc := by simpa [List.find?_cons, hname] using hfind
      have hspill : spillVar (some active) s l =
          (s.instr (.sw reg l.stackOffset .s0)).mark l.name false false := by
        simp only [spillVar, hloc ▸ hreg]
        simp [hname, hx, hvalid, hdirty]
      obtain ⟨stores, hstores⟩ := lines_spillVars (some active) locs (spillVar (some active) s l)
      refine ⟨.instr (.sw reg loc.stackOffset .s0) :: stores, ?_, by simp⟩
      rw [List.foldl_cons, hstores, hspill]
      simp [Emit.mark, Emit.instr, hloc]
    · obtain ⟨hvalid', hdirty'⟩ := flags_spillVar (some active) s hname
      have hfind' : locs.find? (·.name = x) = some loc := by
        simpa [List.find?_cons, hname] using hfind
      obtain ⟨first, hfirst⟩ := lines_spillVar (some active) s l
      obtain ⟨stores, hstores, hmem⟩ := ih hfind' (hvalid'.trans hvalid) (hdirty'.trans hdirty)
      exact ⟨first ++ stores, by rw [List.foldl_cons, hstores, hfirst, List.append_assoc],
        List.mem_append_right _ hmem⟩

/-! ## Jumps -/

/-- The state at the write-back of a jump: a condition has been evaluated. -/
def beforeSpill (env : EmitEnv) (s : Emit) : Instr → Except PyError Emit
  | .ifGoto cond _ => emitEvalExpr env cond .t0 s
  | _ => .ok s

/-- The label an instruction may jump to. -/
def Rv.jumpsTo : Rv → Option AsmLabel
  | .j l => some l
  | .branch _ _ _ l => some l
  | _ => none

theorem emitInstr_jump {sys : SyscallTable} {constants : List IrConstant} {env : EmitEnv}
    {out : List String} {s s0 : Emit} {ins : Instr} {l : Label} (hl : ins.target = some l)
    (hs0 : beforeSpill env s ins = .ok s0) : ∃ s' jump,
      emitInstr sys constants env out s ins = .ok s' ∧ Rv.jumpsTo jump = some (.user l) ∧
        s'.lines = (spillActiveRegisters env (some out) s0).lines ++ [.instr jump] := by
  cases ins with
  | goto l' =>
    cases hl
    cases hs0
    exact ⟨_, _, rfl, rfl, rfl⟩
  | ifGoto cond l' =>
    cases hl
    simp only [emitInstr, show emitEvalExpr env cond .t0 s = .ok s0 from hs0, ok_bind]
    exact ⟨_, _, rfl, rfl, rfl⟩
  | act a => cases hl
  | label l' => cases hl

/-- A jump writes back every variable that a path from its target reads first exactly if the text
after the jump reads these variables first. The variables of `live_out` are stored before the
jump if their register copies are newer. -/
theorem jump_write_back {alloc : RegisterAllocation}
    (halloc : buildRegisterAllocation layout code = .ok alloc) {i : ℕ} {ins : Instr} {l : Label}
    (hi : code[i]? = some ins) (hl : ins.target = some l) :
    ∃ out, alloc.liveOut[i]? = some out ∧
      ((∀ x q, find code l = some q → ReadsVarFirst layout code x q → x ∈ out) ↔
        ∀ x q, find code l = some q → ReadsVarFirst layout code x q →
          readsVarNext layout x (code.drop (i + 1)) = true) ∧
      ∀ sys constants labelPrefix s s0,
        beforeSpill ⟨layout, alloc, labelPrefix⟩ s ins = .ok s0 →
        ∃ s' stores jump, emitInstr sys constants ⟨layout, alloc, labelPrefix⟩ out s ins = .ok s' ∧
          Rv.jumpsTo jump = some (.user l) ∧ s'.lines = s0.lines ++ stores ++ [.instr jump] ∧
          ∀ x reg slot, x ∈ out → alloc.reg x = some reg → layout.symbol x = .ok slot →
            s0.valid x = true → s0.dirty x = true → .instr (.sw reg slot.offset .s0) ∈ stores := by
  obtain ⟨⟨live, hlive⟩, hslots⟩ := buildRegisterAllocation_eq_ok halloc
  obtain ⟨out, hout, hmem⟩ := mem_liveOut hlive (List.getElem?_eq_some_iff.mp hi).1
  refine ⟨out, hout, ?_, ?_⟩
  · simp only [hmem]
  · intro sys constants labelPrefix s s0 hs0
    obtain ⟨s', jump, hemit, hjump, hlines⟩ := emitInstr_jump hl hs0
    obtain ⟨stores, hstores⟩ := lines_spillVars (some out) alloc.locations s0
    refine ⟨s', stores, jump, hemit, hjump, by rw [hlines, spillActiveRegisters, hstores], ?_⟩
    intro x reg slot hx hreg hslot hvalid hdirty
    obtain ⟨loc, hloc, hreg⟩ := Option.bind_eq_some_iff.mp hreg
    obtain ⟨stores', hstores', hsw⟩ := spills_dirty hx hreg hloc hvalid hdirty
    cases List.append_cancel_left (hstores.symm.trans hstores')
    -- the location has the offset of the slot
    obtain ⟨slot', hslot', hoffset⟩ := hslots loc (List.mem_of_find?_eq_some hloc)
    have hname : loc.name = x := by simpa using List.find?_some hloc
    rw [hname, hslot] at hslot'
    cases hslot'
    rwa [hoffset] at hsw

end

/-! ## A branch -/

/-- `int main() { int x = 1; if (x) { x = 3; } else { x = 2; } print_int(x); return 0; }`. -/
def branchProgram : Program :=
  ⟨[⟨"main", [],
    [.varDecl "x" none (some (.int 1)),
      .ite (.var "x") [.assign (.var "x") .set (.int 3)]
        (.block [.assign (.var "x") .set (.int 2)]),
      .builtin .printInt (some (.var "x")) none,
      .ret (.int 0)]⟩]⟩

def branchLabel (kind : LabelKind) (id : ℕ) : Label := ⟨"", kind, id⟩

/-- Its code. -/
def branchCode : List Instr :=
  [.act (.assign (.var "x") (.int 1)),
    .ifGoto (.var "x") (branchLabel .ifThen 1),
    .goto (branchLabel .ifElse 2),
    .label (branchLabel .ifThen 1),
    .act (.assign (.var "x") (.int 3)),
    .goto (branchLabel .ifEnd 3),
    .label (branchLabel .ifElse 2),
    .act (.assign (.var "x") (.int 2)),
    .label (branchLabel .ifEnd 3),
    .act (.sysWriteExpr (.var "x")),
    .act (.sysExitExpr (.int 0))]

def branchLayout : FrameLayout := ⟨[("x", ⟨0, 1, false⟩)], 16, 8, 12⟩

/-- The first jump of the branch writes `x` back. -/
theorem jump_write_back_condition : ∃ alloc out,
    buildRegisterAllocation branchLayout branchCode = .ok alloc ∧ alloc.liveOut[1]? = some out ∧
      ((∀ x q, find branchCode (branchLabel .ifThen 1) = some q →
          ReadsVarFirst branchLayout branchCode x q → x ∈ out) ↔
        ∀ x q, find branchCode (branchLabel .ifThen 1) = some q →
          ReadsVarFirst branchLayout branchCode x q →
            readsVarNext branchLayout x (branchCode.drop 2) = true) := by
  obtain ⟨out, hout, hiff, -⟩ := @jump_write_back branchLayout branchCode _ rfl 1
    (.ifGoto (.var "x") (branchLabel .ifThen 1)) _ rfl rfl
  exact ⟨_, out, rfl, hout, hiff⟩

/-- At the jump over the `else` branch `x` is not live in the text, which writes it next; but the
target of the jump reads it. -/
theorem jump_loses_branch :
    (∃ info m, analyze branchProgram = .ok info ∧ lowerProgram branchProgram info = .ok m ∧
      m.instructions = branchCode ∧
      buildFrameLayout ⟨"main", [], m.symbols, m.instructions⟩ = .ok branchLayout) ∧
    branchCode[5]? = some (.goto (branchLabel .ifEnd 3)) ∧
    find branchCode (branchLabel .ifEnd 3) = some 8 ∧
    ReadsVarFirst branchLayout branchCode "x" 8 ∧
    ∃ alloc, buildRegisterAllocation branchLayout branchCode = .ok alloc ∧
      alloc.reg "x" = some .t0 ∧ alloc.liveOut[5]? = some [] := by
  refine ⟨⟨_, _, rfl, rfl, rfl, rfl⟩, rfl, rfl, ?_, _, rfl, rfl, rfl⟩
  exact .later rfl rfl (.label rfl) (.here rfl rfl)

end YHsys.Compiler
