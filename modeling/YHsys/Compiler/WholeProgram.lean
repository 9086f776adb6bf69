import YHsys.Compiler.Codegen
import YHsys.Compiler.OptimizeSound

/-!
# Whole programs

The behaviour of a source program: a call shows itself and runs the body of the called function
in variables of its own. `lower_program` keeps it. The functions share one table of strings, which
only grows, so the code of each one finds its strings in the table of the module.
-/

namespace YHsys.Compiler

open Except (bind_eq_ok)

/-! ## Programs as lists of routines -/

/-- A function as a call sees it: what it does in its variables, given what calls do. -/
structure Routine (V : Type) where
  name : String
  params : List String
  run : (String → List V → Beh (Event V) V) → Store V → Beh (Event V) (Option V)

namespace Routine

variable {V : Type}

/-- A call, with at most `n` calls inside each other. -/
def callN (rs : List (Routine V)) (init : Store V) : ℕ → String → List V → Beh (Event V) V
  | 0, _, _ => ⊥
  | n + 1, f, vs => do
    Beh.emit (.call f vs)
    let func ← Beh.ofOption (rs.find? (·.name = f))
    let r ← func.run (callN rs init n) (init.setParams func.params vs)
    .ofOption r

/-- The events and the exit value of `main`. -/
def behaviour (rs : List (Routine V)) (init : Store V) : Beh (Event V) (Option V) :=
  Beh.sup fun n => do
    let main ← Beh.ofOption (rs.find? (·.name = "main"))
    main.run (callN rs init n) init

end Routine

section

variable {V : Type} (S : OpSem V)

/-- What a function ends with. A body without a `return` to come to ends with 0. -/
def FunctionDef.value (func : FunctionDef) : Ended V → Option V
  | .returned v => some v
  | .normal _ => if Stmt.blockReturns func.body then none else some (S.lit 0)

def FunctionDef.routine (func : FunctionDef) : Routine V where
  name := func.name
  params := func.params
  run call σ := func.value S <$> execBlock S call func.body σ

/-- The behaviour of a source program. -/
def Program.behaviour (p : Program) : Store V → Beh (Event V) (Option V) :=
  Routine.behaviour (p.functions.map (·.routine S))

def IrFunction.routine (constants : List IrConstant) (f : IrFunction) : Routine V where
  name := f.name
  params := f.params
  run call σ := runCode S call constants f.instructions σ

variable {S}

theorem find_routine (m : IrModule) (name : String) :
    (m.allFunctions.map (·.routine S m.constants)).find? (·.name = name) =
      (m.function name).map (·.routine S m.constants) :=
  List.find?_map ..

theorem callN_routines (m : IrModule) (init : Store V) (n : ℕ) :
    callN S m init n = Routine.callN (m.allFunctions.map (·.routine S m.constants)) init n := by
  induction n with
  | zero => rfl
  | succ n ih =>
    funext f vs
    simp only [callN, Routine.callN, find_routine, ih]
    cases m.function f <;> simp [IrFunction.routine]

theorem behaviour_routines (m : IrModule) (init : Store V) :
    behaviour S m init =
      Routine.behaviour (m.allFunctions.map (·.routine S m.constants)) init := by
  unfold behaviour Routine.behaviour
  simp only [find_routine, callN_routines]
  cases m.function "main" <;> simp [IrFunction.routine]

end

/-! ## The analyzer -/

/-- The analyzer accepts the function, and this is its entry. -/
structure Accepted (info : ProgramInfo) (func : FunctionDef) : Prop where
  entry : ∃ arities fi, analyzeFunction arities func = .ok fi ∧ info.get func.name = .ok fi
  main : func.name = "main" → func.params = []

theorem analyzeFunction_entry {arities : List (String × ℕ)} {func : FunctionDef}
    {fi : FunctionInfo} (h : analyzeFunction arities func = .ok fi) :
    fi.name = func.name ∧ fi.params = func.params := by
  obtain ⟨a, -, h⟩ := bind_eq_ok.mp h
  obtain ⟨a', -, h⟩ := bind_eq_ok.mp h
  cases h
  exact ⟨rfl, rfl⟩

/-- The entries so far stay, and a function comes under a name that is new. -/
theorem analyzeFunctions_accepted {funcs : List FunctionDef} : ∀ {arities : List (String × ℕ)}
    {sawMain : Bool} {infos : List FunctionInfo} {r : Bool × List FunctionInfo},
    analyzeFunctions arities sawMain infos funcs = .ok r →
    infos.map (·.name) = arities.map (·.1) →
    (∃ more, r.2 = infos ++ more) ∧ ∀ func ∈ funcs, Accepted ⟨r.2⟩ func := by
  induction funcs with
  | nil =>
    intro arities sawMain infos r h _
    cases h
    exact ⟨⟨[], by simp⟩, by simp⟩
  | cons func funcs ih =>
    intro arities sawMain infos r h hnames
    rw [analyzeFunctions] at h
    split_ifs at h with _ hold _ _ hmain
    obtain ⟨fi, hfi, h⟩ := bind_eq_ok.mp h
    obtain ⟨hname, -⟩ := analyzeFunction_entry hfi
    obtain ⟨⟨more, hmore⟩, hall⟩ := ih h (by simp [hnames, hname])
    refine ⟨⟨fi :: more, by simp [hmore]⟩, List.forall_mem_cons.mpr ⟨⟨⟨_, fi, hfi, ?_⟩, ?_⟩, hall⟩⟩
    · have hnew : infos.find? (·.name = func.name) = none := by
        rw [List.find?_eq_none]
        intro x hx hxn
        have hmem : func.name ∈ arities.map (·.1) := by
          rw [← hnames, ← of_decide_eq_true hxn]
          exact List.mem_map_of_mem hx
        obtain ⟨a, ha, hname⟩ := List.mem_map.mp hmem
        have hlookup := List.lookup_eq_none_iff.mp (Option.not_isSome_iff_eq_none.mp hold) a ha
        simp [hname] at hlookup
      rw [ProgramInfo.get, ProgramInfo.function, hmore]
      simp [List.find?_append, hnew, hname]
    · intro hn
      by_contra hparams
      exact hmain ⟨hn, hparams⟩

theorem analyze_accepted {p : Program} {info : ProgramInfo} (h : analyze p = .ok info) :
    p.functions ≠ [] ∧ ∀ func ∈ p.functions, Accepted info func := by
  obtain ⟨⟨sawMain, infos⟩, hfuncs, h⟩ := bind_eq_ok.mp h
  dsimp only at h
  split_ifs at h with hmain
  cases h
  refine ⟨fun hnil => ?_, (analyzeFunctions_accepted hfuncs rfl).2⟩
  rw [hnil] at hfuncs
  cases hfuncs
  cases hmain

/-! ## The functions -/

section

variable {V : Type} {S : OpSem V}

/-- The code of a function behaves as its body, in any table that goes on from the builder's. -/
theorem runCode_finalize (hS : S.Exact) {info : ProgramInfo} {func : FunctionDef}
    (hacc : Accepted info func) (hfree : Stmt.blockCallFree func.body = true)
    {cs : List IrConstant} {k : ℕ} {isMain : Bool} {f : String}
    {cids : cs.map (·.cid) = List.range k} {b : Builder}
    (hlow : lowerBlock func.body (.new cs k isMain f cids) = .ok b) (rest : List IrConstant)
    (call : String → List V → Beh (Event V) V) (σ : Store V) :
    runCode S call (b.constants ++ rest) b.finalize σ = (func.routine S).run call σ := by
  obtain ⟨arities, fi, hfi, -⟩ := hacc.entry
  obtain ⟨a, _, hfi⟩ := bind_eq_ok.mp hfi
  obtain ⟨a', hbody, _⟩ := bind_eq_ok.mp hfi
  obtain ⟨t, ht, hexec⟩ : Sim S call _ b _ := sim_block hS hbody hfree hlow
  obtain ⟨u, hu, -, -, hfin⟩ := finalize_cases hlow
  have hcode : u.code = t.code := hu.symm.trans ht.code
  obtain ⟨-, -, hunique⟩ := finalize_tree hlow
  rw [hcode] at hfin
  unfold runCode FunctionDef.routine
  dsimp only
  cases hr : Stmt.blockReturns func.body with
  | true =>
    rw [hr, if_pos rfl] at hfin
    rw [hfin.1] at hunique ⊢
    rw [Flat.run_code t hunique, hexec]
    congr 1
    funext e
    cases e <;> simp [exitValue, FunctionDef.value, hr]
  | false =>
    -- the implicit return is one more instruction behind the body
    rw [hr, if_neg (by decide)] at hfin
    have hseq : b.finalize = (Flat.Tree.seq t (.act (if isMain then .sysExitExpr (.int 0)
      else .returnExpr (.int 0)))).code := hfin
    rw [hseq] at hunique ⊢
    rw [Flat.run_code _ hunique, Flat.Tree.exec, hexec, map_bind, map_eq_pure_bind]
    congr 1
    funext e
    cases e with
    | returned v => simp [exitValue, FunctionDef.value]
    | normal σ' =>
      cases isMain <;> simp [exitValue, FunctionDef.value, hr, Flat.Tree.exec, irSem, act, eval]

theorem lowerFunctions_routines (hS : S.Exact) {info : ProgramInfo} {funcs : List FunctionDef} :
    ∀ {cs : List IrConstant} {k : ℕ} {cids : cs.map (·.cid) = List.range k}
      {r : List IrFunction × List IrConstant}, lowerFunctions info cs k cids funcs = .ok r →
    (∀ func ∈ funcs, Accepted info func ∧ Stmt.blockCallFree func.body = true) →
    (∃ rest, r.2 = cs ++ rest) ∧ r.1.map (·.routine S r.2) = funcs.map (·.routine S) := by
  induction funcs with
  | nil =>
    intro cs k cids r h _
    cases h
    exact ⟨⟨[], by simp⟩, rfl⟩
  | cons func funcs ih =>
    intro cs k cids r h hall
    obtain ⟨⟨hacc, hfree⟩, hall⟩ := List.forall_mem_cons.mp hall
    obtain ⟨fi, hget, h⟩ := bind_eq_ok.mp h
    obtain ⟨b, hb, h⟩ := bind_eq_ok.mp h
    obtain ⟨⟨fs, cs'⟩, hfs, h⟩ := bind_eq_ok.mp h
    cases h
    obtain ⟨⟨rest, hrest⟩, hlowers⟩ := ih hfs hall
    obtain ⟨⟨t, ht, -⟩, -⟩ := flows_block hb
    obtain ⟨own, hown⟩ := ht.constants
    obtain ⟨arities, fi', hfi, hget'⟩ := hacc.entry
    cases hget.symm.trans hget'
    have hrest : cs' = b.constants ++ rest := hrest
    refine ⟨⟨own ++ rest, ?_⟩, List.cons_eq_cons.mpr ⟨?_, hlowers⟩⟩
    · rw [hrest, hown, List.append_assoc]
      rfl
    · refine Routine.mk.injEq .. |>.mpr ⟨rfl, (analyzeFunction_entry hfi).2, ?_⟩
      funext call σ
      rw [hrest]
      exact runCode_finalize hS hacc hfree hb rest call σ

/-- The routines of the lowered module are those of the program. -/
theorem lowerProgram_routines (hS : S.Exact) {p : Program} {info : ProgramInfo} {m : IrModule}
    (hacc : analyze p = .ok info)
    (hfree : ∀ func ∈ p.functions, Stmt.blockCallFree func.body = true)
    (hlow : lowerProgram p info = .ok m) :
    m.allFunctions.map (·.routine S m.constants) = p.functions.map (·.routine S) := by
  obtain ⟨hne, hall⟩ := analyze_accepted hacc
  rcases lowerProgram_cases hlow with ⟨func, b, hfunc, hname, hb, hone, hcs⟩ | ⟨hfuncs, -⟩
  · have hmem : func ∈ p.functions := by simp [hfunc]
    rw [hfunc, hone, hcs]
    refine List.cons_eq_cons.mpr ⟨Routine.mk.injEq .. |>.mpr
      ⟨hname.symm, ((hall func hmem).main hname).symm, ?_⟩, rfl⟩
    funext call σ
    have hrun := runCode_finalize hS (hall func hmem) (hfree func hmem) hb [] call σ
    rwa [List.append_nil] at hrun
  · obtain ⟨-, heq⟩ := lowerFunctions_routines hS hfuncs fun f hf => ⟨hall f hf, hfree f hf⟩
    have hirs : m.functions ≠ [] := by
      intro hnil
      rw [hnil] at heq
      exact hne (List.map_eq_nil_iff.mp heq.symm)
    rw [IrModule.allFunctions_of_ne hirs]
    exact heq

end

/-- `_validate_branch_labels` passes on the code of a lowered program. -/
theorem lowerProgram_targets_defined {p : Program} {info : ProgramInfo} {m : IrModule}
    (h : lowerProgram p info = .ok m) :
    ∀ f ∈ m.allFunctions, undefinedLabel f.instructions = none := by
  intro f hf
  obtain ⟨t, ht, -⟩ := lowerProgram_tree h f hf
  rw [undefinedLabel, List.find?_eq_none, ht]
  intro l hl
  obtain ⟨ins, hins, htarget⟩ := List.mem_filterMap.mp hl
  simpa using t.target_mem hins htarget

theorem lowerProgram_targets_defined_falling : ∃ info m,
    lowerProgram fallingProgram info = .ok m ∧
      ∀ f ∈ m.allFunctions, undefinedLabel f.instructions = none := by
  obtain ⟨info, m, -, hlow⟩ : ∃ info m, analyze fallingProgram = .ok info ∧
    lowerProgram fallingProgram info = .ok m := ⟨_, _, rfl, rfl⟩
  exact ⟨info, m, hlow, lowerProgram_targets_defined hlow⟩

end YHsys.Compiler
