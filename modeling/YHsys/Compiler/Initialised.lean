import YHsys.Compiler.FallThrough
import YHsys.Lib.FlatSteps

/-!
# Reads of variables that have no value yet

The analyzer asks that a variable is declared before it is used, in the order of the text and in
one table for the whole function. A variable gets its value when its declaration is executed,
which some paths to a use may not do. `Stmt.blockReads x` finds these paths in a body: it is exact
for the paths of the control flow graph (`readsFirst_iff_blockReads`), and where it finds none,
every read of `x` in every run comes after a store of the same activation.
-/

namespace YHsys.Compiler

open Except (bind_eq_ok)

open Flat (Tree Reaches ReadsFirst Trail)

/-! ## Names that expressions read -/

theorem exprReads_tryFold_unary {op : UnaryOp} {e e' : Expr}
    (h : tryFoldExpr (.unary op e) = .ok e') : exprReads e' = exprReads e := by
  cases e <;> cases h <;> rfl

theorem exprReads_tryFold_binary {op : BinaryOp} {l r e' : Expr}
    (h : tryFoldExpr (.binary op l r) = .ok e') : exprReads e' = exprReads l ∪ exprReads r := by
  unfold tryFoldExpr at h
  split at h
  · rename_i heq
    cases heq
  · rename_i m n heq
    cases heq
    split_ifs at h
    · cases h
      rfl
    · obtain ⟨k, -, h⟩ := bind_eq_ok.mp h
      cases h
      rfl
  · cases h
    rfl

mutual
theorem exprReads_lowerExpr : ∀ {e e' : Expr}, lowerExpr e = .ok e' → exprReads e' = exprReads e
  | .int n, e', h => by
    cases h
    rfl
  | .var x, e', h => by
    cases h
    rfl
  | .array x index, e', h => by
    rw [lowerExpr] at h
    obtain ⟨i, hi, h⟩ := bind_eq_ok.mp h
    cases h
    rw [exprReads, exprReads, exprReads_lowerExpr hi]
  | .call f args, e', h => by
    rw [lowerExpr] at h
    obtain ⟨as, has, h⟩ := bind_eq_ok.mp h
    cases h
    rw [exprReads, exprReads, argsReads_lowerArgs has]
  | .unary op e, e', h => by
    rw [lowerExpr] at h
    obtain ⟨e1, he, h⟩ := bind_eq_ok.mp h
    rw [exprReads_tryFold_unary h, exprReads_lowerExpr he, exprReads]
  | .binary op l r, e', h => by
    rw [lowerExpr] at h
    obtain ⟨l', hl, h⟩ := bind_eq_ok.mp h
    obtain ⟨r', hr, h⟩ := bind_eq_ok.mp h
    rw [exprReads_tryFold_binary h, exprReads_lowerExpr hl, exprReads_lowerExpr hr, exprReads]

theorem argsReads_lowerArgs : ∀ {es es' : List Expr}, lowerArgs es = .ok es' →
    argsReads es' = argsReads es
  | [], es', h => by
    cases h
    rfl
  | e :: es, es', h => by
    rw [lowerArgs] at h
    obtain ⟨e', he, h⟩ := bind_eq_ok.mp h
    obtain ⟨es1, hes, h⟩ := bind_eq_ok.mp h
    cases h
    rw [argsReads, argsReads, exprReads_lowerExpr he, argsReads_lowerArgs hes]
end

theorem lowerLvalue_reads {target target' : LValue} (h : lowerLvalue target = .ok target') :
    target'.reads = target.reads ∧ target'.defs = target.defs ∧
      exprReads target'.toExpr = exprReads target.toExpr := by
  cases target with
  | var x =>
    cases h
    exact ⟨rfl, rfl, rfl⟩
  | array x index =>
    obtain ⟨i, hi, h⟩ := bind_eq_ok.mp h
    cases h
    have hreads := exprReads_lowerExpr hi
    exact ⟨hreads, rfl, by simp [LValue.toExpr, exprReads, hreads]⟩

/-! ## Paths that read a variable first -/

section

variable (x : String)

/-- Whether a statement other than `if` and `while` reads a variable before it writes it. -/
def Stmt.readsHere : Stmt → Bool
  | .varDecl _ none (some e) => x ∈ exprReads e
  | .assign target .set e => x ∈ exprReads e ∪ target.reads
  | .assign target _ e => x ∈ exprReads target.toExpr ∪ exprReads e ∪ target.reads
  | .incDec target _ => x ∈ exprReads target.toExpr ∪ target.reads
  | .builtin .printStr _ _ => false
  | .builtin _ (some e) _ => x ∈ exprReads e
  | .expr (.call _ args) => x ∈ argsReads args
  | .ret e => x ∈ exprReads e
  | _ => false

/-- Whether a statement other than `if` and `while` writes a variable. -/
def Stmt.writesHere : Stmt → Bool
  | .varDecl y none _ => y = x
  | .assign target _ _ => x ∈ target.defs
  | .incDec target _ => x ∈ target.defs
  | _ => false

mutual
/-- Some path through the statement comes out at its end and has not written the variable. -/
def Stmt.passes : Stmt → Bool
  | .ret _ => false
  | .ite c t e =>
    match c.truth with
    | some true => Stmt.blockPasses t
    | some false => e.passes
    | none => Stmt.blockPasses t || e.passes
  | .while _ _ => true
  | s => !s.writesHere x

def Stmt.blockPasses : List Stmt → Bool
  | [] => true
  | s :: rest => s.passes && Stmt.blockPasses rest

def Else.passes : Else → Bool
  | .none => true
  | .block b => Stmt.blockPasses b
  | .elif c t e =>
    match c.truth with
    | some true => Stmt.blockPasses t
    | some false => e.passes
    | none => Stmt.blockPasses t || e.passes
end

mutual
/-- Some path into the statement reads the variable before it writes it. -/
def Stmt.reads : Stmt → Bool
  | .ite c t e =>
    match c.truth with
    | some true => Stmt.blockReads t
    | some false => e.reads
    | none => x ∈ exprReads c || Stmt.blockReads t || e.reads
  | .while c body =>
    if c.truth = some false then false else x ∈ exprReads c || Stmt.blockReads body
  | s => s.readsHere x

def Stmt.blockReads : List Stmt → Bool
  | [] => false
  | s :: rest => s.reads || s.passes x && Stmt.blockReads rest

def Else.reads : Else → Bool
  | .none => false
  | .block b => Stmt.blockReads b
  | .elif c t e =>
    match c.truth with
    | some true => Stmt.blockReads t
    | some false => e.reads
    | none => x ∈ exprReads c || Stmt.blockReads t || e.reads
end

end

/-! ## The code between two states of the builder -/

section

variable {x : String}

/-- An operation after which `x` is not read without a value: it ends the function or writes
`x`. -/
def Action.settles (x : String) (a : Action) : Bool := a.exits || x ∈ a.defs

open Compiler.Action (defs exits settles uses)
open Stmt (blockReads passes reads)

/-- Between `b` and `b'` the builder emitted the code of a tree with a path to its end that does
not write `x` iff `c`, and one that reads `x` first iff `r`. -/
def Uses (x : String) (b b' : Builder) (c r : Bool) : Prop :=
  ∃ t, Emits b b' t ∧ t.completes (Action.settles x) = c ∧
    t.meets (Action.settles x) (fun a => x ∈ a.uses) (fun e => x ∈ exprReads e) = r

namespace Uses

variable {b b1 b2 b' : Builder} {c c' r r' : Bool}

theorem skip (b : Builder) : Uses x b b true false := ⟨.skip, .skip b, rfl, rfl⟩

theorem act (b : Builder) (a : Action) :
    Uses x b (b.add (.act a)) (!a.settles x) (x ∈ a.uses) := ⟨.act a, .act b a, rfl, rfl⟩

theorem seq (ht : Uses x b b1 c r) (hu : Uses x b1 b' c' r') :
    Uses x b b' (c && c') (r || c && r') := by
  obtain ⟨t, ht, rfl, rfl⟩ := ht
  obtain ⟨u, hu, rfl, rfl⟩ := hu
  exact ⟨.seq t u, ht.seq hu, rfl, rfl⟩

theorem ite {cond : Expr} {thenL elseL endL : Label}
    (hthen : thenL = ⟨b.labelFunc, .ifThen, b.labelId + 1⟩)
    (helse : elseL = ⟨b.labelFunc, .ifElse, b.labelId + 2⟩)
    (hend : endL = ⟨b.labelFunc, .ifEnd, b.labelId + 3⟩)
    (ht : Uses x (Emits.after b 3 [.ifGoto cond thenL, .goto elseL, .label thenL]) b1 c r)
    (hu : Uses x (Emits.after b1 0 [.goto endL, .label elseL]) b2 c' r') :
    Uses x b (b2.add (.label endL)) (c || c') (x ∈ exprReads cond || r || r') := by
  obtain ⟨t, ht, rfl, rfl⟩ := ht
  obtain ⟨u, hu, rfl, rfl⟩ := hu
  exact ⟨_, Emits.ite hthen helse hend ht hu, rfl, rfl⟩

theorem loop {cond : Expr} {condL bodyL endL : Label}
    (hcond : condL = ⟨b.labelFunc, .whileCond, b.labelId + 1⟩)
    (hbody : bodyL = ⟨b.labelFunc, .whileBody, b.labelId + 2⟩)
    (hend : endL = ⟨b.labelFunc, .whileEnd, b.labelId + 3⟩)
    (ht : Uses x (Emits.after b 3 [.label condL, .ifGoto cond bodyL, .goto endL, .label bodyL])
      b1 c r) :
    Uses x b (Emits.after b1 0 [.goto condL, .label endL]) true (x ∈ exprReads cond || r) := by
  obtain ⟨t, ht, -, rfl⟩ := ht
  exact ⟨_, Emits.loop hcond hbody hend ht, rfl, rfl⟩

end Uses

/-! ### Statements -/

variable {b b' : Builder}

theorem uses_store (x : String) (b : Builder) (target : LValue) (e : Expr) :
    Uses x b (b.add (storeInstr target e)) (!(x ∈ target.defs)) (x ∈ exprReads e ∪ target.reads) := by
  cases e <;> exact Uses.act b _

theorem uses_varDecl {y : String} {size : Option ℤ} {init : Option Expr}
    (h : lowerVarDecl b y size init = .ok b') :
    Uses x b b' (passes x (.varDecl y size init)) (reads x (.varDecl y size init)) := by
  cases size with
  | some n =>
    cases h
    exact Uses.act b _
  | none =>
    have hdefs : (!decide (x ∈ (LValue.var y).defs)) = !decide (y = x) := by
      simp [LValue.defs, eq_comm]
    cases init with
    | none =>
      cases h
      have hstore := uses_store x b (.var y) (.int 0)
      rwa [hdefs] at hstore
    | some e =>
      obtain ⟨e', he, h⟩ := bind_eq_ok.mp h
      cases h
      have hstore := uses_store x b (.var y) e'
      rw [hdefs, exprReads_lowerExpr he] at hstore
      simpa [passes, reads, Stmt.writesHere, Stmt.readsHere, LValue.reads] using hstore

theorem uses_assign {target : LValue} {op : AssignOp} {e : Expr}
    (h : lowerAssign b target op e = .ok b') :
    Uses x b b' (passes x (.assign target op e)) (reads x (.assign target op e)) := by
  obtain ⟨target', ht, h⟩ := bind_eq_ok.mp h
  obtain ⟨rhs, hr, h⟩ := bind_eq_ok.mp h
  obtain ⟨hreads, hdefs, hexpr⟩ := lowerLvalue_reads ht
  cases hop : op.binaryOp with
  | none =>
    rw [hop] at h
    cases h
    have hstore := uses_store x b target' rhs
    rw [hdefs, hreads, exprReads_lowerExpr hr] at hstore
    cases op with
    | set => exact hstore
    | _ => cases hop
  | some bop =>
    rw [hop] at h
    obtain ⟨e', he, h⟩ := bind_eq_ok.mp h
    cases h
    have hact : Uses x b _ _ _ := .act b (.assign target' e')
    simp only [settles, exits, defs, uses, Bool.false_or, hdefs, hreads,
      exprReads_tryFold_binary he, hexpr, exprReads_lowerExpr hr] at hact
    cases op with
    | set => cases hop
    | _ => exact hact

theorem uses_incDec {target : LValue} {op : IncDecOp} (h : lowerIncdec b target op = .ok b') :
    Uses x b b' (passes x (.incDec target op)) (reads x (.incDec target op)) := by
  obtain ⟨target', ht, h⟩ := bind_eq_ok.mp h
  obtain ⟨e', he, h⟩ := bind_eq_ok.mp h
  obtain ⟨hreads, hdefs, hexpr⟩ := lowerLvalue_reads ht
  cases h
  have hact : Uses x b _ _ _ := .act b (.assign target' e')
  simp only [settles, exits, defs, uses, Bool.false_or, hdefs, hreads,
    exprReads_tryFold_binary he, hexpr, exprReads, Finset.union_empty] at hact
  exact hact

theorem uses_builtin {name : BuiltinName} {argExpr : Option Expr} {argString : Option String}
    (h : lowerCall b name argExpr argString = .ok b') :
    Uses x b b' (passes x (.builtin name argExpr argString))
      (reads x (.builtin name argExpr argString)) := by
  cases name with
  | printStr =>
    cases h
    exact ⟨.act _, ⟨rfl, by simp [Tree.code, Flat.labels], by simp [Tree.code, Flat.labels],
      le_rfl, rfl, [_], rfl⟩, rfl, rfl⟩
  | printInt | pause =>
    obtain ⟨e', he, h⟩ := bind_eq_ok.mp h
    cases h
    cases argExpr with
    | none => cases he
    | some e =>
      show Uses x b _ true (decide (x ∈ exprReads e))
      rw [← exprReads_lowerExpr he]
      exact Uses.act b _

theorem lowerExpr_call {e : Expr} {f : String} {args : List Expr}
    (h : lowerExpr e = .ok (.call f args)) : ∃ as, e = .call f as ∧ lowerArgs as = .ok args := by
  cases e with
  | int n => cases h
  | var y => cases h
  | array y index =>
    obtain ⟨i, -, h⟩ := bind_eq_ok.mp h
    cases h
  | call g as =>
    obtain ⟨as', has, h⟩ := bind_eq_ok.mp h
    cases h
    exact ⟨as, rfl, has⟩
  | unary op a =>
    obtain ⟨a', -, h⟩ := bind_eq_ok.mp h
    cases a' <;> cases h
  | binary op l r =>
    obtain ⟨l', -, h⟩ := bind_eq_ok.mp h
    obtain ⟨r', -, h⟩ := bind_eq_ok.mp h
    unfold tryFoldExpr at h
    split at h
    · rename_i heq
      cases heq
    · split_ifs at h
      · cases h
      · obtain ⟨k, -, h⟩ := bind_eq_ok.mp h
        cases h
    · cases h

theorem uses_exprStmt {e : Expr} (h : lowerExprStmt b e = .ok b') :
    Uses x b b' (passes x (.expr e)) (reads x (.expr e)) := by
  obtain ⟨e', he, hb'⟩ := bind_eq_ok.mp h
  by_cases hcall : ∃ f args, e' = .call f args
  · obtain ⟨f, args, rfl⟩ := hcall
    obtain ⟨as, rfl, has⟩ := lowerExpr_call he
    cases hb'
    show Uses x b _ true (decide (x ∈ argsReads as))
    rw [← argsReads_lowerArgs has]
    have hact : Uses x b _ _ _ := .act b (.call f args none)
    simpa [settles, exits, defs, uses] using hact
  · -- nothing is emitted
    have hb : b' = b := by
      cases e' with
      | call f args => exact absurd ⟨f, args, rfl⟩ hcall
      | _ =>
        cases hb'
        rfl
    have hreads : reads x (.expr e) = false := by
      cases e with
      | call f as =>
        obtain ⟨as', -, he⟩ := bind_eq_ok.mp he
        cases he
        exact absurd ⟨f, as', rfl⟩ hcall
      | _ => rfl
    rw [hreads, hb]
    exact .skip b

theorem uses_return {e : Expr} (h : lowerReturn b e = .ok b') :
    Uses x b b' false (x ∈ exprReads e) := by
  obtain ⟨e', he, h⟩ := bind_eq_ok.mp h
  cases h
  have hact := Emits.act b (b.returnOp e')
  refine ⟨.act (b.returnOp e'), ⟨hact.code, hact.labels, hact.nodup, hact.le, hact.func,
    hact.constants⟩, ?_, ?_⟩
  · rw [Tree.completes, settles, returnOp_exits]
    rfl
  · rw [Tree.meets, ← exprReads_lowerExpr he, Builder.returnOp]
    split <;> rfl

theorem uses_if {cond : Expr} {lowerThen lowerElse : Builder → Except PyError Builder}
    {c c' r r' : Bool} (hthen : ∀ {b b'}, lowerThen b = .ok b' → Uses x b b' c r)
    (helse : ∀ {b b'}, lowerElse b = .ok b' → Uses x b b' c' r')
    (h : lowerIf b cond lowerThen lowerElse = .ok b') :
    Uses x b b'
      (match cond.truth with | some true => c | some false => c' | none => c || c')
      (match cond.truth with
        | some true => r | some false => r' | none => x ∈ exprReads cond || r || r') := by
  obtain ⟨cond', hc, h⟩ := bind_eq_ok.mp h
  rw [truthyConst_lowerExpr hc] at h
  cases hv : cond.truth with
  | some v =>
    rw [hv] at h
    cases v with
    | true => exact hthen h
    | false => exact helse h
  | none =>
    rw [hv] at h
    obtain ⟨b1, hb1, h⟩ := bind_eq_ok.mp h
    obtain ⟨b2, hb2, h⟩ := bind_eq_ok.mp h
    cases h
    have ht := hthen hb1
    have he := helse hb2
    simp only [Builder.add, List.append_assoc, List.cons_append, List.nil_append] at ht he
    rw [← exprReads_lowerExpr hc]
    exact .ite rfl rfl rfl ht he

theorem uses_while {cond : Expr} {lowerBody : Builder → Except PyError Builder} {c r : Bool}
    (hbody : ∀ {b b'}, lowerBody b = .ok b' → Uses x b b' c r)
    (h : lowerWhile b cond lowerBody = .ok b') :
    Uses x b b' true (if cond.truth = some false then false else x ∈ exprReads cond || r) := by
  obtain ⟨cond', hc, h⟩ := bind_eq_ok.mp h
  rw [truthyConst_lowerExpr hc] at h
  split_ifs at h ⊢
  · cases h
    exact .skip b
  · obtain ⟨b1, hb1, h⟩ := bind_eq_ok.mp h
    cases h
    have ht := hbody hb1
    simp only [Builder.add, List.append_assoc, List.cons_append, List.nil_append] at ht ⊢
    rw [← exprReads_lowerExpr hc]
    exact .loop rfl rfl rfl ht

mutual
theorem uses_stmt : ∀ {s : Stmt} {b b' : Builder}, lowerStmt s b = .ok b' →
    Uses x b b' (s.passes x) (s.reads x)
  | .varDecl y size init, b, b', h => by
    rw [lowerStmt] at h
    exact uses_varDecl h
  | .assign target op e, b, b', h => by
    rw [lowerStmt] at h
    exact uses_assign h
  | .incDec target op, b, b', h => by
    rw [lowerStmt] at h
    exact uses_incDec h
  | .builtin name argExpr argString, b, b', h => by
    rw [lowerStmt] at h
    exact uses_builtin h
  | .expr e, b, b', h => by
    rw [lowerStmt] at h
    exact uses_exprStmt h
  | .ite c t e, b, b', h => by
    rw [lowerStmt] at h
    rw [passes, reads]
    exact uses_if (fun h => uses_block h) (fun h => uses_else h) h
  | .while c body, b, b', h => by
    rw [lowerStmt] at h
    rw [passes, reads]
    exact uses_while (fun h => uses_block h) h
  | .ret e, b, b', h => by
    rw [lowerStmt] at h
    exact uses_return h
  | .empty, b, b', h => by
    rw [lowerStmt] at h
    cases h
    exact .skip b

theorem uses_block : ∀ {s : List Stmt} {b b' : Builder}, lowerBlock s b = .ok b' →
    Uses x b b' (Stmt.blockPasses x s) (blockReads x s)
  | [], b, b', h => by
    rw [lowerBlock] at h
    cases h
    exact .skip b
  | s :: rest, b, b', h => by
    rw [Stmt.blockPasses, blockReads]
    by_cases hs : ∃ e, s = .ret e
    · obtain ⟨e, rfl⟩ := hs
      rw [lowerBlock, lowerStmt] at h
      rw [passes, reads, Bool.false_and, Bool.false_and, Bool.or_false]
      exact uses_return h
      all_goals nofun
    · rw [lowerBlock_cons fun e he => hs ⟨e, he⟩] at h
      obtain ⟨b1, hb1, h⟩ := bind_eq_ok.mp h
      exact (uses_stmt hb1).seq (uses_block h)

theorem uses_else : ∀ {e : Else} {b b' : Builder}, lowerElse e b = .ok b' →
    Uses x b b' (e.passes x) (e.reads x)
  | .none, b, b', h => by
    rw [lowerElse] at h
    cases h
    exact .skip b
  | .block s, b, b', h => by
    rw [lowerElse] at h
    rw [Else.passes, Else.reads]
    exact uses_block h
  | .elif c t e, b, b', h => by
    rw [lowerElse] at h
    rw [Else.passes, Else.reads]
    exact uses_if (fun h => uses_block h) (fun h => uses_else h) h
end

/-! ## The result -/

/-- The instruction reads `x`. -/
def readsName (x : String) : Instr → Bool :=
  Flat.Instr.holds (fun a => x ∈ a.uses) fun e => x ∈ exprReads e

/-- The instruction writes `x`. -/
def writesName (x : String) : Instr → Bool :=
  Flat.Instr.holds (fun a => x ∈ a.defs) fun _ => false

variable {cs : List IrConstant} {k : ℕ} {isMain : Bool} {f : String}
  {cids : cs.map (·.cid) = List.range k} {body : Block}

theorem finalize_eq (b : Builder) : ∃ rest, b.finalize = b.instructions ++ rest ∧
    (rest = [] ∨ ∃ a : Action, rest = [.act a] ∧ a.exits = true ∧ a.uses = ∅) := by
  unfold Builder.finalize
  split_ifs
  · exact ⟨[], by simp, .inl rfl⟩
  · refine ⟨_, rfl, .inr ⟨_, rfl, returnOp_exits b _, ?_⟩⟩
    unfold Builder.returnOp
    split <;> rfl

theorem readsFirst_iff_blockReads (h : lowerBlock body (.new cs k isMain f cids) = .ok b) :
    ReadsFirst exits (readsName x) (writesName x) b.finalize 0 ↔
      blockReads x body = true := by
  obtain ⟨t, ht, -, hmeets⟩ : Uses x _ _ _ _ := uses_block h
  have hcode : b.instructions = t.code := ht.code
  obtain ⟨rest, hfin, hrest⟩ := finalize_eq b
  rw [hcode] at hfin
  have hnodup : (Flat.labels b.finalize).Nodup := by
    have hnil : Flat.labels rest = [] := by
      rcases hrest with rfl | ⟨a, rfl, -⟩ <;> rfl
    rw [hfin, Flat.labels_append, hnil, List.append_nil]
    exact ht.nodup
  have hu : Flat.UniqueLabels b.finalize := Flat.uniqueLabels_of_nodup hnodup
  have hat : Flat.At b.finalize 0 t.code := by
    rw [hfin]
    exact (Flat.At.refl _).left
  -- the instruction after the code, if there is one, neither goes on nor reads
  have hlast : ∀ ins, b.finalize[t.code.length]? = some ins →
      ∃ a : Action, ins = .act a ∧ a.exits = true ∧ a.uses = ∅ := by
    intro ins hins
    rw [hfin, List.getElem?_append_right le_rfl, Nat.sub_self] at hins
    rcases hrest with rfl | ⟨a, rfl, hexits, huses⟩
    · cases hins
    · cases hins
      exact ⟨a, rfl, hexits, huses⟩
  have hend : ∀ r, ¬ Flat.Goes (settles x) b.finalize (0 + t.code.length) r := by
    intro r hgo
    rw [Nat.zero_add] at hgo
    cases hgo with
    | act hp ha =>
      obtain ⟨a, heq, hexits, -⟩ := hlast _ hp
      cases heq
      rw [settles, hexits] at ha
      cases ha
    | label hp | goto hp | taken hp | passed hp =>
      obtain ⟨a, heq, -⟩ := hlast _ hp
      cases heq
  rw [← hmeets, Tree.meets_iff hat, writesName, Flat.readsFirst_iff]
  constructor
  · rintro ⟨q, ins, hq, hins, hr⟩
    rcases Tree.live_or_end hu hat hend hq with hl | rfl
    · exact ⟨q, ins, hl, hins, hr⟩
    · rw [Nat.zero_add] at hins
      obtain ⟨a, rfl, -, huses⟩ := hlast _ hins
      simp [readsName, Flat.Instr.holds, huses] at hr
  · rintro ⟨q, ins, hl, hins, hr⟩
    exact ⟨q, ins, hl.reaches hu hat, hins, hr⟩

/-- Every read of `x` in every run of the function comes after a store to `x`, if no path of the
body reads `x` first; and the paths of the body are those of its code. -/
theorem reads_initialised (h : lowerBlock body (.new cs k isMain f cids) = .ok b) (x : String) :
    (ReadsFirst Action.exits (readsName x) (writesName x) b.finalize 0 ↔
      Stmt.blockReads x body = true) ∧
    (Stmt.blockReads x body = false → ∀ (V : Type) (S : OpSem V) call constants (σ τ : Store V)
      trail q ins, Trail (irSem S call constants) b.finalize 0 σ trail q τ →
        b.finalize[q]? = some ins → readsName x ins = true →
          ∃ j ∈ trail, ∃ ins', b.finalize[j]? = some ins' ∧ writesName x ins' = true) := by
  have hiff := readsFirst_iff_blockReads (x := x) h
  refine ⟨hiff, fun hno V S call constants σ τ trail q ins htrail hins hr => ?_⟩
  have hfirst : ReadsFirst Action.exits (readsName x) (writesName x) b.finalize q := .here hins hr
  rcases htrail.written (fun _ _ _ _ ha => exits_not_normal ha) hfirst with hstart | hwritten
  · rw [hiff, hno] at hstart
    cases hstart
  · exact hwritten

end

/-- `int x = 1; if (c) { x = 2; } return x;`. -/
def declaredBody : Block :=
  [.varDecl "x" none (some (.int 1)),
    .ite (.var "c") [.assign (.var "x") .set (.int 2)] .none, .ret (.var "x")]

theorem reads_initialised_declared : ∃ b,
    lowerBlock declaredBody (.new [] 0 false "f" rfl) = .ok b ∧
      ¬ ReadsFirst Action.exits (readsName "x") (writesName "x") b.finalize 0 := by
  have h : lowerBlock declaredBody (.new [] 0 false "f" rfl) = .ok _ := rfl
  refine ⟨_, h, fun hfirst => ?_⟩
  have hreads : Stmt.blockReads "x" declaredBody = true := (reads_initialised h "x").1.mp hfirst
  exact absurd hreads (by decide +kernel)

/-- `int f(int c) { if (c) { int x = 1; } return x; }`, called from `main` with 0. -/
def undeclaredProgram : Program where
  functions := [
    ⟨"f", ["c"], [.ite (.var "c") [.varDecl "x" none (some (.int 1))] .none, .ret (.var "x")]⟩,
    ⟨"main", [], [.ret (.call "f" [.int 0])]⟩]

/-- The program is accepted. When `c` is 0, `f` returns what is in the slot of `x`: no instruction
that was executed wrote it. -/
theorem undeclaredProgram_reads : ∃ info m f,
    analyze undeclaredProgram = .ok info ∧ lowerProgram undeclaredProgram info = .ok m ∧
    m.function "f" = some f ∧ f.instructions[7]? = some (.act (.returnExpr (.var "x"))) ∧
    ∀ σ : Store ℤ, σ.vars "c" = 0 →
      Trail (irSem pySem (fun _ _ => pure 0) []) f.instructions 0 σ [0, 1, 5, 6] 7 σ ∧
      ∀ j ∈ [0, 1, 5, 6], ∀ ins, f.instructions[j]? = some ins → writesName "x" ins = false := by
  refine ⟨_, _, _, rfl, rfl, rfl, rfl, fun σ hc => ⟨?_, ?_⟩⟩
  · have htest : (test pySem (fun _ _ => pure 0) (.var "c") σ).Obs [] (some false) := by
      rw [test, eval, Beh.pure_bind', hc]
      exact Beh.obs_pure_some.mpr ⟨rfl, rfl⟩
    show Trail _ _ 0 σ ([] ++ [0] ++ [1] ++ [5] ++ [6]) 7 σ
    exact .tail (.tail (.tail (.tail .refl (.passed rfl htest)) (.goto rfl rfl)) (.label rfl))
      (.label rfl)
  · intro j hj ins hins
    simp only [List.mem_cons, List.not_mem_nil, or_false] at hj
    rcases hj with rfl | rfl | rfl | rfl <;> cases hins <;> rfl

end YHsys.Compiler
