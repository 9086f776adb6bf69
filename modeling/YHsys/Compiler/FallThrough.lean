import YHsys.Compiler.Execution
import YHsys.Compiler.Lowering
import YHsys.Compiler.Optimizer
import YHsys.Lib.FlatReach
import YHsys.Lib.FlatSim

/-!
# Running past the end of a function

`finalize` ends a function with `return 0` iff `lower_block` met no `return` at all. Whether
control can come out at the end of a body depends on its paths (`Stmt.blockCompletes`), and
the one does not follow from the other: a body with a `return` on some of its paths only gets
no `return 0`, and its other paths run past the end.

The code emitted between two states of the builder is that of a tree, and the tree completes
exactly as the statement does (`Flows`); where control goes in the code of a tree is in
`Lib.FlatReach`.
-/

namespace YHsys.Compiler

open Except (bind_eq_ok)

open Flat (Tree Reaches)

/-! ## Conditions that are constants -/

/-- The value of an expression of constants; a division by 0 has none. -/
def Expr.const? : Expr → Option ℤ
  | .int n => some n
  | .unary op e => e.const?.map (foldUnary op)
  | .binary op l r => do
      let m ← l.const?
      let n ← r.const?
      if op.isDivision ∧ n = 0 then none else (foldBinary op m n).toOption
  | _ => none

/-- Whether a condition holds, if it is a constant. -/
def Expr.truth (e : Expr) : Option Bool := e.const?.map (· ≠ 0)

/-- A constant is its own value, and nothing else has one. -/
def Expr.intValue : Expr → Option ℤ
  | .int n => some n
  | _ => none

theorem intValue_tryFold_unary {op : UnaryOp} {e e' : Expr} (h : tryFoldExpr (.unary op e) = .ok e') :
    e'.intValue = e.intValue.map (foldUnary op) := by
  cases e <;> cases h <;> rfl

theorem intValue_tryFold_binary {op : BinaryOp} {l r e' : Expr}
    (h : tryFoldExpr (.binary op l r) = .ok e') :
    e'.intValue = l.intValue.bind fun m => r.intValue.bind fun n =>
      if op.isDivision ∧ n = 0 then none else (foldBinary op m n).toOption := by
  unfold tryFoldExpr at h
  split at h
  · rename_i heq
    cases heq
  · rename_i m n heq
    cases heq
    simp only [Expr.intValue, Option.bind_some]
    split_ifs at h ⊢
    · cases h
      rfl
    · obtain ⟨k, hk, h⟩ := bind_eq_ok.mp h
      cases h
      rw [hk]
      rfl
  · rename_i hu hb
    cases h
    cases l <;> cases r <;> first | rfl | exact absurd rfl (hb _ _ _)

theorem intValue_lowerExpr : ∀ {e e' : Expr}, lowerExpr e = .ok e' → e'.intValue = e.const?
  | .int n, e', h => by
    cases h
    rfl
  | .var x, e', h => by
    cases h
    rfl
  | .array x index, e', h => by
    rw [lowerExpr] at h
    obtain ⟨i, -, h⟩ := bind_eq_ok.mp h
    cases h
    rfl
  | .call f args, e', h => by
    rw [lowerExpr] at h
    obtain ⟨as, -, h⟩ := bind_eq_ok.mp h
    cases h
    rfl
  | .unary op e, e', h => by
    rw [lowerExpr] at h
    obtain ⟨e1, he, h⟩ := bind_eq_ok.mp h
    rw [intValue_tryFold_unary h, intValue_lowerExpr he, Expr.const?]
  | .binary op l r, e', h => by
    rw [lowerExpr] at h
    obtain ⟨l', hl, h⟩ := bind_eq_ok.mp h
    obtain ⟨r', hr, h⟩ := bind_eq_ok.mp h
    rw [intValue_tryFold_binary h, intValue_lowerExpr hl, intValue_lowerExpr hr, Expr.const?]
    rfl

theorem truthyConst_lowerExpr {e e' : Expr} (h : lowerExpr e = .ok e') :
    truthyConst e' = e.truth := by
  rw [Expr.truth, ← intValue_lowerExpr h]
  cases e' <;> rfl

/-! ## Paths through a body -/

mutual
/-- Some path through the statement comes out at its end. A loop may always end, whatever its
condition is. -/
def Stmt.completes : Stmt → Bool
  | .ret _ => false
  | .ite c t e =>
    match c.truth with
    | some true => Stmt.blockCompletes t
    | some false => e.completes
    | none => Stmt.blockCompletes t || e.completes
  | _ => true

def Stmt.blockCompletes : List Stmt → Bool
  | [] => true
  | s :: rest => s.completes && Stmt.blockCompletes rest

def Else.completes : Else → Bool
  | .none => true
  | .block b => Stmt.blockCompletes b
  | .elif c t e =>
    match c.truth with
    | some true => Stmt.blockCompletes t
    | some false => e.completes
    | none => Stmt.blockCompletes t || e.completes
end

mutual
/-- There is a `return` in the statement, and no constant condition cuts it off. -/
def Stmt.returns : Stmt → Bool
  | .ret _ => true
  | .ite c t e =>
    match c.truth with
    | some true => Stmt.blockReturns t
    | some false => e.returns
    | none => Stmt.blockReturns t || e.returns
  | .while c body => if c.truth = some false then false else Stmt.blockReturns body
  | _ => false

def Stmt.blockReturns : List Stmt → Bool
  | [] => false
  | s :: rest => s.returns || Stmt.blockReturns rest

def Else.returns : Else → Bool
  | .none => false
  | .block b => Stmt.blockReturns b
  | .elif c t e =>
    match c.truth with
    | some true => Stmt.blockReturns t
    | some false => e.returns
    | none => Stmt.blockReturns t || e.returns
end

/-! ## The code between two states of the builder -/

/-- Between `b` and `b'` the builder emitted the code of a tree that completes iff `c`, and met
a `return` iff `r`. -/
def Flows (b b' : Builder) (c r : Bool) : Prop :=
  (∃ t, Emits b b' t ∧ t.completes Action.exits = c ∧ (r = true → t.code ≠ [])) ∧
    b'.hasReturn = (b.hasReturn || r) ∧ b'.isMain = b.isMain

namespace Flows

variable {b b1 b2 b' : Builder} {c c' r r' : Bool}

theorem skip (b : Builder) : Flows b b true false :=
  ⟨⟨.skip, .skip b, rfl, nofun⟩, by simp, rfl⟩

theorem act (b : Builder) {a : Action} (ha : a.exits = false) :
    Flows b (b.add (.act a)) true false :=
  ⟨⟨.act a, .act b a, by simp [Tree.completes, ha], nofun⟩, by simp [Builder.add], rfl⟩

theorem seq (ht : Flows b b1 c r) (hu : Flows b1 b' c' r') :
    Flows b b' (c && c') (r || r') := by
  obtain ⟨⟨t, ht, rfl, hne⟩, hret, hmain⟩ := ht
  obtain ⟨⟨u, hu, rfl, hne'⟩, hret', hmain'⟩ := hu
  refine ⟨⟨.seq t u, ht.seq hu, rfl, fun hr => ?_⟩, by rw [hret', hret, Bool.or_assoc],
    hmain'.trans hmain⟩
  rw [Tree.code, Ne, List.append_eq_nil_iff, not_and_or]
  exact (Bool.or_eq_true_iff.mp hr).imp hne hne'

theorem ite {cond : Expr} {thenL elseL endL : Label}
    (hthen : thenL = ⟨b.labelFunc, .ifThen, b.labelId + 1⟩)
    (helse : elseL = ⟨b.labelFunc, .ifElse, b.labelId + 2⟩)
    (hend : endL = ⟨b.labelFunc, .ifEnd, b.labelId + 3⟩)
    (ht : Flows (Emits.after b 3 [.ifGoto cond thenL, .goto elseL, .label thenL]) b1 c r)
    (hu : Flows (Emits.after b1 0 [.goto endL, .label elseL]) b2 c' r') :
    Flows b (b2.add (.label endL)) (c || c') (r || r') := by
  obtain ⟨⟨t, ht, rfl, -⟩, hret, hmain⟩ := ht
  obtain ⟨⟨u, hu, rfl, -⟩, hret', hmain'⟩ := hu
  simp only [Emits.after] at hret hret' hmain hmain'
  refine ⟨⟨_, Emits.ite hthen helse hend ht hu, rfl, by simp [Tree.code]⟩, ?_, hmain'.trans hmain⟩
  simp only [Builder.add]
  rw [hret', hret, Bool.or_assoc]

theorem loop {cond : Expr} {condL bodyL endL : Label}
    (hcond : condL = ⟨b.labelFunc, .whileCond, b.labelId + 1⟩)
    (hbody : bodyL = ⟨b.labelFunc, .whileBody, b.labelId + 2⟩)
    (hend : endL = ⟨b.labelFunc, .whileEnd, b.labelId + 3⟩)
    (ht : Flows (Emits.after b 3 [.label condL, .ifGoto cond bodyL, .goto endL, .label bodyL])
      b1 c r) :
    Flows b (Emits.after b1 0 [.goto condL, .label endL]) true r := by
  obtain ⟨⟨t, ht, -⟩, hret, hmain⟩ := ht
  exact ⟨⟨_, Emits.loop hcond hbody hend ht, rfl, by simp [Tree.code]⟩, hret, hmain⟩

end Flows

/-! ### Statements -/

variable {b b' : Builder}

theorem flows_store (b : Builder) (target : LValue) (e : Expr) :
    Flows b (b.add (storeInstr target e)) true false := by
  cases e <;> exact .act b rfl

theorem flows_varDecl {x : String} {size : Option ℤ} {init : Option Expr}
    (h : lowerVarDecl b x size init = .ok b') : Flows b b' true false := by
  cases size with
  | some n =>
    cases h
    exact .act b rfl
  | none =>
    cases init with
    | none =>
      cases h
      exact flows_store b _ _
    | some e =>
      obtain ⟨e', -, h⟩ := bind_eq_ok.mp h
      cases h
      exact flows_store b _ _

theorem flows_assign {target : LValue} {op : AssignOp} {e : Expr}
    (h : lowerAssign b target op e = .ok b') : Flows b b' true false := by
  obtain ⟨target', -, h⟩ := bind_eq_ok.mp h
  obtain ⟨rhs, -, h⟩ := bind_eq_ok.mp h
  cases hop : op.binaryOp with
  | none =>
    rw [hop] at h
    cases h
    exact flows_store b _ _
  | some bop =>
    rw [hop] at h
    obtain ⟨e', -, h⟩ := bind_eq_ok.mp h
    cases h
    exact .act b rfl

theorem flows_incDec {target : LValue} {op : IncDecOp} (h : lowerIncdec b target op = .ok b') :
    Flows b b' true false := by
  obtain ⟨target', -, h⟩ := bind_eq_ok.mp h
  obtain ⟨e', -, h⟩ := bind_eq_ok.mp h
  cases h
  exact .act b rfl

theorem flows_builtin {name : BuiltinName} {argExpr : Option Expr} {argString : Option String}
    (h : lowerCall b name argExpr argString = .ok b') : Flows b b' true false := by
  cases name with
  | printStr =>
    cases h
    exact ⟨⟨.act _, ⟨rfl, by simp [Tree.code, Flat.labels], by simp [Tree.code, Flat.labels],
      le_rfl, rfl, [_], rfl⟩, rfl, nofun⟩, by simp [Builder.add], rfl⟩
  | printInt | pause =>
    obtain ⟨e', -, h⟩ := bind_eq_ok.mp h
    cases h
    exact .act b rfl

theorem flows_exprStmt {e : Expr} (h : lowerExprStmt b e = .ok b') : Flows b b' true false := by
  obtain ⟨e', -, h⟩ := bind_eq_ok.mp h
  cases e' with
  | call f args =>
    cases h
    exact .act b rfl
  | _ =>
    cases h
    exact .skip b

theorem returnOp_exits (b : Builder) (e : Expr) : (b.returnOp e).exits = true := by
  unfold Builder.returnOp
  split <;> rfl

theorem flows_return {e : Expr} (h : lowerReturn b e = .ok b') : Flows b b' false true := by
  obtain ⟨e', -, h⟩ := bind_eq_ok.mp h
  cases h
  have hact := Emits.act b (b.returnOp e')
  refine ⟨⟨.act (b.returnOp e'), ⟨hact.code, hact.labels, hact.nodup, hact.le, hact.func,
    hact.constants⟩, ?_, by simp [Tree.code]⟩, by simp, rfl⟩
  rw [Tree.completes, returnOp_exits]
  rfl

theorem flows_if {cond : Expr} {lowerThen lowerElse : Builder → Except PyError Builder}
    {c c' r r' : Bool} (hthen : ∀ {b b'}, lowerThen b = .ok b' → Flows b b' c r)
    (helse : ∀ {b b'}, lowerElse b = .ok b' → Flows b b' c' r')
    (h : lowerIf b cond lowerThen lowerElse = .ok b') :
    Flows b b'
      (match cond.truth with | some true => c | some false => c' | none => c || c')
      (match cond.truth with | some true => r | some false => r' | none => r || r') := by
  obtain ⟨cond', hc, h⟩ := bind_eq_ok.mp h
  rw [truthyConst_lowerExpr hc] at h
  cases hv : cond.truth with
  | some v =>
    rw [hv] at h
    cases v with
    | true => exact hthen h
    | false => exact helse h
  | none =>
    rw [hv] at h
    obtain ⟨b1, hb1, h⟩ := bind_eq_ok.mp h
    obtain ⟨b2, hb2, h⟩ := bind_eq_ok.mp h
    cases h
    have ht := hthen hb1
    have he := helse hb2
    simp only [Builder.add, List.append_assoc, List.cons_append, List.nil_append] at ht he
    exact .ite rfl rfl rfl ht he

theorem flows_while {cond : Expr} {lowerBody : Builder → Except PyError Builder} {c r : Bool}
    (hbody : ∀ {b b'}, lowerBody b = .ok b' → Flows b b' c r)
    (h : lowerWhile b cond lowerBody = .ok b') :
    Flows b b' true (if cond.truth = some false then false else r) := by
  obtain ⟨cond', hc, h⟩ := bind_eq_ok.mp h
  rw [truthyConst_lowerExpr hc] at h
  split_ifs at h ⊢
  · cases h
    exact .skip b
  · obtain ⟨b1, hb1, h⟩ := bind_eq_ok.mp h
    cases h
    have ht := hbody hb1
    simp only [Builder.add, List.append_assoc, List.cons_append, List.nil_append] at ht ⊢
    exact .loop rfl rfl rfl ht

mutual
theorem flows_stmt : ∀ {s : Stmt} {b b' : Builder}, lowerStmt s b = .ok b' →
    Flows b b' s.completes s.returns
  | .varDecl x size init, b, b', h => by
    rw [lowerStmt] at h
    exact flows_varDecl h
  | .assign target op e, b, b', h => by
    rw [lowerStmt] at h
    exact flows_assign h
  | .incDec target op, b, b', h => by
    rw [lowerStmt] at h
    exact flows_incDec h
  | .builtin name argExpr argString, b, b', h => by
    rw [lowerStmt] at h
    exact flows_builtin h
  | .expr e, b, b', h => by
    rw [lowerStmt] at h
    exact flows_exprStmt h
  | .ite c t e, b, b', h => by
    rw [lowerStmt] at h
    rw [Stmt.completes, Stmt.returns]
    exact flows_if (fun h => flows_block h) (fun h => flows_else h) h
  | .while c body, b, b', h => by
    rw [lowerStmt] at h
    rw [Stmt.returns]
    exact flows_while (fun h => flows_block h) h
  | .ret e, b, b', h => by
    rw [lowerStmt] at h
    exact flows_return h
  | .empty, b, b', h => by
    rw [lowerStmt] at h
    cases h
    exact .skip b

theorem flows_block : ∀ {s : List Stmt} {b b' : Builder}, lowerBlock s b = .ok b' →
    Flows b b' (Stmt.blockCompletes s) (Stmt.blockReturns s)
  | [], b, b', h => by
    rw [lowerBlock] at h
    cases h
    exact .skip b
  | s :: rest, b, b', h => by
    rw [Stmt.blockCompletes, Stmt.blockReturns]
    by_cases hs : ∃ e, s = .ret e
    · obtain ⟨e, rfl⟩ := hs
      rw [lowerBlock, lowerStmt] at h
      exact flows_return h
    · rw [lowerBlock_cons fun e he => hs ⟨e, he⟩] at h
      obtain ⟨b1, hb1, h⟩ := bind_eq_ok.mp h
      exact (flows_stmt hb1).seq (flows_block h)

theorem flows_else : ∀ {e : Else} {b b' : Builder}, lowerElse e b = .ok b' →
    Flows b b' e.completes e.returns
  | .none, b, b', h => by
    rw [lowerElse] at h
    cases h
    exact .skip b
  | .block s, b, b', h => by
    rw [lowerElse] at h
    rw [Else.completes, Else.returns]
    exact flows_block h
  | .elif c t e, b, b', h => by
    rw [lowerElse] at h
    rw [Else.completes, Else.returns]
    exact flows_if (fun h => flows_block h) (fun h => flows_else h) h
end

/-! ## The end of the code -/

/-- `goto`, `sys_exit_expr` and `return_expr`: nothing has to follow them. -/
def leaves : Instr → Bool
  | .goto _ => true
  | .act a => a.exits
  | _ => false

/-- Every instruction that control reaches jumps, ends the function or has one after it. -/
def NoFallThrough (code : List Instr) : Prop :=
  ∀ i ins, Reaches Action.exits code 0 i → code[i]? = some ins →
    leaves ins = true ∨ i + 1 < code.length

theorem goes_next {code : List Instr} {i : ℕ} {ins : Instr} (h : code[i]? = some ins)
    (hl : leaves ins = false) : Flat.Goes Action.exits code i (i + 1) := by
  cases ins with
  | act a => exact .act h hl
  | label l => exact .label h
  | goto l => cases hl
  | ifGoto c l => exact .passed h

theorem noFallThrough_iff_lt {code : List Instr} (hne : code ≠ []) :
    NoFallThrough code ↔ ∀ q, Reaches Action.exits code 0 q → q < code.length := by
  constructor
  · intro h q hq
    induction hq with
    | refl => exact List.length_pos_of_ne_nil hne
    | tail hr hg _ =>
      cases hg with
      | act hp ha => exact (h _ _ hr hp).resolve_left fun hl => by simp [leaves, ha] at hl
      | label hp => exact (h _ _ hr hp).resolve_left nofun
      | goto hp hl => exact (List.getElem?_eq_some_iff.mp (Flat.find_some hl)).1
      | taken hp hl => exact (List.getElem?_eq_some_iff.mp (Flat.find_some hl)).1
      | passed hp => exact (h _ _ hr hp).resolve_left nofun
  · intro h i ins hi hins
    cases hl : leaves ins with
    | true => exact .inl rfl
    | false => exact .inr (h _ (hi.trans (goes_next hins hl).reaches))

theorem noFallThrough_concat (code : List Instr) {a : Action} (ha : a.exits = true) :
    NoFallThrough (code ++ [.act a]) := by
  intro i ins _ hins
  have hi := (List.getElem?_eq_some_iff.mp hins).1
  rcases Nat.lt_or_ge (i + 1) (code ++ [(.act a : Instr)]).length with hlt | hge
  · exact .inr hlt
  · have : i = code.length := by
      rw [List.length_append, List.length_singleton] at hi hge
      omega
    subst this
    rw [List.getElem?_concat_length] at hins
    cases hins
    exact .inl ha

theorem exits_not_normal {V : Type} {S : OpSem V} {call : String → List V → Beh (Event V) V}
    {cs : List IrConstant} {a : Action} {σ σ' : Store V} {t : List (Event V)}
    (ha : a.exits = true) : ¬ ((irSem S call cs).act a σ).Obs t (some (.normal σ')) := by
  intro h
  cases a with
  | sysExitExpr e | returnExpr e =>
    obtain ⟨_, _, v, -, -, hv⟩ := Beh.obs_bind_some.mp h
    cases (Beh.obs_pure_some.mp hv).2
  | _ => cases ha

theorem NoFallThrough.not_normal {code : List Instr} (h : NoFallThrough code) (hne : code ≠ [])
    {V : Type} (S : OpSem V) (call : String → List V → Beh (Event V) V) (cs : List IrConstant)
    (σ σ' : Store V) (t : List (Event V)) :
    ¬ (Flat.run (irSem S call cs) code 0 σ).Obs t (some (.normal σ')) := by
  rintro ⟨n, hn⟩
  obtain ⟨q, hq, hend⟩ := Flat.reaches_of_normal (fun _ _ _ _ ha => exits_not_normal ha) n hn
  have := (noFallThrough_iff_lt hne).mp h q hq
  rw [List.getElem?_eq_none_iff] at hend
  omega

/-! ## The result -/

/-- The `return 0` of `finalize`. -/
def implicitReturn (isMain : Bool) : Instr :=
  .act (if isMain then .sysExitExpr (.int 0) else .returnExpr (.int 0))

/-- The code is that of a tree, and its labels are unique. -/
def TreeCode (code : List Instr) : Prop :=
  ∃ t : Tree Action Expr Label, code = t.code ∧ Flat.UniqueLabels code

section

variable {cs : List IrConstant} {k : ℕ} {isMain : Bool} {f : String}
  {cids : cs.map (·.cid) = List.range k} {body : Block}

theorem finalize_cases (h : lowerBlock body (.new cs k isMain f cids) = .ok b) :
    ∃ t : Tree Action Expr Label, b.instructions = t.code ∧ Flat.UniqueLabels t.code ∧
      t.completes Action.exits = Stmt.blockCompletes body ∧
      if Stmt.blockReturns body then b.finalize = t.code ∧ t.code ≠ []
      else b.finalize = t.code ++ [implicitReturn isMain] := by
  obtain ⟨⟨t, ht, hc, hne⟩, hret, hmain⟩ := flows_block h
  have hcode : b.instructions = t.code := ht.code
  have hret : b.hasReturn = Stmt.blockReturns body := hret
  have hmain : b.isMain = isMain := hmain
  refine ⟨t, hcode, Flat.uniqueLabels_of_nodup ht.nodup, hc, ?_⟩
  rw [Builder.finalize, hret, hcode]
  cases hr : Stmt.blockReturns body with
  | true => exact ⟨rfl, hne hr⟩
  | false =>
    show t.code ++ [.act (b.returnOp (.int 0))] = _
    rw [Builder.returnOp, hmain]
    rfl

theorem finalize_tree (h : lowerBlock body (.new cs k isMain f cids) = .ok b) :
    TreeCode b.finalize := by
  obtain ⟨⟨t, ht, -⟩, -⟩ := flows_block h
  have hcode : b.instructions = t.code := ht.code
  rw [Builder.finalize, hcode]
  split_ifs
  · exact ⟨t, rfl, Flat.uniqueLabels_of_nodup ht.nodup⟩
  · refine ⟨.seq t (.act (b.returnOp (.int 0))), rfl, Flat.uniqueLabels_of_nodup ?_⟩
    rw [Flat.labels_append]
    simpa [Flat.labels] using ht.nodup

theorem not_noFallThrough (h : lowerBlock body (.new cs k isMain f cids) = .ok b)
    (hr : Stmt.blockReturns body = true) (hc : Stmt.blockCompletes body = true) :
    ¬ NoFallThrough b.finalize := by
  obtain ⟨t, -, hu, hct, hfin⟩ := finalize_cases h
  rw [hr, if_pos rfl] at hfin
  obtain ⟨hfin, hne⟩ := hfin
  rw [hfin, noFallThrough_iff_lt hne]
  intro hlt
  have := hlt _ (t.reaches_end hu 0 (.refl _) (hct.trans hc))
  omega

theorem noFallThrough_of_cond (h : lowerBlock body (.new cs k isMain f cids) = .ok b)
    (hcond : Stmt.blockReturns body = false ∨ Stmt.blockCompletes body = false) :
    NoFallThrough b.finalize ∧ b.finalize ≠ [] ∧
      (Reaches Action.exits b.finalize 0 b.instructions.length →
        b.finalize[b.instructions.length]? = some (implicitReturn isMain)) := by
  obtain ⟨t, hcode, hu, hct, hfin⟩ := finalize_cases h
  cases hr : Stmt.blockReturns body with
  | false =>
    rw [hr, if_neg (by simp)] at hfin
    rw [hfin, hcode]
    refine ⟨noFallThrough_concat _ (by cases isMain <;> rfl), by simp, fun _ => ?_⟩
    exact List.getElem?_concat_length
  | true =>
    rw [hr, if_pos rfl] at hfin
    obtain ⟨hfin, hne⟩ := hfin
    have hc : t.completes Action.exits = false := hct.trans (hcond.resolve_left (by simp [hr]))
    -- control stays among the instructions of the body
    have hlt : ∀ q, Reaches Action.exits t.code 0 q → q < t.code.length := by
      intro q hq
      have := (Tree.live_of_reaches hu (.refl _) hc hq).lt
      omega
    rw [hfin, hcode]
    exact ⟨(noFallThrough_iff_lt hne).mpr hlt, hne, fun hq => absurd (hlt _ hq) (by omega)⟩

/-- Control never runs past the end of a function iff its body has no `return` at all or no
path that comes out at its end. Then the paths that come out of the body return 0, and no
run, whatever the values are, ends past the code. -/
theorem noFallThrough_iff (h : lowerBlock body (.new cs k isMain f cids) = .ok b) :
    (NoFallThrough b.finalize ∧
      (Reaches Action.exits b.finalize 0 b.instructions.length →
        b.finalize[b.instructions.length]? = some (implicitReturn isMain)) ∧
      ∀ (V : Type) (S : OpSem V) call constants (σ σ' : Store V) t,
        ¬ (Flat.run (irSem S call constants) b.finalize 0 σ).Obs t (some (.normal σ'))) ↔
    (Stmt.blockReturns body = false ∨ Stmt.blockCompletes body = false) := by
  constructor
  · rintro ⟨hno, -, -⟩
    by_contra hcond
    rw [not_or, Bool.not_eq_false, Bool.not_eq_false] at hcond
    exact not_noFallThrough h hcond.1 hcond.2 hno
  · intro hcond
    obtain ⟨hno, hne, hzero⟩ := noFallThrough_of_cond h hcond
    exact ⟨hno, hzero, fun V S call constants σ σ' t => hno.not_normal hne S call constants σ σ' t⟩

end

/-- With an `else` that returns as well, the body cannot be left at its end. -/
def closedBody : Block := [.ite (.var "c") [.ret (.int 1)] (.block [.ret (.int 0)])]

theorem noFallThrough_closedBody : ∃ b, lowerBlock closedBody (.new [] 0 false "f" rfl) = .ok b ∧
    NoFallThrough b.finalize :=
  have h : lowerBlock closedBody (.new [] 0 false "f" rfl) = .ok _ := rfl
  ⟨_, h, ((noFallThrough_iff h).mpr (.inr rfl)).1⟩

/-- `int f(int c) { if (c) { return 1; } }`, called from `main` with 0. -/
def fallingProgram : Program where
  functions := [
    ⟨"f", ["c"], [.ite (.var "c") [.ret (.int 1)] .none]⟩,
    ⟨"main", [], [.ret (.call "f" [.int 0])]⟩]

/-- The program is accepted, and when `c` is 0 control runs past the last label of `f`. -/
theorem fallingProgram_falls : ∃ info m f, analyze fallingProgram = .ok info ∧
    lowerProgram fallingProgram info = .ok m ∧ m.function "f" = some f ∧
    ¬ NoFallThrough f.instructions := by
  refine ⟨_, _, _, rfl, rfl, rfl, ?_⟩
  have hf : lowerBlock [.ite (.var "c") [.ret (.int 1)] .none] (.new [] 0 false "f" rfl) =
      .ok _ := rfl
  exact not_noFallThrough hf rfl rfl

/-! ## Programs -/

theorem lowerFunctions_tree {info : ProgramInfo} {funcs : List FunctionDef} :
    ∀ {cs : List IrConstant} {k : ℕ} {cids : cs.map (·.cid) = List.range k}
      {r : List IrFunction × List IrConstant}, lowerFunctions info cs k cids funcs = .ok r →
    ∀ f ∈ r.1, TreeCode f.instructions := by
  induction funcs with
  | nil =>
    intro cs k cids r h f hf
    cases h
    cases hf
  | cons func funcs ih =>
    intro cs k cids r h
    obtain ⟨fi, -, h⟩ := bind_eq_ok.mp h
    obtain ⟨b, hb, h⟩ := bind_eq_ok.mp h
    obtain ⟨⟨fs, cs'⟩, hfs, h⟩ := bind_eq_ok.mp h
    cases h
    exact List.forall_mem_cons.mpr ⟨finalize_tree hb, ih hfs⟩

/-- A single `main` is lowered alone, all else function by function. -/
theorem lowerProgram_cases {p : Program} {info : ProgramInfo} {m : IrModule}
    (hlow : lowerProgram p info = .ok m) :
    (∃ func b, p.functions = [func] ∧ func.name = "main" ∧
      lowerBlock func.body (.new [] 0 true "" rfl) = .ok b ∧
      m.allFunctions = [⟨"main", [], m.symbols, b.finalize⟩] ∧ m.constants = b.constants) ∨
    lowerFunctions info [] 0 rfl p.functions = .ok (m.functions, m.constants) ∧
      (m.functions = [] → m.instructions = []) := by
  have hmany : lowerProgram.lowerMany info p.functions = .ok m →
      lowerFunctions info [] 0 rfl p.functions = .ok (m.functions, m.constants) ∧
        (m.functions = [] → m.instructions = []) := by
    intro h
    obtain ⟨⟨irs, cs⟩, hfuncs, h⟩ := bind_eq_ok.mp h
    dsimp only at h
    split at h <;> cases h
    · rename_i main hmain
      refine ⟨hfuncs, fun hirs => ?_⟩
      rw [show irs = [] from hirs] at hmain
      cases hmain
    · exact ⟨hfuncs, fun _ => rfl⟩
  unfold lowerProgram at hlow
  split at hlow
  · rename_i func hfunc
    split_ifs at hlow with hname
    · obtain ⟨fi, -, h⟩ := bind_eq_ok.mp hlow
      obtain ⟨b, hb, h⟩ := bind_eq_ok.mp h
      cases h
      exact .inl ⟨func, b, hfunc, hname, hb, if_pos rfl, rfl⟩
    · exact .inr (hmany (hfunc ▸ hlow))
  · exact .inr (hmany hlow)

theorem lowerProgram_tree {p : Program} {info : ProgramInfo} {m : IrModule}
    (h : lowerProgram p info = .ok m) : ∀ f ∈ m.allFunctions, TreeCode f.instructions := by
  rcases lowerProgram_cases h with ⟨func, b, -, -, hb, hall, -⟩ | ⟨hfuncs, hempty⟩
  · rw [hall]
    exact List.forall_mem_singleton.mpr (finalize_tree hb)
  · unfold IrModule.allFunctions
    split_ifs with hirs
    · rw [hempty hirs]
      exact List.forall_mem_singleton.mpr
        ⟨.skip, rfl, Flat.uniqueLabels_of_nodup List.nodup_nil⟩
    · exact lowerFunctions_tree hfuncs

theorem lowerProgram_uniqueLabels {p : Program} {info : ProgramInfo} {m : IrModule}
    (h : lowerProgram p info = .ok m) : ∀ f ∈ m.allFunctions, Flat.UniqueLabels f.instructions :=
  fun f hf => (lowerProgram_tree h f hf).choose_spec.2

end YHsys.Compiler
