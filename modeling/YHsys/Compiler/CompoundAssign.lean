import YHsys.Compiler.FoldExact
import YHsys.Compiler.Analyzer
import YHsys.Lib.BehaviourTrace

/-!
# Compound assignment to an array element

`lower_assign` and `lower_incdec` use the lowered target twice: as the operand that is read and as
the place that is written. So the index of `a[e] op= r` is evaluated before `r` and once more after
it (`act_compound`). Both evaluations select the same element, but the calls in `e` are made twice.
-/

namespace YHsys.Compiler

variable {V : Type} {S : OpSem V} {call : String → List V → Beh (Event V) V}

/-- The array, the index, the operator and the right operand of `a[e] op= r`, `a[e]++`, `a[e]--`. -/
def Stmt.compound : Stmt → Option (String × Expr × BinaryOp × Expr)
  | .assign (.array a e) op r => op.binaryOp.map fun op => (a, e, op, r)
  | .incDec (.array a e) op => some (a, e, .add, .int op.delta)
  | _ => none

theorem tryFoldExpr_array (op : BinaryOp) (a : String) (e r : Expr) :
    tryFoldExpr (.binary op (.array a e) r) = .ok (.binary op (.array a e) r) := by
  cases r <;> rfl

theorem absorbing_binaryOp {op : AssignOp} {o : BinaryOp} (h : op.binaryOp = some o) :
    o.absorbing = none := by
  cases op with
  | set => cases h
  | _ =>
    cases h
    rfl

theorem lowerStmt_compound {s : Stmt} {a : String} {e r : Expr} {o : BinaryOp} {b b' : Builder}
    (hs : s.compound = some (a, e, o, r)) (h : lowerStmt s b = .ok b') :
    o.absorbing = none ∧ ∃ e' r', lowerExpr e = .ok e' ∧ lowerExpr r = .ok r' ∧
      b' = b.add (.act (.assign (.array a e') (.binary o (.array a e') r'))) := by
  cases s with
  | assign target op rhs =>
    cases target with
    | var x => cases hs
    | array x index =>
      obtain ⟨o', ho, heq⟩ := Option.map_eq_some_iff.mp hs
      cases heq
      obtain ⟨target, ht, h⟩ := Except.bind_eq_ok.mp h
      obtain ⟨e', he, ht⟩ := Except.bind_eq_ok.mp ht
      obtain ⟨r', hr, h⟩ := Except.bind_eq_ok.mp h
      cases ht
      rw [ho] at h
      dsimp only [LValue.toExpr] at h
      rw [tryFoldExpr_array] at h
      cases h
      exact ⟨absorbing_binaryOp ho, e', r', he, hr, rfl⟩
  | incDec target op =>
    cases target with
    | var x => cases hs
    | array x index =>
      cases hs
      obtain ⟨target, ht, h⟩ := Except.bind_eq_ok.mp h
      obtain ⟨e', he, ht⟩ := Except.bind_eq_ok.mp ht
      cases ht
      dsimp only [LValue.toExpr] at h
      rw [tryFoldExpr_array] at h
      cases h
      exact ⟨rfl, e', _, he, rfl, rfl⟩
  | _ => cases hs

theorem act_compound {o : BinaryOp} (ho : o.absorbing = none) {a : String} {e r : Expr}
    {σ : Store V} {t u : List (Event V)} {i old v w : V} {l : List V}
    (he : eval S call e σ = .shows t i) (hr : eval S call r σ = .shows u v)
    (hread : S.read (σ.arrs a) i = some old) (hop : S.binary o old v = some w)
    (hwrite : S.write (σ.arrs a) i w = some l) (cs : List IrConstant) :
    act S call cs (.assign (.array a e) (.binary o (.array a e) r)) σ =
      .shows (t ++ u ++ t) (.normal (σ.setArr a l)) := by
  have hold : eval S call (.array a e) σ = .shows t old := by
    rw [eval, he]
    exact Beh.shows_bind_pure (by rw [hread, Beh.ofOption_some])
  have hvalue : eval S call (.binary o (.array a e) r) σ = .shows (t ++ u) w := by
    rw [eval_arith ho, hold]
    refine Beh.shows_bind ?_
    rw [hr]
    exact Beh.shows_bind_pure (by rw [hop, Beh.ofOption_some])
  have hput : put S call (.array a e) w σ = .shows t (σ.setArr a l) := by
    rw [put, he]
    refine Beh.shows_bind_pure ?_
    rw [putArr, hwrite, Beh.ofOption_some, Beh.pure_bind']
  rw [act, hvalue]
  refine Beh.shows_bind ?_
  rw [hput]
  exact Beh.shows_bind_pure rfl

/-- The code of `a[e] op= r`, `a[e]++` and `a[e]--` updates the element that one evaluation of `e`
selects, and makes the calls of one evaluation of `e` and `r` exactly if evaluating `e` makes no
call. -/
theorem compound_calls [DecidableEq V] {s : Stmt} {a : String} {e r : Expr} {o : BinaryOp}
    {b b' : Builder} (hs : s.compound = some (a, e, o, r)) (h : lowerStmt s b = .ok b') :
    ∃ e' r' x, lowerExpr e = .ok e' ∧ lowerExpr r = .ok r' ∧ b' = b.add (.act x) ∧
      ∀ {σ : Store V} {t u : List (Event V)} {i old v w : V} {l : List V},
        eval S call e' σ = .shows t i → eval S call r' σ = .shows u v →
        S.read (σ.arrs a) i = some old → S.binary o old v = some w →
        S.write (σ.arrs a) i w = some l → ∀ cs, ∃ trace,
          act S call cs x σ = .shows trace (.normal (σ.setArr a l)) ∧
          ((∀ f vs, trace.count (.call f vs) = (t ++ u).count (.call f vs)) ↔
            ∀ f vs, Event.call f vs ∉ t) := by
  obtain ⟨ho, e', r', he, hr, rfl⟩ := lowerStmt_compound hs h
  refine ⟨e', r', _, he, hr, rfl, ?_⟩
  intro σ t u i old v w l hte hur hread hop hwrite cs
  refine ⟨_, act_compound ho hte hur hread hop hwrite cs, ?_⟩
  -- the trace of the index comes twice
  have hcount : ∀ f vs, (t ++ u ++ t).count (.call f vs) = (t ++ u).count (.call f vs) ↔
      Event.call f vs ∉ t := by
    intro f vs
    rw [@List.count_append _ _ _ (t ++ u), Nat.add_eq_left, List.count_eq_zero]
  simp only [hcount]

/-! ## An index with a call -/

/-- Every call is seen, and returns 0. -/
def seenCall (f : String) (vs : List ℤ) : Beh (Event ℤ) ℤ := .shows [.call f vs] 0

def twoZeros : Store ℤ := ⟨fun _ => 0, fun _ => [0, 0]⟩

theorem seen_call : eval pySem seenCall (.call "f" []) twoZeros = .shows [.call "f" []] 0 := by
  rw [eval, evalArgs, Beh.pure_bind', seenCall]

/-- `a[1] += f()`. -/
theorem compound_calls_rhs : ∃ e' r' x,
    lowerExpr (.int 1) = .ok e' ∧ lowerExpr (.call "f" []) = .ok r' ∧
      ∃ trace, act pySem seenCall [] x twoZeros =
        .shows trace (.normal (twoZeros.setArr "a" [0, 0])) ∧
        ∀ f vs, trace.count (.call f vs) = [Event.call "f" []].count (.call f vs) := by
  have hlower : lowerStmt (.assign (.array "a" (.int 1)) .add (.call "f" []))
      ⟨[], [], 0, 0, false, true, "", rfl⟩ = .ok _ := rfl
  obtain ⟨e', r', x, he, hr, -, hrun⟩ := compound_calls (S := pySem) rfl hlower
  cases he
  cases hr
  have hone : eval pySem seenCall (.int 1) twoZeros = .shows [] 1 := (Beh.shows_nil _).symm
  obtain ⟨trace, hact, hiff⟩ := hrun hone seen_call rfl rfl rfl []
  exact ⟨_, _, x, rfl, rfl, trace, hact, hiff.mpr fun f vs => List.not_mem_nil⟩

/-- `int f() { return 0; } int main() { int a[2]; a[f()] += 1; return 0; }`. -/
def callIndexProgram : Program :=
  ⟨[⟨"f", [], [.ret (.int 0)]⟩,
    ⟨"main", [], [.varDecl "a" (some 2) none,
      .assign (.array "a" (.call "f" [])) .add (.int 1), .ret (.int 0)]⟩]⟩

def callIndexUpdate : Action :=
  .assign (.array "a" (.call "f" [])) (.binary .add (.array "a" (.call "f" [])) (.int 1))

/-- The one call in `a[f()] += 1` is made twice. -/
theorem compound_calls_twice :
    (∃ info m, analyze callIndexProgram = .ok info ∧ lowerProgram callIndexProgram info = .ok m ∧
      .act callIndexUpdate ∈ m.instructions) ∧
    eval pySem seenCall (.call "f" []) twoZeros = .shows [.call "f" []] 0 ∧
    act pySem seenCall [] callIndexUpdate twoZeros =
      .shows [.call "f" [], .call "f" []] (.normal (twoZeros.setArr "a" [1, 0])) := by
  have hone : eval pySem seenCall (.int 1) twoZeros = .shows [] 1 := (Beh.shows_nil _).symm
  refine ⟨⟨_, _, rfl, rfl, ?_⟩, seen_call, ?_⟩
  · exact List.mem_of_getElem? (i := 1) rfl
  · exact act_compound rfl seen_call hone rfl rfl rfl []

end YHsys.Compiler
