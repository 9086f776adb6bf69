import Mathlib.Algebra.BigOperators.Group.Finset.Basic
import Mathlib.Algebra.Order.BigOperators.Group.Finset
import Mathlib.Tactic.Ring
import YHsys.Compiler.FlowPass

/-!
# Dead stores

`_remove_dead_stores` drops an assignment to a scalar that is not live after it, if its
expression has no side effect. The rounds that compute liveness only add names
(`Growing`), and only names that are used somewhere, so they come to an end; then the sets
are closed under the flow of control (`Stable`). A run with dead stores and one without
agree on the arrays and on what is live.
-/

namespace YHsys.Compiler

open Flat (OutRel Follows Pass KeepsLabels UniqueLabels)

variable {V : Type} {S : OpSem V} {call : String → List V → Beh (Event V) V} {code : List Instr}

/-! ## Rounds -/

section Rounds

variable {live live' : Live} {idx : ℕ} {ins : Instr}

theorem mem_inOf {succs : List ℕ} {x : String} :
    x ∈ live.inOf succs ↔ ∃ j ∈ succs, x ∈ live.inAt j := by
  have hfold : ∀ acc : Finset String, x ∈ succs.foldl (fun acc j => acc ∪ live.inAt j) acc ↔
      x ∈ acc ∨ ∃ j ∈ succs, x ∈ live.inAt j := by
    induction succs with
    | nil => simp
    | cons j succs ih =>
      intro acc
      rw [List.foldl_cons, ih]
      simp [or_assoc]
  simpa [Live.inOf] using hfold ∅

theorem inOf_mono (h : ∀ j, live.inAt j ⊆ live'.inAt j) (succs : List ℕ) :
    live.inOf succs ⊆ live'.inOf succs := by
  intro x hx
  obtain ⟨j, hj, hx⟩ := mem_inOf.mp hx
  exact mem_inOf.mpr ⟨j, hj, h j hx⟩

theorem liveBefore_mono {out out' : Finset String} (h : out ⊆ out') (ins : Instr) :
    liveBefore ins out ⊆ liveBefore ins out' :=
  Finset.union_subset_union_right (Finset.sdiff_subset_sdiff h subset_rfl)

/-- What is live after and before an instruction, from the sets around it. -/
def nextOut (code : List Instr) (live : Live) (idx : ℕ) (ins : Instr) : Finset String :=
  live.inOf (successors code idx ins)

/-- The sets at an instruction are what its successors ask for. -/
def StableAt (code : List Instr) (live : Live) (idx : ℕ) : Prop :=
  ∀ ins, code[idx]? = some ins →
    live.outAt idx = nextOut code live idx ins ∧
      live.inAt idx = liveBefore ins (nextOut code live idx ins)

/-- The sets hold only what the next round would put there. -/
structure Growing (code : List Instr) (live : Live) : Prop where
  lengthIn : live.liveIn.length = code.length
  lengthOut : live.liveOut.length = code.length
  out : ∀ {idx ins}, code[idx]? = some ins → live.outAt idx ⊆ nextOut code live idx ins
  inn : ∀ {idx ins}, code[idx]? = some ins →
    live.inAt idx ⊆ liveBefore ins (nextOut code live idx ins)
  used : ∀ idx, live.inAt idx ⊆ usedNames code ∧ live.outAt idx ⊆ usedNames code

/-- The number of entries of all the sets. -/
def liveSize (code : List Instr) (live : Live) : ℕ :=
  ∑ idx ∈ Finset.range code.length, ((live.inAt idx).card + (live.outAt idx).card)

theorem getD_set {l : List (Finset String)} {a : Finset String} (h : idx < l.length) (j : ℕ) :
    (l.set idx a).getD j ∅ = if j = idx then a else l.getD j ∅ := by
  rw [List.getD_eq_getElem?_getD, List.getD_eq_getElem?_getD, List.getElem?_set]
  by_cases hj : idx = j
  · subst hj
    simp [h]
  · simp [hj, Ne.symm hj]

theorem instrUses_subset (h : code[idx]? = some ins) : instrUses ins ⊆ usedNames code := by
  have hmem := List.mem_of_getElem? h
  unfold usedNames
  induction code generalizing idx with
  | nil => cases hmem
  | cons ins' code ih =>
    rw [List.foldr_cons]
    rcases List.mem_cons.mp hmem with rfl | hmem'
    · exact Finset.subset_union_left
    · obtain ⟨j, hj⟩ := List.mem_iff_getElem?.mp hmem'
      exact (ih hj hmem').trans Finset.subset_union_right

/-- The sets after a change at `idx`. -/
def setLive (live : Live) (idx : ℕ) (inn out : Finset String) : Live :=
  ⟨live.liveIn.set idx inn, live.liveOut.set idx out⟩

theorem inAt_setLive {inn out : Finset String} (h : idx < live.liveIn.length) (j : ℕ) :
    (setLive live idx inn out).inAt j = if j = idx then inn else live.inAt j := getD_set h j

theorem outAt_setLive {inn out : Finset String} (h : idx < live.liveOut.length) (j : ℕ) :
    (setLive live idx inn out).outAt j = if j = idx then out else live.outAt j := getD_set h j

theorem liveStep_eq (st : Live × Bool) (hins : code[idx]? = some ins) : liveStep code idx st =
    if nextOut code st.1 idx ins ≠ st.1.outAt idx ∨
        liveBefore ins (nextOut code st.1 idx ins) ≠ st.1.inAt idx then
      (setLive st.1 idx (liveBefore ins (nextOut code st.1 idx ins)) (nextOut code st.1 idx ins),
        true)
    else st := by
  simp only [liveStep, hins]
  rfl

theorem nextOut_subset (h : Growing code live) (idx : ℕ) (ins : Instr) :
    nextOut code live idx ins ⊆ usedNames code := by
  intro x hx
  obtain ⟨j, -, hx⟩ := mem_inOf.mp hx
  exact (h.used j).1 hx

theorem Growing.step (h : Growing code live) (hins : code[idx]? = some ins) :
    Growing code (setLive live idx (liveBefore ins (nextOut code live idx ins))
      (nextOut code live idx ins)) := by
  have hlt := (List.getElem?_eq_some_iff.mp hins).1
  have hin : idx < live.liveIn.length := h.lengthIn ▸ hlt
  have hout : idx < live.liveOut.length := h.lengthOut ▸ hlt
  set out := nextOut code live idx ins with hnext
  have hgrow : ∀ j, live.inAt j ⊆ (setLive live idx (liveBefore ins out) out).inAt j := by
    intro j
    rw [inAt_setLive hin]
    split_ifs with hj
    · subst hj
      exact h.inn hins
    · exact subset_rfl
  have hmono : ∀ j ins', nextOut code live j ins' ⊆
      nextOut code (setLive live idx (liveBefore ins out) out) j ins' :=
    fun j ins' => inOf_mono hgrow _
  have hused := nextOut_subset h idx ins
  refine ⟨by simp [setLive, h.lengthIn], by simp [setLive, h.lengthOut], fun {j ins'} hj => ?_,
    fun {j ins'} hj => ?_, fun j => ?_⟩
  · rw [outAt_setLive hout]
    split_ifs with heq
    · subst heq
      cases hins.symm.trans hj
      exact hmono _ _
    · exact (h.out hj).trans (hmono _ _)
  · rw [inAt_setLive hin]
    split_ifs with heq
    · subst heq
      cases hins.symm.trans hj
      exact liveBefore_mono (hmono _ _) _
    · exact (h.inn hj).trans (liveBefore_mono (hmono _ _) _)
  · rw [inAt_setLive hin, outAt_setLive hout]
    split_ifs
    · exact ⟨Finset.union_subset (instrUses_subset hins) (Finset.sdiff_subset.trans hused), hused⟩
    · exact h.used j

theorem Growing.size_lt (h : Growing code live) (hins : code[idx]? = some ins)
    (hchange : nextOut code live idx ins ≠ live.outAt idx ∨
      liveBefore ins (nextOut code live idx ins) ≠ live.inAt idx) :
    liveSize code live < liveSize code (setLive live idx
      (liveBefore ins (nextOut code live idx ins)) (nextOut code live idx ins)) := by
  have hlt := (List.getElem?_eq_some_iff.mp hins).1
  have hin : idx < live.liveIn.length := h.lengthIn ▸ hlt
  have hout : idx < live.liveOut.length := h.lengthOut ▸ hlt
  have hcardIn := Finset.card_le_card (h.inn hins)
  have hcardOut := Finset.card_le_card (h.out hins)
  refine Finset.sum_lt_sum (fun j _ => ?_) ⟨idx, Finset.mem_range.mpr hlt, ?_⟩
  · rw [inAt_setLive hin, outAt_setLive hout]
    split_ifs with hj
    · subst hj
      omega
    · exact le_rfl
  · rw [inAt_setLive hin, outAt_setLive hout, if_pos rfl, if_pos rfl]
    rcases hchange with hne | hne
    · have := Finset.card_lt_card ((h.out hins).ssubset_of_ne hne.symm)
      omega
    · have := Finset.card_lt_card ((h.inn hins).ssubset_of_ne hne.symm)
      omega

theorem Growing.size_le (h : Growing code live) :
    liveSize code live ≤ 2 * code.length * (usedNames code).card := by
  have hbound : ∀ idx ∈ Finset.range code.length,
      (live.inAt idx).card + (live.outAt idx).card ≤ 2 * (usedNames code).card := by
    intro idx _
    have hin := Finset.card_le_card (h.used idx).1
    have hout := Finset.card_le_card (h.used idx).2
    omega
  calc liveSize code live ≤ ∑ _idx ∈ Finset.range code.length, 2 * (usedNames code).card :=
        Finset.sum_le_sum hbound
    _ = 2 * code.length * (usedNames code).card := by simp; ring

theorem liveSteps_spec (h : Growing code live) (idxs : List ℕ) :
    let st := idxs.foldr (liveStep code) (live, false)
    Growing code st.1 ∧
      ((st = (live, false) ∧ ∀ idx ∈ idxs, StableAt code live idx) ∨
        (st.2 = true ∧ liveSize code live < liveSize code st.1)) := by
  induction idxs with
  | nil => exact ⟨h, .inl ⟨rfl, by simp⟩⟩
  | cons idx idxs ih =>
    simp only [List.foldr_cons]
    set st := idxs.foldr (liveStep code) (live, false) with hst
    obtain ⟨hgrow, hst'⟩ := ih
    cases hins : code[idx]? with
    | none =>
      have hsame : liveStep code idx st = st := by simp [liveStep, hins]
      rw [hsame]
      refine ⟨hgrow, hst'.imp_left fun ⟨heq, hstable⟩ => ⟨heq, fun j hj => ?_⟩⟩
      rcases List.mem_cons.mp hj with rfl | hj
      · intro ins hj
        rw [hins] at hj
        cases hj
      · exact hstable j hj
    | some ins =>
      rw [liveStep_eq st hins]
      split_ifs with hchange
      · have hlt := hgrow.size_lt hins hchange
        refine ⟨hgrow.step hins, .inr ⟨rfl, ?_⟩⟩
        rcases hst' with ⟨heq, -⟩ | ⟨-, hlt'⟩
        · rw [heq] at hlt ⊢
          exact hlt
        · exact hlt'.trans hlt
      · refine ⟨hgrow, hst'.imp_left fun ⟨heq, hstable⟩ => ⟨heq, fun j hj => ?_⟩⟩
        rcases List.mem_cons.mp hj with rfl | hj
        · intro ins' hins'
          cases hins.symm.trans hins'
          rw [heq] at hchange
          push Not at hchange
          exact ⟨hchange.1.symm, hchange.2.symm⟩
        · exact hstable j hj

theorem liveRound_spec (h : Growing code live) :
    Growing code (liveRound code live).1 ∧
      ((liveRound code live = (live, false) ∧
          ∀ idx ∈ List.range code.length, StableAt code live idx) ∨
        ((liveRound code live).2 = true ∧
          liveSize code live < liveSize code (liveRound code live).1)) :=
  liveSteps_spec h (List.range code.length)

theorem liveLoop_stable (n : ℕ) : ∀ {live : Live}, Growing code live →
    2 * code.length * (usedNames code).card - liveSize code live < n →
    ∀ idx, StableAt code (liveLoop code n live) idx := by
  induction n with
  | zero => exact fun _ hn => absurd hn (Nat.not_lt_zero _)
  | succ n ih =>
    intro live h hn
    obtain ⟨hgrow, ⟨heq, hstable⟩ | ⟨hchanged, hlt⟩⟩ := liveRound_spec h
    · simp only [liveLoop, heq, Bool.false_eq_true, if_false]
      intro idx ins hins
      have hidx := (List.getElem?_eq_some_iff.mp hins).1
      exact hstable idx (List.mem_range.mpr hidx) ins hins
    · simp only [liveLoop, hchanged, if_true]
      have hle := hgrow.size_le
      exact ih hgrow (by omega)

theorem growing_start (code : List Instr) :
    Growing code ⟨List.replicate code.length ∅, List.replicate code.length ∅⟩ := by
  have hempty : ∀ j, (List.replicate code.length (∅ : Finset String)).getD j ∅ = ∅ := by
    intro j
    rw [List.getD_eq_getElem?_getD, List.getElem?_replicate]
    split_ifs <;> rfl
  refine ⟨by simp, by simp, ?_, ?_, ?_⟩
  · intro idx ins _
    rw [Live.outAt, hempty]
    exact Finset.empty_subset _
  · intro idx ins _
    rw [Live.inAt, hempty]
    exact Finset.empty_subset _
  · intro idx
    rw [Live.inAt, Live.outAt, hempty]
    exact ⟨Finset.empty_subset _, Finset.empty_subset _⟩

theorem liveness_stable (code : List Instr) (idx : ℕ) : StableAt code (liveness code) idx :=
  liveLoop_stable _ (growing_start code) (by omega) idx

end Rounds

/-! ## What liveness says -/

section

variable {idx : ℕ} {ins : Instr} {x : String}

theorem live_of_use (h : code[idx]? = some ins) (hx : x ∈ instrUses ins) :
    x ∈ (liveness code).inAt idx := by
  rw [(liveness_stable code idx ins h).2]
  exact Finset.mem_union_left _ hx

theorem live_of_liveOut (h : code[idx]? = some ins) (hx : x ∈ (liveness code).outAt idx)
    (hdef : x ∉ instrDefs ins) : x ∈ (liveness code).inAt idx := by
  rw [(liveness_stable code idx ins h).1] at hx
  rw [(liveness_stable code idx ins h).2]
  exact Finset.mem_union_right _ (Finset.mem_sdiff.mpr ⟨hx, hdef⟩)

theorem liveOut_of_live {j : ℕ} (h : code[idx]? = some ins) (hj : j ∈ successors code idx ins)
    (hx : x ∈ (liveness code).inAt j) : x ∈ (liveness code).outAt idx := by
  rw [(liveness_stable code idx ins h).1]
  exact mem_inOf.mpr ⟨j, hj, hx⟩

end

/-! ## Expressions -/

/-- The operations that `_expr_is_side_effect_free` takes to have a result. -/
structure OpSem.Safe (S : OpSem V) : Prop where
  unary : ∀ op v, ∃ w, S.unary op v = some w
  binary : ∀ op v w, op.isDivision = false → ∃ u, S.binary op v w = some u
  divide : ∀ op v n, n ≠ 0 → ∃ u, S.binary op v (S.lit n) = some u
  read : ∀ l i, ∃ v, S.read l i = some v

theorem OpSem.Total.safe (h : S.Total) : S.Safe :=
  ⟨h.unary, fun op v w _ => h.binary op v w, fun op v _ _ => h.binary op v _, h.read⟩

theorem eval_sideEffectFree (hS : S.Safe) (σ : Store V) : ∀ {e : Expr},
    exprIsSideEffectFree e = true → ∃ v, eval S call e σ = pure v
  | .int n, _ => ⟨_, rfl⟩
  | .var x, _ => ⟨_, rfl⟩
  | .array x index, h => by
    obtain ⟨i, hi⟩ := eval_sideEffectFree hS σ (e := index) h
    obtain ⟨v, hv⟩ := hS.read (σ.arrs x) i
    exact ⟨v, by simp [eval, hi, hv]⟩
  | .call f args, h => by cases h
  | .unary op a, h => by
    obtain ⟨v, hv⟩ := eval_sideEffectFree hS σ (e := a) h
    obtain ⟨w, hw⟩ := hS.unary op v
    exact ⟨w, by simp [eval, hv, hw]⟩
  | .binary op a b, h => by
    rw [exprIsSideEffectFree, Bool.and_eq_true, Bool.and_eq_true] at h
    obtain ⟨⟨hdiv, ha⟩, hb⟩ := h
    obtain ⟨v, hv⟩ := eval_sideEffectFree hS σ ha
    obtain ⟨w, hw⟩ := eval_sideEffectFree hS σ hb
    have hop : ∃ u, S.binary op v w = some u := by
      cases hd : op.isDivision with
      | false => exact hS.binary op v w hd
      | true =>
        -- the divisor is a constant other than 0
        rw [hd] at hdiv
        cases b with
        | int n =>
          obtain rfl : S.lit n = w := by
            have h1 : (pure (S.lit n) : Beh (Event V) V).Obs [] (some w) := by
              rw [show (pure (S.lit n) : Beh (Event V) V) = pure w from hw]
              exact Beh.obs_pure_some.mpr ⟨rfl, rfl⟩
            exact (Beh.obs_pure_some.mp h1).2.symm
          exact hS.divide op v n (by simpa [isNonzeroConst] using hdiv)
        | _ => simp [isNonzeroConst] at hdiv
    obtain ⟨u, hu⟩ := hop
    cases op with
    | land => by_cases ht : S.truthy v = true <;> exact ⟨_, by simp [eval, hv, hw, ht]; rfl⟩
    | lor => by_cases ht : S.truthy v = true <;> exact ⟨_, by simp [eval, hv, hw, ht]; rfl⟩
    | _ => exact ⟨u, by simp [eval, hv, hw, hu]⟩

section

variable {σ σ' : Store V}

mutual
theorem eval_congr (harrs : σ.arrs = σ'.arrs) : ∀ {e : Expr},
    (∀ x ∈ exprReads e, σ.vars x = σ'.vars x) → eval S call e σ = eval S call e σ'
  | .int n, _ => rfl
  | .var x, h => by simp [eval, h x (by simp [exprReads])]
  | .array x index, h => by
    have hi := eval_congr harrs (e := index) fun y hy => h y (by simp [exprReads, hy])
    simp [eval, hi, harrs]
  | .call f args, h => by
    have hargs : evalArgs S call args σ = evalArgs S call args σ' :=
      evalArgs_congr harrs fun y hy => h y (by simpa [exprReads] using hy)
    simp [eval, hargs]
  | .unary op a, h => by
    have ha := eval_congr harrs (e := a) fun y hy => h y (by simpa [exprReads] using hy)
    simp [eval, ha]
  | .binary op a b, h => by
    have ha := eval_congr harrs (e := a) fun y hy => h y (by simp [exprReads, hy])
    have hb := eval_congr harrs (e := b) fun y hy => h y (by simp [exprReads, hy])
    cases op <;> simp [eval, ha, hb]

theorem evalArgs_congr (harrs : σ.arrs = σ'.arrs) : ∀ {es : List Expr},
    (∀ x ∈ argsReads es, σ.vars x = σ'.vars x) → evalArgs S call es σ = evalArgs S call es σ'
  | [], _ => rfl
  | e :: es, h => by
    have he := eval_congr harrs (e := e) fun y hy => h y (by simp [argsReads, hy])
    have hes : evalArgs S call es σ = evalArgs S call es σ' :=
      evalArgs_congr harrs fun y hy => h y (by simp [argsReads, hy])
    simp [evalArgs, he, hes]
end

/-! ## Operations -/

/-- The stores after an operation in `σ` and in `σ'`: the same arrays, and the same value in
every variable that the operation sets or that had the same value before. -/
def SameAfter (σ σ' : Store V) (defs : Finset String) (τ τ' : Store V) : Prop :=
  τ.arrs = τ'.arrs ∧ ∀ y, y ∈ defs ∨ σ.vars y = σ'.vars y → τ.vars y = τ'.vars y

theorem put_same (harrs : σ.arrs = σ'.arrs) {target : LValue}
    (h : ∀ x ∈ target.reads, σ.vars x = σ'.vars x) (v : V) :
    Beh.Rel (SameAfter σ σ' target.defs) (put S call target v σ) (put S call target v σ') := by
  cases target with
  | var x =>
    refine .pure ⟨harrs, fun y hy => ?_⟩
    by_cases hyx : y = x
    · subst hyx
      simp [Store.setVar]
    · rcases hy with hy | hy
      · exact absurd (by simpa [LValue.defs] using hy) hyx
      · simpa [Store.setVar, Function.update_of_ne hyx] using hy
  | array x index =>
    have hi : eval S call index σ = eval S call index σ' := eval_congr harrs h
    simp only [put, putArr, hi, harrs]
    refine (Beh.Rel.refl _).bind fun i _ hii => ?_
    subst hii
    refine (Beh.Rel.refl _).bind fun l _ hl => ?_
    subst hl
    refine .pure ⟨?_, fun y hy => ?_⟩
    · simp [Store.setArr, harrs]
    · exact hy.resolve_left (by simp [LValue.defs])

abbrev SameOut (σ σ' : Store V) (defs : Finset String) : Ended V → Ended V → Prop :=
  OutRel (SameAfter σ σ' defs)

theorem SameAfter.start (harrs : σ.arrs = σ'.arrs) : SameAfter σ σ' ∅ σ σ' :=
  ⟨harrs, fun _ hy => hy.resolve_left (by simp)⟩

theorem store_same (harrs : σ.arrs = σ'.arrs) {target : LValue}
    (h : ∀ x ∈ target.reads, σ.vars x = σ'.vars x) (v : V) :
    Beh.Rel (SameOut σ σ' target.defs)
      (put S call target v σ >>= fun τ => pure (.normal τ))
      (put S call target v σ' >>= fun τ => pure (.normal τ)) :=
  (put_same harrs h v).bind fun _ _ hτ => .pure (.normal hτ)

theorem emit_same (harrs : σ.arrs = σ'.arrs) {e : Expr}
    (h : ∀ x ∈ exprReads e, σ.vars x = σ'.vars x) (ev : V → Event V) :
    Beh.Rel (SameOut σ σ' ∅)
      (eval S call e σ >>= fun v => Beh.emit (ev v) >>= fun _ => pure (.normal σ))
      (eval S call e σ' >>= fun v => Beh.emit (ev v) >>= fun _ => pure (.normal σ')) := by
  rw [eval_congr harrs h]
  refine (Beh.Rel.refl _).bind fun v _ hv => ?_
  subst hv
  exact (Beh.Rel.refl (Beh.emit (ev v) : Beh (Event V) PUnit)).bind fun _ _ _ =>
    .pure (.normal (.start harrs))

theorem return_same (harrs : σ.arrs = σ'.arrs) {e : Expr}
    (h : ∀ x ∈ exprReads e, σ.vars x = σ'.vars x) (R : Store V → Store V → Prop) :
    Beh.Rel (OutRel R) (eval S call e σ >>= fun v => pure (.returned v))
      (eval S call e σ' >>= fun v => pure (.returned v)) := by
  rw [eval_congr harrs h]
  refine (Beh.Rel.refl _).bind fun v _ hv => ?_
  subst hv
  exact .pure (.returned v)

theorem act_same (harrs : σ.arrs = σ'.arrs) (cs : List IrConstant) {a : Action}
    (h : ∀ x ∈ a.uses, σ.vars x = σ'.vars x) :
    Beh.Rel (SameOut σ σ' a.defs) (act S call cs a σ) (act S call cs a σ') := by
  cases a with
  | assign target e =>
    have he : eval S call e σ = eval S call e σ' :=
      eval_congr harrs fun y hy => h y (by simp [Action.uses, hy])
    simp only [act, he]
    refine (Beh.Rel.refl _).bind fun v _ hv => ?_
    subst hv
    exact store_same harrs (fun x hx => h x (by simp [Action.uses, hx])) v
  | arrayZero x size =>
    refine .pure (.normal ⟨?_, fun y hy => hy.resolve_left (by simp [Action.defs])⟩)
    simp [Store.setArr, harrs]
  | call f args target =>
    have hargs : evalArgs S call args σ = evalArgs S call args σ' :=
      evalArgs_congr harrs fun y hy => h y (by simp [Action.uses, hy])
    simp only [act, hargs]
    refine (Beh.Rel.refl _).bind fun vs _ hvs => ?_
    subst hvs
    refine (Beh.Rel.refl _).bind fun v _ hv => ?_
    subst hv
    cases target with
    | none => exact .pure (.normal (.start harrs))
    | some target => exact store_same harrs (fun x hx => h x (by simp [Action.uses, hx])) v
  | sysWriteConst fd cid size =>
    simp only [act]
    refine (Beh.Rel.refl _).bind fun text _ ht => ?_
    subst ht
    exact (Beh.Rel.refl (Beh.emit (.printStr text) : Beh (Event V) PUnit)).bind fun _ _ _ =>
      .pure (.normal (.start harrs))
  | sysWriteExpr e => exact emit_same harrs h .printInt
  | sysPauseExpr e => exact emit_same harrs h .pause
  | sysExitExpr e => exact return_same harrs h _
  | returnExpr e => exact return_same harrs h _

end

/-! ## The pass -/

theorem keepStores_get (i : ℕ) : (keepStores code)[i]? =
    code[i]?.map fun ins => if isDeadStore (liveness code) i ins then none else some ins := by
  simp [keepStores]

theorem keepStores_some {i : ℕ} {ins : Instr} (h : (keepStores code)[i]? = some (some ins)) :
    code[i]? = some ins := by
  rw [keepStores_get, Option.map_eq_some_iff] at h
  obtain ⟨ins', hins, h⟩ := h
  split_ifs at h
  cases h
  exact hins

theorem keepStores_label {i : ℕ} {l : Label} (h : code[i]? = some (.label l)) :
    (keepStores code)[i]? = some (some (.label l)) := by
  simp [keepStores_get, h, isDeadStore]

/-- The same arrays, and the same values in what is live. -/
def SameLive (code : List Instr) (i : ℕ) (σ σ' : Store V) : Prop :=
  σ.arrs = σ'.arrs ∧ ∀ x ∈ (liveness code).inAt i, σ.vars x = σ'.vars x

theorem SameLive.next {i j : ℕ} {ins : Instr} {σ σ' τ τ' : Store V} (h : SameLive code i σ σ')
    (hins : code[i]? = some ins) (hj : j ∈ successors code i ins)
    (hτ : SameAfter σ σ' (instrDefs ins) τ τ') : SameLive code j τ τ' := by
  refine ⟨hτ.1, fun x hx => hτ.2 x ?_⟩
  by_cases hdef : x ∈ instrDefs ins
  · exact .inl hdef
  · exact .inr (h.2 x (live_of_liveOut hins (liveOut_of_live hins hj hx) hdef))

theorem SameLive.flow {i j : ℕ} {ins : Instr} {σ σ' : Store V} (h : SameLive code i σ σ')
    (hins : code[i]? = some ins) (hj : j ∈ successors code i ins) (hdefs : instrDefs ins = ∅) :
    SameLive code j σ σ' :=
  h.next hins hj (hdefs ▸ .start h.1)

theorem keepStores_pass (hS : S.Safe) (hu : UniqueLabels code) (cs : List IrConstant) :
    Pass (irSem S call cs) (irSem S call cs) code (keepStores code) (SameLive code)
      (fun σ σ' => σ.arrs = σ'.arrs) where
  labels := ⟨hu, by simp [keepStores], fun h => keepStores_some h, fun _ h => keepStores_label h,
    fun _ h => keepStores_label h⟩
  ends h _ := h.1
  follows := by
    intro i ins y σ σ' hsame hins hy
    rw [keepStores_get, hins, Option.map_some, Option.some.injEq] at hy
    subst hy
    have huses : ∀ x ∈ instrUses ins, σ.vars x = σ'.vars x := fun x hx =>
      hsame.2 x (live_of_use hins hx)
    have hkept : ∀ {a : Action}, ins = .act a → Follows (irSem S call cs) (irSem S call cs) code
        (SameLive code) i σ σ' (.act a) (some (.act a)) := by
      rintro a rfl
      refine .act ?_
      have hrel : Beh.Rel (SameOut σ σ' a.defs) (act S call cs a σ) (act S call cs a σ') :=
        act_same hsame.1 cs huses
      -- an operation that exits needs nothing after it
      cases hexit : a.exits with
      | true =>
        cases a with
        | sysExitExpr e | returnExpr e => exact return_same hsame.1 huses _
        | _ => cases hexit
      | false =>
        exact hrel.mono fun o o' ho => ho.mono fun τ τ' hτ =>
          hsame.next hins (by simp [successors, hexit]) hτ
    cases ins with
    | label l => exact .label (hsame.flow hins (by simp [successors]) rfl)
    | goto l =>
      exact .goto fun q hq =>
        hsame.flow hins (by simp [successors, labelToIndex_eq hu, hq]) rfl
    | ifGoto c l =>
      refine .ifGoto ?_ (fun q hq => ?_) (hsame.flow hins (by simp [successors]) rfl)
      · have hc : eval S call c σ = eval S call c σ' := eval_congr hsame.1 huses
        simp only [irSem, test, hc]
      · exact hsame.flow hins (by simp [successors, labelToIndex_eq hu, hq]) rfl
    | act a =>
      split_ifs with hdead
      · cases a with
        | assign target e =>
          cases target with
          | var x =>
            obtain ⟨hx, hfree⟩ : x ∉ (liveness code).outAt i ∧ exprIsSideEffectFree e = true := by
              simpa [isDeadStore] using hdead
            obtain ⟨v, hv⟩ : ∃ v, eval S call e σ = pure v := eval_sideEffectFree hS σ hfree
            refine .skipAct (t := σ.setVar x v) (by simp [irSem, act, put, hv]) ⟨hsame.1, ?_⟩
            intro y hy
            have hout := liveOut_of_live hins (by simp [successors, Action.exits]) hy
            have hyx : y ≠ x := fun h => hx (h ▸ hout)
            refine (Function.update_of_ne hyx _ _).trans (hsame.2 y (live_of_liveOut hins hout ?_))
            simpa [instrDefs, Action.defs, LValue.defs] using hyx
          | array x index => simp [isDeadStore] at hdead
        | _ => simp [isDeadStore] at hdead
      · exact hkept rfl

theorem removeDeadStores_refines (hS : S.Safe) (hu : UniqueLabels code) :
    Refines S code (removeDeadStores code) :=
  .of_pass (fun _ cs => keepStores_pass hS hu cs) (fun _ => ⟨rfl, fun _ _ => rfl⟩) keepStores_some

end YHsys.Compiler
