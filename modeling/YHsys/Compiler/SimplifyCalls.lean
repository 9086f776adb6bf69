import YHsys.Compiler.FoldExact
import YHsys.Compiler.OptimizeSound
import YHsys.Lib.BehaviourTrace

/-!
# Simplification and calls

`_simplify_expr` replaces `e * 0`, `e && 0` and `e || 1` by a constant, whatever `e` does: the
calls in `e` are gone. This is the only way in which calls can be lost. Where every fold is
exact, a simplified expression behaves as the old one if every subexpression that is evaluated
and is made a constant evaluates silently (`Silent`), however the called functions behave. If
the result of a call depends on its arguments only, this condition is exact: otherwise the
simplified expression makes fewer calls.
-/

namespace YHsys.Compiler

open Beh (ofOption_some shows_bind shows_bind_pure shows_nil)

open Except (bind_eq_ok ok_bind)

variable {V : Type} {S : OpSem V} {hL : S.Laws} {call : String → List V → Beh (Event V) V}
  {env : ConstEnv} {σ : Store V}

/-- Every fold is right in `S`, but any operand may be dropped. -/
def valueSpec (S : OpSem V) (hL : S.Laws) : FoldSpec :=
  { exactSpec S hL with drop := fun _ => True }

/-- Evaluating the first expression may come to evaluate the second, a part of it. -/
inductive Evaluates (S : OpSem V) (call : String → List V → Beh (Event V) V) (σ : Store V) :
    Expr → Expr → Prop where
  | refl (e : Expr) : Evaluates S call σ e e
  | array {x : String} {index d : Expr} (h : Evaluates S call σ index d) :
      Evaluates S call σ (.array x index) d
  | arg {f : String} {args : List Expr} {a d : Expr} (ha : a ∈ args)
      (h : Evaluates S call σ a d) : Evaluates S call σ (.call f args) d
  | unary {op : UnaryOp} {a d : Expr} (h : Evaluates S call σ a d) :
      Evaluates S call σ (.unary op a) d
  | left {op : BinaryOp} {a b d : Expr} (h : Evaluates S call σ a d) :
      Evaluates S call σ (.binary op a b) d
  | right {op : BinaryOp} {a b d : Expr}
      (hreach : ∀ z, op.absorbing = some z →
        ∃ t v, (eval S call a σ).Obs t (some v) ∧ S.truthy v ≠ z)
      (h : Evaluates S call σ b d) : Evaluates S call σ (.binary op a b) d

/-- What is evaluated and made a constant by the simplification shows nothing. -/
def Silent (S : OpSem V) (call : String → List V → Beh (Event V) V) (env : ConstEnv)
    (σ : Store V) (e : Expr) : Prop :=
  ∀ d n, Evaluates S call σ e d → simplify env d = .ok (.int n) → ∃ v, eval S call d σ = pure v

/-! ## One operator -/

section

variable {op : BinaryOp} {a b c : Expr}

theorem BinaryOk.exact (h : BinaryOk (valueSpec S hL) op a b)
    (hc : simplifyBinary op a b = .ok c) (hne : c.isConst = false) :
    BinaryOk (exactSpec S hL) op a b := by
  by_cases hconst : a.isConst = true ∧ b.isConst = true
  · obtain ⟨m, rfl⟩ := isConst_iff.mp hconst.1
    obtain ⟨n, rfl⟩ := isConst_iff.mp hconst.2
    exact h
  · rw [simplifyBinary_rules op hconst] at hc
    cases hc
    have hdrop : ∀ {P : Prop} {n : ℤ}, simplifyRules op a b = .int n → P := by
      intro P n hn
      rw [hn] at hne
      cases hne
    unfold BinaryOk at h ⊢
    split at h
    · exact h
    · cases hop : op.absorbing with
      | some z =>
        rw [hop] at h
        refine ⟨h.1, h.2.1, fun hb => hdrop (n := pyBool z) ?_⟩
        rw [simplifyRules_logical hop, if_pos (.inr hb)]
      | none =>
        rintro rfl
        constructor
        · rintro rfl
          exact hdrop (n := 0) (by simp [simplifyRules])
        · rintro rfl
          exact hdrop (n := 0) (by simp [simplifyRules])

/-- A constant made of an operator is its value, if it has one. -/
theorem BinaryOk.const_value {n : ℤ} (h : BinaryOk (valueSpec S hL) op a b)
    (hc : simplifyBinary op a b = .ok (.int n)) {t : List (Event V)} {w : V}
    (hw : (eval S call (.binary op a b) σ).Obs t (some w)) : w = S.lit n := by
  by_cases hconst : a.isConst = true ∧ b.isConst = true
  · obtain ⟨m, rfl⟩ := isConst_iff.mp hconst.1
    obtain ⟨k, rfl⟩ := isConst_iff.mp hconst.2
    have hexact : BinaryOk (exactSpec S hL) op (.int m) (.int k) := h
    rw [simplifyBinary_int] at hc
    split at hc
    · cases hc
    · rename_i hdiv
      obtain ⟨l, hl⟩ := (binaryOk_int hexact).resolve_left hdiv
      rw [hl.fold, ok_bind] at hc
      cases hc
      rw [eval_binary_int, hl.value, ofOption_some] at hw
      exact (Beh.obs_pure_some.mp hw).2
  · rw [simplifyBinary_rules op hconst, Except.ok.injEq] at hc
    cases hop : op.absorbing with
    | some z =>
      obtain ⟨ha, hb, -⟩ := binaryOk_logical hop hconst h
      have h0 : (truthyConst a = some z ∨ truthyConst b = some z) ∧ n = pyBool z := by
        rw [simplifyRules_logical hop] at hc
        split_ifs at hc with h0
        · exact ⟨h0, (Expr.int.inj hc).symm⟩
        · cases hc
        · cases hc
      obtain ⟨h0, rfl⟩ := h0
      rw [eval_logical hop] at hw
      obtain ⟨t1, t2, v, -, hv, hw⟩ := Beh.obs_bind_some.mp hw
      split_ifs at hw with hz
      · exact (Beh.obs_pure_some.mp hw).2
      · -- the right operand decides
        obtain ⟨_, _, u, -, hu, hw⟩ := Beh.obs_bind_some.mp hw
        rw [(Beh.obs_pure_some.mp hw).2]
        rcases h0 with h0 | h0
        · obtain ⟨m, rfl, hm⟩ := TestOk.truthy (show TestOk (exactSpec S hL) a from ha) h0
          rw [(Beh.obs_pure_some.mp hv).2] at hz
          exact absurd hm hz
        · obtain ⟨m, rfl, hm⟩ := TestOk.truthy (show TestOk (exactSpec S hL) b from hb) h0
          rw [(Beh.obs_pure_some.mp hu).2, hm]
          rfl
    | none =>
      have hmul : op = .mul ∧ (a = .int 0 ∨ b = .int 0) ∧ n = 0 := by
        cases op with
        | mul =>
          simp only [simplifyRules] at hc
          split_ifs at hc with h0 h1 h2
          · exact ⟨rfl, h0, (Expr.int.inj hc).symm⟩
          · exact absurd ⟨by rw [h1]; rfl, by rw [hc]; rfl⟩ hconst
          · exact absurd ⟨by rw [hc]; rfl, by rw [h2]; rfl⟩ hconst
        | add =>
          simp only [simplifyRules] at hc
          split_ifs at hc with h1 h2
          · exact absurd ⟨by rw [h1]; rfl, by rw [hc]; rfl⟩ hconst
          · exact absurd ⟨by rw [hc]; rfl, by rw [h2]; rfl⟩ hconst
        | sub | div =>
          simp only [simplifyRules] at hc
          split_ifs at hc with h2
          exact absurd ⟨by rw [hc]; rfl, by rw [h2]; rfl⟩ hconst
        | land | lor => cases hop
        | _ => cases hc
      obtain ⟨rfl, h0, rfl⟩ := hmul
      simp only [eval] at hw
      obtain ⟨_, _, v, -, hv, hrest⟩ := Beh.obs_bind_some.mp hw
      obtain ⟨_, _, u, -, hu, hprod⟩ := Beh.obs_bind_some.mp hrest
      rcases h0 with rfl | rfl
      · rw [(Beh.obs_pure_some.mp hv).2, hL.zero_mul, ofOption_some] at hprod
        exact (Beh.obs_pure_some.mp hprod).2
      · rw [(Beh.obs_pure_some.mp hu).2, hL.mul_zero, ofOption_some] at hprod
        exact (Beh.obs_pure_some.mp hprod).2

end

/-! ## Silent drops keep the behaviour -/

theorem eval_binary_silent {op : BinaryOp} {a a' b b' : Expr}
    (ha : eval S call a' σ = eval S call a σ)
    (hb : (∀ z, op.absorbing = some z →
      ∃ t v, (eval S call a σ).Obs t (some v) ∧ S.truthy v ≠ z) →
      eval S call b' σ = eval S call b σ) :
    eval S call (.binary op a' b') σ = eval S call (.binary op a b) σ := by
  cases hop : op.absorbing with
  | none => exact eval_binary_congr ha (hb (by simp [hop])) op
  | some z =>
    rw [eval_logical hop, eval_logical hop, ha]
    refine Beh.bind_congr_obs fun t v hv => ?_
    split_ifs with hz
    · rfl
    · rw [hb fun z' hz' => ⟨t, v, hv, by cases hop.symm.trans hz'; exact hz⟩]

theorem Silent.part {e d : Expr} (h : Silent S call env σ e)
    (hpart : ∀ {c}, Evaluates S call σ d c → Evaluates S call σ e c) : Silent S call env σ d :=
  fun c n hc => h c n (hpart hc)

mutual
theorem eval_simplify_silent (hT : S.Total) (hσ : env.Agrees S σ) :
    ∀ {e e' : Expr}, FoldsOk (valueSpec S hL) env e → simplify env e = .ok e' →
      Silent S call env σ e → eval S call e' σ = eval S call e σ
  | .int n, e', _, h, _ => by
    cases h
    rfl
  | .var x, e', _, h, _ => by
    cases h
    exact eval_simplifyVar hσ x
  | .array x index, e', hex, h, hs => by
    rw [FoldsOk] at hex
    obtain ⟨i, hi, h⟩ := bind_eq_ok.mp h
    cases h
    have heq := eval_simplify_silent hT hσ hex hi (hs.part .array)
    simp only [eval, heq]
  | .call f args, e', hex, h, hs => by
    rw [FoldsOk] at hex
    obtain ⟨as, has, h⟩ := bind_eq_ok.mp h
    cases h
    have heq := evalArgs_simplifyArgs_silent hT hσ hex has fun a ha => hs.part (.arg ha)
    simp only [eval, heq]
  | .unary op a, e', hex, h, hs => by
    rw [FoldsOk] at hex
    obtain ⟨a', ha, h⟩ := bind_eq_ok.mp h
    cases h
    rw [eval_simplifyUnary fun n hn => hex.2 n (hn ▸ ha)]
    exact eval_unary_congr (eval_simplify_silent hT hσ hex.1 ha (hs.part .unary)) op
  | .binary op a b, e', hex, h, hs => by
    rw [FoldsOk] at hex
    obtain ⟨hexa, hexb, hop⟩ := hex
    have hsimp := h
    obtain ⟨a', ha, h⟩ := bind_eq_ok.mp h
    obtain ⟨b', hb, h⟩ := bind_eq_ok.mp h
    have hok := hop a' b' ha hb
    have hea := eval_simplify_silent hT hσ hexa ha (hs.part .left)
    have hnode : eval S call (.binary op a' b') σ = eval S call (.binary op a b) σ :=
      eval_binary_silent hea
        (fun hreach => eval_simplify_silent hT hσ hexb hb (hs.part (.right hreach)))
    cases hc : e'.isConst with
    | false => rw [eval_simplifyBinary hL hT (hok.exact h hc) h, hnode]
    | true =>
      -- a constant: the operator shows nothing and has this value
      obtain ⟨n, rfl⟩ := isConst_iff.mp hc
      obtain ⟨v, hv⟩ := hs _ n (.refl _) hsimp
      have hvalue : v = S.lit n := by
        have hobs : (eval S call (.binary op a' b') σ).Obs [] (some v) := by
          rw [hnode, hv]
          exact Beh.obs_pure_some.mpr ⟨rfl, rfl⟩
        exact hok.const_value h hobs
      rw [hv, hvalue, eval]

theorem evalArgs_simplifyArgs_silent (hT : S.Total) (hσ : env.Agrees S σ) :
    ∀ {es es' : List Expr}, ArgsFoldOk (valueSpec S hL) env es → simplifyArgs env es = .ok es' →
      (∀ e ∈ es, Silent S call env σ e) → evalArgs S call es' σ = evalArgs S call es σ
  | [], es', _, h, _ => by
    cases h
    rfl
  | e :: es, es', hex, h, hs => by
    rw [ArgsFoldOk] at hex
    obtain ⟨e', he, h⟩ := bind_eq_ok.mp h
    obtain ⟨es', hes, h⟩ := bind_eq_ok.mp h
    cases h
    have heq := eval_simplify_silent hT hσ hex.1 he (hs e (by simp))
    have heqs := evalArgs_simplifyArgs_silent hT hσ hex.2 hes fun x hx => hs x (by simp [hx])
    simp only [evalArgs, heq, heqs]
end

/-! ## Functions of their arguments -/

/-- Functions whose results depend on their arguments only. -/
def pureCall (F : String → List V → V) (f : String) (vs : List V) : Beh (Event V) V :=
  Beh.emit (.call f vs) >>= fun _ => pure (F f vs)

theorem pureCall_shows (F : String → List V → V) (f : String) (vs : List V) :
    pureCall F f vs = .shows [.call f vs] (F f vs) := by
  rw [pureCall, Beh.emit_eq_shows]
  exact shows_bind_pure rfl

section

variable {F : String → List V → V}

/-- Whether the right operand is evaluated, from the value of the left one. -/
def reaches (S : OpSem V) (op : BinaryOp) (v : V) : Bool :=
  op.absorbing.all fun z => S.truthy v != z

theorem eval_binary_shows (call : String → List V → Beh (Event V) V) (σ : Store V) (hT : S.Total) (op : BinaryOp) (v w : V) : ∃ u, ∀ {a b : Expr}
    {t t' : List (Event V)}, eval S call a σ = .shows t v → eval S call b σ = .shows t' w →
      eval S call (.binary op a b) σ = .shows (if reaches S op v then t ++ t' else t) u := by
  cases hop : op.absorbing with
  | some z =>
    by_cases hz : S.truthy v = z
    · have hreach : reaches S op v = false := by simp [reaches, hop, hz]
      refine ⟨S.bool z, fun {a b t t'} ha hb => ?_⟩
      rw [eval_logical hop, ha, hreach, if_neg Bool.false_ne_true]
      exact shows_bind_pure (if_pos hz)
    · have hreach : reaches S op v = true := by simp [reaches, hop, hz]
      refine ⟨S.bool (S.truthy w), fun {a b t t'} ha hb => ?_⟩
      rw [eval_logical hop, ha, hb, if_pos hreach]
      exact shows_bind ((if_neg hz).trans (shows_bind_pure rfl))
  | none =>
    have hreach : reaches S op v = true := by simp [reaches, hop]
    obtain ⟨u, hu⟩ := hT.binary op v w
    refine ⟨u, fun {a b t t'} ha hb => ?_⟩
    rw [eval_arith hop, ha, hb, if_pos hreach]
    exact shows_bind (shows_bind_pure (by rw [hu, ofOption_some]))

theorem BinaryOk.shows {op : BinaryOp} {a b c : Expr} (hT : S.Total)
    (h : BinaryOk (valueSpec S hL) op a b) (hc : simplifyBinary op a b = .ok c)
    {t : List (Event V)} {u : V} (hab : eval S call (.binary op a b) σ = .shows t u) :
    ∃ t', eval S call c σ = .shows t' u ∧ t'.length ≤ t.length := by
  cases hconst : c.isConst with
  | false =>
    refine ⟨t, ?_, le_rfl⟩
    rw [eval_simplifyBinary hL hT (h.exact hc hconst) hc, hab]
  | true =>
    obtain ⟨n, rfl⟩ := isConst_iff.mp hconst
    have hobs : (eval S call (.binary op a b) σ).Obs t (some u) := by
      rw [hab]
      exact Beh.obs_shows_some.mpr ⟨rfl, rfl⟩
    have hu : u = S.lit n := h.const_value hc hobs
    exact ⟨[], by rw [eval, hu, shows_nil], Nat.zero_le _⟩

theorem silent_root {e e' : Expr} {t t' : List (Event V)} {v : V} {n : ℤ}
    (hsimp : simplify env e = .ok e') (he : eval S call e σ = .shows t v)
    (he' : eval S call e' σ = .shows t' v) (hlen : t'.length = t.length)
    (hn : simplify env e = .ok (.int n)) : ∃ v, eval S call e σ = pure v := by
  cases hsimp.symm.trans hn
  rw [eval, ← shows_nil] at he'
  obtain ⟨rfl, -⟩ := Beh.shows_inj he'
  obtain rfl : t = [] := List.length_eq_zero_iff.mp hlen.symm
  exact ⟨v, by rw [he, shows_nil]⟩

mutual
/-- Simplification keeps the value and loses calls at most; if it loses none, all that became
constants is silent. -/
theorem simplify_calls (hT : S.Total) (hσ : env.Agrees S σ) (F : String → List V → V) :
    ∀ {e e' : Expr}, FoldsOk (valueSpec S hL) env e → simplify env e = .ok e' →
      ∃ t t' v, eval S (pureCall F) e σ = .shows t v ∧ eval S (pureCall F) e' σ = .shows t' v ∧
        t'.length ≤ t.length ∧ (t'.length = t.length → Silent S (pureCall F) env σ e)
  | .int n, e', _, h => by
    cases h
    refine ⟨[], [], S.lit n, by rw [eval, shows_nil], by rw [eval, shows_nil], le_rfl,
      fun _ d k hd _ => ?_⟩
    cases hd
    exact ⟨_, rfl⟩
  | .var x, e', _, h => by
    cases h
    refine ⟨[], [], σ.vars x, by rw [eval, shows_nil], ?_, le_rfl, fun _ d k hd _ => ?_⟩
    · rw [eval_simplifyVar hσ, eval, shows_nil]
    · cases hd
      exact ⟨_, rfl⟩
  | .array x index, e', hex, h => by
    rw [FoldsOk] at hex
    obtain ⟨index', hi, h⟩ := bind_eq_ok.mp h
    cases h
    obtain ⟨t, t', i, ht, ht', hle, hs⟩ := simplify_calls hT hσ F hex hi
    obtain ⟨v, hv⟩ := hT.read (σ.arrs x) i
    have hread : (Beh.ofOption (S.read (σ.arrs x) i) : Beh (Event V) V) = pure v := by
      rw [hv, ofOption_some]
    refine ⟨t, t', v, by rw [eval, ht]; exact shows_bind_pure hread,
      by rw [eval, ht']; exact shows_bind_pure hread, hle, fun hlen d k hd hk => ?_⟩
    cases hd with
    | refl =>
      rw [simplify, hi] at hk
      cases hk
    | array hd => exact hs hlen d k hd hk
  | .call f args, e', hex, h => by
    rw [FoldsOk] at hex
    obtain ⟨args', hargs, h⟩ := bind_eq_ok.mp h
    cases h
    obtain ⟨t, t', vs, ht, ht', hle, hs⟩ := simplifyArgs_calls hT hσ F hex hargs
    refine ⟨t ++ [.call f vs], t' ++ [.call f vs], F f vs,
      by rw [eval, ht]; exact shows_bind (pureCall_shows F f vs),
      by rw [eval, ht']; exact shows_bind (pureCall_shows F f vs), by simpa using hle,
      fun hlen d k hd hk => ?_⟩
    cases hd with
    | refl =>
      rw [simplify, hargs] at hk
      cases hk
    | arg ha hd => exact hs (by simpa using hlen) _ ha d k hd hk
  | .unary op a, e', hex, h => by
    rw [FoldsOk] at hex
    have hsimp := h
    obtain ⟨a', ha, h⟩ := bind_eq_ok.mp h
    obtain ⟨t, t', v, ht, ht', hle, hs⟩ := simplify_calls hT hσ F hex.1 ha
    obtain ⟨w, hw⟩ := hT.unary op v
    have hop : (Beh.ofOption (S.unary op v) : Beh (Event V) V) = pure w := by
      rw [hw, ofOption_some]
    have he : eval S (pureCall F) (.unary op a) σ = .shows t w := by
      rw [eval, ht]
      exact shows_bind_pure hop
    have he' : eval S (pureCall F) e' σ = .shows t' w := by
      cases h
      rw [eval_simplifyUnary fun n hn => hex.2 n (hn ▸ ha), eval, ht']
      exact shows_bind_pure hop
    refine ⟨t, t', w, he, he', hle, fun hlen d k hd hk => ?_⟩
    cases hd with
    | refl => exact silent_root hsimp he he' hlen hk
    | unary hd => exact hs hlen d k hd hk
  | .binary op a b, e', hex, h => by
    rw [FoldsOk] at hex
    obtain ⟨hexa, hexb, hok⟩ := hex
    have hsimp := h
    obtain ⟨a', ha, h⟩ := bind_eq_ok.mp h
    obtain ⟨b', hb, h⟩ := bind_eq_ok.mp h
    obtain ⟨ta, ta', v, hta, hta', hlea, hsa⟩ := simplify_calls hT hσ F hexa ha
    obtain ⟨tb, tb', w, htb, htb', hleb, hsb⟩ := simplify_calls hT hσ F hexb hb
    obtain ⟨u, hu⟩ := eval_binary_shows (pureCall F) σ hT op v w
    have he := hu hta htb
    obtain ⟨t', he', hle⟩ := (hok a' b' ha hb).shows hT h (hu hta' htb')
    -- of the trace of the operator nothing is lost if nothing of the parts' traces is
    have hparts : t'.length ≤ (if reaches S op v then ta ++ tb else ta).length ∧
        (t'.length = (if reaches S op v then ta ++ tb else ta).length →
          ta'.length = ta.length ∧ (reaches S op v = true → tb'.length = tb.length)) := by
      cases hr : reaches S op v
      · simp only [hr, Bool.false_eq_true, if_false] at hle ⊢
        exact ⟨hle.trans hlea, fun hlen => ⟨by omega, nofun⟩⟩
      · simp only [hr, if_true, List.length_append] at hle ⊢
        exact ⟨by omega, fun hlen => ⟨by omega, fun _ => by omega⟩⟩
    refine ⟨_, t', u, he, he', hparts.1, fun hlen d k hd hk => ?_⟩
    obtain ⟨hlena, hlenb⟩ := hparts.2 hlen
    cases hd with
    | refl => exact silent_root hsimp he he' hlen hk
    | left hd => exact hsa hlena d k hd hk
    | right hreach hd =>
      refine hsb (hlenb ?_) d k hd hk
      simp only [reaches, Option.all_eq_true, bne_iff_ne]
      intro z hz
      obtain ⟨t, v', hv', hne⟩ := hreach z hz
      rw [hta] at hv'
      rwa [(Beh.obs_shows_some.mp hv').2] at hne

theorem simplifyArgs_calls (hT : S.Total) (hσ : env.Agrees S σ) (F : String → List V → V) :
    ∀ {es es' : List Expr}, ArgsFoldOk (valueSpec S hL) env es → simplifyArgs env es = .ok es' →
      ∃ t t' vs, evalArgs S (pureCall F) es σ = .shows t vs ∧
        evalArgs S (pureCall F) es' σ = .shows t' vs ∧ t'.length ≤ t.length ∧
        (t'.length = t.length → ∀ e ∈ es, Silent S (pureCall F) env σ e)
  | [], es', _, h => by
    cases h
    exact ⟨[], [], [], by rw [evalArgs, shows_nil], by rw [evalArgs, shows_nil], le_rfl,
      fun _ => by simp⟩
  | e :: es, es', hex, h => by
    rw [ArgsFoldOk] at hex
    obtain ⟨e', he, h⟩ := bind_eq_ok.mp h
    obtain ⟨es', hes, h⟩ := bind_eq_ok.mp h
    cases h
    obtain ⟨t, t', v, ht, ht', hle, hs⟩ := simplify_calls hT hσ F hex.1 he
    obtain ⟨u, u', vs, hu, hu', hles, hss⟩ := simplifyArgs_calls hT hσ F hex.2 hes
    refine ⟨t ++ u, t' ++ u', v :: vs, ?_, ?_, by simp only [List.length_append]; omega,
      fun hlen x hx => ?_⟩
    · rw [evalArgs, ht, hu]
      exact shows_bind (shows_bind_pure rfl)
    · rw [evalArgs, ht', hu']
      exact shows_bind (shows_bind_pure rfl)
    · simp only [List.length_append] at hlen
      rcases List.mem_cons.mp hx with rfl | hx
      · exact hs (by omega)
      · exact hss (by omega) x hx
end

end

end YHsys.Compiler
