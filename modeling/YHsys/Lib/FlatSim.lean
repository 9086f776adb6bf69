import Mathlib.Data.List.ReduceOption
import YHsys.Lib.FlatCode

/-!
# Rewriting flat code in place

A pass over flat code that keeps, changes or drops each instruction is given by a list
`kept` that says for each position what stands there afterwards. `Follows` is what such a
pass has to show, one instruction at a time, for a relation `R` between the states at each
position; `run_rel` concludes that the whole runs, from any related states, show the same
events and end in the same way.
-/

namespace Flat

variable {ε A C A' C' L σ σ' ρ : Type}

/-- Outcomes that are the same up to a relation of the states. -/
inductive OutRel (R : σ → σ' → Prop) : Outcome σ ρ → Outcome σ' ρ → Prop where
  | normal {s : σ} {s' : σ'} (h : R s s') : OutRel R (.normal s) (.normal s')
  | returned (r : ρ) : OutRel R (.returned r) (.returned r)

theorem OutRel.mono {R R' : σ → σ' → Prop} {o : Outcome σ ρ} {o' : Outcome σ' ρ}
    (h : OutRel R o o') (hR : ∀ s s', R s s' → R' s s') : OutRel R' o o' := by
  cases h with
  | normal h => exact .normal (hR _ _ h)
  | returned r => exact .returned r

/-! ## Positions -/

/-- Where position `i` is found after the dropped instructions are gone. -/
def newPos {α : Type} (kept : List (Option α)) (i : ℕ) : ℕ := (kept.take i).reduceOption.length

section Positions

variable {α : Type} {kept : List (Option α)} {i : ℕ}

theorem take_succ_of_get {x : Option α} (h : kept[i]? = some x) :
    kept.take (i + 1) = kept.take i ++ [x] := by
  rw [List.take_add_one, h]
  rfl

theorem newPos_drop (h : kept[i]? = some none) : newPos kept (i + 1) = newPos kept i := by
  simp [newPos, take_succ_of_get h, List.reduceOption_append]

theorem newPos_keep {x : α} (h : kept[i]? = some (some x)) :
    newPos kept (i + 1) = newPos kept i + 1 := by
  simp [newPos, take_succ_of_get h, List.reduceOption_append]

theorem newPos_mono (kept : List (Option α)) {j : ℕ} (h : i ≤ j) : newPos kept i ≤ newPos kept j := by
  have hsub : (kept.take i).reduceOption.Sublist (kept.take j).reduceOption :=
    (List.take_sublist_take_left h).filterMap _
  exact hsub.length_le

theorem get_newPos {x : α} (h : kept[i]? = some (some x)) :
    kept.reduceOption[newPos kept i]? = some x := by
  obtain ⟨hlt, hx⟩ := List.getElem?_eq_some_iff.mp h
  have hsplit : kept = kept.take i ++ some x :: kept.drop (i + 1) := by
    rw [← hx, List.getElem_cons_drop, List.take_append_drop]
  have hred : kept.reduceOption =
      (kept.take i).reduceOption ++ x :: (kept.drop (i + 1)).reduceOption := by
    conv_lhs => rw [hsplit]
    rw [List.reduceOption_append, List.reduceOption_cons_of_some]
  rw [hred, newPos, List.getElem?_append_right (Nat.le_refl _), Nat.sub_self]
  rfl

theorem get_newPos_end (h : kept.length ≤ i) : kept.reduceOption[newPos kept i]? = none := by
  rw [newPos, List.take_of_length_le h]
  simp

theorem exists_newPos {x : α} {p : ℕ} (h : kept.reduceOption[p]? = some x) :
    ∃ i, kept[i]? = some (some x) ∧ newPos kept i = p := by
  induction kept generalizing p with
  | nil => simp at h
  | cons y kept ih =>
    cases y with
    | none =>
      obtain ⟨i, hi, hp⟩ := ih (by simpa using h)
      exact ⟨i + 1, by simpa using hi, by simpa [newPos] using hp⟩
    | some y =>
      cases p with
      | zero => exact ⟨0, by simpa using h, rfl⟩
      | succ p =>
        obtain ⟨i, hi, hp⟩ := ih (by simpa using h)
        exact ⟨i + 1, by simpa using hi, by simpa [newPos] using hp⟩

end Positions

/-! ## Labels -/

section Labels

variable {code : List (Instr A C L)} {kept : List (Option (Instr A' C' L))}

/-- The pass moves no label and drops none that a jump needs. -/
structure KeepsLabels (code : List (Instr A C L)) (kept : List (Option (Instr A' C' L))) :
    Prop where
  unique : UniqueLabels code
  length : kept.length = code.length
  old : ∀ {q : ℕ} {l : L}, kept[q]? = some (some (.label l)) → code[q]? = some (.label l)
  goto : ∀ {i q : ℕ} {l : L}, kept[i]? = some (some (.goto l)) → code[q]? = some (.label l) →
    kept[q]? = some (some (.label l))
  ifGoto : ∀ {i q : ℕ} {c : C'} {l : L}, kept[i]? = some (some (.ifGoto c l)) → code[q]? = some (.label l) →
    kept[q]? = some (some (.label l))

theorem KeepsLabels.unique_new (h : KeepsLabels code kept) : UniqueLabels kept.reduceOption := by
  intro p p' l hp hp'
  obtain ⟨i, hi, rfl⟩ := exists_newPos hp
  obtain ⟨j, hj, rfl⟩ := exists_newPos hp'
  rw [h.unique i j l (h.old hi) (h.old hj)]

variable [DecidableEq L]

theorem find_some {code : List (Instr A C L)} {l : L} {q : ℕ} (h : find code l = some q) :
    code[q]? = some (.label l) := by
  obtain ⟨hlt, hp, -⟩ := List.findIdx?_eq_some_iff_getElem.mp h
  rw [List.getElem?_eq_getElem hlt]
  cases hc : code[q] with
  | label l' =>
    rw [hc] at hp
    rw [show l' = l by simpa using hp]
  | act a => rw [hc] at hp; simp at hp
  | goto l' => rw [hc] at hp; simp at hp
  | ifGoto c l' => rw [hc] at hp; simp at hp

theorem find_none {code : List (Instr A C L)} {l : L} (h : find code l = none) (q : ℕ) :
    code[q]? ≠ some (.label l) := by
  intro hq
  obtain ⟨hlt, hx⟩ := List.getElem?_eq_some_iff.mp hq
  have := List.findIdx?_eq_none_iff.mp h code[q] (List.getElem_mem hlt)
  rw [hx] at this
  simp at this

theorem KeepsLabels.find_keep (h : KeepsLabels code kept) {l : L} {q : ℕ}
    (hq : kept[q]? = some (some (.label l))) :
    find kept.reduceOption l = some (newPos kept q) :=
  find_eq h.unique_new (get_newPos hq)

theorem KeepsLabels.find_gone (h : KeepsLabels code kept) {l : L} (hl : find code l = none) :
    find kept.reduceOption l = none := by
  cases hf : find kept.reduceOption l with
  | none => rfl
  | some p =>
    obtain ⟨i, hi, -⟩ := exists_newPos (find_some hf)
    exact absurd (h.old hi) (find_none hl i)

end Labels

/-! ## Simulation -/

section Simulation

variable [DecidableEq L]

/-- What becomes of the instruction at position `i` in states that `R` relates. -/
inductive Follows (S : Sem ε A C σ ρ) (S' : Sem ε A' C' σ' ρ) (code : List (Instr A C L))
    (R : ℕ → σ → σ' → Prop) (i : ℕ) (s : σ) (s' : σ') :
    Instr A C L → Option (Instr A' C' L) → Prop where
  | act {a : A} {a' : A'} (h : Beh.Rel (OutRel (R (i + 1))) (S.act a s) (S'.act a' s')) :
      Follows S S' code R i s s' (.act a) (some (.act a'))
  | skipAct {a : A} {t : σ} (h : S.act a s = pure (.normal t)) (hR : R (i + 1) t s') :
      Follows S S' code R i s s' (.act a) none
  | label {l : L} (hR : R (i + 1) s s') :
      Follows S S' code R i s s' (.label l) (some (.label l))
  | skipLabel {l : L} (hR : R (i + 1) s s') : Follows S S' code R i s s' (.label l) none
  | goto {l : L} (hjump : ∀ q, find code l = some q → R q s s') :
      Follows S S' code R i s s' (.goto l) (some (.goto l))
  | skipGoto {l : L} (hl : find code l = some (i + 1)) (hR : R (i + 1) s s') :
      Follows S S' code R i s s' (.goto l) none
  | ifGoto {c : C} {c' : C'} {l : L} (htest : S.test c s = S'.test c' s')
      (hjump : ∀ q, find code l = some q → R q s s') (hR : R (i + 1) s s') :
      Follows S S' code R i s s' (.ifGoto c l) (some (.ifGoto c' l))
  | always {c : C} {l : L} (htest : S.test c s = pure true)
      (hjump : ∀ q, find code l = some q → R q s s') :
      Follows S S' code R i s s' (.ifGoto c l) (some (.goto l))
  | never {c : C} {l : L} (htest : S.test c s = pure false) (hR : R (i + 1) s s') :
      Follows S S' code R i s s' (.ifGoto c l) none

/-- A correct pass. -/
structure Pass (S : Sem ε A C σ ρ) (S' : Sem ε A' C' σ' ρ) (code : List (Instr A C L))
    (kept : List (Option (Instr A' C' L))) (R : ℕ → σ → σ' → Prop) (F : σ → σ' → Prop) :
    Prop where
  labels : KeepsLabels code kept
  follows : ∀ {i : ℕ} {x : Instr A C L} {y : Option (Instr A' C' L)} {s : σ} {s' : σ'},
    R i s s' → code[i]? = some x → kept[i]? = some y →
    Follows S S' code R i s s' x y
  ends : ∀ {i : ℕ} {s : σ} {s' : σ'}, R i s s' → code.length ≤ i → F s s'
  miss : S.miss = S'.miss := by rfl

namespace Pass

variable {S : Sem ε A C σ ρ} {S' : Sem ε A' C' σ' ρ} {code : List (Instr A C L)}
  {kept : List (Option (Instr A' C' L))} {R : ℕ → σ → σ' → Prop} {F : σ → σ' → Prop}

theorem get (h : Pass S S' code kept R F) {i : ℕ} (hi : i < code.length) :
    ∃ x y, code[i]? = some x ∧ kept[i]? = some y :=
  ⟨_, _, List.getElem?_eq_getElem hi, List.getElem?_eq_getElem (h.labels.length ▸ hi)⟩

theorem jump_cases (h : Pass S S' code kept R F) (k : ℕ → σ → Beh ε (Outcome σ ρ))
    (k' : ℕ → σ' → Beh ε (Outcome σ' ρ)) {l : L} (s : σ) (s' : σ')
    (hkeep : ∀ q : ℕ, code[q]? = some (.label l) → kept[q]? = some (some (.label l))) :
    (∃ q, find code l = some q ∧ jump S.miss k code l s = k q s ∧
      jump S'.miss k' kept.reduceOption l s' = k' (newPos kept q) s') ∨
    (jump S.miss k code l s = .halt S.miss ∧
      jump S'.miss k' kept.reduceOption l s' = .halt S.miss) := by
  unfold jump
  cases hl : find code l with
  | none =>
    rw [h.labels.find_gone hl, h.miss]
    exact .inr ⟨rfl, rfl⟩
  | some q =>
    rw [h.labels.find_keep (hkeep q (find_some hl))]
    exact .inl ⟨q, rfl, rfl, rfl⟩

theorem jump_sim (h : Pass S S' code kept R F) {k : ℕ → σ → Beh ε (Outcome σ ρ)}
    {k' : ℕ → σ' → Beh ε (Outcome σ' ρ)} {l : L} {s : σ} {s' : σ'}
    (hkeep : ∀ q : ℕ, code[q]? = some (.label l) → kept[q]? = some (some (.label l)))
    (hk : ∀ q, find code l = some q →
      Beh.Sim (OutRel F) (k q s) (k' (newPos kept q) s')) :
    Beh.Sim (OutRel F) (jump S.miss k code l s) (jump S'.miss k' kept.reduceOption l s') := by
  obtain ⟨q, hq, hj, hj'⟩ | ⟨hj, hj'⟩ := h.jump_cases k k' s s' hkeep
  · rw [hj, hj']
    exact hk q hq
  · rw [hj, hj']
    exact .halt _ _

theorem jump_sim_back (h : Pass S S' code kept R F) {k : ℕ → σ → Beh ε (Outcome σ ρ)}
    {k' : ℕ → σ' → Beh ε (Outcome σ' ρ)} {l : L} {s : σ} {s' : σ'}
    (hkeep : ∀ q : ℕ, code[q]? = some (.label l) → kept[q]? = some (some (.label l)))
    (hk : ∀ q, find code l = some q →
      Beh.Sim (fun o' o => OutRel F o o') (k' (newPos kept q) s') (k q s)) :
    Beh.Sim (fun o' o => OutRel F o o') (jump S'.miss k' kept.reduceOption l s')
      (jump S.miss k code l s) := by
  obtain ⟨q, hq, hj, hj'⟩ | ⟨hj, hj'⟩ := h.jump_cases k k' s s' hkeep
  · rw [hj, hj']
    exact hk q hq
  · rw [hj, hj']
    exact .halt _ _

theorem runN_sim (h : Pass S S' code kept R F) (n : ℕ) :
    ∀ {i : ℕ} {s : σ} {s' : σ'}, R i s s' →
      Beh.Sim (OutRel F) (runN S code n i s) (run S' kept.reduceOption (newPos kept i) s') := by
  induction n with
  | zero => exact fun _ => .bot _ _
  | succ n ih =>
    intro i s s' hR
    show Beh.Sim _ (step S code (runN S code n) i s) _
    by_cases hi : i < code.length
    · obtain ⟨x, y, hx, hy⟩ := h.get hi
      have hf := h.follows hR hx hy
      cases hf with
      | act hact =>
        rw [run_eq, step_act hx, step_act (get_newPos hy), ← newPos_keep hy]
        refine hact.left.bind fun o o' ho => ?_
        cases ho with
        | normal hR' => exact ih hR'
        | returned r => exact .pure (.returned r)
      | skipAct hact hR' =>
        rw [step_act hx, hact, Beh.pure_bind', andThen_normal, ← newPos_drop hy]
        exact ih hR'
      | label hR' =>
        rw [run_eq, step_label hx, step_label (get_newPos hy), ← newPos_keep hy]
        exact ih hR'
      | skipLabel hR' =>
        rw [step_label hx, ← newPos_drop hy]
        exact ih hR'
      | goto hjump =>
        rw [run_eq]
        simp only [step, hx, get_newPos hy]
        exact h.jump_sim (fun q hq => h.labels.goto hy hq) fun q hq => ih (hjump q hq)
      | skipGoto hl hR' =>
        simp only [step, hx, jump, hl]
        rw [← newPos_drop hy]
        exact ih hR'
      | ifGoto htest hjump hR' =>
        rw [run_eq]
        simp only [step, hx, get_newPos hy, htest]
        refine (Beh.Rel.refl _).left.bind fun b b' hb => ?_
        subst hb
        cases b with
        | true => exact h.jump_sim (fun q hq => h.labels.ifGoto hy hq) fun q hq => ih (hjump q hq)
        | false =>
          rw [← newPos_keep hy]
          exact ih hR'
      | always htest hjump =>
        rw [run_eq]
        simp only [step, hx, get_newPos hy, htest, Beh.pure_bind', if_true]
        exact h.jump_sim (fun q hq => h.labels.goto hy hq) fun q hq => ih (hjump q hq)
      | never htest hR' =>
        simp only [step, hx, htest, Beh.pure_bind', Bool.false_eq_true, if_false]
        rw [← newPos_drop hy]
        exact ih hR'
    · rw [run_eq]
      have hend : kept.length ≤ i := h.labels.length ▸ Nat.le_of_not_lt hi
      simp only [step, List.getElem?_eq_none (Nat.le_of_not_lt hi), get_newPos_end hend]
      exact .pure (.normal (h.ends hR (Nat.le_of_not_lt hi)))

/-- Every run of the new code is one of the old code. The second induction passes over the
instructions that were dropped. -/
theorem runN_sim_back (h : Pass S S' code kept R F) (n : ℕ) :
    ∀ {i : ℕ} {s : σ} {s' : σ'}, R i s s' →
      Beh.Sim (fun o' o => OutRel F o o') (runN S' kept.reduceOption n (newPos kept i) s')
        (run S code i s) := by
  induction n with
  | zero => exact fun _ => .bot _ _
  | succ n ih =>
    intro i s s' hR
    obtain ⟨d, hd⟩ : ∃ d, code.length - i = d := ⟨_, rfl⟩
    induction d generalizing i s with
    | zero =>
      have hi : code.length ≤ i := by omega
      show Beh.Sim _ (step S' kept.reduceOption _ (newPos kept i) s') _
      rw [run_eq]
      have hend : kept.length ≤ i := h.labels.length ▸ hi
      simp only [step, List.getElem?_eq_none hi, get_newPos_end hend]
      exact .pure (.normal (h.ends hR hi))
    | succ d ihd =>
      obtain ⟨x, y, hx, hy⟩ := h.get (i := i) (by omega)
      have hf := h.follows hR hx hy
      rw [run_eq]
      cases hf with
      | act hact =>
        show Beh.Sim _ (step S' kept.reduceOption _ (newPos kept i) s') _
        rw [step_act hx, step_act (get_newPos hy), ← newPos_keep hy]
        refine hact.right.bind fun o' o ho => ?_
        cases ho with
        | normal hR' => exact ih hR'
        | returned r => exact .pure (.returned r)
      | skipAct hact hR' =>
        rw [step_act hx, hact, Beh.pure_bind', andThen_normal, ← newPos_drop hy]
        exact ihd hR' (by omega)
      | label hR' =>
        show Beh.Sim _ (step S' kept.reduceOption _ (newPos kept i) s') _
        rw [step_label hx, step_label (get_newPos hy), ← newPos_keep hy]
        exact ih hR'
      | skipLabel hR' =>
        rw [step_label hx, ← newPos_drop hy]
        exact ihd hR' (by omega)
      | goto hjump =>
        show Beh.Sim _ (step S' kept.reduceOption _ (newPos kept i) s') _
        simp only [step, hx, get_newPos hy]
        exact h.jump_sim_back (fun q hq => h.labels.goto hy hq) fun q hq => ih (hjump q hq)
      | skipGoto hl hR' =>
        simp only [step, hx, jump, hl]
        rw [← newPos_drop hy]
        exact ihd hR' (by omega)
      | ifGoto htest hjump hR' =>
        show Beh.Sim _ (step S' kept.reduceOption _ (newPos kept i) s') _
        simp only [step, hx, get_newPos hy, htest]
        refine (Beh.Rel.refl _).left.bind fun b b' hb => ?_
        subst hb
        cases b with
        | true =>
          exact h.jump_sim_back (fun q hq => h.labels.ifGoto hy hq) fun q hq => ih (hjump q hq)
        | false =>
          rw [← newPos_keep hy]
          exact ih hR'
      | always htest hjump =>
        show Beh.Sim _ (step S' kept.reduceOption _ (newPos kept i) s') _
        simp only [step, hx, get_newPos hy, htest, Beh.pure_bind', if_true]
        exact h.jump_sim_back (fun q hq => h.labels.goto hy hq) fun q hq => ih (hjump q hq)
      | never htest hR' =>
        simp only [step, hx, htest, Beh.pure_bind', Bool.false_eq_true, if_false]
        rw [← newPos_drop hy]
        exact ihd hR' (by omega)

theorem run_rel (h : Pass S S' code kept R F) {i : ℕ} {s : σ} {s' : σ'} (hR : R i s s') :
    Beh.Rel (OutRel F) (run S code i s) (run S' kept.reduceOption (newPos kept i) s') :=
  ⟨.sup fun n => h.runN_sim n hR, .sup fun n => h.runN_sim_back n hR⟩

end Pass

end Simulation

end Flat
