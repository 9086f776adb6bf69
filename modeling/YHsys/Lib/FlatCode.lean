import YHsys.Lib.Behaviour

/-!
# Flat code with labels and jumps

Code is a list of instructions: actions on a state, labels, jumps and conditional jumps.
`run` is its behaviour, by unfolding one instruction at a time. `Tree` is the structured
form (sequence, two-way branch, loop) with its own behaviour, and `Tree.code` the usual
translation of it into flat code. In code whose labels are unique, running the translation
of a tree is the same as executing the tree and going on after it.

Actions, conditions, labels, states and results are arbitrary.
-/

namespace Flat

open Beh (bind_mono bind_sup sup sup_const)

/-- How a statement ends: in a state, or by ending the whole computation. -/
inductive Outcome (σ ρ : Type) where
  | normal (s : σ)
  | returned (r : ρ)
deriving DecidableEq, Repr

inductive Instr (A C L : Type) where
  | act (a : A)
  | label (l : L)
  | goto (l : L)
  | ifGoto (c : C) (l : L)
deriving DecidableEq, Repr

/-- The meaning of actions and of conditions, and what a jump to a label that is nowhere
shows before everything stops. -/
structure Sem (ε A C σ ρ : Type) where
  act : A → σ → Beh ε (Outcome σ ρ)
  test : C → σ → Beh ε Bool
  miss : List ε := []

variable {ε A C L σ ρ : Type}

/-- Go on with `k` unless the computation has ended. -/
def andThen (k : σ → Beh ε (Outcome σ ρ)) : Outcome σ ρ → Beh ε (Outcome σ ρ)
  | .normal s => k s
  | .returned r => pure (.returned r)

@[simp] theorem andThen_normal (k : σ → Beh ε (Outcome σ ρ)) (s : σ) :
    andThen k (.normal s) = k s := rfl

@[simp] theorem andThen_returned (k : σ → Beh ε (Outcome σ ρ)) (r : ρ) :
    andThen k (.returned r) = pure (.returned r) := rfl

theorem andThen_mono {k k' : σ → Beh ε (Outcome σ ρ)} (h : ∀ s, k s ≤ k' s) (o : Outcome σ ρ) :
    andThen k o ≤ andThen k' o := by
  cases o with
  | normal s => exact h s
  | returned r => exact le_rfl

@[simp] theorem andThen_pure (o : Outcome σ ρ) :
    andThen (fun s => (pure (.normal s) : Beh ε (Outcome σ ρ))) o = pure o := by
  cases o <;> rfl

theorem andThen_andThen (k k' : σ → Beh ε (Outcome σ ρ)) (o : Outcome σ ρ) :
    andThen k o >>= andThen k' = andThen (fun s => k s >>= andThen k') o := by
  cases o with
  | normal s => rfl
  | returned r => simp

/-! ## Running flat code -/

section Run

variable [DecidableEq L]

/-- The position of a label. -/
def find (code : List (Instr A C L)) (l : L) : Option ℕ :=
  code.findIdx? fun
    | .label l' => l' = l
    | _ => false

/-- Go on at a label; a label that is not there stops everything. -/
def jump (miss : List ε) (k : ℕ → σ → Beh ε (Outcome σ ρ)) (code : List (Instr A C L)) (l : L)
    (s : σ) : Beh ε (Outcome σ ρ) :=
  match find code l with
  | some p => k p s
  | none => .halt miss

/-- One instruction at position `pc`, and then `k` at the next position. -/
def step (S : Sem ε A C σ ρ) (code : List (Instr A C L)) (k : ℕ → σ → Beh ε (Outcome σ ρ))
    (pc : ℕ) (s : σ) : Beh ε (Outcome σ ρ) :=
  match code[pc]? with
  | none => pure (.normal s)
  | some (.act a) => S.act a s >>= andThen (k (pc + 1))
  | some (.label _) => k (pc + 1) s
  | some (.goto l) => jump S.miss k code l s
  | some (.ifGoto c l) =>
      S.test c s >>= fun b => if b then jump S.miss k code l s else k (pc + 1) s

/-- At most `n` instructions of a run. -/
def runN (S : Sem ε A C σ ρ) (code : List (Instr A C L)) : ℕ → ℕ → σ → Beh ε (Outcome σ ρ)
  | 0, _, _ => ⊥
  | n + 1, pc, s => step S code (runN S code n) pc s

/-- The run of `code` from position `pc`. It ends past the code, or by an action that
ends it. -/
def run (S : Sem ε A C σ ρ) (code : List (Instr A C L)) (pc : ℕ) (s : σ) :
    Beh ε (Outcome σ ρ) :=
  Beh.sup fun n => runN S code n pc s

variable {S : Sem ε A C σ ρ} {code : List (Instr A C L)}

theorem jump_mono {miss : List ε} {k k' : ℕ → σ → Beh ε (Outcome σ ρ)}
    (h : ∀ p s, k p s ≤ k' p s) (l : L) (s : σ) :
    jump miss k code l s ≤ jump miss k' code l s := by
  unfold jump
  split
  · exact h _ _
  · exact le_rfl

theorem step_mono {k k' : ℕ → σ → Beh ε (Outcome σ ρ)} (h : ∀ p s, k p s ≤ k' p s) (pc : ℕ)
    (s : σ) : step S code k pc s ≤ step S code k' pc s := by
  unfold step
  split
  · exact le_rfl
  · exact bind_mono le_rfl (andThen_mono (h _))
  · exact h _ _
  · exact jump_mono h _ _
  · refine bind_mono le_rfl fun b => ?_
    split
    · exact jump_mono h _ _
    · exact h _ _

theorem runN_le_succ (n pc : ℕ) (s : σ) : runN S code n pc s ≤ runN S code (n + 1) pc s := by
  induction n generalizing pc s with
  | zero => exact bot_le
  | succ n ih => exact step_mono ih pc s

theorem runN_le_run (n pc : ℕ) (s : σ) : runN S code n pc s ≤ run S code pc s :=
  Beh.le_sup (fun n => runN S code n pc s) n

theorem andThen_sup (k : ℕ → σ → Beh ε (Outcome σ ρ)) (o : Outcome σ ρ) :
    andThen (fun s => sup fun n => k n s) o = sup fun n => andThen (k n) o := by
  cases o with
  | normal s => rfl
  | returned r => exact (sup_const _).symm

theorem jump_sup {miss : List ε} (k : ℕ → ℕ → σ → Beh ε (Outcome σ ρ)) (l : L) (s : σ) :
    jump miss (fun p s => sup fun n => k n p s) code l s =
      sup fun n => jump miss (k n) code l s := by
  unfold jump
  split
  · rfl
  · exact (sup_const _).symm

theorem step_sup (k : ℕ → ℕ → σ → Beh ε (Outcome σ ρ)) (pc : ℕ) (s : σ) :
    step S code (fun p s => sup fun n => k n p s) pc s =
      sup fun n => step S code (k n) pc s := by
  unfold step
  split
  · exact (sup_const _).symm
  · rw [← bind_sup]
    congr 1
    funext o
    exact andThen_sup _ o
  · rfl
  · exact jump_sup k _ s
  · rw [← bind_sup]
    congr 1
    funext b
    cases b
    · rfl
    · exact jump_sup k _ s

theorem run_eq (pc : ℕ) (s : σ) : run S code pc s = step S code (run S code) pc s := by
  have hstep : step S code (run S code) pc s =
      sup fun n => step S code (runN S code n) pc s := step_sup _ pc s
  rw [hstep]
  exact Beh.sup_succ rfl

end Run

/-! ## Structured code -/

/-- Structured code, with the labels its translation uses. -/
inductive Tree (A C L : Type) where
  | skip
  | act (a : A)
  | seq (t u : Tree A C L)
  | ite (c : C) (thenL elseL endL : L) (t e : Tree A C L)
  | loop (c : C) (condL bodyL endL : L) (body : Tree A C L)

/-- At most `n` rounds of a loop. -/
def loopN (test : σ → Beh ε Bool) (body : σ → Beh ε (Outcome σ ρ)) :
    ℕ → σ → Beh ε (Outcome σ ρ)
  | 0, _ => ⊥
  | n + 1, s => test s >>= fun b =>
      if b then body s >>= andThen (loopN test body n) else pure (.normal s)

/-- While `test` holds, do `body`. -/
def loop (test : σ → Beh ε Bool) (body : σ → Beh ε (Outcome σ ρ)) (s : σ) :
    Beh ε (Outcome σ ρ) :=
  Beh.sup fun n => loopN test body n s

theorem loop_eq (test : σ → Beh ε Bool) (body : σ → Beh ε (Outcome σ ρ)) (s : σ) :
    loop test body s = test s >>= fun b =>
      if b then body s >>= andThen (loop test body) else pure (.normal s) := by
  have hround : ∀ b : Bool,
      (if b then body s >>= andThen (loop test body) else pure (.normal s)) =
        sup fun n =>
          if b then body s >>= andThen (loopN test body n) else pure (.normal s) := by
    intro b
    cases b
    · exact (sup_const _).symm
    · simp only [if_true]
      rw [← bind_sup]
      congr 1
      funext o
      exact andThen_sup _ o
  have hsucc : loop test body s = sup fun n => loopN test body (n + 1) s := Beh.sup_succ rfl
  rw [hsucc]
  simp only [hround, bind_sup]
  rfl

namespace Tree

/-- The behaviour of structured code. -/
def exec (S : Sem ε A C σ ρ) : Tree A C L → σ → Beh ε (Outcome σ ρ)
  | .skip, s => pure (.normal s)
  | .act a, s => S.act a s
  | .seq t u, s => t.exec S s >>= andThen (u.exec S)
  | .ite c _ _ _ t e, s => S.test c s >>= fun b => if b then t.exec S s else e.exec S s
  | .loop c _ _ _ body, s => Flat.loop (S.test c) (body.exec S) s

/-- The flat code of structured code. -/
def code : Tree A C L → List (Instr A C L)
  | .skip => []
  | .act a => [.act a]
  | .seq t u => t.code ++ u.code
  | .ite c thenL elseL endL t e =>
      [.ifGoto c thenL, .goto elseL, .label thenL] ++
        (t.code ++ ([.goto endL, .label elseL] ++ (e.code ++ [.label endL])))
  | .loop c condL bodyL endL body =>
      [.label condL, .ifGoto c bodyL, .goto endL, .label bodyL] ++
        (body.code ++ [.goto condL, .label endL])

end Tree

/-- `seg` stands in `code` from position `p` on. -/
def At (code : List (Instr A C L)) (p : ℕ) (seg : List (Instr A C L)) : Prop :=
  ∀ k, k < seg.length → code[p + k]? = seg[k]?

/-- No label stands at two places. -/
def UniqueLabels (code : List (Instr A C L)) : Prop :=
  ∀ (i j : ℕ) (l : L), code[i]? = some (.label l) → code[j]? = some (.label l) → i = j

/-- The labels of some code, in order. -/
def labels : List (Instr A C L) → List L
  | [] => []
  | .label l :: rest => l :: labels rest
  | _ :: rest => labels rest

@[simp] theorem labels_append (a b : List (Instr A C L)) :
    labels (a ++ b) = labels a ++ labels b := by
  induction a with
  | nil => rfl
  | cons i a ih => cases i <;> simp [labels, ih]

theorem mem_labels {code : List (Instr A C L)} {i : ℕ} {l : L}
    (h : code[i]? = some (.label l)) : l ∈ labels code := by
  induction code generalizing i with
  | nil => simp at h
  | cons x code ih =>
    cases i with
    | zero =>
      have hx : x = .label l := by simpa using h
      simp [hx, labels]
    | succ i =>
      have := ih (i := i) (by simpa using h)
      cases x <;> simp [labels, this]

/-- The label an instruction jumps to. -/
def Instr.target : Instr A C L → Option L
  | .goto l => some l
  | .ifGoto _ l => some l
  | _ => none

theorem Tree.target_mem (t : Tree A C L) {i : Instr A C L} (hi : i ∈ t.code) {l : L}
    (hl : i.target = some l) : l ∈ labels t.code := by
  induction t with
  | skip => cases hi
  | act a =>
    rw [Tree.code, List.mem_singleton] at hi
    subst hi
    cases hl
  | seq t u iht ihu =>
    simp only [Tree.code, labels_append, List.mem_append] at hi ⊢
    exact hi.imp iht ihu
  | ite c thenL elseL endL t e iht ihe =>
    simp only [Tree.code, labels_append, labels, List.mem_append, List.mem_cons] at hi ⊢
    rcases hi with (rfl | rfl | rfl | hi) | hi | (rfl | rfl | hi) | hi | rfl | hi <;>
      simp_all [Instr.target]
  | loop c condL bodyL endL body ih =>
    simp only [Tree.code, labels_append, labels, List.mem_append, List.mem_cons] at hi ⊢
    rcases hi with (rfl | rfl | rfl | rfl | hi) | hi | rfl | rfl | hi <;>
      simp_all [Instr.target]

theorem uniqueLabels_of_nodup {code : List (Instr A C L)} (h : (labels code).Nodup) :
    UniqueLabels code := by
  induction code with
  | nil =>
    intro i j l hi
    simp at hi
  | cons x code ih =>
    -- a label at the head does not come back in the tail
    have htail : (labels code).Nodup := by
      cases x with
      | label l => exact (List.nodup_cons.mp h).2
      | act a => exact h
      | goto l => exact h
      | ifGoto c l => exact h
    have hhead : ∀ (l : L) (j : ℕ), x = .label l → code[j]? ≠ some (.label l) := by
      rintro l j rfl hj
      exact (List.nodup_cons.mp h).1 (mem_labels hj)
    intro i j l hi hj
    cases i with
    | zero =>
      have hx : x = .label l := by simpa using hi
      cases j with
      | zero => rfl
      | succ j => exact absurd (by simpa using hj) (hhead l j hx)
    | succ i =>
      cases j with
      | zero =>
        have hx : x = .label l := by simpa using hj
        exact absurd (by simpa using hi) (hhead l i hx)
      | succ j =>
        have := ih htail i j l (by simpa using hi) (by simpa using hj)
        omega

section Placement

variable {code a b : List (Instr A C L)} {i : Instr A C L} {p : ℕ}

theorem At.refl (code : List (Instr A C L)) : At code 0 code := by
  intro k _
  rw [Nat.zero_add]

theorem At.left (h : At code p (a ++ b)) : At code p a := by
  intro k hk
  rw [h k (by rw [List.length_append]; omega), List.getElem?_append_left hk]

theorem At.right (h : At code p (a ++ b)) : At code (p + a.length) b := by
  intro k hk
  have h' := h (a.length + k) (by rw [List.length_append]; omega)
  rw [List.getElem?_append_right (by omega), Nat.add_sub_cancel_left] at h'
  rw [← h', Nat.add_assoc]

theorem At.head (h : At code p (i :: a)) : code[p]? = some i := h 0 (by simp)

theorem At.tail (h : At code p (i :: a)) : At code (p + 1) a := At.right (a := [i]) h

theorem find_eq [DecidableEq L] {l : L} (hu : UniqueLabels code)
    (h : code[p]? = some (.label l)) : find code l = some p := by
  unfold find
  have hlt : p < code.length := (List.getElem?_eq_some_iff.mp h).1
  have hp : code.get ⟨p, hlt⟩ = .label l := (List.getElem?_eq_some_iff.mp h).2
  rw [List.findIdx?_eq_some_iff_getElem]
  refine ⟨hlt, ?_, ?_⟩
  · rw [show code[p] = .label l from hp]
    simp
  · -- an earlier hit would be a second place of the label
    intro j hj hhit
    have hget : code[j]? = some code[j] := List.getElem?_eq_getElem _
    cases hc : code[j] with
    | label l' =>
      rw [hc] at hhit hget
      have hl : l' = l := by simpa using hhit
      rw [hl] at hget
      exact absurd (hu j p l hget h) (by omega)
    | act a => rw [hc] at hhit; simp at hhit
    | goto l' => rw [hc] at hhit; simp at hhit
    | ifGoto c l' => rw [hc] at hhit; simp at hhit

theorem At.ite {c : C} {thenL elseL endL : L} {t e : Tree A C L}
    (h : At code p (Tree.ite c thenL elseL endL t e).code) :
    let q := p + 3 + t.code.length
    code[p]? = some (.ifGoto c thenL) ∧ code[p + 1]? = some (.goto elseL) ∧
      code[p + 2]? = some (.label thenL) ∧ At code (p + 3) t.code ∧
      code[q]? = some (.goto endL) ∧ code[q + 1]? = some (.label elseL) ∧
      At code (q + 2) e.code ∧ code[q + 2 + e.code.length]? = some (.label endL) := by
  have hrest : At code (p + 3) _ := h.right
  have helse : At code (p + 3 + t.code.length + 2) _ := hrest.right.right
  exact ⟨h.left.head, h.left.tail.head, h.left.tail.tail.head, hrest.left,
    hrest.right.left.head, hrest.right.left.tail.head, helse.left, helse.right.head⟩

theorem At.loop {c : C} {condL bodyL endL : L} {body : Tree A C L}
    (h : At code p (Tree.loop c condL bodyL endL body).code) :
    let q := p + 4 + body.code.length
    code[p]? = some (.label condL) ∧ code[p + 1]? = some (.ifGoto c bodyL) ∧
      code[p + 2]? = some (.goto endL) ∧ code[p + 3]? = some (.label bodyL) ∧
      At code (p + 4) body.code ∧ code[q]? = some (.goto condL) ∧
      code[q + 1]? = some (.label endL) := by
  have hrest : At code (p + 4) _ := h.right
  exact ⟨h.left.head, h.left.tail.head, h.left.tail.tail.head, h.left.tail.tail.tail.head,
    hrest.left, hrest.right.head, hrest.right.tail.head⟩

theorem Tree.length_ite (c : C) (thenL elseL endL : L) (t e : Tree A C L) :
    (Tree.ite c thenL elseL endL t e).code.length =
      3 + t.code.length + 2 + e.code.length + 1 := by
  simp [Tree.code]
  omega

theorem Tree.length_loop (c : C) (condL bodyL endL : L) (body : Tree A C L) :
    (Tree.loop c condL bodyL endL body).code.length = 4 + body.code.length + 2 := by
  simp [Tree.code]
  omega

end Placement

/-! ## The translation is right

`K` stands for the rest of a run: `runN n` for the bound from above, where the round of a
loop is paid for by the jump back, and `run` for the bound from below. -/

section Translation

variable [DecidableEq L] {S : Sem ε A C σ ρ} {code : List (Instr A C L)} {p : ℕ}
  {K : ℕ → σ → Beh ε (Outcome σ ρ)}

theorem step_act {a : A} (h : code[p]? = some (.act a)) (s : σ) :
    step S code K p s = S.act a s >>= andThen (K (p + 1)) := by
  simp [step, h]

theorem step_label {l : L} (h : code[p]? = some (.label l)) (s : σ) :
    step S code K p s = K (p + 1) s := by
  simp [step, h]

theorem step_goto {l : L} {q : ℕ} (hu : UniqueLabels code) (h : code[p]? = some (.goto l))
    (hl : code[q]? = some (.label l)) (s : σ) : step S code K p s = K q s := by
  simp [step, h, jump, find_eq hu hl]

theorem step_ifGoto {c : C} {l : L} {q : ℕ} (hu : UniqueLabels code)
    (h : code[p]? = some (.ifGoto c l)) (hl : code[q]? = some (.label l)) (s : σ) :
    step S code K p s = S.test c s >>= fun b => if b then K q s else K (p + 1) s := by
  simp [step, h, jump, find_eq hu hl]

theorem runN_le_step (n : ℕ) (p : ℕ) (s : σ) :
    runN S code n p s ≤ step S code (runN S code n) p s :=
  runN_le_succ n p s

theorem runN_loop_le {c : C} {condL bodyL endL : L} {body : Tree A C L} (hu : UniqueLabels code)
    (h : At code p (Tree.loop c condL bodyL endL body).code) (n : ℕ) (s : σ) :
    runN S code n p s ≤ S.test c s >>= fun b =>
      if b then runN S code n (p + 4) s
      else runN S code n (p + (Tree.loop c condL bodyL endL body).code.length) s := by
  obtain ⟨hcond, hif, hgoto, hbody, -, -, hend⟩ := h.loop
  have hexit : runN S code n (p + 2) s ≤
      runN S code n (p + (Tree.loop c condL bodyL endL body).code.length) s := by
    refine (runN_le_step n _ s).trans ?_
    rw [step_goto hu hgoto hend]
    refine (runN_le_step n _ s).trans ?_
    rw [step_label hend, Tree.length_loop]
    exact le_of_eq (by congr 1; omega)
  refine (runN_le_step n p s).trans ?_
  rw [step_label hcond]
  refine (runN_le_step n _ s).trans ?_
  rw [step_ifGoto hu hif hbody]
  refine bind_mono le_rfl fun b => ?_
  cases b with
  | false => exact hexit
  | true =>
    refine (runN_le_step n _ s).trans ?_
    rw [step_label hbody]
    exact le_rfl

/-- Running the code of a tree does no more than the tree. -/
theorem runN_le_exec (hu : UniqueLabels code) (t : Tree A C L) :
    ∀ (p n : ℕ) (s : σ), At code p t.code →
      runN S code n p s ≤ t.exec S s >>= andThen (runN S code n (p + t.code.length)) := by
  induction t with
  | skip =>
    intro p n s _
    simp [Tree.exec, Tree.code]
  | act a =>
    intro p n s h
    refine (runN_le_step n p s).trans ?_
    rw [step_act h.head]
    exact le_rfl
  | seq t u iht ihu =>
    intro p n s h
    have hu' : ∀ s, runN S code n (p + t.code.length) s ≤
        u.exec S s >>= andThen (runN S code n (p + (t.seq u).code.length)) := by
      intro s
      have := ihu (p + t.code.length) n s h.right
      rwa [Nat.add_assoc, ← List.length_append] at this
    refine (iht p n s h.left).trans ?_
    simp only [Tree.exec, Beh.bind_assoc', andThen_andThen]
    exact bind_mono le_rfl (andThen_mono hu')
  | ite c thenL elseL endL t e iht ihe =>
    intro p n s h
    obtain ⟨hif, hgoto, hthen, ht, hgend, helse, he, hend⟩ := h.ite
    have hlen := Tree.length_ite c thenL elseL endL t e
    -- both branches meet at the last label
    have hout : ∀ s, runN S code n (p + 3 + t.code.length + 2 + e.code.length) s ≤
        runN S code n (p + (Tree.ite c thenL elseL endL t e).code.length) s := by
      intro s
      refine (runN_le_step n _ s).trans ?_
      rw [step_label hend]
      exact le_of_eq (by congr 1; omega)
    have hthen' : runN S code n (p + 2) s ≤ t.exec S s >>=
        andThen (runN S code n (p + (Tree.ite c thenL elseL endL t e).code.length)) := by
      refine (runN_le_step n _ s).trans ?_
      rw [step_label hthen]
      refine (iht _ n s ht).trans (bind_mono le_rfl (andThen_mono fun s => ?_))
      refine (runN_le_step n _ s).trans ?_
      rw [step_goto hu hgend hend]
      exact hout s
    have helse' : runN S code n (p + 1) s ≤ e.exec S s >>=
        andThen (runN S code n (p + (Tree.ite c thenL elseL endL t e).code.length)) := by
      refine (runN_le_step n _ s).trans ?_
      rw [step_goto hu hgoto helse]
      refine (runN_le_step n _ s).trans ?_
      rw [step_label helse]
      exact (ihe _ n s he).trans (bind_mono le_rfl (andThen_mono hout))
    refine (runN_le_step n p s).trans ?_
    rw [step_ifGoto hu hif hthen]
    simp only [Tree.exec, Beh.bind_assoc']
    refine bind_mono le_rfl fun b => ?_
    cases b with
    | true => exact hthen'
    | false => exact helse'
  | loop c condL bodyL endL body ih =>
    intro p n s h
    obtain ⟨hcond, -, -, -, hbody, hback, -⟩ := h.loop
    -- by induction on the number of instructions: the jump back takes one
    induction n generalizing s with
    | zero => exact bot_le
    | succ n ihn =>
      refine (runN_loop_le hu h (n + 1) s).trans ?_
      simp only [Tree.exec]
      rw [loop_eq, Beh.bind_assoc']
      refine bind_mono le_rfl fun b => ?_
      cases b with
      | false => simp
      | true =>
        simp only [if_true, Beh.bind_assoc', andThen_andThen]
        refine (ih _ (n + 1) s hbody).trans (bind_mono le_rfl (andThen_mono fun s => ?_))
        refine le_trans (le_of_eq (step_goto hu hback hcond s)) ((ihn s).trans ?_)
        exact bind_mono le_rfl (andThen_mono fun s => runN_le_succ n _ s)

/-- Running the code of a tree does all that the tree does. -/
theorem exec_le_run (hu : UniqueLabels code) (t : Tree A C L) :
    ∀ (p : ℕ) (s : σ), At code p t.code →
      t.exec S s >>= andThen (run S code (p + t.code.length)) ≤ run S code p s := by
  induction t with
  | skip =>
    intro p s _
    simp [Tree.exec, Tree.code]
  | act a =>
    intro p s h
    rw [run_eq p s, step_act h.head]
    exact le_rfl
  | seq t u iht ihu =>
    intro p s h
    have hu' : ∀ s, u.exec S s >>= andThen (run S code (p + (t.seq u).code.length)) ≤
        run S code (p + t.code.length) s := by
      intro s
      have := ihu (p + t.code.length) s h.right
      rwa [Nat.add_assoc, ← List.length_append] at this
    refine le_trans ?_ (iht p s h.left)
    simp only [Tree.exec, Beh.bind_assoc', andThen_andThen]
    exact bind_mono le_rfl (andThen_mono hu')
  | ite c thenL elseL endL t e iht ihe =>
    intro p s h
    obtain ⟨hif, hgoto, hthen, ht, hgend, helse, he, hend⟩ := h.ite
    have hlen := Tree.length_ite c thenL elseL endL t e
    have hout : run S code (p + (Tree.ite c thenL elseL endL t e).code.length) =
        run S code (p + 3 + t.code.length + 2 + e.code.length) := by
      funext s
      rw [run_eq (p + 3 + t.code.length + 2 + e.code.length), step_label hend]
      congr 1
      omega
    have hback : run S code (p + 3 + t.code.length) =
        run S code (p + 3 + t.code.length + 2 + e.code.length) := by
      funext s
      rw [run_eq (p + 3 + t.code.length), step_goto hu hgend hend]
    rw [run_eq p s, step_ifGoto hu hif hthen, run_eq (p + 2) s, step_label hthen,
      run_eq (p + 1) s, step_goto hu hgoto helse, run_eq (p + 3 + t.code.length + 1) s,
      step_label helse, hout]
    simp only [Tree.exec, Beh.bind_assoc']
    refine bind_mono le_rfl fun b => ?_
    cases b with
    | true =>
      have := iht (p + 3) s ht
      rwa [hback] at this
    | false => exact ihe _ s he
  | loop c condL bodyL endL body ih =>
    intro p s h
    obtain ⟨hcond, hif, hgoto, hlab, hbody, hback, hend⟩ := h.loop
    have hlen := Tree.length_loop c condL bodyL endL body
    have hout : run S code (p + (Tree.loop c condL bodyL endL body).code.length) =
        run S code (p + 4 + body.code.length + 1) := by
      funext s
      rw [run_eq (p + 4 + body.code.length + 1), step_label hend]
      congr 1
      omega
    have hround : run S code (p + 4 + body.code.length) = run S code p := by
      funext s
      rw [run_eq _ s, step_goto hu hback hcond]
    -- by induction on the number of rounds
    simp only [Tree.exec, Flat.loop, Beh.sup_bind]
    refine Beh.sup_le fun n => ?_
    induction n generalizing s with
    | zero => simp [loopN]
    | succ n ihn =>
      rw [run_eq p s, step_label hcond, run_eq (p + 1) s, step_ifGoto hu hif hlab,
        run_eq (p + 3) s, step_label hlab, run_eq (p + 1 + 1) s, step_goto hu hgoto hend]
      simp only [loopN, Beh.bind_assoc']
      refine bind_mono le_rfl fun b => ?_
      cases b with
      | false => simp [hout]
      | true =>
        have hb := ih (p + 4) s hbody
        rw [hround] at hb
        simp only [if_true, Beh.bind_assoc', andThen_andThen]
        exact (bind_mono le_rfl (andThen_mono ihn)).trans hb

theorem run_tree (hu : UniqueLabels code) (t : Tree A C L) (h : At code p t.code) (s : σ) :
    run S code p s = t.exec S s >>= andThen (run S code (p + t.code.length)) := by
  apply le_antisymm
  · refine Beh.sup_le fun n => (runN_le_exec hu t p n s h).trans ?_
    exact bind_mono le_rfl (andThen_mono (runN_le_run n _))
  · exact exec_le_run hu t p s h

theorem run_past (h : code.length ≤ p) (s : σ) : run S code p s = pure (.normal s) := by
  rw [run_eq, step, List.getElem?_eq_none h]

theorem run_code (t : Tree A C L) (hu : UniqueLabels t.code) (s : σ) :
    run S t.code 0 s = t.exec S s := by
  have hend : run S t.code (0 + t.code.length) = fun s => pure (.normal s) := by
    funext s
    exact run_past (by omega) s
  rw [run_tree hu t (At.refl _) s, hend]
  simp only [funext andThen_pure, Beh.bind_pure']

end Translation

end Flat
