import Mathlib.Logic.Relation
import YHsys.Lib.FlatCode

/-!
# Where control can go in flat code

`Goes` is a step of control that takes every branch to be possible, `ends` tells the actions
that end a run. Structured code can be left at its end iff some path through it meets no such
action (`Tree.completes`): then control reaches the position after it, and otherwise no
position outside it. A run that goes past the end of the code follows such steps.
-/

namespace Flat

variable {ε A C L σ ρ : Type} {ends : A → Bool}

namespace Tree

/-- Some path through the code comes out at its end. -/
def completes (ends : A → Bool) : Tree A C L → Bool
  | .skip => true
  | .act a => !ends a
  | .seq t u => t.completes ends && u.completes ends
  | .ite _ _ _ _ t e => t.completes ends || e.completes ends
  | .loop _ _ _ _ _ => true

/-- The positions inside the code of a tree at `p` where control can be. -/
def Live (ends : A → Bool) : Tree A C L → ℕ → ℕ → Prop
  | .skip, _, _ => False
  | .act _, p, q => q = p
  | .seq t u, p, q =>
      t.Live ends p q ∨ t.completes ends = true ∧ u.Live ends (p + t.code.length) q
  | .ite _ _ _ _ t e, p, q =>
      let r := p + 3 + t.code.length
      q = p ∨ q = p + 1 ∨ q = p + 2 ∨ t.Live ends (p + 3) q ∨
        (t.completes ends = true ∧ q = r) ∨ q = r + 1 ∨ e.Live ends (r + 2) q ∨
        ((t.completes ends || e.completes ends) = true ∧ q = r + 2 + e.code.length)
  | .loop _ _ _ _ body, p, q =>
      let r := p + 4 + body.code.length
      q = p ∨ q = p + 1 ∨ q = p + 2 ∨ q = p + 3 ∨ body.Live ends (p + 4) q ∨
        (body.completes ends = true ∧ q = r) ∨ q = r + 1

theorem Live.lt {t : Tree A C L} : ∀ {p q : ℕ}, t.Live ends p q → q < p + t.code.length := by
  induction t with
  | skip => exact fun h => h.elim
  | act a =>
    rintro p q rfl
    simp [Tree.code]
  | seq t u iht ihu =>
    rintro p q (h | ⟨-, h⟩)
    · have := iht h
      rw [Tree.code, List.length_append]
      omega
    · have := ihu h
      rw [Tree.code, List.length_append]
      omega
  | ite c thenL elseL endL t e iht ihe =>
    intro p q h
    rw [length_ite]
    rcases h with rfl | rfl | rfl | h | ⟨-, rfl⟩ | rfl | h | ⟨-, rfl⟩
    · omega
    · omega
    · omega
    · have := iht h
      omega
    · omega
    · omega
    · have := ihe h
      omega
    · omega
  | loop c condL bodyL endL body ih =>
    intro p q h
    rw [length_loop]
    rcases h with rfl | rfl | rfl | rfl | h | ⟨-, rfl⟩ | rfl
    · omega
    · omega
    · omega
    · omega
    · have := ih h
      omega
    · omega
    · omega

theorem live_start (ends : A → Bool) (t : Tree A C L) :
    ∀ p, t.Live ends p p ∨ t.completes ends = true ∧ t.code.length = 0 := by
  induction t with
  | skip => exact fun p => .inr ⟨rfl, rfl⟩
  | act a => exact fun p => .inl rfl
  | seq t u iht ihu =>
    intro p
    rcases iht p with ht | ⟨hc, hlen⟩
    · exact .inl (.inl ht)
    · rcases ihu p with hu | ⟨hc', hlen'⟩
      · exact .inl (.inr ⟨hc, by rwa [hlen]⟩)
      · exact .inr ⟨Bool.and_eq_true_iff.mpr ⟨hc, hc'⟩, by
          rw [Tree.code, List.length_append, hlen, hlen']⟩
  | ite c thenL elseL endL t e iht ihe => exact fun p => .inl (.inl rfl)
  | loop c condL bodyL endL body ih => exact fun p => .inl (.inl rfl)

/-- Control can come to an action or a condition with a property. -/
def meets (ends pa : A → Bool) (pc : C → Bool) : Tree A C L → Bool
  | .skip => false
  | .act a => pa a
  | .seq t u => t.meets ends pa pc || t.completes ends && u.meets ends pa pc
  | .ite c _ _ _ t e => pc c || t.meets ends pa pc || e.meets ends pa pc
  | .loop c _ _ _ body => pc c || body.meets ends pa pc

end Tree

/-- An action or a condition with a property. -/
def Instr.holds (pa : A → Bool) (pc : C → Bool) : Instr A C L → Bool
  | .act a => pa a
  | .ifGoto c _ => pc c
  | .label _ => false
  | .goto _ => false

/-! ## Control -/

variable [DecidableEq L] {code : List (Instr A C L)} {p q : ℕ}

/-- Control can go from one position to another. -/
inductive Goes (ends : A → Bool) (code : List (Instr A C L)) : ℕ → ℕ → Prop where
  | act {p : ℕ} {a : A} (h : code[p]? = some (.act a)) (ha : ends a = false) :
      Goes ends code p (p + 1)
  | label {p : ℕ} {l : L} (h : code[p]? = some (.label l)) : Goes ends code p (p + 1)
  | goto {p q : ℕ} {l : L} (h : code[p]? = some (.goto l)) (hl : find code l = some q) :
      Goes ends code p q
  | taken {p q : ℕ} {c : C} {l : L} (h : code[p]? = some (.ifGoto c l))
      (hl : find code l = some q) : Goes ends code p q
  | passed {p : ℕ} {c : C} {l : L} (h : code[p]? = some (.ifGoto c l)) :
      Goes ends code p (p + 1)

/-- Control can get from one position to another. -/
def Reaches (ends : A → Bool) (code : List (Instr A C L)) : ℕ → ℕ → Prop :=
  Relation.ReflTransGen (Goes ends code)

theorem Reaches.refl (p : ℕ) : Reaches ends code p p := Relation.ReflTransGen.refl

theorem Goes.reaches (h : Goes ends code p q) : Reaches ends code p q :=
  Relation.ReflTransGen.single h

theorem Reaches.trans {r : ℕ} (h : Reaches ends code p q) (h' : Reaches ends code q r) :
    Reaches ends code p r :=
  Relation.ReflTransGen.trans h h'

/-! ### What a step can be, by the instruction -/

theorem Goes.of_act {a : A} (h : Goes ends code p q) (hp : code[p]? = some (.act a)) :
    ends a = false ∧ q = p + 1 := by
  cases h with
  | act h ha =>
    rw [hp] at h
    cases h
    exact ⟨ha, rfl⟩
  | label h | goto h | taken h | passed h => rw [hp] at h; cases h

theorem Goes.of_label {l : L} (h : Goes ends code p q) (hp : code[p]? = some (.label l)) :
    q = p + 1 := by
  cases h with
  | act | label | passed => rfl
  | goto h | taken h => rw [hp] at h; cases h

theorem Goes.of_goto {l : L} {r : ℕ} (hu : UniqueLabels code) (h : Goes ends code p q)
    (hp : code[p]? = some (.goto l)) (hr : code[r]? = some (.label l)) : q = r := by
  cases h with
  | goto h hl =>
    rw [hp] at h
    cases h
    rw [find_eq hu hr] at hl
    cases hl
    rfl
  | act h | label h | taken h | passed h => rw [hp] at h; cases h

theorem Goes.of_ifGoto {c : C} {l : L} {r : ℕ} (hu : UniqueLabels code) (h : Goes ends code p q)
    (hp : code[p]? = some (.ifGoto c l)) (hr : code[r]? = some (.label l)) :
    q = r ∨ q = p + 1 := by
  cases h with
  | taken h hl =>
    rw [hp] at h
    cases h
    rw [find_eq hu hr] at hl
    cases hl
    exact .inl rfl
  | passed h => exact .inr rfl
  | act h | label h | goto h => rw [hp] at h; cases h

namespace Tree

/-! ### To the end -/

theorem reaches_end (hu : UniqueLabels code) (t : Tree A C L) :
    ∀ p, At code p t.code → t.completes ends = true →
      Reaches ends code p (p + t.code.length) := by
  induction t with
  | skip => exact fun p _ _ => .refl p
  | act a =>
    intro p h hc
    exact (Goes.act h.head (by simpa [completes] using hc)).reaches
  | seq t u iht ihu =>
    intro p h hc
    obtain ⟨ht, hu'⟩ := Bool.and_eq_true_iff.mp hc
    have := (iht p h.left ht).trans (ihu _ h.right hu')
    rwa [Nat.add_assoc, ← List.length_append] at this
  | ite c thenL elseL endL t e iht ihe =>
    intro p h hc
    obtain ⟨hif, hgoto, hthen, ht, hgend, helse, he, hend⟩ := h.ite
    have hout : Reaches ends code (p + 3 + t.code.length + 2 + e.code.length)
        (p + (Tree.ite c thenL elseL endL t e).code.length) := by
      rw [show p + (Tree.ite c thenL elseL endL t e).code.length =
        p + 3 + t.code.length + 2 + e.code.length + 1 by rw [length_ite]; omega]
      exact (Goes.label hend).reaches
    rcases Bool.or_eq_true_iff.mp hc with hc | hc
    · exact (Goes.taken hif (find_eq hu hthen)).reaches.trans <|
        (Goes.label hthen).reaches.trans <| (iht _ ht hc).trans <|
        (Goes.goto hgend (find_eq hu hend)).reaches.trans hout
    · exact (Goes.passed hif).reaches.trans <| (Goes.goto hgoto (find_eq hu helse)).reaches.trans <|
        (Goes.label helse).reaches.trans <| (ihe _ he hc).trans hout
  | loop c condL bodyL endL body ih =>
    intro p h _
    obtain ⟨hcond, hif, hgoto, -, -, -, hend⟩ := h.loop
    have hout : Reaches ends code (p + 4 + body.code.length + 1)
        (p + (Tree.loop c condL bodyL endL body).code.length) := by
      rw [show p + (Tree.loop c condL bodyL endL body).code.length =
        p + 4 + body.code.length + 1 + 1 by rw [length_loop]; omega]
      exact (Goes.label hend).reaches
    exact (Goes.label hcond).reaches.trans <| (Goes.passed hif).reaches.trans <|
      (Goes.goto hgoto (find_eq hu hend)).reaches.trans hout

/-! ### Not further -/

/-- A step of control stays inside, or comes out at the end of a tree that completes. -/
theorem Live.goes (hu : UniqueLabels code) {t : Tree A C L} :
    ∀ {p q r : ℕ}, At code p t.code → t.Live ends p q → Goes ends code q r →
      t.Live ends p r ∨ t.completes ends = true ∧ r = p + t.code.length := by
  induction t with
  | skip => exact fun _ h => h.elim
  | act a =>
    rintro p q r h rfl hg
    obtain ⟨ha, rfl⟩ := hg.of_act h.head
    exact .inr ⟨by simp [completes, ha], rfl⟩
  | seq t u iht ihu =>
    rintro p q r h (hl | ⟨hc, hl⟩) hg
    · rcases iht h.left hl hg with hl | ⟨hc, rfl⟩
      · exact .inl (.inl hl)
      · rcases live_start ends u (p + t.code.length) with hs | ⟨hc', hlen⟩
        · exact .inl (.inr ⟨hc, hs⟩)
        · exact .inr ⟨Bool.and_eq_true_iff.mpr ⟨hc, hc'⟩, by
            rw [Tree.code, List.length_append, hlen, Nat.add_zero]⟩
    · rcases ihu h.right hl hg with hl | ⟨hc', rfl⟩
      · exact .inl (.inr ⟨hc, hl⟩)
      · exact .inr ⟨Bool.and_eq_true_iff.mpr ⟨hc, hc'⟩, by
          rw [Tree.code, List.length_append, Nat.add_assoc]⟩
  | ite c thenL elseL endL t e iht ihe =>
    intro p q r h hl hg
    obtain ⟨hif, hgoto, hthen, ht, hgend, helse, he, hend⟩ := h.ite
    rcases hl with rfl | rfl | rfl | hl | ⟨hc, rfl⟩ | rfl | hl | ⟨hc, rfl⟩
    · rcases hg.of_ifGoto hu hif hthen with rfl | rfl
      · exact .inl (.inr (.inr (.inl rfl)))
      · exact .inl (.inr (.inl rfl))
    · obtain rfl := hg.of_goto hu hgoto helse
      exact .inl (by simp [Live])
    · -- into the first branch, which may be empty
      obtain rfl := hg.of_label hthen
      rcases live_start ends t (p + 3) with hs | ⟨hc, hlen⟩
      · exact .inl (by simp [Live, hs])
      · exact .inl (by simp [Live, hc, hlen])
    · rcases iht ht hl hg with hl | ⟨hc, rfl⟩
      · exact .inl (by simp [Live, hl])
      · exact .inl (by simp [Live, hc])
    · obtain rfl := hg.of_goto hu hgend hend
      exact .inl (by simp [Live, hc])
    · obtain rfl := hg.of_label helse
      rcases live_start ends e (p + 3 + t.code.length + 2) with hs | ⟨hc, hlen⟩
      · exact .inl (by simp [Live, hs])
      · exact .inl (by simp [Live, hc, hlen])
    · rcases ihe he hl hg with hl | ⟨hc, rfl⟩
      · exact .inl (by simp [Live, hl])
      · exact .inl (by simp [Live, hc])
    · obtain rfl := hg.of_label hend
      refine .inr ⟨hc, ?_⟩
      rw [length_ite]
      omega
  | loop c condL bodyL endL body ih =>
    intro p q r h hl hg
    obtain ⟨hcond, hif, hgoto, hbody, hb, hback, hend⟩ := h.loop
    rcases hl with rfl | rfl | rfl | rfl | hl | ⟨hc, rfl⟩ | rfl
    · obtain rfl := hg.of_label hcond
      exact .inl (by simp [Live])
    · rcases hg.of_ifGoto hu hif hbody with rfl | rfl
      · exact .inl (by simp [Live])
      · exact .inl (by simp [Live])
    · obtain rfl := hg.of_goto hu hgoto hend
      exact .inl (by simp [Live])
    · obtain rfl := hg.of_label hbody
      rcases live_start ends body (p + 4) with hs | ⟨hc, hlen⟩
      · exact .inl (by simp [Live, hs])
      · exact .inl (by simp [Live, hc, hlen])
    · rcases ih hb hl hg with hl | ⟨hc, rfl⟩
      · exact .inl (by simp [Live, hl])
      · exact .inl (by simp [Live, hc])
    · obtain rfl := hg.of_goto hu hback hcond
      exact .inl (by simp [Live])
    · obtain rfl := hg.of_label hend
      refine .inr ⟨rfl, ?_⟩
      rw [length_loop]
      omega

theorem Live.reaches (hu : UniqueLabels code) {t : Tree A C L} :
    ∀ {p q : ℕ}, At code p t.code → t.Live ends p q → Reaches ends code p q := by
  induction t with
  | skip => exact fun _ h => h.elim
  | act a =>
    rintro p q - rfl
    exact .refl _
  | seq t u iht ihu =>
    rintro p q h (hl | ⟨hc, hl⟩)
    · exact iht h.left hl
    · exact (reaches_end hu t p h.left hc).trans (ihu h.right hl)
  | ite c thenL elseL endL t e iht ihe =>
    intro p q h hl
    obtain ⟨hif, hgoto, hthen, ht, hgend, helse, he, hend⟩ := h.ite
    have hto : Reaches ends code p (p + 3) :=
      (Goes.taken hif (find_eq hu hthen)).reaches.trans (Goes.label hthen).reaches
    have helseAt : Reaches ends code p (p + 3 + t.code.length + 1) :=
      (Goes.passed hif).reaches.trans (Goes.goto hgoto (find_eq hu helse)).reaches
    rcases hl with rfl | rfl | rfl | hl | ⟨hc, rfl⟩ | rfl | hl | ⟨hc, rfl⟩
    · exact .refl _
    · exact (Goes.passed hif).reaches
    · exact (Goes.taken hif (find_eq hu hthen)).reaches
    · exact hto.trans (iht ht hl)
    · exact hto.trans (reaches_end hu t _ ht hc)
    · exact helseAt
    · exact helseAt.trans ((Goes.label helse).reaches.trans (ihe he hl))
    · rcases Bool.or_eq_true_iff.mp hc with hc | hc
      · exact hto.trans ((reaches_end hu t _ ht hc).trans
          (Goes.goto hgend (find_eq hu hend)).reaches)
      · exact helseAt.trans ((Goes.label helse).reaches.trans (reaches_end hu e _ he hc))
  | loop c condL bodyL endL body ih =>
    intro p q h hl
    obtain ⟨hcond, hif, hgoto, hbody, hb, hback, hend⟩ := h.loop
    have htest : Reaches ends code p (p + 1) := (Goes.label hcond).reaches
    have hin : Reaches ends code p (p + 3) :=
      htest.trans (Goes.taken hif (find_eq hu hbody)).reaches
    rcases hl with rfl | rfl | rfl | rfl | hl | ⟨hc, rfl⟩ | rfl
    · exact .refl _
    · exact htest
    · exact htest.trans (Goes.passed hif).reaches
    · exact hin
    · exact hin.trans ((Goes.label hbody).reaches.trans (ih hb hl))
    · exact hin.trans ((Goes.label hbody).reaches.trans (reaches_end hu body _ hb hc))
    · exact htest.trans ((Goes.passed hif).reaches.trans (Goes.goto hgoto (find_eq hu hend)).reaches)

theorem live_or_end (hu : UniqueLabels code) {t : Tree A C L} (h : At code p t.code)
    (hend : ∀ r, ¬ Goes ends code (p + t.code.length) r) (hq : Reaches ends code p q) :
    t.Live ends p q ∨ q = p + t.code.length := by
  induction hq with
  | refl =>
    rcases live_start ends t p with hs | ⟨-, hlen⟩
    · exact .inl hs
    · exact .inr (by rw [hlen, Nat.add_zero])
  | tail _ hg ih =>
    rcases ih with hl | rfl
    · exact (hl.goes hu h hg).imp_right And.right
    · exact absurd hg (hend _)

theorem live_of_reaches (hu : UniqueLabels code) {t : Tree A C L} (h : At code p t.code)
    (hc : t.completes ends = false) (hq : Reaches ends code p q) : t.Live ends p q := by
  induction hq with
  | refl => exact (live_start ends t p).resolve_right fun h => by simp [hc] at h
  | tail _ hg ih => exact (ih.goes hu h hg).resolve_right fun h => by simp [hc] at h

omit [DecidableEq L] in
/-- `meets` is about the positions where control can be. -/
theorem meets_iff {pa : A → Bool} {pc : C → Bool} {t : Tree A C L} :
    ∀ {p : ℕ}, At code p t.code → (t.meets ends pa pc = true ↔
      ∃ q ins, t.Live ends p q ∧ code[q]? = some ins ∧ ins.holds pa pc = true) := by
  induction t with
  | skip =>
    intro p h
    simp [meets, Live]
  | act a =>
    intro p h
    constructor
    · exact fun ha => ⟨p, .act a, rfl, h.head, ha⟩
    · rintro ⟨q, ins, rfl, hq, hins⟩
      cases h.head.symm.trans hq
      exact hins
  | seq t u iht ihu =>
    intro p h
    rw [meets, Bool.or_eq_true, Bool.and_eq_true, iht h.left, ihu h.right]
    constructor
    · rintro (⟨q, ins, hl, hrest⟩ | ⟨hc, q, ins, hl, hrest⟩)
      · exact ⟨q, ins, .inl hl, hrest⟩
      · exact ⟨q, ins, .inr ⟨hc, hl⟩, hrest⟩
    · rintro ⟨q, ins, hl | ⟨hc, hl⟩, hrest⟩
      · exact .inl ⟨q, ins, hl, hrest⟩
      · exact .inr ⟨hc, q, ins, hl, hrest⟩
  | ite c thenL elseL endL t e iht ihe =>
    intro p h
    obtain ⟨hif, hgoto, hthen, ht, hgend, helse, he, hend⟩ := h.ite
    rw [meets, Bool.or_eq_true, Bool.or_eq_true, iht ht, ihe he]
    constructor
    · rintro ((hc | ⟨q, ins, hl, hrest⟩) | ⟨q, ins, hl, hrest⟩)
      · exact ⟨p, _, .inl rfl, hif, hc⟩
      · exact ⟨q, ins, by simp [Live, hl], hrest⟩
      · exact ⟨q, ins, by simp [Live, hl], hrest⟩
    · -- only the condition and the branches hold anything but labels and jumps
      rintro ⟨q, ins, hl, hq, hins⟩
      rcases hl with rfl | rfl | rfl | hl | ⟨hc, rfl⟩ | rfl | hl | ⟨hc, rfl⟩
      · cases hif.symm.trans hq
        exact .inl (.inl hins)
      · cases hgoto.symm.trans hq
        cases hins
      · cases hthen.symm.trans hq
        cases hins
      · exact .inl (.inr ⟨q, ins, hl, hq, hins⟩)
      · cases hgend.symm.trans hq
        cases hins
      · cases helse.symm.trans hq
        cases hins
      · exact .inr ⟨q, ins, hl, hq, hins⟩
      · cases hend.symm.trans hq
        cases hins
  | loop c condL bodyL endL body ih =>
    intro p h
    obtain ⟨hcond, hif, hgoto, hbody, hb, hback, hend⟩ := h.loop
    rw [meets, Bool.or_eq_true, ih hb]
    constructor
    · rintro (hc | ⟨q, ins, hl, hrest⟩)
      · exact ⟨p + 1, _, by simp [Live], hif, hc⟩
      · exact ⟨q, ins, by simp [Live, hl], hrest⟩
    · rintro ⟨q, ins, hl, hq, hins⟩
      rcases hl with rfl | rfl | rfl | rfl | hl | ⟨hc, rfl⟩ | rfl
      · cases hcond.symm.trans hq
        cases hins
      · cases hif.symm.trans hq
        exact .inl hins
      · cases hgoto.symm.trans hq
        cases hins
      · cases hbody.symm.trans hq
        cases hins
      · exact .inr ⟨q, ins, hl, hq, hins⟩
      · cases hback.symm.trans hq
        cases hins
      · cases hend.symm.trans hq
        cases hins

end Tree

/-! ## Uses before definitions

`reads` and `writes` say which instructions use and which define something, a variable say. An
instruction that does both reads first. -/

section

variable (ends) (reads writes : Instr A C L → Bool)

/-- Some path that starts at a position reads before it writes. -/
inductive ReadsFirst (code : List (Instr A C L)) : ℕ → Prop where
  | here {p : ℕ} {ins : Instr A C L} (hp : code[p]? = some ins) (hr : reads ins = true) :
      ReadsFirst code p
  | later {p q : ℕ} {ins : Instr A C L} (hp : code[p]? = some ins) (hw : writes ins = false)
      (hgo : Goes ends code p q) (h : ReadsFirst code q) : ReadsFirst code p

omit ends in
/-- The text reads before it writes. -/
def readsNext : List (Instr A C L) → Bool
  | [] => false
  | ins :: rest => reads ins || !writes ins && readsNext rest

end

theorem readsFirst_iff {reads : Instr A C L → Bool} {pw : A → Bool} :
    ReadsFirst ends reads (Instr.holds pw fun _ => false) code p ↔
      ∃ q ins, Reaches (fun a => ends a || pw a) code p q ∧ code[q]? = some ins ∧
        reads ins = true := by
  constructor
  · intro h
    induction h with
    | here hp hr => exact ⟨_, _, .refl _, hp, hr⟩
    | later hp hw hgo _ ih =>
      obtain ⟨q, ins, hq, hrest⟩ := ih
      refine ⟨q, ins, .trans (Goes.reaches ?_) hq, hrest⟩
      cases hgo with
      | act h ha =>
        cases hp.symm.trans h
        exact .act h (by rw [ha, Bool.false_or]; exact hw)
      | label h => exact .label h
      | goto h hl => exact .goto h hl
      | taken h hl => exact .taken h hl
      | passed h => exact .passed h
  · rintro ⟨q, ins, hq, hins, hr⟩
    induction hq using Relation.ReflTransGen.head_induction_on with
    | refl => exact .here hins hr
    | head hgo _ ih =>
      cases hgo with
      | act h ha =>
        rw [Bool.or_eq_false_iff] at ha
        exact .later h ha.2 (.act h ha.1) ih
      | label h => exact .later h rfl (.label h) ih
      | goto h hl => exact .later h rfl (.goto h hl) ih
      | taken h hl => exact .later h rfl (.taken h hl) ih
      | passed h => exact .later h rfl (.passed h) ih

/-! ## Runs -/

theorem reaches_of_normal {S : Sem ε A C σ ρ}
    (hends : ∀ a s t s', ends a = true → ¬ (S.act a s).Obs t (some (.normal s'))) (n : ℕ) :
    ∀ {p : ℕ} {s s' : σ} {t : List ε}, (runN S code n p s).Obs t (some (.normal s')) →
      ∃ q, Reaches ends code p q ∧ code[q]? = none := by
  induction n with
  | zero =>
    rintro p s s' t ⟨-, h⟩
    cases h
  | succ n ih =>
    -- a jump goes on at its label, if there is one
    have hjump : ∀ {p : ℕ} {l : L} {s s' : σ} {t : List ε},
        (∀ q, find code l = some q → Goes ends code p q) →
        (jump S.miss (runN S code n) code l s).Obs t (some (.normal s')) →
        ∃ q, Reaches ends code p q ∧ code[q]? = none := by
      intro p l s s' t hgo h
      unfold jump at h
      cases hl : find code l with
      | none =>
        rw [hl] at h
        exact absurd h Beh.not_obs_halt_some
      | some r =>
        rw [hl] at h
        obtain ⟨q, hq, hend⟩ := ih h
        exact ⟨q, (hgo r hl).reaches.trans hq, hend⟩
    intro p s s' t h
    rw [runN, step] at h
    cases hp : code[p]? with
    | none => exact ⟨p, .refl p, hp⟩
    | some ins =>
      rw [hp] at h
      cases ins with
      | act a =>
        obtain ⟨t1, t2, o, -, ha, ho⟩ := Beh.obs_bind_some.mp h
        cases o with
        | returned r => cases (Beh.obs_pure_some.mp ho).2
        | normal s1 =>
          have hgo : Goes ends code p (p + 1) :=
            .act hp (Bool.eq_false_iff.mpr fun hends' => hends a s t1 s1 hends' ha)
          obtain ⟨q, hq, hend⟩ := ih ho
          exact ⟨q, hgo.reaches.trans hq, hend⟩
      | label l =>
        obtain ⟨q, hq, hend⟩ := ih h
        exact ⟨q, (Goes.label hp).reaches.trans hq, hend⟩
      | goto l => exact hjump (fun q hl => .goto hp hl) h
      | ifGoto c l =>
        obtain ⟨t1, t2, b, -, -, hb⟩ := Beh.obs_bind_some.mp h
        cases b with
        | true => exact hjump (fun q hl => .taken hp hl) hb
        | false =>
          obtain ⟨q, hq, hend⟩ := ih hb
          exact ⟨q, (Goes.passed hp).reaches.trans hq, hend⟩

end Flat
