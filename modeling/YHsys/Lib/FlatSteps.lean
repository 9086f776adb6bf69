import YHsys.Lib.FlatReach
import YHsys.Lib.FlatSim

/-!
# The single steps of a run

`run` is the behaviour of flat code as a whole. `Step` is one instruction of a run that goes
on: from a position and a state, with the events it shows, to the next position and state.
What holds at every moment of every run, however long, is proved with `Steps.invariant`.
-/

namespace Flat

variable {ε A C L σ ρ : Type} [DecidableEq L] {S : Sem ε A C σ ρ} {code : List (Instr A C L)}

/-- One instruction after which the run goes on. -/
inductive Step (S : Sem ε A C σ ρ) (code : List (Instr A C L)) :
    ℕ → σ → List ε → ℕ → σ → Prop where
  | act {p : ℕ} {a : A} {s s' : σ} {t : List ε} (hp : code[p]? = some (.act a))
      (ha : (S.act a s).Obs t (some (.normal s'))) : Step S code p s t (p + 1) s'
  | label {p : ℕ} {l : L} {s : σ} (hp : code[p]? = some (.label l)) : Step S code p s [] (p + 1) s
  | goto {p q : ℕ} {l : L} {s : σ} (hp : code[p]? = some (.goto l))
      (hl : find code l = some q) : Step S code p s [] q s
  | taken {p q : ℕ} {c : C} {l : L} {s : σ} {t : List ε} (hp : code[p]? = some (.ifGoto c l))
      (hc : (S.test c s).Obs t (some true)) (hl : find code l = some q) : Step S code p s t q s
  | passed {p : ℕ} {c : C} {l : L} {s : σ} {t : List ε} (hp : code[p]? = some (.ifGoto c l))
      (hc : (S.test c s).Obs t (some false)) : Step S code p s t (p + 1) s

/-- The moments of the runs that start at `p` in `s`: the events until then, the position and
the state. -/
inductive Steps (S : Sem ε A C σ ρ) (code : List (Instr A C L)) (p : ℕ) (s : σ) :
    List ε → ℕ → σ → Prop where
  | refl : Steps S code p s [] p s
  | tail {t u : List ε} {q r : ℕ} {s1 s2 : σ} (h : Steps S code p s t q s1)
      (hstep : Step S code q s1 u r s2) : Steps S code p s (t ++ u) r s2

theorem Steps.invariant {P : ℕ → σ → Prop} {p q : ℕ} {s s' : σ} {t : List ε}
    (h : Steps S code p s t q s') (hstart : P p s)
    (hstep : ∀ {q r s s' t}, P q s → Step S code q s t r s' → P r s') : P q s' := by
  induction h with
  | refl => exact hstart
  | tail _ hnext ih => exact hstep ih hnext

/-! ## Histories -/

/-- The positions of the instructions that a run has executed. -/
inductive Trail (S : Sem ε A C σ ρ) (code : List (Instr A C L)) (p : ℕ) (s : σ) :
    List ℕ → ℕ → σ → Prop where
  | refl : Trail S code p s [] p s
  | tail {trail : List ℕ} {t : List ε} {q r : ℕ} {s1 s2 : σ} (h : Trail S code p s trail q s1)
      (hstep : Step S code q s1 t r s2) : Trail S code p s (trail ++ [q]) r s2

section

variable {ends : A → Bool}
  (hends : ∀ a s t s', ends a = true → ¬ (S.act a s).Obs t (some (.normal s')))
include hends

theorem Step.goes {p q : ℕ} {s s' : σ} {t : List ε} (h : Step S code p s t q s') :
    Goes ends code p q := by
  cases h with
  | act hp ha => exact .act hp (Bool.eq_false_iff.mpr fun hend => hends _ _ _ _ hend ha)
  | label hp => exact .label hp
  | goto hp hl => exact .goto hp hl
  | taken hp _ hl => exact .taken hp hl
  | passed hp _ => exact .passed hp

theorem Trail.written {reads writes : Instr A C L → Bool} {p q : ℕ} {s s' : σ} {trail : List ℕ}
    (h : Trail S code p s trail q s') (hq : ReadsFirst ends reads writes code q) :
    ReadsFirst ends reads writes code p ∨
      ∃ j ∈ trail, ∃ ins, code[j]? = some ins ∧ writes ins = true := by
  induction h with
  | refl => exact .inl hq
  | @tail trail t q r s1 s2 _ hstep ih =>
    have hgo : Goes ends code q r := hstep.goes hends
    obtain ⟨ins, hins⟩ : ∃ ins, code[q]? = some ins := by
      cases hgo with
      | act h | label h | goto h | taken h | passed h => exact ⟨_, h⟩
    cases hw : writes ins with
    | true => exact .inr ⟨q, by simp, ins, hins, hw⟩
    | false =>
      rcases ih (.later hins hw hgo hq) with h | ⟨j, hj, hrest⟩
      · exact .inl h
      · exact .inr ⟨j, by simp [hj], hrest⟩

end

end Flat
