import YHsys.Lib.FlatSim

/-!
# Seeing more of a run

Two runs with equal behaviours show the same events and end in the same way, but a run may
do more than it shows: it changes its state on the way. `Sem.observe` turns what an action
has done into events of its own, placed after the events of the action, and shows jumps
without a target. `Pass.observe` lifts a correct pass to such observations: it is enough
that related outcomes look the same and that dropped actions look like nothing.
-/

namespace Beh

variable {ε ε' : Type} {α β : Type}

/-- The same behaviour with other names for its events. -/
def rename (f : ε → ε') (m : Beh ε α) : Beh ε' α where
  Obs t r := ∃ u, t = u.map f ∧ m.Obs u r
  nil := ⟨[], rfl, m.nil⟩
  earlier := by
    rintro t t' r ⟨u, hu, h⟩
    obtain ⟨u1, u2, rfl, rfl, -⟩ := List.append_eq_map_iff.mp hu
    exact ⟨u1, rfl, m.earlier h⟩

@[simp] theorem rename_pure (f : ε → ε') (a : α) : (pure a : Beh ε α).rename f = pure a := by
  ext t r
  constructor
  · rintro ⟨u, rfl, rfl, h⟩
    exact ⟨rfl, h⟩
  · rintro ⟨rfl, h⟩
    exact ⟨[], rfl, rfl, h⟩

theorem Sim.rename {Q : α → β → Prop} {m : Beh ε α} {m' : Beh ε β} (h : Sim Q m m')
    (f : ε → ε') : Sim Q (m.rename f) (m'.rename f) where
  now := by
    rintro t ⟨u, rfl, hu⟩
    exact ⟨u, rfl, h.now u hu⟩
  ends := by
    rintro t a ⟨u, rfl, hu⟩
    obtain ⟨b, hab, hb⟩ := h.ends u a hu
    exact ⟨b, hab, u, rfl, hb⟩

theorem Rel.rename {Q : α → β → Prop} {m : Beh ε α} {m' : Beh ε β} (h : Rel Q m m')
    (f : ε → ε') : Rel Q (m.rename f) (m'.rename f) :=
  ⟨h.left.rename f, h.right.rename f⟩

end Beh

namespace Flat

variable {ε ω A C A' C' L σ σ' ρ : Type}

/-- Show what an action has done and go on. -/
def look (seen : Option ω) (o : Outcome σ ρ) : Beh (ε ⊕ ω) (Outcome σ ρ) :=
  match seen with
  | none => pure o
  | some e => Beh.emit (.inr e) >>= fun _ => pure o

/-- The same meaning, with the outcome of each action and each jump to nowhere shown. -/
def Sem.observe (S : Sem ε A C σ ρ) (obs : A → Outcome σ ρ → Option ω) (miss : ω) :
    Sem (ε ⊕ ω) A C σ ρ where
  act a s := (S.act a s).rename .inl >>= fun o => look (obs a o) o
  test c s := (S.test c s).rename .inl
  miss := S.miss.map .inl ++ [.inr miss]

variable [DecidableEq L]

variable {S : Sem ε A C σ ρ} {S' : Sem ε A' C' σ' ρ} {code : List (Instr A C L)}
  {kept : List (Option (Instr A' C' L))} {R : ℕ → σ → σ' → Prop} {F : σ → σ' → Prop}
  {obs : A → Outcome σ ρ → Option ω} {obs' : A' → Outcome σ' ρ → Option ω} {miss : ω}

theorem look_rel {P : σ → σ' → Prop} {seen seen' : Option ω} {o : Outcome σ ρ}
    {o' : Outcome σ' ρ} (hseen : seen = seen') (h : OutRel P o o') :
    Beh.Rel (OutRel P) (look seen o : Beh (ε ⊕ ω) _) (look seen' o') := by
  subst hseen
  cases seen with
  | none => exact .pure h
  | some e => exact (Beh.Rel.refl _).bind fun _ _ _ => .pure h

theorem Pass.observe (h : Pass S S' code kept R F)
    (hkeep : ∀ {i : ℕ} {a : A} {a' : A'} {o : Outcome σ ρ} {o' : Outcome σ' ρ},
      code[i]? = some (.act a) → kept[i]? = some (some (.act a')) → OutRel (R (i + 1)) o o' →
      obs a o = obs' a' o')
    (hdrop : ∀ {i : ℕ} {a : A} {s t : σ} {s' : σ'}, R i s s' → code[i]? = some (.act a) →
      kept[i]? = some none → obs a (.normal t) = none) :
    Pass (S.observe obs miss) (S'.observe obs' miss) code kept R F where
  labels := h.labels
  ends := h.ends
  miss := by simp only [Sem.observe, h.miss]
  follows := by
    intro i x y s s' hR hx hy
    cases h.follows hR hx hy with
    | act hact =>
      exact .act ((hact.rename _).bind fun o o' ho => look_rel (hkeep hx hy ho) ho)
    | skipAct hact hR' =>
      refine .skipAct ?_ hR'
      simp only [Sem.observe, hact, Beh.rename_pure, Beh.pure_bind', hdrop hR hx hy, look]
    | label hR' => exact .label hR'
    | skipLabel hR' => exact .skipLabel hR'
    | goto hjump => exact .goto hjump
    | skipGoto hl hR' => exact .skipGoto hl hR'
    | ifGoto htest hjump hR' => exact .ifGoto (by simp only [Sem.observe, htest]) hjump hR'
    | always htest hjump =>
      exact .always (by simp only [Sem.observe, htest, Beh.rename_pure]) hjump
    | never htest hR' => exact .never (by simp only [Sem.observe, htest, Beh.rename_pure]) hR'

end Flat
