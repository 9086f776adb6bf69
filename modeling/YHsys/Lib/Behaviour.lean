import Mathlib.Order.BoundedOrder.Basic
import Mathlib.Tactic.Common

/-!
# Behaviours: what a program may have done so far

A behaviour of a computation with events in `ε` and results in `α` is a set of
observations `(t, r)`: the events `t` seen up to some moment, and the result `r`, or
`none` if the computation has not ended by then. It is closed under looking earlier,
and looking before anything has happened is always possible. Runs that go on for ever
are described by their finite observations.

Behaviours form a monad and a partial order in which `⊥` (never ends, shows nothing) is
least and increasing unions exist. `bind` is monotone and commutes with these unions, so
loops and recursion are unions of their unfoldings.
-/

universe u v w

/-- A set of observations, closed under looking earlier. -/
structure Beh (ε : Type u) (α : Type v) where
  Obs : List ε → Option α → Prop
  nil : Obs [] none
  earlier : ∀ {t u r}, Obs (t ++ u) r → Obs t none

namespace Beh

variable {ε : Type u} {α β γ : Type v}

@[ext] theorem ext {m m' : Beh ε α} (h : ∀ t r, m.Obs t r ↔ m'.Obs t r) : m = m' := by
  obtain ⟨o, _, _⟩ := m
  obtain ⟨o', _, _⟩ := m'
  have heq : o = o' := by
    funext t r
    exact propext (h t r)
  subst heq
  rfl

instance : PartialOrder (Beh ε α) where
  le m m' := ∀ t r, m.Obs t r → m'.Obs t r
  le_refl _ _ _ h := h
  le_trans _ _ _ h h' t r hm := h' t r (h t r hm)
  le_antisymm _ _ h h' := ext fun t r => ⟨h t r, h' t r⟩

instance : OrderBot (Beh ε α) where
  bot := ⟨fun t r => t = [] ∧ r = none, ⟨rfl, rfl⟩, fun ⟨h, _⟩ =>
    ⟨(List.append_eq_nil_iff.mp h).1, rfl⟩⟩
  bot_le m := by
    rintro t r ⟨rfl, rfl⟩
    exact m.nil

theorem none_of_obs {m : Beh ε α} {t : List ε} {r : Option α} (h : m.Obs t r) : m.Obs t none :=
  m.earlier (u := []) (by rw [List.append_nil]; exact h)

/-! ## The monad -/

/-- End at once with `a`. -/
protected def pure (a : α) : Beh ε α where
  Obs t r := t = [] ∧ (r = none ∨ r = some a)
  nil := ⟨rfl, .inl rfl⟩
  earlier := fun ⟨h, _⟩ => ⟨(List.append_eq_nil_iff.mp h).1, .inl rfl⟩

/-- Go on with `f` once `m` has ended. -/
protected def bind (m : Beh ε α) (f : α → Beh ε β) : Beh ε β where
  Obs t r := (m.Obs t none ∧ r = none) ∨
    ∃ t1 t2 a, t = t1 ++ t2 ∧ m.Obs t1 (some a) ∧ (f a).Obs t2 r
  nil := .inl ⟨m.nil, rfl⟩
  earlier := by
    rintro t u r (⟨h, -⟩ | ⟨t1, t2, a, htu, h1, h2⟩)
    · exact .inl ⟨m.earlier h, rfl⟩
    · rcases List.append_eq_append_iff.mp htu with ⟨w, rfl, rfl⟩ | ⟨w, rfl, rfl⟩
      · exact .inl ⟨m.earlier (none_of_obs h1), rfl⟩
      · exact .inr ⟨t1, w, a, rfl, h1, (f a).earlier h2⟩

/-- Show one event. -/
def emit (e : ε) : Beh ε PUnit.{v + 1} where
  Obs t r := (t = [] ∧ r = none) ∨ t = [e]
  nil := .inl ⟨rfl, rfl⟩
  earlier := by
    rintro t u r (⟨h, -⟩ | h)
    · exact .inl ⟨(List.append_eq_nil_iff.mp h).1, rfl⟩
    · rcases List.append_eq_singleton_iff.mp h with ⟨rfl, -⟩ | ⟨rfl, -⟩
      · exact .inl ⟨rfl, rfl⟩
      · exact .inr rfl

instance : Monad (Beh ε) where
  pure := Beh.pure
  bind := Beh.bind

theorem obs_pure {a : α} {t : List ε} {r : Option α} :
    (pure a : Beh ε α).Obs t r ↔ t = [] ∧ (r = none ∨ r = some a) := Iff.rfl

theorem obs_bind {m : Beh ε α} {f : α → Beh ε β} {t : List ε} {r : Option β} :
    (m >>= f).Obs t r ↔ (m.Obs t none ∧ r = none) ∨
      ∃ t1 t2 a, t = t1 ++ t2 ∧ m.Obs t1 (some a) ∧ (f a).Obs t2 r := Iff.rfl

theorem obs_pure_some {a b : α} {t : List ε} :
    (pure a : Beh ε α).Obs t (some b) ↔ t = [] ∧ b = a := by
  simp [obs_pure]

theorem obs_bind_some {m : Beh ε α} {f : α → Beh ε β} {t : List ε} {b : β} :
    (m >>= f).Obs t (some b) ↔
      ∃ t1 t2 a, t = t1 ++ t2 ∧ m.Obs t1 (some a) ∧ (f a).Obs t2 (some b) := by
  simp [obs_bind]

@[simp] theorem pure_bind' (a : α) (f : α → Beh ε β) : (pure a >>= f : Beh ε β) = f a := by
  ext t r
  constructor
  · rintro (⟨⟨rfl, -⟩, rfl⟩ | ⟨t1, t2, b, rfl, ⟨rfl, hb⟩, h⟩)
    · exact (f a).nil
    · rcases hb with hb | hb
      · cases hb
      · cases hb
        exact h
  · intro h
    exact .inr ⟨[], t, a, rfl, ⟨rfl, .inr rfl⟩, h⟩

@[simp] theorem bind_pure' (m : Beh ε α) : (m >>= pure : Beh ε α) = m := by
  ext t r
  constructor
  · rintro (⟨h, rfl⟩ | ⟨t1, t2, a, rfl, h, rfl, hr⟩)
    · exact h
    · rw [List.append_nil]
      rcases hr with rfl | rfl
      · exact none_of_obs h
      · exact h
  · intro h
    cases r with
    | none => exact .inl ⟨h, rfl⟩
    | some a => exact .inr ⟨t, [], a, by simp, h, rfl, .inr rfl⟩

@[simp] theorem bind_assoc' (m : Beh ε α) (f : α → Beh ε β) (g : β → Beh ε γ) :
    (m >>= f >>= g : Beh ε γ) = m >>= fun a => f a >>= g := by
  ext t r
  constructor
  · rintro (⟨⟨h, -⟩ | ⟨t1, t2, a, rfl, h1, h2⟩, rfl⟩ |
      ⟨t1, t2, b, rfl, ⟨_, hn⟩ | ⟨u1, u2, a, rfl, h1, h2⟩, h3⟩)
    · exact .inl ⟨h, rfl⟩
    · exact .inr ⟨t1, t2, a, rfl, h1, .inl ⟨h2, rfl⟩⟩
    · cases hn
    · exact .inr ⟨u1, u2 ++ t2, a, List.append_assoc .., h1, .inr ⟨u2, t2, b, rfl, h2, h3⟩⟩
  · rintro (⟨h, rfl⟩ | ⟨t1, t2, a, rfl, h1, ⟨h2, rfl⟩ | ⟨u1, u2, b, rfl, h2, h3⟩⟩)
    · exact .inl ⟨.inl ⟨h, rfl⟩, rfl⟩
    · exact .inl ⟨.inr ⟨t1, t2, a, rfl, h1, h2⟩, rfl⟩
    · exact .inr ⟨t1 ++ u1, u2, b, (List.append_assoc ..).symm,
        .inr ⟨t1, u1, a, rfl, h1, h2⟩, h3⟩

instance : LawfulMonad (Beh ε) :=
  LawfulMonad.mk' _ (fun m => bind_pure' m) pure_bind' bind_assoc'

/-- The result of a partial operation; none is a computation that is stuck. -/
def ofOption : Option α → Beh ε α
  | none => ⊥
  | some a => pure a

@[simp] theorem ofOption_some (a : α) : (ofOption (some a) : Beh ε α) = pure a := rfl

@[simp] theorem ofOption_none : (ofOption none : Beh ε α) = ⊥ := rfl

@[simp] theorem bot_bind (f : α → Beh ε β) : ((⊥ : Beh ε α) >>= f) = ⊥ := by
  ext t r
  constructor
  · rintro (⟨⟨rfl, -⟩, rfl⟩ | ⟨t1, t2, a, -, ⟨-, h⟩, -⟩)
    · exact ⟨rfl, rfl⟩
    · cases h
  · rintro ⟨rfl, rfl⟩
    exact Beh.nil _

@[simp] theorem map_bot (f : α → β) : (f <$> (⊥ : Beh ε α)) = ⊥ := by
  rw [map_eq_pure_bind, bot_bind]

/-- Show `t` and then nothing more, without an end. -/
def halt (t : List ε) : Beh ε α where
  Obs u r := u <+: t ∧ r = none
  nil := ⟨List.nil_prefix, rfl⟩
  earlier := fun ⟨h, _⟩ => ⟨(List.prefix_append _ _).trans h, rfl⟩

theorem not_obs_halt_some {t u : List ε} {a : α} : ¬ (halt t : Beh ε α).Obs u (some a) :=
  fun h => nomatch h.2

theorem obs_map_some {m : Beh ε α} {f : α → β} {t : List ε} {b : β} :
    (f <$> m).Obs t (some b) ↔ ∃ a, m.Obs t (some a) ∧ b = f a := by
  rw [map_eq_pure_bind, obs_bind_some]
  constructor
  · rintro ⟨t1, t2, a, rfl, h, rfl, hb⟩
    exact ⟨a, by rwa [List.append_nil], by simpa using hb⟩
  · rintro ⟨a, h, rfl⟩
    exact ⟨t, [], a, by simp, h, rfl, .inr rfl⟩

theorem obs_emit_some {e : ε} {t : List ε} {u : PUnit} :
    (emit e).Obs t (some u) ↔ t = [e] := by
  simp [emit]

theorem bind_congr_obs {m : Beh ε α} {f g : α → Beh ε β}
    (h : ∀ t a, m.Obs t (some a) → f a = g a) : m >>= f = m >>= g := by
  ext t r
  constructor
  · rintro (hm | ⟨t1, t2, a, rfl, h1, h2⟩)
    · exact .inl hm
    · exact .inr ⟨t1, t2, a, rfl, h1, h t1 a h1 ▸ h2⟩
  · rintro (hm | ⟨t1, t2, a, rfl, h1, h2⟩)
    · exact .inl hm
    · exact .inr ⟨t1, t2, a, rfl, h1, (h t1 a h1).symm ▸ h2⟩

/-! ## The order -/

theorem bind_mono {m m' : Beh ε α} {f f' : α → Beh ε β} (hm : m ≤ m') (hf : ∀ a, f a ≤ f' a) :
    m >>= f ≤ m' >>= f' := by
  rintro t r (⟨h, rfl⟩ | ⟨t1, t2, a, rfl, h1, h2⟩)
  · exact .inl ⟨hm _ _ h, rfl⟩
  · exact .inr ⟨t1, t2, a, rfl, hm _ _ h1, hf a _ _ h2⟩

/-- The union of the unfoldings of a loop or a recursion. -/
def sup (f : ℕ → Beh ε α) : Beh ε α where
  Obs t r := ∃ n, (f n).Obs t r
  nil := ⟨0, (f 0).nil⟩
  earlier := fun ⟨n, h⟩ => ⟨n, (f n).earlier h⟩

theorem le_sup (f : ℕ → Beh ε α) (n : ℕ) : f n ≤ sup f := fun _ _ h => ⟨n, h⟩

theorem sup_le {f : ℕ → Beh ε α} {m : Beh ε α} (h : ∀ n, f n ≤ m) : sup f ≤ m :=
  fun t r ⟨n, hn⟩ => h n t r hn

theorem sup_succ {f : ℕ → Beh ε α} (h : f 0 = ⊥) : sup f = sup fun n => f (n + 1) := by
  apply le_antisymm
  · refine sup_le fun n => ?_
    cases n with
    | zero => rw [h]; exact bot_le
    | succ n => exact le_sup (fun n => f (n + 1)) n
  · exact sup_le fun n => le_sup f (n + 1)

@[simp] theorem sup_const (m : Beh ε α) : (sup fun _ => m) = m :=
  le_antisymm (sup_le fun _ => le_rfl) (le_sup (fun _ => m) 0)

theorem bind_sup (m : Beh ε α) (f : ℕ → α → Beh ε β) :
    (m >>= fun a => sup fun n => f n a) = sup fun n => m >>= f n := by
  ext t r
  constructor
  · rintro (⟨h, rfl⟩ | ⟨t1, t2, a, rfl, h1, n, h2⟩)
    · exact ⟨0, .inl ⟨h, rfl⟩⟩
    · exact ⟨n, .inr ⟨t1, t2, a, rfl, h1, h2⟩⟩
  · rintro ⟨n, ⟨h, rfl⟩ | ⟨t1, t2, a, rfl, h1, h2⟩⟩
    · exact .inl ⟨h, rfl⟩
    · exact .inr ⟨t1, t2, a, rfl, h1, n, h2⟩

theorem sup_bind (m : ℕ → Beh ε α) (f : α → Beh ε β) :
    (sup m >>= f) = sup fun n => m n >>= f := by
  ext t r
  constructor
  · rintro (⟨⟨n, h⟩, rfl⟩ | ⟨t1, t2, a, rfl, ⟨n, h1⟩, h2⟩)
    · exact ⟨n, .inl ⟨h, rfl⟩⟩
    · exact ⟨n, .inr ⟨t1, t2, a, rfl, h1, h2⟩⟩
  · rintro ⟨n, ⟨h, rfl⟩ | ⟨t1, t2, a, rfl, h1, h2⟩⟩
    · exact .inl ⟨⟨n, h⟩, rfl⟩
    · exact .inr ⟨t1, t2, a, rfl, ⟨n, h1⟩, h2⟩

/-! ## Related behaviours -/

/-- Each observation of `m` is one of `m'`, with results that `Q` relates. -/
structure Sim (Q : α → β → Prop) (m : Beh ε α) (m' : Beh ε β) : Prop where
  now : ∀ t, m.Obs t none → m'.Obs t none
  ends : ∀ t a, m.Obs t (some a) → ∃ b, Q a b ∧ m'.Obs t (some b)

/-- The same events, and results that `Q` relates. -/
structure Rel (Q : α → β → Prop) (m : Beh ε α) (m' : Beh ε β) : Prop where
  left : Sim Q m m'
  right : Sim (fun b a => Q a b) m' m

namespace Sim

variable {Q : α → β → Prop} {m : Beh ε α} {m' : Beh ε β}

theorem bot (Q : α → β → Prop) (m' : Beh ε β) : Sim Q (⊥ : Beh ε α) m' where
  now := by
    rintro t ⟨rfl, -⟩
    exact m'.nil
  ends := by
    rintro t a ⟨-, h⟩
    cases h

theorem pure {a : α} {b : β} (h : Q a b) : Sim Q (pure a : Beh ε α) (pure b) where
  now := by
    rintro t ⟨rfl, -⟩
    exact Beh.nil _
  ends := by
    intro t a' ha
    obtain ⟨rfl, rfl⟩ := obs_pure_some.mp ha
    exact ⟨b, h, rfl, .inr rfl⟩

theorem halt (Q : α → β → Prop) (t : List ε) : Sim Q (halt t : Beh ε α) (halt t) where
  now _ h := ⟨h.1, rfl⟩
  ends _ _ h := absurd h not_obs_halt_some

theorem sup {f : ℕ → Beh ε α} (h : ∀ n, Sim Q (f n) m') : Sim Q (Beh.sup f) m' where
  now := fun t ⟨n, ht⟩ => (h n).now t ht
  ends := fun t a ⟨n, ht⟩ => (h n).ends t a ht

theorem bind {α' β' : Type v} {P : α' → β' → Prop} {k : Beh ε α'} {k' : Beh ε β'}
    {f : α' → Beh ε α} {g : β' → Beh ε β} (hk : Sim P k k')
    (hf : ∀ a b, P a b → Sim Q (f a) (g b)) : Sim Q (k >>= f) (k' >>= g) where
  now := by
    rintro t (⟨h, -⟩ | ⟨t1, t2, a, rfl, h1, h2⟩)
    · exact .inl ⟨hk.now t h, rfl⟩
    · obtain ⟨b, hab, h1'⟩ := hk.ends t1 a h1
      exact .inr ⟨t1, t2, b, rfl, h1', (hf a b hab).now t2 h2⟩
  ends := by
    intro t c hc
    obtain ⟨t1, t2, a, rfl, h1, h2⟩ := obs_bind_some.mp hc
    obtain ⟨b, hab, h1'⟩ := hk.ends t1 a h1
    obtain ⟨d, hcd, h2'⟩ := (hf a b hab).ends t2 c h2
    exact ⟨d, hcd, obs_bind_some.mpr ⟨t1, t2, b, rfl, h1', h2'⟩⟩

end Sim

namespace Rel

theorem refl (m : Beh ε α) : Rel (· = ·) m m where
  left := ⟨fun _ h => h, fun _ a h => ⟨a, rfl, h⟩⟩
  right := ⟨fun _ h => h, fun _ a h => ⟨a, rfl, h⟩⟩

theorem of_obs {Q : α → α → Prop} {m : Beh ε α} (h : ∀ t a, m.Obs t (some a) → Q a a) :
    Rel Q m m :=
  ⟨⟨fun _ h => h, fun t a ha => ⟨a, h t a ha, ha⟩⟩, ⟨fun _ h => h, fun t a ha => ⟨a, h t a ha, ha⟩⟩⟩

theorem pure {Q : α → β → Prop} {a : α} {b : β} (h : Q a b) :
    Rel Q (pure a : Beh ε α) (pure b) :=
  ⟨.pure h, .pure h⟩

theorem bind {α' β' : Type v} {P : α' → β' → Prop} {Q : α → β → Prop} {k : Beh ε α'}
    {k' : Beh ε β'} {f : α' → Beh ε α} {g : β' → Beh ε β} (hk : Rel P k k')
    (hf : ∀ a b, P a b → Rel Q (f a) (g b)) : Rel Q (k >>= f) (k' >>= g) :=
  ⟨hk.left.bind fun a b h => (hf a b h).left, hk.right.bind fun b a h => (hf a b h).right⟩

theorem mono {P Q : α → β → Prop} {m : Beh ε α} {m' : Beh ε β} (h : Rel P m m')
    (hPQ : ∀ a b, P a b → Q a b) : Rel Q m m' where
  left := ⟨h.left.now, fun t a ha =>
    let ⟨b, hab, hb⟩ := h.left.ends t a ha
    ⟨b, hPQ a b hab, hb⟩⟩
  right := ⟨h.right.now, fun t b hb =>
    let ⟨a, hab, ha⟩ := h.right.ends t b hb
    ⟨a, hPQ a b hab, ha⟩⟩

theorem eq {m m' : Beh ε α} (h : Rel (· = ·) m m') : m = m' := by
  have hle : ∀ {k k' : Beh ε α}, Sim (· = ·) k k' → k ≤ k' := by
    intro k k' hs t r hr
    cases r with
    | none => exact hs.now t hr
    | some a =>
      obtain ⟨b, rfl, hb⟩ := hs.ends t a hr
      exact hb
  refine le_antisymm (hle h.left) (hle ⟨h.right.now, fun t b hb => ?_⟩)
  obtain ⟨a, hab, ha⟩ := h.right.ends t b hb
  exact ⟨a, hab.symm, ha⟩

end Rel

end Beh
