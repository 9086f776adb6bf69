import YHsys.Lib.Behaviour

/-!
# Computations with one trace

`Beh.shows t a` shows the events `t` and ends with `a`: the behaviour of a computation that
is determined. Its events say what `t` is.
-/

namespace Beh

universe u v

variable {ε : Type u} {α β : Type v}

/-- Show `t` and end with `a`. -/
def shows (t : List ε) (a : α) : Beh ε α where
  Obs u r := (u <+: t ∧ r = none) ∨ (u = t ∧ r = some a)
  nil := .inl ⟨List.nil_prefix, rfl⟩
  earlier := by
    rintro u w r (⟨h, -⟩ | ⟨rfl, -⟩)
    · exact .inl ⟨(List.prefix_append u w).trans h, rfl⟩
    · exact .inl ⟨List.prefix_append u w, rfl⟩

/-- The same events, whatever the results. -/
def SameEvents (m : Beh ε α) (m' : Beh ε β) : Prop := ∀ t, m.Obs t none ↔ m'.Obs t none

theorem obs_shows_none {t u : List ε} {a : α} : (shows t a).Obs u none ↔ u <+: t := by
  constructor
  · rintro (⟨h, -⟩ | ⟨-, h⟩)
    · exact h
    · cases h
  · intro h
    exact .inl ⟨h, rfl⟩

theorem obs_shows_some {t u : List ε} {a b : α} :
    (shows t a).Obs u (some b) ↔ u = t ∧ b = a := by
  simp [shows]

theorem shows_nil (a : α) : (shows [] a : Beh ε α) = pure a := by
  ext t r
  rw [obs_pure]
  constructor
  · rintro (⟨h, rfl⟩ | ⟨rfl, rfl⟩)
    · exact ⟨List.prefix_nil.mp h, .inl rfl⟩
    · exact ⟨rfl, .inr rfl⟩
  · rintro ⟨rfl, rfl | rfl⟩
    · exact .inl ⟨List.nil_prefix, rfl⟩
    · exact .inr ⟨rfl, rfl⟩

theorem shows_bind {t t' : List ε} {a : α} {b : β} {f : α → Beh ε β} (h : f a = shows t' b) :
    shows t a >>= f = shows (t ++ t') b := by
  ext u r
  rw [obs_bind]
  constructor
  · rintro (⟨hu, rfl⟩ | ⟨u1, u2, c, rfl, hc, hu⟩)
    · exact .inl ⟨(obs_shows_none.mp hu).trans (List.prefix_append t t'), rfl⟩
    · obtain ⟨rfl, rfl⟩ := obs_shows_some.mp hc
      rw [h] at hu
      rcases hu with ⟨hu, rfl⟩ | ⟨rfl, rfl⟩
      · exact .inl ⟨(List.prefix_append_right_inj u1).mpr hu, rfl⟩
      · exact .inr ⟨rfl, rfl⟩
  · rintro (⟨hu, rfl⟩ | ⟨rfl, rfl⟩)
    · obtain ⟨w, hw⟩ := hu
      rcases List.append_eq_append_iff.mp hw with ⟨c, rfl, -⟩ | ⟨c, rfl, rfl⟩
      · exact .inl ⟨obs_shows_none.mpr (List.prefix_append u c), rfl⟩
      · exact .inr ⟨t, c, a, rfl, obs_shows_some.mpr ⟨rfl, rfl⟩,
          h ▸ obs_shows_none.mpr (List.prefix_append c w)⟩
    · exact .inr ⟨t, t', a, rfl, obs_shows_some.mpr ⟨rfl, rfl⟩,
        h ▸ obs_shows_some.mpr ⟨rfl, rfl⟩⟩

theorem shows_bind_pure {t : List ε} {a : α} {b : β} {f : α → Beh ε β} (h : f a = pure b) :
    shows t a >>= f = shows t b := by
  have hf : f a = shows [] b := h.trans (shows_nil b).symm
  rw [shows_bind hf, List.append_nil]

theorem emit_eq_shows (e : ε) : emit e = shows [e] PUnit.unit := by
  ext t r
  constructor
  · rintro (⟨rfl, rfl⟩ | rfl)
    · exact .inl ⟨List.nil_prefix, rfl⟩
    · cases r with
      | none => exact .inl ⟨List.prefix_rfl, rfl⟩
      | some u => exact .inr ⟨rfl, rfl⟩
  · rintro (⟨h, rfl⟩ | ⟨rfl, rfl⟩)
    · rcases List.prefix_cons_iff.mp h with rfl | ⟨w, rfl, hw⟩
      · exact .inl ⟨rfl, rfl⟩
      · exact .inr (by rw [List.prefix_nil.mp hw])
    · exact .inr rfl

theorem SameEvents.of_eq {m m' : Beh ε α} (h : m = m') : SameEvents m m' := fun t => by rw [h]

theorem SameEvents.shows {t t' : List ε} {a : α} {b : β}
    (h : SameEvents (Beh.shows t a) (Beh.shows t' b)) : t = t' := by
  have hle : t <+: t' := obs_shows_none.mp ((h t).mp (obs_shows_none.mpr List.prefix_rfl))
  have hge : t' <+: t := obs_shows_none.mp ((h t').mpr (obs_shows_none.mpr List.prefix_rfl))
  exact hle.eq_of_length_le hge.length_le

theorem shows_inj {t t' : List ε} {a a' : α} (h : shows t a = shows t' a') : t = t' ∧ a = a' := by
  have hobs : (shows t' a').Obs t (some a) := h ▸ obs_shows_some.mpr ⟨rfl, rfl⟩
  exact obs_shows_some.mp hobs

end Beh
