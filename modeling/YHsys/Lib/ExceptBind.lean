import Mathlib.Data.List.Forall2
import Mathlib.Tactic.Common

/-!
# Peeling `Except` computations apart

A run of a computation in `Except ε` that ends well is a chain of runs that end
well: `Except.bind_eq_ok` splits a bind, `Except.ok_bind` steps over it.

`Except.Sat E Q x` is the pre- and postcondition form of the same thing: `x` ends
well in a result with `Q`, or with an error that `E` allows. `Sat.bind` chains
specifications of the parts of a computation.

The equations are stated with `(rfl)`, so that `simp` rewrites with them instead
of leaving the kernel to unfold a whole computation.
-/

namespace Except

universe u v

variable {ε : Type u} {α β : Type v}

@[simp] theorem ok_bind (a : α) (f : α → Except ε β) : (Except.ok a >>= f) = f a := (rfl)

@[simp] theorem error_bind (e : ε) (f : α → Except ε β) :
    ((Except.error e : Except ε α) >>= f) = .error e := (rfl)

@[simp] theorem pure_eq_ok (a : α) : (pure a : Except ε α) = .ok a := (rfl)

theorem map_bind {γ : Type v} (g : β → γ) (x : Except ε α) (f : α → Except ε β) :
    (x >>= f).map g = x >>= fun a => (f a).map g := by
  cases x with
  | error e => rfl
  | ok a => rfl

theorem bind_eq_ok {x : Except ε α} {f : α → Except ε β} {b : β} :
    (x >>= f) = .ok b ↔ ∃ a, x = .ok a ∧ f a = .ok b := by
  cases x with
  | error e =>
    constructor
    · exact fun h => nomatch h
    · rintro ⟨a, h, -⟩
      cases h
  | ok a => exact ⟨fun h => ⟨a, rfl, h⟩, fun ⟨_, h, h'⟩ => Except.ok.inj h ▸ h'⟩

theorem exists_ok {x : Except ε α} (h : x.isOk = true) : ∃ a, x = .ok a := by
  cases x with
  | error e => cases h
  | ok a => exact ⟨a, rfl⟩

theorem toOption_eq_some {x : Except ε α} {a : α} (h : x.toOption = some a) : x = .ok a := by
  cases x with
  | error e => cases h
  | ok b => exact congrArg Except.ok (Option.some.inj h)

theorem ok_of_any {x : Except ε α} {p : α → Bool} (h : x.toOption.any p = true) :
    ∃ a, x = .ok a ∧ p a = true := by
  obtain ⟨a, ha, hp⟩ := (Option.any_eq_true _ _).mp h
  exact ⟨a, toOption_eq_some ha, hp⟩

theorem mapM_eq_ok {f : α → Except ε β} {l : List α} {l' : List β} :
    l.mapM f = .ok l' ↔ List.Forall₂ (fun a b => f a = .ok b) l l' := by
  induction l generalizing l' with
  | nil => simp [eq_comm]
  | cons a l ih =>
    rw [List.mapM_cons, bind_eq_ok]
    constructor
    · rintro ⟨b, hb, h⟩
      obtain ⟨bs, hbs, h⟩ := bind_eq_ok.mp h
      cases h
      exact .cons hb (ih.mp hbs)
    · rintro (_ | ⟨hb, hbs⟩)
      exact ⟨_, hb, bind_eq_ok.mpr ⟨_, ih.mpr hbs, rfl⟩⟩

theorem foldlM_inv {P : β → Prop} {f : β → α → Except ε β} {l : List α}
    (hstep : ∀ s, ∀ a ∈ l, ∀ s', P s → f s a = .ok s' → P s') :
    ∀ {s s' : β}, P s → l.foldlM f s = .ok s' → P s' := by
  induction l with
  | nil =>
    intro s s' hs h
    cases h
    exact hs
  | cons a l ih =>
    intro s s' hs h
    rw [List.foldlM_cons] at h
    obtain ⟨s1, h1, h⟩ := bind_eq_ok.mp h
    refine ih (fun t b hb => hstep t b (by simp [hb])) (hstep s a (by simp) s1 hs h1) h

/-! ## Specifications -/

/-- `x` ends in a result with `Q`, or in an error with `E`. -/
def Sat (E : ε → Prop) (Q : α → Prop) : Except ε α → Prop
  | .ok a => Q a
  | .error e => E e

namespace Sat

variable {E E' : ε → Prop} {Q : α → Prop} {R : β → Prop} {x : Except ε α} {f : α → Except ε β}

theorem ok {a : α} (h : Q a) : Sat E Q (.ok a : Except ε α) := h

theorem error {e : ε} (h : E e) : Sat E Q (.error e : Except ε α) := h

theorem bind (hx : Sat E Q x) (hf : ∀ a, Q a → Sat E R (f a)) : Sat E R (x >>= f) := by
  cases x with
  | ok a => exact hf a hx
  | error e => exact hx

theorem mono {Q' : α → Prop} (hx : Sat E Q x) (hE : ∀ e, E e → E' e) (hQ : ∀ a, Q a → Q' a) :
    Sat E' Q' x := by
  cases x with
  | ok a => exact hQ a hx
  | error e => exact hE e hx

theorem post {Q' : α → Prop} (hx : Sat E Q x) (hQ : ∀ a, Q a → Q' a) : Sat E Q' x :=
  hx.mono (fun _ h => h) hQ

theorem mapM {l : List α} {g : α → Except ε β} {P : α → β → Prop}
    (h : ∀ a ∈ l, Sat E (P a) (g a)) : Sat E (List.Forall₂ P l) (l.mapM g) := by
  induction l with
  | nil => exact .nil
  | cons a l ih =>
    rw [List.mapM_cons]
    refine bind (h a (by simp)) fun b hb => ?_
    exact bind (ih fun x hx => h x (by simp [hx])) fun bs hbs => ok (.cons hb hbs)

theorem of_eq_ok (hx : Sat E Q x) {a : α} (h : x = .ok a) : Q a := by
  subst h
  exact hx

theorem exists_ok (hx : Sat (fun _ => False) Q x) : ∃ a, x = .ok a ∧ Q a := by
  cases x with
  | ok a => exact ⟨a, rfl, hx⟩
  | error e => exact hx.elim

end Sat

end Except
