import Mathlib.Data.Set.Card
import Mathlib.Data.Set.Finite.Basic
import Mathlib.Logic.Function.Basic

/-!
# Counting the holders of shared resources

A table of slots, each of which holds at most one resource. `count own p` is the
number of slots that hold `p`; the lemmas say how it moves when one slot is
filled or emptied, and what a count of at most one means. Reference counts are
specified by it.
-/

namespace Holders

universe u v

variable {ι : Type u} {P : Type v}

/-- The slots that hold `p`. -/
def holders (own : ι → Option P) (p : P) : Set ι := {i | own i = some p}

/-- How many slots hold `p`. -/
noncomputable def count (own : ι → Option P) (p : P) : ℕ := (holders own p).ncard

/-- Only finitely many slots are in use. -/
def Bounded (own : ι → Option P) : Prop := {i | own i ≠ none}.Finite

variable {own : ι → Option P} {i j : ι} {p q : P}

theorem Bounded.holders (h : Bounded own) (p : P) : (holders own p).Finite :=
  h.subset fun i hi => by
    show own i ≠ none
    rw [show own i = some p from hi]
    exact Option.some_ne_none p

theorem Bounded.update [DecidableEq ι] (h : Bounded own) (i : ι) (x : Option P) :
    Bounded (Function.update own i x) :=
  (Set.Finite.insert i h).subset fun j hj => by
    by_cases hji : j = i
    · exact Set.mem_insert_iff.mpr (.inl hji)
    · refine Set.mem_insert_iff.mpr (.inr ?_)
      have hj : Function.update own i x j ≠ none := hj
      rwa [Function.update_of_ne hji] at hj

theorem count_pos (h : Bounded own) (hi : own i = some p) : 1 ≤ count own p :=
  (Set.ncard_pos (h.holders p)).mpr ⟨i, hi⟩

theorem count_eq_zero (h : ∀ i, own i ≠ some p) : count own p = 0 := by
  rw [count, show holders own p = ∅ from Set.eq_empty_of_forall_notMem h, Set.ncard_empty]

theorem eq_of_count_le_one (h : Bounded own) (hp : count own p ≤ 1) (hi : own i = some p)
    (hj : own j = some p) : i = j :=
  (Set.ncard_le_one (h.holders p)).mp hp i hi j hj

theorem count_fill [DecidableEq ι] [DecidableEq P] (h : Bounded own) (hi : own i = none) (p q : P) :
    count (Function.update own i (some p)) q = count own q + if q = p then 1 else 0 := by
  unfold count
  split_ifs with hqp
  · subst hqp
    rw [show holders (Function.update own i (some q)) q = insert i (holders own q) from ?_]
    · refine Set.ncard_insert_of_notMem ?_ (h.holders q)
      intro (hmem : own i = some q)
      rw [hi] at hmem
      cases hmem
    · refine Set.ext fun j => ?_
      by_cases hji : j = i
      · simp [holders, hji]
      · simp [holders, hji]
  · rw [Nat.add_zero]
    congr 1
    refine Set.ext fun j => ?_
    by_cases hji : j = i
    · subst hji
      simp [holders, hi, Ne.symm hqp]
    · simp [holders, Function.update_of_ne hji]

theorem count_drop [DecidableEq ι] [DecidableEq P] (h : Bounded own) (hi : own i = some p) (q : P) :
    count (Function.update own i none) q + (if q = p then 1 else 0) = count own q := by
  have hfill := count_fill (h.update i none) (Function.update_self i none own) p q
  rw [Function.update_idem, ← hi, Function.update_eq_self] at hfill
  exact hfill.symm

theorem count_restrict {σ : Type*} (own own' : ι → Option P) (f : σ → ι)
    (hf : Function.Injective f) (h : Bounded own) (hin : ∀ s, own' (f s) = none) (hout : ∀ i, (∀ s, f s ≠ i) → own' i = own i)
    (p : P) : count own p = count own' p + count (own ∘ f) p := by
  have hsplit : holders own p = holders own' p ∪ f '' holders (own ∘ f) p := by
    refine Set.ext fun i => ⟨fun hi => ?_, ?_⟩
    · by_cases hex : ∃ s, f s = i
      · obtain ⟨s, rfl⟩ := hex
        exact .inr ⟨s, hi, rfl⟩
      · exact .inl ((hout i fun s hs => hex ⟨s, hs⟩).trans hi)
    · rintro (hi | ⟨s, hs, rfl⟩)
      · have hne : ∀ s, f s ≠ i := fun s hs => by
          have hi : own' i = some p := hi
          rw [← hs, hin s] at hi
          cases hi
        exact (hout i hne).symm.trans hi
      · exact hs
  have hdisj : Disjoint (holders own' p) (f '' holders (own ∘ f) p) := by
    refine Set.disjoint_left.mpr ?_
    rintro _ hi ⟨s, -, rfl⟩
    have hi : own' (f s) = some p := hi
    rw [hin s] at hi
    cases hi
  have hfin := h.holders p
  rw [hsplit, Set.finite_union] at hfin
  unfold count
  rw [hsplit, Set.ncard_union_eq hdisj hfin.1 hfin.2, Set.ncard_image_of_injective _ hf]

theorem count_le_of_injOn {κ : Type*} (f : ι → κ) (S : Set κ) (hS : S.Finite)
    (hmem : ∀ i, own i = some p → f i ∈ S)
    (hinj : ∀ i j, own i = some p → own j = some p → f i = f j → i = j) :
    count own p ≤ S.ncard :=
  Set.ncard_le_ncard_of_injOn f hmem (fun i hi j hj hij => hinj i j hi hj hij) hS

end Holders
