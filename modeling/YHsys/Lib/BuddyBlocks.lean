import Mathlib.Data.Nat.Bitwise
import Mathlib.Data.Set.Basic
import Mathlib.Tactic.Ring

/-!
# Aligned power-of-two blocks and their buddies

The arithmetic a buddy system rests on, over plain natural numbers. Two blocks that
meet are nested (`covers_of_le`). From this alone, `partition_unique` derives that a
merged partition of a set of cells is determined by the set.

`Carved M F b T` is the state in the middle of an operation: the block `b` of
`T` is in hand and the merged family `F` covers the rest. Taking a block out,
halving the block in hand, merging it with its buddy and putting it back are the
lemmas `Carved.of_mem`, `Carved.of_disjoint`, `Carved.lower`, `Carved.parent`
and `Carved.insert`.
-/

namespace Buddy

/-- `2 ^ order` cells from `start` on, with `start` a multiple of their number. -/
@[ext] structure Block where
  order : ℕ
  start : ℕ
  aligned : 2 ^ order ∣ start

namespace Block

/-- Cell `p` lies in the block. -/
def Covers (b : Block) (p : ℕ) : Prop :=
  b.start ≤ p ∧ p < b.start + 2 ^ b.order

instance (b : Block) (p : ℕ) : Decidable (b.Covers p) :=
  inferInstanceAs (Decidable (_ ∧ _))

theorem covers_start (b : Block) : b.Covers b.start :=
  ⟨Nat.le_refl _, Nat.lt_add_of_pos_right (Nat.two_pow_pos _)⟩

theorem covers_iff_div (b : Block) (p : ℕ) :
    b.Covers p ↔ p / 2 ^ b.order = b.start / 2 ^ b.order := by
  obtain ⟨k, i, m, rfl⟩ := b
  have hk : 0 < 2 ^ k := Nat.two_pow_pos k
  show 2 ^ k * m ≤ p ∧ p < 2 ^ k * m + 2 ^ k ↔ p / 2 ^ k = 2 ^ k * m / 2 ^ k
  rw [Nat.mul_div_cancel_left m hk, Nat.div_eq_iff hk]
  constructor
  · rintro ⟨h1, h2⟩
    exact ⟨by rw [Nat.mul_comm]; exact h1, by rw [Nat.mul_comm m]; omega⟩
  · rintro ⟨h1, h2⟩
    rw [Nat.mul_comm] at h1 h2
    exact ⟨h1, by omega⟩

theorem covers_of_le {b c : Block} {p q : ℕ} (hle : b.order ≤ c.order)
    (hb : b.Covers p) (hc : c.Covers p) (hq : b.Covers q) : c.Covers q := by
  rw [covers_iff_div] at hb hc hq ⊢
  obtain ⟨d, hd⟩ := Nat.exists_eq_add_of_le hle
  rw [← hc, hd, Nat.pow_add, ← Nat.div_div_eq_div_mul, ← Nat.div_div_eq_div_mul, hb, hq]

theorem eq_of_covers {b c : Block} {p : ℕ} (ho : b.order = c.order)
    (hb : b.Covers p) (hc : c.Covers p) : b = c := by
  have h1 := covers_of_le (Nat.le_of_eq ho) hb hc b.covers_start
  have h2 := covers_of_le (Nat.le_of_eq ho.symm) hc hb c.covers_start
  exact Block.ext ho (Nat.le_antisymm h2.1 h1.1)

/-! ## Buddies -/

theorem xor_two_pow_mul (k m : ℕ) : (2 ^ k * m) ^^^ 2 ^ k = 2 ^ k * (m ^^^ 1) := by
  have h := Nat.shiftLeft_xor_distrib (i := k) (a := m) (b := 1)
  rw [Nat.shiftLeft_eq, Nat.shiftLeft_eq, Nat.shiftLeft_eq, Nat.one_mul] at h
  rw [Nat.mul_comm (2 ^ k) m, Nat.mul_comm (2 ^ k), h]

/-- The buddy: the neighbour of the same order with bit `order` flipped. -/
def buddy (b : Block) : Block where
  order := b.order
  start := b.start ^^^ 2 ^ b.order
  aligned := by
    obtain ⟨k, i, m, rfl⟩ := b
    exact ⟨m ^^^ 1, xor_two_pow_mul k m⟩

@[simp] theorem buddy_order (b : Block) : b.buddy.order = b.order := rfl

theorem buddy_cases (b : Block) :
    (b.buddy.start = b.start + 2 ^ b.order ∧ 2 ^ (b.order + 1) ∣ b.start) ∨
    (b.start = b.buddy.start + 2 ^ b.order ∧ 2 ^ (b.order + 1) ∣ b.buddy.start) := by
  obtain ⟨k, i, m, rfl⟩ := b
  show ((2 ^ k * m) ^^^ 2 ^ k = 2 ^ k * m + 2 ^ k ∧ 2 ^ (k + 1) ∣ 2 ^ k * m) ∨
    (2 ^ k * m = ((2 ^ k * m) ^^^ 2 ^ k) + 2 ^ k ∧ 2 ^ (k + 1) ∣ (2 ^ k * m) ^^^ 2 ^ k)
  rw [xor_two_pow_mul]
  rcases Nat.even_or_odd m with he | ho
  · left
    rw [Nat.xor_one_of_even he, Nat.mul_add, Nat.mul_one]
    obtain ⟨r, rfl⟩ := he
    exact ⟨rfl, ⟨r, by ring⟩⟩
  · right
    rw [Nat.xor_one_of_odd ho]
    obtain ⟨r, rfl⟩ := ho
    exact ⟨by rw [Nat.add_sub_cancel]; ring, ⟨r, by rw [Nat.add_sub_cancel]; ring⟩⟩

/-- The block of the next order that a block and its buddy fill. -/
def parent (b : Block) : Block where
  order := b.order + 1
  start := min b.start b.buddy.start
  aligned := by
    rcases b.buddy_cases with ⟨h, hd⟩ | ⟨h, hd⟩
    · rw [Nat.min_eq_left (by omega)]
      exact hd
    · rw [Nat.min_eq_right (by omega)]
      exact hd

@[simp] theorem parent_order (b : Block) : b.parent.order = b.order + 1 := rfl

theorem parent_covers_iff (b : Block) (p : ℕ) :
    b.parent.Covers p ↔ b.Covers p ∨ b.buddy.Covers p := by
  have hpow : 2 ^ (b.order + 1) = 2 ^ b.order + 2 ^ b.order := by ring
  show min b.start b.buddy.start ≤ p ∧ p < min b.start b.buddy.start + 2 ^ (b.order + 1) ↔
    (b.start ≤ p ∧ p < b.start + 2 ^ b.order) ∨
      (b.buddy.start ≤ p ∧ p < b.buddy.start + 2 ^ b.order)
  rw [hpow]
  rcases b.buddy_cases with ⟨h, -⟩ | ⟨h, -⟩
  · rw [Nat.min_eq_left (by rw [h]; exact Nat.le_add_right _ _)]
    omega
  · rw [Nat.min_eq_right (by rw [h]; exact Nat.le_add_right _ _)]
    omega

theorem not_buddy_covers {b : Block} {p : ℕ} (h : b.Covers p) : ¬ b.buddy.Covers p := by
  have hp := Nat.two_pow_pos b.order
  rintro ⟨h1, h2⟩
  rw [buddy_order] at h2
  obtain ⟨h3, h4⟩ := h
  rcases b.buddy_cases with ⟨h, -⟩ | ⟨h, -⟩ <;> omega

theorem parent_covers_of_lt {b c : Block} {p q : ℕ} (hlt : b.order < c.order)
    (hb : b.Covers p) (hc : c.Covers p) (hq : b.parent.Covers q) : c.Covers q :=
  covers_of_le (b := b.parent) hlt ((b.parent_covers_iff p).mpr (.inl hb)) hc hq

@[simp] theorem buddy_buddy (b : Block) : b.buddy.buddy = b := by
  refine Block.ext rfl ?_
  show (b.start ^^^ 2 ^ b.order) ^^^ 2 ^ b.order = b.start
  rw [Nat.xor_assoc, Nat.xor_self, Nat.xor_zero]

/-- The lower half of a block of positive order. -/
def lower (b : Block) (j : ℕ) (hj : b.order = j + 1) : Block where
  order := j
  start := b.start
  aligned := (Nat.pow_dvd_pow 2 (by omega : j ≤ b.order)).trans b.aligned

theorem lower_parent (b : Block) (j : ℕ) (hj : b.order = j + 1) :
    (b.lower j hj).parent = b := by
  refine eq_of_covers (p := b.start) hj.symm ?_ b.covers_start
  exact ((b.lower j hj).parent_covers_iff _).mpr (.inl (b.lower j hj).covers_start)

theorem lower_buddy_start (b : Block) (j : ℕ) (hj : b.order = j + 1) :
    (b.lower j hj).buddy.start = b.start + 2 ^ j := by
  have hst : (b.lower j hj).parent.start = b.start :=
    congrArg Block.start (b.lower_parent j hj)
  have hmin : min b.start (b.lower j hj).buddy.start = b.start := hst
  have hp := Nat.two_pow_pos j
  rcases (b.lower j hj).buddy_cases with ⟨h, -⟩ | ⟨h, -⟩
  · exact h
  · have h' : b.start = (b.lower j hj).buddy.start + 2 ^ j := h
    omega

end Block

/-! ## Families of blocks -/

/-- The blocks of `F` are disjoint and together cover exactly `S`. -/
structure Partitions (F : Set Block) (S : Set ℕ) : Prop where
  disjoint : ∀ b ∈ F, ∀ c ∈ F, ∀ p, b.Covers p → c.Covers p → b = c
  covers : ∀ p, p ∈ S ↔ ∃ b ∈ F, b.Covers p

/-- No two buddies of an order below `M` are both in `F`. -/
def Merged (M : ℕ) (F : Set Block) : Prop :=
  ∀ b ∈ F, b.order < M → b.buddy ∉ F

theorem Merged.subset {M : ℕ} {F G : Set Block} (h : Merged M F) (hs : G ⊆ F) : Merged M G :=
  fun b hb hlt hc => h b (hs hb) hlt (hs hc)

theorem exists_mem_covering {M : ℕ} {F : Set Block} {S : Set ℕ} (hF : Partitions F S)
    (hM : Merged M F) :
    ∀ (k : ℕ) (b : Block), b.order = k → k ≤ M → (∀ p, b.Covers p → p ∈ S) →
      ∃ c ∈ F, b.order ≤ c.order ∧ c.Covers b.start := by
  intro k
  induction k with
  | zero =>
    intro b hb _ hS
    obtain ⟨c, hc, hcov⟩ := (hF.covers _).mp (hS _ b.covers_start)
    exact ⟨c, hc, by omega, hcov⟩
  | succ k ih =>
    intro b hb hk hS
    -- the lower half of `b` and its buddy, the upper half
    let l := b.lower k hb
    have hlp : l.parent = b := b.lower_parent k hb
    have hS' : ∀ p, l.Covers p ∨ l.buddy.Covers p → p ∈ S := fun p hp =>
      hS p (hlp ▸ (l.parent_covers_iff p).mpr hp)
    obtain ⟨c, hc, hco, hcc⟩ := ih l rfl (by omega) fun p hp => hS' p (.inl hp)
    obtain ⟨d, hd, hdo, hdc⟩ := ih l.buddy rfl (by omega) fun p hp => hS' p (.inr hp)
    by_cases hgt : k < c.order
    · exact ⟨c, hc, by omega, hcc⟩
    · have hcl : c = l :=
        Block.eq_of_covers (by show c.order = k; exact Nat.le_antisymm (by omega) hco) hcc
          l.covers_start
      by_cases hgt' : k < d.order
      · refine ⟨d, hd, by omega, ?_⟩
        refine Block.parent_covers_of_lt (b := l.buddy) hgt' l.buddy.covers_start hdc ?_
        refine (l.buddy.parent_covers_iff _).mpr (.inr ?_)
        rw [Block.buddy_buddy]
        exact l.covers_start
      · have hdl : d = l.buddy :=
          Block.eq_of_covers (by show d.order = k; exact Nat.le_antisymm (by omega) hdo) hdc
            l.buddy.covers_start
        exact absurd (hdl ▸ hd) (hM l (hcl ▸ hc) hk)

theorem partition_subset {M : ℕ} {F G : Set Block} {S : Set ℕ}
    (hF : Partitions F S) (hG : Partitions G S) (hFM : Merged M F) (hGM : Merged M G)
    (hFo : ∀ b ∈ F, b.order ≤ M) (hGo : ∀ b ∈ G, b.order ≤ M) : F ⊆ G := by
  intro b hb
  obtain ⟨c, hc, hbc, hcov⟩ := exists_mem_covering hG hGM b.order b rfl (hFo b hb)
    fun p hp => (hF.covers p).mpr ⟨b, hb, hp⟩
  obtain ⟨d, hd, hcd, hdcov⟩ := exists_mem_covering hF hFM c.order c rfl (hGo c hc)
    fun p hp => (hG.covers p).mpr ⟨c, hc, hp⟩
  -- `d` contains `c`, which contains the start of `b`: so `d` is `b`
  have hds : d.Covers b.start := Block.covers_of_le hcd c.covers_start hdcov hcov
  have hdb : d = b := hF.disjoint d hd b hb b.start hds b.covers_start
  have hcb : c = b := Block.eq_of_covers (by rw [hdb] at hcd; omega) hcov b.covers_start
  exact hcb ▸ hc

theorem partition_unique {M : ℕ} {F G : Set Block} {S : Set ℕ}
    (hF : Partitions F S) (hG : Partitions G S) (hFM : Merged M F) (hGM : Merged M G)
    (hFo : ∀ b ∈ F, b.order ≤ M) (hGo : ∀ b ∈ G, b.order ≤ M) : F = G :=
  Set.Subset.antisymm (partition_subset hF hG hFM hGM hFo hGo)
    (partition_subset hG hF hGM hFM hGo hFo)

/-! ## A block in hand -/

/-- The block `b` of `T` is in hand; the merged family `F` covers the rest of `T`. -/
structure Carved (M : ℕ) (F : Set Block) (b : Block) (T : Set ℕ) : Prop where
  inside : ∀ p, b.Covers p → p ∈ T
  parts : Partitions F (T \ {p | b.Covers p})
  merged : Merged M F

namespace Carved

variable {M : ℕ} {F : Set Block} {b : Block} {T : Set ℕ}

theorem not_covers (h : Carved M F b T) {c : Block} (hc : c ∈ F) {p : ℕ}
    (hb : b.Covers p) : ¬ c.Covers p := fun hcp =>
  ((h.parts.covers p).mpr ⟨c, hc, hcp⟩).2 hb

theorem not_mem (h : Carved M F b T) : b ∉ F := fun hb =>
  h.not_covers hb b.covers_start b.covers_start

theorem of_mem (hF : Partitions F T) (hM : Merged M F) (hb : b ∈ F) :
    Carved M (F \ {b}) b T where
  inside p hp := (hF.covers p).mpr ⟨b, hb, hp⟩
  parts :=
    { disjoint := fun c hc d hd => hF.disjoint c hc.1 d hd.1
      covers := by
        intro p
        constructor
        · rintro ⟨hp, hnb⟩
          obtain ⟨c, hc, hcp⟩ := (hF.covers p).mp hp
          exact ⟨c, ⟨hc, fun heq => hnb (heq ▸ hcp)⟩, hcp⟩
        · rintro ⟨c, ⟨hc, hne⟩, hcp⟩
          exact ⟨(hF.covers p).mpr ⟨c, hc, hcp⟩,
            fun hbp => hne (hF.disjoint c hc b hb p hcp hbp)⟩ }
  merged := hM.subset Set.sdiff_subset

theorem of_disjoint {S : Set ℕ} (hF : Partitions F S) (hM : Merged M F)
    (hb : ∀ p, b.Covers p → p ∉ S) : Carved M F b (S ∪ {p | b.Covers p}) where
  inside p hp := .inr hp
  parts := by
    have hS : (S ∪ {p | b.Covers p}) \ {p | b.Covers p} = S := by
      ext p
      exact ⟨fun ⟨h, hn⟩ => h.resolve_right hn, fun h => ⟨.inl h, fun hbp => hb p hbp h⟩⟩
    rwa [hS]
  merged := hM

theorem insert (h : Carved M F b T) (hb : b.order < M → b.buddy ∉ F) :
    Partitions (insert b F) T ∧ Merged M (insert b F) := by
  refine ⟨⟨?_, fun p => ⟨fun hp => ?_, ?_⟩⟩, ?_⟩
  · rintro c (rfl | hc) d (rfl | hd) p hcp hdp
    · rfl
    · exact absurd hdp (h.not_covers hd hcp)
    · exact absurd hcp (h.not_covers hc hdp)
    · exact h.parts.disjoint c hc d hd p hcp hdp
  · by_cases hbp : b.Covers p
    · exact ⟨b, .inl rfl, hbp⟩
    · obtain ⟨c, hc, hcp⟩ := (h.parts.covers p).mp ⟨hp, hbp⟩
      exact ⟨c, .inr hc, hcp⟩
  · rintro ⟨c, rfl | hc, hcp⟩
    · exact h.inside p hcp
    · exact ((h.parts.covers p).mpr ⟨c, hc, hcp⟩).1
  · rintro c (rfl | hc) hlt (heq | hmem)
    · have hcov : c.buddy.Covers c.start := by
        rw [heq]
        exact c.covers_start
      exact Block.not_buddy_covers c.covers_start hcov
    · exact hb hlt hmem
    · have hcb : b.buddy = c := by rw [← heq, Block.buddy_buddy]
      exact hb (by rw [← heq]; exact hlt) (hcb ▸ hc)
    · exact h.merged c hc hlt hmem

theorem lower (h : Carved M F b T) {j : ℕ} (hj : b.order = j + 1) :
    Carved M (Insert.insert (b.lower j hj).buddy F) (b.lower j hj) T := by
  set l := b.lower j hj with hl
  have hsplit : ∀ p, b.Covers p ↔ l.Covers p ∨ l.buddy.Covers p := by
    intro p
    rw [← l.parent_covers_iff, hl, b.lower_parent j hj]
  -- first take the upper half in hand with `l` removed from the target set
  have hup : Carved M F l.buddy (T \ {p | l.Covers p}) :=
    { inside := fun p hp =>
        ⟨h.inside p ((hsplit p).mpr (.inr hp)), fun hlp => Block.not_buddy_covers hlp hp⟩
      parts := by
        have hS : (T \ {p | l.Covers p}) \ {p | l.buddy.Covers p} =
            T \ {p | b.Covers p} := by
          ext p
          simp only [Set.mem_sdiff, Set.mem_ofPred_eq, hsplit, not_or, and_assoc]
        rw [hS]
        exact h.parts
      merged := h.merged }
  have hins := hup.insert fun _ hmem => by
    rw [Block.buddy_buddy] at hmem
    exact h.not_covers hmem ((hsplit _).mpr (.inl l.covers_start)) l.covers_start
  exact ⟨fun p hp => h.inside p ((hsplit p).mpr (.inl hp)), hins.1, hins.2⟩

theorem parent (h : Carved M F b T) (hb : b.buddy ∈ F) :
    Carved M (F \ {b.buddy}) b.parent T := by
  have hb' := of_mem h.parts h.merged hb
  refine ⟨fun p hp => ?_, ?_, hb'.merged⟩
  · rcases (b.parent_covers_iff p).mp hp with hp | hp
    · exact h.inside p hp
    · exact ((h.parts.covers p).mpr ⟨_, hb, hp⟩).1
  · have hS : (T \ {p | b.Covers p}) \ {p | b.buddy.Covers p} =
        T \ {p | b.parent.Covers p} := by
      ext p
      simp only [Set.mem_sdiff, Set.mem_ofPred_eq, b.parent_covers_iff, not_or, and_assoc]
    rw [← hS]
    exact hb'.parts

end Carved

end Buddy
