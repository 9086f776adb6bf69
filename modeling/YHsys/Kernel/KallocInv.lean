import Mathlib.Data.List.Perm.Subperm
import YHsys.Kernel.Kalloc
import YHsys.Lib.BuddyBlocks
import YHsys.Lib.ExceptBind

/-!
# The buddy invariant of the page allocator

What the four data structures of `kalloc.c` say about each other, and that every
operation keeps it. The free lists of a state are read as a family of aligned
blocks (`freeBlocks`); `BuddyInv` states that this family is a merged partition
of the pages that `page_state` marks free, that no such page has a reference,
and that the lists are duplicate-free and counted by `nr_free`.

In the middle of an operation a block is in hand (`Buddy.Carved`): the splitting
loop of `buddy_alloc_order0` halves it (`buddyAllocSplit_spec`), the merging loop
of `buddy_free_order0` doubles it (`buddyFreeMerge_spec`).
-/

namespace YHsys.Kernel

open Buddy
open Function (update update_apply update_of_ne update_self)

/-! ## Arithmetic of pages -/

theorem npages_eq : npages = 2 ^ maxOrder := by decide

theorem npages_val : npages = 32768 := rfl

@[simp] theorem pa2idx_idx2pa (i : ℕ) : pa2idx (idx2pa i) = i := by
  unfold pa2idx idx2pa
  rw [Nat.add_sub_cancel_left]
  exact Nat.mul_div_cancel i (by decide)

theorem idx2pa_injective : Function.Injective idx2pa := fun i j h => by
  rw [← pa2idx_idx2pa i, h, pa2idx_idx2pa]

theorem idx2pa_pa2idx {pa : ℕ} (ha : pa % pgsize = 0) (hk : kernbase ≤ pa) :
    idx2pa (pa2idx pa) = pa := by
  unfold pa2idx idx2pa
  have hk' : kernbase % pgsize = 0 := by decide
  have hd : pgsize ∣ pa - kernbase :=
    (Nat.dvd_sub (Nat.dvd_of_mod_eq_zero ha) (Nat.dvd_of_mod_eq_zero hk'))
  rw [Nat.div_mul_cancel hd]
  omega

/-! ## Field lemmas -/

@[simp] theorem setBlockState_refcnt (idx order st : ℕ) (s : Kmem) :
    (setBlockState idx order st s).refcnt = s.refcnt := rfl

@[simp] theorem freelistPush_pageState (order r : ℕ) (s : Kmem) :
    (freelistPush order r s).pageState = s.pageState := rfl

theorem foldl_update_apply (idx st : ℕ) (ps : ℕ → ℕ) (n p : ℕ) :
    (List.range n).foldl (fun ps i => update ps (idx + i) st) ps p =
      if idx ≤ p ∧ p < idx + n then st else ps p := by
  induction n with
  | zero => rw [if_neg (by omega)]; rfl
  | succ n ih =>
    rw [List.range_succ, List.foldl_append]
    simp only [List.foldl_cons, List.foldl_nil, update_apply, ih]
    by_cases hp : p = idx + n
    · rw [if_pos hp, if_pos (by omega)]
    · rw [if_neg hp]
      by_cases hin : idx ≤ p ∧ p < idx + n
      · rw [if_pos hin, if_pos (by omega)]
      · rw [if_neg hin, if_neg (by omega)]

theorem setBlockState_pageState (b : Block) (st : ℕ) (s : Kmem) (p : ℕ) :
    (setBlockState b.start b.order st s).pageState p =
      if b.Covers p then st else s.pageState p := by
  unfold setBlockState
  rw [Nat.one_shiftLeft]
  exact foldl_update_apply b.start st s.pageState (2 ^ b.order) p

/-! ## The free lists as a family of blocks -/

/-- The blocks on the free lists. -/
def freeBlocks (s : Kmem) : Set Block :=
  {b | b.order ≤ maxOrder ∧ idx2pa b.start ∈ (s.freeAreas b.order).freelist}

@[simp] theorem freeBlocks_setBlockState (idx order st : ℕ) (s : Kmem) :
    freeBlocks (setBlockState idx order st s) = freeBlocks s := rfl

/-- The lists are well formed: every entry is the address of an aligned block in
RAM, no entry is repeated and `nr_free` counts the entries. -/
structure ListsOk (s : Kmem) : Prop where
  entry : ∀ k, k ≤ maxOrder → ∀ pa ∈ (s.freeAreas k).freelist,
    ∃ b : Block, b.order = k ∧ b.start < npages ∧ pa = idx2pa b.start
  nodup : ∀ k, k ≤ maxOrder → (s.freeAreas k).freelist.Nodup
  nrFree : ∀ k, k ≤ maxOrder → (s.freeAreas k).nrFree = (s.freeAreas k).freelist.length

namespace ListsOk

variable {s : Kmem}

theorem length_le (h : ListsOk s) {k : ℕ} (hk : k ≤ maxOrder) :
    (s.freeAreas k).freelist.length ≤ npages := by
  have hsub : (s.freeAreas k).freelist ⊆ (List.range npages).map idx2pa := by
    intro pa hpa
    obtain ⟨b, -, hb, rfl⟩ := h.entry k hk pa hpa
    exact List.mem_map.mpr ⟨b.start, List.mem_range.mpr hb, rfl⟩
  have hlen := ((h.nodup k hk).subperm hsub).length_le
  rwa [List.length_map, List.length_range] at hlen

theorem setBlockState (h : ListsOk s) (idx order st : ℕ) :
    ListsOk (setBlockState idx order st s) :=
  ⟨h.entry, h.nodup, h.nrFree⟩

theorem withRefcnt (h : ListsOk s) (f : ℕ → ℕ) : ListsOk { s with refcnt := f } :=
  ⟨h.entry, h.nodup, h.nrFree⟩

theorem update (h : ListsOk s) {k : ℕ} {a : FreeArea}
    (he : ∀ pa ∈ a.freelist, ∃ b : Block, b.order = k ∧ b.start < npages ∧ pa = idx2pa b.start)
    (hn : a.freelist.Nodup) (hl : a.nrFree = a.freelist.length) :
    ListsOk { s with freeAreas := update s.freeAreas k a } := by
  refine ⟨fun j hj => ?_, fun j hj => ?_, fun j hj => ?_⟩ <;>
    show _ <;> simp only [update_apply] <;> split
  · next hjk => exact hjk ▸ he
  · exact h.entry j hj
  · exact hn
  · exact h.nodup j hj
  · exact hl
  · exact h.nrFree j hj

end ListsOk

theorem nrFree_pred {n len : ℕ} (h : n = len) (hpos : 0 < len) (hle : len ≤ npages) :
    (n + 2 ^ 32 - 1) % 2 ^ 32 = len - 1 := by
  have hnp : npages < 2 ^ 32 := by decide
  omega

theorem freelistPush_spec {s : Kmem} (h : ListsOk s) {b : Block} (hk : b.order ≤ maxOrder)
    (hb : b.start < npages) (hnew : b ∉ freeBlocks s) :
    ListsOk (freelistPush b.order (idx2pa b.start) s) ∧
      freeBlocks (freelistPush b.order (idx2pa b.start) s) = insert b (freeBlocks s) := by
  have hnm : idx2pa b.start ∉ (s.freeAreas b.order).freelist := fun hmem => hnew ⟨hk, hmem⟩
  have hlen := h.length_le hk
  constructor
  · refine h.update ?_ (List.nodup_cons.mpr ⟨hnm, h.nodup _ hk⟩) ?_
    · intro pa hpa
      rcases List.mem_cons.mp hpa with rfl | hpa
      · exact ⟨b, rfl, hb, rfl⟩
      · exact h.entry _ hk pa hpa
    · show ((s.freeAreas b.order).nrFree + 1) % 2 ^ 32 = _
      have hnp : npages < 2 ^ 32 - 1 := by decide
      rw [h.nrFree _ hk, List.length_cons, Nat.mod_eq_of_lt (by omega)]
  · ext c
    show (c.order ≤ maxOrder ∧ idx2pa c.start ∈
      (update s.freeAreas b.order _ c.order).freelist) ↔ c = b ∨ c ∈ freeBlocks s
    rw [update_apply]
    by_cases hc : c.order = b.order
    · rw [if_pos hc]
      constructor
      · rintro ⟨hco, hmem⟩
        rcases List.mem_cons.mp hmem with heq | hmem
        · exact .inl (Block.ext hc (idx2pa_injective heq))
        · exact .inr ⟨hco, by rw [hc]; exact hmem⟩
      · rintro (rfl | ⟨hco, hmem⟩)
        · exact ⟨hk, List.mem_cons_self⟩
        · exact ⟨hco, List.mem_cons_of_mem _ (by rw [← hc]; exact hmem)⟩
    · rw [if_neg hc]
      constructor
      · exact .inr
      · rintro (rfl | hmem)
        · exact absurd rfl hc
        · exact hmem

theorem freeBlocks_erase {s : Kmem} (h : ListsOk s) {b : Block} (hk : b.order ≤ maxOrder)
    (hmem : idx2pa b.start ∈ (s.freeAreas b.order).freelist) {a : FreeArea}
    (ha : a.freelist = (s.freeAreas b.order).freelist.erase (idx2pa b.start))
    (hl : a.nrFree = ((s.freeAreas b.order).nrFree + 2 ^ 32 - 1) % 2 ^ 32) :
    ListsOk { s with freeAreas := update s.freeAreas b.order a } ∧
      freeBlocks { s with freeAreas := update s.freeAreas b.order a } =
        freeBlocks s \ {b} := by
  have hnd := h.nodup _ hk
  constructor
  · refine h.update ?_ ?_ ?_
    · rw [ha]
      exact fun pa hpa => h.entry _ hk pa (List.mem_of_mem_erase hpa)
    · rw [ha]
      exact hnd.erase _
    · rw [hl, ha, List.length_erase_of_mem hmem]
      exact nrFree_pred (h.nrFree _ hk) (List.length_pos_of_mem hmem) (h.length_le hk)
  · ext c
    show (c.order ≤ maxOrder ∧ idx2pa c.start ∈
      (update s.freeAreas b.order a c.order).freelist) ↔ c ∈ freeBlocks s ∧ c ≠ b
    rw [update_apply]
    by_cases hc : c.order = b.order
    · rw [if_pos hc, ha, hnd.mem_erase_iff]
      constructor
      · rintro ⟨hco, hne, hm⟩
        exact ⟨⟨hco, by rw [hc]; exact hm⟩, fun heq => hne (heq ▸ rfl)⟩
      · rintro ⟨⟨hco, hm⟩, hne⟩
        refine ⟨hco, fun heq => hne (Block.ext hc (idx2pa_injective heq)), ?_⟩
        rw [← hc]
        exact hm
    · rw [if_neg hc]
      exact ⟨fun hm => ⟨hm, fun heq => hc (heq ▸ rfl)⟩, fun hm => hm.1⟩

theorem freelistRemove_mem {s : Kmem} (h : ListsOk s) {b : Block} (hb : b ∈ freeBlocks s) :
    ∃ s', freelistRemove b.order (idx2pa b.start) s = (true, s') ∧ ListsOk s' ∧
      freeBlocks s' = freeBlocks s \ {b} ∧ s'.refcnt = s.refcnt ∧
      s'.pageState = s.pageState := by
  have hs := freeBlocks_erase h hb.1 hb.2
    (a := ⟨(s.freeAreas b.order).freelist.erase (idx2pa b.start),
      ((s.freeAreas b.order).nrFree + 2 ^ 32 - 1) % 2 ^ 32⟩) rfl rfl
  exact ⟨_, if_pos hb.2, hs.1, hs.2, rfl, rfl⟩

theorem freelistRemove_not_mem {s : Kmem} {b : Block} (hk : b.order ≤ maxOrder)
    (hb : b ∉ freeBlocks s) : freelistRemove b.order (idx2pa b.start) s = (false, s) := by
  unfold freelistRemove
  rw [if_neg fun hmem => hb ⟨hk, hmem⟩]

theorem freelistPop_spec {s : Kmem} (h : ListsOk s) {k : ℕ} (hk : k ≤ maxOrder)
    (hne : (s.freeAreas k).freelist ≠ []) :
    ∃ (b : Block) (s' : Kmem), b.order = k ∧ b ∈ freeBlocks s ∧
      freelistPop k s = (some (idx2pa b.start), s') ∧ ListsOk s' ∧
      freeBlocks s' = freeBlocks s \ {b} ∧ s'.refcnt = s.refcnt ∧
      s'.pageState = s.pageState := by
  match hl : (s.freeAreas k).freelist, hne with
  | r :: next, _ =>
    obtain ⟨b, rfl, -, rfl⟩ := h.entry k hk r (by rw [hl]; exact List.mem_cons_self)
    have hmem : idx2pa b.start ∈ (s.freeAreas b.order).freelist := by
      rw [hl]
      exact List.mem_cons_self
    have hs := freeBlocks_erase h hk hmem
      (a := ⟨next, ((s.freeAreas b.order).nrFree + 2 ^ 32 - 1) % 2 ^ 32⟩)
      (by rw [hl, List.erase_cons_head]) rfl
    refine ⟨b, _, rfl, ⟨hk, hmem⟩, ?_, hs.1, hs.2, rfl, rfl⟩
    simp only [freelistPop, hl]

/-! ## The two loops -/

theorem buddyAllocSplit_spec {T : Set ℕ} (hT : ∀ p ∈ T, p < npages) :
    ∀ (k : ℕ) (b : Block) (s : Kmem), b.order = k → k ≤ maxOrder → ListsOk s →
      Carved maxOrder (freeBlocks s) b T →
      (∀ p, s.pageState p = pgBuddyFree ↔ p ∈ T ∧ ¬ b.Covers p) →
      ∃ c : Block, c.order = 0 ∧ c.start = b.start ∧
        ListsOk (buddyAllocSplit b.start k s) ∧
        Carved maxOrder (freeBlocks (buddyAllocSplit b.start k s)) c T ∧
        (∀ p, (buddyAllocSplit b.start k s).pageState p = pgBuddyFree ↔
          p ∈ T ∧ ¬ c.Covers p) ∧
        (buddyAllocSplit b.start k s).refcnt = s.refcnt := by
  intro k
  induction k with
  | zero => exact fun b s hb _ hl hc hst => ⟨b, hb, rfl, hl, hc, hst, rfl⟩
  | succ k ih =>
    intro b s hb hk hl hc hst
    -- `l` stays in hand, its buddy is the half the source calls `buddy_idx`
    set l := b.lower k hb with hldef
    have hup : l.buddy.start = b.start + 1 <<< k := by
      rw [Nat.one_shiftLeft]
      exact b.lower_buddy_start k hb
    have hpar : ∀ p, b.Covers p ↔ l.Covers p ∨ l.buddy.Covers p := by
      intro p
      rw [← l.parent_covers_iff, hldef, b.lower_parent k hb]
    have hupT : l.buddy.start ∈ T :=
      hc.inside _ ((hpar _).mpr (.inr l.buddy.covers_start))
    have hnew : l.buddy ∉ freeBlocks s := fun hmem =>
      hc.not_covers hmem ((hpar _).mpr (.inr l.buddy.covers_start)) l.buddy.covers_start
    have hlo : l.buddy.order = k := rfl
    set s1 := setBlockState (b.start + 1 <<< k) k pgBuddyFree s with hs1
    set s2 := freelistPush k (idx2pa (b.start + 1 <<< k)) s1 with hs2
    obtain ⟨hl2, hf2⟩ : ListsOk s2 ∧ freeBlocks s2 = insert l.buddy (freeBlocks s) := by
      rw [hs2, ← hup, ← hlo]
      exact freelistPush_spec (hl.setBlockState _ _ _) (by omega) (hT _ hupT) hnew
    have hst2 : ∀ p, s2.pageState p = pgBuddyFree ↔ p ∈ T ∧ ¬ l.Covers p := by
      intro p
      rw [hs2, freelistPush_pageState, hs1, ← hup, ← hlo, setBlockState_pageState]
      by_cases hp : l.buddy.Covers p
      · rw [if_pos hp]
        exact ⟨fun _ => ⟨hc.inside _ ((hpar p).mpr (.inr hp)),
          fun hlp => Block.not_buddy_covers hlp hp⟩, fun _ => rfl⟩
      · rw [if_neg hp, hst p, hpar p]
        exact ⟨fun ⟨h1, h2⟩ => ⟨h1, fun h => h2 (.inl h)⟩,
          fun ⟨h1, h2⟩ => ⟨h1, fun h => h.elim h2 hp⟩⟩
    have hc2 : Carved maxOrder (freeBlocks s2) l T := hf2 ▸ hc.lower hb
    exact ih l s2 rfl (by omega) hl2 hc2 hst2

/-- The lists are well formed and a merged partition of `T`, the marked pages. -/
structure Listed (T : Set ℕ) (s : Kmem) : Prop where
  lists : ListsOk s
  parts : Partitions (freeBlocks s) T
  merged : Merged maxOrder (freeBlocks s)
  marked : ∀ p, s.pageState p = pgBuddyFree ↔ p ∈ T

theorem freelistPush_listed {T : Set ℕ} (hT : ∀ p ∈ T, p < npages) {b : Block} {s : Kmem}
    (hk : b.order ≤ maxOrder) (hl : ListsOk s) (hc : Carved maxOrder (freeBlocks s) b T)
    (hst : ∀ p, s.pageState p = pgBuddyFree ↔ p ∈ T)
    (hbud : b.order < maxOrder → b.buddy ∉ freeBlocks s) :
    Listed T (freelistPush b.order (idx2pa b.start) s) := by
  obtain ⟨hl', hf'⟩ := freelistPush_spec hl hk (hT _ (hc.inside _ b.covers_start)) hc.not_mem
  obtain ⟨hp, hm⟩ := hc.insert hbud
  exact ⟨hl', hf' ▸ hp, hf' ▸ hm, hst⟩

/-- **The merging loop.** With the block `b` of `T` in hand and all of `T`
marked, the loop merges `b` as far as its buddies are listed and lists the
result: the lists are again a merged partition of `T`. -/
theorem buddyFreeMerge_spec {T : Set ℕ} (hT : ∀ p ∈ T, p < npages) :
    ∀ (n : ℕ) (b : Block) (s : Kmem), b.order + n = maxOrder → ListsOk s →
      Carved maxOrder (freeBlocks s) b T →
      (∀ p, s.pageState p = pgBuddyFree ↔ p ∈ T) →
      Listed T (buddyFreeMerge n b.start b.order s) ∧
        (buddyFreeMerge n b.start b.order s).refcnt = s.refcnt := by
  intro n
  induction n with
  | zero =>
    exact fun b s hb hl hc hst => ⟨freelistPush_listed hT (by omega) hl hc hst (by omega), rfl⟩
  | succ n ih =>
    intro b s hb hl hc hst
    have hbo : b.order ≤ maxOrder := by omega
    have hxor : b.start ^^^ (1 <<< b.order) = b.buddy.start := by
      rw [Nat.one_shiftLeft]
      rfl
    -- the buddy is never outside RAM: flipping a bit below 15 stays below `2 ^ 15`
    have hrange : ¬ npages ≤ b.buddy.start := by
      have hlt : b.buddy.start < 2 ^ maxOrder := by
        refine Nat.xor_lt_two_pow ?_ (Nat.pow_lt_pow_right (by decide) (by omega))
        rw [← npages_eq]
        exact hT _ (hc.inside _ b.covers_start)
      rw [npages_eq]
      omega
    simp only [buddyFreeMerge, hxor, if_neg hrange]
    by_cases hstate : s.pageState b.buddy.start = pgBuddyFree
    · rw [if_neg (not_not.mpr hstate)]
      by_cases hmem : b.buddy ∈ freeBlocks s
      · obtain ⟨s1, hrem, hl1, hf1, hr1, hp1⟩ := freelistRemove_mem hl hmem
        rw [Block.buddy_order] at hrem
        rw [hrem]
        have hmin : (if b.buddy.start < b.start then b.buddy.start else b.start) =
            b.parent.start := by
          show _ = min b.start b.buddy.start
          split_ifs with hlt
          · rw [Nat.min_eq_right (by omega)]
          · rw [Nat.min_eq_left (by omega)]
        simp only [hmin]
        set s2 := setBlockState b.parent.start (b.order + 1) pgBuddyFree
          (setBlockState b.buddy.start b.order 0 (setBlockState b.start b.order 0 s1)) with hs2
        have hc2 : Carved maxOrder (freeBlocks s2) b.parent T := by
          show Carved maxOrder (freeBlocks s1) b.parent T
          rw [hf1]
          exact hc.parent hmem
        have hst2 : ∀ p, s2.pageState p = pgBuddyFree ↔ p ∈ T := by
          intro p
          have h1 := setBlockState_pageState b.parent pgBuddyFree
            (setBlockState b.buddy.start b.order 0 (setBlockState b.start b.order 0 s1)) p
          have h2 := setBlockState_pageState b.buddy 0 (setBlockState b.start b.order 0 s1) p
          rw [b.parent_order] at h1
          rw [b.buddy_order] at h2
          rw [hs2, h1, h2, setBlockState_pageState b, hp1]
          by_cases hp : b.parent.Covers p
          · rw [if_pos hp]
            exact ⟨fun _ => hc2.inside p hp, fun _ => rfl⟩
          · have hp' := (b.parent_covers_iff p).not.mp hp
            rw [not_or] at hp'
            rw [if_neg hp, if_neg hp'.2, if_neg hp'.1]
            exact hst p
        obtain ⟨h1, h2⟩ := ih b.parent s2 (by rw [b.parent_order]; omega)
          (((hl1.setBlockState _ _ _).setBlockState _ _ _).setBlockState _ _ _) hc2 hst2
        exact ⟨h1, h2.trans hr1⟩
      · have hrem := freelistRemove_not_mem (s := s) (b := b.buddy) hbo hmem
        rw [Block.buddy_order] at hrem
        rw [hrem]
        exact ⟨freelistPush_listed hT hbo hl hc hst fun _ => hmem, rfl⟩
    · -- an unmarked page is not the start of a listed block
      rw [if_pos hstate]
      refine ⟨freelistPush_listed hT hbo hl hc hst fun _ hmem => hstate ((hst _).mpr ?_), rfl⟩
      exact ((hc.parts.covers _).mpr ⟨_, hmem, b.buddy.covers_start⟩).1

/-! ## The invariant -/

/-- The pages that `page_state` marks free. -/
def freePages (s : Kmem) : Set ℕ := {p | s.pageState p = pgBuddyFree}

/-- The allocator's invariant when the pages `lo .. hi` are under management. -/
structure BuddyInv (lo hi : ℕ) (s : Kmem) : Prop where
  listed : Listed (freePages s) s
  inRange : ∀ p ∈ freePages s, lo ≤ p ∧ p < hi
  unused : ∀ p ∈ freePages s, s.refcnt p = 0
  outside : ∀ p, ¬ (lo ≤ p ∧ p < hi) → s.refcnt p = 0

namespace BuddyInv

variable {lo hi : ℕ} {s : Kmem}

theorem of_refcnt_pos (h : BuddyInv lo hi s) {p : ℕ} (hp : 1 ≤ s.refcnt p) :
    (lo ≤ p ∧ p < hi) ∧ p ∉ freePages s := by
  constructor
  · by_contra hn
    have := h.outside p hn
    omega
  · intro hf
    have := h.unused p hf
    omega

theorem withRefcnt (h : BuddyInv lo hi s) {p n hi' : ℕ} (hhi : hi ≤ hi')
    (hp : lo ≤ p ∧ p < hi') (hf : p ∉ freePages s) :
    BuddyInv lo hi' { s with refcnt := update s.refcnt p n } where
  listed := ⟨h.listed.lists.withRefcnt _, h.listed.parts, h.listed.merged, h.listed.marked⟩
  inRange q hq := ⟨(h.inRange q hq).1, Nat.lt_of_lt_of_le (h.inRange q hq).2 hhi⟩
  unused q hq := by
    show update s.refcnt p n q = 0
    rw [update_of_ne (fun heq : q = p => hf (heq ▸ hq))]
    exact h.unused q hq
  outside q hq := by
    show update s.refcnt p n q = 0
    rw [update_of_ne (fun heq : q = p => hq (heq ▸ hp))]
    exact h.outside q fun hin => hq ⟨hin.1, Nat.lt_of_lt_of_le hin.2 hhi⟩

end BuddyInv

theorem covers_order_zero {b : Block} (hb : b.order = 0) (p : ℕ) :
    b.Covers p ↔ p = b.start := by
  unfold Block.Covers
  rw [hb]
  omega

/-- What `kalloc` does: it fails when no page is free, and otherwise takes one
free page and gives it its first reference. -/
theorem kalloc_spec {lo hi : ℕ} {s : Kmem} (hhi : hi ≤ npages) (h : BuddyInv lo hi s) :
    (kalloc s = (none, s) ∧ freePages s = ∅) ∨
    ∃ idx s', kalloc s = (some (idx2pa idx), s') ∧ idx ∈ freePages s ∧
      freePages s' = freePages s \ {idx} ∧
      s'.refcnt = update s.refcnt idx 1 ∧ BuddyInv lo hi s' := by
  have hT : ∀ p ∈ freePages s, p < npages := fun p hp =>
    Nat.lt_of_lt_of_le (h.inRange p hp).2 hhi
  match hfind : (List.range (maxOrder + 1)).find? fun k => !(s.freeAreas k).freelist.isEmpty with
  | none =>
    left
    refine ⟨by simp only [kalloc, buddyAllocOrder0, hfind], ?_⟩
    refine Set.eq_empty_of_forall_notMem fun p hp => ?_
    obtain ⟨b, ⟨hbo, hmem⟩, -⟩ := (h.listed.parts.covers p).mp hp
    have hnone := List.find?_eq_none.mp hfind b.order (List.mem_range.mpr (by omega))
    rw [Bool.not_eq_true, Bool.not_eq_false', List.isEmpty_iff] at hnone
    rw [hnone] at hmem
    exact absurd hmem List.not_mem_nil
  | some k =>
    right
    have hk : k ≤ maxOrder := by
      have := List.mem_range.mp (List.mem_of_find?_eq_some hfind)
      omega
    have hne : (s.freeAreas k).freelist ≠ [] := by
      have := List.find?_some hfind
      simpa using this
    obtain ⟨b, s1, hbo, hb, hpop, hl1, hf1, hr1, hp1⟩ :=
      freelistPop_spec h.listed.lists hk hne
    -- the popped block comes into hand and is unmarked
    have hc := Carved.of_mem h.listed.parts h.listed.merged hb
    set s2 := setBlockState b.start k 0 s1 with hs2
    have hst2 : ∀ p, s2.pageState p = pgBuddyFree ↔ p ∈ freePages s ∧ ¬ b.Covers p := by
      intro p
      rw [hs2, ← hbo, setBlockState_pageState, hp1]
      by_cases hp : b.Covers p
      · rw [if_pos hp]
        exact ⟨fun h0 => absurd h0 (by decide), fun h0 => absurd hp h0.2⟩
      · rw [if_neg hp]
        exact ⟨fun h0 => ⟨h0, hp⟩, fun h0 => h0.1⟩
    obtain ⟨c, hco, hcs, hl3, hc3, hst3, hr3⟩ :=
      buddyAllocSplit_spec hT k b s2 hbo hk (hl1.setBlockState _ _ _)
        (by rw [hs2, freeBlocks_setBlockState, hf1]; exact hc) hst2
    set s3 := buddyAllocSplit b.start k s2 with hs3
    have hcov := covers_order_zero hco
    rw [hcs] at hcov
    have hfree : freePages s3 = freePages s \ {b.start} := by
      ext p
      show s3.pageState p = pgBuddyFree ↔ _
      rw [hst3 p, hcov]
      rfl
    have hmem : b.start ∈ freePages s := hc.inside _ b.covers_start
    have hinv3 : BuddyInv lo hi s3 :=
      { listed := by
          refine ⟨hl3, ?_, hc3.merged, fun p => Iff.rfl⟩
          have hset : freePages s3 = freePages s \ {p | c.Covers p} := by
            rw [hfree]
            ext p
            simp only [Set.mem_sdiff, Set.mem_singleton_iff, Set.mem_ofPred_eq, hcov]
          rw [hset]
          exact hc3.parts
        inRange := fun p hp => h.inRange p (hfree ▸ hp).1
        unused := fun p hp => by
          rw [hr3, hs2, setBlockState_refcnt, hr1]
          exact h.unused p (hfree ▸ hp).1
        outside := fun p hp => by
          rw [hr3, hs2, setBlockState_refcnt, hr1]
          exact h.outside p hp }
    refine ⟨b.start, { s3 with refcnt := update s3.refcnt b.start 1 }, ?_, hmem,
      hfree, ?_, hinv3.withRefcnt (Nat.le_refl _) (h.inRange _ hmem) ?_⟩
    · simp only [kalloc, buddyAllocOrder0, hfind, hpop, pa2idx_idx2pa, hs3, hs2]
    · show update s3.refcnt b.start 1 = _
      rw [hr3, hs2, setBlockState_refcnt, hr1]
    · rw [hfree]
      exact fun hin => hin.2 rfl

theorem buddyFreeOrder0_spec {lo hi : ℕ} {s : Kmem} (hhi : hi ≤ npages)
    (h : BuddyInv lo hi s) {idx : ℕ} (hin : lo ≤ idx ∧ idx < hi) (hnf : idx ∉ freePages s)
    (hr : s.refcnt idx = 0) :
    BuddyInv lo hi (buddyFreeOrder0 idx s) ∧
      freePages (buddyFreeOrder0 idx s) = insert idx (freePages s) ∧
      (buddyFreeOrder0 idx s).refcnt = s.refcnt := by
  let b : Block := ⟨0, idx, by simp⟩
  have hcov : ∀ p, b.Covers p ↔ p = idx := covers_order_zero rfl
  have hc : Carved maxOrder (freeBlocks s) b (freePages s ∪ {p | b.Covers p}) :=
    Carved.of_disjoint h.listed.parts h.listed.merged fun p hp => (hcov p).mp hp ▸ hnf
  have hset : freePages s ∪ {p | b.Covers p} = insert idx (freePages s) := by
    ext p
    simp only [Set.mem_union, Set.mem_ofPred_eq, hcov, Set.mem_insert_iff]
    exact or_comm
  rw [hset] at hc
  have hT : ∀ p ∈ insert idx (freePages s), p < npages := by
    rintro p (rfl | hp)
    · omega
    · exact Nat.lt_of_lt_of_le (h.inRange p hp).2 hhi
  have hst : ∀ p, (setBlockState idx 0 pgBuddyFree s).pageState p = pgBuddyFree ↔
      p ∈ insert idx (freePages s) := by
    intro p
    have hset := setBlockState_pageState b pgBuddyFree s p
    show (setBlockState b.start b.order pgBuddyFree s).pageState p = pgBuddyFree ↔ _
    rw [hset, Set.mem_insert_iff, ← hcov]
    by_cases hp : b.Covers p
    · rw [if_pos hp]
      exact ⟨fun _ => .inl hp, fun _ => rfl⟩
    · rw [if_neg hp]
      exact ⟨.inr, fun h0 => h0.resolve_left hp⟩
  obtain ⟨hl, hrefs⟩ := buddyFreeMerge_spec hT maxOrder b (setBlockState idx 0 pgBuddyFree s)
    (by simp [b]) (h.listed.lists.setBlockState _ _ _) hc hst
  have hrefs' : (buddyFreeOrder0 idx s).refcnt = s.refcnt := hrefs
  have hfree : freePages (buddyFreeOrder0 idx s) = insert idx (freePages s) :=
    Set.ext hl.marked
  refine ⟨⟨?_, ?_, ?_, ?_⟩, hfree, hrefs'⟩
  · rw [hfree]
    exact hl
  · rw [hfree]
    rintro p (rfl | hp)
    · exact hin
    · exact h.inRange p hp
  · rw [hfree, hrefs']
    rintro p (rfl | hp)
    · exact hr
    · exact h.unused p hp
  · rw [hrefs']
    exact h.outside

theorem kfree_spec {img : KernelImage} {lo hi pa : ℕ} {s s' : Kmem} (hhi : hi ≤ npages)
    (h : BuddyInv lo hi s) (hk : kfree img pa s = .ok s') :
    1 ≤ s.refcnt (pa2idx pa) ∧ pa = idx2pa (pa2idx pa) ∧
      s'.refcnt = update s.refcnt (pa2idx pa) (s.refcnt (pa2idx pa) - 1) ∧
      freePages s' = (if s.refcnt (pa2idx pa) = 1 then insert (pa2idx pa) (freePages s)
        else freePages s) ∧
      BuddyInv lo hi s' := by
  unfold kfree at hk
  split at hk
  · cases hk
  next hguard =>
  simp only [not_or, not_not, Nat.not_lt] at hguard
  dsimp only at hk
  split at hk
  · cases hk
  next hpos =>
  have hpos' : 1 ≤ s.refcnt (pa2idx pa) := Nat.not_lt.mp hpos
  obtain ⟨hin, hnf⟩ := h.of_refcnt_pos hpos'
  have hpa := idx2pa_pa2idx hguard.1 (img.kernbase_le_kend.trans hguard.2.1)
  have hinv1 := h.withRefcnt (n := s.refcnt (pa2idx pa) - 1) (Nat.le_refl _) hin hnf
  simp only [update_self] at hk
  refine ⟨hpos', hpa.symm, ?_⟩
  split at hk
  · next hmore =>
    obtain rfl := Except.ok.inj hk
    rw [if_neg (by omega)]
    exact ⟨rfl, rfl, hinv1⟩
  · next hlast =>
    obtain rfl := Except.ok.inj hk
    obtain ⟨hinv, hfree, hrefs⟩ := buddyFreeOrder0_spec hhi hinv1 hin hnf
      (by show update _ _ _ _ = 0; rw [update_self]; omega)
    rw [if_pos (by omega)]
    exact ⟨hrefs, hfree, hinv⟩

theorem kaddref_spec {lo hi pa : ℕ} {s s' : Kmem} (h : BuddyInv lo hi s)
    (hk : kaddref pa s = .ok s') :
    1 ≤ s.refcnt (pa2idx pa) ∧ pa = idx2pa (pa2idx pa) ∧
      s'.refcnt = update s.refcnt (pa2idx pa)
        ((s.refcnt (pa2idx pa) + 1) % 2 ^ 16) ∧
      freePages s' = freePages s ∧ freeBlocks s' = freeBlocks s ∧ BuddyInv lo hi s' := by
  unfold kaddref at hk
  split at hk
  · cases hk
  next hguard =>
  simp only [not_or, not_not, Nat.not_lt] at hguard
  dsimp only at hk
  split at hk
  · cases hk
  next hpos =>
  have hpos' : 1 ≤ s.refcnt (pa2idx pa) := Nat.one_le_iff_ne_zero.mpr hpos
  obtain ⟨hin, hnf⟩ := h.of_refcnt_pos hpos'
  obtain rfl := Except.ok.inj hk
  exact ⟨hpos', (idx2pa_pa2idx hguard.1 hguard.2.1).symm, rfl, rfl, rfl,
    h.withRefcnt (Nat.le_refl _) hin hnf⟩

/-! ## Start-up -/

/-- First page index above the kernel. -/
def firstPage (img : KernelImage) : ℕ := pa2idx (pgroundup img.kend)

theorem pgroundup_kend (img : KernelImage) :
    pgroundup img.kend = idx2pa (firstPage img) ∧ img.kend ≤ pgroundup img.kend ∧
      firstPage img ≤ npages := by
  have h1 := img.kernbase_le_kend
  have h2 := img.le_phystop
  simp only [firstPage, pgroundup, pa2idx, idx2pa, npages_val, kernbase_eq, phystop_eq,
    pgsize_eq] at *
  omega

theorem kfree_next {img : KernelImage} {hi : ℕ} {s : Kmem} (hhi : hi < npages)
    (hlo : firstPage img ≤ hi) (h : BuddyInv (firstPage img) hi s) :
    ∃ s', kfree img (idx2pa hi) { s with refcnt := update s.refcnt hi 1 } = .ok s' ∧
      BuddyInv (firstPage img) (hi + 1) s' ∧ freePages s' = insert hi (freePages s) ∧
      s'.refcnt = s.refcnt := by
  have hnf : hi ∉ freePages s := fun hf => by
    have := (h.inRange hi hf).2
    omega
  have hzero : s.refcnt hi = 0 := h.outside hi (by omega)
  set s1 : Kmem := { s with refcnt := update s.refcnt hi 1 } with hs1
  have hinv : BuddyInv (firstPage img) (hi + 1) s1 := h.withRefcnt (by omega) (by omega) hnf
  have hguard : ¬ (idx2pa hi % pgsize ≠ 0 ∨ idx2pa hi < img.kend ∨ phystop ≤ idx2pa hi) := by
    obtain ⟨h1, h2, -⟩ := pgroundup_kend img
    have hmono : idx2pa (firstPage img) ≤ idx2pa hi :=
      Nat.add_le_add_left (Nat.mul_le_mul_right _ hlo) _
    simp only [idx2pa, npages_val, kernbase_eq, phystop_eq, pgsize_eq] at *
    omega
  have hcnt : s1.refcnt hi = 1 := update_self ..
  have hok : kfree img (idx2pa hi) s1 = .ok
      (buddyFreeOrder0 hi { s1 with refcnt := update s1.refcnt hi 0 }) := by
    unfold kfree
    rw [if_neg hguard]
    simp only [pa2idx_idx2pa, hcnt, update_self, Nat.lt_irrefl, if_false, Nat.sub_self]
  obtain ⟨-, -, hr, hf, hinv'⟩ := kfree_spec (by omega) hinv hok
  rw [pa2idx_idx2pa, hcnt] at hr hf
  rw [if_pos rfl] at hf
  refine ⟨_, hok, hinv', hf, ?_⟩
  rw [hr, hs1]
  show update (update s.refcnt hi 1) hi 0 = s.refcnt
  rw [Function.update_idem, ← hzero, Function.update_eq_self]

theorem kmemZero_inv (lo : ℕ) : BuddyInv lo lo kmemZero := by
  have hfree : freePages kmemZero = ∅ :=
    Set.eq_empty_of_forall_notMem fun p hp => absurd (show 0 = pgBuddyFree from hp) (by decide)
  have hblocks : freeBlocks kmemZero = ∅ :=
    Set.eq_empty_of_forall_notMem fun b hb => absurd hb.2 List.not_mem_nil
  refine ⟨⟨⟨?_, ?_, ?_⟩, ?_, ?_, fun p => Iff.rfl⟩, ?_, fun p _ => rfl, fun p _ => rfl⟩
  · exact fun k _ pa hpa => absurd hpa List.not_mem_nil
  · exact fun k _ => List.nodup_nil
  · exact fun k _ => rfl
  · rw [hfree, hblocks]
    exact ⟨fun b hb => absurd hb (Set.notMem_empty b),
      fun p => ⟨fun hp => absurd hp (Set.notMem_empty p),
        fun ⟨b, hb, _⟩ => absurd hb (Set.notMem_empty b)⟩⟩
  · rw [hblocks]
    exact fun b hb => absurd hb (Set.notMem_empty b)
  · rw [hfree]
    exact fun p hp => absurd hp (Set.notMem_empty p)

theorem freerange_loop (img : KernelImage) (n : ℕ) (hn : firstPage img + n ≤ npages) :
    ∃ s, (List.range n).foldlM (fun s i =>
        kfree img (idx2pa (firstPage img) + i * pgsize)
          { s with
            refcnt := update s.refcnt
              (pa2idx (idx2pa (firstPage img) + i * pgsize)) 1 }) kmemZero = Except.ok s ∧
      BuddyInv (firstPage img) (firstPage img + n) s ∧
      freePages s = {p | firstPage img ≤ p ∧ p < firstPage img + n} ∧
      ∀ p, s.refcnt p = 0 := by
  induction n with
  | zero =>
    rw [Nat.add_zero]
    refine ⟨kmemZero, rfl, kmemZero_inv _, ?_, fun _ => rfl⟩
    ext p
    constructor
    · exact fun hp => absurd (show 0 = pgBuddyFree from hp) (by decide)
    · rintro ⟨h1, h2⟩
      omega
  | succ n ih =>
    obtain ⟨s, hs, hinv, hfree, hrefs⟩ := ih (by omega)
    have haddr : idx2pa (firstPage img) + n * pgsize = idx2pa (firstPage img + n) := by
      unfold idx2pa
      rw [Nat.add_mul, Nat.add_assoc]
    obtain ⟨s', hk, hinv', hfree', hrefs'⟩ := kfree_next (by omega) (by omega) hinv
    rw [Nat.add_assoc] at hinv'
    refine ⟨s', ?_, hinv', ?_, fun p => by rw [hrefs', hrefs]⟩
    · rw [List.range_succ, List.foldlM_append, hs]
      simp only [List.foldlM_cons, List.foldlM_nil, haddr, pa2idx_idx2pa, Except.ok_bind, hk,
        Except.pure_eq_ok]
    · rw [hfree', hfree]
      ext p
      simp only [Set.mem_insert_iff, Set.mem_ofPred_eq]
      omega

theorem kinit_spec (img : KernelImage) :
    ∃ s, kinit img = .ok s ∧ BuddyInv (firstPage img) npages s ∧
      freePages s = {p | firstPage img ≤ p ∧ p < npages} ∧ ∀ p, s.refcnt p = 0 := by
  obtain ⟨hpa, -, hle⟩ := pgroundup_kend img
  have hcount : firstPage img + (phystop - idx2pa (firstPage img)) / pgsize = npages := by
    simp only [idx2pa, npages_val, kernbase_eq, phystop_eq, pgsize_eq] at *
    omega
  obtain ⟨s, hs, hinv, hfree, hrefs⟩ := freerange_loop img _ (Nat.le_of_eq hcount)
  rw [hcount] at hinv hfree
  refine ⟨s, ?_, hinv, hfree, hrefs⟩
  simp only [kinit, freerange, hpa]
  exact hs

end YHsys.Kernel
