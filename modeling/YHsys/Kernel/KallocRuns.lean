import Mathlib.Data.List.Count
import Mathlib.Data.List.Infix
import YHsys.Kernel.KallocInv

/-!
# Runs of the page allocator

Sequences of `kalloc`, `kaddref` and `kfree` after `kinit`, with their history.
The history determines how many references to a page are outstanding (`refs`);
the allocator's own `refcnt` agrees with it as long as it fits in its `uint16`
(`run_counts`).

- `buddy_sound`: in every such state the free lists, the counters, `page_state`
  and `refcnt` describe one set of free pages, and `kalloc` takes from it.
- `free_blocks_determined`: the block sets depend only on which pages are free,
  not on the history that led there.
-/

namespace YHsys.Kernel

open Function (update_of_ne update_self)

open Buddy

/-- One call of the allocator's interface; `kalloc` records what it returned. -/
inductive AllocEvent where
  | kalloc (r : Option ℕ)
  | kaddref (pa : ℕ)
  | kfree (pa : ℕ)
deriving DecidableEq, Repr

/-- The references to the page at `pa` that a history leaves outstanding:
`kalloc`s plus `kaddref`s minus `kfree`s. -/
def refs (h : List AllocEvent) (pa : ℕ) : ℤ :=
  h.count (.kalloc (some pa)) + h.count (.kaddref pa) - h.count (.kfree pa)

/-- At no point of the history does a page have more references than a `uint16` counts. -/
def RefsFit (h : List AllocEvent) : Prop :=
  ∀ g, g <+: h → ∀ pa, refs g pa ≤ 65535

/-- The states reached after `kinit` by calls that do not panic. -/
inductive AllocRun (img : KernelImage) : List AllocEvent → Kmem → Prop where
  | kinit {s : Kmem} : kinit img = .ok s → AllocRun img [] s
  | kalloc {h : List AllocEvent} {s s' : Kmem} {r : Option ℕ} :
      AllocRun img h s → kalloc s = (r, s') → AllocRun img (h ++ [.kalloc r]) s'
  | kaddref {h : List AllocEvent} {s s' : Kmem} {pa : ℕ} :
      AllocRun img h s → kaddref pa s = .ok s' → AllocRun img (h ++ [.kaddref pa]) s'
  | kfree {h : List AllocEvent} {s s' : Kmem} {pa : ℕ} :
      AllocRun img h s → kfree img pa s = .ok s' → AllocRun img (h ++ [.kfree pa]) s'

/-- Page `p` lies in a block on one of the free lists. -/
def Covered (s : Kmem) (p : ℕ) : Prop :=
  ∃ k, k ≤ maxOrder ∧ ∃ pa ∈ (s.freeAreas k).freelist, pa2idx pa ≤ p ∧ p < pa2idx pa + 2 ^ k

/-- The pages the allocator hands out: those above the kernel. -/
def Managed (img : KernelImage) (p : ℕ) : Prop := firstPage img ≤ p ∧ p < npages

/-! ## The invariant along runs -/

theorem AllocRun.inv {img : KernelImage} {h : List AllocEvent} {s : Kmem}
    (hr : AllocRun img h s) : BuddyInv (firstPage img) npages s := by
  induction hr with
  | kinit hk =>
    obtain ⟨s0, hs0, hinv, -⟩ := kinit_spec img
    obtain rfl := Except.ok.inj (hk.symm.trans hs0)
    exact hinv
  | @kalloc h s s' r _ hk ih =>
    rcases kalloc_spec (Nat.le_refl _) ih with ⟨hnone, -⟩ | ⟨idx, s1, hsome, -, -, -, hinv⟩
    · obtain ⟨-, rfl⟩ := Prod.mk.inj (hk.symm.trans hnone)
      exact ih
    · obtain ⟨-, rfl⟩ := Prod.mk.inj (hk.symm.trans hsome)
      exact hinv
  | kaddref _ hk ih => exact (kaddref_spec ih hk).2.2.2.2.2
  | kfree _ hk ih => exact (kfree_spec (Nat.le_refl _) ih hk).2.2.2.2

theorem covered_iff {lo hi : ℕ} {s : Kmem} (h : BuddyInv lo hi s) (p : ℕ) :
    Covered s p ↔ p ∈ freePages s := by
  rw [h.listed.parts.covers p]
  constructor
  · rintro ⟨k, hk, pa, hpa, hcov⟩
    obtain ⟨b, rfl, -, rfl⟩ := h.listed.lists.entry k hk pa hpa
    rw [pa2idx_idx2pa] at hcov
    exact ⟨b, ⟨hk, hpa⟩, hcov⟩
  · rintro ⟨b, ⟨hk, hmem⟩, hcov⟩
    refine ⟨b.order, hk, _, hmem, ?_⟩
    rw [pa2idx_idx2pa]
    exact hcov

/-! ## Reference counts -/

/-- What one more event adds to the outstanding references of a page. -/
def AllocEvent.delta (e : AllocEvent) (pa : ℕ) : ℤ :=
  match e with
  | .kalloc r => if r = some pa then 1 else 0
  | .kaddref q => if q = pa then 1 else 0
  | .kfree q => if q = pa then -1 else 0

open AllocEvent (delta)

theorem refs_append (h : List AllocEvent) (e : AllocEvent) (pa : ℕ) :
    refs (h ++ [e]) pa = refs h pa + e.delta pa := by
  unfold refs delta
  simp only [List.count_append, List.count_singleton]
  cases e <;> simp <;> split_ifs <;> omega

theorem RefsFit.of_append {h g : List AllocEvent} (hb : RefsFit (h ++ g)) : RefsFit h :=
  fun g' hg' => hb g' (hg'.trans (List.prefix_append h g))

/-- **The counts**: `refcnt` is the number of outstanding references of the
history, and a managed page without references is free. -/
theorem run_counts {img : KernelImage} {h : List AllocEvent} {s : Kmem}
    (hr : AllocRun img h s) (hb : RefsFit h) :
    (∀ p, (s.refcnt p : ℤ) = refs h (idx2pa p)) ∧
      ∀ p, Managed img p → s.refcnt p = 0 → p ∈ freePages s := by
  induction hr with
  | kinit hk =>
    obtain ⟨s0, hs0, -, hfree, hzero⟩ := kinit_spec img
    obtain rfl := Except.ok.inj (hk.symm.trans hs0)
    refine ⟨fun p => ?_, fun p hp _ => by rw [hfree]; exact hp⟩
    rw [hzero p]
    rfl
  | @kalloc h s s' r hrun hk ih =>
    obtain ⟨ihc, ihf⟩ := ih hb.of_append
    have hinv := hrun.inv
    rcases kalloc_spec (Nat.le_refl _) hinv with
      ⟨hnone, -⟩ | ⟨idx, s1, hsome, hmem, hfree, hrefs, -⟩
    · obtain ⟨rfl, rfl⟩ := Prod.mk.inj (hk.symm.trans hnone)
      refine ⟨fun p => ?_, ihf⟩
      rw [refs_append, ihc p]
      simp [delta]
    · obtain ⟨rfl, rfl⟩ := Prod.mk.inj (hk.symm.trans hsome)
      have hzero := hinv.unused idx hmem
      constructor
      · intro p
        rw [refs_append, hrefs, ← ihc p]
        by_cases hp : p = idx
        · subst hp
          rw [update_self, hzero]
          simp [delta]
        · rw [update_of_ne hp]
          have hne : idx2pa idx ≠ idx2pa p := fun heq => hp (idx2pa_injective heq).symm
          simp [delta, hne]
      · intro p hp hz
        rw [hrefs] at hz
        rw [hfree]
        by_cases heq : p = idx
        · subst heq
          rw [update_self] at hz
          exact absurd hz (by decide)
        · rw [update_of_ne heq] at hz
          exact ⟨ihf p hp hz, heq⟩
  | @kaddref h s s' pa hrun hk ih =>
    obtain ⟨ihc, ihf⟩ := ih hb.of_append
    obtain ⟨hpos, hpa, hrefs, hfree, -, -⟩ := kaddref_spec hrun.inv hk
    -- the count after the call is a value the history allows, so it does not wrap
    have hfit : s.refcnt (pa2idx pa) + 1 < 2 ^ 16 := by
      have hle := hb _ (List.prefix_refl _) pa
      have hc := ihc (pa2idx pa)
      rw [refs_append, delta, if_pos rfl] at hle
      rw [← hpa] at hc
      omega
    rw [Nat.mod_eq_of_lt hfit] at hrefs
    constructor
    · intro p
      rw [refs_append, hrefs, ← ihc p, delta]
      by_cases hp : p = pa2idx pa
      · subst hp
        rw [update_self, if_pos hpa]
        push_cast
        ring
      · rw [update_of_ne hp, if_neg fun heq => hp (by rw [heq, pa2idx_idx2pa])]
        ring
    · intro p hp hz
      rw [hrefs] at hz
      rw [hfree]
      by_cases heq : p = pa2idx pa
      · subst heq
        rw [update_self] at hz
        omega
      · rw [update_of_ne heq] at hz
        exact ihf p hp hz
  | @kfree h s s' pa hrun hk ih =>
    obtain ⟨ihc, ihf⟩ := ih hb.of_append
    obtain ⟨hpos, hpa, hrefs, hfree, -⟩ := kfree_spec (Nat.le_refl _) hrun.inv hk
    constructor
    · intro p
      rw [refs_append, hrefs, ← ihc p, delta]
      by_cases hp : p = pa2idx pa
      · subst hp
        rw [update_self, if_pos hpa]
        omega
      · rw [update_of_ne hp, if_neg fun heq => hp (by rw [heq, pa2idx_idx2pa])]
        ring
    · intro p hp hz
      rw [hrefs] at hz
      rw [hfree]
      by_cases heq : p = pa2idx pa
      · subst heq
        rw [update_self] at hz
        rw [if_pos (by omega)]
        exact .inl rfl
      · rw [update_of_ne heq] at hz
        have := ihf p hp hz
        split
        · exact .inr this
        · exact this

/-! ## Soundness -/

/-- What `kalloc.c` maintains, in terms of its own data: the free blocks are
disjoint, aligned and in range, the counters count, and the free lists,
`page_state`, `refcnt` and the history agree on which managed pages are in use. -/
structure AllocatorSound (img : KernelImage) (h : List AllocEvent) (s : Kmem) : Prop where
  disjoint : ∀ k j pa pa' p, k ≤ maxOrder → j ≤ maxOrder →
    pa ∈ (s.freeAreas k).freelist → pa' ∈ (s.freeAreas j).freelist → (k, pa) ≠ (j, pa') →
    ¬ ((pa2idx pa ≤ p ∧ p < pa2idx pa + 2 ^ k) ∧ (pa2idx pa' ≤ p ∧ p < pa2idx pa' + 2 ^ j))
  nodup : ∀ k, k ≤ maxOrder → (s.freeAreas k).freelist.Nodup
  block : ∀ k, k ≤ maxOrder → ∀ pa ∈ (s.freeAreas k).freelist,
    ∃ i, pa = idx2pa i ∧ 2 ^ k ∣ i ∧ firstPage img ≤ i ∧ i + 2 ^ k ≤ npages
  nrFree : ∀ k, k ≤ maxOrder → (s.freeAreas k).nrFree = (s.freeAreas k).freelist.length
  covered_iff_refcnt : ∀ p, Managed img p → (Covered s p ↔ s.refcnt p = 0)
  covered_iff_state : ∀ p, Managed img p → (Covered s p ↔ s.pageState p = pgBuddyFree)
  refcnt_eq : ∀ p, Managed img p → (s.refcnt p : ℤ) = refs h (idx2pa p)
  kalloc_some : ∀ pa s', kalloc s = (some pa, s') →
    ∃ p, pa = idx2pa p ∧ Managed img p ∧ s.refcnt p = 0
  kalloc_none : ∀ s', kalloc s = (none, s') → ∀ p, Managed img p → s.refcnt p ≠ 0

/-- **Soundness of the buddy allocator**: in every state reached after `kinit` by
calls that do not panic and keep the reference counts in range. -/
theorem buddy_sound {img : KernelImage} {h : List AllocEvent} {s : Kmem}
    (hr : AllocRun img h s) (hb : RefsFit h) : AllocatorSound img h s := by
  have hinv := hr.inv
  obtain ⟨hcnt, hused⟩ := run_counts hr hb
  have hlists := hinv.listed.lists
  have hcovref : ∀ p, Managed img p → (Covered s p ↔ s.refcnt p = 0) := fun p hp =>
    (covered_iff hinv p).trans ⟨hinv.unused p, hused p hp⟩
  refine ⟨?_, hlists.nodup, ?_, hlists.nrFree, hcovref, fun p _ => covered_iff hinv p,
    fun p _ => hcnt p, ?_, ?_⟩
  · intro k j pa pa' p hk hj hpa hpa' hne ⟨h1, h2⟩
    obtain ⟨b, rfl, -, rfl⟩ := hlists.entry k hk pa hpa
    obtain ⟨c, rfl, -, rfl⟩ := hlists.entry j hj pa' hpa'
    rw [pa2idx_idx2pa] at h1 h2
    have heq := hinv.listed.parts.disjoint b ⟨hk, hpa⟩ c ⟨hj, hpa'⟩ p h1 h2
    exact hne (by rw [heq])
  · intro k hk pa hpa
    obtain ⟨b, rfl, -, rfl⟩ := hlists.entry k hk pa hpa
    have hin : ∀ p, b.Covers p → Managed img p := fun p hp =>
      hinv.inRange p ((hinv.listed.parts.covers p).mpr ⟨b, ⟨hk, hpa⟩, hp⟩)
    have hpos := Nat.two_pow_pos b.order
    have hlast := hin (b.start + 2 ^ b.order - 1) ⟨by omega, by omega⟩
    refine ⟨b.start, rfl, b.aligned, (hin _ b.covers_start).1, ?_⟩
    have := hlast.2
    omega
  · intro pa s' hk
    rcases kalloc_spec (Nat.le_refl _) hinv with ⟨hnone, -⟩ | ⟨idx, s1, hsome, hmem, -⟩
    · exact absurd (hk.symm.trans hnone) (by simp)
    · obtain ⟨hpa, -⟩ := Prod.mk.inj (hk.symm.trans hsome)
      exact ⟨idx, Option.some.inj hpa, hinv.inRange idx hmem, hinv.unused idx hmem⟩
  · intro s' hk p hp hz
    rcases kalloc_spec (Nat.le_refl _) hinv with ⟨-, hempty⟩ | ⟨idx, s1, hsome, -⟩
    · exact absurd (hused p hp hz) (hempty ▸ Set.notMem_empty p)
    · exact absurd (hk.symm.trans hsome) (by simp)

/-- An image that leaves the last two pages of RAM to the allocator. -/
def twoPageImage : KernelImage where
  kend := idx2pa 32766
  trampolinePa := kernbase
  kernbase_le := Nat.le_refl _
  trampoline_lt := by decide
  trampoline_aligned := by decide
  le_phystop := by decide

/-- Allocating a page of the two-page image, sharing it and freeing it twice. -/
def twoPageHistory : List AllocEvent :=
  [.kalloc (some (idx2pa 32766)), .kaddref (idx2pa 32766), .kfree (idx2pa 32766),
    .kfree (idx2pa 32766)]

theorem twoPageRun : ∃ s, AllocRun twoPageImage twoPageHistory s := by
  obtain ⟨s, hs⟩ : ∃ s, (do
      let s ← kinit twoPageImage
      if (kalloc s).1 = some (idx2pa 32766) then
        let s ← kaddref (idx2pa 32766) (kalloc s).2
        let s ← kfree twoPageImage (idx2pa 32766) s
        kfree twoPageImage (idx2pa 32766) s
      else .error .kfree) = Except.ok s := Except.exists_ok (by decide)
  obtain ⟨s0, h0, hs⟩ := Except.bind_eq_ok.mp hs
  split at hs
  · next h1 =>
    obtain ⟨s2, h2, hs⟩ := Except.bind_eq_ok.mp hs
    obtain ⟨s3, h3, hs⟩ := Except.bind_eq_ok.mp hs
    have hr1 : AllocRun twoPageImage [.kalloc (some (idx2pa 32766))] (kalloc s0).2 :=
      AllocRun.kalloc (h := []) (.kinit h0) (by rw [← h1])
    exact ⟨s, ((hr1.kaddref h2).kfree h3).kfree hs⟩
  · cases hs

theorem twoPageHistory_fits : RefsFit twoPageHistory := by
  intro g hg pa
  have hle : ∀ e : AllocEvent, g.count e ≤ twoPageHistory.count e := fun e =>
    hg.sublist.count_le e
  have h1 : twoPageHistory.count (.kalloc (some pa)) ≤ 4 := List.count_le_length
  have h2 : twoPageHistory.count (.kaddref pa) ≤ 4 := List.count_le_length
  have h3 := hle (.kalloc (some pa))
  have h4 := hle (.kaddref pa)
  unfold refs
  omega

theorem buddy_sound_two_pages :
    ∃ s, AllocRun twoPageImage twoPageHistory s ∧ RefsFit twoPageHistory ∧
      AllocatorSound twoPageImage twoPageHistory s := by
  obtain ⟨s, hs⟩ := twoPageRun
  exact ⟨s, hs, twoPageHistory_fits, buddy_sound hs twoPageHistory_fits⟩

/-! ## Coalescing -/

/-- No two buddies of an order below `MAX_ORDER` are both on the list of their order. -/
def NoFreeBuddies (s : Kmem) : Prop :=
  ∀ k, k < maxOrder → ∀ pa ∈ (s.freeAreas k).freelist,
    idx2pa (pa2idx pa ^^^ 2 ^ k) ∉ (s.freeAreas k).freelist

theorem AllocRun.noFreeBuddies {img : KernelImage} {h : List AllocEvent} {s : Kmem}
    (hr : AllocRun img h s) : NoFreeBuddies s := by
  intro k hk pa hpa hbud
  obtain ⟨b, rfl, -, rfl⟩ := hr.inv.listed.lists.entry k (by omega) pa hpa
  rw [pa2idx_idx2pa] at hbud
  exact hr.inv.listed.merged b ⟨by omega, hpa⟩ hk ⟨by rw [b.buddy_order]; omega, hbud⟩

theorem freelists_eq {img : KernelImage} {h1 h2 : List AllocEvent} {s1 s2 : Kmem}
    (hr1 : AllocRun img h1 s1) (hr2 : AllocRun img h2 s2)
    (hfree : ∀ p, Covered s1 p ↔ Covered s2 p) (k : ℕ) (hk : k ≤ maxOrder) (pa : ℕ) :
    pa ∈ (s1.freeAreas k).freelist ↔ pa ∈ (s2.freeAreas k).freelist := by
  have hset : freePages s1 = freePages s2 := by
    ext p
    rw [← covered_iff hr1.inv, ← covered_iff hr2.inv]
    exact hfree p
  have hblocks : freeBlocks s1 = freeBlocks s2 :=
    partition_unique hr1.inv.listed.parts (hset ▸ hr2.inv.listed.parts)
      hr1.inv.listed.merged hr2.inv.listed.merged (fun b hb => hb.1) fun b hb => hb.1
  constructor
  · intro hpa
    obtain ⟨b, rfl, -, rfl⟩ := hr1.inv.listed.lists.entry k hk pa hpa
    have hb : b ∈ freeBlocks s1 := ⟨hk, hpa⟩
    rw [hblocks] at hb
    exact hb.2
  · intro hpa
    obtain ⟨b, rfl, -, rfl⟩ := hr2.inv.listed.lists.entry k hk pa hpa
    have hb : b ∈ freeBlocks s2 := ⟨hk, hpa⟩
    rw [← hblocks] at hb
    exact hb.2

/-- **Coalescing is complete and history-independent**: two runs that end with the
same free pages end with the same blocks on every list, no two of them buddies;
and once every page is free again the blocks are those of `kinit`. -/
theorem free_blocks_determined {img : KernelImage} {h1 h2 : List AllocEvent} {s1 s2 : Kmem}
    (hr1 : AllocRun img h1 s1) (hr2 : AllocRun img h2 s2) :
    ((∀ p, Covered s1 p ↔ Covered s2 p) → ∀ k, k ≤ maxOrder → ∀ pa,
      pa ∈ (s1.freeAreas k).freelist ↔ pa ∈ (s2.freeAreas k).freelist) ∧
    NoFreeBuddies s1 ∧ NoFreeBuddies s2 ∧
    ∀ s0, kinit img = .ok s0 → (∀ p, Managed img p → Covered s1 p) →
      ∀ k, k ≤ maxOrder → ∀ pa,
        pa ∈ (s1.freeAreas k).freelist ↔ pa ∈ (s0.freeAreas k).freelist := by
  refine ⟨freelists_eq hr1 hr2, hr1.noFreeBuddies, hr2.noFreeBuddies, ?_⟩
  intro s0 hs0 hall
  have hr0 : AllocRun img [] s0 := .kinit hs0
  refine freelists_eq hr1 hr0 fun p => ?_
  rw [covered_iff hr0.inv, covered_iff hr1.inv]
  obtain ⟨s, hs, -, hfree, -⟩ := kinit_spec img
  obtain rfl := Except.ok.inj (hs0.symm.trans hs)
  rw [hfree]
  exact ⟨hr1.inv.inRange p, fun hp => (covered_iff hr1.inv p).mp (hall p hp)⟩

/-- The freed two-page image is back at the lists of `kinit`. -/
theorem free_blocks_determined_two_pages :
    ∃ s s0, AllocRun twoPageImage twoPageHistory s ∧ kinit twoPageImage = .ok s0 ∧
      NoFreeBuddies s ∧ ∀ k, k ≤ maxOrder → ∀ pa,
        pa ∈ (s.freeAreas k).freelist ↔ pa ∈ (s0.freeAreas k).freelist := by
  obtain ⟨s, hs⟩ := twoPageRun
  obtain ⟨s0, hs0, -⟩ := kinit_spec twoPageImage
  have hdet := free_blocks_determined hs (AllocRun.kinit hs0)
  refine ⟨s, s0, hs, hs0, hdet.2.1, hdet.2.2.2 s0 hs0 fun p hp => ?_⟩
  -- the history leaves no reference outstanding, so every page is free again
  have hsound := run_counts hs twoPageHistory_fits
  refine (covered_iff hs.inv p).mpr (hsound.2 p hp ?_)
  have hcnt := hsound.1 p
  have hbal : refs twoPageHistory (idx2pa p) = 0 := by
    unfold refs twoPageHistory
    by_cases hp' : idx2pa 32766 = idx2pa p
    · rw [hp']
      simp
    · simp [hp']
  omega

end YHsys.Kernel
