import YHsys.Kernel.VmRuns

/-!
# A page table as a map from pages to entries

`pageMap` is what `walk` reads off a page table: for each virtual page number the
physical page and the flags of its valid entry. `TableRun` is the life of a table
that `uvmcreate` returned, under calls of `mappages` and `uvmunmap` and whatever the
rest of the kernel does outside the table's pages. Each call changes the map at the
pages of its range and nowhere else.

The tables a page table is made of are found by following words of memory, so the
invariant `TableOk` says that they are apart from one another and stay allocated.
A page of the table that is itself mapped and then unmapped with `do_free` breaks it:
`kfree` fills the page with junk while `walk` still reads it.
-/

namespace YHsys.Kernel

open Function (update update_apply update_eq_self update_of_ne update_self)

/-! ## Maps that differ at a range of pages -/

/-- The entries of a page table by virtual page number: physical page number and flags. -/
abbrev PageMap := ℕ → Option (ℕ × ℕ)

/-- The number of the `i`-th page from the address `a` on, in 32-bit arithmetic. -/
def rangePage (a i : ℕ) : ℕ := (a + i * pgsize) % 2 ^ 32 / pgsize

theorem rangePage_zero {a : ℕ} (ha : a < 2 ^ 32) : rangePage a 0 = a / pgsize := by
  rw [rangePage, Nat.zero_mul, Nat.add_zero, Nat.mod_eq_of_lt ha]

theorem rangePage_succ (a i : ℕ) : rangePage a (i + 1) = rangePage ((a + pgsize) % 2 ^ 32) i := by
  rw [rangePage, rangePage, Nat.mod_add_mod, Nat.add_mul, Nat.one_mul, Nat.add_right_comm, Nat.add_assoc]

theorem rangePage_succ_ne {a i : ℕ} (ha : a % pgsize = 0) (hi : i + 1 < 2 ^ 20) :
    rangePage a (i + 1) ≠ rangePage a 0 := by
  unfold rangePage
  rw [pgsize_eq] at *
  omega

/-- `f'` has the values `w` at the `n` pages from `a` on, and those of `f` elsewhere. -/
structure PagesSet (f f' : PageMap) (a n : ℕ) (w : ℕ → Option (ℕ × ℕ)) : Prop where
  inside : ∀ i < n, f' (rangePage a i) = w i
  outside : ∀ v, (∀ i < n, v ≠ rangePage a i) → f' v = f v

namespace PagesSet

variable {f f' : PageMap} {a n : ℕ} {w : ℕ → Option (ℕ × ℕ)}

theorem zero (f : PageMap) (a : ℕ) (w : ℕ → Option (ℕ × ℕ)) : PagesSet f f a 0 w :=
  ⟨fun _ hi => absurd hi (Nat.not_lt_zero _), fun _ _ => rfl⟩

theorem cons (h : PagesSet (update f (rangePage a 0) (w 0)) f' ((a + pgsize) % 2 ^ 32) n
      fun i => w (i + 1))
    (hagain : ∀ i < n, rangePage a (i + 1) = rangePage a 0 → w (i + 1) = w 0) :
    PagesSet f f' a (n + 1) w where
  inside i hi := by
    cases i with
    | succ i =>
      rw [rangePage_succ]
      exact h.inside i (Nat.lt_of_succ_lt_succ hi)
    | zero =>
      by_cases hmet : ∃ j < n, rangePage a 0 = rangePage a (j + 1)
      · obtain ⟨j, hj, heq⟩ := hmet
        rw [← hagain j hj heq.symm, heq, rangePage_succ]
        exact h.inside j hj
      · push Not at hmet
        have hout : ∀ j < n, rangePage a 0 ≠ rangePage ((a + pgsize) % 2 ^ 32) j := fun j hj => by
          rw [← rangePage_succ]
          exact hmet j hj
        rw [h.outside _ hout, update_self]
  outside v hv := by
    have hout : ∀ i < n, v ≠ rangePage ((a + pgsize) % 2 ^ 32) i := fun i hi => by
      rw [← rangePage_succ]
      exact hv (i + 1) (Nat.succ_lt_succ hi)
    rw [h.outside v hout, update_of_ne (hv 0 (Nat.succ_pos n))]

end PagesSet

/-! ## The map of a table -/

/-- The entry that `walk` finds for the virtual page `v`, if it is valid. -/
def pageMap (pagetable : ℕ) (m : Machine) : PageMap := fun v =>
  match walk pagetable (v * pgsize) false m with
  | .ok (some pte, m) =>
    let e := rd32 m.mem pte
    if e &&& pteV = 0 then none else some (pte2pa e / pgsize, pteFlags e)
  | _ => none

/-- The page at `a` is the root of the table, or a valid entry of the root points to it. -/
def InTable (pagetable : ℕ) (m : Machine) (a : ℕ) : Prop :=
  a = pagetable ∨ ∃ i < 1024, rd32 m.mem (pagetable + 4 * i) &&& pteV ≠ 0 ∧
    a = pte2pa (rd32 m.mem (pagetable + 4 * i))

/-- The page and the flags of a leaf entry. -/
def Leaf.mapping (l : Leaf) : ℕ × ℕ := (l.pa / pgsize, l.flags)

/-- The map an abstract table stands for. -/
def PageTable.map (pt : PageTable) : PageMap := fun v => (pt.leaf v).map Leaf.mapping

theorem PageTable.map_setLeaf {pt : PageTable} {v : ℕ} (x : Option Leaf)
    (h : ∃ t, pt.dir (v / 1024) = some t) :
    (pt.setLeaf v x h).map = update pt.map v (x.map Leaf.mapping) := by
  funext v'
  by_cases hv : v' = v
  · subst hv
    simp [PageTable.map, PageTable.setLeaf]
  · simp [PageTable.map, PageTable.setLeaf, update_of_ne hv]

section

variable {m : Machine} {pt : PageTable}

theorem Represents.pageMap_eq (h : Represents m.mem pt) :
    pageMap (idx2pa pt.root) m = pt.map := by
  funext v
  unfold pageMap PageTable.map
  by_cases hva : v * pgsize < maxva
  · have hv : v * pgsize / pgsize = v := Nat.mul_div_cancel v (by decide)
    cases ht : pt.dir (v / 1024) with
    | none =>
      rw [walk_miss h hva (by rw [hv, ht]), PageTable.leaf_eq_none ht]
      rfl
    | some t =>
      rw [walk_find h hva (by rw [hv, ht]), hv]
      dsimp only
      rw [h.leafWord_vpn ht]
      cases hl : pt.leaf v with
      | none => rfl
      | some l =>
        rw [if_neg (leafEntry_some_valid l)]
        simp [leafEntry, Leaf.mapping]
  · rw [walk, if_pos (Nat.le_of_not_lt hva)]
    cases hl : pt.leaf v with
    | none => rfl
    | some l =>
      obtain ⟨t, ht⟩ := pt.leaf_dir v l hl
      have := (pt.dir_lt _ t ht).1
      rw [maxva_eq, pgsize_eq] at hva
      omega

theorem Represents.inTable_iff (h : Represents m.mem pt) {a : ℕ} :
    InTable (idx2pa pt.root) m a ↔
      a = idx2pa pt.root ∨ ∃ i t, pt.dir i = some t ∧ a = idx2pa t := by
  unfold InTable
  refine or_congr_right ⟨?_, ?_⟩
  · rintro ⟨i, hi, hv, ha⟩
    rw [h.dirWord i hi] at hv ha
    cases ht : pt.dir i with
    | none =>
      rw [ht] at hv
      exact absurd rfl hv
    | some t =>
      rw [ht, dirEntry_some (pt.dir_lt i t ht).2, Leaf.pte2pa_pte] at ha
      exact ⟨i, t, ht, ha⟩
  · rintro ⟨i, t, ht, ha⟩
    obtain ⟨hi, hlt⟩ := pt.dir_lt i t ht
    have hword : rd32 m.mem (idx2pa pt.root + 4 * i) = (tableLeaf t hlt).pte := by
      rw [h.dirWord i hi, ht, dirEntry_some hlt]
    refine ⟨i, hi, ?_, by rw [hword, Leaf.pte2pa_pte, ha]; rfl⟩
    rw [hword]
    exact leafEntry_some_valid (tableLeaf t hlt)

end

/-! ## The invariant of one table -/

/-- The table is represented in memory, its pages are allocated and apart. -/
structure TableOk (img : KernelImage) (m : Machine) (pt : PageTable) : Prop where
  alloc : AllocOk img m.kmem
  repr : Represents m.mem pt
  root_held : 1 ≤ m.kmem.refcnt pt.root
  dir_held : ∀ i t, pt.dir i = some t → 1 ≤ m.kmem.refcnt t
  dir_ne_root : ∀ i, pt.dir i ≠ some pt.root
  dir_inj : ∀ i j t, pt.dir i = some t → pt.dir j = some t → i = j

namespace TableOk

variable {img : KernelImage} {m m' : Machine} {pt : PageTable} {va v : ℕ}

theorem of_same (h : TableOk img m pt) (halloc : AllocOk img m'.kmem) {S : Set ℕ}
    (hs : SameOutside S m.mem m'.mem)
    (hkeep : ∀ p, p = pt.root ∨ (∃ i, pt.dir i = some p) → p ∉ S ∧ 1 ≤ m'.kmem.refcnt p) :
    TableOk img m' pt where
  alloc := halloc
  repr := h.repr.of_same hs (hkeep _ (.inl rfl)).1 fun i _ ht => (hkeep _ (.inr ⟨i, ht⟩)).1
  root_held := (hkeep _ (.inl rfl)).2
  dir_held i _ ht := (hkeep _ (.inr ⟨i, ht⟩)).2
  dir_ne_root := h.dir_ne_root
  dir_inj := h.dir_inj

theorem held (h : TableOk img m pt) {p : ℕ} (hp : p = pt.root ∨ ∃ i, pt.dir i = some p) :
    1 ≤ m.kmem.refcnt p := by
  rcases hp with rfl | ⟨i, hi⟩
  · exact h.root_held
  · exact h.dir_held i p hi

theorem uvmcreate (halloc : AllocOk img m.kmem) {pagetable : ℕ}
    (hc : Kernel.uvmcreate m = (pagetable, m')) (hnz : pagetable ≠ 0) :
    ∃ p, pagetable = idx2pa p ∧ TableOk img m' (PageTable.empty p) := by
  unfold Kernel.uvmcreate at hc
  rcases Machine.kalloc_cases halloc with
    ⟨m1, hk, -⟩ | ⟨p, m1, hk, halloc1, -, hrefs, -⟩
  · rw [hk] at hc
    exact absurd (Prod.mk.inj hc).1.symm hnz
  · rw [hk] at hc
    obtain ⟨rfl, rfl⟩ := Prod.mk.inj hc
    refine ⟨p, rfl, halloc1, Represents.empty fun j hj => ?_, ?_, fun _ _ ht => (nomatch ht),
      fun _ ht => (nomatch ht), fun _ _ _ ht => (nomatch ht)⟩
    · exact rd32_memset_zero m1.mem (Nat.le_add_right _ _) (by rw [pgsize_eq]; omega)
    · show 1 ≤ m1.kmem.refcnt p
      rw [hrefs, update_self]

theorem addTable (h : TableOk img m pt) {i p : ℕ} {m1 : Machine} (hi : i < 1024)
    (hnone : pt.dir i = none) (halloc : AllocOk img m1.kmem) (hfree : m.kmem.refcnt p = 0)
    (hrefs : m1.kmem.refcnt = update m.kmem.refcnt p 1)
    (hsame : SameOutside {p} m.mem m1.mem) :
    ∃ hp : p < npages, TableOk img
      ((m1.memset (idx2pa p) 0).wr32 (idx2pa pt.root + 4 * i) (dirEntry (some p)))
      (pt.addTable i p hi hp) := by
  have hlt : p < npages := (halloc.managed (p := p) (by rw [hrefs, update_self])).2
  have hne : ∀ q, q = pt.root ∨ (∃ i, pt.dir i = some q) → q ≠ p := by
    rintro q hq rfl
    have := h.held hq
    omega
  have hrefs' : ∀ q, q = pt.root ∨ (∃ i, pt.dir i = some q) → 1 ≤ m1.kmem.refcnt q := fun q hq => by
    rw [hrefs, update_of_ne (hne q hq)]
    exact h.held hq
  have h1 : TableOk img (m1.memset (idx2pa p) 0) pt :=
    h.of_same halloc (hsame.trans (SameOutside.memset m1.mem p 0)) fun q hq => ⟨hne q hq, hrefs' q hq⟩
  have hzero : ∀ j < 1024, rd32 (m1.memset (idx2pa p) 0).mem (idx2pa p + 4 * j) = 0 :=
    fun j hj => rd32_memset_zero m1.mem (Nat.le_add_right _ _) (by rw [pgsize_eq]; omega)
  refine ⟨hlt, halloc, h1.repr.addTable hi hlt hnone (hne _ (.inl rfl)) hzero h.dir_ne_root,
    h1.root_held, fun j t ht => ?_, fun j ht => ?_, fun j k t hj hk => ?_⟩
  · have ht : update pt.dir i (some p) j = some t := ht
    by_cases hji : j = i
    · rw [hji, update_self] at ht
      show 1 ≤ m1.kmem.refcnt t
      rw [← Option.some.inj ht, hrefs, update_self]
    · rw [update_of_ne hji] at ht
      exact h1.dir_held j t ht
  · have ht : update pt.dir i (some p) j = some pt.root := ht
    by_cases hji : j = i
    · rw [hji, update_self] at ht
      exact hne _ (.inl rfl) (Option.some.inj ht).symm
    · rw [update_of_ne hji] at ht
      exact h.dir_ne_root j ht
  · have hj : update pt.dir i (some p) j = some t := hj
    have hk : update pt.dir i (some p) k = some t := hk
    by_cases hji : j = i <;> by_cases hki : k = i
    · rw [hji, hki]
    · rw [hji, update_self] at hj
      rw [update_of_ne hki] at hk
      exact absurd (Option.some.inj hj).symm (hne t (.inr ⟨k, hk⟩))
    · rw [hki, update_self] at hk
      rw [update_of_ne hji] at hj
      exact absurd (Option.some.inj hk).symm (hne t (.inr ⟨j, hj⟩))
    · rw [update_of_ne hji] at hj
      rw [update_of_ne hki] at hk
      exact h.dir_inj j k t hj hk

theorem setLeaf (h : TableOk img m pt) {t : ℕ} (ht : pt.dir (v / 1024) = some t)
    (x : Option Leaf) :
    TableOk img (m.wr32 (idx2pa t + 4 * (v % 1024)) (leafEntry x)) (pt.setLeaf v x ⟨t, ht⟩) where
  alloc := h.alloc
  repr := h.repr.setLeaf ht x (fun heq => h.dir_ne_root _ (heq ▸ ht))
    fun i hi => h.dir_inj i _ t hi ht
  root_held := h.root_held
  dir_held := h.dir_held
  dir_ne_root := h.dir_ne_root
  dir_inj := h.dir_inj

theorem walk_true (h : TableOk img m pt) (hva : va < maxva) :
    (∃ m', walk (idx2pa pt.root) va true m = .ok (none, m') ∧ TableOk img m' pt) ∨
    ∃ pt' t m', walk (idx2pa pt.root) va true m =
        .ok (some (idx2pa t + 4 * (va / pgsize % 1024)), m') ∧
      TableOk img m' pt' ∧ pt'.root = pt.root ∧ pt'.leaf = pt.leaf ∧
      pt'.dir (va / pgsize / 1024) = some t := by
  cases ht : pt.dir (va / pgsize / 1024) with
  | some t => exact .inr ⟨pt, t, m, walk_find h.repr hva ht true, h, rfl, rfl, ht⟩
  | none =>
    rw [walk_alloc h.repr hva ht]
    rcases Machine.kalloc_cases h.alloc with
      ⟨m1, hk, halloc, hrefs, hmem⟩ | ⟨p, m1, hk, halloc, hfree, hrefs, hsame⟩
    · rw [hk]
      refine .inl ⟨m1, rfl, h.of_same halloc (S := ∅) (fun _ _ => by rw [hmem]) fun p hp => ?_⟩
      exact ⟨Set.notMem_empty p, hrefs ▸ h.held hp⟩
    · rw [hk]
      obtain ⟨hp, hok⟩ := h.addTable (px_one_lt hva) ht halloc hfree hrefs hsame
      exact .inr ⟨_, p, _, rfl, hok, rfl, rfl, update_self ..⟩

theorem kfree (h : TableOk img m pt) {a : ℕ} (ha : ¬ InTable (idx2pa pt.root) m a) :
    Except.Sat (fun e => e = .kfree ∨ e = .kfreeRef) (fun m' => TableOk img m' pt)
      (m.kfree img a) := by
  by_cases hguard : a % pgsize ≠ 0 ∨ a < img.kend ∨ phystop ≤ a
  · rw [Machine.kfree, Kernel.kfree, if_pos hguard]
    exact .error (.inl rfl)
  · obtain ⟨p, rfl⟩ : ∃ p, a = idx2pa p := by
      have := img.kernbase_le_kend
      refine ⟨pa2idx a, ?_⟩
      simp only [idx2pa, pa2idx, pgsize_eq, kernbase_eq] at *
      omega
    by_cases href : m.kmem.refcnt p < 1
    · rw [Machine.kfree, Kernel.kfree, if_neg hguard, pa2idx_idx2pa]
      dsimp only
      rw [if_pos href]
      exact .error (.inr rfl)
    · obtain ⟨m', hk, halloc, hrefs, hsame⟩ := Machine.kfree_ok h.alloc (Nat.le_of_not_lt href)
      rw [hk]
      have hne : ∀ q, q = pt.root ∨ (∃ i, pt.dir i = some q) → q ≠ p := by
        rintro q hq rfl
        refine ha (h.repr.inTable_iff.mpr ?_)
        rcases hq with rfl | ⟨i, hi⟩
        · exact .inl rfl
        · exact .inr ⟨i, q, hi, rfl⟩
      refine .ok (h.of_same halloc hsame fun q hq => ⟨fun hS => hne q hq hS.1, ?_⟩)
      rw [hrefs, update_of_ne (hne q hq)]
      exact h.held hq

/-! ## The loops -/

theorem mapLeaf_aligned (pa : ℕ) : pa / pgsize * pgsize % pgsize = 0 := Nat.mul_mod_left _ _

theorem mapLeaf_pa_lt {pa : ℕ} (hpa : pa < 2 ^ 32) : pa / pgsize * pgsize < 2 ^ 32 :=
  Nat.lt_of_le_of_lt (Nat.div_mul_le_self _ _) hpa

/-- The word `mappages` writes. -/
def mapLeaf (pa perm : ℕ) (hpa : pa < 2 ^ 32) (hperm : perm < 2 ^ 10) : Leaf where
  pa := pa / pgsize * pgsize
  flags := perm ||| pteV
  aligned := mapLeaf_aligned pa
  pa_lt := mapLeaf_pa_lt hpa
  flags_lt := or_pteV_lt hperm
  valid := or_pteV_testBit perm

theorem mapLeaf_pte {pa perm : ℕ} (hpa : pa < 2 ^ 32) (hperm : perm < 2 ^ 10) :
    leafEntry (some (mapLeaf pa perm hpa hperm)) = pa2pte pa ||| perm ||| pteV := by
  have hpage : pa2pte (pa / pgsize * pgsize) = pa2pte pa := by
    rw [Leaf.pa2pte_eq, Leaf.pa2pte_eq, ← pgsize_eq, Nat.mul_div_cancel _ (by decide)]
  rw [Nat.or_assoc, ← hpage]
  rfl

theorem mapLeaf_mapping {pa perm : ℕ} (hpa : pa < 2 ^ 32) (hperm : perm < 2 ^ 10) :
    (mapLeaf pa perm hpa hperm).mapping = (rangePage pa 0, perm ||| pteV) := by
  rw [rangePage_zero hpa]
  exact congrArg (·, perm ||| pteV) (Nat.mul_div_cancel _ (by decide))

/-- Pages of a range that is not mapped are mapped one by one, up to the first for
which no level-0 table can be allocated. -/
theorem mappagesLoop_spec {perm : ℕ} (hperm : perm < 2 ^ 10) (n : ℕ) {a pa : ℕ}
    (h : TableOk img m pt) (ha : a % pgsize = 0) (halt : a < 2 ^ 32) (hpa : pa < 2 ^ 32)
    (hn : n ≤ 2 ^ 20) (hnew : ∀ i < n, pt.map (rangePage a i) = none) :
    ∃ r m' pt', mappagesLoop (idx2pa pt.root) perm n a pa m = .ok (r, m') ∧
      TableOk img m' pt' ∧ pt'.root = pt.root ∧ ∃ k ≤ n, (r = false → k < n) ∧ (r = true → k = n) ∧
        PagesSet pt.map pt'.map a k fun i => some (rangePage pa i, perm ||| pteV) := by
  induction n generalizing a pa m pt with
  | zero => exact ⟨true, m, pt, rfl, h, rfl, 0, Nat.le_refl 0, nofun, fun _ => rfl, .zero _ _ _⟩
  | succ n ih =>
    rw [mappagesLoop]
    have hva : a < maxva := maxva_eq ▸ halt
    rcases h.walk_true hva with
      ⟨m1, hw, hok⟩ | ⟨pt1, t, m1, hw, hok, hroot, hleaf, ht⟩
    · rw [hw]
      exact ⟨false, m1, pt, rfl, hok, rfl, 0, Nat.zero_le _, fun _ => Nat.succ_pos n, nofun,
        .zero _ _ _⟩
    · have hmap : pt1.map = pt.map := by
        unfold PageTable.map
        rw [hleaf]
      have hnone : pt1.leaf (a / pgsize) = none := by
        have := hnew 0 (Nat.succ_pos n)
        rw [rangePage_zero halt, ← hmap, PageTable.map, Option.map_eq_none_iff] at this
        exact this
      rw [hw, Except.ok_bind]
      dsimp only
      rw [hok.repr.leafWord_vpn ht, hnone, if_neg leafEntry_none_valid, ← mapLeaf_pte hpa hperm]
      -- the table after the first page is the start of the rest of the loop
      have hok2 := hok.setLeaf ht (some (mapLeaf pa perm hpa hperm))
      have hmap2 : (pt1.setLeaf (a / pgsize) (some (mapLeaf pa perm hpa hperm)) ⟨t, ht⟩).map =
          update pt.map (rangePage a 0) (some (rangePage pa 0, perm ||| pteV)) := by
        rw [PageTable.map_setLeaf, hmap, rangePage_zero halt, Option.map_some, mapLeaf_mapping]
      have hstep : (a + pgsize) % 2 ^ 32 % pgsize = 0 := by
        rw [pgsize_eq] at *
        omega
      obtain ⟨r, m', pt', hrun, hok', hroot', k, hk, hfail, hdone, hset⟩ :=
        ih hok2 hstep (Nat.mod_lt _ (by decide)) (Nat.mod_lt (pa + pgsize) (by decide))
          (Nat.le_of_succ_le hn) fun i hi => by
            rw [hmap2, ← rangePage_succ,
              update_of_ne (rangePage_succ_ne ha (Nat.lt_of_lt_of_le (Nat.succ_lt_succ hi) hn))]
            exact hnew (i + 1) (Nat.succ_lt_succ hi)
      refine ⟨r, m', pt', by rw [← hroot]; exact hrun, hok', hroot'.trans hroot, k + 1,
        Nat.succ_le_succ hk, fun hr => Nat.succ_lt_succ (hfail hr), fun hr => by rw [hdone hr], ?_⟩
      rw [hmap2] at hset
      refine PagesSet.cons (w := fun i => some (rangePage pa i, perm ||| pteV)) ?_ fun i hi heq =>
        absurd heq (rangePage_succ_ne ha (by omega))
      simp only [rangePage_succ]
      exact hset

theorem uvmunmapPage_spec (h : TableOk img m pt) {a : ℕ} (halt : a < 2 ^ 32) (doFree : Bool)
    (hfree : doFree = true → ∀ page flags, pt.map (a / pgsize) = some (page, flags) →
      ¬ InTable (idx2pa pt.root) m (page * pgsize)) :
    Except.Sat (fun e => doFree = true ∧ (e = .kfree ∨ e = .kfreeRef))
      (fun m' => ∃ pt', TableOk img m' pt' ∧ pt'.root = pt.root ∧ pt'.dir = pt.dir ∧
        pt'.map = update pt.map (a / pgsize) none)
      (uvmunmapPage img (idx2pa pt.root) doFree a m) := by
  have hva : a < maxva := maxva_eq ▸ halt
  have hsame : pt.map (a / pgsize) = none →
      pt.map = update pt.map (a / pgsize) none := fun hnone => by
    rw [← hnone, update_eq_self]
  rw [uvmunmapPage]
  cases ht : pt.dir (a / pgsize / 1024) with
  | none =>
    rw [walk_miss h.repr hva ht]
    refine .ok ⟨pt, h, rfl, rfl, hsame ?_⟩
    rw [PageTable.map, PageTable.leaf_eq_none ht]
    rfl
  | some t =>
    rw [walk_find h.repr hva ht, Except.ok_bind]
    dsimp only
    rw [h.repr.leafWord_vpn ht]
    cases hl : pt.leaf (a / pgsize) with
    | none =>
      refine .ok ⟨pt, h, rfl, rfl, hsame ?_⟩
      rw [PageTable.map, hl]
      rfl
    | some l =>
      have hcleared : ∀ m1, TableOk img m1 pt → ∃ pt', TableOk img
          (m1.wr32 (idx2pa t + 4 * (a / pgsize % 1024)) 0) pt' ∧ pt'.root = pt.root ∧
            pt'.dir = pt.dir ∧ pt'.map = update pt.map (a / pgsize) none := fun m1 h1 =>
        ⟨_, h1.setLeaf ht none, rfl, rfl, PageTable.map_setLeaf none ⟨t, ht⟩⟩
      rw [if_neg (leafEntry_some_valid l), leafEntry, Leaf.pte2pa_pte]
      cases doFree with
      | false => exact .ok (hcleared m h)
      | true =>
        have hown : ¬ InTable (idx2pa pt.root) m l.pa := by
          have := hfree rfl (l.pa / pgsize) l.flags (by rw [PageTable.map, hl]; rfl)
          rwa [Nat.div_mul_cancel (Nat.dvd_of_mod_eq_zero l.aligned)] at this
        refine ((h.kfree hown).mono (fun e he => ⟨rfl, he⟩) fun _ hm => hm).bind fun m1 h1 => ?_
        exact .ok (hcleared m1 h1)

theorem uvmunmapLoop_spec (doFree : Bool) (n : ℕ) {a : ℕ} (h : TableOk img m pt)
    (halt : a < 2 ^ 32)
    (hfree : doFree = true → ∀ i < n, ∀ page flags, pt.map (rangePage a i) = some (page, flags) →
      ¬ InTable (idx2pa pt.root) m (page * pgsize)) :
    Except.Sat (fun e => doFree = true ∧ (e = .kfree ∨ e = .kfreeRef))
      (fun m' => ∃ pt', TableOk img m' pt' ∧ pt'.root = pt.root ∧
        PagesSet pt.map pt'.map a n fun _ => none)
      (uvmunmapLoop img (idx2pa pt.root) doFree n a m) := by
  induction n generalizing a m pt with
  | zero => exact .ok ⟨pt, h, rfl, .zero _ _ _⟩
  | succ n ih =>
    rw [uvmunmapLoop]
    have hfirst := h.uvmunmapPage_spec halt doFree fun hd page flags hp =>
      hfree hd 0 (Nat.succ_pos n) page flags (rangePage_zero halt ▸ hp)
    refine hfirst.bind ?_
    rintro m1 ⟨pt1, h1, hroot, hdir, hmap⟩
    rw [← rangePage_zero halt] at hmap
    -- the pages of the table are the same, and no entry of the rest is new
    have hrest : doFree = true → ∀ i < n, ∀ page flags,
        pt1.map (rangePage ((a + pgsize) % 2 ^ 32) i) = some (page, flags) →
          ¬ InTable (idx2pa pt1.root) m1 (page * pgsize) := by
      intro hd i hi page flags hp
      rw [hmap, ← rangePage_succ, update_apply] at hp
      split_ifs at hp
      have := hfree hd (i + 1) (Nat.succ_lt_succ hi) page flags hp
      rw [h.repr.inTable_iff] at this
      rwa [h1.repr.inTable_iff, hroot, hdir]
    have hloop := ih h1 (a := (a + pgsize) % 2 ^ 32) (Nat.mod_lt _ (by decide)) hrest
    rw [hroot] at hloop
    refine hloop.post ?_
    rintro m' ⟨pt', h', hroot', hset⟩
    rw [hmap] at hset
    exact ⟨pt', h', hroot', PagesSet.cons hset fun _ _ _ => rfl⟩

end TableOk

/-! ## Runs -/

/-- A call on a table. -/
inductive TableCall where
  | mappages (va size pa perm : ℕ)
  | uvmunmap (va npages : ℕ) (doFree : Bool)
deriving DecidableEq, Repr

namespace TableCall

/-- Run the call on the table of `as`; `uvmunmap` returns nothing. -/
def exec (img : KernelImage) (as : AddrSpace) (m : Machine) :
    TableCall → Except Panic (Bool × Machine)
  | mappages va size pa perm => Kernel.mappages as.pagetable va size pa perm m
  | uvmunmap va npages doFree => do
    let m ← Kernel.uvmunmap img as va npages doFree m
    .ok (true, m)

/-- 32-bit arguments, page-aligned ranges, and for `mappages` a range that is not empty
and not mapped yet, and flag bits. -/
def Proper (as : AddrSpace) (m : Machine) : TableCall → Prop
  | mappages va size pa perm => va % pgsize = 0 ∧ va < 2 ^ 32 ∧ size % pgsize = 0 ∧ size < 2 ^ 32 ∧
      size ≠ 0 ∧ pa < 2 ^ 32 ∧ perm < 2 ^ 10 ∧
      ∀ i < size / pgsize, pageMap as.pagetable m (rangePage va i) = none
  | uvmunmap va _ _ => va % pgsize = 0 ∧ va < 2 ^ 32

/-- The call frees no page of the table itself. -/
def SparesTable (as : AddrSpace) (m : Machine) : TableCall → Prop
  | mappages .. => True
  | uvmunmap va npages doFree => doFree = true → ∀ i < npages, ∀ page flags,
      pageMap as.pagetable m (rangePage va i) = some (page, flags) →
        ¬ InTable as.pagetable m (page * pgsize)

instance (as : AddrSpace) (m : Machine) : (c : TableCall) → Decidable (c.Proper as m)
  | mappages .. => inferInstanceAs (Decidable (_ ∧ _))
  | uvmunmap .. => inferInstanceAs (Decidable (_ ∧ _))

/-- What the call does to the map when it returns `r`. -/
def Effect (r : Bool) (f f' : PageMap) : TableCall → Prop
  | mappages va size pa perm =>
    if r then PagesSet f f' va (size / pgsize) fun i => some (rangePage pa i, perm ||| pteV)
    else ∃ k < size / pgsize, PagesSet f f' va k fun i => some (rangePage pa i, perm ||| pteV)
  | uvmunmap va npages _ => PagesSet f f' va npages fun _ => none

/-- The panics of a call: `kfree` of an entry's page that is not an allocated one. -/
def MayPanic (e : Panic) : TableCall → Prop
  | mappages .. => False
  | uvmunmap _ _ doFree => doFree = true ∧ (e = .kfree ∨ e = .kfreeRef)

end TableCall

/-- The life of the table of `as`: `uvmcreate` by a sound allocator, calls that return,
and between them anything that leaves the bytes of the table's pages and keeps them
allocated. -/
inductive TableRun (img : KernelImage) (as : AddrSpace) : Machine → Prop where
  | create {m m' : Machine} : AllocOk img m.kmem → uvmcreate m = (as.pagetable, m') →
      as.pagetable ≠ 0 → TableRun img as m'
  | call {m m' : Machine} {c : TableCall} {r : Bool} : TableRun img as m → c.Proper as m →
      c.SparesTable as m → c.exec img as m = .ok (r, m') → TableRun img as m'
  | other {m m' : Machine} : TableRun img as m → AllocOk img m'.kmem →
      (∀ p, InTable as.pagetable m (idx2pa p) →
        pageBytes m.mem p = pageBytes m'.mem p ∧ 1 ≤ m'.kmem.refcnt p) → TableRun img as m'

section

variable {img : KernelImage} {as : AddrSpace} {m : Machine} {pt : PageTable}

theorem TableOk.exec (h : TableOk img m pt) (has : as.pagetable = idx2pa pt.root) {c : TableCall}
    (hc : c.Proper as m) (hown : c.SparesTable as m) :
    Except.Sat (c.MayPanic) (fun r => ∃ pt', TableOk img r.2 pt' ∧ as.pagetable = idx2pa pt'.root ∧
      c.Effect r.1 pt.map pt'.map) (c.exec img as m) := by
  have hmap : pageMap as.pagetable m = pt.map := has ▸ h.repr.pageMap_eq
  cases c with
  | mappages va size pa perm =>
    obtain ⟨hva, hvalt, hsz, hszlt, hnz, hpa, hperm, hnew⟩ := hc
    rw [hmap] at hnew
    have hn : size / pgsize ≤ 2 ^ 20 := by
      rw [pgsize_eq]
      omega
    obtain ⟨r, m', pt', hrun, hok, hroot, k, -, hfail, hdone, hset⟩ :=
      h.mappagesLoop_spec hperm (size / pgsize) hva hvalt hpa hn hnew
    rw [TableCall.exec, Kernel.mappages, if_neg (not_not.mpr hva), if_neg (not_not.mpr hsz),
      if_neg hnz, has, hrun]
    refine .ok ⟨pt', hok, by rw [hroot], ?_⟩
    cases r with
    | false => exact ⟨k, hfail rfl, hset⟩
    | true =>
      rw [hdone rfl] at hset
      exact hset
  | uvmunmap va npages doFree =>
    obtain ⟨hva, hvalt⟩ := hc
    have hnz : as.pagetable ≠ 0 := by
      rw [has, idx2pa, kernbase_eq]
      omega
    rw [TableCall.exec, Kernel.uvmunmap, if_neg hnz, if_neg (not_not.mpr hva), has]
    refine (h.uvmunmapLoop_spec doFree npages hvalt ?_).bind ?_
    · intro hd i hi page flags hp
      exact has ▸ hown hd i hi page flags (hmap ▸ hp)
    · rintro m' ⟨pt', hok, hroot, hset⟩
      exact .ok ⟨pt', hok, by rw [hroot], hset⟩

theorem TableRun.ok (h : TableRun img as m) :
    ∃ pt, TableOk img m pt ∧ as.pagetable = idx2pa pt.root := by
  induction h with
  | create halloc hc hnz =>
    obtain ⟨p, hp, hok⟩ := TableOk.uvmcreate halloc hc hnz
    exact ⟨_, hok, hp⟩
  | call _ hc hown hexec ih =>
    obtain ⟨pt, hok, has⟩ := ih
    obtain ⟨pt', hok', has', -⟩ := (hok.exec has hc hown).of_eq_ok hexec
    exact ⟨pt', hok', has'⟩
  | @other m m' _ halloc hkeep ih =>
    obtain ⟨pt, hok, has⟩ := ih
    rw [has] at hkeep
    have hin : ∀ p, p = pt.root ∨ (∃ i, pt.dir i = some p) →
        InTable (idx2pa pt.root) m (idx2pa p) := by
      rintro p (rfl | ⟨i, hi⟩)
      · exact .inl rfl
      · exact hok.repr.inTable_iff.mpr (.inr ⟨i, p, hi, rfl⟩)
    refine ⟨pt, hok.of_same (S := {p | pageBytes m.mem p ≠ pageBytes m'.mem p}) halloc
      (fun p hp => not_not.mp hp) fun p hp => ?_, has⟩
    obtain ⟨hsame, href⟩ := hkeep p (hin p hp)
    exact ⟨fun hne => hne hsame, href⟩

end

/-- **A page table refines a map**: the map of a new table is empty, and at every point of
a table's life a call changes the map at the pages of its range and nowhere else.
`mappages` always returns; `uvmunmap` returns unless `kfree` refuses a page. -/
theorem pageTable_refines_map (img : KernelImage) (as : AddrSpace) :
    (∀ m m', AllocOk img m.kmem → uvmcreate m = (as.pagetable, m') → as.pagetable ≠ 0 →
      pageMap as.pagetable m' = fun _ => none) ∧
    ∀ m, TableRun img as m → ∀ c : TableCall, c.Proper as m → c.SparesTable as m →
      Except.Sat (c.MayPanic) (fun r => c.Effect r.1 (pageMap as.pagetable m)
        (pageMap as.pagetable r.2)) (c.exec img as m) := by
  refine ⟨fun m m' halloc hc hnz => ?_, fun m hrun c hc hown => ?_⟩
  · obtain ⟨p, hp, hok⟩ := TableOk.uvmcreate halloc hc hnz
    rw [hp]
    exact hok.repr.pageMap_eq
  · obtain ⟨pt, hok, has⟩ := hrun.ok
    refine (hok.exec has hc hown).post ?_
    rintro ⟨r, m'⟩ ⟨pt', hok', has', heffect⟩
    rw [has, hok.repr.pageMap_eq, ← has, has', hok'.repr.pageMap_eq]
    exact heffect

/-! ## Small runs -/

/-- A new table after `kinit`, with no failing allocation. -/
def newTable : Option (AddrSpace × Machine) :=
  (kinit sixteenPageImage).toOption.map fun k =>
    let (pagetable, m) := uvmcreate ⟨k, fun _ => 0, fun _ => false, 0⟩
    (⟨pagetable, []⟩, m)

/-- Proper calls of `mappages` in a row, each with one page: virtual address, physical
address and flags. -/
def mapPages (as : AddrSpace) (pages : List (ℕ × ℕ × ℕ)) (m : Machine) : Option Machine :=
  pages.foldlM (fun m x =>
    let c := TableCall.mappages x.1 pgsize x.2.1 x.2.2
    if c.Proper as m then (c.exec sixteenPageImage as m).toOption.map Prod.snd else none) m

theorem TableRun.newTable {as : AddrSpace} {m : Machine} (h : newTable = some (as, m))
    (hnz : as.pagetable ≠ 0) : TableRun sixteenPageImage as m := by
  obtain ⟨k, hk, heq⟩ := Option.map_eq_some_iff.mp h
  obtain ⟨rfl, rfl⟩ := Prod.mk.inj heq
  have halloc : AllocOk sixteenPageImage (⟨k, fun _ => 0, fun _ => false, 0⟩ : Machine).kmem :=
    AllocOk.kinit (Except.toOption_eq_some hk)
  exact .create halloc rfl hnz

theorem TableRun.mapPages {as : AddrSpace} {m m' : Machine} {pages : List (ℕ × ℕ × ℕ)}
    (h : TableRun sixteenPageImage as m) (hm : mapPages as pages m = some m') :
    TableRun sixteenPageImage as m' := by
  induction pages generalizing m with
  | nil => exact Option.some.inj hm ▸ h
  | cons x pages ih =>
    obtain ⟨m1, hstep, hm⟩ := Option.bind_eq_some_iff.mp hm
    dsimp only at hstep
    split_ifs at hstep with hproper
    obtain ⟨⟨r, m2⟩, hexec, rfl⟩ := Option.map_eq_some_iff.mp hstep
    exact ih (h.call hproper trivial (Except.toOption_eq_some hexec)) hm

/-- A new table maps a page. -/
theorem pageTable_refines_map_first : ∃ as m, TableRun sixteenPageImage as m ∧
    Except.Sat (fun _ => False) (fun r => (TableCall.mappages 0 pgsize kernbase pteR).Effect r.1
      (pageMap as.pagetable m) (pageMap as.pagetable r.2))
      ((TableCall.mappages 0 pgsize kernbase pteR).exec sixteenPageImage as m) := by
  have hrun : (newTable.any fun x => decide (x.1.pagetable ≠ 0 ∧
      (TableCall.mappages 0 pgsize kernbase pteR).Proper x.1 x.2)) = true := by
    decide +kernel
  obtain ⟨⟨as, m⟩, hnew, hcheck⟩ := (Option.any_eq_true _ _).mp hrun
  obtain ⟨hnz, hproper⟩ := of_decide_eq_true hcheck
  have hr := TableRun.newTable hnew hnz
  exact ⟨as, m, hr, (pageTable_refines_map sixteenPageImage as).2 m hr _ hproper trivial⟩

/-- The level-0 table of the first pages, page 32753, is mapped at page 0 and unmapped
with `do_free`: `kfree` fills it with junk, and page 2 has an entry that nobody made. -/
theorem unmap_own_table : ∃ as m m', TableRun sixteenPageImage as m ∧
    (TableCall.uvmunmap 0 1 true).Proper as m ∧
    (TableCall.uvmunmap 0 1 true).exec sixteenPageImage as m = .ok (true, m') ∧
    pageMap as.pagetable m 2 = none ∧ pageMap as.pagetable m' 2 = some (16448, 257) ∧
    ¬ (TableCall.uvmunmap 0 1 true).Effect true (pageMap as.pagetable m)
      (pageMap as.pagetable m') := by
  have hrun : (newTable.any fun x => decide (x.1.pagetable ≠ 0) &&
      (mapPages x.1 [(pgsize, kernbase, pteR), (0, idx2pa 32753, pteR)] x.2).any fun m =>
        ((TableCall.uvmunmap 0 1 true).exec sixteenPageImage x.1 m).toOption.any fun r =>
          decide (r.1 = true ∧ pageMap x.1.pagetable m 2 = none ∧
            pageMap x.1.pagetable r.2 2 = some (16448, 257))) = true := by
    decide +kernel
  obtain ⟨⟨as, m0⟩, hnew, hrun⟩ := (Option.any_eq_true _ _).mp hrun
  obtain ⟨hnz, hrun⟩ := (Bool.and_eq_true _ _).mp hrun
  obtain ⟨m, hm, hrun⟩ := (Option.any_eq_true _ _).mp hrun
  obtain ⟨⟨r, m'⟩, hexec, hcheck⟩ := Except.ok_of_any hrun
  obtain ⟨rfl, hbefore, hafter⟩ := of_decide_eq_true hcheck
  refine ⟨as, m, m', (TableRun.newTable hnew (of_decide_eq_true hnz)).mapPages hm, ⟨rfl, by decide⟩,
    hexec, hbefore, hafter, fun heffect => ?_⟩
  have hsame := heffect.outside 2 fun i hi => by
    obtain rfl : i = 0 := Nat.lt_one_iff.mp hi
    decide
  rw [hbefore, hafter] at hsame
  cases hsame

end YHsys.Kernel
