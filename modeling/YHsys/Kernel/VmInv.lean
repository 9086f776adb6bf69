import Mathlib
import YHsys.Kernel.KallocRuns
import YHsys.Kernel.PageTable
import YHsys.Lib.Holders

/-!
# Who holds which page

The invariant of the address-space code. A page of RAM is held by slots: the root
of a page table, a root entry that points to a level-0 table, or a leaf entry
below `TRAPFRAME`. `VmInv` says that the allocator's reference count of a page is
the number of slots that hold it plus the references `e` that the running code or
the rest of the kernel has in hand, and what follows from this for tables and for
writable entries.

Each primitive step of the address-space code (allocating, freeing, sharing a
page, writing one entry) has one lemma here; the functions of `addrspace.c` are
put together from them. `view` is what a process can observe of its pages, with
copy-on-write hidden.
-/

namespace YHsys.Kernel

open Function (update update_comm update_eq_self update_idem update_of_ne update_self)

/-! ## The allocator as part of a machine -/

/-- The allocator's state is sound, and no managed page is lost. -/
structure AllocOk (img : KernelImage) (k : Kmem) : Prop where
  buddy : BuddyInv (firstPage img) npages k
  used : ∀ p, Managed img p → k.refcnt p = 0 → p ∈ freePages k

section

variable {img : KernelImage} {m : Machine}

theorem AllocOk.kinit {k : Kmem} (h : kinit img = .ok k) : AllocOk img k := by
  obtain ⟨k', hk', hinv, hfree, -⟩ := kinit_spec img
  obtain rfl := Except.ok.inj (h.symm.trans hk')
  exact ⟨hinv, fun p hp _ => hfree ▸ hp⟩

theorem AllocOk.managed (h : AllocOk img m.kmem) {p : ℕ} (hp : 1 ≤ m.kmem.refcnt p) :
    Managed img p := (h.buddy.of_refcnt_pos hp).1

theorem Machine.kalloc_cases (h : AllocOk img m.kmem) :
    (∃ m', m.kalloc = (none, m') ∧ AllocOk img m'.kmem ∧ m'.kmem.refcnt = m.kmem.refcnt ∧
      m'.mem = m.mem) ∨
    ∃ p m', m.kalloc = (some (idx2pa p), m') ∧ AllocOk img m'.kmem ∧ m.kmem.refcnt p = 0 ∧
      m'.kmem.refcnt = update m.kmem.refcnt p 1 ∧ SameOutside {p} m.mem m'.mem := by
  unfold Machine.kalloc
  split_ifs with hfail
  · exact .inl ⟨_, rfl, h, rfl, rfl⟩
  · rcases kalloc_spec (Nat.le_refl _) h.buddy with
      ⟨hk, -⟩ | ⟨p, k, hk, hmem, hfree, hrefs, hinv⟩
    · rw [hk]
      exact .inl ⟨_, rfl, h, rfl, rfl⟩
    · rw [hk]
      refine .inr ⟨p, _, rfl, ⟨hinv, fun q hq hz => ?_⟩, h.buddy.unused p hmem, hrefs,
        SameOutside.memset m.mem p 5⟩
      have hz : k.refcnt q = 0 := hz
      show q ∈ freePages k
      rw [hrefs] at hz
      by_cases hqp : q = p
      · rw [hqp, update_self] at hz
        exact absurd hz (by decide)
      · rw [update_of_ne hqp] at hz
        exact hfree ▸ ⟨h.used q hq hz, hqp⟩

theorem Machine.kfree_ok (h : AllocOk img m.kmem) {p : ℕ} (hp : 1 ≤ m.kmem.refcnt p) :
    ∃ m', m.kfree img (idx2pa p) = .ok m' ∧ AllocOk img m'.kmem ∧
      m'.kmem.refcnt = update m.kmem.refcnt p (m.kmem.refcnt p - 1) ∧
      SameOutside {q | q = p ∧ m.kmem.refcnt p = 1} m.mem m'.mem := by
  obtain ⟨hlo, hhi⟩ := h.managed hp
  obtain ⟨hup, hle, -⟩ := pgroundup_kend img
  have hguard : ¬ (idx2pa p % pgsize ≠ 0 ∨ idx2pa p < img.kend ∨ phystop ≤ idx2pa p) := by
    rw [hup] at hle
    simp only [idx2pa, npages_val, phystop_eq, kernbase_eq, pgsize_eq] at *
    omega
  obtain ⟨k, hk⟩ : ∃ k, Kernel.kfree img (idx2pa p) m.kmem = .ok k := by
    unfold Kernel.kfree
    rw [if_neg hguard, pa2idx_idx2pa]
    dsimp only
    rw [if_neg (by omega)]
    split_ifs <;> exact ⟨_, rfl⟩
  obtain ⟨-, -, hrefs, hfree, hinv⟩ := kfree_spec (Nat.le_refl _) h.buddy hk
  rw [pa2idx_idx2pa] at hrefs hfree
  have hok : AllocOk img k := by
    refine ⟨hinv, fun q hq hz => ?_⟩
    rw [hrefs] at hz
    rw [hfree]
    by_cases hqp : q = p
    · rw [hqp, update_self] at hz
      rw [if_pos (by omega), hqp]
      exact .inl rfl
    · rw [update_of_ne hqp] at hz
      split_ifs
      · exact .inr (h.used q hq hz)
      · exact h.used q hq hz
  have hkp : k.refcnt p = m.kmem.refcnt p - 1 := by rw [hrefs, update_self]
  unfold Machine.kfree
  rw [hk, Except.ok_bind, pa2idx_idx2pa]
  split_ifs with hlast
  · refine ⟨_, rfl, hok, hrefs, (SameOutside.memset m.mem p 1).mono fun q hq => ⟨hq, ?_⟩⟩
    omega
  · exact ⟨_, rfl, hok, hrefs, SameOutside.refl _ _⟩

theorem Machine.kaddref_ok (h : AllocOk img m.kmem) {p : ℕ} (hp : 1 ≤ m.kmem.refcnt p)
    (hfit : m.kmem.refcnt p < 65535) :
    ∃ m', m.kaddref (idx2pa p) = .ok m' ∧ AllocOk img m'.kmem ∧
      m'.kmem.refcnt = update m.kmem.refcnt p (m.kmem.refcnt p + 1) ∧
      m'.mem = m.mem := by
  obtain ⟨-, hhi⟩ := h.managed hp
  have hguard : ¬ (idx2pa p % pgsize ≠ 0 ∨ idx2pa p < kernbase ∨ phystop ≤ idx2pa p) := by
    simp only [idx2pa, npages_val, phystop_eq, kernbase_eq, pgsize_eq] at *
    omega
  obtain ⟨k, hk⟩ : ∃ k, Kernel.kaddref (idx2pa p) m.kmem = .ok k := by
    unfold Kernel.kaddref
    rw [if_neg hguard, pa2idx_idx2pa]
    dsimp only
    rw [if_neg (by omega)]
    exact ⟨_, rfl⟩
  obtain ⟨-, -, hrefs, hfree, -, hinv⟩ := kaddref_spec h.buddy hk
  rw [pa2idx_idx2pa, Nat.mod_eq_of_lt (by omega)] at hrefs
  unfold Machine.kaddref
  rw [hk, Except.ok_bind]
  refine ⟨_, rfl, ⟨hinv, fun q hq hz => ?_⟩, hrefs, rfl⟩
  have hz : k.refcnt q = 0 := hz
  show q ∈ freePages k
  rw [hrefs] at hz
  rw [hfree]
  by_cases hqp : q = p
  · rw [hqp, update_self] at hz
    cases hz
  · rw [update_of_ne hqp] at hz
    exact h.used q hq hz

end

/-! ## Slots -/

/-- Where an address space can hold a page. -/
inductive Slot where
  | root
  | table (i : ℕ)
  | leaf (v : ℕ)
deriving DecidableEq, Repr

/-- The page an address space holds in a slot. Leaf entries from `TRAPFRAME` on
hold nothing: the trap frame and the trampoline belong to the kernel. -/
def PageTable.page (pt : PageTable) : Slot → Option ℕ
  | .root => some pt.root
  | .table i => pt.dir i
  | .leaf v => if v < userVpns then (pt.leaf v).map fun l => pa2idx l.pa else none

open PageTable (addTable page setLeaf)

/-- The page tables of the live address spaces. -/
abbrev Tables := ℕ → Option PageTable

/-- What each slot of each address space holds. -/
def owned (G : Tables) (x : ℕ × Slot) : Option ℕ := (G x.1).bind fun pt => pt.page x.2

/-- Page `p` is part of a page table. -/
def IsTable (G : Tables) (p : ℕ) : Prop :=
  ∃ id pt, G id = some pt ∧ (pt.root = p ∨ ∃ i, pt.dir i = some p)

/-- `l` is the entry of the user page `v` of the address space `id`. -/
def UserLeaf (G : Tables) (id v : ℕ) (l : Leaf) : Prop :=
  v < userVpns ∧ ∃ pt, G id = some pt ∧ pt.leaf v = some l

section

variable {G : Tables} {id v : ℕ} {l : Leaf}

theorem UserLeaf.owned_eq (h : UserLeaf G id v l) : owned G (id, .leaf v) = some (pa2idx l.pa) := by
  obtain ⟨hv, pt, hG, hl⟩ := h
  simp [owned, page, hG, hl, hv]

theorem owned_cases {id : ℕ} {s : Slot} {p : ℕ} (h : owned G (id, s) = some p) :
    (∃ v l, s = .leaf v ∧ UserLeaf G id v l ∧ pa2idx l.pa = p) ∨
      ((∀ v, s ≠ .leaf v) ∧ IsTable G p) := by
  unfold owned at h
  cases hG : G id with
  | none => simp [hG] at h
  | some pt =>
    simp only [hG, Option.bind_some] at h
    cases s with
    | root => exact .inr ⟨nofun, id, pt, hG, .inl (Option.some.inj h)⟩
    | table i => exact .inr ⟨nofun, id, pt, hG, .inr ⟨i, h⟩⟩
    | leaf v =>
      left
      simp only [page] at h
      split_ifs at h with hv
      obtain ⟨l, hl, rfl⟩ := Option.map_eq_some_iff.mp h
      exact ⟨v, l, rfl, ⟨hv, pt, hG, hl⟩, rfl⟩

theorem IsTable.owned {p : ℕ} (h : IsTable G p) :
    ∃ id s, (∀ v, s ≠ Slot.leaf v) ∧ owned G (id, s) = some p := by
  obtain ⟨id, pt, hG, rfl | ⟨i, hi⟩⟩ := h
  · exact ⟨id, .root, nofun, by simp [Kernel.owned, hG, page]⟩
  · exact ⟨id, .table i, nofun, by simp [Kernel.owned, hG, page, hi]⟩

theorem owned_setLeaf {pt : PageTable} (hG : G id = some pt) (v : ℕ) (x : Option Leaf)
    (h : ∃ t, pt.dir (v / 1024) = some t) :
    owned (update G id (some (pt.setLeaf v x h))) =
      update (owned G) (id, .leaf v)
        (if v < userVpns then x.map fun l => pa2idx l.pa else none) := by
  funext ⟨id', s⟩
  by_cases hid : id' = id
  · subst hid
    by_cases hs : s = .leaf v
    · subst hs
      simp [owned, page, setLeaf]
    · rw [update_of_ne (fun heq => hs (Prod.mk.inj heq).2)]
      simp only [owned, update_self, hG, Option.bind_some]
      cases s with
      | root => rfl
      | table i => rfl
      | leaf v' =>
        have hv' : v' ≠ v := fun heq => hs (heq ▸ rfl)
        simp [page, setLeaf, update_of_ne hv']
  · rw [update_of_ne (fun heq => hid (Prod.mk.inj heq).1)]
    simp [owned, update_of_ne hid]

theorem owned_addTable {pt : PageTable} (hG : G id = some pt) {i t : ℕ} (hi : i < 1024)
    (ht : t < npages) :
    owned (update G id (some (pt.addTable i t hi ht))) =
      update (owned G) (id, .table i) (some t) := by
  funext ⟨id', s⟩
  by_cases hid : id' = id
  · subst hid
    by_cases hs : s = .table i
    · subst hs
      simp [owned, page, addTable]
    · rw [update_of_ne (fun heq => hs (Prod.mk.inj heq).2)]
      simp only [owned, update_self, hG, Option.bind_some]
      cases s with
      | root => rfl
      | leaf v' => rfl
      | table i' =>
        have hi' : i' ≠ i := fun heq => hs (heq ▸ rfl)
        simp [page, addTable, update_of_ne hi']
  · rw [update_of_ne (fun heq => hid (Prod.mk.inj heq).1)]
    simp [owned, update_of_ne hid]

theorem userLeaf_setLeaf {pt : PageTable} (hG : G id = some pt) {x : Option Leaf}
    {h : ∃ t, pt.dir (v / 1024) = some t} {id' v' : ℕ} {l' : Leaf}
    (hl : UserLeaf (update G id (some (pt.setLeaf v x h))) id' v' l') :
    (id' = id ∧ v' = v ∧ x = some l') ∨ ((id' ≠ id ∨ v' ≠ v) ∧ UserLeaf G id' v' l') := by
  obtain ⟨hv, pt', hG', hl'⟩ := hl
  by_cases hid : id' = id
  · subst hid
    rw [update_self] at hG'
    obtain rfl := Option.some.inj hG'
    by_cases hvv : v' = v
    · subst hvv
      exact .inl ⟨rfl, rfl, by simpa [setLeaf] using hl'⟩
    · exact .inr ⟨.inr hvv, hv, pt, hG, by simpa [setLeaf, hvv] using hl'⟩
  · rw [update_of_ne hid] at hG'
    exact .inr ⟨.inl hid, hv, pt', hG', hl'⟩

theorem isTable_setLeaf {pt : PageTable} (hG : G id = some pt) {x : Option Leaf}
    {h : ∃ t, pt.dir (v / 1024) = some t} {p : ℕ}
    (hp : IsTable (update G id (some (pt.setLeaf v x h))) p) : IsTable G p := by
  obtain ⟨id', pt', hG', hp'⟩ := hp
  by_cases hid : id' = id
  · subst hid
    rw [update_self] at hG'
    obtain rfl := Option.some.inj hG'
    exact ⟨id', pt, hG, hp'⟩
  · rw [update_of_ne hid] at hG'
    exact ⟨id', pt', hG', hp'⟩

end

/-! ## The invariant -/

/-- What the entry `l` of the user page `v` guarantees: it maps RAM, it is
readable, and if it is writable it is the page's only holder. A page is mapped at one
virtual address only, in however many address spaces. -/
structure LeafOk (G : Tables) (v : ℕ) (l : Leaf) : Prop where
  ram : kernbase ≤ l.pa
  readable : l.flags.testBit 1 = true
  sole : l.flags.testBit 2 = true →
    l.flags.testBit 8 = false ∧ Holders.count (owned G) (pa2idx l.pa) = 1
  place : ∀ id' v' l', UserLeaf G id' v' l' → pa2idx l'.pa = pa2idx l.pa → v' = v

/-- The entries from `TRAPFRAME` on are not for the user. -/
def TopOk (G : Tables) : Prop :=
  ∀ id pt v l, G id = some pt → ¬ v < userVpns → pt.leaf v = some l → l.flags.testBit 4 = false

theorem TopOk.update {G : Tables} (h : TopOk G) (id : ℕ) {x : Option PageTable}
    (hx : ∀ pt v l, x = some pt → ¬ v < userVpns → pt.leaf v = some l → l.flags.testBit 4 = false) :
    TopOk (Function.update G id x) := by
  intro id' pt v l hpt hv hl
  by_cases hid : id' = id
  · rw [hid, Function.update_self] at hpt
    exact hx pt v l hpt hv hl
  · rw [Function.update_of_ne hid] at hpt
    exact h id' pt v l hpt hv hl

/-- The invariant; `e p` references to page `p` are in hand. -/
structure VmInv (img : KernelImage) (m : Machine) (G : Tables) (e : ℕ → ℕ) : Prop where
  alloc : AllocOk img m.kmem
  bounded : Holders.Bounded (owned G)
  represents : ∀ id pt, G id = some pt → Represents m.mem pt
  count : ∀ p, m.kmem.refcnt p = Holders.count (owned G) p + e p
  tables : ∀ p, IsTable G p → m.kmem.refcnt p = 1
  leaves : ∀ id v l, UserLeaf G id v l → LeafOk G v l
  top : TopOk G

theorem LeafOk.of_count {G G' : Tables} {v : ℕ} {l : Leaf} (h : LeafOk G v l)
    (hc : l.flags.testBit 2 = true → Holders.count (owned G) (pa2idx l.pa) = 1 →
      Holders.count (owned G') (pa2idx l.pa) = 1)
    (hu : ∀ id' v' l', UserLeaf G' id' v' l' → pa2idx l'.pa = pa2idx l.pa →
      v' = v ∨ UserLeaf G id' v' l') : LeafOk G' v l where
  ram := h.ram
  readable := h.readable
  sole hw := ⟨(h.sole hw).1, hc hw (h.sole hw).2⟩
  place id' v' l' hl' hp := (hu id' v' l' hl' hp).elim id fun hold => h.place id' v' l' hold hp

namespace VmInv

variable {img : KernelImage} {m m' : Machine} {G : Tables} {e e' : ℕ → ℕ} {S : Set ℕ} {p : ℕ}

theorem owned_pos (h : VmInv img m G e) {x : ℕ × Slot} (hx : owned G x = some p) :
    1 ≤ m.kmem.refcnt p := by
  have := Holders.count_pos h.bounded hx
  rw [h.count]
  omega

theorem table_slot (h : VmInv img m G e) (hp : IsTable G p) {x y : ℕ × Slot}
    (hx : owned G x = some p) (hy : owned G y = some p) : x = y := by
  have h1 := h.tables p hp
  have h2 := h.count p
  exact Holders.eq_of_count_le_one h.bounded (by omega) hx hy

theorem leaf_not_table (h : VmInv img m G e) {id v : ℕ} {l : Leaf} (hl : UserLeaf G id v l) :
    ¬ IsTable G (pa2idx l.pa) := by
  intro hp
  obtain ⟨id', s, hs, ho⟩ := hp.owned
  have := h.table_slot hp ho hl.owned_eq
  exact hs v (Prod.mk.inj this).2

theorem not_table_of_hand (h : VmInv img m G e) (hp : 1 ≤ e p) : ¬ IsTable G p := by
  intro htab
  obtain ⟨id, s, -, ho⟩ := htab.owned
  have h1 := h.tables p htab
  have h2 := h.count p
  have h3 := Holders.count_pos h.bounded ho
  omega

theorem leaf_pa (h : VmInv img m G e) {id v : ℕ} {l : Leaf} (hl : UserLeaf G id v l) :
    idx2pa (pa2idx l.pa) = l.pa :=
  idx2pa_pa2idx l.aligned (h.leaves id v l hl).ram

theorem not_owned (h : VmInv img m G e) (hp : Holders.count (owned G) p = 0) (x : ℕ × Slot) :
    owned G x ≠ some p := by
  intro hx
  have := Holders.count_pos h.bounded hx
  omega

theorem root_ne_dir (h : VmInv img m G e) {id : ℕ} {pt : PageTable} (hG : G id = some pt) (i : ℕ) :
    pt.dir i ≠ some pt.root := by
  intro hi
  have := h.table_slot (x := (id, .root)) (y := (id, .table i)) ⟨id, pt, hG, .inl rfl⟩
    (by simp [owned, hG, page]) (by simp [owned, hG, page, hi])
  cases this

theorem dir_inj (h : VmInv img m G e) {id i j t : ℕ} {pt : PageTable} (hG : G id = some pt)
    (hi : pt.dir i = some t) (hj : pt.dir j = some t) : i = j := by
  have := h.table_slot (x := (id, .table i)) (y := (id, .table j)) ⟨id, pt, hG, .inr ⟨i, hi⟩⟩
    (by simp [owned, hG, page, hi]) (by simp [owned, hG, page, hj])
  cases this
  rfl

theorem represents_of_same (h : VmInv img m G e) {mem' : Mem} (hs : SameOutside S m.mem mem')
    (hS : ∀ p, IsTable G p → p ∉ S) (id : ℕ) (pt : PageTable) (hG : G id = some pt) :
    Represents mem' pt :=
  (h.represents id pt hG).of_same hs (hS _ ⟨id, pt, hG, .inl rfl⟩)
    fun i _ ht => hS _ ⟨id, pt, hG, .inr ⟨i, ht⟩⟩

theorem transport (h : VmInv img m G e) (halloc : AllocOk img m'.kmem)
    (hcount : ∀ p, m'.kmem.refcnt p = Holders.count (owned G) p + e' p)
    (htab : ∀ p, IsTable G p → m'.kmem.refcnt p = 1) (hs : SameOutside S m.mem m'.mem)
    (hS : ∀ p, IsTable G p → p ∉ S) : VmInv img m' G e' where
  alloc := halloc
  bounded := h.bounded
  represents := h.represents_of_same hs hS
  count := hcount
  tables := htab
  leaves := h.leaves
  top := h.top

theorem withMem (h : VmInv img m G e) {mem' : Mem} (hs : SameOutside S m.mem mem')
    (hS : ∀ p, IsTable G p → p ∉ S) : VmInv img { m with mem := mem' } G e :=
  h.transport h.alloc h.count h.tables hs hS

theorem kalloc (h : VmInv img m G e) :
    (∃ m', m.kalloc = (none, m') ∧ VmInv img m' G e ∧ m'.mem = m.mem) ∨
    ∃ p m', m.kalloc = (some (idx2pa p), m') ∧ VmInv img m' G (update e p 1) ∧
      Holders.count (owned G) p = 0 ∧ e p = 0 ∧ p < npages ∧ SameOutside {p} m.mem m'.mem := by
  rcases Machine.kalloc_cases h.alloc with ⟨m', hk, hok, hrefs, hmem⟩ |
    ⟨p, m', hk, hok, hzero, hrefs, hsame⟩
  · refine .inl ⟨m', hk, h.transport hok ?_ ?_ (S := ∅) ?_ (fun _ _ => id), hmem⟩
    · exact fun p => hrefs ▸ h.count p
    · exact fun p hp => hrefs ▸ h.tables p hp
    · exact hmem ▸ SameOutside.refl _ _
  · have hc := h.count p
    have hmanaged : Managed img p := hok.managed (by rw [hrefs, update_self])
    have htab : ∀ q, IsTable G q → q ≠ p := by
      rintro q hq rfl
      have := h.tables q hq
      omega
    refine .inr ⟨p, m', hk, ?_, by omega, by omega, hmanaged.2, hsame⟩
    refine h.transport hok (fun q => ?_) (fun q hq => ?_) hsame htab
    · rw [hrefs]
      by_cases hqp : q = p
      · rw [hqp, update_self, update_self]
        omega
      · rw [update_of_ne hqp, update_of_ne hqp]
        exact h.count q
    · rw [hrefs, update_of_ne (htab q hq)]
      exact h.tables q hq

theorem kfree (h : VmInv img m G e) (hp : 1 ≤ e p) :
    ∃ m', m.kfree img (idx2pa p) = .ok m' ∧ VmInv img m' G (update e p (e p - 1)) ∧
      SameOutside {q | q = p ∧ Holders.count (owned G) p = 0} m.mem m'.mem := by
  have hc := h.count p
  obtain ⟨m', hk, hok, hrefs, hsame⟩ := Machine.kfree_ok h.alloc (p := p) (by omega)
  have hsame' : SameOutside {q | q = p ∧ Holders.count (owned G) p = 0} m.mem m'.mem :=
    hsame.mono fun q hq => ⟨hq.1, by have := hq.2; omega⟩
  have htab : ∀ q, IsTable G q → q ≠ p := fun q hq heq => h.not_table_of_hand hp (heq ▸ hq)
  refine ⟨m', hk, h.transport hok (fun q => ?_) (fun q hq => ?_) hsame'
    (fun q hq hin => htab q hq hin.1), hsame'⟩
  · rw [hrefs]
    by_cases hqp : q = p
    · rw [hqp, update_self, update_self]
      omega
    · rw [update_of_ne hqp, update_of_ne hqp]
      exact h.count q
  · rw [hrefs, update_of_ne (htab q hq)]
    exact h.tables q hq

/-! ### Writing one leaf entry -/

section

variable {id v t : ℕ} {pt : PageTable} {l l' : Leaf}

theorem setLeaf (h : VmInv img m G e) (hG : G id = some pt) (ht : pt.dir (v / 1024) = some t)
    {x : Option Leaf} {G' : Tables} (hG' : G' = update G id (some (pt.setLeaf v x ⟨t, ht⟩)))
    (hcount : ∀ p, Holders.count (owned G') p + e' p = Holders.count (owned G) p + e p)
    (hleaves : ∀ id' v' l', UserLeaf G' id' v' l' → LeafOk G' v' l')
    (htop : ¬ v < userVpns → ∀ l, x = some l → l.flags.testBit 4 = false) :
    VmInv img (m.wr32 (idx2pa t + 4 * (v % 1024)) (leafEntry x)) G' e' where
  alloc := h.alloc
  bounded := by
    rw [hG', owned_setLeaf hG]
    exact h.bounded.update _ _
  represents id' pt' hpt' := by
    have hroot := h.root_ne_dir hG
    rw [hG'] at hpt'
    by_cases hid : id' = id
    · subst hid
      rw [update_self] at hpt'
      obtain rfl := Option.some.inj hpt'
      exact (h.represents id' pt hG).setLeaf ht x (fun heq => hroot _ (heq ▸ ht))
        fun i hi => h.dir_inj hG hi ht
    · rw [update_of_ne hid] at hpt'
      -- the table written to belongs to `id` alone
      have hown : owned G (id, .table (v / 1024)) = some t := by
        simp [owned, hG, page, ht]
      have htab : IsTable G t := ⟨id, pt, hG, .inr ⟨_, ht⟩⟩
      refine (h.represents id' pt' hpt').of_same
        (SameOutside.wr32 m.mem t _ (Nat.mod_lt v (by decide))) (fun heq => ?_) fun i t' ht' heq => ?_
      · have := h.table_slot htab hown (y := (id', .root))
          (by simp [owned, hpt', page, show pt'.root = t from heq])
        cases this
      · have := h.table_slot htab hown (y := (id', .table i))
          (by simp [owned, hpt', page, ht', show t' = t from heq])
        exact hid (Prod.mk.inj this).1.symm
  count p := by
    show m.kmem.refcnt p = _
    rw [hcount, h.count]
  tables p hp := h.tables p (isTable_setLeaf hG (hG' ▸ hp))
  leaves := hleaves
  top := by
    rw [hG']
    refine h.top.update id fun pt' v' l' hpt' hv' hl' => ?_
    obtain rfl := Option.some.inj hpt'
    by_cases hvv : v' = v
    · subst hvv
      exact htop hv' l' (by simpa [setLeaf] using hl')
    · exact h.top id pt v' l' hG hv' (by simpa [PageTable.setLeaf, hvv] using hl')

theorem mapLeaf (h : VmInv img m G e) (hG : G id = some pt) (ht : pt.dir (v / 1024) = some t)
    (hv : v < userVpns) (hnone : pt.leaf v = none) (hl : l.pa = idx2pa p) (hp : 1 ≤ e p)
    (hread : l.flags.testBit 1 = true)
    (hsole : l.flags.testBit 2 = true →
      l.flags.testBit 8 = false ∧ Holders.count (owned G) p = 0)
    (hshare : ∀ id' v' l', UserLeaf G id' v' l' → pa2idx l'.pa = p →
      v' = v ∧ l'.flags.testBit 2 = false) :
    VmInv img (m.wr32 (idx2pa t + 4 * (v % 1024)) l.pte)
      (update G id (some (pt.setLeaf v (some l) ⟨t, ht⟩)))
      (update e p (e p - 1)) := by
  have hidx : pa2idx l.pa = p := by rw [hl, pa2idx_idx2pa]
  have hslot : owned G (id, .leaf v) = none := by simp [owned, hG, page, hnone]
  have hcount : ∀ q, Holders.count
      (owned (update G id (some (pt.setLeaf v (some l) ⟨t, ht⟩)))) q =
        Holders.count (owned G) q + if q = p then 1 else 0 := fun q => by
    rw [owned_setLeaf hG, if_pos hv, Option.map_some, hidx, Holders.count_fill h.bounded hslot]
  refine h.setLeaf hG ht (x := some l) rfl (fun q => ?_) (fun id' v' l' hl' => ?_)
    fun hv' => absurd hv hv'
  · rw [hcount]
    by_cases hqp : q = p
    · rw [hqp, if_pos rfl, update_self]
      omega
    · rw [if_neg hqp, update_of_ne hqp]
      rfl
  · rcases userLeaf_setLeaf hG hl' with ⟨rfl, rfl, hx⟩ | ⟨-, hold⟩
    · obtain rfl := Option.some.inj hx
      refine ⟨?_, hread, fun hw => ⟨(hsole hw).1, ?_⟩, fun id2 v2 l2 hl2 hpg => ?_⟩
      · rw [hl, idx2pa]
        exact Nat.le_add_right _ _
      · rw [hcount, hidx, (hsole hw).2, if_pos rfl]
      · rcases userLeaf_setLeaf hG hl2 with ⟨-, rfl, -⟩ | ⟨-, hold2⟩
        · rfl
        · exact (hshare id2 v2 l2 hold2 (hpg.trans hidx)).1
    · refine (h.leaves id' v' l' hold).of_count (fun hw hone => ?_) fun id2 v2 l2 hl2 hpg => ?_
      · rw [hcount, if_neg, hone]
        intro heq
        rw [(hshare id' v' l' hold heq).2] at hw
        cases hw
      · rcases userLeaf_setLeaf hG hl2 with ⟨-, rfl, hx⟩ | ⟨-, hold2⟩
        · obtain rfl := Option.some.inj hx
          exact .inl (hshare id' v' l' hold (hpg.symm.trans hidx)).1.symm
        · exact .inr hold2

theorem unmapLeaf (h : VmInv img m G e) (hG : G id = some pt) (ht : pt.dir (v / 1024) = some t)
    (hv : v < userVpns) (hl : pt.leaf v = some l) :
    VmInv img (m.wr32 (idx2pa t + 4 * (v % 1024)) 0)
      (update G id (some (pt.setLeaf v none ⟨t, ht⟩)))
      (update e (pa2idx l.pa) (e (pa2idx l.pa) + 1)) := by
  have hul : UserLeaf G id v l := ⟨hv, pt, hG, hl⟩
  have hcount : ∀ q, Holders.count
      (owned (update G id (some (pt.setLeaf v none ⟨t, ht⟩)))) q +
        (if q = pa2idx l.pa then 1 else 0) = Holders.count (owned G) q := fun q => by
    rw [owned_setLeaf hG, if_pos hv, Option.map_none, Holders.count_drop h.bounded hul.owned_eq]
  refine h.setLeaf hG ht (x := none) rfl (fun q => ?_) (fun id' v' l' hl' => ?_)
    fun hv' => absurd hv hv'
  · rw [← hcount q]
    by_cases hq : q = pa2idx l.pa
    · rw [hq, if_pos rfl, update_self]
      omega
    · rw [if_neg hq, update_of_ne hq]
      rfl
  · rcases userLeaf_setLeaf hG hl' with ⟨-, -, hx⟩ | ⟨hne, hold⟩
    · cases hx
    · refine (h.leaves id' v' l' hold).of_count (fun _ hone => ?_) fun id2 v2 l2 hl2 _ => ?_
      · by_cases heq : pa2idx l'.pa = pa2idx l.pa
        · -- a sole holder of the page is the entry being cleared
          have hul' : owned G (id, .leaf v) = some (pa2idx l'.pa) := by
            rw [heq]
            exact hul.owned_eq
          have := Holders.eq_of_count_le_one h.bounded (Nat.le_of_eq hone) hold.owned_eq hul'
          obtain ⟨hid, hs⟩ := Prod.mk.inj this
          exact (hne.elim (· hid) (· (Slot.leaf.inj hs))).elim
        · have := hcount (pa2idx l'.pa)
          rw [if_neg heq] at this
          exact this.trans hone
      · rcases userLeaf_setLeaf hG hl2 with ⟨-, -, hx⟩ | ⟨-, hold2⟩
        · cases hx
        · exact .inr hold2

theorem setTop (h : VmInv img m G e) (hG : G id = some pt) (ht : pt.dir (v / 1024) = some t)
    (hv : ¬ v < userVpns) (x : Option Leaf) (hx : ∀ l, x = some l → l.flags.testBit 4 = false) :
    VmInv img (m.wr32 (idx2pa t + 4 * (v % 1024)) (leafEntry x))
      (update G id (some (pt.setLeaf v x ⟨t, ht⟩))) e := by
  have hslot : owned G (id, .leaf v) = none := by simp [owned, hG, page, hv]
  have howned : owned (update G id (some (pt.setLeaf v x ⟨t, ht⟩))) = owned G := by
    rw [owned_setLeaf hG, if_neg hv, ← hslot, update_eq_self]
  have hold : ∀ id' v' l', UserLeaf (update G id (some (pt.setLeaf v x ⟨t, ht⟩))) id' v' l' →
      UserLeaf G id' v' l' := fun id' v' l' hl' => by
    rcases userLeaf_setLeaf hG hl' with ⟨-, rfl, -⟩ | ⟨-, hold⟩
    · exact absurd hl'.1 hv
    · exact hold
  refine h.setLeaf hG ht rfl (fun q => by rw [howned]) (fun id' v' l' hl' => ?_) fun _ => hx
  exact (h.leaves id' v' l' (hold id' v' l' hl')).of_count (fun _ hone => howned ▸ hone)
    fun id2 v2 l2 hl2 _ => .inr (hold id2 v2 l2 hl2)

theorem reflag (l' : Leaf) (h : VmInv img m G e) (hG : G id = some pt) (ht : pt.dir (v / 1024) = some t)
    (hv : v < userVpns) (hl : pt.leaf v = some l) (hpa : l'.pa = l.pa)
    (hread : l'.flags.testBit 1 = true)
    (hsole : l'.flags.testBit 2 = true →
      l'.flags.testBit 8 = false ∧ Holders.count (owned G) (pa2idx l.pa) = 1) :
    VmInv img (m.wr32 (idx2pa t + 4 * (v % 1024)) l'.pte)
      (update G id (some (pt.setLeaf v (some l') ⟨t, ht⟩))) e := by
  have hul : UserLeaf G id v l := ⟨hv, pt, hG, hl⟩
  have howned : owned (update G id (some (pt.setLeaf v (some l') ⟨t, ht⟩))) = owned G := by
    rw [owned_setLeaf hG, if_pos hv, Option.map_some, hpa, ← hul.owned_eq, update_eq_self]
  have hplace : ∀ {id1 v1 : ℕ} {l1 : Leaf}, UserLeaf G id1 v1 l1 → ∀ id2 v2 l2,
      UserLeaf (update G id (some (pt.setLeaf v (some l') ⟨t, ht⟩))) id2 v2 l2 →
      pa2idx l2.pa = pa2idx l1.pa → v2 = v1 := fun {id1 v1 l1} h1 id2 v2 l2 h2 hpg => by
    rcases userLeaf_setLeaf hG h2 with ⟨-, rfl, hx⟩ | ⟨-, hold2⟩
    · obtain rfl := Option.some.inj hx
      exact (h.leaves id1 v1 l1 h1).place id v2 l hul (by rw [← hpg, hpa])
    · exact (h.leaves id1 v1 l1 h1).place id2 v2 l2 hold2 hpg
  refine h.setLeaf hG ht (x := some l') rfl (fun q => by rw [howned]) (fun id' v' l1 hl' => ?_)
    fun hv' => absurd hv hv'
  rcases userLeaf_setLeaf hG hl' with ⟨rfl, rfl, hx⟩ | ⟨-, hold⟩
  · obtain rfl := Option.some.inj hx
    refine ⟨hpa ▸ (h.leaves _ _ l hul).ram, hread, fun hw => ?_, fun id2 v2 l2 hl2 hpg => ?_⟩
    · rw [howned, hpa]
      exact hsole hw
    · exact hplace hul id2 v2 l2 hl2 (by rw [hpg, hpa])
  · exact (h.leaves id' v' l1 hold).of_count (fun _ hone => howned ▸ hone)
      fun id2 v2 l2 hl2 hpg => .inl (hplace hold id2 v2 l2 hl2 hpg)

theorem replaceLeaf (l' : Leaf) (h : VmInv img m G e) (hG : G id = some pt) (ht : pt.dir (v / 1024) = some t)
    (hv : v < userVpns) (hl : pt.leaf v = some l) (hl' : l'.pa = idx2pa p) (hp : 1 ≤ e p)
    (hc : Holders.count (owned G) p = 0)
    (hread : l'.flags.testBit 1 = true)
    (hcow : l'.flags.testBit 8 = false) :
    VmInv img (m.wr32 (idx2pa t + 4 * (v % 1024)) l'.pte)
      (update G id (some (pt.setLeaf v (some l') ⟨t, ht⟩)))
      (update (update e p (e p - 1)) (pa2idx l.pa) (e (pa2idx l.pa) + 1)) := by
  have hul : UserLeaf G id v l := ⟨hv, pt, hG, hl⟩
  have hne : p ≠ pa2idx l.pa := fun heq => h.not_owned hc _ (heq ▸ hul.owned_eq)
  have hinv := h.unmapLeaf hG ht hv hl
  have hG' : update G id (some (pt.setLeaf v none ⟨t, ht⟩)) id =
      some (pt.setLeaf v none ⟨t, ht⟩) := update_self ..
  have hc' : Holders.count (owned (update G id (some (pt.setLeaf v none ⟨t, ht⟩)))) p = 0 := by
    have hdrop := Holders.count_drop h.bounded hul.owned_eq p
    rw [owned_setLeaf hG, if_pos hv, Option.map_none]
    omega
  have hep : update e (pa2idx l.pa) (e (pa2idx l.pa) + 1) p = e p :=
    update_of_ne hne _ _
  have hmap := hinv.mapLeaf hG' (v := v) ht hv (update_self ..) hl' (hep.symm ▸ hp) hread
    (fun _ => ⟨hcow, hc'⟩) fun id' v' l1 hl1 heq => by
      have hown : owned _ (id', Slot.leaf v') = some p := heq ▸ hl1.owned_eq
      exact absurd (Holders.count_pos hinv.bounded hown) (by omega)
  rw [hep, update_idem, PageTable.setLeaf_setLeaf, update_comm hne.symm] at hmap
  have hmem : (m.wr32 (idx2pa t + 4 * (v % 1024)) 0).wr32 (idx2pa t + 4 * (v % 1024)) l'.pte =
      m.wr32 (idx2pa t + 4 * (v % 1024)) l'.pte := by
    simp only [Machine.wr32, wr32_wr32]
  rw [hmem] at hmap
  exact hmap

end

/-! ### Tables -/

section

variable {id : ℕ} {pt : PageTable}

theorem leaf_ne (h : VmInv img m G e) (hp : Holders.count (owned G) p = 0) {id v : ℕ} {l : Leaf}
    (hl : UserLeaf G id v l) : pa2idx l.pa ≠ p := fun heq =>
  h.not_owned hp (id, .leaf v) (heq ▸ hl.owned_eq)

theorem addSlot (h : VmInv img m G e) {G' : Tables} {x : ℕ × Slot} (hslot : owned G x = none)
    (hown : owned G' = update (owned G) x (some p))
    (hc : Holders.count (owned G) p = 0) (hp : e p = 1)
    (hrep : ∀ id' pt', G' id' = some pt' → Represents m'.mem pt') (hkmem : m'.kmem = m.kmem)
    (htab : ∀ q, IsTable G' q → q = p ∨ IsTable G q)
    (hleaf : ∀ id' v' l', UserLeaf G' id' v' l' → UserLeaf G id' v' l') (htop : TopOk G') :
    VmInv img m' G' (update e p 0) where
  alloc := hkmem ▸ h.alloc
  bounded := hown ▸ h.bounded.update _ _
  represents := hrep
  count q := by
    rw [hkmem, hown, Holders.count_fill h.bounded hslot, h.count]
    by_cases hqp : q = p
    · rw [hqp, if_pos rfl, update_self, hp]
    · rw [if_neg hqp, update_of_ne hqp]
      rfl
  tables q hq := by
    rw [hkmem]
    rcases htab q hq with rfl | hold
    · rw [h.count, hc, hp]
    · exact h.tables q hold
  leaves id' v' l' hl' := by
    have hold := hleaf id' v' l' hl'
    refine (h.leaves id' v' l' hold).of_count (fun _ hone => ?_)
      fun id2 v2 l2 hl2 _ => .inr (hleaf id2 v2 l2 hl2)
    rw [hown, Holders.count_fill h.bounded hslot, if_neg (h.leaf_ne hc hold)]
    exact hone
  top := htop

theorem addTable (h : VmInv img m G e) (hG : G id = some pt) {i : ℕ} (hi : i < 1024)
    (hlt : p < npages) (hnone : pt.dir i = none) (hc : Holders.count (owned G) p = 0)
    (hp : e p = 1) (hzero : ∀ j < 1024, rd32 m.mem (idx2pa p + 4 * j) = 0) :
    VmInv img (m.wr32 (idx2pa pt.root + 4 * i) (pa2pte (idx2pa p) ||| pteV))
      (update G id (some (pt.addTable i p hi hlt))) (update e p 0) := by
  have hroot : owned G (id, .root) = some pt.root := by simp [owned, hG, page]
  have htabroot : IsTable G pt.root := ⟨id, pt, hG, .inl rfl⟩
  refine h.addSlot (x := (id, .table i)) (by simp [owned, hG, page, hnone])
    (owned_addTable hG hi hlt) hc hp (fun id' pt' hpt' => ?_) rfl (fun q hq => ?_)
    (fun id' v' l' hl' => ?_) (h.top.update id fun pt' v' l' hpt' hv' hl' => ?_)
  · by_cases hid : id' = id
    · subst hid
      rw [update_self] at hpt'
      obtain rfl := Option.some.inj hpt'
      exact (h.represents id' pt hG).addTable hi hlt hnone
        (fun heq => h.not_owned hc _ (heq ▸ hroot)) hzero (h.root_ne_dir hG)
    · rw [update_of_ne hid] at hpt'
      refine (h.represents id' pt' hpt').of_same (SameOutside.wr32 m.mem pt.root _ hi)
        (fun heq => ?_) fun i' t' ht' heq => ?_
      · have := h.table_slot htabroot hroot (y := (id', .root))
          (by simp [owned, hpt', page, show pt'.root = pt.root from heq])
        exact hid (Prod.mk.inj this).1.symm
      · have := h.table_slot htabroot hroot (y := (id', .table i'))
          (by simp [owned, hpt', page, ht', show t' = pt.root from heq])
        cases this
  · obtain ⟨id', pt', hpt', hq⟩ := hq
    by_cases hid : id' = id
    · subst hid
      rw [update_self] at hpt'
      obtain rfl := Option.some.inj hpt'
      rcases hq with hq | ⟨i', hq⟩
      · exact .inr ⟨id', pt, hG, .inl hq⟩
      · have hq : update pt.dir i (some p) i' = some q := hq
        by_cases hii : i' = i
        · rw [hii, update_self] at hq
          exact .inl (Option.some.inj hq).symm
        · rw [update_of_ne hii] at hq
          exact .inr ⟨id', pt, hG, .inr ⟨i', hq⟩⟩
    · rw [update_of_ne hid] at hpt'
      exact .inr ⟨id', pt', hpt', hq⟩
  · obtain ⟨hv, pt', hpt', hl⟩ := hl'
    by_cases hid : id' = id
    · subst hid
      rw [update_self] at hpt'
      obtain rfl := Option.some.inj hpt'
      exact ⟨hv, pt, hG, hl⟩
    · rw [update_of_ne hid] at hpt'
      exact ⟨hv, pt', hpt', hl⟩
  · obtain rfl := Option.some.inj hpt'
    exact h.top id pt v' l' hG hv' hl'

theorem attach (id : ℕ) (h : VmInv img m G e) (hG : G id = none) (hc : Holders.count (owned G) p = 0)
    (hp : e p = 1) (hzero : ∀ j < 1024, rd32 m.mem (idx2pa p + 4 * j) = 0) :
    VmInv img m (update G id (some (PageTable.empty p))) (update e p 0) := by
  refine h.addSlot (x := (id, .root)) (by simp [owned, hG]) ?_ hc hp (fun id' pt' hpt' => ?_) rfl
    (fun q hq => ?_) (fun id' v' l' hl' => ?_) (h.top.update id fun pt' v' l' hpt' hv' hl' => ?_)
  · funext ⟨id', s⟩
    by_cases hid : id' = id
    · subst hid
      cases s <;> simp [owned, hG, page, PageTable.empty]
    · rw [update_of_ne (fun heq => hid (Prod.mk.inj heq).1)]
      simp [owned, update_of_ne hid]
  · by_cases hid : id' = id
    · rw [hid, update_self] at hpt'
      obtain rfl := Option.some.inj hpt'
      exact Represents.empty hzero
    · rw [update_of_ne hid] at hpt'
      exact h.represents id' pt' hpt'
  · obtain ⟨id', pt', hpt', hq⟩ := hq
    by_cases hid : id' = id
    · rw [hid, update_self] at hpt'
      obtain rfl := Option.some.inj hpt'
      rcases hq with hq | ⟨i, hi⟩
      · exact .inl hq.symm
      · cases hi
    · rw [update_of_ne hid] at hpt'
      exact .inr ⟨id', pt', hpt', hq⟩
  · obtain ⟨hv, pt', hpt', hl⟩ := hl'
    by_cases hid : id' = id
    · rw [hid, update_self] at hpt'
      obtain rfl := Option.some.inj hpt'
      cases hl
    · rw [update_of_ne hid] at hpt'
      exact ⟨hv, pt', hpt', hl⟩
  · obtain rfl := Option.some.inj hpt'
    cases hl'

theorem detach (h : VmInv img m G e) (hG : G id = some pt) :
    VmInv img m (update G id none)
      (fun q => e q + Holders.count pt.page q) := by
  have hcount : ∀ q, Holders.count (owned G) q =
      Holders.count (owned (update G id none)) q + Holders.count pt.page q := fun q => by
    have := Holders.count_restrict (owned G) (owned (update G id none))
      (fun s : Slot => (id, s)) (fun s s' hs => (Prod.mk.inj hs).2) h.bounded
      (fun s => by simp [owned]) (fun ⟨id', s⟩ hne => by
        have hid : id' ≠ id := fun heq => hne s (heq ▸ rfl)
        simp [owned, update_of_ne hid]) q
    rw [this]
    congr 2
    funext s
    simp [owned, hG]
  have hold : ∀ {id'} {pt' : PageTable}, update G id none id' = some pt' →
      id' ≠ id ∧ G id' = some pt' := fun {id' pt'} hpt' => by
    by_cases hid : id' = id
    · rw [hid, update_self] at hpt'
      cases hpt'
    · rw [update_of_ne hid] at hpt'
      exact ⟨hid, hpt'⟩
  have hleaf : ∀ {id' v' l'}, UserLeaf (update G id none) id' v' l' →
      UserLeaf G id' v' l' := fun {id' v' l'} ⟨hv, pt', hpt', hl⟩ => ⟨hv, pt', (hold hpt').2, hl⟩
  have hb : Holders.Bounded (owned (update G id none)) := by
    refine h.bounded.subset fun x hx hnone => hx ?_
    by_cases hid : x.1 = id
    · simp [owned, hid]
    · have hnone : owned G x = none := hnone
      simpa [owned, update_of_ne hid] using hnone
  refine ⟨h.alloc, hb, fun id' pt' hpt' => h.represents id' pt' (hold hpt').2, fun q => ?_,
    fun q ⟨id', pt', hpt', hq⟩ => h.tables q ⟨id', pt', (hold hpt').2, hq⟩, ?_,
    h.top.update id fun _ _ _ hpt' => nomatch hpt'⟩
  · have h1 := hcount q
    have h2 := h.count q
    omega
  · intro id' v' l' hl'
    have hul := hleaf hl'
    refine (h.leaves id' v' l' hul).of_count (fun _ hone => ?_)
      fun id2 v2 l2 hl2 _ => .inr (hleaf hl2)
    -- the one holder of the page is the entry itself, which is not taken out
    have hpos := Holders.count_pos hb hl'.owned_eq
    have := hcount (pa2idx l'.pa)
    omega

end

/-! ### Sharing -/

theorem count_le_npages (h : VmInv img m G e) {id v : ℕ} {l : Leaf} (hl : UserLeaf G id v l) :
    Holders.count (owned G) (pa2idx l.pa) ≤ npages := by
  have hslot : ∀ x, owned G x = some (pa2idx l.pa) →
      x.2 = .leaf v ∧ ∃ pt, G x.1 = some pt := fun ⟨id', s⟩ hx => by
    rcases owned_cases hx with ⟨v', l', rfl, hl', hpg⟩ | ⟨-, htab⟩
    · have hv := (h.leaves id v l hl).place id' v' l' hl' hpg
      obtain ⟨-, pt, hpt, -⟩ := hl'
      exact ⟨congrArg Slot.leaf hv, pt, hpt⟩
    · exact absurd htab (h.leaf_not_table hl)
  have hroot : ∀ {id' : ℕ} {pt : PageTable}, G id' = some pt →
      owned G (id', .root) = some pt.root := fun {id' pt} hpt => by
    simp [owned, hpt, page]
  have hcard : ({q | q < npages} : Set ℕ).ncard = npages := by
    rw [show ({q | q < npages} : Set ℕ) = ↑(Finset.range npages) by ext; simp,
      Set.ncard_coe_finset, Finset.card_range]
  rw [← hcard]
  refine Holders.count_le_of_injOn (fun x => ((G x.1).map PageTable.root).getD 0) _
    (Set.finite_lt_nat npages) (fun x hx => ?_) fun x y hx hy hxy => ?_
  · obtain ⟨-, pt, hpt⟩ := hslot x hx
    show ((G x.1).map PageTable.root).getD 0 < npages
    rw [hpt]
    exact (h.alloc.managed (h.owned_pos (hroot hpt))).2
  · obtain ⟨hsx, pt, hpt⟩ := hslot x hx
    obtain ⟨hsy, pt', hpt'⟩ := hslot y hy
    rw [hpt, hpt'] at hxy
    have hxy : pt.root = pt'.root := hxy
    have := h.table_slot ⟨x.1, pt, hpt, .inl rfl⟩ (hroot hpt) (hxy ▸ hroot hpt')
    exact Prod.ext (Prod.mk.inj this).1 (hsx.trans hsy.symm)

theorem kaddref (h : VmInv img m G e) {id v : ℕ} {l : Leaf} (hl : UserLeaf G id v l)
    (he : e (pa2idx l.pa) ≤ 1) :
    ∃ m', m.kaddref l.pa = .ok m' ∧
      VmInv img m' G (update e (pa2idx l.pa) (e (pa2idx l.pa) + 1)) ∧
      m'.mem = m.mem := by
  have hle := h.count_le_npages hl
  have hc := h.count (pa2idx l.pa)
  rw [npages_val] at hle
  obtain ⟨m', hk, hok, hrefs, hmem⟩ := Machine.kaddref_ok h.alloc (h.owned_pos hl.owned_eq)
    (by omega)
  rw [h.leaf_pa hl] at hk
  have htab : ∀ q, IsTable G q → q ≠ pa2idx l.pa := fun q hq heq =>
    h.leaf_not_table hl (heq ▸ hq)
  refine ⟨m', hk, h.transport hok (fun q => ?_) (fun q hq => ?_) (S := ∅)
    (hmem ▸ SameOutside.refl _ _) (fun q _ => Set.notMem_empty q), hmem⟩
  · rw [hrefs]
    by_cases hq : q = pa2idx l.pa
    · rw [hq, update_self, update_self]
      omega
    · rw [update_of_ne hq, update_of_ne hq]
      exact h.count q
  · rw [hrefs, update_of_ne (htab q hq)]
    exact h.tables q hq

end VmInv

end YHsys.Kernel
