import YHsys.Kernel.VmInv

/-!
# Specifications of the address-space functions

For each function of `addrspace.c`: it keeps the invariant `VmInv`, it panics only
where the source checks its arguments (never inside the allocator), and what it
does to the `view`, the pages the processes can observe with copy-on-write hidden.
`Next` packages what every function on one address space guarantees.
-/

namespace YHsys.Kernel

open Function (update update_eq_iff update_eq_self update_idem update_of_ne update_self)

/-! ## What processes observe -/

/-- A user page as its process sees it: the bytes and the flags. -/
structure UserPage where
  data : ℕ → UInt8
  flags : ℕ

/-- The flags of an entry with copy-on-write hidden: a page to be copied on the
first write counts as writable. -/
def eagerFlags (flags : ℕ) : ℕ :=
  if flags.testBit 8 then (flags ||| pteW) &&& not32 pteCOW else flags

/-- What an entry shows of memory. -/
def Leaf.userPage (l : Leaf) (mem : Mem) : UserPage :=
  ⟨pageBytes mem (pa2idx l.pa), eagerFlags l.flags⟩

/-- The user page `v` of the address space `id`. -/
def view (mem : Mem) (G : Tables) (x : ℕ × ℕ) : Option UserPage :=
  if x.2 < userVpns then ((G x.1).bind fun pt => pt.leaf x.2).map fun l => l.userPage mem else none

section

variable {mem mem' : Mem} {G G' : Tables} {id v : ℕ} {pt : PageTable}

theorem view_congr (hG : ∀ id v, v < userVpns →
      ((G' id).bind fun pt => pt.leaf v) = (G id).bind fun pt => pt.leaf v)
    (hmem : ∀ id v l, UserLeaf G id v l →
      pageBytes mem (pa2idx l.pa) = pageBytes mem' (pa2idx l.pa)) :
    view mem' G' = view mem G := by
  funext ⟨id, v⟩
  unfold view
  split_ifs with hv
  · rw [hG id v hv]
    cases hl : (G id).bind fun pt => pt.leaf v with
    | none => rfl
    | some l =>
      obtain ⟨pt, hpt, hl⟩ := Option.bind_eq_some_iff.mp hl
      simp only [Option.map_some, Leaf.userPage, hmem id v l ⟨hv, pt, hpt, hl⟩]
  · rfl

theorem view_of_same {S : Set ℕ} (hs : SameOutside S mem mem')
    (hS : ∀ id v l, UserLeaf G id v l → pa2idx l.pa ∉ S) : view mem' G = view mem G :=
  view_congr (fun _ _ _ => rfl) fun id v l hl => hs _ (hS id v l hl)

theorem view_setLeaf (mem : Mem) (hG : G id = some pt) (v : ℕ) (x : Option Leaf)
    (h : ∃ t, pt.dir (v / 1024) = some t) :
    view mem (update G id (some (pt.setLeaf v x h))) =
      update (view mem G) (id, v)
        (if v < userVpns then x.map fun l => l.userPage mem else none) := by
  funext ⟨id', v'⟩
  by_cases hid : id' = id
  · subst hid
    by_cases hv : v' = v
    · subst hv
      simp [view, PageTable.setLeaf]
    · rw [update_of_ne (fun heq => hv (Prod.mk.inj heq).2)]
      simp [view, PageTable.setLeaf, hG, update_of_ne hv]
  · rw [update_of_ne (fun heq => hid (Prod.mk.inj heq).1)]
    simp [view, update_of_ne hid]

theorem view_writeLeaf {img : KernelImage} {m : Machine} {e : ℕ → ℕ} {t w : ℕ} {x : Option Leaf}
    (hG : G id = some pt) (ht : pt.dir (v / 1024) = some t) (hv : v < userVpns)
    (hinv : VmInv img (m.wr32 (idx2pa t + 4 * (v % 1024)) w)
      (update G id (some (pt.setLeaf v x ⟨t, ht⟩))) e) :
    view (m.wr32 (idx2pa t + 4 * (v % 1024)) w).mem
        (update G id (some (pt.setLeaf v x ⟨t, ht⟩))) =
      update (view m.mem G) (id, v) (x.map fun l => l.userPage m.mem) := by
  have hset := view_setLeaf m.mem hG v x ⟨t, ht⟩
  rw [if_pos hv] at hset
  rw [← hset]
  refine view_of_same (SameOutside.wr32 m.mem t _ (Nat.mod_lt v (by decide)))
    fun id' v' l' hl' heq => hinv.leaf_not_table hl' ?_
  rw [show pa2idx l'.pa = t from heq]
  exact ⟨id, _, update_self .., .inr ⟨_, ht⟩⟩

/-- The entries of the user pages. -/
def userLeaves (G : Tables) (x : ℕ × ℕ) : Option Leaf :=
  if x.2 < userVpns then (G x.1).bind fun pt => pt.leaf x.2 else none

theorem userLeaves_iff {l : Leaf} : userLeaves G (id, v) = some l ↔ UserLeaf G id v l := by
  unfold userLeaves UserLeaf
  by_cases hv : v < userVpns
  · simp [hv, Option.bind_eq_some_iff]
  · simp [hv]

theorem userLeaves_update {pt' : PageTable} {x : Option Leaf} (hG : G id = some pt)
    (hleaf : pt'.leaf = update pt.leaf v x) (hv : v < userVpns) :
    userLeaves (update G id (some pt')) = update (userLeaves G) (id, v) x := by
  funext ⟨id', v'⟩
  unfold userLeaves
  by_cases hid : id' = id
  · subst hid
    by_cases hvv : v' = v
    · subst hvv
      simp [hv, hleaf]
    · rw [update_of_ne fun heq => hvv (Prod.mk.inj heq).2]
      simp [hG, hleaf, update_of_ne hvv]
  · rw [update_of_ne fun heq => hid (Prod.mk.inj heq).1]
    simp [update_of_ne hid]

theorem userLeaves_of_leaf_eq {pt' : PageTable} (hG : G id = some pt) (hleaf : pt'.leaf = pt.leaf) :
    userLeaves (update G id (some pt')) = userLeaves G := by
  funext ⟨id', v'⟩
  unfold userLeaves
  by_cases hid : id' = id
  · subst hid
    simp [hG, hleaf]
  · simp [update_of_ne hid]

end

/-! ## What every operation on one address space guarantees -/

/-- Every entry was there before, with at least as many holders of its page, or is
the only holder of a page that is not in hand: nothing becomes shared. -/
def KeepsPrivate (e : ℕ → ℕ) (G G' : Tables) : Prop :=
  ∀ id v l', UserLeaf G' id v l' →
    (∃ l, UserLeaf G id v l ∧ pa2idx l.pa = pa2idx l'.pa ∧
      Holders.count (owned G') (pa2idx l'.pa) ≤ Holders.count (owned G) (pa2idx l'.pa) ∧
      (l'.flags.testBit 8 = true → l.flags.testBit 8 = true)) ∨
    (Holders.count (owned G') (pa2idx l'.pa) ≤ 1 ∧ l'.flags.testBit 8 = false ∧
      e (pa2idx l'.pa) = 0)

namespace KeepsPrivate

variable {e e' : ℕ → ℕ} {G G' G'' : Tables}

theorem refl (e : ℕ → ℕ) (G : Tables) : KeepsPrivate e G G :=
  fun _ _ l' hl' => .inl ⟨l', hl', rfl, Nat.le_refl _, id⟩

theorem trans (h : KeepsPrivate e G G') (h' : KeepsPrivate e G' G'') : KeepsPrivate e G G'' := by
  intro id v l'' hl''
  rcases h' id v l'' hl'' with ⟨l', hl', hpg', hle', hcow'⟩ | hone
  · rw [← hpg'] at hle' ⊢
    rcases h id v l' hl' with ⟨l, hl, hpg, hle, hcow⟩ | ⟨hone, hncow, hhand⟩
    · exact .inl ⟨l, hl, hpg, hle'.trans hle, fun hc => hcow (hcow' hc)⟩
    · refine .inr ⟨hle'.trans hone, Bool.eq_false_iff.mpr fun hc => ?_, hhand⟩
      rw [hcow' hc] at hncow
      cases hncow
  · exact .inr hone

theorem mono (h : KeepsPrivate e G G') (he : ∀ p, e p = 0 → e' p = 0) : KeepsPrivate e' G G' :=
  fun id v l' hl' => (h id v l' hl').imp_right fun ⟨hone, hcow, hhand⟩ =>
    ⟨hone, hcow, he _ hhand⟩

theorem put_down {p : ℕ} (h : KeepsPrivate (update e p 1) G G') : KeepsPrivate e G G' :=
  h.mono fun q hq => by
    by_cases hqp : q = p
    · rw [hqp, update_self] at hq
      cases hq
    · rwa [update_of_ne hqp] at hq

end KeepsPrivate

/-- From `m`, `G` to `m'`, `G'` by an operation on the address space `id` that
keeps the references `e'` in hand. -/
structure Next (img : KernelImage) (id : ℕ) (G : Tables) (m' : Machine) (G' : Tables)
    (e' : ℕ → ℕ) : Prop where
  inv : VmInv img m' G' e'
  others : ∀ id', id' ≠ id → G' id' = G id'
  table : ∀ pt, G id = some pt → ∃ pt', G' id = some pt' ∧ pt'.root = pt.root ∧
    (∀ v, ¬ v < userVpns → pt'.leaf v = pt.leaf v) ∧ ∀ i, pt'.dir i = none → pt.dir i = none
  priv : KeepsPrivate e' G G'

namespace Next

variable {img : KernelImage} {id : ℕ} {m m' m'' : Machine} {G G' G'' : Tables} {e e' : ℕ → ℕ}

theorem refl (h : VmInv img m G e) (id : ℕ) : Next img id G m G e :=
  ⟨h, fun _ _ => rfl, fun pt hpt => ⟨pt, hpt, rfl, fun _ _ => rfl, fun _ hi => hi⟩, .refl e G⟩

theorem of_update {pt pt' : PageTable} (hinv : VmInv img m' (update G id (some pt')) e')
    (hG : G id = some pt) (hroot : pt'.root = pt.root)
    (htop : ∀ v, ¬ v < userVpns → pt'.leaf v = pt.leaf v)
    (hdir : ∀ i, pt'.dir i = none → pt.dir i = none)
    (hpriv : KeepsPrivate e' G (update G id (some pt'))) :
    Next img id G m' (update G id (some pt')) e' where
  inv := hinv
  others id' hid := update_of_ne hid _ _
  table pt1 hpt1 := by
    obtain rfl := Option.some.inj (hG.symm.trans hpt1)
    exact ⟨pt', update_self .., hroot, htop, hdir⟩
  priv := hpriv

theorem trans (h : Next img id G m' G' e) (h' : Next img id G' m'' G'' e) :
    Next img id G m'' G'' e where
  inv := h'.inv
  others id' hid := (h'.others id' hid).trans (h.others id' hid)
  table pt hpt := by
    obtain ⟨pt', hpt', hr', htop', hdir'⟩ := h.table pt hpt
    obtain ⟨pt'', hpt'', hr'', htop'', hdir''⟩ := h'.table pt' hpt'
    exact ⟨pt'', hpt'', hr''.trans hr', fun v hv => (htop'' v hv).trans (htop' v hv),
      fun i hi => hdir' i (hdir'' i hi)⟩
  priv := h.priv.trans h'.priv

end Next

/-- Every address space but `d` holds the same pages and shows the same. -/
structure SameMemory (d : ℕ) (m : Machine) (G : Tables) (m' : Machine) (G' : Tables) : Prop where
  pages : ∀ id, id ≠ d → ∀ x, owned G' (id, x) = owned G (id, x)
  shown : ∀ x, x.1 ≠ d → view m'.mem G' x = view m.mem G x

namespace SameMemory

variable {d : ℕ} {m m' m'' : Machine} {G G' G'' : Tables}

theorem refl (d : ℕ) (m : Machine) (G : Tables) : SameMemory d m G m G :=
  ⟨fun _ _ _ => rfl, fun _ _ => rfl⟩

theorem trans (h : SameMemory d m G m' G') (h' : SameMemory d m' G' m'' G'') :
    SameMemory d m G m'' G'' :=
  ⟨fun id hid x => (h'.pages id hid x).trans (h.pages id hid x),
    fun x hx => (h'.shown x hx).trans (h.shown x hx)⟩

theorem of_others (hG : ∀ id, id ≠ d → G' id = G id)
    (hv : ∀ x, x.1 ≠ d → view m'.mem G' x = view m.mem G x) : SameMemory d m G m' G' :=
  ⟨fun id hid x => by simp only [owned, hG id hid], hv⟩

end SameMemory

theorem SameMemory.of_view_update {d v : ℕ} {m m' : Machine} {G G' : Tables} {x : Option UserPage}
    (hG : ∀ id, id ≠ d → G' id = G id)
    (hv : view m'.mem G' = update (view m.mem G) (d, v) x) : SameMemory d m G m' G' :=
  .of_others hG fun y hy => by rw [hv, update_of_ne fun heq => hy (congrArg Prod.fst heq)]

theorem Next.sameMemory {img : KernelImage} {id : ℕ} {m m' : Machine} {G G' : Tables} {e : ℕ → ℕ}
    (h : Next img id G m' G' e) (hv : ∀ x, x.1 ≠ id → view m'.mem G' x = view m.mem G x) :
    SameMemory id m G m' G' := .of_others h.others hv

/-! ## Walking -/

section

variable {img : KernelImage} {id va p : ℕ} {m m1 : Machine} {G : Tables} {e : ℕ → ℕ}
  {pt : PageTable}

theorem walk_false_cases (h : VmInv img m G e) (hG : G id = some pt) (hva : va < maxva) :
    (pt.leaf (va / pgsize) = none ∧ walk (idx2pa pt.root) va false m = .ok (none, m)) ∨
    ∃ t, pt.dir (va / pgsize / 1024) = some t ∧
      walk (idx2pa pt.root) va false m = .ok (some (idx2pa t + 4 * (va / pgsize % 1024)), m) ∧
      rd32 m.mem (idx2pa t + 4 * (va / pgsize % 1024)) = leafEntry (pt.leaf (va / pgsize)) := by
  cases ht : pt.dir (va / pgsize / 1024) with
  | none => exact .inl ⟨PageTable.leaf_eq_none ht, walk_miss (h.represents id pt hG) hva ht⟩
  | some t =>
    exact .inr ⟨t, rfl, walk_find (h.represents id pt hG) hva ht false,
      (h.represents id pt hG).leafWord_vpn ht⟩

theorem walk_filter (h : VmInv img m G e) (hG : G id = some pt) (hva : va < maxva) :
    ∃ pte, walk (idx2pa pt.root) va false m = .ok (pte, m) ∧
      ((pt.leaf (va / pgsize) = none ∧
          (pte.filter fun pte => decide (rd32 m.mem pte &&& pteV ≠ 0)) = none) ∨
        ∃ t l, pt.dir (va / pgsize / 1024) = some t ∧ pt.leaf (va / pgsize) = some l ∧
          (pte.filter fun pte => decide (rd32 m.mem pte &&& pteV ≠ 0)) =
            some (idx2pa t + 4 * (va / pgsize % 1024)) ∧
          rd32 m.mem (idx2pa t + 4 * (va / pgsize % 1024)) = l.pte) := by
  rcases walk_false_cases h hG hva with ⟨hnone, hwalk⟩ | ⟨t, ht, hwalk, hword⟩
  · exact ⟨none, hwalk, .inl ⟨hnone, rfl⟩⟩
  · refine ⟨_, hwalk, ?_⟩
    cases hl : pt.leaf (va / pgsize) with
    | none =>
      refine .inl ⟨rfl, ?_⟩
      simp only [Option.filter, hword, hl, decide_eq_false leafEntry_none_valid]
      rfl
    | some l =>
      refine .inr ⟨t, l, ht, rfl, ?_, by rw [hword, hl]; rfl⟩
      simp only [Option.filter, hword, hl, decide_eq_true (leafEntry_some_valid l), if_true]

/-- After `walk` with `alloc`: at most a table was added. -/
structure Walked (img : KernelImage) (id : ℕ) (m : Machine) (G : Tables) (e : ℕ → ℕ)
    (pt : PageTable) (m' : Machine) (pt' : PageTable) : Prop where
  next : Next img id G m' (update G id (some pt')) e
  root : pt'.root = pt.root
  leaf : pt'.leaf = pt.leaf
  dir : ∀ i, pt'.dir i = none → pt.dir i = none
  view : view m'.mem (update G id (some pt')) = view m.mem G
  count : ∀ q, 1 ≤ m.kmem.refcnt q →
    Holders.count (owned (update G id (some pt'))) q = Holders.count (owned G) q
  bytes : ∀ q, 1 ≤ m.kmem.refcnt q → ¬ IsTable G q → pageBytes m.mem q = pageBytes m'.mem q

theorem Walked.refl (h : VmInv img m G e) (hG : G id = some pt) (hk : m1.kmem = m.kmem)
    (hmem : m1.mem = m.mem) : Walked img id m G e pt m1 pt := by
  have hG' : update G id (some pt) = G := by rw [← hG, update_eq_self]
  have hinv : VmInv img m1 G e := h.transport (hk ▸ h.alloc) (hk ▸ h.count) (hk ▸ h.tables) (S := ∅)
    (hmem ▸ SameOutside.refl _ _) fun q _ => Set.notMem_empty q
  refine ⟨?_, rfl, rfl, fun _ hi => hi, ?_, fun q _ => ?_, fun q _ _ => by rw [hmem]⟩
  · rw [hG']
    exact Next.refl hinv id
  · rw [hG', hmem]
  · rw [hG']

theorem userLeaf_of_leaf_eq {pt' : PageTable} (hG : G id = some pt) (hleaf : pt'.leaf = pt.leaf)
    {id' v : ℕ} {l : Leaf} :
    UserLeaf (update G id (some pt')) id' v l ↔ UserLeaf G id' v l := by
  unfold UserLeaf
  by_cases hid : id' = id
  · subst hid
    rw [update_self, hG]
    constructor
    · rintro ⟨hv, pt1, h1, hl⟩
      obtain rfl := Option.some.inj h1
      exact ⟨hv, pt, rfl, hleaf ▸ hl⟩
    · rintro ⟨hv, pt1, h1, hl⟩
      obtain rfl := Option.some.inj h1
      exact ⟨hv, pt', rfl, hleaf ▸ hl⟩
  · rw [update_of_ne hid]

/-- `walk` with `alloc` keeps the invariant and the view; it returns the entry's
address or runs out of memory. -/
theorem walk_true_spec (h : VmInv img m G e) (hG : G id = some pt) (hva : va < maxva) :
    Except.Sat (fun _ => False) (fun r => ∃ pt', Walked img id m G e pt r.2 pt' ∧
        ∀ a, r.1 = some a → ∃ t, pt'.dir (va / pgsize / 1024) = some t ∧
          a = idx2pa t + 4 * (va / pgsize % 1024))
      (walk (idx2pa pt.root) va true m) := by
  cases ht : pt.dir (va / pgsize / 1024) with
  | some t =>
    rw [walk_find (h.represents id pt hG) hva ht true]
    exact ⟨pt, Walked.refl h hG rfl rfl, fun a ha => ⟨t, ht, (Option.some.inj ha).symm⟩⟩
  | none =>
    rw [walk_alloc (h.represents id pt hG) hva ht]
    rcases h.kalloc with ⟨m1, hk, hinv, hmem⟩ | ⟨p, m1, hk, hinv, hc, he, hlt, hsame⟩
    · rw [hk]
      refine ⟨pt, ?_, fun a ha => nomatch ha⟩
      have hG' : update G id (some pt) = G := by rw [← hG, update_eq_self]
      refine ⟨?_, rfl, rfl, fun _ hi => hi, ?_, fun q _ => by rw [hG'], fun q _ _ => by rw [hmem]⟩
      · rw [hG']
        exact Next.refl hinv id
      · rw [hG', hmem]
    · rw [hk]
      -- the fresh page is zeroed, then entered in the root
      have hnt : ∀ q, IsTable G q → q ∉ ({p} : Set ℕ) := fun q hq heq =>
        hinv.not_table_of_hand (p := p) (by rw [update_self]) (heq ▸ hq)
      have hinv2 : VmInv img (m1.memset (idx2pa p) 0) G (update e p 1) :=
        hinv.withMem (SameOutside.memset m1.mem p 0) hnt
      have hzero : ∀ j < 1024, rd32 (m1.memset (idx2pa p) 0).mem (idx2pa p + 4 * j) = 0 :=
        fun j hj => rd32_memset_zero m1.mem (Nat.le_add_right _ _) (by rw [pgsize_eq]; omega)
      have hinv3 := hinv2.addTable hG (px_one_lt hva) hlt ht hc (update_self ..) hzero
      rw [update_idem, ← he, update_eq_self] at hinv3
      have hcount : ∀ q, Holders.count (owned (update G id
          (some (pt.addTable (va / pgsize / 1024) p (px_one_lt hva) hlt)))) q =
            Holders.count (owned G) q + if q = p then 1 else 0 := fun q => by
        rw [owned_addTable hG, Holders.count_fill h.bounded]
        simp [owned, hG, PageTable.page, ht]
      have hroot := hinv.not_table_of_hand (p := p) (by rw [update_self])
      have hsame3 : SameOutside {p, pt.root} m.mem
          ((m1.memset (idx2pa p) 0).wr32 (idx2pa pt.root + 4 * (va / pgsize / 1024))
            (pa2pte (idx2pa p) ||| pteV)).mem := by
        refine (hsame.mono fun q hq => .inl hq).trans (SameOutside.trans
          ((SameOutside.memset m1.mem p 0).mono fun q hq => .inl hq)
          ((SameOutside.wr32 _ pt.root _ (px_one_lt hva)).mono fun q hq => .inr hq))
      have hne : ∀ q, 1 ≤ m.kmem.refcnt q → q ≠ p := by
        rintro q hq rfl
        have := h.count q
        omega
      refine ⟨pt.addTable (va / pgsize / 1024) p (px_one_lt hva) hlt, ?_, fun a ha =>
        ⟨p, by simp [PageTable.addTable], (Option.some.inj ha).symm⟩⟩
      have hdir : ∀ i, (pt.addTable (va / pgsize / 1024) p (px_one_lt hva) hlt).dir i = none →
          pt.dir i = none := fun i hi => by
        by_cases hii : i = va / pgsize / 1024
        · rw [hii, ht]
        · exact (update_of_ne hii _ _).symm.trans hi
      refine ⟨Next.of_update hinv3 hG rfl (fun _ _ => rfl) hdir ?_, rfl, rfl, hdir, ?_,
        fun q hq => ?_, fun q hq hq' => hsame3 q ?_⟩
      · intro id' v l' hl'
        have hleaf : (pt.addTable (va / pgsize / 1024) p (px_one_lt hva) hlt).leaf = pt.leaf := rfl
        have hold := (userLeaf_of_leaf_eq hG hleaf).mp hl'
        refine .inl ⟨l', hold, rfl, ?_, fun hcow => hcow⟩
        rw [hcount, if_neg (h.leaf_ne hc hold)]
        exact Nat.le_refl _
      · refine view_congr (fun id' v _ => ?_) fun id' v l hl => hsame3 _ ?_
        · by_cases hid : id' = id
          · rw [hid, update_self, hG]
            rfl
          · rw [update_of_ne hid]
        · rintro (heq | heq)
          · exact h.leaf_ne hc hl heq
          · exact h.leaf_not_table hl (heq ▸ ⟨id, pt, hG, .inl rfl⟩)
      · rw [hcount, if_neg (hne q hq)]
        rfl
      · rintro (heq | heq)
        · exact hne q hq heq
        · exact hq' (heq ▸ ⟨id, pt, hG, .inl rfl⟩)

/-! ## Mapping one page -/

theorem mappages_page (pagetable pa perm : ℕ) (halign : va % pgsize = 0) :
    mappages pagetable va pgsize pa perm m =
      (walk pagetable va true m >>= fun r =>
        match r with
        | (none, m) => .ok (false, m)
        | (some pte, m) =>
          if rd32 m.mem pte &&& pteV ≠ 0 then .error .mappagesRemap
          else .ok (true, m.wr32 pte (pa2pte pa ||| perm ||| pteV))) := by
  rw [mappages, if_neg (not_not.mpr halign), if_neg (by decide), if_neg (by decide)]
  rfl

/-- The outcome of mapping the page `p`, in hand, at `v`: it is mapped and no
longer in hand, or memory ran out and only tables were added. -/
structure Mapped (img : KernelImage) (id v p : ℕ) (l : Leaf) (m : Machine) (G : Tables)
    (e : ℕ → ℕ) (pt : PageTable) (m' : Machine) (pt' : PageTable) : Prop where
  inv : VmInv img m' (update G id (some pt')) (update e p (e p - 1))
  root : pt'.root = pt.root
  leaf : pt'.leaf = update pt.leaf v (some l)
  dir : ∀ i, pt'.dir i = none → pt.dir i = none
  view : view m'.mem (update G id (some pt')) = update (view m.mem G) (id, v)
    (some ⟨pageBytes m.mem p, eagerFlags l.flags⟩)
  empty : pt.leaf v = none
  count : ∀ q, 1 ≤ m.kmem.refcnt q → Holders.count (owned (update G id (some pt'))) q =
    Holders.count (owned G) q + if q = p then 1 else 0

theorem Mapped.userLeaf {v : ℕ} {l l' : Leaf} {pt' : PageTable} {m' : Machine}
    (h : Mapped img id v p l m G e pt m' pt') (hG : G id = some pt) {id' v' : ℕ}
    (hl' : UserLeaf (update G id (some pt')) id' v' l') :
    (id' = id ∧ v' = v ∧ l' = l) ∨ UserLeaf G id' v' l' := by
  obtain ⟨hv', pt1, hpt1, hl'⟩ := hl'
  by_cases hid : id' = id
  · subst hid
    rw [update_self] at hpt1
    obtain rfl := Option.some.inj hpt1
    rw [h.leaf] at hl'
    by_cases hvv : v' = v
    · rw [hvv, update_self] at hl'
      exact .inl ⟨rfl, hvv, (Option.some.inj hl').symm⟩
    · rw [update_of_ne hvv] at hl'
      exact .inr ⟨hv', pt, hG, hl'⟩
  · rw [update_of_ne hid] at hpt1
    exact .inr ⟨hv', pt1, hpt1, hl'⟩

theorem mappages_spec (va perm : ℕ) {l : Leaf} (h : VmInv img m G e) (hG : G id = some pt)
    (halign : va % pgsize = 0) (hv : va / pgsize < userVpns) (hl : l.pa = idx2pa p)
    (hflags : l.flags = perm ||| pteV) (hp : 1 ≤ e p)
    (hread : l.flags.testBit 1 = true)
    (hsole : l.flags.testBit 2 = true →
      l.flags.testBit 8 = false ∧ Holders.count (owned G) p = 0)
    (hshare : ∀ id' v' l', UserLeaf G id' v' l' → pa2idx l'.pa = p →
      v' = va / pgsize ∧ l'.flags.testBit 2 = false) :
    Except.Sat (fun err => err = .mappagesRemap ∧ pt.leaf (va / pgsize) ≠ none) (fun r => ∃ pt',
        if r.1 then Mapped img id (va / pgsize) p l m G e pt r.2 pt'
        else Walked img id m G e pt r.2 pt')
      (mappages (idx2pa pt.root) va pgsize (idx2pa p) perm m) := by
  have hva : va < maxva := by
    rw [userVpns_eq, pgsize_eq] at hv
    rw [maxva_eq]
    omega
  rw [mappages_page _ _ _ halign]
  refine ((walk_true_spec h hG hva).mono (fun _ hf => hf.elim) (fun _ hr => hr)).bind ?_
  rintro ⟨_ | pte, m1⟩ ⟨pt1, hw, hpte⟩
  · exact ⟨pt1, hw⟩
  · obtain ⟨t, ht, rfl⟩ := hpte pte rfl
    have hG1 : update G id (some pt1) id = some pt1 := update_self ..
    have hword := (hw.next.inv.represents id pt1 hG1).leafWord_vpn ht
    show Except.Sat _ _ (if rd32 m1.mem _ &&& pteV ≠ 0 then _ else _)
    rw [hword]
    cases hnone : pt1.leaf (va / pgsize) with
    | some l' =>
      rw [if_pos (leafEntry_some_valid l')]
      exact Except.Sat.error ⟨rfl, by rw [← hw.leaf, hnone]; exact Option.some_ne_none l'⟩
    | none =>
      rw [if_neg leafEntry_none_valid]
      have hrefs : 1 ≤ m.kmem.refcnt p := by
        have := h.count p
        omega
      have hcp := hw.count p hrefs
      have hinv := hw.next.inv.mapLeaf hG1 ht hv hnone hl hp hread
        (fun hww => ⟨(hsole hww).1, hcp.trans (hsole hww).2⟩)
        fun id' v' l' hl' => hshare id' v' l' ((userLeaf_of_leaf_eq hG hw.leaf).mp hl')
      have hpage : pageBytes m.mem p = pageBytes m1.mem p :=
        hw.bytes p hrefs (h.not_table_of_hand hp)
      rw [update_idem] at hinv
      rw [show pa2pte (idx2pa p) ||| perm ||| pteV = l.pte by
        rw [Nat.or_assoc, ← hl]; exact congrArg (pa2pte l.pa ||| ·) hflags.symm]
      refine ⟨_, ⟨hinv, hw.root, ?_, hw.dir, ?_, hw.leaf ▸ hnone, fun q hq => ?_⟩⟩
      · show update pt1.leaf _ _ = _
        rw [hw.leaf]
      · have hview := view_setLeaf m1.mem hG1 (va / pgsize) (some l) ⟨t, ht⟩
        rw [update_idem, if_pos hv, Option.map_some, hw.view] at hview
        have hl1 : l.userPage m1.mem = ⟨pageBytes m.mem p, eagerFlags l.flags⟩ := by
          rw [Leaf.userPage, hl, pa2idx_idx2pa, hpage]
        rw [← hl1, ← hview]
        -- the write goes to a table, which no entry maps
        refine view_of_same (SameOutside.wr32 m1.mem t _ (Nat.mod_lt _ (by decide)))
          fun id' v' l' hl' heq => ?_
        refine hinv.leaf_not_table hl' ?_
        rw [show pa2idx l'.pa = t from heq]
        exact ⟨id, _, update_self .., .inr ⟨_, ht⟩⟩
      · have hfill := Holders.count_fill hw.next.inv.bounded (i := (id, Slot.leaf (va / pgsize)))
          (by simp [owned, PageTable.page, hnone]) p q
        have hown := owned_setLeaf hG1 (va / pgsize) (some l) ⟨t, ht⟩
        rw [update_idem, if_pos hv, Option.map_some, hl, pa2idx_idx2pa] at hown
        rw [hown, hfill, hw.count q hq]

/-! ## Fresh pages -/

/-- The permissions the kernel maps fresh pages with: readable, and not
copy-on-write. -/
structure FreshPerm (perm : ℕ) : Prop where
  lt : perm < 2 ^ 10
  readable : perm.testBit 1 = true
  cow : perm.testBit 8 = false

/-- The entry `mappages` writes for the page `p`. -/
def freshLeaf (p perm : ℕ) (hp : p < npages) (hperm : FreshPerm perm) : Leaf where
  pa := idx2pa p
  flags := perm ||| pteV
  aligned := (tableLeaf p hp).aligned
  pa_lt := (tableLeaf p hp).pa_lt
  flags_lt := Nat.or_lt_two_pow hperm.lt (by decide)
  valid := by
    rw [Nat.testBit_or, Bool.or_eq_true]
    exact .inr (by decide)

theorem FreshPerm.flags_readable {perm : ℕ} (h : FreshPerm perm) :
    (perm ||| pteV).testBit 1 = true := by
  rw [Nat.testBit_or, h.readable, Bool.true_or]

theorem FreshPerm.flags_cow {perm : ℕ} (h : FreshPerm perm) :
    (perm ||| pteV).testBit 8 = false := by
  rw [Nat.testBit_or, h.cow]
  decide

theorem FreshPerm.eagerFlags_eq {perm : ℕ} (h : FreshPerm perm) :
    eagerFlags (perm ||| pteV) = perm ||| pteV := by
  rw [eagerFlags, h.flags_cow]
  rfl

theorem pageBytes_memset (mem : Mem) (p : ℕ) (c : UInt8) :
    pageBytes (memset mem (idx2pa p) c pgsize) p = fun off => if off < pgsize then c else 0 := by
  funext off
  unfold pageBytes
  split_ifs with hoff
  · exact if_pos ⟨Nat.le_add_right _ _, Nat.add_lt_add_left hoff _⟩
  · rfl

theorem pageBytes_zero (mem : Mem) (p : ℕ) :
    pageBytes (memset mem (idx2pa p) 0 pgsize) p = fun _ => 0 := by
  rw [pageBytes_memset]
  funext off
  exact ite_self _

theorem hand_back (he : e p = 0) :
    update (update e p 1) p (update e p 1 p - 1) = e := by
  rw [update_self, update_idem]
  exact update_eq_iff.mpr ⟨he.symm, fun _ _ => rfl⟩

theorem kfree_hand (h : VmInv img m G (update e p 1)) (he : e p = 0)
    (hc : Holders.count (owned G) p = 0) :
    ∃ m', m.kfree img (idx2pa p) = .ok m' ∧ VmInv img m' G e ∧ view m'.mem G = view m.mem G := by
  obtain ⟨m', hk, hinv, hsame⟩ := h.kfree (p := p) (by rw [update_self])
  rw [hand_back he] at hinv
  exact ⟨m', hk, hinv, view_of_same hsame fun id v l hl heq => h.leaf_ne hc hl heq.1⟩

/-- Zeroing a fresh page and mapping it, or giving it back. -/
theorem mapFresh_spec {perm : ℕ} (h : VmInv img m G (update e p 1)) (he : e p = 0)
    (hc : Holders.count (owned G) p = 0) (hlt : p < npages) (hG : G id = some pt)
    (halign : va % pgsize = 0) (hv : va / pgsize < userVpns) (hperm : FreshPerm perm) :
    Except.Sat (fun err => err = .mappagesRemap ∧ pt.leaf (va / pgsize) ≠ none) (fun r =>
        if r.1 then ∃ pt', Next img id G r.2 (update G id (some pt')) e ∧
          view r.2.mem (update G id (some pt')) =
            update (view m.mem G) (id, va / pgsize) (some ⟨fun _ => 0, perm ||| pteV⟩) ∧
          pt.leaf (va / pgsize) = none ∧
          userLeaves (update G id (some pt')) =
            update (userLeaves G) (id, va / pgsize) (some (freshLeaf p perm hlt hperm))
        else ∃ m2 G', r.2.kfree img (idx2pa p) = .ok m2 ∧ Next img id G m2 G' e ∧
          view m2.mem G' = view m.mem G ∧ userLeaves G' = userLeaves G)
      (mappages (idx2pa pt.root) va pgsize (idx2pa p) perm (m.memset (idx2pa p) 0)) := by
  have hhand : 1 ≤ update e p 1 p := by rw [update_self]
  have hinv : VmInv img (m.memset (idx2pa p) 0) G (update e p 1) :=
    h.withMem (SameOutside.memset m.mem p 0) fun q hq heq => h.not_table_of_hand hhand (heq ▸ hq)
  have hview : view (m.memset (idx2pa p) 0).mem G = view m.mem G :=
    view_of_same (SameOutside.memset m.mem p 0) fun _ _ _ hl heq => h.leaf_ne hc hl heq
  have hnoleaf : ∀ {id' v' l'}, UserLeaf G id' v' l' → pa2idx l'.pa ≠ p :=
    fun hl => h.leaf_ne hc hl
  refine (mappages_spec va perm (l := freshLeaf p perm hlt hperm) hinv hG halign hv rfl rfl hhand
    hperm.flags_readable (fun _ => ⟨hperm.flags_cow, hc⟩)
    fun id' v' l' hl' heq => absurd heq (hnoleaf hl')).post ?_
  rintro ⟨_ | _, m'⟩ ⟨pt', hr⟩
  · have hr : Walked img id _ G _ pt m' pt' := hr
    have hpos : 1 ≤ (m.memset (idx2pa p) 0).kmem.refcnt p := by
      have := hinv.count p
      omega
    have hc' := (hr.count p hpos).trans hc
    obtain ⟨m2, hk, hinv2, hview2⟩ := kfree_hand hr.next.inv he hc'
    refine ⟨m2, _, hk, ⟨hinv2, hr.next.others, hr.next.table, hr.next.priv.put_down⟩, ?_,
      userLeaves_of_leaf_eq hG hr.leaf⟩
    rw [hview2, hr.view, hview]
  · have hr : Mapped img id _ p _ _ G _ pt m' pt' := hr
    have hinv' := hr.inv
    rw [hand_back he] at hinv'
    refine ⟨pt', Next.of_update hinv' hG hr.root (fun v hv' => ?_) hr.dir ?_, ?_, hr.empty,
      userLeaves_update hG hr.leaf hv⟩
    · rw [hr.leaf, update_of_ne (fun heq : v = va / pgsize => hv' (heq ▸ hv))]
    · intro id' v' l' hl'
      rcases hr.userLeaf hG hl' with ⟨rfl, rfl, rfl⟩ | hold
      · have hpos : 1 ≤ (m.memset (idx2pa p) 0).kmem.refcnt p := by
          have := hinv.count p
          omega
        rw [show pa2idx (freshLeaf p perm hlt hperm).pa = p from pa2idx_idx2pa p]
        refine .inr ⟨?_, hperm.flags_cow, he⟩
        rw [hr.count p hpos, hc, if_pos rfl]
      · refine .inl ⟨l', hold, rfl, ?_, fun hcow => hcow⟩
        rw [hr.count _ (hinv.owned_pos hold.owned_eq), if_neg (hnoleaf hold)]
        exact Nat.le_refl _
    · rw [hr.view, hview]
      congr 2
      exact congrArg₂ UserPage.mk (pageBytes_zero m.mem p) hperm.eagerFlags_eq

/-! ## Unmapping -/

theorem clearLeaf (h : VmInv img m G e) (hG : G id = some pt) {v t : ℕ}
    (ht : pt.dir (v / 1024) = some t) (hv : v < userVpns) {l : Leaf} (hl : pt.leaf v = some l) :
    ∃ m1, m.kfree img l.pa = .ok m1 ∧
      Next img id G (m1.wr32 (idx2pa t + 4 * (v % 1024)) 0)
        (update G id (some (pt.setLeaf v none ⟨t, ht⟩))) e ∧
      view (m1.wr32 (idx2pa t + 4 * (v % 1024)) 0).mem
          (update G id (some (pt.setLeaf v none ⟨t, ht⟩))) =
        update (view m.mem G) (id, v) none := by
  have hul : UserLeaf G id v l := ⟨hv, pt, hG, hl⟩
  have hmod : v % 1024 < 1024 := Nat.mod_lt v (by decide)
  have htab : IsTable G t := ⟨id, pt, hG, .inr ⟨_, ht⟩⟩
  have hne : pa2idx l.pa ≠ t := fun heq => h.leaf_not_table hul (heq ▸ htab)
  have hinv := h.unmapLeaf hG ht hv hl
  obtain ⟨m2, hk, hinv2, hsame⟩ := hinv.kfree (p := pa2idx l.pa) (by rw [update_self]; omega)
  -- the source frees the page before it clears the entry
  rw [Machine.kfree_wr32 hne hmod, h.leaf_pa hul] at hk
  obtain ⟨m1, hk1, hm2⟩ := Except.bind_eq_ok.mp hk
  obtain rfl := Except.ok.inj hm2
  rw [update_self, update_idem, Nat.add_sub_cancel, update_eq_self]
    at hinv2
  have hview : view (m.wr32 (idx2pa t + 4 * (v % 1024)) 0).mem
      (update G id (some (pt.setLeaf v none ⟨t, ht⟩))) =
        update (view m.mem G) (id, v) none := by
    have hset := view_setLeaf m.mem hG v none ⟨t, ht⟩
    rw [if_pos hv, Option.map_none] at hset
    rw [← hset]
    refine view_of_same (SameOutside.wr32 m.mem t _ hmod) fun id' v' l' hl' heq => ?_
    rcases userLeaf_setLeaf hG hl' with ⟨-, -, hx⟩ | ⟨-, hold⟩
    · cases hx
    · refine h.leaf_not_table hold ?_
      rw [show pa2idx l'.pa = t from heq]
      exact htab
  have hdrop : ∀ q, Holders.count
      (owned (update G id (some (pt.setLeaf v none ⟨t, ht⟩)))) q +
        (if q = pa2idx l.pa then 1 else 0) = Holders.count (owned G) q := fun q => by
    rw [owned_setLeaf hG, if_pos hv, Option.map_none, Holders.count_drop h.bounded hul.owned_eq]
  refine ⟨m1, hk1, Next.of_update hinv2 hG rfl (fun v' hv' => ?_) (fun _ hi => hi)
    fun id' v' l' hl' => ?_, ?_⟩
  · exact update_of_ne (fun heq : v' = v => hv' (heq ▸ hv)) _ _
  · rcases userLeaf_setLeaf hG hl' with ⟨-, -, hx⟩ | ⟨-, hold⟩
    · cases hx
    · refine .inl ⟨l', hold, rfl, ?_, fun hcow => hcow⟩
      have := hdrop (pa2idx l'.pa)
      omega
  · rw [← hview]
    exact view_of_same hsame fun id' v' l' hl' heq => hinv.leaf_ne heq.2 hl' heq.1

theorem uvmunmapPage_spec (h : VmInv img m G e) (hG : G id = some pt)
    (hv : va / pgsize < userVpns) :
    ∃ m' pt', uvmunmapPage img (idx2pa pt.root) true va m = .ok m' ∧
      Next img id G m' (update G id (some pt')) e ∧ pt'.root = pt.root ∧
      view m'.mem (update G id (some pt')) =
        update (view m.mem G) (id, va / pgsize) none ∧
      userLeaves (update G id (some pt')) =
        update (userLeaves G) (id, va / pgsize) none := by
  have hva : va < maxva := by
    rw [userVpns_eq, pgsize_eq] at hv
    rw [maxva_eq]
    omega
  have hG' : update G id (some pt) = G := by rw [← hG, update_eq_self]
  -- an entry that is not there is left alone
  have hnoop : pt.leaf (va / pgsize) = none → Next img id G m (update G id (some pt)) e ∧
      pt.root = pt.root ∧ view m.mem (update G id (some pt)) =
        update (view m.mem G) (id, va / pgsize) none ∧
      userLeaves (update G id (some pt)) =
        update (userLeaves G) (id, va / pgsize) none := fun hnone => by
    have hv' : view m.mem G (id, va / pgsize) = none := by simp [view, hG, hnone]
    refine ⟨hG'.symm ▸ Next.refl h id, rfl, ?_, userLeaves_update hG ?_ hv⟩
    · rw [hG', ← hv', update_eq_self]
    · rw [← hnone, update_eq_self]
  rcases walk_false_cases h hG hva with ⟨hnone, hwalk⟩ | ⟨t, ht, hwalk, hword⟩
  · refine ⟨m, pt, ?_, hnoop hnone⟩
    rw [uvmunmapPage, hwalk]
    rfl
  · cases hl : pt.leaf (va / pgsize) with
    | none =>
      refine ⟨m, pt, ?_, hnoop hl⟩
      rw [uvmunmapPage, hwalk, Except.ok_bind]
      dsimp only
      rw [hword, hl]
      rfl
    | some l =>
      obtain ⟨m1, hk, hnext, hview⟩ := clearLeaf h hG ht hv hl
      refine ⟨_, _, ?_, hnext, rfl, hview, userLeaves_update hG rfl hv⟩
      rw [uvmunmapPage, hwalk, Except.ok_bind]
      dsimp only
      rw [hword, hl, if_neg (leafEntry_some_valid l), if_pos rfl,
        show pte2pa (leafEntry (some l)) = l.pa from l.pte2pa_pte, hk]
      rfl

end

end YHsys.Kernel
