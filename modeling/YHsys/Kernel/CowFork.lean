import YHsys.Kernel.Eager

/-!
# Copy-on-write fork is an eager copy

Every operation of a process does on the kernel's memory what it does on the machine
without copy-on-write (`Eager.lean`), with one exception: `vmfault` resolves a fault
on a shared page without looking at `PTE_U`, so after a `fork` a `copyout` may write
to a page that is not the user's, the guard page below the stack. `cow_fork_eager`
says that a run is followed by the machine without copy-on-write exactly when no
`copyout` of the run does so.
-/

namespace YHsys.Kernel

open Option (any_eq_true bind_eq_some_iff bind_some map_eq_some_iff map_some none_or some_or)

open Function (update update_eq_self update_idem update_of_ne update_self)

/-! ## Bytes and flags -/

theorem pageBytes_storeBytes (mem : Mem) (p : ℕ) {off : ℕ} {bs : List UInt8}
    (h : off + bs.length ≤ pgsize) :
    pageBytes (storeBytes mem (idx2pa p + off) bs) p = storePage (pageBytes mem p) off bs := by
  funext x
  unfold pageBytes storePage storeBytes
  by_cases hx : x < pgsize
  · simp only [if_pos hx]
    by_cases hoff : off ≤ x
    · rw [if_pos hoff, if_pos (by omega), show idx2pa p + x - (idx2pa p + off) = x - off by omega]
    · rw [if_neg hoff, if_neg (by omega)]
  · simp only [if_neg hx]
    rw [List.getElem?_eq_none (by omega), Option.getD_none, ite_self]

theorem eagerFlags_testBit {fl i : ℕ} (h2 : i ≠ 2) (h8 : i ≠ 8) (hi : i < 32) :
    (eagerFlags fl).testBit i = fl.testBit i := by
  unfold eagerFlags
  split_ifs
  · rw [Nat.testBit_and, Nat.testBit_or, testBit_not32 (by decide), pteW, pteCOW, Nat.one_shiftLeft,
      Nat.one_shiftLeft, Nat.testBit_two_pow, Nat.testBit_two_pow, decide_eq_false (Ne.symm h2),
      decide_eq_false (Ne.symm h8), decide_eq_true hi]
    simp
  · rfl

section

variable {img : KernelImage} {id v p : ℕ} {m m' : Machine} {G G1 : Tables} {e : ℕ → ℕ}
  {pt : PageTable} {as : AddrSpace} {l : Leaf}

theorem UserLeaf.view_eq (hl : UserLeaf G id v l) (mem : Mem) :
    view mem G (id, v) = some (l.userPage mem) := by
  obtain ⟨hv, pt, hG, hlv⟩ := hl
  simp [view, hv, hG, hlv]

theorem view_eq_some {mem : Mem} {pg : UserPage} (h : view mem G (id, v) = some pg) :
    ∃ l, UserLeaf G id v l ∧ l.userPage mem = pg := by
  unfold view at h
  split_ifs at h with hv
  obtain ⟨l, hl, hpg⟩ := map_eq_some_iff.mp h
  obtain ⟨pt, hG, hl⟩ := bind_eq_some_iff.mp hl
  exact ⟨l, ⟨hv, pt, hG, hl⟩, hpg⟩

theorem VmInv.userLeaf_of_user (h : VmInv img m G e) (hG : G id = some pt)
    (hl : pt.leaf v = some l) (huser : l.flags.testBit 4 = true) : UserLeaf G id v l := by
  refine ⟨?_, pt, hG, hl⟩
  by_contra hv
  rw [h.top id pt _ l hG hv hl] at huser
  cases huser

theorem UserLeaf.inj {l' : Leaf} (h : UserLeaf G id v l) (h' : UserLeaf G id v l') : l = l' := by
  obtain ⟨-, pt, hG, hl⟩ := h
  obtain ⟨-, pt', hG', hl'⟩ := h'
  obtain rfl := Option.some.inj (hG.symm.trans hG')
  exact Option.some.inj (hl.symm.trans hl')

theorem VmInv.leaf_pa_ne_zero (h : VmInv img m G e) (hl : UserLeaf G id v l) : l.pa ≠ 0 := by
  rw [← h.leaf_pa hl]
  exact idx2pa_ne_zero _

theorem storeLeaf_spec {off : ℕ} {bs : List UInt8} (h : VmInv img m G e) (hl : UserLeaf G id v l)
    (hw : l.flags.testBit 2 = true) (hlen : off + bs.length ≤ pgsize) :
    VmInv img (m.storeBytes (l.pa + off) bs) G e ∧
      view (m.storeBytes (l.pa + off) bs).mem G = update (view m.mem G) (id, v)
        (some ⟨storePage (l.userPage m.mem).data off bs, l.flags⟩) := by
  obtain ⟨hcow, hone⟩ := (h.leaves id v l hl).sole hw
  have hsame := SameOutside.storeBytes m.mem (pa2idx l.pa) hlen
  have hbytes := pageBytes_storeBytes m.mem (pa2idx l.pa) hlen
  rw [h.leaf_pa hl] at hsame hbytes
  refine ⟨h.withMem hsame fun q hq heq => h.leaf_not_table hl (heq ▸ hq), ?_⟩
  funext ⟨id', v'⟩
  by_cases hx : (id', v') = (id, v)
  · obtain ⟨rfl, rfl⟩ := Prod.mk.inj hx
    rw [update_self, hl.view_eq, Leaf.userPage, eagerFlags_of_not_cow hcow]
    exact congrArg (fun data => some (UserPage.mk data l.flags)) hbytes
  · rw [update_of_ne hx]
    -- no other entry maps the page
    have hother : ∀ l', UserLeaf G id' v' l' → pa2idx l'.pa ≠ pa2idx l.pa := fun l' hl' heq => by
      have hown : owned G (id', .leaf v') = some (pa2idx l.pa) := by
        rw [← heq]
        exact hl'.owned_eq
      have := Holders.eq_of_count_le_one h.bounded hone.le hown hl.owned_eq
      exact hx (by rw [(Prod.mk.inj this).1, Slot.leaf.inj (Prod.mk.inj this).2])
    cases hview : view m.mem G (id', v') with
    | none =>
      cases hview' : view (m.storeBytes (l.pa + off) bs).mem G (id', v') with
      | none => rfl
      | some pg =>
        obtain ⟨l', hl', -⟩ := view_eq_some hview'
        rw [hl'.view_eq] at hview
        cases hview
    | some pg =>
      obtain ⟨l', hl', rfl⟩ := view_eq_some hview
      rw [hl'.view_eq]
      exact congrArg (fun data => some (UserPage.mk data (eagerFlags l'.flags)))
        (hsame _ (hother l' hl')).symm

/-! ## Reaching a page -/

/-- From `m`, `G` to `m'`, `G'` by faults that left the page at `va` mapped by `l`: the
process sees the page it saw before, or the page of zeros of its heap. -/
structure Reached (img : KernelImage) (as : AddrSpace) (id va : ℕ) (m : Machine) (G : Tables)
    (e : ℕ → ℕ) (l : Leaf) (m' : Machine) (G' : Tables) : Prop where
  next : Next img id G m' G' e
  leaf : UserLeaf G' id (va / pgsize) l
  view : view m'.mem G' =
    update (view m.mem G) (id, va / pgsize) (some (l.userPage m'.mem))
  page : pageAt as.regions (Kernel.view m.mem G) id va = some (l.userPage m'.mem)

namespace Reached

variable {va : ℕ} {m1 m2 : Machine} {G2 : Tables} {l1 l2 : Leaf}

theorem refl (h : VmInv img m G e) (hl : UserLeaf G id (va / pgsize) l) :
    Reached img as id va m G e l m G where
  next := Next.refl h id
  leaf := hl
  view := by rw [← hl.view_eq, update_eq_self]
  page := by rw [pageAt, hl.view_eq, some_or]

theorem trans (h1 : Reached img as id va m G e l1 m1 G1) (h2 : Reached img as id va m1 G1 e l2 m2 G2) :
    Reached img as id va m G e l2 m2 G2 where
  next := h1.next.trans h2.next
  leaf := h2.leaf
  view := by rw [h2.view, h1.view, update_idem]
  page := by
    have h := h2.page
    rw [pageAt, h1.view, update_self, some_or] at h
    rw [h1.page, h]

theorem of_resolved {read : Bool} {pa : ℕ} (hn : Next img id G m1 G1 e)
    (hr : Resolved as id va read m G pa m1 G1) :
    ∃ l, Reached img as id va m G e l m1 G1 ∧ pa = l.pa ∧ l.flags.testBit 8 = false := by
  obtain ⟨l, hl, hpa, hcow⟩ := hr.leaf
  refine ⟨l, ⟨hn, hl, ?_, ?_⟩, hpa, hcow⟩
  · rcases hr.view with ⟨-, hview, -⟩ | ⟨-, r, -, -, hview⟩
    · rw [← hview, ← hl.view_eq, update_eq_self]
    · have := hl.view_eq m1.mem
      rw [hview, update_self] at this
      rw [hview, this]
  · have hpage := hl.view_eq m1.mem
    rcases hr.view with ⟨-, hview, -⟩ | ⟨hnone, r, hfind, htype, hview⟩
    · rw [hview] at hpage
      rw [pageAt, hpage, some_or]
    · rw [hview, update_self] at hpage
      rw [pageAt, hnone, none_or, heapPage, ← hpage,
        if_pos (show va < heapEnd (ofRegions as.regions) from hr.below),
        show asFindRegion (ofRegions as.regions) (pgrounddown va) = some r from hfind,
        bind_some, if_pos htype]

end Reached

theorem need_bit (l : Leaf) (write : Bool) :
    l.pte &&& (if write then pteW else pteR) ≠ 0 ↔
      l.flags.testBit (if write then 2 else 1) = true := by
  cases write
  · exact (and_shift_ne_zero _ _).trans (by rw [l.testBit_pte (by decide)]; rfl)
  · exact (and_shift_ne_zero _ _).trans (by rw [l.testBit_pte (by decide)]; rfl)

theorem translate_eq_some {va need pa : ℕ} (h : VmInv img m G e) (hr : Rooted G id as)
    (hva : va < 2 ^ 32) (ht : translate m.mem as.pagetable va need = some pa) :
    ∃ l, UserLeaf G id (va / pgsize) l ∧ pa = l.pa + va % pgsize ∧ l.flags.testBit 4 = true ∧
      l.pte &&& need ≠ 0 := by
  obtain ⟨pt, hG, has⟩ := hr
  have hi : va / pgsize / 1024 < 1024 := by
    rw [pgsize_eq]
    omega
  unfold translate at ht
  rw [has, (h.represents id pt hG).leafPte_eq hi] at ht
  obtain ⟨pte, hpte, ht⟩ := bind_eq_some_iff.mp ht
  obtain ⟨l, hl, rfl⟩ := map_eq_some_iff.mp hpte
  split_ifs at ht with hperm
  have hpa := Option.some.inj ht
  rw [l.pte2pa_pte] at hpa
  have huser : l.flags.testBit 4 = true := by
    rw [← l.testBit_pte (by decide)]
    exact (and_shift_ne_zero _ _).mp hperm.1
  exact ⟨l, h.userLeaf_of_user hG hl huser, hpa.symm, huser, hperm.2⟩

theorem access_spec {va pa : ℕ} {write : Bool} (ha : Access img as va write m pa m')
    (h : VmInv img m G e) (hr : Rooted G id as) (hok : RegionsOk as) (hva : va < 2 ^ 32) :
    ∃ G' l, Reached img as id va m G e l m' G' ∧ pa = l.pa + va % pgsize ∧
      l.flags.testBit 4 = true ∧ l.flags.testBit (if write then 2 else 1) = true := by
  induction ha generalizing G with
  | hit ht =>
    obtain ⟨l, hl, hpa, huser, hneed⟩ := translate_eq_some h hr hva ht
    exact ⟨G, l, .refl h hl, hpa, huser, (need_bit l write).mp hneed⟩
  | fault _ hf hne _ ih =>
    obtain ⟨G1, hn, -, hres⟩ := (vmfault_spec h hr hok).of_eq_ok hf
    obtain ⟨l1, hreach1, -, -⟩ := Reached.of_resolved hn (hres hne)
    obtain ⟨G2, l, hreach2, hrest⟩ := ih hn.inv (hr.next hn)
    exact ⟨G2, l, hreach1.trans hreach2, hrest⟩

/-! ## Loads and stores -/

theorem flags_user (l : Leaf) (mem : Mem) :
    (l.userPage mem).flags &&& pteU ≠ 0 ↔ l.flags.testBit 4 = true := by
  rw [pteU, and_shift_ne_zero, Leaf.userPage, eagerFlags_testBit (by decide) (by decide) (by decide)]

theorem load_spec {va : ℕ} (hreach : Reached img as id va m G e l m' G1)
    (huser : l.flags.testBit 4 = true) (hread : l.flags.testBit 1 = true) :
    eagerLoad as.regions (view m.mem G) id va (m'.mem (l.pa + va % pgsize)) =
      some (view m'.mem G1) := by
  have hoff : va % pgsize < pgsize := Nat.mod_lt va (by decide)
  have hbyte : (l.userPage m'.mem).data (va % pgsize) = m'.mem (l.pa + va % pgsize) := by
    show pageBytes m'.mem (pa2idx l.pa) (va % pgsize) = _
    rw [pageBytes_apply _ _ hoff, hreach.next.inv.leaf_pa hreach.leaf]
  have hflag : (l.userPage m'.mem).flags &&& pteR ≠ 0 := by
    rw [pteR, and_shift_ne_zero, Leaf.userPage,
      eagerFlags_testBit (by decide) (by decide) (by decide), hread]
  rw [eagerLoad, touch, hreach.page, bind_some, if_pos ⟨(flags_user l _).mpr huser, hflag⟩,
    bind_some, if_pos hbyte, hreach.view]

theorem store_spec {va off : ℕ} {bs : List UInt8} (hreach : Reached img as id va m G e l m' G1)
    (hw : l.flags.testBit 2 = true) (hlen : off + bs.length ≤ pgsize) :
    Next img id G (m'.storeBytes (l.pa + off) bs) G1 e ∧
      eagerStore as.regions (view m.mem G) id va off bs =
        if l.flags.testBit 4 then some (view (m'.storeBytes (l.pa + off) bs).mem G1) else none := by
  have hn := hreach.next
  obtain ⟨hinv, hview⟩ := storeLeaf_spec hn.inv hreach.leaf hw hlen
  have hfl : (l.userPage m'.mem).flags = l.flags :=
    eagerFlags_of_not_cow ((hn.inv.leaves _ _ l hreach.leaf).sole hw).1
  have hwrite : (l.userPage m'.mem).flags &&& pteW ≠ 0 := by
    rw [hfl, pteW, and_shift_ne_zero, hw]
  refine ⟨⟨hinv, hn.others, hn.table, hn.priv⟩, ?_⟩
  rw [eagerStore, touch, hreach.page, bind_some]
  split_ifs with hperm huser huser
  · rw [map_some, hview, hreach.view, update_idem, hfl]
  · exact absurd ((flags_user l _).mp hperm.1) huser
  · exact absurd ⟨(flags_user l _).mpr huser, hwrite⟩ hperm
  · rfl

/-! ## `copyout` -/

/-- The page of `va` was made accessible at the address `pa`, by a fault if need be, or
refused (`pa = 0`). `vmfault` does not look at `PTE_U`, so the page is the user's or was
copy-on-write. -/
def Fetched (img : KernelImage) (as : AddrSpace) (id va : ℕ) (m : Machine) (G : Tables)
    (e : ℕ → ℕ) (r : ℕ × Machine) : Prop :=
  ∃ G', Next img id G r.2 G' e ∧ (r.1 = 0 → view r.2.mem G' = view m.mem G) ∧
    (r.1 ≠ 0 → ∃ l, Reached img as id va m G e l r.2 G' ∧ r.1 = l.pa ∧
      ∀ l0, UserLeaf G id (va / pgsize) l0 → l0.flags.testBit 4 = true ∨ l0.flags.testBit 8 = true)

theorem FaultPost.fetched {va : ℕ} {read : Bool} {r : ℕ × Machine}
    (h : FaultPost img as id va read m G e r) : Fetched img as id va m G e r := by
  obtain ⟨G', hn, hrefused, hres⟩ := h
  refine ⟨G', hn, hrefused, fun hne => ?_⟩
  obtain ⟨l, hreach, hpa, -⟩ := Reached.of_resolved hn (hres hne)
  refine ⟨l, hreach, hpa, fun l0 hl0 => .inr ?_⟩
  rcases (hres hne).view with ⟨-, -, l1, hl1, hcow⟩ | ⟨hnone, -⟩
  · rwa [hl0.inj hl1]
  · rw [hl0.view_eq] at hnone
    cases hnone

theorem Fetched.of_leaf {va : ℕ} (h : VmInv img m G e) (hl : UserLeaf G id (va / pgsize) l)
    (huser : l.flags.testBit 4 = true) : Fetched img as id va m G e (l.pa, m) :=
  ⟨G, Next.refl h id, fun _ => rfl, fun _ => ⟨l, .refl h hl, rfl, fun l0 hl0 => .inl (by
    rwa [hl0.inj hl])⟩⟩

theorem copyoutAddr_spec {va : ℕ} (h : VmInv img m G e) (hr : Rooted G id as) (hok : RegionsOk as)
    (hva : va < 2 ^ 32) :
    Except.Sat (fun _ => False) (fun r => r.1 ≠ some 0 ∧ Fetched img as id va m G e (r.1.getD 0, r.2))
      (copyoutAddr img as as.pagetable va m) := by
  have hfault : Except.Sat (fun _ => False)
      (fun r : Option ℕ × Machine => r.1 ≠ some 0 ∧ Fetched img as id va m G e (r.1.getD 0, r.2))
      (do
        let r ← vmfault img as as.pagetable va false m
        if r.1 = 0 then .ok ((none : Option ℕ), r.2) else .ok (some r.1, r.2)) := by
    refine (vmfault_spec h hr hok).bind ?_
    rintro ⟨pa0, m1⟩ hpost
    dsimp only
    split_ifs with hz
    · exact ⟨(by rintro ⟨⟩), hz ▸ hpost.fetched⟩
    · exact ⟨fun heq => hz (Option.some.inj heq), hpost.fetched⟩
  obtain ⟨pt, hG, has⟩ := hr
  unfold copyoutAddr
  rw [has] at hfault ⊢
  rcases walk_false_cases h hG hva with ⟨-, hwalk⟩ | ⟨t, ht, hwalk, hword⟩
  · rw [hwalk]
    exact hfault
  · rw [hwalk, Except.ok_bind]
    dsimp only
    rw [hword]
    cases hl : pt.leaf (va / pgsize) with
    | none =>
      rw [if_pos (.inl rfl)]
      exact hfault
    | some l =>
      split_ifs with hperm hcow
      · exact hfault
      · exact hfault
      · have huser : l.flags.testBit 4 = true := by
          rw [← l.testBit_pte (by decide)]
          exact (and_shift_ne_zero _ _).mp (not_or.mp hperm).2
        have hul := h.userLeaf_of_user hG hl huser
        show some (pte2pa l.pte) ≠ some 0 ∧ Fetched img as id va m G e (pte2pa l.pte, m)
        rw [l.pte2pa_pte]
        exact ⟨fun heq => h.leaf_pa_ne_zero hul (Option.some.inj heq), .of_leaf h hul huser⟩

theorem heapPage_user {rs : List MemRegion} {va : ℕ} {pg : UserPage} (h : heapPage rs va = some pg) :
    pg.flags &&& pteU ≠ 0 := by
  unfold heapPage at h
  split_ifs at h
  obtain ⟨r, -, h⟩ := bind_eq_some_iff.mp h
  split_ifs at h
  rw [← Option.some.inj h, pteU, and_shift_ne_zero]
  show (pteU ||| r.perm ||| pteV).testBit 4 = true
  rw [Nat.testBit_or, Nat.testBit_or, show pteU.testBit 4 = true by decide, Bool.true_or, Bool.true_or]

theorem Reached.user_iff {va : ℕ} (hreach : Reached img as id va m G e l m' G1) :
    UserPageOk (Kernel.view m.mem G) id (va / pgsize) ↔ l.flags.testBit 4 = true := by
  rw [← flags_user l m'.mem]
  have hpage := hreach.page
  unfold pageAt at hpage
  cases hview : Kernel.view m.mem G (id, va / pgsize) with
  | none =>
    rw [hview, none_or] at hpage
    exact ⟨fun _ => heapPage_user hpage, fun _ pg hpg => by rw [hview] at hpg; cases hpg⟩
  | some pg =>
    rw [hview, some_or] at hpage
    obtain rfl := Option.some.inj hpage
    exact ⟨fun h => h _ hview, fun h pg hpg => Option.some.inj (hview.symm.trans hpg) ▸ h⟩

theorem sub_pgrounddown (va : ℕ) : va - pgrounddown va = va % pgsize := by
  have := Nat.div_add_mod' va pgsize
  unfold pgrounddown
  omega

theorem copyoutPage_reached {va : ℕ} {bs : List UInt8} (h : VmInv img m G e) (hr : Rooted G id as)
    (hok : RegionsOk as) (hva : va < 2 ^ 32) :
    Except.Sat (fun _ => False) (fun r => ∃ G',
        if r.1 then ∃ m1 l, Reached img as id (pgrounddown va) m G e l m1 G' ∧
          l.flags.testBit 2 = true ∧ r.2 = m1.storeBytes (l.pa + va % pgsize) bs ∧
          ∀ l0, UserLeaf G id (va / pgsize) l0 →
            l0.flags.testBit 4 = true ∨ l0.flags.testBit 8 = true
        else Next img id G r.2 G' e ∧ (view r.2.mem G' = view m.mem G ∨
          ∃ l, Reached img as id (pgrounddown va) m G e l r.2 G'))
      (copyoutPage img as as.pagetable va bs m) := by
  have hva0 : pgrounddown va < 2 ^ 32 := Nat.lt_of_le_of_lt (Nat.div_mul_le_self va pgsize) hva
  have hdiv := pgrounddown_div va
  unfold copyoutPage
  dsimp only
  rw [if_neg (show ¬ maxva ≤ pgrounddown va from Nat.not_le.mpr hva0)]
  refine (copyoutAddr_spec h hr hok hva0).bind ?_
  rintro ⟨_ | pa, m1⟩ ⟨hpa, G1, hn, hrefused, hreach⟩
  · exact ⟨G1, hn, .inl (hrefused rfl)⟩
  · obtain ⟨l, hreach, rfl, hbefore⟩ := hreach fun heq => hpa (congrArg some heq)
    rw [hdiv] at hbefore
    obtain ⟨pt, hG, has⟩ := hr.next hn
    have hl : pt.leaf (pgrounddown va / pgsize) = some l := by
      obtain ⟨-, pt', hG', hl⟩ := hreach.leaf
      rwa [Option.some.inj (hG.symm.trans hG')]
    dsimp only
    rw [has]
    rcases walk_false_cases hn.inv hG hva0 with ⟨hnone, -⟩ | ⟨t, -, hwalk, hword⟩
    · rw [hnone] at hl
      cases hl
    · rw [hwalk, Except.ok_bind]
      dsimp only
      rw [hword, hl]
      split_ifs with hw
      · exact ⟨G1, hn, .inr ⟨l, hreach⟩⟩
      · have hw : l.flags.testBit 2 = true := by
          rw [← l.testBit_pte (by decide)]
          exact (and_shift_ne_zero _ _).mp hw
        rw [sub_pgrounddown]
        exact ⟨G1, m1, l, hreach, hw, rfl, hbefore⟩

theorem copyoutPage_spec {va : ℕ} {bs : List UInt8} (h : VmInv img m G e) (hr : Rooted G id as)
    (hok : RegionsOk as) (hva : va < 2 ^ 32) (hlen : va % pgsize + bs.length ≤ pgsize) :
    Except.Sat (fun _ => False) (fun r => ∃ G', Next img id G r.2 G' e ∧ (r.1 = true →
        va / pgsize < userVpns ∧
        (UserPageOk (view m.mem G) id (va / pgsize) →
          eagerStore as.regions (view m.mem G) id (pgrounddown va) (va % pgsize) bs =
            some (view r.2.mem G')) ∧
        (¬ UserPageOk (view m.mem G) id (va / pgsize) →
          eagerStore as.regions (view m.mem G) id (pgrounddown va) (va % pgsize) bs = none)))
      (copyoutPage img as as.pagetable va bs m) := by
  have hdiv := pgrounddown_div va
  refine (copyoutPage_reached h hr hok hva).post ?_
  rintro ⟨_ | _, m'⟩ ⟨G1, hpost⟩
  · exact ⟨G1, hpost.1, nofun⟩
  · obtain ⟨m1, l, hreach, hw, hm', -⟩ := hpost
    obtain rfl : m' = _ := hm'
    obtain ⟨hnext, hstore⟩ := store_spec hreach hw hlen
    refine ⟨G1, hnext, fun _ => ⟨hdiv ▸ hreach.leaf.1, fun huser => ?_, fun huser => ?_⟩⟩
    · rw [hstore, if_pos (hreach.user_iff.mp (hdiv.symm ▸ huser))]
    · rw [hstore, if_neg fun hbit => huser (hdiv ▸ hreach.user_iff.mpr hbit)]

theorem eagerStore_other {rs : List MemRegion} {V V' : Pages} {va off : ℕ} {bs : List UInt8}
    (h : eagerStore rs V id va off bs = some V') {x : ℕ × ℕ} (hx : x ≠ (id, va / pgsize)) :
    V' x = V x := by
  obtain ⟨pg, -, rfl⟩ := map_eq_some_iff.mp h
  exact update_of_ne hx _ _

theorem userBytes_split (V : Pages) (id va : ℕ) {len : ℕ} (hlen : 0 < len) :
    UserBytes V id va len ↔ UserPageOk V id (va / pgsize) ∧
      UserBytes V id (pgrounddown va + pgsize) (len - (pgsize - va % pgsize)) := by
  have hmod : va % pgsize < pgsize := Nat.mod_lt va (by decide)
  have hva := Nat.div_add_mod' va pgsize
  constructor
  · refine fun h => ⟨h 0 hlen, fun i hi => ?_⟩
    have := h (pgsize - va % pgsize + i) (by omega)
    rwa [show va + (pgsize - va % pgsize + i) = pgrounddown va + pgsize + i by
      unfold pgrounddown; omega] at this
  · rintro ⟨hfirst, hrest⟩ i hi
    by_cases hin : i < pgsize - va % pgsize
    · have : (va + i) / pgsize = va / pgsize := by
        rw [← hva, Nat.add_assoc, Nat.mul_comm, Nat.mul_add_div (by decide),
          Nat.div_eq_of_lt (a := va % pgsize + i) (by omega), Nat.mul_add_div (by decide),
          Nat.div_eq_of_lt hmod]
      rwa [this]
    · have := hrest (i - (pgsize - va % pgsize)) (by omega)
      rwa [show pgrounddown va + pgsize + (i - (pgsize - va % pgsize)) = va + i by
        unfold pgrounddown; omega] at this

theorem copyoutLoop_spec (fuel : ℕ) {va : ℕ} {bs : List UInt8} (h : VmInv img m G e)
    (hr : Rooted G id as) (hok : RegionsOk as) (hva : va < 2 ^ 32) :
    Except.Sat (fun _ => False) (fun r => ∃ G', Next img id G r.2 G' e ∧ (r.1 = true →
        (UserBytes (view m.mem G) id va bs.length →
          eagerCopyoutLoop as.regions id fuel va bs (view m.mem G) = some (view r.2.mem G')) ∧
        (¬ UserBytes (view m.mem G) id va bs.length →
          eagerCopyoutLoop as.regions id fuel va bs (view m.mem G) = none)))
      (copyoutLoop img as as.pagetable fuel va bs m) := by
  induction fuel generalizing va bs m G with
  | zero =>
    refine ⟨G, Next.refl h id, fun hempty => ?_⟩
    obtain rfl := List.isEmpty_iff.mp hempty
    exact ⟨fun _ => rfl, fun hno => absurd (fun i hi => absurd hi (Nat.not_lt_zero i)) hno⟩
  | succ fuel ih =>
    unfold copyoutLoop eagerCopyoutLoop
    split_ifs with hbs
    · subst hbs
      exact ⟨G, Next.refl h id, fun _ =>
        ⟨fun _ => rfl, fun hno => absurd (fun i hi => absurd hi (Nat.not_lt_zero i)) hno⟩⟩
    · have hmod : va % pgsize < pgsize := Nat.mod_lt va (by decide)
      have hpos : 0 < bs.length := List.length_pos_of_ne_nil hbs
      have hlen : va % pgsize + (bs.take (pgsize - va % pgsize)).length ≤ pgsize := by
        rw [List.length_take]
        omega
      refine (copyoutPage_spec h hr hok hva hlen).bind ?_
      rintro ⟨_ | _, m1⟩ ⟨G1, hn1, hpage⟩
      · exact ⟨G1, hn1, nofun⟩
      · obtain ⟨hv, hsome, hnone⟩ := hpage rfl
        have hnext : (pgrounddown va + pgsize) % 2 ^ 32 = pgrounddown va + pgsize := by
          refine Nat.mod_eq_of_lt ?_
          rw [userVpns_eq] at hv
          rw [pgrounddown, pgsize_eq] at *
          omega
        rw [hnext]
        refine (ih hn1.inv (hr.next hn1) (hnext ▸ Nat.mod_lt _ (by decide))).post ?_
        rintro ⟨b, m2⟩ ⟨G2, hn2, hpost⟩
        refine ⟨G2, hn1.trans hn2, fun hb => ?_⟩
        obtain ⟨hrest, hstuck⟩ := hpost hb
        rw [List.length_drop] at hrest hstuck
        by_cases hfirst : UserPageOk (view m.mem G) id (va / pgsize)
        · have hstore := hsome hfirst
          have hsplit := userBytes_split (view m.mem G) id va hpos
          -- the first page is not among those of the rest
          have hsame : UserBytes (view m1.mem G1) id (pgrounddown va + pgsize)
              (bs.length - (pgsize - va % pgsize)) ↔ UserBytes (view m.mem G) id
                (pgrounddown va + pgsize) (bs.length - (pgsize - va % pgsize)) := by
            have hpg : ∀ i, view m1.mem G1 (id, (pgrounddown va + pgsize + i) / pgsize) =
                view m.mem G (id, (pgrounddown va + pgsize + i) / pgsize) := fun i => by
              refine eagerStore_other hstore fun heq => ?_
              have := (Prod.mk.inj heq).2
              rw [pgrounddown, pgsize_eq] at this
              omega
            unfold UserBytes UserPageOk
            simp only [hpg]
          dsimp only
          rw [hstore, bind_some]
          exact ⟨fun hall => hrest (hsame.mpr (hsplit.mp hall).2),
            fun hno => hstuck fun h' => hno (hsplit.mpr ⟨hfirst, hsame.mp h'⟩)⟩
        · dsimp only
          rw [hnone hfirst, Option.bind_none]
          exact ⟨fun hall => absurd (hall 0 hpos) hfirst, fun _ => rfl⟩

/-! ## The size of the heap -/

theorem asResizeRegion_regions (as : AddrSpace) (type : RegionType) (newEnd : ℕ) :
    asResizeRegion (ofRegions as.regions) type newEnd =
      (asResizeRegion as type newEnd).map fun as' => ofRegions as'.regions := by
  unfold asResizeRegion
  rw [show asRegionIndex (ofRegions as.regions) type = asRegionIndex as type from rfl,
    show (ofRegions as.regions).regions = as.regions from rfl]
  split_ifs
  · rfl
  · cases asRegionIndex as type with
    | none => rfl
    | some idx =>
      dsimp only
      cases as.regions[idx]? with
      | none => rfl
      | some region =>
        dsimp only
        split_ifs <;> rfl

theorem resized_regions {as' : AddrSpace} {sz : ℕ} (V : Pages)
    (h : asResizeRegion as .heap sz = some as') :
    (asResizeRegion (ofRegions as.regions) .heap sz).map (fun as => (as.regions, V)) =
      some (as'.regions, V) := by
  rw [asResizeRegion_regions, h]
  rfl

theorem heapPerm_fresh : FreshPerm (pteR ||| pteU ||| pteW) :=
  ⟨by decide, by decide, by decide⟩

theorem growproc_alloc {sz newsz : ℕ} {as' : AddrSpace} (h : VmInv img m G e) (hr : Rooted G id as)
    (hle : newsz ≤ trapframe) (hge : sz ≤ newsz)
    (hg : (uvmalloc img as sz newsz pteW m >>= fun r =>
      if r.1 = 0 then .ok (none, r.2) else .ok (asResizeRegion as .heap r.1, r.2)) =
        .ok (some as', m')) :
    ∃ G', Next img id G m' G' e ∧ asResizeRegion as .heap newsz = some as' ∧
      view m'.mem G' = fillPages (view m.mem G) id (upVpn sz) (upVpn newsz - upVpn sz)
        (zeroPage (pteR ||| pteU ||| pteW)) ∧
      ∀ v < upVpn newsz, upVpn sz ≤ v → (view m.mem G (id, v)).isNone := by
  obtain ⟨⟨r, m1⟩, hu, hres⟩ := Except.bind_eq_ok.mp hg
  obtain ⟨G', hn, hpost⟩ := (uvmalloc_spec h hr hle heapPerm_fresh).of_eq_ok hu
  dsimp only at hres
  split_ifs at hres with hz
  · cases hres
  · obtain ⟨hsz, hview, hnone⟩ := hpost.1 hz hge
    obtain ⟨hsome, rfl⟩ := Prod.mk.inj (Except.ok.inj hres)
    refine ⟨G', hn, ?_, hview, fun v hv hv' => ?_⟩
    · rw [← hsome]
      exact congrArg _ hsz.symm
    · rw [hnone v hv' hv]
      rfl

theorem growproc_spec {n : ℤ} {as' : AddrSpace} (h : VmInv img m G e) (hr : Rooted G id as)
    (hok : RegionsOk as) (hg : growproc img as n m = .ok (some as', m')) :
    ∃ G', Next img id G m' G' e ∧ as'.pagetable = as.pagetable ∧ RegionsOk as' ∧
      eagerGrow as.regions (view m.mem G) id n = some (as'.regions, view m'.mem G') := by
  unfold growproc at hg
  unfold eagerGrow
  cases hheap : as.regions.find? fun r => r.type = .heap with
  | none => simp [hheap] at hg
  | some heap =>
    have hend := (hok heap (List.mem_of_find?_eq_some hheap)).end_le
    simp only [hheap] at hg
    rw [bind_some]
    dsimp only
    generalize ((heap.vaEnd + n : ℤ) % 2 ^ 32).toNat = newsz at hg ⊢
    split_ifs at hg ⊢ with hpos hbad hfree hneg hbad
    · cases hg
    · obtain ⟨G', hn, hres, hview, -⟩ := growproc_alloc h hr (by omega) (by omega) hg
      obtain ⟨htab, hok'⟩ := asResizeRegion_ok hres hok
      refine ⟨G', hn, htab, hok', ?_⟩
      rw [← hview]
      exact resized_regions _ hres
    · obtain ⟨G', -, -, -, hnone⟩ := growproc_alloc h hr (by omega) (by omega) hg
      exact absurd hnone hfree
    · obtain ⟨hres, rfl⟩ := Prod.mk.inj (Except.ok.inj hg)
      obtain ⟨htab, hok'⟩ := asResizeRegion_ok hres hok
      exact ⟨G, Next.refl h id, htab, hok', resized_regions _ hres⟩
    · obtain ⟨m1, G1, hd, hn, hview, -⟩ := uvmdealloc_spec newsz h hr hend
      rw [hd, Except.ok_bind, Nat.min_eq_right (by omega)] at hg
      obtain ⟨hres, rfl⟩ := Prod.mk.inj (Except.ok.inj hg)
      obtain ⟨htab, hok'⟩ := asResizeRegion_ok hres hok
      refine ⟨G1, hn, htab, hok', ?_⟩
      rw [← hview]
      exact resized_regions _ hres
    · obtain ⟨hres, rfl⟩ := Prod.mk.inj (Except.ok.inj hg)
      obtain ⟨htab, hok'⟩ := asResizeRegion_ok hres hok
      exact ⟨G, Next.refl h id, htab, hok', resized_regions _ hres⟩

theorem sbrkLazy_spec {n : ℕ} {as' : AddrSpace} (hok : RegionsOk as)
    (hs : sbrkLazy as n = some as') :
    as'.pagetable = as.pagetable ∧ RegionsOk as' ∧
      sbrkLazy (ofRegions as.regions) n = some (ofRegions as'.regions) := by
  unfold sbrkLazy at hs ⊢
  rw [show asRegionStart (ofRegions as.regions) .heap = asRegionStart as .heap from rfl,
    show asRegionSize (ofRegions as.regions) .heap = asRegionSize as .heap from rfl]
  dsimp only at hs ⊢
  split_ifs at hs ⊢
  obtain ⟨htab, hok'⟩ := asResizeRegion_ok hs hok
  exact ⟨htab, hok', by rw [asResizeRegion_regions, hs]; rfl⟩

/-! ## Fork -/

theorem addRegions_regions (rs : List MemRegion) {as1 as2 as' : AddrSpace}
    (hr : as1.regions = as2.regions) (h2 : as2.pagetable ≠ 0)
    (h : addRegions as1 rs = some as') :
    ∃ as'', addRegions as2 rs = some as'' ∧ as''.regions = as'.regions := by
  induction rs generalizing as1 as2 with
  | nil => exact ⟨as2, rfl, by rw [← hr, Option.some.inj h]⟩
  | cons r rs ih =>
    unfold addRegions at h ⊢
    rw [List.foldlM_cons] at h ⊢
    obtain ⟨a1, hadd, h⟩ := bind_eq_some_iff.mp h
    have hadd2 : asAddRegion as2 r.vaStart r.vaEnd r.type r.perm = some { as2 with regions := a1.regions } := by
      have hidx : asRegionIndex as2 r.type = asRegionIndex as1 r.type := by
        unfold asRegionIndex
        rw [hr]
      unfold asAddRegion at hadd ⊢
      rw [if_neg h2, hidx, ← hr]
      split_ifs at hadd ⊢
      rw [← Option.some.inj hadd]
    obtain ⟨as'', h'', hregs⟩ :=
      ih (show a1.regions = ({ as2 with regions := a1.regions } : AddrSpace).regions from rfl) h2 h
    refine ⟨as'', ?_, hregs⟩
    rw [hadd2]
    exact h''

end

/-! ## Every operation -/

section

variable {img : KernelImage} {s s' : VmState} {G : Tables} {id : ℕ} {sp : Space} {m : Machine}

theorem VmOk.userPages_eq (h : VmOk img s G) : userPages s = view s.machine.mem G := by
  funext ⟨id, v⟩
  unfold userPages
  dsimp only
  split_ifs with hv
  · have hsp := h.spaces id
    cases hs : s.spaces id with
    | none =>
      rw [hs] at hsp
      simp [view, show G id = none from hsp]
    | some sp =>
      obtain ⟨⟨pt, hG, has⟩, -⟩ := h.space hs
      have hi : v / 1024 < 1024 := by
        rw [userVpns_eq] at hv
        omega
      rw [bind_some, has, (h.inv.represents id pt hG).leafPte_eq hi, view, if_pos hv, hG,
        bind_some]
      cases pt.leaf v with
      | none => rfl
      | some l => simp only [map_some, l.pte2pa_pte, l.pteFlags_pte, Leaf.userPage]
  · rw [view, if_neg hv]

theorem VmOk.eagerOf_eq (h : VmOk img s G) :
    eagerOf s = ⟨spaceRegions s, view s.machine.mem G, s.next⟩ := by
  rw [eagerOf, h.userPages_eq]

theorem spaceRegions_setSpace (s : VmState) (id : ℕ) (x : Option Space) :
    spaceRegions (s.setSpace id x) =
      update (spaceRegions s) id (x.map fun sp => sp.as.regions) := by
  funext id'
  unfold spaceRegions VmState.setSpace
  by_cases hid : id' = id
  · subst hid
    simp only [update_self]
  · simp only [update_of_ne hid]

/-- What is to be shown of an operation from a state with the invariant. -/
def ProcOp.Simulated (img : KernelImage) (s : VmState) (op : ProcOp) (s' : VmState) : Prop :=
  (∃ G', VmOk img s' G') ∧ (op.UserRange s → (eagerOf s).step op = some (eagerOf s')) ∧
    (¬ op.UserRange s → (eagerOf s).step op = none)

theorem ProcOp.Simulated.of_eq {op : ProcOp} {G' : Tables} (hok : VmOk img s' G')
    (hrange : op.UserRange s) (hstep : (eagerOf s).step op = some (eagerOf s')) :
    op.Simulated img s s' :=
  ⟨⟨G', hok⟩, fun _ => hstep, fun hno => absurd hrange hno⟩

theorem eagerOf_regions (hsp : s.spaces id = some sp) :
    (eagerOf s).regions id = some sp.as.regions := by
  show (s.spaces id).map _ = _
  rw [hsp]
  rfl

theorem VmOk.load (h : VmOk img s G) (hsp : s.spaces id = some sp) {va pa : ℕ} (hva : va < 2 ^ 32)
    (ha : Access img sp.as va false s.machine pa m) :
    (ProcOp.load id va (m.mem pa)).Simulated img s (s.withMachine m) := by
  obtain ⟨hr, hok, -⟩ := h.space hsp
  obtain ⟨G', l, hreach, rfl, huser, hread⟩ := access_spec ha h.inv hr hok hva
  have hok' := h.of_next hreach.next hsp
  refine .of_eq hok' trivial ?_
  rw [hok'.eagerOf_eq, EagerState.step, eagerOf_regions hsp, h.eagerOf_eq]
  show (eagerLoad sp.as.regions (view s.machine.mem G) id va _ >>= _) = _
  rw [load_spec hreach huser hread]
  rfl

theorem VmOk.store (h : VmOk img s G) (hsp : s.spaces id = some sp) {va pa : ℕ} {bs : List UInt8}
    (hva : va < 2 ^ 32) (hlen : va % pgsize + bs.length ≤ pgsize)
    (ha : Access img sp.as va true s.machine pa m) :
    (ProcOp.store id va bs).Simulated img s (s.withMachine (m.storeBytes pa bs)) := by
  obtain ⟨hr, hok, -⟩ := h.space hsp
  obtain ⟨G', l, hreach, rfl, huser, hw⟩ := access_spec ha h.inv hr hok hva
  obtain ⟨hn, hstore⟩ := store_spec hreach hw hlen
  rw [if_pos huser] at hstore
  have hok' := h.of_next hn hsp
  refine .of_eq hok' trivial ?_
  rw [hok'.eagerOf_eq, EagerState.step, eagerOf_regions hsp, h.eagerOf_eq]
  show (eagerStore sp.as.regions (view s.machine.mem G) id va _ _ >>= _) = _
  rw [hstore]
  rfl

theorem VmOk.copyout (h : VmOk img s G) (hsp : s.spaces id = some sp) {va : ℕ} {bs : List UInt8}
    (hva : va < 2 ^ 32) (hc : copyout img sp.as sp.as.pagetable va bs s.machine = .ok (true, m)) :
    (ProcOp.copyout id va bs).Simulated img s (s.withMachine m) := by
  obtain ⟨hr, hok, -⟩ := h.space hsp
  obtain ⟨G', hn, hpost⟩ := (copyoutLoop_spec bs.length h.inv hr hok hva).of_eq_ok hc
  obtain ⟨hsome, hnone⟩ := hpost rfl
  have hok' := h.of_next hn hsp
  unfold ProcOp.Simulated
  rw [hok'.eagerOf_eq, EagerState.step, eagerOf_regions hsp, ProcOp.UserRange, h.userPages_eq,
    h.eagerOf_eq]
  refine ⟨⟨G', hok'⟩, fun huser => ?_, fun huser => ?_⟩
  · show (eagerCopyoutLoop sp.as.regions id bs.length va bs (view s.machine.mem G) >>= _) = _
    rw [hsome huser]
    rfl
  · show (eagerCopyoutLoop sp.as.regions id bs.length va bs (view s.machine.mem G) >>= _) = _
    rw [hnone huser]
    rfl

theorem VmOk.growproc (h : VmOk img s G) (hsp : s.spaces id = some sp) {n : ℤ} {as : AddrSpace}
    (hg : growproc img sp.as n s.machine = .ok (some as, m)) :
    (ProcOp.growproc id n).Simulated img s
      ((s.withMachine m).setSpace id (some { sp with as := as })) := by
  obtain ⟨hr, hok, -⟩ := h.space hsp
  obtain ⟨G', hn, htab, hregs, hgrow⟩ := growproc_spec h.inv hr hok hg
  have hok' := (h.of_next hn hsp).setRegions { sp with as := as } hsp htab hregs fun hb => hb
  refine .of_eq hok' trivial ?_
  rw [hok'.eagerOf_eq, EagerState.step, eagerOf_regions hsp, h.eagerOf_eq, spaceRegions_setSpace]
  show (eagerGrow sp.as.regions (view s.machine.mem G) id n >>= _) = _
  rw [hgrow]
  rfl

theorem VmOk.sbrkLazy (h : VmOk img s G) (hsp : s.spaces id = some sp) {n : ℕ} {as : AddrSpace}
    (hs : sbrkLazy sp.as n = some as) :
    (ProcOp.sbrkLazy id n).Simulated img s (s.setSpace id (some { sp with as := as })) := by
  obtain ⟨-, hok, -⟩ := h.space hsp
  obtain ⟨htab, hregs, hlazy⟩ := sbrkLazy_spec hok hs
  have hok' := h.setRegions { sp with as := as } hsp htab hregs fun hb => hb
  refine .of_eq hok' trivial ?_
  rw [hok'.eagerOf_eq, EagerState.step, eagerOf_regions hsp, h.eagerOf_eq, spaceRegions_setSpace]
  show (Kernel.sbrkLazy (ofRegions sp.as.regions) n >>= _) = _
  rw [hlazy]
  rfl

theorem VmOk.exit (h : VmOk img s G) (hsp : s.spaces id = some sp) {as : AddrSpace}
    (hd : asDestroy img sp.as s.machine = .ok (as, m)) :
    (ProcOp.exit id).Simulated img s ((s.withMachine m).setSpace id none) := by
  obtain ⟨as', m', G', hd', hok', hview, -⟩ := h.destroyed hsp
  obtain ⟨-, rfl⟩ := Prod.mk.inj (Except.ok.inj (hd.symm.trans hd'))
  refine .of_eq hok' trivial ?_
  rw [hok'.eagerOf_eq, EagerState.step, eagerOf_regions hsp, h.eagerOf_eq, spaceRegions_setSpace,
    show ((s.withMachine m).setSpace id none).machine.mem = m.mem from rfl, hview]
  rfl

theorem VmOk.fork (h : VmOk img s G) (hsp : s.spaces id = some sp) (hb : sp.building = false)
    (hf : forkSpace img s sp = .ok (some s')) : (ProcOp.fork id).Simulated img s s' := by
  unfold forkSpace at hf
  rcases h.kalloc_cases with ⟨m1, hk, -⟩ | ⟨p, m1, hk, hok1, hview1⟩
  · rw [hk] at hf
    cases hf
  · rw [hk] at hf
    obtain ⟨⟨as2, m2⟩, hcreate, hf⟩ := Except.bind_eq_ok.mp hf
    have hpost := (hok1.created List.mem_cons_self).of_eq_ok hcreate
    dsimp only at hf hpost
    split_ifs at hf hpost with hz
    · cases hf
    · obtain ⟨G2, hok2, hregs, hview2, -⟩ := hpost
      have hne : id ≠ s.next := fun heq => h.lt_next hsp heq.ge
      obtain ⟨⟨b, as3, m3⟩, hcopy, hf⟩ := Except.bind_eq_ok.mp hf
      obtain ⟨G3, hok3, -, -, hpost⟩ := (hok2.copied s.next id
        ((update_of_ne hne _ _).trans hsp) hb (update_self ..) rfl).of_eq_ok hcopy
      dsimp only at hf
      split_ifs at hf with hcopied
      · obtain rfl := Option.some.inj (Except.ok.inj hf)
        obtain ⟨hadd, hview3, -⟩ := hpost hcopied
        have hok4 : VmOk img
            { (s.withMachine m3).addSpace ⟨as3, false⟩ with held := pa2idx (idx2pa p) :: s.held } G3 := by
          show VmOk img ⟨m3, update s.spaces s.next (some ⟨as3, false⟩), s.next + 1,
            pa2idx (idx2pa p) :: s.held⟩ G3
          rw [pa2idx_idx2pa]
          have hspaces := update_idem (a := s.next) (some (Space.mk as2 true))
            (some (Space.mk as3 false)) s.spaces
          rw [← hspaces]
          exact hok3
        obtain ⟨as4, hadd4, hregs4⟩ := addRegions_regions sp.as.regions
          (show ({ as2 with regions := [] } : AddrSpace).regions = (ofRegions []).regions from rfl)
          Nat.one_ne_zero hadd
        have hview4 : view m3.mem G3 = copyRegions (view s.machine.mem G) id s.next sp.as.regions := by
          refine hview3.trans ?_
          rw [show (_ : AddrSpace).regions = [] from hregs]
          exact congrArg (copyRegions · id s.next sp.as.regions) (hview2.trans hview1)
        refine .of_eq hok4 trivial ?_
        rw [hok4.eagerOf_eq, EagerState.step, eagerOf_regions hsp, h.eagerOf_eq]
        show (addRegions (ofRegions []) sp.as.regions >>= _) = _
        rw [hadd4]
        show some (EagerState.mk (update (spaceRegions s) s.next (some as4.regions)) _ _) =
          some (EagerState.mk (spaceRegions (s.setSpace s.next (some ⟨as3, false⟩))) (view m3.mem G3) _)
        rw [spaceRegions_setSpace, hregs4, hview4]
        rfl
      · cases hf

theorem VmOk.simulated (h : VmOk img s G) {op : ProcOp} (hstep : op.Step img s s') :
    op.Simulated img s s' := by
  cases hstep with
  | fork hrun hf => exact h.fork hrun.1 hrun.2 hf
  | load hrun hva ha => exact h.load hrun.1 hva ha
  | store hrun hva hlen ha => exact h.store hrun.1 hva hlen ha
  | copyout hrun hva hc => exact h.copyout hrun.1 hva hc
  | growproc hrun hg => exact h.growproc hrun.1 hg
  | sbrkLazy hrun hs => exact h.sbrkLazy hrun.1 hs
  | exit hrun hd => exact h.exit hrun.1 hd

/-- From any state that the kernel can be in, the machine without copy-on-write can do
the operations of a run, loads reading the same bytes, exactly when no `copyout` of the
run writes to a page that is mapped without `PTE_U`; and then it ends in the state that
the kernel's final state stands for. -/
theorem cow_fork_eager (h : VmRun img s) {t : List (ProcOp × VmState)}
    (ht : Simulation.Trace (ProcOp.Step img) s t) :
    Simulation.follow EagerState.step (eagerOf s) (t.map Prod.fst) =
        some (eagerOf (Simulation.final s t)) ↔
      Simulation.Along (fun s op => op.UserRange s) s t := by
  refine Simulation.follows_iff (I := fun s => ∃ G, VmOk img s G) (fun s o s' hs hstep => ?_)
    (fun s o s' hs hstep => ?_) (fun s o s' hs hstep => ?_) h.ok ht
  · obtain ⟨G, hs⟩ := hs
    exact (hs.simulated hstep).1
  · obtain ⟨G, hs⟩ := hs
    exact (hs.simulated hstep).2.1
  · obtain ⟨G, hs⟩ := hs
    exact (hs.simulated hstep).2.2

end

/-! ## A process that forks and is written to -/

/-- What `kexec` does for a program of one page: a guard page at `0x1000`, the stack at
`0x2000`, an empty heap at `0x3000`. -/
def execOps : List VmOp :=
  [.kalloc, .create 32752, .allocseg 0 0 pgsize 1, .uvmalloc 0 pgsize (3 * pgsize) 2,
    .uvmclear 0 pgsize, .addRegion 0 0 pgsize .text (pteR ||| pteW ||| pteX),
    .addRegion 0 pgsize (3 * pgsize) .stack (pteR ||| pteW),
    .addRegion 0 (3 * pgsize) (3 * pgsize) .heap (pteR ||| pteW), .run 0]

/-- The states before the process forks, after that, and after a `copyout` to it. -/
def forkCopyout (va : ℕ) (bs : List UInt8) : Option (VmState × VmState × VmState) :=
  (bootState sixteenPageImage).bind fun s0 =>
  (runOps sixteenPageImage execOps s0).bind fun s =>
  (s.spaces 0).bind fun sp =>
  (forkSpace sixteenPageImage s sp).toOption.join.bind fun s1 =>
  (s1.spaces 0).bind fun sp1 =>
  (copyout sixteenPageImage sp1.as sp1.as.pagetable va bs s1.machine).toOption.bind fun r =>
    if sp.building = false ∧ sp1.building = false ∧ r.1 = true then
      some (s, s1, s1.withMachine r.2)
    else none

theorem forkCopyout_steps {va : ℕ} {bs : List UInt8} {s s1 s2 : VmState} (hva : va < 2 ^ 32)
    (h : forkCopyout va bs = some (s, s1, s2)) :
    VmRun sixteenPageImage s ∧ (ProcOp.fork 0).Step sixteenPageImage s s1 ∧
      (ProcOp.copyout 0 va bs).Step sixteenPageImage s1 s2 := by
  unfold forkCopyout at h
  obtain ⟨s0, hboot, h⟩ := bind_eq_some_iff.mp h
  obtain ⟨s', hops, h⟩ := bind_eq_some_iff.mp h
  obtain ⟨sp, hsp, h⟩ := bind_eq_some_iff.mp h
  obtain ⟨s1', hfork, h⟩ := bind_eq_some_iff.mp h
  obtain ⟨sp1, hsp1, h⟩ := bind_eq_some_iff.mp h
  obtain ⟨⟨b, m⟩, hcopy, h⟩ := bind_eq_some_iff.mp h
  split_ifs at h with hcond
  obtain ⟨rfl, hs1, hs2⟩ : s' = s ∧ s1' = s1 ∧ s1'.withMachine m = s2 := by
    simpa using Option.some.inj h
  subst hs1 hs2
  obtain ⟨hb, hb1, hok⟩ := hcond
  have hfork := Except.toOption_eq_some (Option.join_eq_some_iff.mp hfork)
  have hcopy := Except.toOption_eq_some hcopy
  obtain rfl : b = true := hok
  exact ⟨(VmRun.bootState hboot).runOps hops, .fork ⟨hsp, hb⟩ hfork, .copyout ⟨hsp1, hb1⟩ hva hcopy⟩

/-- After the fork a `copyout` of four bytes, the first two to the guard page, goes
through, and the process then reads the third at the bottom of its stack. Without
copy-on-write the `copyout` is refused, and the byte at the bottom of the stack is `0`. -/
theorem copyout_over_guard_page : ∃ s s1 s2, VmRun sixteenPageImage s ∧
    Simulation.Trace (ProcOp.Step sixteenPageImage) s
      [(.fork 0, s1), (.copyout 0 (2 * pgsize - 2) [1, 2, 3, 4], s2), (.load 0 (2 * pgsize) 3, s2)] ∧
    Simulation.follow EagerState.step (eagerOf s)
      [.fork 0, .copyout 0 (2 * pgsize - 2) [1, 2, 3, 4]] = none ∧
    (Simulation.follow EagerState.step (eagerOf s) [.fork 0, .load 0 (2 * pgsize) 0]).isSome := by
  have hrun : ((forkCopyout (2 * pgsize - 2) [1, 2, 3, 4]).any fun (s, s1, s2) =>
      ((s2.spaces 0).any fun sp => !sp.building &&
        ((translate s2.machine.mem sp.as.pagetable (2 * pgsize) pteR).any fun pa =>
          s2.machine.mem pa == 3)) &&
      (Simulation.follow EagerState.step (eagerOf s)
        [.fork 0, .copyout 0 (2 * pgsize - 2) [1, 2, 3, 4]]).isNone &&
      (Simulation.follow EagerState.step (eagerOf s)
        [.fork 0, .load 0 (2 * pgsize) 0]).isSome) = true := by
    decide +kernel
  obtain ⟨⟨s, s1, s2⟩, hs, hcheck⟩ := (Option.any_eq_true _ _).mp hrun
  obtain ⟨hvm, hfork, hcopy⟩ := forkCopyout_steps (by decide) hs
  rw [Bool.and_eq_true, Bool.and_eq_true] at hcheck
  obtain ⟨⟨hload, hnone⟩, hzero⟩ := hcheck
  obtain ⟨sp, hsp, hload⟩ := (Option.any_eq_true _ _).mp hload
  rw [Bool.and_eq_true, Bool.not_eq_true'] at hload
  obtain ⟨pa, hpa, hbyte⟩ := (Option.any_eq_true _ _).mp hload.2
  have hstep : (ProcOp.load 0 (2 * pgsize) (s2.machine.mem pa)).Step sixteenPageImage s2
      (s2.withMachine s2.machine) := .load ⟨hsp, hload.1⟩ (by decide) (.hit hpa)
  rw [eq_of_beq hbyte] at hstep
  exact ⟨s, s1, s2, hvm, ⟨hfork, hcopy, hstep, trivial⟩, Option.isNone_iff_eq_none.mp hnone, hzero⟩

/-- A `copyout` to the stack alone is followed. -/
theorem cow_fork_eager_stack : ∃ s s1 s2, VmRun sixteenPageImage s ∧
    Simulation.Trace (ProcOp.Step sixteenPageImage) s
      [(.fork 0, s1), (.copyout 0 (2 * pgsize) [7], s2)] ∧
    Simulation.follow EagerState.step (eagerOf s) [.fork 0, .copyout 0 (2 * pgsize) [7]] =
      some (eagerOf s2) := by
  have hrun : ((forkCopyout (2 * pgsize) [7]).any fun (_, s1, _) =>
      (userPages s1 (0, 2)).all fun pg => decide (pg.flags &&& pteU ≠ 0)) = true := by
    decide +kernel
  obtain ⟨⟨s, s1, s2⟩, hs, hcheck⟩ := (Option.any_eq_true _ _).mp hrun
  obtain ⟨hvm, hfork, hcopy⟩ := forkCopyout_steps (by decide) hs
  refine ⟨s, s1, s2, hvm, ⟨hfork, hcopy, trivial⟩, ?_⟩
  have ht : Simulation.Trace (ProcOp.Step sixteenPageImage) s
      [(.fork 0, s1), (.copyout 0 (2 * pgsize) [7], s2)] := ⟨hfork, hcopy, trivial⟩
  refine (cow_fork_eager hvm ht).mpr ⟨trivial, fun i hi pg hpg => ?_, trivial⟩
  obtain rfl : i = 0 := Nat.lt_one_iff.mp hi
  have hpage : userPages s1 (0, 2) = some pg := hpg
  have hcheck : (userPages s1 (0, 2)).all (fun pg => decide (pg.flags &&& pteU ≠ 0)) = true := hcheck
  rw [hpage] at hcheck
  exact of_decide_eq_true hcheck

end YHsys.Kernel
