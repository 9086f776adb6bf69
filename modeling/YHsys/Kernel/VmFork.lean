import Mathlib
import YHsys.Kernel.VmTeardown

/-!
# Creating and copying address spaces

`proc_addrspace_create` yields an address space without user pages, or nothing;
`as_copy` shares the pages of the source's regions with the destination. Sharing
is invisible: the view of the destination becomes the one an eager copy would give
(`copyRegions`), the source's view does not change.
-/

namespace YHsys.Kernel

open Function (update update_eq_self update_idem update_of_ne update_self)

section

variable {img : KernelImage} {id v p : ℕ} {m : Machine} {G : Tables} {e : ℕ → ℕ}
  {pt : PageTable} {as : AddrSpace}

/-! ## Creation -/

theorem mappagesTop_spec {pa perm : ℕ} (va : ℕ) (l : Leaf) (h : VmInv img m G e) (hG : G id = some pt)
    (hva : va < maxva) (halign : va % pgsize = 0) (hv : ¬ va / pgsize < userVpns)
    (hnone : pt.leaf (va / pgsize) = none) (hl : l.pa = pa) (hflags : l.flags = perm ||| pteV)
    (huser : l.flags.testBit 4 = false) :
    Except.Sat (fun _ => False) (fun r => ∃ pt',
        VmInv img r.2 (update G id (some pt')) e ∧ pt'.root = pt.root ∧
        (∀ w, w ≠ va / pgsize → pt'.leaf w = pt.leaf w) ∧
        KeepsPrivate e G (update G id (some pt')) ∧
        view r.2.mem (update G id (some pt')) = view m.mem G)
      (mappages (idx2pa pt.root) va pgsize pa perm m) := by
  rw [mappages_page _ _ _ halign]
  refine (walk_true_spec h hG hva).bind ?_
  rintro ⟨_ | pte, m1⟩ ⟨pt1, hw, hpte⟩
  · exact ⟨pt1, hw.next.inv, hw.root, fun w _ => by rw [hw.leaf], hw.next.priv, hw.view⟩
  · obtain ⟨t, ht, rfl⟩ := hpte pte rfl
    have hG1 : update G id (some pt1) id = some pt1 := update_self ..
    have hword := (hw.next.inv.represents id pt1 hG1).leafWord_vpn ht
    rw [hw.leaf, hnone] at hword
    have hset := hw.next.inv.setTop hG1 ht hv (some l) fun _ heq => Option.some.inj heq ▸ huser
    obtain ⟨hpriv, hview⟩ := setTop_keeps (x := some l) hw.next.inv hG1 ht hv
    rw [update_idem] at hset hpriv hview
    show Except.Sat _ _ (if rd32 m1.mem _ &&& pteV ≠ 0 then _ else _)
    rw [hword, if_neg leafEntry_none_valid, show pa2pte pa ||| perm ||| pteV = l.pte by
      rw [Nat.or_assoc, ← hl]; exact congrArg (pa2pte l.pa ||| ·) hflags.symm]
    refine ⟨_, hset, hw.root, fun w hw' => ?_, hw.next.priv.trans hpriv, hview.trans hw.view⟩
    show update pt1.leaf _ _ w = _
    rw [update_of_ne hw', hw.leaf]

/-- The entry of a page of the kernel. -/
def kernelLeaf (pa perm : ℕ) (ha : pa % pgsize = 0) (hlt : pa < 2 ^ 32) (hp : perm < 2 ^ 10) :
    Leaf where
  pa := pa
  flags := perm ||| pteV
  aligned := ha
  pa_lt := hlt
  flags_lt := or_pteV_lt hp
  valid := or_pteV_testBit perm

theorem view_attach (mem : Mem) (hG : G id = none) (p : ℕ) :
    view mem (update G id (some (PageTable.empty p))) = view mem G := by
  refine view_congr (fun id' v _ => ?_) fun _ _ _ _ => rfl
  by_cases hid : id' = id
  · rw [hid, update_self, hG]
    rfl
  · rw [update_of_ne hid]

theorem keepsPrivate_attach (h : VmInv img m G e) (hc : Holders.count (owned G) p = 0)
    (h' : VmInv img m (update G id (some (PageTable.empty p))) (update e p 0)) :
    KeepsPrivate e G (update G id (some (PageTable.empty p))) := by
  intro id' v l' hl'
  have hold : UserLeaf G id' v l' := by
    obtain ⟨hv, pt', hpt', hl⟩ := hl'
    by_cases hid : id' = id
    · rw [hid, update_self] at hpt'
      obtain rfl := Option.some.inj hpt'
      cases hl
    · rw [update_of_ne hid] at hpt'
      exact ⟨hv, pt', hpt', hl⟩
  refine .inl ⟨l', hold, rfl, ?_, fun hcow => hcow⟩
  have h1 := h.count (pa2idx l'.pa)
  have h2 := h'.count (pa2idx l'.pa)
  rw [update_of_ne (h.leaf_ne hc hold)] at h2
  omega

/-- A created address space: no user pages yet, or no memory left. -/
structure Created (img : KernelImage) (id : ℕ) (m : Machine) (G : Tables) (e : ℕ → ℕ)
    (as : AddrSpace) (m' : Machine) (G' : Tables) : Prop where
  inv : VmInv img m' G' e
  others : ∀ id', id' ≠ id → G' id' = G id'
  priv : KeepsPrivate e G G'
  view : view m'.mem G' = view m.mem G
  regions : as.regions = []
  made : (as.pagetable = 0 ∧ G' = G) ∨ Rooted G' id as

theorem dropSpace_view (mem : Mem) (hG : G id = none) : dropSpace (view mem G) id = view mem G := by
  funext ⟨id', v⟩
  unfold dropSpace view
  split_ifs with hid hv
  · subst hid
    simp [hG]
  · rfl
  · rfl
  · rfl

/-- `proc_addrspace_create` never panics. -/
theorem procAddrspaceCreate_spec {tf : ℕ} (h : VmInv img m G e) (hG : G id = none)
    (htf : tf % pgsize = 0) (htf' : tf < 2 ^ 32) :
    Except.Sat (fun _ => False) (fun r => ∃ G', Created img id m G e r.1 r.2 G')
      (procAddrspaceCreate img tf m) := by
  unfold procAddrspaceCreate asCreate uvmcreate
  rcases h.kalloc with ⟨m1, hk, hinv, hmem⟩ | ⟨p, m1, hk, hinv, hc, he, hlt, hsame⟩
  · rw [hk]
    dsimp only
    rw [if_pos rfl]
    exact ⟨G, hinv, fun _ _ => rfl, .refl e G, by rw [hmem], rfl, .inl ⟨rfl, rfl⟩⟩
  · rw [hk]
    dsimp only
    rw [if_neg (idx2pa_ne_zero p)]
    have hhand : 1 ≤ update e p 1 p := by rw [update_self]
    have hinv2 : VmInv img (m1.memset (idx2pa p) 0) G (update e p 1) :=
      hinv.withMem (SameOutside.memset m1.mem p 0) fun q hq heq =>
        hinv.not_table_of_hand hhand (heq ▸ hq)
    have hview2 : view (m1.memset (idx2pa p) 0).mem G = view m.mem G :=
      view_of_same (hsame.trans (SameOutside.memset m1.mem p 0)) fun _ _ _ hl heq =>
        h.leaf_ne hc hl heq
    have hinv3 := hinv2.attach id hG hc (update_self ..) fun j hj =>
      rd32_memset_zero m1.mem (Nat.le_add_right _ _) (by rw [pgsize_eq]; omega)
    have hpriv3 := keepsPrivate_attach hinv2 hc hinv3
    have hview3 := (view_attach (m1.memset (idx2pa p) 0).mem hG p).trans hview2
    rw [update_idem, ← he, update_eq_self] at hinv3
    have hG3 : update G id (some (PageTable.empty p)) id = some (PageTable.empty p) :=
      update_self ..
    -- whatever fails after this, `as_destroy` brings us back to `G`
    have hfail : ∀ {m4 : Machine} {pt4 : PageTable},
        VmInv img m4 (update G id (some pt4)) e → pt4.root = p →
        view m4.mem (update G id (some pt4)) = view m.mem G →
        Except.Sat (fun _ => False) (fun r => ∃ G', Created img id m G e r.1 r.2 G')
          (asDestroy img ⟨idx2pa p, []⟩ m4) := fun {m4 pt4} hinv4 hroot4 hview4 => by
      obtain ⟨m5, hk5, hinv5, -, hview5⟩ := asDestroy_spec hinv4
        (show Rooted _ id ⟨idx2pa p, []⟩ from ⟨pt4, update_self .., by rw [hroot4]⟩) (fun r hr => nomatch hr)
      have hback : update (update G id (some pt4)) id none = G := by
        rw [update_idem, ← hG, update_eq_self]
      rw [hback] at hinv5 hview5
      rw [hk5]
      refine ⟨G, hinv5, fun _ _ => rfl, .refl e G, ?_, rfl, .inl ⟨rfl, rfl⟩⟩
      rw [hview5, hview4, dropSpace_view _ hG]
    have htramp : img.trampolinePa < 2 ^ 32 := by
      have h1 := img.trampoline_lt
      have h2 := img.le_phystop
      rw [phystop_eq] at h2
      omega
    refine (mappagesTop_spec trampoline (kernelLeaf img.trampolinePa (pteR ||| pteX) img.trampoline_aligned htramp
      (by decide)) hinv3 hG3 (by decide) (by decide) (by decide) rfl rfl rfl
      (show (pteR ||| pteX ||| pteV).testBit 4 = false by decide)).bind ?_
    rintro ⟨b4, m4⟩ ⟨pt4, hinv4, hroot4, hleaf4, hpriv4, hview4⟩
    rw [update_idem] at hinv4 hpriv4 hview4
    cases b4 with
    | false => exact hfail hinv4 hroot4 (hview4.trans hview3)
    | true =>
      have hG4 : update G id (some pt4) id = some pt4 := update_self ..
      have hnone : pt4.leaf (trapframe / pgsize) = none := hleaf4 _ (by decide)
      have hmap := mappagesTop_spec trapframe (kernelLeaf tf (pteR ||| pteW) htf htf' (by decide)) hinv4 hG4
        (by decide) (by decide) (by decide) hnone rfl rfl
        (show (pteR ||| pteW ||| pteV).testBit 4 = false by decide)
      rw [hroot4] at hmap
      refine hmap.bind ?_
      rintro ⟨b5, m5⟩ ⟨pt5, hinv5, hroot5, hleaf5, hpriv5, hview5⟩
      rw [update_idem] at hinv5 hpriv5 hview5
      have hview : view m5.mem (update G id (some pt5)) = view m.mem G :=
        (hview5.trans hview4).trans hview3
      cases b5 with
      | false => exact hfail hinv5 hroot5 hview
      | true =>
        exact ⟨_, hinv5, fun id' hid => update_of_ne hid _ _,
          (hpriv3.put_down.trans hpriv4).trans hpriv5, hview, rfl,
          .inr ⟨pt5, update_self .., congrArg idx2pa hroot5.symm⟩⟩

/-! ## Copying a page -/

/-- The view with page `v` of `s` copied to `d`, if it is there. -/
def copyPage (V : ℕ × ℕ → Option UserPage) (s d v : ℕ) : ℕ × ℕ → Option UserPage :=
  update V (d, v) ((V (s, v)).or (V (d, v)))

/-- From `G` to `G'` by an operation that shares pages of `s` with `d`. -/
structure CopyNext (img : KernelImage) (s d : ℕ) (G : Tables) (m' : Machine) (G' : Tables)
    (e : ℕ → ℕ) : Prop where
  inv : VmInv img m' G' e
  others : ∀ id, id ≠ s → id ≠ d → G' id = G id
  table : ∀ id pt, G id = some pt → ∃ pt', G' id = some pt' ∧ pt'.root = pt.root
  unshared : ∀ id, id ≠ s → id ≠ d → Unshared G id → Unshared G' id
  apart : Apart G e → Apart G' e
  kept : ∀ id, id ≠ d → ∀ v l', UserLeaf G' id v l' → ∃ l, UserLeaf G id v l

namespace CopyNext

variable {s d : ℕ} {m' m'' : Machine} {G' G'' : Tables}

theorem refl (h : VmInv img m G e) : CopyNext img s d G m G e :=
  ⟨h, fun _ _ _ => rfl, fun _ pt hpt => ⟨pt, hpt, rfl⟩, fun _ _ _ hu => hu, fun ha => ha,
    fun _ _ _ l' hl' => ⟨l', hl'⟩⟩

theorem trans (h : CopyNext img s d G m' G' e) (h' : CopyNext img s d G' m'' G'' e) :
    CopyNext img s d G m'' G'' e where
  inv := h'.inv
  others id h1 h2 := (h'.others id h1 h2).trans (h.others id h1 h2)
  table id pt hpt := by
    obtain ⟨pt', hpt', hr'⟩ := h.table id pt hpt
    obtain ⟨pt'', hpt'', hr''⟩ := h'.table id pt' hpt'
    exact ⟨pt'', hpt'', hr''.trans hr'⟩
  unshared id h1 h2 hu := h'.unshared id h1 h2 (h.unshared id h1 h2 hu)
  apart ha := h'.apart (h.apart ha)
  kept id hid v l' hl' := by
    obtain ⟨l, hl⟩ := h'.kept id hid v l' hl'
    exact h.kept id hid v l hl

theorem of_next (h : Next img d G m' G' e) : CopyNext img s d G m' G' e where
  inv := h.inv
  others id _ h2 := h.others id h2
  table id pt hpt := by
    by_cases hid : id = d
    · subst hid
      obtain ⟨pt', hpt', hr, -⟩ := h.table pt hpt
      exact ⟨pt', hpt', hr⟩
    · exact ⟨pt, (h.others id hid).trans hpt, rfl⟩
  unshared _ _ _ hu := hu.keeps h.priv
  apart ha := ha.keeps h.priv
  kept id hid v l' hl' := by
    obtain ⟨hv, pt, hG, hl⟩ := hl'
    exact ⟨l', hv, pt, (h.others id hid).symm.trans hG, hl⟩

theorem rooted (h : CopyNext img s d G m' G' e) (hr : Rooted G id as) : Rooted G' id as := by
  obtain ⟨pt, hG, has⟩ := hr
  obtain ⟨pt', hG', hroot⟩ := h.table id pt hG
  exact ⟨pt', hG', by rw [has, hroot]⟩

end CopyNext

theorem cowFlags_bits (fl : ℕ) (hlt : fl < 2 ^ 10) :
    cowFlags fl < 2 ^ 10 ∧ (cowFlags fl).testBit 2 = false ∧ (cowFlags fl).testBit 8 = true ∧
      ∀ i, i ≠ 2 → i ≠ 8 → i < 32 → (cowFlags fl).testBit i = fl.testBit i := by
  have hW : ∀ i, pteW.testBit i = decide (2 = i) := fun i => by
    rw [pteW, Nat.one_shiftLeft, Nat.testBit_two_pow]
  have hC : ∀ i, pteCOW.testBit i = decide (8 = i) := fun i => by
    rw [pteCOW, Nat.one_shiftLeft, Nat.testBit_two_pow]
  have hbit : ∀ i, (cowFlags fl).testBit i =
      (fl.testBit i && (decide (i < 32) && !decide (2 = i)) || decide (8 = i)) := fun i => by
    rw [cowFlags, Nat.testBit_or, Nat.testBit_and, testBit_not32 (by decide), hW, hC]
  refine ⟨?_, by rw [hbit]; simp, by rw [hbit]; simp, fun i h2 h8 h3 => ?_⟩
  · exact Nat.or_lt_two_pow (Nat.lt_of_le_of_lt Nat.and_le_left hlt) (by decide)
  · rw [hbit, decide_eq_true h3, decide_eq_false (Ne.symm h2), decide_eq_false (Ne.symm h8)]
    simp

theorem eagerFlags_cowFlags {fl : ℕ} (hlt : fl < 2 ^ 10) (hw : fl.testBit 2 = true)
    (hc : fl.testBit 8 = false) : eagerFlags (cowFlags fl) = fl := by
  obtain ⟨hlt', h2, h8, hrest⟩ := cowFlags_bits fl hlt
  rw [eagerFlags, if_pos h8]
  refine Nat.eq_of_testBit_eq fun i => ?_
  rw [Nat.testBit_and, Nat.testBit_or, testBit_not32 (by decide), pteW, pteCOW, Nat.one_shiftLeft,
    Nat.one_shiftLeft, Nat.testBit_two_pow, Nat.testBit_two_pow]
  by_cases hi2 : i = 2
  · subst hi2
    simp [hw]
  · by_cases hi8 : i = 8
    · subst hi8
      simp [hc]
    · rw [decide_eq_false (Ne.symm hi2), decide_eq_false (Ne.symm hi8)]
      by_cases hi : i < 32
      · rw [hrest i hi2 hi8 hi]
        simp [hi]
      · have hbig : fl < 2 ^ i := hlt.trans_le (Nat.pow_le_pow_right (by decide) (by omega))
        rw [Nat.testBit_lt_two_pow hbig]
        simp [hi]

/-- The entry both address spaces get when a page is shared. -/
def sharedLeaf (l : Leaf) : Leaf where
  pa := l.pa
  flags := if l.flags.testBit 2 then cowFlags l.flags else l.flags
  aligned := l.aligned
  pa_lt := l.pa_lt
  flags_lt := by
    split_ifs
    · exact (cowFlags_bits l.flags l.flags_lt).1
    · exact l.flags_lt
  valid := by
    split_ifs
    · rw [(cowFlags_bits l.flags l.flags_lt).2.2.2 0 (by decide) (by decide) (by decide), l.valid]
    · exact l.valid

theorem sharedLeaf_not_writable (l : Leaf) : (sharedLeaf l).flags.testBit 2 = false := by
  unfold sharedLeaf
  dsimp only
  split_ifs with hw
  · exact (cowFlags_bits l.flags l.flags_lt).2.1
  · exact Bool.eq_false_iff.mpr hw

theorem sharedLeaf_readable {l : Leaf} (h : l.flags.testBit 1 = true) :
    (sharedLeaf l).flags.testBit 1 = true := by
  unfold sharedLeaf
  dsimp only
  split_ifs
  · rw [(cowFlags_bits l.flags l.flags_lt).2.2.2 1 (by decide) (by decide) (by decide), h]
  · exact h

theorem sharedLeaf_eager {l : Leaf}
    (h : l.flags.testBit 2 = true → l.flags.testBit 8 = false) :
    eagerFlags (sharedLeaf l).flags = eagerFlags l.flags := by
  unfold sharedLeaf
  dsimp only
  split_ifs with hw
  · rw [eagerFlags_cowFlags l.flags_lt hw (h hw), eagerFlags_of_not_cow (h hw)]
  · rfl

theorem protect_spec {t : ℕ} {l : Leaf} (h : VmInv img m G e) (hG : G id = some pt)
    (ht : pt.dir (v / 1024) = some t) (hv : v < userVpns) (hl : pt.leaf v = some l)
    {G1 : Tables} (hG1 : G1 = update G id (some (pt.setLeaf v (some (sharedLeaf l)) ⟨t, ht⟩))) :
    VmInv img (m.wr32 (idx2pa t + 4 * (v % 1024)) (sharedLeaf l).pte) G1 e ∧
      owned G1 = owned G ∧ UserLeaf G1 id v (sharedLeaf l) ∧
      view (m.wr32 (idx2pa t + 4 * (v % 1024)) (sharedLeaf l).pte).mem G1 = view m.mem G := by
  have hul : UserLeaf G id v l := ⟨hv, pt, hG, hl⟩
  have hok := h.leaves id v l hul
  have hinv := h.reflag (sharedLeaf l) hG ht hv hl rfl (sharedLeaf_readable hok.readable)
    fun hw => absurd ((sharedLeaf_not_writable l).symm.trans hw) (by decide)
  rw [← hG1] at hinv
  refine ⟨hinv, ?_, ?_, ?_⟩
  · rw [hG1, owned_setLeaf hG, if_pos hv, Option.map_some,
      show pa2idx (sharedLeaf l).pa = pa2idx l.pa from rfl, ← hul.owned_eq, update_eq_self]
  · rw [hG1]
    exact ⟨hv, _, update_self .., update_self ..⟩
  · have hold : view m.mem G (id, v) = some (l.userPage m.mem) := by simp [view, hG, hl, hv]
    have hpage : (sharedLeaf l).userPage m.mem = l.userPage m.mem := by
      unfold Leaf.userPage
      rw [sharedLeaf_eager fun hw => (hok.sole hw).1]
      rfl
    subst hG1
    rw [view_writeLeaf hG ht hv hinv, Option.map_some, hpage, ← hold, update_eq_self]

theorem no_writer {l l' : Leaf} {id' v' : ℕ} (h : VmInv img m G e) (hl : UserLeaf G id v l)
    (hw : l.flags.testBit 2 = false) (hl' : UserLeaf G id' v' l')
    (hpg : pa2idx l'.pa = pa2idx l.pa) : v' = v ∧ l'.flags.testBit 2 = false := by
  have hv := (h.leaves id v l hl).place id' v' l' hl' hpg
  refine ⟨hv, Bool.eq_false_iff.mpr fun hw' => ?_⟩
  have hone := ((h.leaves id' v' l' hl').sole hw').2
  rw [hpg] at hone
  have heq := Holders.eq_of_count_le_one h.bounded (Nat.le_of_eq hone) hl.owned_eq
    (hpg ▸ hl'.owned_eq)
  obtain ⟨rfl, hs⟩ := Prod.mk.inj heq
  obtain rfl := Slot.leaf.inj hs
  obtain ⟨-, pt, hG, hlv⟩ := hl
  obtain ⟨-, pt', hG', hlv'⟩ := hl'
  obtain rfl := Option.some.inj (hG.symm.trans hG')
  obtain rfl := Option.some.inj (hlv.symm.trans hlv')
  rw [hw] at hw'
  cases hw'

theorem flags_or_valid (l : Leaf) : l.flags ||| pteV = l.flags := by
  refine Nat.eq_of_testBit_eq fun i => ?_
  rw [Nat.testBit_or, pteV, Nat.one_shiftLeft, Nat.testBit_two_pow]
  by_cases hi : i = 0
  · rw [hi, l.valid]
    rfl
  · rw [decide_eq_false (Ne.symm hi), Bool.or_false]

/-- No entry of the address space is writable. -/
def ReadOnly (G : Tables) (id : ℕ) : Prop :=
  ∀ v l, UserLeaf G id v l → l.flags.testBit 2 = false

/-- The postcondition of copying page `v`. -/
def CopiedPage (img : KernelImage) (s d v : ℕ) (m : Machine) (G : Tables) (e : ℕ → ℕ)
    (r : Bool × Machine) : Prop :=
  ∃ G', CopyNext img s d G r.2 G' e ∧ (ReadOnly G d → ReadOnly G' d) ∧
    SameMemory d m G r.2 G' ∧ (r.1 = true → view r.2.mem G' = copyPage (view m.mem G) s d v)

theorem CopiedPage.absent {s d : ℕ} (h : VmInv img m G e) (hnone : view m.mem G (s, v) = none) :
    CopiedPage img s d v m G e (true, m) := by
  refine ⟨G, CopyNext.refl h, fun hro => hro, .refl d m G, fun _ => ?_⟩
  rw [copyPage, hnone, Option.none_or, update_eq_self]

/-- Sharing a page that is there: its reference is taken before it is mapped. -/
theorem sharePage_spec {s d : ℕ} {pd : PageTable} {l : Leaf} (h : VmInv img m G e)
    (he : ∀ p, e p ≤ 1) (hl : UserLeaf G s v l) (hw : l.flags.testBit 2 = false)
    (hd : G d = some pd) (hsd : s ≠ d) :
    Except.Sat (· = .mappagesRemap) (CopiedPage img s d v m G e) (do
      let m ← m.kaddref l.pa
      match ← mappages (idx2pa pd.root) (v * pgsize) pgsize l.pa l.flags m with
      | (true, m) => .ok (true, m)
      | (false, m) =>
        let m ← m.kfree img l.pa
        .ok (false, m)) := by
  have hpa := h.leaf_pa hl
  have hok := h.leaves s v l hl
  obtain ⟨m1, hk1, hinv1, hmem1⟩ := h.kaddref hl (he _)
  have hhand : 1 ≤ update e (pa2idx l.pa) (e (pa2idx l.pa) + 1) (pa2idx l.pa) := by
    rw [update_self]
    omega
  have hback : update (update e (pa2idx l.pa) (e (pa2idx l.pa) + 1)) (pa2idx l.pa)
      (update e (pa2idx l.pa) (e (pa2idx l.pa) + 1) (pa2idx l.pa) - 1) = e := by
    rw [update_self, update_idem, Nat.add_sub_cancel, update_eq_self]
  have hview1 : view m1.mem G = view m.mem G := by rw [hmem1]
  -- the other address spaces' own pages are not the shared one
  have hother : ∀ {id' v' l'}, id' ≠ s → UserLeaf G id' v' l' →
      Holders.count (owned G) (pa2idx l'.pa) ≤ 1 → pa2idx l'.pa ≠ pa2idx l.pa :=
    fun {id' v' l'} hid hl' hone heq => by
      have hs : owned G (s, .leaf v) = some (pa2idx l'.pa) := by rw [heq]; exact hl.owned_eq
      have := Holders.eq_of_count_le_one h.bounded hone hl'.owned_eq hs
      exact hid (Prod.mk.inj this).1
  have hunshared : ∀ {G' : Tables}, (∀ id, id ≠ s → id ≠ d → G' id = G id) →
      (∀ q, 1 ≤ m1.kmem.refcnt q → q ≠ pa2idx l.pa →
        Holders.count (owned G') q = Holders.count (owned G) q) →
      ∀ id, id ≠ s → id ≠ d → Unshared G id → Unshared G' id :=
    fun {G'} hothers hcount id hs hd' hu v' l' hl' => by
      have hold : UserLeaf G id v' l' := by
        obtain ⟨hv, pt', hpt', hlv⟩ := hl'
        exact ⟨hv, pt', (hothers id hs hd').symm.trans hpt', hlv⟩
      obtain ⟨hone, hcow⟩ := hu v' l' hold
      rw [hcount _ (hinv1.owned_pos hold.owned_eq) (hother hs hold hone)]
      exact ⟨hone, hcow⟩
  have hkept : ∀ {pd' : PageTable} (id : ℕ), id ≠ d → ∀ v l',
      UserLeaf (update G d (some pd')) id v l' → ∃ l, UserLeaf G id v l :=
    fun id hid v l' hl' => by
      obtain ⟨hv, pt, hG, hlv⟩ := hl'
      rw [update_of_ne hid] at hG
      exact ⟨l', hv, pt, hG, hlv⟩
  have hpages : ∀ {pd' : PageTable} (id : ℕ), id ≠ d → ∀ x,
      owned (update G d (some pd')) (id, x) = owned G (id, x) :=
    fun id hid x => by simp only [owned, update_of_ne hid]
  rw [hk1, Except.ok_bind]
  have hmap := mappages_spec (v * pgsize) l.flags (p := pa2idx l.pa) hinv1 hd
    (mul_pgsize_mod v) (by rw [mul_pgsize_div]; exact hl.1) hpa.symm (flags_or_valid l).symm hhand
    hok.readable (fun hw' => absurd (hw.symm.trans hw') (by decide)) fun id' v' l' hl' hpg => by
      rw [mul_pgsize_div]
      exact no_writer h hl hw hl' hpg
  rw [hpa, mul_pgsize_div] at hmap
  refine (hmap.mono (fun _ he => he.1) fun _ hq => hq).bind ?_
  rintro ⟨_ | _, m2⟩ ⟨pd', hr⟩
  · have hr : Walked img d m1 G _ pd m2 pd' := hr
    obtain ⟨m3, hk3, hinv3, hsame3⟩ := hr.next.inv.kfree (p := pa2idx l.pa) hhand
    rw [hpa] at hk3
    rw [hback] at hinv3
    simp only [hk3, Except.ok_bind]
    -- the page keeps its holder in the source, so `kfree` only drops a reference
    have hstill : Holders.count (owned (update G d (some pd'))) (pa2idx l.pa) ≠ 0 := by
      rw [hr.count _ (hinv1.owned_pos hl.owned_eq)]
      exact Nat.one_le_iff_ne_zero.mp (Holders.count_pos h.bounded hl.owned_eq)
    have hview3 : view m3.mem (update G d (some pd')) = view m.mem G := by
      rw [view_of_same hsame3 fun _ _ _ _ hin => hstill hin.2, hr.view, hview1]
    refine ⟨_, ⟨hinv3, fun id _ hd' => update_of_ne hd' _ _, fun id pt hpt => ?_,
      hunshared (fun id _ hd' => update_of_ne hd' _ _) fun q hq _ => hr.count q hq,
      fun ha id' v' l' hl' => ha id' v' l' ((userLeaf_of_leaf_eq hd hr.leaf).mp hl'), hkept⟩,
      fun hro v' l' hl' => hro v' l' ((userLeaf_of_leaf_eq hd hr.leaf).mp hl'),
      ⟨hpages, fun x _ => by rw [hview3]⟩, (by rintro ⟨⟩)⟩
    by_cases hid : id = d
    · subst hid
      obtain rfl := Option.some.inj (hd.symm.trans hpt)
      exact ⟨pd', update_self .., hr.root⟩
    · exact ⟨pt, by rw [update_of_ne hid, hpt], rfl⟩
  · have hr : Mapped img d v (pa2idx l.pa) l m1 G _ pd m2 pd' := hr
    have hinv2 := hr.inv
    rw [hback] at hinv2
    refine ⟨_, ⟨hinv2, fun id _ hd' => update_of_ne hd' _ _, fun id pt hpt => ?_,
      hunshared (fun id _ hd' => update_of_ne hd' _ _) fun q hq hne => ?_,
      fun ha id' v' l' hl' => ?_, hkept⟩, fun hro v' l' hl' => ?_, ⟨hpages, fun x hx => ?_⟩,
      fun _ => ?_⟩
    · by_cases hid : id = d
      · subst hid
        obtain rfl := Option.some.inj (hd.symm.trans hpt)
        exact ⟨pd', update_self .., hr.root⟩
      · exact ⟨pt, by rw [update_of_ne hid, hpt], rfl⟩
    · rw [hr.count q hq, if_neg hne]
      rfl
    · rcases hr.userLeaf hd hl' with ⟨-, -, rfl⟩ | hold
      · exact ha s v l' hl
      · exact ha id' v' l' hold
    · rcases hr.userLeaf hd hl' with ⟨-, -, rfl⟩ | hold
      · exact hw
      · exact hro v' l' hold
    · rw [hr.view, hview1, update_of_ne fun heq => hx (congrArg Prod.fst heq)]
    · obtain ⟨hv, pt, hG, hlv⟩ := hl
      have hold : view m.mem G (s, v) = some (l.userPage m.mem) := by simp [view, hG, hlv, hv]
      rw [hr.view, hview1, copyPage, hold, Option.some_or, hmem1]
      rfl

theorem protect_eq {a : ℕ} {l : Leaf} (hword : rd32 m.mem a = l.pte) :
    (if l.flags &&& pteW ≠ 0 then m.wr32 a (pa2pte l.pa ||| cowFlags l.flags) else m) =
      m.wr32 a (sharedLeaf l).pte ∧
    (if l.flags &&& pteW ≠ 0 then cowFlags l.flags else l.flags) = (sharedLeaf l).flags := by
  by_cases hw : l.flags &&& pteW ≠ 0
  · have hbit : l.flags.testBit 2 = true := (and_shift_ne_zero _ _).mp hw
    have hfl : (sharedLeaf l).flags = cowFlags l.flags := if_pos hbit
    rw [if_pos hw, if_pos hw, Leaf.pte, hfl]
    exact ⟨rfl, rfl⟩
  · have hbit : ¬ l.flags.testBit 2 = true := fun hb => hw ((and_shift_ne_zero _ _).mpr hb)
    have hfl : (sharedLeaf l).flags = l.flags := if_neg hbit
    rw [if_neg hw, if_neg hw, hfl]
    refine ⟨?_, rfl⟩
    have hpte : (sharedLeaf l).pte = rd32 m.mem a := by
      rw [hword, Leaf.pte, Leaf.pte, hfl]
      rfl
    rw [hpte]
    show m = { m with mem := wr32 m.mem a (rd32 m.mem a) }
    rw [wr32_rd32]

variable {s d : ℕ} {src dst : AddrSpace}

theorem asCopyPage_spec (h : VmInv img m G e) (he : ∀ p, e p ≤ 1) (hs : Rooted G s src)
    (hd : Rooted G d dst) (hsd : s ≠ d) (hv : v < userVpns) :
    Except.Sat (· = .mappagesRemap) (CopiedPage img s d v m G e)
      (asCopyPage img dst.pagetable src.pagetable (v * pgsize) m) := by
  have hva : v * pgsize < maxva := by
    rw [userVpns_eq] at hv
    rw [maxva_eq, pgsize_eq]
    omega
  obtain ⟨ps, hGs, hsrc⟩ := hs
  obtain ⟨pd, hGd, hdst⟩ := hd
  rw [asCopyPage, hsrc, hdst]
  have habsent : ps.leaf v = none → CopiedPage img s d v m G e (true, m) := fun hnone =>
    .absent h (by simp [view, hGs, hnone])
  rcases walk_false_cases h hGs hva with ⟨hnone, hwalk⟩ | ⟨t, ht, hwalk, hword⟩
  · rw [mul_pgsize_div] at hnone
    rw [hwalk]
    exact habsent hnone
  · rw [mul_pgsize_div] at ht hword hwalk
    rw [hwalk, Except.ok_bind]
    dsimp only
    rw [hword]
    cases hl : ps.leaf v with
    | none => exact habsent hl
    | some l =>
      rw [hl] at hword
      have hword : rd32 m.mem (idx2pa t + 4 * (v % 1024)) = l.pte := hword
      obtain ⟨hprot, hflags⟩ := protect_eq hword
      rw [if_neg (leafEntry_some_valid l), show leafEntry (some l) = l.pte from rfl, l.pte2pa_pte,
        l.pteFlags_pte, hflags]
      obtain ⟨hinv1, howned, hul1, hview1⟩ := protect_spec h hGs ht hv hl rfl
      have hG1d : update G s (some (ps.setLeaf v (some (sharedLeaf l)) ⟨t, ht⟩)) d = some pd := by
        rw [update_of_ne (Ne.symm hsd), hGd]
      have hnext : CopyNext img s d G (m.wr32 (idx2pa t + 4 * (v % 1024)) (sharedLeaf l).pte)
          (update G s (some (ps.setLeaf v (some (sharedLeaf l)) ⟨t, ht⟩))) e := by
        refine ⟨hinv1, fun id hs' _ => update_of_ne hs' _ _, fun id pt hpt => ?_,
          fun id hs' _ hu v' l' hl' => ?_, fun ha id' v' l' hl' => ?_, fun id' _ v' l' hl' => ?_⟩
        · by_cases hid : id = s
          · subst hid
            obtain rfl := Option.some.inj (hGs.symm.trans hpt)
            exact ⟨_, update_self .., rfl⟩
          · exact ⟨pt, by rw [update_of_ne hid, hpt], rfl⟩
        · rw [howned]
          obtain ⟨hv', pt', hpt', hlv⟩ := hl'
          rw [update_of_ne hs'] at hpt'
          exact hu v' l' ⟨hv', pt', hpt', hlv⟩
        · rcases userLeaf_setLeaf hGs hl' with ⟨-, -, hx⟩ | ⟨-, hold⟩
          · obtain rfl := Option.some.inj hx
            exact ha s v l ⟨hv, ps, hGs, hl⟩
          · exact ha id' v' l' hold
        · rcases userLeaf_setLeaf hGs hl' with ⟨rfl, rfl, -⟩ | ⟨-, hold⟩
          · exact ⟨l, hv, ps, hGs, hl⟩
          · exact ⟨l', hold⟩
      have hshare := sharePage_spec hinv1 he hul1 (sharedLeaf_not_writable l) hG1d hsd
      have hstate : (if l.flags &&& pteW ≠ 0 then
          m.wr32 (idx2pa t + 4 * (v % 1024)) (pa2pte l.pa ||| (sharedLeaf l).flags) else m) =
            m.wr32 (idx2pa t + 4 * (v % 1024)) (sharedLeaf l).pte := by
        rw [← hprot]
        split_ifs with hw
        · rw [← hflags, if_pos hw]
        · rfl
      rw [hstate]
      refine hshare.post ?_
      rintro r ⟨G', hnext', hro', hframe', hview'⟩
      refine ⟨G', hnext.trans hnext', fun hro => hro' fun v' l' hl' => ?_,
        SameMemory.trans ⟨fun id _ x => by rw [howned], fun x _ => by rw [hview1]⟩ hframe', fun hr => ?_⟩
      · rcases userLeaf_setLeaf hGs hl' with ⟨rfl, -, -⟩ | ⟨-, hold⟩
        · exact absurd rfl hsd
        · exact hro v' l' hold
      · rw [hview' hr, hview1]

/-- The view with the pages `v .. v + n` of `s` copied to `d`. -/
def copyPages (V : ℕ × ℕ → Option UserPage) (s d v n : ℕ) : ℕ × ℕ → Option UserPage := fun x =>
  if x.1 = d ∧ v ≤ x.2 ∧ x.2 < v + n then (V (s, x.2)).or (V x) else V x

theorem copyPages_succ (V : ℕ × ℕ → Option UserPage) (hsd : s ≠ d) (v n : ℕ) :
    copyPages (copyPage V s d v) s d (v + 1) n = copyPages V s d v (n + 1) := by
  funext ⟨id', v'⟩
  unfold copyPages copyPage
  have hs : ∀ w, update V (d, v) ((V (s, v)).or (V (d, v))) (s, w) = V (s, w) := fun w =>
    update_of_ne (fun heq => hsd (Prod.mk.inj heq).1) _ _
  simp only [hs]
  by_cases hx : (id', v') = (d, v)
  · obtain ⟨rfl, rfl⟩ := Prod.mk.inj hx
    rw [if_neg (by omega), update_self, if_pos ⟨rfl, by omega⟩]
  · rw [update_of_ne hx]
    have hne : ¬ (id' = d ∧ v' = v) := fun ⟨h1, h2⟩ => hx (by rw [h1, h2])
    by_cases hin : id' = d ∧ v + 1 ≤ v' ∧ v' < v + 1 + n
    · rw [if_pos hin, if_pos (by omega)]
    · rw [if_neg hin, if_neg (by omega)]

theorem asCopyPages_spec (n : ℕ) (h : VmInv img m G e) (he : ∀ p, e p ≤ 1) (hs : Rooted G s src)
    (hd : Rooted G d dst) (hsd : s ≠ d) (hn : v + n ≤ userVpns) :
    Except.Sat (· = .mappagesRemap) (fun r => ∃ G', CopyNext img s d G r.2 G' e ∧
        (ReadOnly G d → ReadOnly G' d) ∧ SameMemory d m G r.2 G' ∧
        (r.1 = true → view r.2.mem G' = copyPages (view m.mem G) s d v n))
      (asCopyPages img dst.pagetable src.pagetable n (v * pgsize) m) := by
  induction n generalizing v m G with
  | zero =>
    refine ⟨G, CopyNext.refl h, fun hro => hro, .refl d m G, fun _ => ?_⟩
    funext x
    exact (if_neg (by omega)).symm
  | succ n ih =>
    have hv : v < userVpns := by omega
    refine (asCopyPage_spec h he hs hd hsd hv).bind ?_
    rintro ⟨_ | _, m1⟩ ⟨G1, hnext1, hro1, hframe1, hview1⟩
    · exact ⟨G1, hnext1, hro1, hframe1, nofun⟩
    · dsimp only
      rw [next_page hv]
      refine (ih hnext1.inv (hnext1.rooted hs) (hnext1.rooted hd) (by omega)).post ?_
      rintro r ⟨G2, hnext2, hro2, hframe2, hview2⟩
      refine ⟨G2, hnext1.trans hnext2, fun hro => hro2 (hro1 hro),
        hframe1.trans hframe2, fun hr => ?_⟩
      rw [hview2 hr, hview1 rfl, copyPages_succ _ hsd]

/-! ## Copying the regions -/

theorem asAddRegion_eq {as' : AddrSpace} {a b : ℕ} {type : RegionType} {perm : ℕ}
    (h : asAddRegion as a b type perm = some as') :
    as'.pagetable = as.pagetable ∧
      (∀ r ∈ as'.regions, r = ⟨a, b, type, perm⟩ ∨ r ∈ as.regions) ∧
      a % pgsize = 0 ∧ a ≤ b ∧ b ≤ trapframe := by
  unfold asAddRegion at h
  split_ifs at h with h1 h2 h3 h4 h5 h6 h7
  obtain rfl := Option.some.inj h
  refine ⟨rfl, fun r hr => ?_, not_not.mp h2, by omega, by omega⟩
  rcases List.mem_append.mp hr with hr | hr
  · exact .inr (List.mem_of_mem_take hr)
  · rcases List.mem_cons.mp hr with rfl | hr
    · exact .inl rfl
    · exact .inr (List.mem_of_mem_drop hr)

theorem asAddRegion_ok {as' : AddrSpace} {r : MemRegion}
    (h : asAddRegion as r.vaStart r.vaEnd r.type r.perm = some as') (hr : RegionOk r)
    (hok : RegionsOk as) : RegionsOk as' := fun r' hr' => by
  rcases (asAddRegion_eq h).2.1 r' hr' with rfl | hold
  · exact hr
  · exact hok r' hold

/-- Adding the regions of a list one after the other. -/
def addRegions (as : AddrSpace) (rs : List MemRegion) : Option AddrSpace :=
  rs.foldlM (fun as r => asAddRegion as r.vaStart r.vaEnd r.type r.perm) as

/-- The view with the pages of the regions copied. -/
def copyRegions (V : ℕ × ℕ → Option UserPage) (s d : ℕ) (rs : List MemRegion) :
    ℕ × ℕ → Option UserPage :=
  rs.foldl (fun V r => copyPages V s d (r.vaStart / pgsize) (regionPages r)) V

theorem copyRegions_of_ne (V : ℕ × ℕ → Option UserPage) (s d : ℕ) (rs : List MemRegion)
    {x : ℕ × ℕ} (hx : x.1 ≠ d) : copyRegions V s d rs x = V x := by
  unfold copyRegions
  induction rs generalizing V with
  | nil => rfl
  | cons r rs ih =>
    rw [List.foldl_cons, ih]
    exact if_neg fun h => hx h.1

theorem copyRegions_dst (V : ℕ × ℕ → Option UserPage) {s d : ℕ} (hsd : s ≠ d)
    (rs : List MemRegion) (v : ℕ) :
    copyRegions V s d rs (d, v) =
      if ∃ r ∈ rs, r.vaStart / pgsize ≤ v ∧ v < r.vaStart / pgsize + regionPages r then
        (V (s, v)).or (V (d, v))
      else V (d, v) := by
  induction rs generalizing V with
  | nil => exact (if_neg (by simp)).symm
  | cons r rs ih =>
    have hfirst : copyPages V s d (r.vaStart / pgsize) (regionPages r) (s, v) = V (s, v) :=
      if_neg fun h => hsd h.1
    have hdst : copyPages V s d (r.vaStart / pgsize) (regionPages r) (d, v) =
        if r.vaStart / pgsize ≤ v ∧ v < r.vaStart / pgsize + regionPages r then
          (V (s, v)).or (V (d, v)) else V (d, v) := by
      simp [copyPages]
    rw [copyRegions, List.foldl_cons]
    refine (ih _).trans ?_
    rw [hfirst, hdst]
    simp only [List.mem_cons, exists_eq_or_imp]
    by_cases hin : r.vaStart / pgsize ≤ v ∧ v < r.vaStart / pgsize + regionPages r
    · have hidem : (V (s, v)).or ((V (s, v)).or (V (d, v))) = (V (s, v)).or (V (d, v)) := by
        cases V (s, v) <;> rfl
      simp [hin, hidem]
    · simp [hin]

theorem asCopyRegions_spec (rs : List MemRegion) (hrs : ∀ r ∈ rs, RegionOk r)
    (h : VmInv img m G e) (he : ∀ p, e p ≤ 1) (hs : Rooted G s src) (hd : Rooted G d dst)
    (hsd : s ≠ d) (hok : RegionsOk dst) :
    Except.Sat (· = .mappagesRemap) (fun r => ∃ G', CopyNext img s d G r.2.2 G' e ∧
        Rooted G' d r.2.1 ∧ RegionsOk r.2.1 ∧ (ReadOnly G d → ReadOnly G' d) ∧
        SameMemory d m G r.2.2 G' ∧
        (r.1 = true → addRegions dst rs = some r.2.1 ∧
          view r.2.2.mem G' = copyRegions (view m.mem G) s d rs))
      (asCopyRegions img src.pagetable rs dst m) := by
  induction rs generalizing m G dst with
  | nil => exact ⟨G, CopyNext.refl h, hd, hok, fun hro => hro, .refl d m G, fun _ => ⟨rfl, rfl⟩⟩
  | cons r rs ih =>
    have hr := hrs r List.mem_cons_self
    unfold asCopyRegions
    cases hadd : asAddRegion dst r.vaStart r.vaEnd r.type r.perm with
    | none => exact ⟨G, CopyNext.refl h, hd, hok, fun hro => hro, .refl d m G, nofun⟩
    | some dst1 =>
      have hd1 : Rooted G d dst1 := by
        obtain ⟨pt, hG, hpt⟩ := hd
        exact ⟨pt, hG, (asAddRegion_eq hadd).1.trans hpt⟩
      have hok1 := asAddRegion_ok hadd hr hok
      obtain ⟨hstart, -, hle, hcount⟩ := hr.pages
      dsimp only
      rw [hcount, show pgrounddown r.vaStart = r.vaStart / pgsize * pgsize from rfl]
      refine (asCopyPages_spec _ h he hs hd1 hsd hle).bind ?_
      rintro ⟨_ | _, m1⟩ ⟨G1, hnext1, hro1, hframe1, hview1⟩
      · exact ⟨G1, hnext1, hnext1.rooted hd1, hok1, hro1, hframe1, nofun⟩
      · refine (ih (fun r' hr' => hrs r' (List.mem_cons_of_mem r hr')) hnext1.inv
          (hnext1.rooted hs) (hnext1.rooted hd1) hok1).post ?_
        rintro ⟨b, dst2, m2⟩ ⟨G2, hnext2, hd2, hok2, hro2, hframe2, hpost2⟩
        refine ⟨G2, hnext1.trans hnext2, hd2, hok2, fun hro => hro2 (hro1 hro),
          hframe1.trans hframe2, fun hb => ?_⟩
        obtain ⟨hadd2, hview2⟩ := hpost2 hb
        constructor
        · rw [addRegions, List.foldlM_cons, hadd]
          exact hadd2
        · rw [hview2, hview1 rfl]
          rfl

theorem ReadOnly.of_view {mem : Mem} (h : ∀ v, view mem G (id, v) = none) : ReadOnly G id := by
  rintro v l ⟨hv, pt, hG, hl⟩
  have := h v
  simp [view, hv, hG, hl] at this

theorem asCopy_spec (h : VmInv img m G e) (he : ∀ p, e p ≤ 1) (hs : Rooted G s src)
    (hd : Rooted G d dst) (hsd : s ≠ d) (hoks : RegionsOk src) (hokd : RegionsOk dst) :
    Except.Sat (· = .mappagesRemap) (fun r => ∃ G', CopyNext img s d G r.2.2 G' e ∧
        Rooted G' d r.2.1 ∧ RegionsOk r.2.1 ∧
        SameMemory d m G r.2.2 G' ∧
        (r.1 = true → addRegions { dst with regions := [] } src.regions = some r.2.1 ∧
          view r.2.2.mem G' =
            copyRegions (clearRegions (view m.mem G) d dst.regions) s d src.regions ∧
          ((∀ v, clearRegions (view m.mem G) d dst.regions (d, v) = none) → ReadOnly G' d)))
      (asCopy img dst src m) := by
  rw [asCopy, if_neg (not_or.mpr ⟨hd.ne_zero, hs.ne_zero⟩)]
  obtain ⟨m1, G1, hk1, hnext1, hview1⟩ := unmapRegions_spec h hd hokd
  have hcopy1 : CopyNext img s d G m1 G1 e := .of_next hnext1
  have hd1 : Rooted G1 d { dst with regions := [] } := hd.next hnext1
  have hframe1 : SameMemory d m G m1 G1 := hnext1.sameMemory fun x hx => by
    rw [hview1, clearRegions_of_ne _ _ hx]
  rw [hk1, Except.ok_bind]
  refine (asCopyRegions_spec src.regions hoks hnext1.inv he (hcopy1.rooted hs) hd1 hsd
    fun r hr => nomatch hr).bind ?_
  rintro ⟨_ | _, dst2, m2⟩ ⟨G2, hnext2, hd2, hok2, hro2, hframe2, hpost2⟩
  · obtain ⟨m3, G3, hk3, hnext3, hview3⟩ := unmapRegions_spec hnext2.inv hd2 hok2
    simp only [hk3, Except.ok_bind]
    refine ⟨G3, (hcopy1.trans hnext2).trans (.of_next hnext3), hd2.next hnext3,
      (fun r hr => nomatch hr), (hframe1.trans hframe2).trans (hnext3.sameMemory fun x hx => ?_), nofun⟩
    rw [hview3, clearRegions_of_ne _ _ hx]
  · refine ⟨G2, hcopy1.trans hnext2, hd2, hok2, hframe1.trans hframe2, fun _ => ?_⟩
    obtain ⟨hadd, hview2⟩ := hpost2 rfl
    exact ⟨hadd, by rw [hview2, hview1], fun hnone => hro2 (.of_view (hview1 ▸ hnone))⟩

end

end YHsys.Kernel
