import YHsys.Kernel.UserRuns

/-!
# Stores after a fork

`as_copy` takes the permission to write from both processes, and `vmfault` gives it back
page by page. A fault never takes a page away or changes what a process sees in it, so a
store to a page that was writable before the fork succeeds after any faults, with one more
fault at most, as long as `vmfault` looks at the page. It does not look at addresses from
the break on, though the last page of the heap may reach beyond the break: there a store
that succeeded before the fork fails after it.
-/

namespace YHsys.Kernel

/-- A user store at `va` succeeds at once, or after one fault that `vmfault` resolves. -/
def StoreSucceeds (img : KernelImage) (as : AddrSpace) (va : ℕ) (m : Machine) : Prop :=
  (translate m.mem as.pagetable va pteW).isSome ∨
    ∃ r m', vmfault img as as.pagetable va false m = .ok (r, m') ∧ r ≠ 0 ∧
      (translate m'.mem as.pagetable va pteW).isSome

/-- Faults of the processes in the address spaces `a` and `b`. -/
inductive Faults (img : KernelImage) (a b : ℕ) : VmState → VmState → Prop where
  | refl (s : VmState) : Faults img a b s s
  | step {s s1 s2 : VmState} {id va : ℕ} {read : Bool} : Faults img a b s s1 → id = a ∨ id = b →
      (VmOp.vmfault id va read).exec img s1 = .ok s2 → Faults img a b s s2

/-- Both processes may store at `va`, after any faults, when there is a free page. -/
def StoresAfter (img : KernelImage) (parent child va : ℕ) (s : VmState) : Prop :=
  ∀ s', Faults img parent child s s' → ∀ id sp, id = parent ∨ id = child → Running s' id sp →
    s'.machine.hasPages 1 → StoreSucceeds img sp.as va s'.machine

section

variable {img : KernelImage} {s s' : VmState} {G G' : Tables} {id v va : ℕ} {sp : Space}
  {m : Machine} {e : ℕ → ℕ} {as : AddrSpace} {l : Leaf} {pg : UserPage}

/-! ## Translation -/

theorem translate_leaf (h : VmInv img m G e) (hr : Rooted G id as)
    (hl : UserLeaf G id (va / pgsize) l) :
    (translate m.mem as.pagetable va pteW).isSome ↔
      l.flags.testBit 4 = true ∧ l.flags.testBit 2 = true := by
  obtain ⟨hv, pt, hG, hlv⟩ := hl
  obtain ⟨pt', hG', has⟩ := hr
  obtain rfl := Option.some.inj (hG.symm.trans hG')
  have hi : va / pgsize / 1024 < 1024 := by
    rw [userVpns_eq] at hv
    omega
  have hbits : l.pte &&& pteU ≠ 0 ∧ l.pte &&& pteW ≠ 0 ↔
      l.flags.testBit 4 = true ∧ l.flags.testBit 2 = true := by
    rw [pteU, pteW, and_shift_ne_zero, and_shift_ne_zero, l.testBit_pte (by decide),
      l.testBit_pte (by decide)]
  unfold translate
  rw [has, (h.represents id pt hG).leafPte_eq hi, hlv, Option.map_some, Option.bind_some, ← hbits]
  split_ifs with hperm
  · exact ⟨fun _ => hperm, fun _ => rfl⟩
  · exact ⟨(by rintro ⟨⟩), fun hb => absurd hb hperm⟩

theorem Leaf.writable_or_cow (hpage : (l.userPage m.mem).flags.testBit 2 = true) :
    l.flags.testBit 2 = true ∨ l.flags.testBit 8 = true := by
  by_cases hcow : l.flags.testBit 8 = true
  · exact .inr hcow
  · rw [Leaf.userPage, eagerFlags_of_not_cow (Bool.eq_false_iff.mpr hcow)] at hpage
    exact .inl hpage

/-! ## Faults -/

theorem vmfault_served (h : VmInv img m G e) (hr : Rooted G id as) (hok : RegionsOk as)
    (hl : UserLeaf G id (va / pgsize) l) (hcow : l.flags.testBit 8 = true)
    (hlt : va < heapEnd as) (hpages : m.hasPages 1) {r : ℕ × Machine}
    (hf : vmfault img as as.pagetable va false m = .ok r) : r.1 ≠ 0 := by
  obtain ⟨hv, pt, hG, hlv⟩ := hl
  obtain ⟨pt', hG', has⟩ := hr
  obtain rfl := Option.some.inj (hG.symm.trans hG')
  have hva : pgrounddown va < maxva := by
    have := heapEnd_le hok
    rw [trapframe_eq] at this
    rw [maxva_eq, pgrounddown, pgsize_eq]
    omega
  obtain ⟨pte, hwalk, ⟨hnone, -⟩ | ⟨t, l', -, hl', hfilter, hword⟩⟩ := walk_filter h hG hva
  · rw [pgrounddown_div, hlv] at hnone
    cases hnone
  · rw [pgrounddown_div, hlv] at hl'
    obtain rfl := Option.some.inj hl'
    unfold vmfault at hf
    dsimp only at hf
    rw [heapEnd_eq hok, if_neg (Nat.not_le.mpr hlt), has, hwalk, Except.ok_bind] at hf
    dsimp only at hf
    rw [hfilter] at hf
    unfold vmfaultCow at hf
    dsimp only at hf
    rw [hword, if_neg] at hf
    · rcases h.kalloc with ⟨m1, hk, -⟩ | ⟨p, m1, hk, -⟩
      · obtain ⟨q, m2, hk', -⟩ := Machine.hasPages_succ hpages
        rw [hk] at hk'
        cases hk'
      · rw [hk] at hf
        obtain ⟨m2, -, hf⟩ := Except.bind_eq_ok.mp hf
        obtain rfl := Except.ok.inj hf
        exact idx2pa_ne_zero p
    · rw [not_or, pteCOW, ← Ne, and_shift_ne_zero, l.testBit_pte (by decide)]
      exact ⟨hcow, Bool.false_ne_true⟩

theorem VmOk.faulted {read : Bool} (h : VmOk img s G)
    (hf : (VmOp.vmfault id va read).exec img s = .ok s') :
    ∃ G', VmOk img s' G' ∧ s'.spaces = s.spaces ∧
      ∀ x pg, view s.machine.mem G x = some pg → view s'.machine.mem G' x = some pg := by
  have hpost : Except.Sat (fun _ => True) (fun s' => ∃ G', VmOk img s' G' ∧ s'.spaces = s.spaces ∧
      ∀ x pg, view s.machine.mem G x = some pg → view s'.machine.mem G' x = some pg)
      ((VmOp.vmfault id va read).exec img s) := by
    refine onSpace_sat ⟨G, h, rfl, fun _ _ hpg => hpg⟩ fun sp hsp => ?_
    obtain ⟨hr, hregs, -⟩ := h.space hsp
    refine ((vmfault_spec h.inv hr hregs).mono (fun _ hf => hf.elim) fun _ hq => hq).bind ?_
    rintro ⟨pa, m⟩ ⟨G', hn, hrefused, hresolved⟩
    refine ⟨G', h.of_next hn hsp, rfl, fun x pg hpg => ?_⟩
    show view m.mem G' x = some pg
    by_cases hz : pa = 0
    · rw [show view m.mem G' = _ from hrefused hz, hpg]
    · rcases (hresolved hz).view with ⟨-, hview, -⟩ | ⟨hnone, r, -, -, hview⟩
      · rw [show view m.mem G' = _ from hview, hpg]
      · rw [show view m.mem G' = _ from hview, Function.update_of_ne, hpg]
        rintro rfl
        rw [hnone] at hpg
        cases hpg
  exact hpost.of_eq_ok hf

theorem Faults.keeps {a b : ℕ} (hf : Faults img a b s s') (h : VmOk img s G) :
    ∃ G', VmOk img s' G' ∧ s'.spaces = s.spaces ∧
      ∀ x pg, view s.machine.mem G x = some pg → view s'.machine.mem G' x = some pg := by
  induction hf with
  | refl => exact ⟨G, h, rfl, fun _ _ hpg => hpg⟩
  | step _ _ hstep ih =>
    obtain ⟨G1, h1, hspaces1, hview1⟩ := ih
    obtain ⟨G2, h2, hspaces2, hview2⟩ := h1.faulted hstep
    exact ⟨G2, h2, hspaces2.trans hspaces1, fun x pg hpg => hview2 x pg (hview1 x pg hpg)⟩

/-! ## Stores -/

theorem VmOk.storeSucceeds (h : VmOk img s G) (hsp : s.spaces id = some sp)
    (hpg : view s.machine.mem G (id, va / pgsize) = some pg) (huser : pg.flags.testBit 4 = true)
    (hwrite : pg.flags.testBit 2 = true) (hlt : va < heapEnd sp.as) (hpages : s.machine.hasPages 1) :
    StoreSucceeds img sp.as va s.machine := by
  obtain ⟨hr, hregs, -⟩ := h.space hsp
  obtain ⟨l, hl, hpage⟩ := view_eq_some hpg
  have huser' : ∀ {l' : Leaf} {mem : Mem}, l'.userPage mem = pg → l'.flags.testBit 4 = true :=
    fun {l' mem} hpage => by
      rw [← huser, ← hpage, Leaf.userPage, eagerFlags_testBit (by decide) (by decide) (by decide)]
  rcases Leaf.writable_or_cow (m := s.machine) (hpage ▸ hwrite) with hw | hcow
  · exact .inl ((translate_leaf h.inv hr hl).mpr ⟨huser' hpage, hw⟩)
  · cases hf : vmfault img sp.as sp.as.pagetable va false s.machine with
    | error err =>
      have hpost : Except.Sat (fun _ => False) (FaultPost img sp.as id va false s.machine G _)
          (vmfault img sp.as sp.as.pagetable va false s.machine) := vmfault_spec h.inv hr hregs
      rw [hf] at hpost
      exact hpost.elim
    | ok r =>
      have hne := vmfault_served h.inv hr hregs hl hcow hlt hpages hf
      obtain ⟨G', hn, -, hresolved⟩ := (vmfault_spec h.inv hr hregs).of_eq_ok hf
      obtain ⟨-, ⟨l', hl', -, hncow⟩, hview⟩ := hresolved hne
      have hpage' : l'.userPage r.2.mem = pg := by
        rcases hview with ⟨-, hview, -⟩ | ⟨hnone, -⟩
        · have := (hl'.view_eq r.2.mem).symm.trans (congrFun hview (id, va / pgsize))
          exact Option.some.inj (this.trans hpg)
        · rw [hpg] at hnone
          cases hnone
      refine .inr ⟨r.1, r.2, hf, hne, (translate_leaf hn.inv (hr.next hn) hl').mpr
        ⟨huser' hpage', ?_⟩⟩
      rw [← hwrite, ← hpage', Leaf.userPage, eagerFlags_of_not_cow hncow]

theorem VmOk.storeFails (h : VmOk img s G) (hsp : s.spaces id = some sp)
    (hl : UserLeaf G id (va / pgsize) l) (hro : l.flags.testBit 2 = false)
    (hle : heapEnd sp.as ≤ va) : ¬ StoreSucceeds img sp.as va s.machine := by
  obtain ⟨hr, hregs, -⟩ := h.space hsp
  rintro (hhit | ⟨r, m', hf, hne, -⟩)
  · have := ((translate_leaf h.inv hr hl).mp hhit).2
    rw [hro] at this
    cases this
  · unfold vmfault at hf
    dsimp only at hf
    rw [heapEnd_eq hregs, if_pos hle] at hf
    exact hne (Prod.mk.inj (Except.ok.inj hf)).1.symm

/-! ## After a fork -/

theorem SpaceForked.sees (hf : SpaceForked s G id sp true s' G') (h : UserOk img s G) (hrun : Running s id sp)
    (hpg : view s.machine.mem G (id, v) = some pg) :
    view s'.machine.mem G' (id, v) = some pg ∧ view s'.machine.mem G' (s.next, v) = some pg := by
  have hne : id ≠ s.next := fun heq => h.toVmOk.lt_next hrun.1 heq.ge
  obtain ⟨as1, as, -, -, -, hview, -⟩ := hf.child rfl
  rw [hview]
  refine ⟨(copyRegions_of_ne _ _ _ _ hne).trans hpg, ?_⟩
  obtain ⟨L, hL, hw⟩ := h.laid id sp hrun
  obtain ⟨l, hl, -⟩ := view_eq_some hpg
  have hin := L.page_region (hw v l hl)
  rw [copyRegions_dst _ hne, hL, if_pos hin, hpg]
  rfl

theorem SpaceForked.childSpace (hf : SpaceForked s G id sp true s' G') (h : UserOk img s G)
    (hrun : Running s id sp) :
    ∃ as, s'.spaces = Function.update s.spaces s.next (some ⟨as, false⟩) ∧
      heapEnd as = heapEnd sp.as := by
  obtain ⟨-, as, hspaces, -⟩ := hf.child rfl
  obtain ⟨L, hL, hw⟩ := h.laid id sp hrun
  have hchild : s'.spaces s.next = some ⟨as, false⟩ := by rw [hspaces, Function.update_self]
  obtain ⟨hL', -⟩ := hf.laidOut h.toVmOk hrun hL hw rfl hchild
  exact ⟨as, hspaces, by rw [ProcLayout.heapEnd_eq hL, ProcLayout.heapEnd_eq hL']⟩

theorem SpaceForked.childFails (hf : SpaceForked s G id sp true s' G') (h : UserOk img s G)
    (h' : VmOk img s' G') (hrun : Running s id sp)
    (hpg : view s.machine.mem G (id, va / pgsize) = some pg) (hle : heapEnd sp.as ≤ va) :
    ∃ sp', Running s' s.next sp' ∧ ¬ StoreSucceeds img sp'.as va s'.machine := by
  obtain ⟨as, hspaces, hend⟩ := hf.childSpace h hrun
  have hchild : s'.spaces s.next = some ⟨as, false⟩ := by rw [hspaces, Function.update_self]
  obtain ⟨-, -, -, -, -, -, hro⟩ := hf.child rfl
  obtain ⟨l, hl, -⟩ := view_eq_some (hf.sees h hrun hpg).2
  exact ⟨_, ⟨hchild, rfl⟩, h'.storeFails hchild hl (hro _ l hl) (hend ▸ hle)⟩

theorem VmOk.writablePage {pte : ℕ} (h : VmOk img s G) (hsp : s.spaces id = some sp)
    (hv : v < userVpns) (hpte : leafPte s.machine.mem sp.as.pagetable v = some pte)
    (huser : pte &&& pteU ≠ 0) (hwrite : pte &&& pteW ≠ 0) :
    ∃ pg, view s.machine.mem G (id, v) = some pg ∧ pg.flags.testBit 4 = true ∧
      pg.flags.testBit 2 = true := by
  obtain ⟨l, hl, rfl⟩ := (h.leafPte_iff hv hsp).mp hpte
  rw [pteU, and_shift_ne_zero, l.testBit_pte (by decide)] at huser
  rw [pteW, and_shift_ne_zero, l.testBit_pte (by decide)] at hwrite
  refine ⟨_, hl.view_eq s.machine.mem, ?_⟩
  rw [Leaf.userPage, eagerFlags_of_not_cow ((h.inv.leaves id v l hl).sole hwrite).1]
  exact ⟨huser, hwrite⟩

/-- A store to a page that was writable before the fork: it succeeds in both processes,
after any faults, if the address is below the break, and only then. -/
theorem store_after_fork {pte : ℕ} {s1 : VmState} (hr : UserRun img s) (hrun : Running s id sp)
    (hva : va < trapframe)
    (hpte : leafPte s.machine.mem sp.as.pagetable (va / pgsize) = some pte) (huser : pte &&& pteU ≠ 0)
    (hwrite : pte &&& pteW ≠ 0) (hfork : kforkSpaces img s sp = .ok (true, s1)) :
    (va < heapEnd sp.as → StoresAfter img id s.next va s1) ∧
      (s1.machine.hasPages 1 → StoresAfter img id s.next va s1 → va < heapEnd sp.as) := by
  have hv : va / pgsize < userVpns := by
    rw [trapframe_eq] at hva
    rw [userVpns_eq, pgsize_eq]
    omega
  obtain ⟨G, h⟩ := hr.ok
  obtain ⟨G1, h1, hf⟩ := (h.toVmOk.kforked hrun).of_eq_ok hfork
  obtain ⟨pg, hpg, hpu, hpw⟩ := h.toVmOk.writablePage hrun.1 hv hpte huser hwrite
  obtain ⟨hparent, hchild⟩ := hf.sees h hrun hpg
  constructor
  · intro hlt s' hfaults w sp' hw hrun' hpages
    obtain ⟨G', h', hspaces, hview⟩ := hfaults.keeps h1
    obtain ⟨as, hspaces1, hend⟩ := hf.childSpace h hrun
    have hsp' := hrun'.1
    rw [hspaces, hspaces1] at hsp'
    rcases hw with rfl | rfl
    · have hne : w ≠ s.next := fun heq => h.toVmOk.lt_next hrun.1 heq.ge
      rw [Function.update_of_ne hne, hrun.1] at hsp'
      obtain rfl := Option.some.inj hsp'
      exact h'.storeSucceeds hrun'.1 (hview _ _ hparent) hpu hpw hlt hpages
    · rw [Function.update_self] at hsp'
      obtain rfl := Option.some.inj hsp'
      exact h'.storeSucceeds hrun'.1 (hview _ _ hchild) hpu hpw (hend ▸ hlt) hpages
  · intro hpages hall
    by_contra hge
    obtain ⟨sp', hrun', hfails⟩ := hf.childFails h h1 hrun hpg (Nat.not_lt.mp hge)
    exact hfails (hall s1 (.refl s1) s.next sp' (.inr rfl) hrun' hpages)

end

/-- A byte above the break in the last page of the heap: the parent may store there, and
its child may not. -/
theorem store_above_break : ∃ s sp s1 sp1, UserRun sixteenPageImage s ∧ Running s 1 sp ∧
    heapEnd sp.as = 8193 ∧ StoreSucceeds sixteenPageImage sp.as 8193 s.machine ∧
    kforkSpaces sixteenPageImage s sp = .ok (true, s1) ∧ s1.machine.hasPages 1 = true ∧
    Running s1 s.next sp1 ∧ ¬ StoreSucceeds sixteenPageImage sp1.as 8193 s1.machine := by
  obtain ⟨s, sp, s1, hr, hrun, hend, ⟨pte, hpte, huser, hwrite⟩, hfork, hpages⟩ := byteHeap_run
  obtain ⟨G, h⟩ := hr.ok
  obtain ⟨G1, h1, hf⟩ := (h.toVmOk.kforked hrun).of_eq_ok hfork
  obtain ⟨pg, hpg, -⟩ := h.toVmOk.writablePage hrun.1 (by decide) hpte huser hwrite
  obtain ⟨sp1, hrun1, hfails⟩ := hf.childFails  h h1 hrun hpg hend.le
  refine ⟨s, sp, s1, sp1, hr, hrun, hend, .inl ?_, hfork, hpages, hrun1, hfails⟩
  unfold translate
  rw [show 8193 / pgsize = 2 from rfl, hpte, Option.bind_some, if_pos ⟨huser, hwrite⟩]
  rfl

/-- Below the break. -/
theorem store_after_fork_byte : ∃ s sp s1, UserRun sixteenPageImage s ∧ Running s 1 sp ∧
    kforkSpaces sixteenPageImage s sp = .ok (true, s1) ∧ s1.machine.hasPages 1 = true ∧
    StoresAfter sixteenPageImage 1 s.next 8192 s1 := by
  obtain ⟨s, sp, s1, hr, hrun, hend, ⟨pte, hpte, huser, hwrite⟩, hfork, hpages⟩ := byteHeap_run
  exact ⟨s, sp, s1, hr, hrun, hfork, hpages,
    (store_after_fork  hr hrun (by decide) hpte huser hwrite hfork).1 (by omega)⟩

end YHsys.Kernel
