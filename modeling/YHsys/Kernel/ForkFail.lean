import Mathlib.Logic.Relation
import YHsys.Kernel.ProcTable
import YHsys.Kernel.UserRuns

/-!
# A `kfork` that fails

`kfork` on the process table and on memory at once. It can fail for want of a slot, of the
trap frame's page, of a table of the new address space, or of a level-0 table for any page
that `as_copy` shares; by then pages of the parent may have a second reference and be
copy-on-write. `Undone`, which `VmOk.kforked` proves of every failure, is brought down to what
the kernel and the processes can tell: the allocator has the references and free pages it had
(`Reclaimed`), and the MMU reads the same bytes.
-/

namespace YHsys.Kernel

open Function (update update_idem update_of_ne update_self)
open ProcTable (goto modify freeproc forkAlloc)

/-! ## Memory after a failed call -/

/-- The allocator has the same references and the same free pages. -/
structure Reclaimed (m m' : Machine) : Prop where
  refcnt : ∀ p, m'.kmem.refcnt p = m.kmem.refcnt p
  free : ∀ p, Covered m'.kmem p ↔ Covered m.kmem p

/-- The byte a user load from `va` finds, if the MMU lets it through. -/
def readByte (m : Machine) (as : AddrSpace) (va : ℕ) : Option UInt8 :=
  (translate m.mem as.pagetable va pteR).map m.mem

section

variable {img : KernelImage} {s s' : VmState} {G G' : Tables} {m : Machine} {e : ℕ → ℕ}
  {as : AddrSpace} {id va : ℕ} {sp : Space}

theorem AllocOk.free_iff {k : Kmem} (h : AllocOk img k) (p : ℕ) :
    Covered k p ↔ Managed img p ∧ k.refcnt p = 0 := by
  rw [covered_iff h.buddy]
  exact ⟨fun hp => ⟨h.buddy.inRange p hp, h.buddy.unused p hp⟩, fun ⟨hp, hz⟩ => h.used p hp hz⟩

theorem VmOk.reclaimed (h : VmOk img s G) (h' : VmOk img s' G') (hu : Undone s G s' G') :
    Reclaimed s.machine s'.machine := by
  have hnext : G' s.next = none := by
    have := h'.spaces s.next
    rwa [hu.spaces, h.fresh s.next (Nat.le_refl _)] at this
  have howned : owned G' = owned G := by
    funext ⟨id, x⟩
    by_cases hid : id = s.next
    · subst hid
      simp only [owned, hnext, h.next_table]
    · exact hu.memory.pages id hid x
  have hrefs : ∀ p, s'.machine.kmem.refcnt p = s.machine.kmem.refcnt p := fun p => by
    rw [h'.inv.count, h.inv.count, howned, hu.held]
  refine ⟨hrefs, fun p => ?_⟩
  rw [h'.inv.alloc.free_iff, h.inv.alloc.free_iff, hrefs]

theorem VmInv.readByte_eq (h : VmInv img m G e) (hr : Rooted G id as) (hva : va < 2 ^ 32) :
    readByte m as va = (view m.mem G (id, va / pgsize)).bind fun pg =>
      if pg.flags &&& pteU ≠ 0 ∧ pg.flags &&& pteR ≠ 0 then some (pg.data (va % pgsize)) else none := by
  obtain ⟨pt, hG, has⟩ := hr
  have hi : va / pgsize / 1024 < 1024 := by
    rw [pgsize_eq]
    omega
  unfold readByte translate
  rw [has, (h.represents id pt hG).leafPte_eq hi]
  cases hl : pt.leaf (va / pgsize) with
  | none => simp [view, hG, hl]
  | some l =>
    have hread : l.pte &&& pteR ≠ 0 ↔ l.flags.testBit 1 = true := need_bit l false
    simp only [Option.map_some, Option.bind_some, l.pte_user, hread, l.pte2pa_pte]
    by_cases hv : va / pgsize < userVpns
    · have hul : UserLeaf G id (va / pgsize) l := ⟨hv, pt, hG, hl⟩
      have hflag : (l.userPage m.mem).flags &&& pteR ≠ 0 ↔ l.flags.testBit 1 = true := by
        rw [pteR, and_shift_ne_zero, Leaf.userPage,
          eagerFlags_testBit (by decide) (by decide) (by decide)]
      have hbyte : (l.userPage m.mem).data (va % pgsize) = m.mem (l.pa + va % pgsize) := by
        show pageBytes m.mem (pa2idx l.pa) (va % pgsize) = _
        rw [pageBytes_apply _ _ (Nat.mod_lt va (by decide)), h.leaf_pa hul]
      simp only [hul.view_eq, Option.bind_some, flags_user, hflag, hbyte]
      split_ifs <;> rfl
    · -- the kernel's own entries are not the user's
      have htop := h.top id pt _ l hG hv hl
      rw [if_neg fun hperm => absurd (htop.symm.trans hperm.1) (by decide)]
      simp [view, hv]

theorem VmOk.readByte_undone (h : VmOk img s G) (h' : VmOk img s' G') (hu : Undone s G s' G')
    (hsp : s.spaces id = some sp) (hva : va < 2 ^ 32) :
    readByte s'.machine sp.as va = readByte s.machine sp.as va := by
  have hid : id ≠ s.next := fun heq => h.lt_next hsp heq.ge
  have hsp' : s'.spaces id = some sp := hu.spaces ▸ hsp
  rw [h'.inv.readByte_eq (h'.space hsp').1 hva, h.inv.readByte_eq (h.space hsp).1 hva,
    hu.memory.shown (id, va / pgsize) hid]

end

/-! ## `kfork` -/

/-- `kfork` (`taskmgr.c:294`) by the process `p` in the address space `src`, with no other
process in between; the child's `pid`, or nothing for `-1`. `allocproc` takes the first
`UNUSED` slot, and `freeproc` gives it back on failure. -/
def kfork (img : KernelImage) (t : ProcTable) (p : ProcId) (s : VmState) (src : Space) :
    Except Panic (Option (BitVec 32) × ProcTable × VmState) :=
  match (List.finRange nproc).find? fun np => (t.procs np).state = .unused with
  | none => .ok (none, t.goto p .user, s)
  | some np => do
    let (ok, s) ← kforkSpaces img s src
    let t := t.forkAlloc p np ok
    if ok then
      let pid := (t.procs np).pid
      let t := t.modify np fun x => { x with parent := some p }
      let t := t.modify np fun x => { x with state := .runnable }
      .ok (some pid, t.goto p .user, s)
    else .ok (none, t, s)

section

variable {img : KernelImage} {t t' : ProcTable} {p np : ProcId} {s s' : VmState} {sp : Space} {id : ℕ}

theorem ProcTable.goto_goto (t : ProcTable) (p : ProcId) (pc pc' : Pc) :
    (t.goto p pc).goto p pc' = t.goto p pc' := by
  simp only [goto, update_idem]

/-- What the thread of `p` does, one section after the other. -/
def ProcTable.Sections (p : ProcId) : ProcTable → ProcTable → Prop :=
  Relation.ReflTransGen fun t t' => ∃ b, t.run p b = some t'

theorem ProcTable.run_forkScan (i : ProcId) (b : Bool) :
    (t.goto p (.forkScan i)).run p b = some ((t.goto p (.forkScan i)).forkAlloc p i b) := by
  have hpc : (t.goto p (.forkScan i)).pc p = .forkScan i := update_self ..
  rw [ProcTable.run, hpc]
  exact dif_pos i.isLt

theorem ProcTable.forkAlloc_goto (pc : Pc) (ok : Bool) (hun : (t.procs np).state = .unused) :
    (t.goto p pc).forkAlloc p np ok = t.forkAlloc p np ok := by
  have hun' : ((t.goto p pc).procs np).state = .unused := hun
  rw [forkAlloc, forkAlloc, if_pos hun, if_pos hun']
  have hpc : ∀ y, update (update (update t.pc p pc) np .user) p y =
      update (update t.pc np .user) p y := fun y => by
    funext q
    simp only [Function.update_apply]
    split_ifs <;> rfl
  cases ok with
  | true =>
    simp only [if_true, goto, modify, hpc]
  | false =>
    simp only [Bool.false_eq_true, if_false, goto, modify, freeproc,
      update_idem]

theorem ProcTable.scan_to (k : ℕ) (hk : k ≤ nproc)
    (hused : ∀ i : ProcId, i.val < k → (t.procs i).state ≠ .unused) :
    ProcTable.Sections p (t.goto p (.forkScan 0)) (t.goto p (.forkScan k)) := by
  induction k with
  | zero => exact .refl
  | succ k ih =>
    refine (ih (Nat.le_of_succ_le hk) fun i hi => hused i (Nat.lt_succ_of_lt hi)).tail ⟨true, ?_⟩
    have hrun := run_forkScan (t := t) (p := p) ⟨k, hk⟩ true
    rw [hrun, forkAlloc]
    exact congrArg some ((if_neg (hused ⟨k, hk⟩ (Nat.lt_succ_self k))).trans (goto_goto t p _ _))

theorem used_before_first
    (h : (List.finRange nproc).find? (fun np => decide ((t.procs np).state = .unused)) = some np) :
    (t.procs np).state = .unused ∧ ∀ i : ProcId, i.val < np.val → (t.procs i).state ≠ .unused := by
  obtain ⟨hnp, as, bs, hsplit, hbefore⟩ := List.find?_eq_some_iff_append.mp h
  refine ⟨of_decide_eq_true hnp, fun i hi hun => ?_⟩
  have hlen : as.length = np.val := by
    have hget : (List.finRange nproc)[as.length]? = some np := by
      rw [hsplit]
      simp
    obtain ⟨hlt, hget⟩ := List.getElem?_eq_some_iff.mp hget
    rw [List.getElem_finRange] at hget
    exact congrArg Fin.val hget
  have hmem : i ∈ as := by
    have hget : (as ++ np :: bs)[i.val]? = some i := by
      rw [← hsplit, List.getElem?_eq_getElem (by simp), List.getElem_finRange]
      rfl
    rw [List.getElem?_append_left (by omega)] at hget
    exact List.mem_of_getElem? hget
  have := hbefore i hmem
  simp [hun] at this

theorem kfork_sections {r : Option (BitVec 32)} (hf : kfork img t p s sp = .ok (r, t', s')) :
    ProcTable.Sections p (t.goto p (.forkScan 0)) t' := by
  unfold kfork at hf
  cases hfind : (List.finRange nproc).find? fun np => (t.procs np).state = .unused with
  | none =>
    have hused : ∀ i : ProcId, i.val < nproc → (t.procs i).state ≠ .unused := fun i _ =>
      of_decide_eq_false (Bool.eq_false_iff.mpr (List.find?_eq_none.mp hfind i (List.mem_finRange i)))
    rw [hfind] at hf
    cases hf
    refine (ProcTable.scan_to nproc (Nat.le_refl _) hused).tail ⟨true, ?_⟩
    have hpc : (t.goto p (.forkScan nproc)).pc p = .forkScan nproc := update_self ..
    rw [ProcTable.run, hpc]
    exact (dif_neg (Nat.lt_irrefl _)).trans (congrArg some (ProcTable.goto_goto t p _ _))
  | some np =>
    rw [hfind] at hf
    obtain ⟨hun, hused⟩ := used_before_first hfind
    obtain ⟨⟨ok, s1⟩, -, hf⟩ := Except.bind_eq_ok.mp hf
    have hscan := ProcTable.scan_to (t := t) (p := p) np.val np.isLt.le hused
    have hrun : (t.goto p (.forkScan np)).run p ok = some (t.forkAlloc p np ok) := by
      rw [ProcTable.run_forkScan, ProcTable.forkAlloc_goto _ ok hun]
    have hslot := hscan.tail ⟨ok, hrun⟩
    cases ok with
    | false =>
      cases hf
      exact hslot
    | true =>
      cases hf
      have hpc : (t.forkAlloc p np true).pc p = .forkLink np := by
        rw [forkAlloc, if_pos hun]
        exact update_self ..
      have hlink : (t.forkAlloc p np true).run p true =
          some (((t.forkAlloc p np true).modify np fun x =>
            { x with parent := some p }).goto p (.forkReady np)) := by
        rw [ProcTable.run, hpc]
      have hready : ∀ u : ProcTable, (u.goto p (.forkReady np)).run p true =
          some ((u.modify np fun x => { x with state := .runnable }).goto p .user) := fun u => by
        have hpc : (u.goto p (.forkReady np)).pc p = .forkReady np := update_self ..
        rw [ProcTable.run, hpc]
        exact congrArg some
          (ProcTable.goto_goto (u.modify np fun x => { x with state := .runnable }) p _ _)
      exact (hslot.tail ⟨true, hlink⟩).tail ⟨true, hready _⟩

theorem kfork_sections_boot : ∃ s sp t' s',
    kfork sixteenPageImage .boot initproc s sp = .ok (some 2, t', s') ∧
    ProcTable.Sections initproc (ProcTable.boot.goto initproc (.forkScan 0)) t' := by
  obtain ⟨s, sp, s1, -, -, -, -, hspaces, -⟩ := byteHeap_run
  have hfind : (List.finRange nproc).find? (fun np =>
      decide ((ProcTable.boot.procs np).state = .unused)) = some ⟨1, by decide⟩ := by
    decide +kernel
  obtain ⟨t', hf⟩ : ∃ t', kfork sixteenPageImage .boot initproc s sp = .ok (some 2, t', s1) := by
    rw [kfork, hfind, hspaces]
    exact ⟨_, rfl⟩
  exact ⟨s, sp, t', s1, hf, kfork_sections hf⟩

theorem kfork_slots (hf : kfork img t p s sp = .ok (none, t', s')) (q : ProcId) :
    ((t.procs q).state = .unused → (t'.procs q).state = .unused) ∧
      ((t.procs q).state ≠ .unused → t'.procs q = t.procs q) := by
  unfold kfork at hf
  cases hfind : (List.finRange nproc).find? fun np => (t.procs np).state = .unused with
  | none =>
    rw [hfind] at hf
    cases hf
    exact ⟨fun h => h, fun _ => rfl⟩
  | some np =>
    rw [hfind] at hf
    obtain ⟨hun, -⟩ := used_before_first hfind
    obtain ⟨⟨ok, s1⟩, -, hf⟩ := Except.bind_eq_ok.mp hf
    cases ok with
    | true => cases hf
    | false =>
      cases hf
      have hprocs : (t.forkAlloc p np false).procs =
          update t.procs np ⟨.unused, none, false, 0, 0, none⟩ := by
        rw [forkAlloc, if_pos hun]
        exact update_idem ..
      rw [hprocs]
      by_cases hq : q = np
      · subst hq
        rw [update_self]
        exact ⟨fun _ => rfl, fun hne => absurd hun hne⟩
      · rw [update_of_ne hq]
        exact ⟨fun h => h, fun _ => rfl⟩

theorem kfork_undone {G : Tables} (h : VmOk img s G) (hrun : Running s id sp)
    (hf : kfork img t p s sp = .ok (none, t', s')) :
    ∃ G', VmOk img s' G' ∧ Undone s G s' G' := by
  unfold kfork at hf
  cases hfind : (List.finRange nproc).find? fun np => (t.procs np).state = .unused with
  | none =>
    rw [hfind] at hf
    cases hf
    exact ⟨G, h, rfl, rfl, .refl _ _ _⟩
  | some np =>
    rw [hfind] at hf
    obtain ⟨⟨ok, s1⟩, hspaces, hf⟩ := Except.bind_eq_ok.mp hf
    cases ok with
    | true => cases hf
    | false =>
      cases hf
      obtain ⟨G', hok, hforked⟩ := (h.kforked hrun).of_eq_ok hspaces
      exact ⟨G', hok, hforked.failed rfl⟩

/-- **A failed fork leaks nothing.** Whichever allocations fail, if `kfork` returns `-1` then
every page has the references it had and the same pages are free, the slot is `UNUSED` again,
and every process, the parent among them, is in the address space it was in and reads the same
bytes there. -/
theorem failed_fork_leaks_nothing (hr : UserRun img s) (hrun : Running s id sp)
    (hf : kfork img t p s sp = .ok (none, t', s')) :
    Reclaimed s.machine s'.machine ∧
    (∀ q, ((t.procs q).state = .unused → (t'.procs q).state = .unused) ∧
      ((t.procs q).state ≠ .unused → t'.procs q = t.procs q)) ∧
    s'.spaces = s.spaces ∧
    ∀ id' sp' va, s.spaces id' = some sp' → va < 2 ^ 32 →
      readByte s'.machine sp'.as va = readByte s.machine sp'.as va := by
  obtain ⟨G, h⟩ := hr.ok
  obtain ⟨G', h', hu⟩ := kfork_undone h.toVmOk hrun hf
  exact ⟨h.toVmOk.reclaimed h' hu, kfork_slots hf, hu.spaces,
    fun _ _ _ hsp hva => h.toVmOk.readByte_undone h' hu hsp hva⟩

end

/-! ## Running out of memory -/

theorem Machine.kalloc_fewer {img : KernelImage} {m m' : Machine} {pa : ℕ}
    (h : AllocOk img m.kmem) (hk : m.kalloc = (some pa, m')) :
    (freePages m'.kmem).ncard < (freePages m.kmem).ncard := by
  have hfinite : (freePages m.kmem).Finite :=
    (Set.finite_lt_nat npages).subset fun p hp => (h.buddy.inRange p hp).2
  unfold Machine.kalloc at hk
  split_ifs at hk
  · cases hk
  · rcases kalloc_spec (Nat.le_refl _) h.buddy with ⟨hnone, -⟩ | ⟨p, k, hsome, hp, hfree, -⟩
    · rw [hnone] at hk
      cases hk
    · rw [hsome] at hk
      cases hk
      show (freePages k).ncard < _
      rw [hfree]
      exact Set.ncard_sdiff_singleton_lt_of_mem hp hfinite

theorem UserRun.exhausted {img : KernelImage} {s : VmState} (hr : UserRun img s) :
    ∃ s' m, UserRun img s' ∧ s'.spaces = s.spaces ∧ s'.machine.kalloc = (none, m) := by
  obtain ⟨n, hn⟩ : ∃ n, (freePages s.machine.kmem).ncard = n := ⟨_, rfl⟩
  induction n using Nat.strong_induction_on generalizing s with
  | _ n ih =>
    obtain ⟨G, h⟩ := hr.ok
    cases hk : s.machine.kalloc with
    | mk r m =>
      cases r with
      | none => exact ⟨s, m, hr, rfl, hk⟩
      | some pa =>
        have hexec : VmOp.kalloc.exec img s =
            .ok { s with machine := m, held := pa2idx pa :: s.held } := by
          simp only [VmOp.exec, hk]
        have hplain : VmOp.kalloc.Plain := trivial
        have hr' := hr.vm hplain trivial hexec
        have hfewer := Machine.kalloc_fewer h.inv.alloc hk
        rw [hn] at hfewer
        obtain ⟨s', m', hlast⟩ := ih _ hfewer hr' rfl
        exact ⟨s', m', hlast⟩

/-- There is no page for the child's trap frame. -/
theorem failed_fork_leaks_nothing_trapframe : ∃ s sp t' s', UserRun sixteenPageImage s ∧
    Running s 1 sp ∧ kfork sixteenPageImage .boot initproc s sp = .ok (none, t', s') ∧
    Reclaimed s.machine s'.machine := by
  obtain ⟨s0, sp, s1, hr0, hrun0, -⟩ := byteHeap_run
  obtain ⟨s, m, hr, hspaces, hnone⟩ := hr0.exhausted
  have hrun : Running s 1 sp := ⟨hspaces ▸ hrun0.1, hrun0.2⟩
  have hfind : (List.finRange nproc).find? (fun np =>
      decide ((ProcTable.boot.procs np).state = .unused)) = some ⟨1, by decide⟩ := by
    decide +kernel
  have hf : kfork sixteenPageImage .boot initproc s sp =
      .ok (none, ProcTable.boot.forkAlloc initproc ⟨1, by decide⟩ false, s.withMachine m) := by
    rw [kfork, hfind]
    simp only [kforkSpaces, hnone]
    rfl
  exact ⟨s, sp, _, _, hr, hrun, hf, (failed_fork_leaks_nothing hr hrun hf).1⟩

end YHsys.Kernel
