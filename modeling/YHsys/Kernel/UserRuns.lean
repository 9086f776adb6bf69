import YHsys.Kernel.ExecSpec
import YHsys.Kernel.Sbrk

/-!
# Runs of processes

The states that processes reach: programs are loaded by `kexec`, processes fork, grow and
shrink their heaps eagerly and lazily, fault, write to their pages and exit, in any order
and with any allocation failing. `UserOk` is the invariant: next to the accounting of
pages (`VmOk`), the address space of every process is laid out as a program's.
-/

namespace YHsys.Kernel

open Except (ok_bind)

open Function (update update_comm update_eq_self update_idem update_of_ne update_self)

/-- Operations of the memory code that processes and the kernel perform between the
system calls below. -/
def VmOp.Plain : VmOp → Prop
  | .kalloc | .kfree _ | .create _ | .write _ _ _ | .vmfault _ _ _ | .destroy _ => True
  | _ => False

/-- The states reached after `kinit` by processes. An argument of `kexec` fits in a page,
as `sys_exec` sees to, and the argument of `sys_sbrk` is an `int`. -/
inductive UserRun (img : KernelImage) : VmState → Prop where
  | boot {k : Kmem} (mem : Mem) (failing : ℕ → Bool) : kinit img = .ok k →
      UserRun img ⟨⟨k, mem, failing, 0⟩, fun _ => none, 0, []⟩
  | vm {s s' : VmState} {op : VmOp} : UserRun img s → op.Plain → op.Allowed s →
      op.exec img s = .ok s' → UserRun img s'
  | exec {s s' : VmState} {id tf : ℕ} {file : List UInt8} {argv : List (List UInt8)}
      {draw : ℕ → ℕ} {r : Option ℕ} : UserRun img s → tf ∈ s.held →
      (∀ arg ∈ argv, arg.length + 1 ≤ pgsize) →
      kexec img s id tf file argv draw = .ok (r, s') → UserRun img s'
  | fork {s s' : VmState} {id : ℕ} {sp : Space} {ok : Bool} : UserRun img s → Running s id sp →
      kforkSpaces img s sp = .ok (ok, s') → UserRun img s'
  | sbrk {s : VmState} {id : ℕ} {sp : Space} {n : ℤ} {eager : Bool} {r : Option ℕ}
      {as : AddrSpace} {m : Machine} : UserRun img s → Running s id sp → -2 ^ 31 ≤ n → n < 2 ^ 31 →
      sysSbrk img sp.as n eager s.machine = .ok (r, as, m) →
      UserRun img ((s.withMachine m).setSpace id (some { sp with as := as }))

/-- The invariant: every address space that a process runs in is laid out. -/
structure UserOk (img : KernelImage) (s : VmState) (G : Tables) : Prop extends VmOk img s G where
  laid : ∀ id sp, Running s id sp → LaidOut G id sp.as

section

variable {img : KernelImage} {s s' t : VmState} {G G' G'' : Tables} {id : ℕ} {sp : Space} {m : Machine}

/-! ## Pages that stay where they were -/

/-- The address space `id` has no page in `G'` that it did not have in `G`. -/
def Kept (G G' : Tables) (id : ℕ) : Prop :=
  ∀ v l', UserLeaf G' id v l' → ∃ l, UserLeaf G id v l

theorem Kept.of_eq (h : G' id = G id) : Kept G G' id :=
  fun _ l' ⟨hv, pt, hG, hl⟩ => ⟨l', hv, pt, h ▸ hG, hl⟩

theorem Kept.trans (h : Kept G G' id) (h' : Kept G' G'' id) : Kept G G'' id := fun v l'' hl'' =>
  let ⟨l', hl'⟩ := h' v l'' hl''
  h v l' hl'

theorem Kept.of_view (mem mem' : Mem) (h : ∀ v, view mem' G' (id, v) = view mem G (id, v)) :
    Kept G G' id := fun v _ hl' =>
  let ⟨l, hl, _⟩ := view_eq_some ((h v).symm.trans (hl'.view_eq mem'))
  ⟨l, hl⟩

theorem LaidOut.kept {as : AddrSpace} (h : LaidOut G id as) (hk : Kept G G' id) :
    LaidOut G' id as := by
  obtain ⟨L, hL, hw⟩ := h
  refine ⟨L, hL, fun v l' hl' => ?_⟩
  obtain ⟨l, hl⟩ := hk v l' hl'
  exact hw v l hl

namespace UserOk

theorem of_kept (h : UserOk img s G) (hok : VmOk img s' G')
    (hs : ∀ id sp, Running s' id sp → Running s id sp ∧ Kept G G' id ∨ LaidOut G' id sp.as) :
    UserOk img s' G' where
  toVmOk := hok
  laid id sp hrun := (hs id sp hrun).elim (fun hold => (h.laid id sp hold.1).kept hold.2) fun hl => hl

theorem same_spaces (h : UserOk img s G) (hok : VmOk img s' G') (hs : s'.spaces = s.spaces)
    (hk : ∀ id sp, Running s id sp → Kept G G' id) : UserOk img s' G' :=
  h.of_kept hok fun id sp hrun =>
    have hold : Running s id sp := ⟨hs ▸ hrun.1, hrun.2⟩
    .inl ⟨hold, hk id sp hold⟩

end UserOk

theorem VmOk.of_same (h : VmOk img t G) (hm : s.machine = t.machine) (hs : s.spaces = t.spaces)
    (hheld : s.held.Perm t.held) (hfresh : ∀ id, s.next ≤ id → s.spaces id = none) :
    VmOk img s G := by
  have hrefs : heldRefs s.held = heldRefs t.held := funext fun p => hheld.count_eq p
  exact ⟨hm ▸ hrefs ▸ h.inv, hrefs ▸ h.apart, hs ▸ h.spaces, hfresh, hheld.nodup_iff.mpr h.nodup⟩

theorem Running.setSpace {x : Option Space} {id' : ℕ}
    (h : Running ((s.withMachine m).setSpace id x) id' sp) :
    id' = id ∧ x = some sp ∧ sp.building = false ∨ id' ≠ id ∧ Running s id' sp := by
  obtain ⟨hsp, hb⟩ := h
  have hsp : update s.spaces id x id' = some sp := hsp
  by_cases hid : id' = id
  · rw [hid, update_self] at hsp
    exact .inl ⟨hid, hsp, hb⟩
  · rw [update_of_ne hid] at hsp
    exact .inr ⟨hid, hsp, hb⟩

/-! ## Plain operations -/

namespace UserOk

theorem kalloc (h : UserOk img s G) :
    Except.Sat (fun _ => True) (fun s' => ∃ G', UserOk img s' G') (VmOp.kalloc.exec img s) := by
  unfold VmOp.exec
  rcases h.toVmOk.kalloc_cases with ⟨m, hk, hok, -⟩ | ⟨p, m, hk, hok, -⟩
  · rw [hk]
    exact ⟨G, h.same_spaces hok rfl fun _ _ _ => .of_eq rfl⟩
  · rw [hk]
    show ∃ G', UserOk img { s with machine := m, held := pa2idx (idx2pa p) :: s.held } G'
    rw [pa2idx_idx2pa]
    exact ⟨G, h.same_spaces hok rfl fun _ _ _ => .of_eq rfl⟩

theorem kfree (h : UserOk img s G) {p : ℕ} (hp : p ∈ s.held) :
    Except.Sat (fun _ => True) (fun s' => ∃ G', UserOk img s' G') ((VmOp.kfree p).exec img s) := by
  obtain ⟨m, hk, hok, -⟩ := h.toVmOk.kfree_held hp
  simp only [VmOp.exec, hk, ok_bind]
  exact ⟨G, h.same_spaces hok rfl fun _ _ _ => .of_eq rfl⟩

theorem create (h : UserOk img s G) {tf : ℕ} (hp : tf ∈ s.held) :
    Except.Sat (fun _ => True) (fun s' => ∃ G', UserOk img s' G') ((VmOp.create tf).exec img s) := by
  refine ((h.toVmOk.created hp).mono (fun _ hf => hf.elim) fun _ hr => hr).bind ?_
  rintro ⟨as, m⟩ hr
  dsimp only at hr ⊢
  split_ifs at hr ⊢
  · exact ⟨G, h.same_spaces hr.1 rfl fun _ _ _ => .of_eq rfl⟩
  · obtain ⟨G', hok, -, hview, -⟩ := hr
    refine ⟨G', h.of_kept hok fun id sp hrun => ?_⟩
    rcases Running.setSpace (m := m) hrun with ⟨-, hsp, hb⟩ | ⟨-, hold⟩
    · obtain rfl := Option.some.inj hsp
      cases hb
    · exact .inl ⟨hold, .of_view s.machine.mem m.mem fun v => congrFun hview (id, v)⟩

theorem write (h : UserOk img s G) {va : ℕ} {bs : List UInt8} (hva : va < trapframe)
    (hlen : va % pgsize + bs.length ≤ pgsize) :
    Except.Sat (fun _ => True) (fun s' => ∃ G', UserOk img s' G')
      ((VmOp.write id va bs).exec img s) := by
  refine (h.toVmOk.written hva hlen).mono (fun _ _ => trivial) ?_
  rintro s' ⟨hspaces, hok⟩
  exact ⟨G, h.same_spaces hok hspaces fun _ _ _ => .of_eq rfl⟩

theorem destroy (h : UserOk img s G) :
    Except.Sat (fun _ => True) (fun s' => ∃ G', UserOk img s' G') ((VmOp.destroy id).exec img s) := by
  refine onSpace_sat ⟨G, h⟩ fun sp hsp => ?_
  obtain ⟨as, m, G', hk, hok, hview, -⟩ := h.toVmOk.destroyed hsp
  rw [hk, ok_bind]
  refine ⟨G', h.of_kept hok fun id' sp' hrun => ?_⟩
  rcases hrun.setSpace with ⟨-, hnone, -⟩ | ⟨hne, hold⟩
  · cases hnone
  · refine .inl ⟨hold, .of_view s.machine.mem m.mem fun v => (congrFun hview (id', v)).trans ?_⟩
    exact if_neg hne

theorem next (h : UserOk img s G) (hsp : s.spaces id = some sp)
    (hn : Next img id G m G' (heldRefs s.held))
    (hlaid : sp.building = false → LaidOut G' id sp.as) : UserOk img (s.withMachine m) G' := by
  refine h.of_kept (h.toVmOk.of_next hn hsp) fun id' sp' hrun => ?_
  by_cases hid : id' = id
  · subst hid
    obtain rfl := Option.some.inj (hsp.symm.trans hrun.1)
    exact .inr (hlaid hrun.2)
  · exact .inl ⟨hrun, .of_eq (hn.others id' hid)⟩

theorem vmfault (h : UserOk img s G) {va : ℕ} {read : Bool} :
    Except.Sat (fun _ => True) (fun s' => ∃ G', UserOk img s' G')
      ((VmOp.vmfault id va read).exec img s) := by
  refine onSpace_sat ⟨G, h⟩ fun sp hsp => ?_
  obtain ⟨hr, hregs, -⟩ := h.toVmOk.space hsp
  refine ((vmfault_spec h.inv hr hregs).mono (fun _ hf => hf.elim) fun _ hq => hq).bind ?_
  rintro ⟨pa, m⟩ ⟨G', hn, hrefused, hresolved⟩
  refine ⟨G', h.next hsp hn fun hb => ?_⟩
  have hold := h.laid id sp ⟨hsp, hb⟩
  by_cases hz : pa = 0
  · exact hold.kept (.of_view s.machine.mem m.mem fun v => congrFun (hrefused hz) (id, v))
  · rcases (hresolved hz).view with ⟨-, hview, -⟩ | ⟨-, r, hfind, htype, hview⟩
    · exact hold.kept (.of_view s.machine.mem m.mem fun v => congrFun hview (id, v))
    · obtain ⟨L, hL, hw⟩ := hold
      obtain ⟨hlow, hhigh⟩ := ProcLayout.of_findRegion hL hfind htype
      refine ⟨L, hL, hw.of_view s.machine.mem m.mem fun v pg hpg => ?_⟩
      rw [hview] at hpg
      by_cases hv : v = va / pgsize
      · -- the new page is in the heap
        refine .inr (.inr ?_)
        have hguard := L.guard_lt
        rw [pgrounddown, pgsize_eq] at hlow hhigh
        rw [hv, upVpn, pgsize_eq]
        omega
      · rw [update_of_ne fun heq => hv (Prod.mk.inj heq).2] at hpg
        exact .inl (by rw [hpg]; rfl)

theorem plain (h : UserOk img s G) {op : VmOp} (hplain : op.Plain) (hop : op.Allowed s) :
    Except.Sat (fun _ => True) (fun s' => ∃ G', UserOk img s' G') (op.exec img s) := by
  cases op with
  | kalloc => exact h.kalloc
  | kfree p => exact h.kfree hop
  | create tf => exact h.create hop
  | write id va bs => exact h.write hop.1 hop.2
  | vmfault id va read => exact h.vmfault
  | destroy id => exact h.destroy
  | _ => exact hplain.elim

end UserOk

/-! ## Calls that fail -/

/-- The state after a call that failed: the same address spaces, pages in hand, and memory.
The page tables may differ in flags that no process notices. -/
structure Undone (s : VmState) (G : Tables) (s' : VmState) (G' : Tables) : Prop where
  spaces : s'.spaces = s.spaces
  held : s'.held = s.held
  memory : SameMemory s.next s.machine G s'.machine G'

theorem SameMemory.kept {d : ℕ} {m' : Machine} (h : SameMemory d m G m' G') (hid : id ≠ d) :
    Kept G G' id := .of_view m.mem m'.mem fun v => h.shown (id, v) hid

theorem VmOk.next_table (h : VmOk img s G) : G s.next = none := by
  have := h.spaces s.next
  rwa [h.fresh s.next (Nat.le_refl _)] at this

theorem VmOk.abandon (h : VmOk img s G) (ht : VmOk img t G') (hsp : t.spaces s.next = some sp)
    (hspaces : ∀ id, id ≠ s.next → t.spaces id = s.spaces id) (hheld : t.held = s.held)
    (hm : SameMemory s.next s.machine G t.machine G') :
    ∃ as m G'', asDestroy img sp.as t.machine = .ok (as, m) ∧ VmOk img (s.withMachine m) G'' ∧
      Undone s G (s.withMachine m) G'' ∧ ∀ id, id ≠ s.next → G'' id = G' id := by
  obtain ⟨as, m, G'', hd, hok, hview, htables⟩ := ht.destroyed hsp
  have hdrop : SameMemory s.next t.machine G' m G'' := .of_others htables fun x hx => by
    rw [hview]
    exact if_neg hx
  refine ⟨as, m, G'', hd, hok.of_same rfl (funext fun id => ?_) (.of_eq hheld.symm) h.fresh,
    ⟨rfl, rfl, hm.trans hdrop⟩, htables⟩
  show s.spaces id = update t.spaces s.next none id
  by_cases hid : id = s.next
  · rw [hid, update_self, h.fresh s.next (Nat.le_refl _)]
  · rw [update_of_ne hid, hspaces id hid]

theorem UserOk.unchanged (h : UserOk img s G) (hok : VmOk img s' G') (hu : Undone s G s' G') :
    UserOk img s' G' :=
  h.same_spaces hok hu.spaces fun _ _ hrun =>
    hu.memory.kept fun heq => h.toVmOk.lt_next hrun.1 heq.ge

/-! ## Loading a program -/

theorem VmOk.jitter (n : ℕ) (h : VmOk img s G) :
    ∃ ps m, jitterPages n s.machine = (ps.map idx2pa, m) ∧
      VmOk img { s with machine := m, held := ps ++ s.held } G ∧
      view m.mem G = view s.machine.mem G := by
  induction n generalizing s with
  | zero => exact ⟨[], s.machine, rfl, h, rfl⟩
  | succ n ih =>
    unfold jitterPages
    rcases h.kalloc_cases with ⟨m, hk, hok, hview⟩ | ⟨p, m, hk, hok, hview⟩
    · rw [hk]
      exact ⟨[], m, rfl, hok, hview⟩
    · obtain ⟨ps, m', hps, hok', hview'⟩ := ih hok
      have hps : jitterPages n m = (ps.map idx2pa, m') := hps
      rw [hk]
      dsimp only
      rw [hps]
      exact ⟨p :: ps, m', rfl, hok'.of_same rfl rfl List.perm_middle.symm h.fresh,
        hview'.trans hview⟩

theorem VmOk.freeJitter (ps : List ℕ) {held : List ℕ} (h : VmOk img s G)
    (hheld : s.held = ps ++ held) :
    ∃ m, freeJitter img (ps.map idx2pa) s.machine = .ok m ∧
      VmOk img { s with machine := m, held := held } G ∧ view m.mem G = view s.machine.mem G := by
  induction ps generalizing s with
  | nil => exact ⟨s.machine, rfl, h.of_same rfl rfl (.of_eq hheld.symm) h.fresh, rfl⟩
  | cons p ps ih =>
    obtain ⟨m, hk, hok, hview⟩ := h.kfree_held (p := p) (hheld ▸ List.mem_cons_self)
    rw [hheld, List.cons_append, List.erase_cons_head] at hok
    obtain ⟨m', hfree, hok', hview'⟩ := ih hok rfl
    refine ⟨m', ?_, hok', hview'.trans hview⟩
    unfold Kernel.freeJitter at hfree ⊢
    rw [List.map_cons, List.foldlM_cons, hk]
    exact hfree

/-- What `kexec` guarantees: a process runs in a laid out address space, its own or the new
one, and when the call fails nothing has changed, page tables included. -/
def ExecPost (img : KernelImage) (s : VmState) (G : Tables) (r : Option ℕ × VmState) : Prop :=
  ∃ G', UserOk img r.2 G' ∧
    (r.1 = none → Undone s G r.2 G' ∧ ∀ id, id ≠ s.next → G' id = G id)

theorem UserOk.execFailed (h : UserOk img s G) (hok : VmOk img (s.withMachine m) G)
    (hview : view m.mem G = view s.machine.mem G) :
    ExecPost img s G (none, s.withMachine m) := by
  have hu : Undone s G (s.withMachine m) G :=
    ⟨rfl, rfl, fun _ _ _ => rfl, fun x _ => congrFun hview x⟩
  exact ⟨G, h.unchanged hok hu, fun _ => ⟨hu, fun _ _ => rfl⟩⟩

theorem UserOk.execBad (h : UserOk img s G) (ps : List ℕ) (ht : VmOk img t G')
    (hsp : t.spaces s.next = some sp) (hspaces : ∀ id, id ≠ s.next → t.spaces id = s.spaces id)
    (hheld : t.held = ps ++ s.held) (hm : SameMemory s.next s.machine G t.machine G')
    (htables : ∀ id, id ≠ s.next → G' id = G id) :
    Except.Sat (fun _ => False) (ExecPost img s G)
      (execBad img s (ps.map idx2pa) sp.as t.machine) := by
  obtain ⟨m1, hfree, hok1, hview1⟩ := ht.freeJitter ps hheld
  have hm1 : SameMemory s.next s.machine G m1 G' :=
    hm.trans ⟨fun _ _ _ => rfl, fun x _ => congrFun hview1 x⟩
  obtain ⟨as, m2, G2, hdestroy, hok2, hu, htables2⟩ := h.toVmOk.abandon hok1 hsp hspaces rfl hm1
  unfold Kernel.execBad
  rw [hfree, ok_bind]
  rw [show asDestroy img sp.as m1 = .ok (as, m2) from hdestroy, ok_bind]
  exact ⟨G2, h.unchanged hok2 hu, fun _ => ⟨hu, fun id hid => (htables2 id hid).trans (htables id hid)⟩⟩

/-- `kexec` never panics. -/
theorem UserOk.exec (h : UserOk img s G) {tf : ℕ} {file : List UInt8} {argv : List (List UInt8)}
    {draw : ℕ → ℕ} (htf : tf ∈ s.held) (hargs : ∀ arg ∈ argv, arg.length + 1 ≤ pgsize) :
    Except.Sat (fun _ => False) (ExecPost img s G) (kexec img s id tf file argv draw) := by
  have hnothing : ExecPost img s G (none, s) := h.execFailed h.toVmOk rfl
  unfold kexec
  cases hold : s.spaces id with
  | none => exact hnothing
  | some old =>
    have hne : id ≠ s.next := fun heq => h.toVmOk.lt_next hold heq.ge
    dsimp only
    split_ifs with hlen hmagic
    · exact hnothing
    · exact hnothing
    refine (h.toVmOk.created htf).bind ?_
    rintro ⟨newAs, m1⟩ hr
    by_cases hz : newAs.pagetable = 0
    · dsimp only at hr ⊢
      rw [if_pos hz] at hr ⊢
      exact h.execFailed hr.1 hr.2
    · dsimp only at hr ⊢
      rw [if_neg hz] at hr ⊢
      obtain ⟨G1, hok1, hregs, hview1, htables1⟩ := hr
      obtain ⟨ps, m2, hjit, hok2, hview2⟩ := hok1.jitter (aslrPages (draw 0) aslrCodeMaxPages)
      have hjit : jitterPages (aslrPages (draw 0) aslrCodeMaxPages) m1 = (ps.map idx2pa, m2) := hjit
      rw [hjit]
      -- the new address space has no page yet
      have hnew : ∀ {sp'}, update s.spaces s.next (some sp') s.next = some sp' :=
        update_self ..
      have hempty : Within G1 s.next (· < upVpn 0) := fun v l hl => by
        have := (hl.view_eq m1.mem).symm.trans (congrFun hview1 (s.next, v))
        simp [view, h.toVmOk.next_table] at this
      obtain ⟨hr2, -, hun2⟩ := hok2.space hnew
      refine (execSegments_spec _ hok2.inv hr2 (hun2 rfl) (by decide) hempty).bind ?_
      rintro ⟨sz, m3⟩ ⟨G3, hn3, hsame3, hsize⟩
      have hok3 := hok2.of_next hn3 hnew
      have htables3 : ∀ id', id' ≠ s.next → G3 id' = G id' := fun id' hid =>
        (hn3.others id' hid).trans (htables1 id' hid)
      have hm2 : SameMemory s.next s.machine G m2 G1 :=
        .of_others htables1 fun x _ => congrFun (hview2.trans hview1) x
      have hm3 : SameMemory s.next s.machine G m3 G3 := hm2.trans hsame3
      have hspaces : ∀ sp' id', id' ≠ s.next →
          update s.spaces s.next sp' id' = s.spaces id' := fun _ id' hid =>
        update_of_ne hid _ _
      cases sz with
      | none => exact h.execBad ps hok3 hnew (hspaces _) rfl hm3 htables3
      | some sz =>
        obtain ⟨hsz, hw⟩ := hsize sz rfl
        obtain ⟨m4, hfree, hok4, hview4⟩ := hok3.freeJitter ps rfl
        have hfree : freeJitter img (ps.map idx2pa) m3 = .ok m4 := hfree
        obtain ⟨hr4, -, hun4⟩ := hok4.space hnew
        dsimp only
        rw [hfree, ok_bind]
        refine (execStack_spec hok4.inv hr4 hregs (hun4 rfl) hsz hw hargs).bind ?_
        rintro ⟨ok, as5, m5⟩ ⟨G5, hn5, hsame5, htab, hregs5, hlaid⟩
        have hok5 := hok4.of_next hn5 hnew
        have htables5 : ∀ id', id' ≠ s.next → G5 id' = G id' := fun id' hid =>
          (hn5.others id' hid).trans (htables3 id' hid)
        have hm5 : SameMemory s.next s.machine G m5 G5 :=
          (hm3.trans ⟨fun _ _ _ => rfl, fun x _ => congrFun hview4 x⟩).trans hsame5
        have hset := fun b (hb : b = true → true = true) =>
          hok5.setRegions ⟨as5, b⟩ hnew htab hregs5 hb
        dsimp only
        split_ifs with hbad
        · refine h.execBad [] (hset true fun hb => hb) (update_self ..) (fun id' hid => ?_)
            rfl hm5 htables5
          exact (update_of_ne hid _ _).trans (hspaces _ id' hid)
        · have hold5 : (((s.withMachine m1).addSpace ⟨newAs, true⟩).setSpace s.next
              (some ⟨as5, false⟩)).spaces id = some old :=
            (update_of_ne hne _ _).trans ((hspaces _ id hne).trans hold)
          obtain ⟨as6, m6, G6, hdestroy, hok6, hview6, -⟩ :=
            (hset false fun _ => rfl).destroyed hold5
          have hdestroy : asDestroy img old.as m5 = .ok (as6, m6) := hdestroy
          have hk6 : ∀ id', id' ≠ id → Kept G5 G6 id' := fun id' hid =>
            .of_view m5.mem m6.mem fun v => (congrFun hview6 (id', v)).trans (if_neg hid)
          rw [hdestroy, ok_bind]
          refine ⟨G6, h.of_kept (hok6.of_same rfl ?_ (.refl _) ?_) ?_, (by rintro ⟨⟩)⟩
          · show update (update s.spaces id none) s.next (some ⟨as5, false⟩) =
              update (update (update s.spaces s.next _) s.next _) id none
            rw [update_idem, update_comm hne]
          · intro id' hle
            have hle : s.next + 1 ≤ id' := hle
            show update (update s.spaces id none) s.next _ id' = none
            rw [update_of_ne (by omega)]
            by_cases hid : id' = id
            · rw [hid, update_self]
            · rw [update_of_ne hid, h.fresh id' (by omega)]
          · intro id' sp' hrun
            rcases Running.setSpace (s := (s.withMachine m6).setSpace id none) (m := m6) hrun with
              ⟨rfl, hsp', -⟩ | ⟨hid, hrun⟩
            · obtain rfl := Option.some.inj hsp'
              have hok : ok = true := by
                rw [not_or] at hbad
                simpa using hbad.1
              exact .inr ((hlaid hok).kept (hk6 _ hne.symm))
            · rcases hrun.setSpace with ⟨-, hnone, -⟩ | ⟨hid', hrun⟩
              · cases hnone
              · exact .inl ⟨hrun, (hm5.kept hid).trans (hk6 id' hid')⟩

/-! ## Fork -/

/-- The outcome of `kfork`: on failure nothing, but pages may have become copy-on-write; on
success a child with the regions of the parent and copies of its pages, which it may not write yet. -/
structure SpaceForked (s : VmState) (G : Tables) (id : ℕ) (sp : Space) (ok : Bool) (s' : VmState)
    (G' : Tables) : Prop where
  others : ∀ id', id' ≠ s.next → Kept G G' id'
  failed : ok = false → Undone s G s' G'
  child : ok = true → ∃ as1 as : AddrSpace, s'.spaces = update s.spaces s.next (some ⟨as, false⟩) ∧
    as1.pagetable ≠ 0 ∧ addRegions { as1 with regions := [] } sp.as.regions = some as ∧
    view s'.machine.mem G' = copyRegions (view s.machine.mem G) id s.next sp.as.regions ∧
    ReadOnly G' s.next

theorem VmOk.kforked (h : VmOk img s G) (hrun : Running s id sp) :
    Except.Sat (· = .mappagesRemap) (fun r => ∃ G', VmOk img r.2 G' ∧ SpaceForked s G id sp r.1 r.2 G')
      (kforkSpaces img s sp) := by
  have hne : id ≠ s.next := fun heq => h.lt_next hrun.1 heq.ge
  -- a failure that undid what was done to the memory
  have hfailed : ∀ {m' G'}, VmOk img (s.withMachine m') G' → Undone s G (s.withMachine m') G' →
      ∃ G', VmOk img (s.withMachine m') G' ∧ SpaceForked s G id sp false (s.withMachine m') G' :=
    fun {_ G'} hok hu => ⟨G', hok, fun _ hid => hu.memory.kept hid, fun _ => hu, nofun⟩
  unfold kforkSpaces
  rcases h.kalloc_cases with ⟨m1, hk, hok1, hview1⟩ | ⟨p, m1, hk, hok1, hview1⟩
  · rw [hk]
    exact hfailed hok1 ⟨rfl, rfl, fun _ _ _ => rfl, fun x _ => congrFun hview1 x⟩
  · rw [hk]
    refine ((hok1.created List.mem_cons_self).mono (fun _ hf => hf.elim) fun _ hr => hr).bind ?_
    rintro ⟨as2, m2⟩ hr
    by_cases hz : as2.pagetable = 0
    · dsimp only at hr ⊢
      rw [if_pos hz] at hr ⊢
      obtain ⟨hok2, hview2⟩ := hr
      obtain ⟨m3, hfree, hok3, hview3⟩ := hok2.kfree_held (p := p) List.mem_cons_self
      have hfree : m2.kfree img (idx2pa p) = .ok m3 := hfree
      rw [hfree, ok_bind]
      exact hfailed (hok3.of_same rfl rfl (.of_eq (List.erase_cons_head ..).symm) h.fresh)
        ⟨rfl, rfl, fun _ _ _ => rfl,
          fun x _ => congrFun ((hview3.trans hview2).trans hview1) x⟩
    · dsimp only at hr ⊢
      rw [if_neg hz] at hr ⊢
      obtain ⟨G2, hok2, hregs, hview2, htables2⟩ := hr
      have hview : view m2.mem G2 = view s.machine.mem G := hview2.trans hview1
      have hcopy := hok2.copied s.next id ((update_of_ne hne _ _).trans hrun.1) hrun.2
        (update_self ..) rfl
      refine hcopy.bind ?_
      rintro ⟨copied, as3, m3⟩ ⟨G3, hok3, -, hsame3, hpost⟩
      have hm3 : SameMemory s.next s.machine G m3 G3 :=
        SameMemory.trans (.of_others htables2 fun x _ => congrFun hview x) hsame3
      cases copied with
      | true =>
        obtain ⟨hadd, hview3, hro⟩ := hpost rfl
        have hclear : clearRegions (view m2.mem G2) s.next as2.regions = view s.machine.mem G := by
          rw [hregs]
          exact hview
        refine ⟨G3, hok3.of_same rfl ?_ ?_ ?_, fun _ hid => hm3.kept hid, nofun,
          fun _ => ⟨as2, as3, rfl, hz, hadd, ?_, ?_⟩⟩
        · exact (update_idem (a := s.next) (some (Space.mk as2 true))
            (some (Space.mk as3 false)) s.spaces).symm
        · exact .of_eq (congrArg (· :: s.held) (pa2idx_idx2pa p))
        · intro id' hle
          have hle : s.next + 1 ≤ id' := hle
          exact (update_of_ne (show id' ≠ s.next by omega) _ _).trans (h.fresh id' (by omega))
        · exact hview3.trans (congrArg (copyRegions · id s.next sp.as.regions) hclear)
        · exact hro fun v => (congrFun hclear (s.next, v)).trans (by simp [view, h.next_table])
      | false =>
        obtain ⟨m4, hfree, hok4, hview4⟩ := hok3.kfree_held (p := p) List.mem_cons_self
        have hfree : m3.kfree img (idx2pa p) = .ok m4 := hfree
        obtain ⟨as5, m5, G5, hdestroy, hok5, hu, -⟩ := h.abandon hok4
          (show _ = some (⟨as3, false⟩ : Space) from update_self ..)
          (fun id' hid => (update_of_ne hid _ _).trans (update_of_ne hid _ _))
          (List.erase_cons_head ..)
          (hm3.trans ⟨fun _ _ _ => rfl, fun x _ => congrFun hview4 x⟩)
        have hdestroy : asDestroy img as3 m4 = .ok (as5, m5) := hdestroy
        dsimp only
        rw [hfree, ok_bind, hdestroy, ok_bind]
        exact hfailed hok5 hu

theorem SpaceForked.laidOut {L : ProcLayout} {as : AddrSpace} {ok : Bool} (hf : SpaceForked s G id sp ok s' G')
    (h : VmOk img s G) (hrun : Running s id sp) (hL : sp.as.regions = L.regions)
    (hw : Within G id L.Page) (hok : ok = true) (hchild : s'.spaces s.next = some ⟨as, false⟩) :
    as.regions = L.regions ∧ Within G' s.next L.Page := by
  have hne : id ≠ s.next := fun heq => h.lt_next hrun.1 heq.ge
  obtain ⟨as1, as', hspaces, hpt, hadd, hview, -⟩ := hf.child hok
  obtain rfl : as' = as := by simpa [hspaces] using hchild
  rw [hL, L.addRegions_eq hpt] at hadd
  obtain rfl := Option.some.inj hadd
  refine ⟨rfl, fun v l hl => ?_⟩
  have hpage := (hl.view_eq s'.machine.mem).symm.trans (congrFun hview (s.next, v))
  have hnone : view s.machine.mem G (s.next, v) = none := by simp [view, h.next_table]
  rw [copyRegions_dst _ hne, hnone, Option.or_none] at hpage
  split_ifs at hpage
  obtain ⟨l0, hl0, -⟩ := view_eq_some hpage.symm
  exact hw v l0 hl0

theorem UserOk.forked {ok : Bool} (h : UserOk img s G) (hrun : Running s id sp)
    (hok : VmOk img s' G') (hf : SpaceForked s G id sp ok s' G') : UserOk img s' G' := by
  cases ok with
  | false =>
    exact h.unchanged hok (hf.failed rfl)
  | true =>
    obtain ⟨-, as, hspaces, -⟩ := hf.child rfl
    refine h.of_kept hok fun id' sp' hrun' => ?_
    rw [Running, hspaces] at hrun'
    by_cases hid : id' = s.next
    · subst hid
      obtain rfl : sp' = ⟨as, false⟩ := by simpa using hrun'.1.symm
      obtain ⟨L, hL, hw⟩ := h.laid id sp hrun
      obtain ⟨hL', hw'⟩ := hf.laidOut h.toVmOk hrun hL hw rfl (by rw [hspaces, update_self])
      exact .inr ⟨L, hL', hw'⟩
    · rw [update_of_ne hid] at hrun'
      exact .inl ⟨hrun', hf.others id' hid⟩

/-! ## Runs -/

theorem UserOk.sbrk (h : UserOk img s G) (hrun : Running s id sp) {n : ℤ} {eager : Bool}
    {r : Option ℕ} {as : AddrSpace} (hge : -2 ^ 31 ≤ n) (hlt : n < 2 ^ 31)
    (hs : sysSbrk img sp.as n eager s.machine = .ok (r, as, m)) :
    ∃ G', UserOk img ((s.withMachine m).setSpace id (some { sp with as := as })) G' := by
  obtain ⟨L, hL, hw⟩ := h.laid id sp hrun
  obtain ⟨r', as', m', G', hs', hn, hpost⟩ :=
    sysSbrk_spec h.inv (h.toVmOk.space hrun.1).1 hL hw hge hlt 
  obtain ⟨rfl, rfl, rfl⟩ : r' = r ∧ as' = as ∧ m' = m := by simpa using hs'.symm.trans hs
  have hlaid : LaidOut G' id as' ∧ as'.pagetable = sp.as.pagetable ∧ RegionsOk as' := by
    rcases hpost with ⟨-, rfl, href⟩ | ⟨-, L', rfl, hw', -⟩
    · exact ⟨(h.laid id sp hrun).kept (.of_view s.machine.mem m'.mem fun v =>
        congrFun href.view (id, v)), rfl, (h.toVmOk.space hrun.1).2.1⟩
    · exact ⟨⟨L', rfl, hw'⟩, rfl, L'.regionsOk _⟩
  refine ⟨G', h.of_kept ((h.toVmOk.of_next hn hrun.1).setRegions { sp with as := as' } hrun.1
    hlaid.2.1 hlaid.2.2 fun hb => hb) fun id' sp' hrun' => ?_⟩
  rcases hrun'.setSpace with ⟨rfl, hsp', -⟩ | ⟨hid, hold⟩
  · obtain rfl := Option.some.inj hsp'
    exact .inr hlaid.1
  · exact .inl ⟨hold, .of_eq (hn.others id' hid)⟩

theorem UserRun.ok (hr : UserRun img s) : ∃ G, UserOk img s G := by
  induction hr with
  | boot mem failing hk => exact ⟨_, vmOk_boot hk mem failing, fun _ _ hrun => nomatch hrun.1⟩
  | vm _ hplain hop hexec ih =>
    obtain ⟨G, h⟩ := ih
    exact (h.plain hplain hop).of_eq_ok hexec
  | exec _ htf hargs hexec ih =>
    obtain ⟨G, h⟩ := ih
    obtain ⟨G', h', -⟩ := (h.exec htf hargs).of_eq_ok hexec
    exact ⟨G', h'⟩
  | fork _ hrun hfork ih =>
    obtain ⟨G, h⟩ := ih
    obtain ⟨G', hok, hf⟩ := (h.toVmOk.kforked hrun).of_eq_ok hfork
    exact ⟨G', h.forked hrun hok hf⟩
  | sbrk _ hrun hge hlt hs ih =>
    obtain ⟨G, h⟩ := ih
    exact h.sbrk hrun hge hlt hs

end

/-! ## A small system -/

/-- A step of a run, to be executed. -/
inductive UserOp where
  | vm (op : VmOp)
  | exec (id tf : ℕ) (file : List UInt8) (argv : List (List UInt8)) (draw : ℕ → ℕ)
  | fork (id : ℕ)
  | sbrk (id : ℕ) (n : ℤ) (eager : Bool)

instance : DecidablePred VmOp.Plain := fun op => by
  cases op <;> first | exact isTrue trivial | exact isFalse id

/-- The state after a step, if it is one of a run. -/
def UserOp.apply (img : KernelImage) (s : VmState) : UserOp → Option VmState
  | .vm op => if op.Plain ∧ op.Allowed s then (op.exec img s).toOption else none
  | .exec id tf file argv draw =>
    if tf ∈ s.held ∧ ∀ arg ∈ argv, arg.length + 1 ≤ pgsize then
      (kexec img s id tf file argv draw).toOption.map (·.2)
    else none
  | .fork id => (s.spaces id).bind fun sp =>
    if sp.building then none else (kforkSpaces img s sp).toOption.map (·.2)
  | .sbrk id n eager => (s.spaces id).bind fun sp =>
    if sp.building = false ∧ -2 ^ 31 ≤ n ∧ n < 2 ^ 31 then
      (sysSbrk img sp.as n eager s.machine).toOption.map fun r =>
        (s.withMachine r.2.2).setSpace id (some { sp with as := r.2.1 })
    else none

theorem UserRun.apply {img : KernelImage} {s s' : VmState} (h : UserRun img s) {op : UserOp}
    (hop : op.apply img s = some s') : UserRun img s' := by
  cases op with
  | vm op =>
    simp only [UserOp.apply] at hop
    split_ifs at hop with hplain
    exact h.vm hplain.1 hplain.2 (Except.toOption_eq_some hop)
  | exec id tf file argv draw =>
    simp only [UserOp.apply] at hop
    split_ifs at hop with hallowed
    obtain ⟨r, hr, rfl⟩ := Option.map_eq_some_iff.mp hop
    exact h.exec hallowed.1 hallowed.2 (Except.toOption_eq_some hr)
  | fork id =>
    obtain ⟨sp, hsp, hop⟩ := Option.bind_eq_some_iff.mp hop
    split_ifs at hop with hb
    obtain ⟨r, hr, rfl⟩ := Option.map_eq_some_iff.mp hop
    exact h.fork ⟨hsp, Bool.eq_false_iff.mpr hb⟩ (Except.toOption_eq_some hr)
  | sbrk id n eager =>
    obtain ⟨sp, hsp, hop⟩ := Option.bind_eq_some_iff.mp hop
    split_ifs at hop with hallowed
    obtain ⟨r, hr, rfl⟩ := Option.map_eq_some_iff.mp hop
    exact h.sbrk ⟨hsp, hallowed.1⟩ hallowed.2.1 hallowed.2.2 (Except.toOption_eq_some hr)

def applyOps (img : KernelImage) : List UserOp → VmState → Option VmState
  | [], s => some s
  | op :: ops, s => (op.apply img s).bind (applyOps img ops)

theorem UserRun.applyOps {img : KernelImage} {ops : List UserOp} {s s' : VmState}
    (h : UserRun img s) (hops : applyOps img ops s = some s') : UserRun img s' := by
  induction ops generalizing s with
  | nil => exact Option.some.inj hops ▸ h
  | cons op ops ih =>
    obtain ⟨s1, hop, hops⟩ := Option.bind_eq_some_iff.mp hops
    exact ih (h.apply hop) hops

theorem UserRun.bootState {img : KernelImage} {s : VmState} (h : bootState img = some s) :
    UserRun img s := by
  unfold Kernel.bootState at h
  cases hk : kinit img with
  | error err => simp [hk] at h
  | ok k =>
    simp only [hk] at h
    exact Option.some.inj h ▸ .boot _ _ hk

/-- An ELF header without segments. -/
def emptyElf : List UInt8 := [0x7f, 0x45, 0x4c, 0x46] ++ List.replicate 48 0

/-- A process executes an empty program and grows its heap by one byte. -/
def byteHeapOps : List UserOp :=
  [.vm .kalloc, .vm (.create 32752), .exec 0 32752 emptyElf [] fun _ => 0, .sbrk 1 1 true]

theorem byteHeap_run : ∃ s sp s1, UserRun sixteenPageImage s ∧ Running s 1 sp ∧
    heapEnd sp.as = 8193 ∧
    (∃ pte, leafPte s.machine.mem sp.as.pagetable 2 = some pte ∧ pte &&& pteU ≠ 0 ∧
      pte &&& pteW ≠ 0) ∧
    kforkSpaces sixteenPageImage s sp = .ok (true, s1) ∧ s1.machine.hasPages 1 = true := by
  have hrun : (((bootState sixteenPageImage).bind (applyOps sixteenPageImage byteHeapOps)).any fun s =>
      (s.spaces 1).any fun sp => decide (sp.building = false ∧ heapEnd sp.as = 8193) &&
        ((leafPte s.machine.mem sp.as.pagetable 2).any fun pte =>
          decide (pte &&& pteU ≠ 0 ∧ pte &&& pteW ≠ 0)) &&
        (kforkSpaces sixteenPageImage s sp).toOption.any fun f =>
          f.1 && f.2.machine.hasPages 1) = true := by
    decide +kernel
  obtain ⟨s, hs, hcheck⟩ := (Option.any_eq_true _ _).mp hrun
  obtain ⟨s0, hboot, hs⟩ := Option.bind_eq_some_iff.mp hs
  obtain ⟨sp, hsp, hcheck⟩ := (Option.any_eq_true _ _).mp hcheck
  simp only [Bool.and_eq_true, decide_eq_true_eq] at hcheck
  obtain ⟨⟨⟨hb, hend⟩, hpte⟩, hfork⟩ := hcheck
  obtain ⟨pte, hpte, hbits⟩ := (Option.any_eq_true _ _).mp hpte
  obtain ⟨⟨ok, s1⟩, hf, hok⟩ := Except.ok_of_any hfork
  obtain ⟨rfl, hpages⟩ : ok = true ∧ s1.machine.hasPages 1 = true := by simpa using hok
  exact ⟨s, sp, s1, (UserRun.bootState hboot).applyOps hs, ⟨hsp, hb⟩, hend,
    ⟨pte, hpte, of_decide_eq_true hbits⟩, hf, hpages⟩

section

variable {img : KernelImage} {s s' : VmState} {G G' : Tables} {id : ℕ} {sp : Space}

/-! ## The break -/

/-- The address spaces, the user pages with their entries and bytes, and the references of
the mapped pages are the same. -/
structure SamePages (s s' : VmState) : Prop where
  spaces : s'.spaces = s.spaces
  pages : userPages s' = userPages s
  entries : ∀ id sp v, s.spaces id = some sp → v < userVpns →
    leafPte s'.machine.mem sp.as.pagetable v = leafPte s.machine.mem sp.as.pagetable v
  refs : ∀ p, (mappings s (idx2pa p)).Nonempty →
    s'.machine.kmem.refcnt p = s.machine.kmem.refcnt p

theorem SamePages.of_leaves (h : VmOk img s G) (h' : VmOk img s' G') (hspaces : s'.spaces = s.spaces)
    (hview : view s'.machine.mem G' = view s.machine.mem G)
    (hleaves : userLeaves G' = userLeaves G) : SamePages s s' := by
  have hentries : ∀ id sp v, s.spaces id = some sp → v < userVpns →
      leafPte s'.machine.mem sp.as.pagetable v = leafPte s.machine.mem sp.as.pagetable v := by
    intro id sp v hsp hv
    refine Option.ext fun pte => ?_
    rw [h.leafPte_iff hv hsp, h'.leafPte_iff hv (hspaces ▸ hsp)]
    simp only [← userLeaves_iff, hleaves]
  have hmaps : ∀ pa, mappings s' pa = mappings s pa := fun pa => by
    refine Set.ext fun x => and_congr_right fun hx => ?_
    rw [hspaces]
    constructor
    · rintro ⟨sp, pte, hsp, hpte, hpa⟩
      exact ⟨sp, pte, hsp, (hentries _ sp _ hsp hx).symm.trans hpte, hpa⟩
    · rintro ⟨sp, pte, hsp, hpte, hpa⟩
      exact ⟨sp, pte, hsp, (hentries _ sp _ hsp hx).trans hpte, hpa⟩
  refine ⟨hspaces, by rw [h.userPages_eq, h'.userPages_eq, hview], hentries, fun p hp => ?_⟩
  obtain ⟨hheld0, htab0⟩ := h.mapped_apart hp
  obtain ⟨hheld1, htab1⟩ := h'.mapped_apart (hmaps _ ▸ hp)
  rw [h.refcnt_eq hheld0, h'.refcnt_eq hheld1, (h.count_eq htab0).2, (h'.count_eq htab1).2, hmaps]

/-- `sys_sbrk` in every state that a process reaches: it returns the old break `b` and
moves it to `b + n`, unless that is below the start of the heap; or it fails, only because
`b + n` is above `TRAPFRAME` or because memory runs out, and nothing has changed. -/
theorem sbrk_break {n : ℤ} (eager : Bool) (hr : UserRun img s) (hrun : Running s id sp)
    (hge : -2 ^ 31 ≤ n) (hlt : n < 2 ^ 31) :
    ∃ r as m, sysSbrk img sp.as n eager s.machine = .ok (r, as, m) ∧
      ((r = none ∧ 0 < n ∧ (trapframe < heapEnd sp.as + n ∨ eager = true ∧
          ¬ s.machine.hasPages (growthPages sp.as (heapEnd sp.as) (heapEnd sp.as + n).toNat
            s.machine.mem)) ∧
          SamePages s ((s.withMachine m).setSpace id (some { sp with as := as }))) ∨
        r = some (heapEnd sp.as) ∧
          (heapEnd as : ℤ) = if n < 0 ∧ heapEnd sp.as + n < asRegionStart sp.as .heap
            then (heapEnd sp.as : ℤ) else heapEnd sp.as + n) := by
  obtain ⟨G, h⟩ := hr.ok
  obtain ⟨L, hL, hw⟩ := h.laid id sp hrun
  obtain ⟨r, as, m, G', hs, hn, hpost⟩ :=
    sysSbrk_spec h.inv (h.toVmOk.space hrun.1).1 hL hw hge hlt 
  refine ⟨r, as, m, hs, ?_⟩
  rw [ProcLayout.heapEnd_eq hL, ProcLayout.heapStart_eq hL]
  rcases hpost with ⟨rfl, rfl, href⟩ | ⟨rfl, L', rfl, -, hb⟩
  · have hself : (s.withMachine m).setSpace id (some sp) = s.withMachine m := by
      show { s.withMachine m with spaces := update s.spaces id (some sp) } = _
      rw [← hrun.1, update_eq_self]
      rfl
    refine .inl ⟨rfl, href.grows, href.reason, ?_⟩
    rw [hself]
    exact .of_leaves h.toVmOk (h.toVmOk.of_next hn hrun.1) rfl href.view href.leaves
  · refine .inr ⟨rfl, ?_⟩
    rw [ProcLayout.heapEnd_eq (L := L') rfl, hb]
    have hheap := L.heap_le
    congr 1
    exact propext ⟨fun hlow => ⟨by omega, hlow⟩, fun hlow => hlow.2⟩

end

/-- Giving the byte back. -/
theorem sbrk_break_byte : ∃ s sp as m, UserRun sixteenPageImage s ∧ Running s 1 sp ∧
    heapEnd sp.as = 8193 ∧
    sysSbrk sixteenPageImage sp.as (-1) true s.machine = .ok (some 8193, as, m) ∧
    heapEnd as = 8192 := by
  obtain ⟨s, sp, s1, hr, hrun, hend, -⟩ := byteHeap_run
  obtain ⟨r, as, m, hs, ⟨-, hpos, -⟩ | ⟨rfl, hb⟩⟩ :=
    sbrk_break (n := -1) true hr hrun (by decide) (by decide)
  · exact absurd hpos (by decide)
  · obtain ⟨G, h⟩ := hr.ok
    obtain ⟨L, hL, -⟩ := h.laid 1 sp hrun
    have hstart : asRegionStart sp.as .heap ≤ 8192 := by
      have hheap := L.heap_le
      rw [← ProcLayout.heapEnd_eq hL, hend] at hheap
      rw [ProcLayout.heapStart_eq hL]
      rw [pgsize_eq] at *
      omega
    rw [hend] at hs hb
    rw [if_neg (by omega)] at hb
    exact ⟨s, sp, as, m, hr, hrun, hend, hs, by omega⟩

end YHsys.Kernel
