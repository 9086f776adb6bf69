import Mathlib
import YHsys.Kernel.VmFork

/-!
# Runs of the address-space code

All address spaces of the system together, and the operations the rest of the
kernel performs on them, in any order and with any allocation failing. `Allowed`
is what the callers guarantee: `kexec` builds an address space that no process
runs in yet, `fork` copies one that a process runs in to one that none does, and
sizes stay below `TRAPFRAME`.

`pages_accounted` is the result: in every reachable state the reference count of a
user page is the number of entries that map it.
-/

namespace YHsys.Kernel

open Function (update update_eq_self update_of_ne update_self)

/-- An address space; `building` until a process runs in it. -/
structure Space where
  as : AddrSpace
  building : Bool

/-- The machine, the live address spaces by number, the next number to give out,
and the pages that other parts of the kernel have allocated: trap frames, kernel
stacks, pipes. -/
structure VmState where
  machine : Machine
  spaces : ℕ → Option Space
  next : ℕ
  held : List ℕ

/-- `flags2perm` (`loader_exec.c:74`). -/
def flags2perm (flags : ℕ) : ℕ :=
  let perm := if flags &&& 0x1 ≠ 0 then pteX else 0
  if flags &&& 0x2 ≠ 0 then perm ||| pteW else perm

/-- The operations. `kalloc` and `kfree` are those of other parts of the kernel,
`write` is a store to a writable user page or, while `kexec` loads a program, to any
user page, and `run` lets a process run in an address space. -/
inductive VmOp where
  | kalloc
  | kfree (p : ℕ)
  | create (tf : ℕ)
  | allocseg (id va sz flags : ℕ)
  | uvmalloc (id oldsz newsz flags : ℕ)
  | uvmdealloc (id oldsz newsz : ℕ)
  | uvmclear (id va : ℕ)
  | addRegion (id vaStart vaEnd : ℕ) (type : RegionType) (perm : ℕ)
  | resizeHeap (id newEnd : ℕ)
  | write (id va : ℕ) (bs : List UInt8)
  | run (id : ℕ)
  | vmfault (id va : ℕ) (read : Bool)
  | asCopy (dst src : ℕ)
  | destroy (id : ℕ)

namespace VmState

variable (s : VmState)

/-- Replace the machine. -/
def withMachine (m : Machine) : VmState := { s with machine := m }

/-- Replace an address space. -/
def setSpace (id : ℕ) (sp : Option Space) : VmState :=
  { s with spaces := update s.spaces id sp }

/-- Add an address space. -/
def addSpace (sp : Space) : VmState := { s.setSpace s.next (some sp) with next := s.next + 1 }

/-- Do something with an address space that is there. -/
def onSpace (id : ℕ) (f : Space → Except Panic VmState) : Except Panic VmState :=
  match s.spaces id with
  | none => .ok s
  | some sp => f sp

end VmState

/-- The effect of an operation. -/
def VmOp.exec (img : KernelImage) (s : VmState) : VmOp → Except Panic VmState
  | .kalloc =>
    match s.machine.kalloc with
    | (none, m) => .ok (s.withMachine m)
    | (some r, m) => .ok { s with machine := m, held := pa2idx r :: s.held }
  | .kfree p => do
    let m ← s.machine.kfree img (idx2pa p)
    .ok { s with machine := m, held := s.held.erase p }
  | .create tf => do
    let (as, m) ← procAddrspaceCreate img (idx2pa tf) s.machine
    let s := s.withMachine m
    if as.pagetable = 0 then .ok s else .ok (s.addSpace ⟨as, true⟩)
  | .allocseg id va sz flags => s.onSpace id fun sp => do
    let (_, m) ← Kernel.allocseg img sp.as.pagetable va sz (flags2perm flags) s.machine
    .ok (s.withMachine m)
  | .uvmalloc id oldsz newsz flags => s.onSpace id fun sp => do
    let (_, m) ← Kernel.uvmalloc img sp.as oldsz newsz (flags2perm flags) s.machine
    .ok (s.withMachine m)
  | .uvmdealloc id oldsz newsz => s.onSpace id fun sp => do
    let (_, m) ← Kernel.uvmdealloc img sp.as oldsz newsz s.machine
    .ok (s.withMachine m)
  | .uvmclear id va => s.onSpace id fun sp => do
    let m ← Kernel.uvmclear sp.as.pagetable va s.machine
    .ok (s.withMachine m)
  | .addRegion id vaStart vaEnd type perm => s.onSpace id fun sp =>
    match asAddRegion sp.as vaStart vaEnd type perm with
    | none => .ok s
    | some as => .ok (s.setSpace id (some { sp with as := as }))
  | .resizeHeap id newEnd => s.onSpace id fun sp =>
    match asResizeRegion sp.as .heap newEnd with
    | none => .ok s
    | some as => .ok (s.setSpace id (some { sp with as := as }))
  | .write id va bs => s.onSpace id fun sp => do
    let (pte, m) ← walk sp.as.pagetable va false s.machine
    match pte.filter fun pte => rd32 m.mem pte &&& pteV ≠ 0 with
    | none => .ok s
    | some pte =>
      if sp.building ∨ rd32 m.mem pte &&& pteW ≠ 0 then
        .ok (s.withMachine (m.storeBytes (pte2pa (rd32 m.mem pte) + va % pgsize) bs))
      else .ok s
  | .run id => s.onSpace id fun sp => .ok (s.setSpace id (some { sp with building := false }))
  | .vmfault id va read => s.onSpace id fun sp => do
    let (_, m) ← Kernel.vmfault img sp.as sp.as.pagetable va read s.machine
    .ok (s.withMachine m)
  | .asCopy dst src => s.onSpace src fun ssp => s.onSpace dst fun dsp => do
    let (_, as, m) ← Kernel.asCopy img dsp.as ssp.as s.machine
    .ok ((s.withMachine m).setSpace dst (some ⟨as, false⟩))
  | .destroy id => s.onSpace id fun sp => do
    let (_, m) ← asDestroy img sp.as s.machine
    .ok ((s.withMachine m).setSpace id none)

/-- What the callers of an operation guarantee. -/
def VmOp.Allowed (s : VmState) : VmOp → Prop
  | .kalloc => True
  | .kfree p => p ∈ s.held
  | .create tf => tf ∈ s.held
  | .allocseg id va sz _ =>
    (s.spaces id).map Space.building = some true ∧ va % pgsize = 0 ∧ va + sz < trapframe
  | .uvmalloc _ _ newsz _ => newsz ≤ trapframe
  | .uvmdealloc _ oldsz _ => oldsz ≤ trapframe
  | .uvmclear _ va => va < trapframe
  | .addRegion _ _ _ type perm =>
    type ∈ [.text, .stack, .heap] ∧ perm ∈ [pteR ||| pteW, pteR ||| pteW ||| pteX]
  | .resizeHeap _ _ => True
  | .write _ va bs => va < trapframe ∧ va % pgsize + bs.length ≤ pgsize
  | .run _ => True
  | .vmfault _ _ _ => True
  | .asCopy dst src =>
    (s.spaces src).map Space.building = some false ∧
      (s.spaces dst).map Space.building = some true
  | .destroy _ => True

instance (s : VmState) : (op : VmOp) → Decidable (op.Allowed s)
  | .kalloc => inferInstanceAs (Decidable True)
  | .kfree p => inferInstanceAs (Decidable (p ∈ s.held))
  | .create tf => inferInstanceAs (Decidable (tf ∈ s.held))
  | .allocseg _ _ _ _ => inferInstanceAs (Decidable (_ ∧ _))
  | .uvmalloc _ _ newsz _ => inferInstanceAs (Decidable (newsz ≤ trapframe))
  | .uvmdealloc _ oldsz _ => inferInstanceAs (Decidable (oldsz ≤ trapframe))
  | .uvmclear _ va => inferInstanceAs (Decidable (va < trapframe))
  | .addRegion _ _ _ _ _ => inferInstanceAs (Decidable (_ ∧ _))
  | .resizeHeap _ _ => inferInstanceAs (Decidable True)
  | .write _ _ _ => inferInstanceAs (Decidable (_ ∧ _))
  | .run _ => inferInstanceAs (Decidable True)
  | .vmfault _ _ _ => inferInstanceAs (Decidable True)
  | .asCopy _ _ => inferInstanceAs (Decidable (_ ∧ _))
  | .destroy _ => inferInstanceAs (Decidable True)

/-- The states reached after `kinit` by allowed operations that do not panic. Which
allocations fail, and what the bytes of RAM are at boot, is arbitrary. -/
inductive VmRun (img : KernelImage) : VmState → Prop where
  | boot {k : Kmem} (mem : Mem) (failing : ℕ → Bool) : kinit img = .ok k →
      VmRun img ⟨⟨k, mem, failing, 0⟩, fun _ => none, 0, []⟩
  | step {s s' : VmState} {op : VmOp} : VmRun img s → op.Allowed s → op.exec img s = .ok s' →
      VmRun img s'

/-! ## The invariant of runs -/

/-- The references the rest of the kernel has in hand. -/
def heldRefs (held : List ℕ) : ℕ → ℕ := fun p => held.count p

/-- What the invariant of runs says of one address space. -/
def SpaceOk (G : Tables) (id : ℕ) : Option Space → Prop
  | none => G id = none
  | some sp => Rooted G id sp.as ∧ RegionsOk sp.as ∧ (sp.building = true → Unshared G id)

/-- The invariant of runs, for the page tables `G`. -/
structure VmOk (img : KernelImage) (s : VmState) (G : Tables) : Prop where
  inv : VmInv img s.machine G (heldRefs s.held)
  apart : Apart G (heldRefs s.held)
  spaces : ∀ id, SpaceOk G id (s.spaces id)
  fresh : ∀ id, s.next ≤ id → s.spaces id = none
  nodup : s.held.Nodup

theorem heldRefs_le_one {held : List ℕ} (h : held.Nodup) (p : ℕ) : heldRefs held p ≤ 1 :=
  List.nodup_iff_count_le_one.mp h p

theorem heldRefs_cons {held : List ℕ} {p : ℕ} (hp : heldRefs held p = 0) :
    heldRefs (p :: held) = update (heldRefs held) p 1 := by
  funext q
  by_cases hq : q = p
  · subst hq
    have hp : held.count q = 0 := hp
    rw [update_self, heldRefs, List.count_cons_self, hp]
  · rw [update_of_ne hq, heldRefs, List.count_cons_of_ne (Ne.symm hq)]
    rfl

theorem heldRefs_erase (held : List ℕ) (p : ℕ) :
    heldRefs (held.erase p) = update (heldRefs held) p (heldRefs held p - 1) := by
  funext q
  by_cases hq : q = p
  · subst hq
    rw [update_self, heldRefs, List.count_erase_self]
    rfl
  · rw [update_of_ne hq, heldRefs, List.count_erase_of_ne hq]
    rfl

theorem flags2perm_fresh (flags : ℕ) : FreshPerm (pteR ||| pteU ||| flags2perm flags) := by
  unfold flags2perm
  split_ifs <;> exact ⟨by decide, by decide, by decide⟩

theorem SpaceOk.keeps {G G' : Tables} {id : ℕ} {x : Option Space} {e : ℕ → ℕ} (h : SpaceOk G id x)
    (hG : G' id = G id) (hk : KeepsPrivate e G G') : SpaceOk G' id x := by
  cases x with
  | none => exact hG.trans h
  | some sp =>
    obtain ⟨⟨pt, hpt, has⟩, hok, hb⟩ := h
    exact ⟨⟨pt, hG.trans hpt, has⟩, hok, fun hbuild => (hb hbuild).keeps hk⟩

namespace VmOk

variable {img : KernelImage} {s : VmState} {G G' : Tables} {m : Machine} {id : ℕ} {sp : Space}

theorem space (h : VmOk img s G) (hsp : s.spaces id = some sp) :
    Rooted G id sp.as ∧ RegionsOk sp.as ∧ (sp.building = true → Unshared G id) := by
  have := h.spaces id
  rw [hsp] at this
  exact this

theorem setSpace (h : VmOk img s G) (id : ℕ) (x : Option Space) (hinv : VmInv img m G' (heldRefs s.held))
    (hapart : Apart G' (heldRefs s.held)) (hid : SpaceOk G' id x)
    (hothers : ∀ id', id' ≠ id → SpaceOk G' id' (s.spaces id'))
    (hnext : s.next ≤ id → x = none) : VmOk img ((s.withMachine m).setSpace id x) G' where
  inv := hinv
  apart := hapart
  spaces id' := by
    show SpaceOk G' id' (update s.spaces id x id')
    by_cases heq : id' = id
    · subst heq
      rw [update_self]
      exact hid
    · rw [update_of_ne heq]
      exact hothers id' heq
  fresh id' hle := by
    show update s.spaces id x id' = none
    by_cases heq : id' = id
    · subst heq
      rw [update_self]
      exact hnext hle
    · rw [update_of_ne heq]
      exact h.fresh id' hle
  nodup := h.nodup

theorem lt_next (h : VmOk img s G) (hsp : s.spaces id = some sp) : ¬ s.next ≤ id := fun hle =>
  Option.some_ne_none sp (hsp.symm.trans (h.fresh id hle))

theorem of_next (h : VmOk img s G) (hn : Next img id G m G' (heldRefs s.held))
    (hsp : s.spaces id = some sp) : VmOk img (s.withMachine m) G' := by
  obtain ⟨hr, hok, hb⟩ := h.space hsp
  have hset := h.setSpace id (some sp) hn.inv (h.apart.keeps hn.priv)
    ⟨hr.next hn, hok, fun hbuild => (hb hbuild).keeps hn.priv⟩
    (fun id' hne => (h.spaces id').keeps (hn.others id' hne) hn.priv)
    fun hle => absurd hle (h.lt_next hsp)
  have hself : (s.withMachine m).setSpace id (some sp) = s.withMachine m := by
    show { s.withMachine m with spaces := update s.spaces id (some sp) } = _
    rw [← hsp, update_eq_self]
    rfl
  rwa [hself] at hset

theorem setRegions (h : VmOk img s G) (sp' : Space) (hsp : s.spaces id = some sp)
    (htab : sp'.as.pagetable = sp.as.pagetable) (hok' : RegionsOk sp'.as)
    (hb' : sp'.building = true → sp.building = true) : VmOk img (s.setSpace id (some sp')) G := by
  obtain ⟨⟨pt, hG, has⟩, -, hb⟩ := h.space hsp
  exact h.setSpace id (some sp') h.inv h.apart
    ⟨⟨pt, hG, htab.trans has⟩, hok', fun hbuild => hb (hb' hbuild)⟩ (fun id' _ => h.spaces id')
    fun hle => absurd hle (h.lt_next hsp)

end VmOk

/-! ## Every operation keeps the invariant -/

/-- The panics that say nothing about the allocator: `kexec` maps a segment over
another, or clears a page that is not there. -/
def Panic.Benign (err : Panic) : Prop := err = .mappagesRemap ∨ err = .uvmclear

/-- The operation ends in a state with the invariant. -/
def VmOp.Keeps (img : KernelImage) (s : VmState) (op : VmOp) : Prop :=
  Except.Sat Panic.Benign (fun s' => ∃ G', VmOk img s' G') (op.exec img s)

section

variable {img : KernelImage} {s : VmState} {G : Tables} {id : ℕ} {sp : Space}

theorem VmOk.kalloc_cases (h : VmOk img s G) :
    (∃ m, s.machine.kalloc = (none, m) ∧ VmOk img (s.withMachine m) G ∧
      view m.mem G = view s.machine.mem G) ∨
    ∃ p m, s.machine.kalloc = (some (idx2pa p), m) ∧
      VmOk img { s with machine := m, held := p :: s.held } G ∧
      view m.mem G = view s.machine.mem G := by
  rcases h.inv.kalloc with ⟨m, hk, hinv, hmem⟩ | ⟨p, m, hk, hinv, hc, he, -, hsame⟩
  · exact .inl ⟨m, hk, { h with inv := hinv }, by rw [hmem]⟩
  · rw [← heldRefs_cons he] at hinv
    refine .inr ⟨p, m, hk, { h with
      inv := hinv
      apart := fun id v l hl => ?_
      nodup := List.nodup_cons.mpr ⟨List.count_eq_zero.mp he, h.nodup⟩ },
      view_of_same hsame fun _ _ _ hl heq => h.inv.leaf_ne hc hl heq⟩
    rw [heldRefs_cons he, update_of_ne (h.inv.leaf_ne hc hl)]
    exact h.apart id v l hl

theorem VmOk.kalloc (h : VmOk img s G) : VmOp.kalloc.Keeps img s := by
  unfold VmOp.Keeps VmOp.exec
  rcases h.kalloc_cases with ⟨m, hk, hok, -⟩ | ⟨p, m, hk, hok, -⟩
  · rw [hk]
    exact ⟨G, hok⟩
  · rw [hk]
    show ∃ G', VmOk img { s with machine := m, held := pa2idx (idx2pa p) :: s.held } G'
    rw [pa2idx_idx2pa]
    exact ⟨G, hok⟩

theorem VmOk.kfree_held (h : VmOk img s G) {p : ℕ} (hp : p ∈ s.held) :
    ∃ m, s.machine.kfree img (idx2pa p) = .ok m ∧
      VmOk img { s with machine := m, held := s.held.erase p } G ∧
      view m.mem G = view s.machine.mem G := by
  obtain ⟨m, hk, hinv, hsame⟩ := h.inv.kfree (List.count_pos_iff.mpr hp)
  rw [← heldRefs_erase] at hinv
  refine ⟨m, hk, { h with
    inv := hinv
    apart := fun id v l hl => ?_
    nodup := h.nodup.erase p }, view_of_same hsame fun id v l hl heq => h.inv.leaf_ne heq.2 hl heq.1⟩
  exact Nat.le_zero.mp ((List.erase_sublist.count_le _).trans (h.apart id v l hl).le)

theorem VmOk.kfree (h : VmOk img s G) {p : ℕ} (hp : p ∈ s.held) : (VmOp.kfree p).Keeps img s := by
  obtain ⟨m, hk, hok, -⟩ := h.kfree_held hp
  simp only [VmOp.Keeps, VmOp.exec, hk, Except.ok_bind]
  exact ⟨G, hok⟩

theorem unshared_of_view {mem : Mem} (hview : ∀ v, view mem G (id, v) = none) : Unshared G id := by
  rintro v l ⟨hv, pt, hG, hl⟩
  have := hview v
  simp [view, hv, hG, hl] at this

theorem VmOk.created (h : VmOk img s G) {tf : ℕ} (hp : tf ∈ s.held) :
    Except.Sat (fun _ => False) (fun r =>
        if r.1.pagetable = 0 then
          VmOk img (s.withMachine r.2) G ∧ view r.2.mem G = view s.machine.mem G
        else ∃ G', VmOk img ((s.withMachine r.2).addSpace ⟨r.1, true⟩) G' ∧ r.1.regions = [] ∧
          view r.2.mem G' = view s.machine.mem G ∧ ∀ id, id ≠ s.next → G' id = G id)
      (procAddrspaceCreate img (idx2pa tf) s.machine) := by
  have hG : G s.next = none := by
    have := h.spaces s.next
    rwa [h.fresh s.next (Nat.le_refl _)] at this
  have htf : tf < npages := by
    have hpos : 1 ≤ heldRefs s.held tf := List.count_pos_iff.mpr hp
    have hc := h.inv.count tf
    exact (h.inv.alloc.managed (p := tf) (by omega)).2
  have htf' : idx2pa tf < 2 ^ 32 := by
    simp only [idx2pa, npages_val, kernbase_eq, pgsize_eq] at *
    omega
  have halign : idx2pa tf % pgsize = 0 := (tableLeaf tf htf).aligned
  refine (procAddrspaceCreate_spec h.inv hG halign htf').post ?_
  rintro ⟨as, m⟩ ⟨G', hc⟩
  have hspaces : ∀ id', id' ≠ s.next → SpaceOk G' id' (s.spaces id') := fun id' hne =>
    (h.spaces id').keeps (hc.others id' hne) hc.priv
  have hapart := h.apart.keeps hc.priv
  dsimp only
  split_ifs with hz
  · rcases hc.made with ⟨-, rfl⟩ | hr
    · exact ⟨{ h with inv := hc.inv }, hc.view⟩
    · exact absurd hz hr.ne_zero
  · have hr : Rooted G' s.next as := hc.made.resolve_left fun hm => hz hm.1
    have hun : Unshared G' s.next := unshared_of_view fun v => by
      rw [hc.view]
      simp [view, hG]
    refine ⟨G', ⟨hc.inv, hapart, fun id' => ?_, fun id' hle => ?_, h.nodup⟩, hc.regions, hc.view,
      hc.others⟩
    · show SpaceOk G' id' (update s.spaces s.next (some ⟨as, true⟩) id')
      by_cases heq : id' = s.next
      · subst heq
        rw [update_self]
        refine ⟨hr, fun r hmem => ?_, fun _ => hun⟩
        rw [hc.regions] at hmem
        cases hmem
      · rw [update_of_ne heq]
        exact hspaces id' heq
    · show update s.spaces s.next (some ⟨as, true⟩) id' = none
      have hle : s.next + 1 ≤ id' := hle
      rw [update_of_ne (by omega)]
      exact h.fresh id' (by omega)

theorem VmOk.create (h : VmOk img s G) {tf : ℕ} (hp : tf ∈ s.held) :
    (VmOp.create tf).Keeps img s := by
  refine ((h.created hp).mono (fun _ hf => hf.elim) fun _ hr => hr).bind ?_
  rintro ⟨as, m⟩ hr
  dsimp only at hr ⊢
  split_ifs at hr ⊢
  · exact ⟨G, hr.1⟩
  · obtain ⟨G', hok, -⟩ := hr
    exact ⟨G', hok⟩

theorem onSpace_sat {P : Panic → Prop} {Q : VmState → Prop} {f : Space → Except Panic VmState}
    (hs : Q s) (hf : ∀ sp, s.spaces id = some sp → Except.Sat P Q (f sp)) :
    Except.Sat P Q (s.onSpace id f) := by
  unfold VmState.onSpace
  cases hsp : s.spaces id with
  | none => exact hs
  | some sp => exact hf sp hsp

theorem VmOk.onSpace (h : VmOk img s G) {f : Space → Except Panic VmState}
    (hf : ∀ sp, s.spaces id = some sp →
      Except.Sat Panic.Benign (fun s' => ∃ G', VmOk img s' G') (f sp)) :
    Except.Sat Panic.Benign (fun s' => ∃ G', VmOk img s' G') (s.onSpace id f) :=
  onSpace_sat ⟨G, h⟩ hf

theorem VmOk.onPages (h : VmOk img s G) {α : Type} (f : Space → Except Panic (α × Machine))
    (hf : ∀ sp, s.spaces id = some sp → Except.Sat Panic.Benign
      (fun r => ∃ G', Next img id G r.2 G' (heldRefs s.held)) (f sp)) :
    Except.Sat Panic.Benign (fun s' => ∃ G', VmOk img s' G')
      (s.onSpace id fun sp => do
        let (_, m) ← f sp
        .ok (s.withMachine m)) := by
  refine h.onSpace fun sp hsp => (hf sp hsp).bind ?_
  rintro ⟨_, m⟩ ⟨G', hn⟩
  exact ⟨G', h.of_next hn hsp⟩

theorem VmOk.onRegions (h : VmOk img s G) (f : AddrSpace → Option AddrSpace)
    (hf : ∀ as as', f as = some as' → RegionsOk as →
      as'.pagetable = as.pagetable ∧ RegionsOk as') :
    Except.Sat Panic.Benign (fun s' => ∃ G', VmOk img s' G')
      (s.onSpace id fun sp =>
        match f sp.as with
        | none => .ok s
        | some as => .ok (s.setSpace id (some { sp with as := as }))) := by
  refine h.onSpace fun sp hsp => ?_
  cases has : f sp.as with
  | none => exact ⟨G, h⟩
  | some as' =>
    obtain ⟨htab, hok⟩ := hf sp.as as' has (h.space hsp).2.1
    exact ⟨G, h.setRegions _ hsp htab hok fun hb => hb⟩

theorem asResizeRegion_ok {as as' : AddrSpace} {type : RegionType} {newEnd : ℕ}
    (h : asResizeRegion as type newEnd = some as') (hok : RegionsOk as) :
    as'.pagetable = as.pagetable ∧ RegionsOk as' := by
  unfold asResizeRegion at h
  split_ifs at h with htop
  cases hidx : asRegionIndex as type with
  | none => simp [hidx] at h
  | some idx =>
    cases hr : as.regions[idx]? with
    | none => simp [hidx, hr] at h
    | some region =>
      simp only [hidx, hr] at h
      split_ifs at h with hstart _
      obtain rfl := Option.some.inj h
      refine ⟨rfl, fun r hmem => ?_⟩
      rcases List.mem_or_eq_of_mem_set hmem with hold | rfl
      · exact hok r hold
      · have hreg := hok region (List.mem_of_getElem? hr)
        exact ⟨Nat.not_lt.mp hstart, Nat.not_lt.mp htop, hreg.aligned, hreg.freed, hreg.perm⟩

theorem VmOk.written (h : VmOk img s G) {va : ℕ} {bs : List UInt8} (hva : va < trapframe)
    (hlen : va % pgsize + bs.length ≤ pgsize) :
    Except.Sat Panic.Benign (fun s' => s'.spaces = s.spaces ∧ VmOk img s' G)
      ((VmOp.write id va bs).exec img s) := by
  refine onSpace_sat ⟨rfl, h⟩ fun sp hsp => ?_
  obtain ⟨pt, hG, has⟩ := (h.space hsp).1
  have hv : va / pgsize < userVpns := by
    rw [trapframe_eq] at hva
    rw [userVpns_eq, pgsize_eq]
    omega
  have hmax : va < maxva := by
    rw [trapframe_eq] at hva
    rw [maxva_eq]
    omega
  obtain ⟨pte, hwalk, ⟨-, hf⟩ | ⟨t, l, -, hl, hf, hword⟩⟩ := walk_filter h.inv hG hmax
  · rw [has, hwalk, Except.ok_bind]
    dsimp only
    rw [hf]
    exact ⟨rfl, h⟩
  · rw [has, hwalk, Except.ok_bind]
    dsimp only
    rw [hf]
    dsimp only
    rw [hword, l.pte2pa_pte]
    have hul : UserLeaf G id (va / pgsize) l := ⟨hv, pt, hG, hl⟩
    have hsame := SameOutside.storeBytes s.machine.mem (pa2idx l.pa) hlen
    rw [h.inv.leaf_pa hul] at hsame
    have hinv : VmInv img (s.machine.storeBytes (l.pa + va % pgsize) bs) G (heldRefs s.held) :=
      h.inv.withMem hsame fun p hp heq => h.inv.leaf_not_table hul (heq ▸ hp)
    split_ifs
    · exact ⟨rfl, { h with inv := hinv }⟩
    · exact ⟨rfl, h⟩

theorem VmOk.copied (h : VmOk img s G) (dst src : ℕ) {ssp dsp : Space}
    (hs : s.spaces src = some ssp) (hsb : ssp.building = false) (hd : s.spaces dst = some dsp)
    (hdb : dsp.building = true) :
    Except.Sat (· = .mappagesRemap) (fun r => ∃ G',
        VmOk img ((s.withMachine r.2.2).setSpace dst (some ⟨r.2.1, false⟩)) G' ∧
        (∀ id, id ≠ dst → ∀ v l', UserLeaf G' id v l' → ∃ l, UserLeaf G id v l) ∧
        SameMemory dst s.machine G r.2.2 G' ∧
        (r.1 = true → addRegions { dsp.as with regions := [] } ssp.as.regions = some r.2.1 ∧
          view r.2.2.mem G' = copyRegions
            (clearRegions (view s.machine.mem G) dst dsp.as.regions) src dst ssp.as.regions ∧
          ((∀ v, clearRegions (view s.machine.mem G) dst dsp.as.regions (dst, v) = none) →
            ReadOnly G' dst)))
      (Kernel.asCopy img dsp.as ssp.as s.machine) := by
  obtain ⟨hrs, hoks, -⟩ := h.space hs
  obtain ⟨hrd, hokd, -⟩ := h.space hd
  have hne : src ≠ dst := by
    rintro rfl
    obtain rfl := Option.some.inj (hs.symm.trans hd)
    rw [hsb] at hdb
    cases hdb
  refine (asCopy_spec h.inv (heldRefs_le_one h.nodup) hrs hrd hne hoks hokd).post ?_
  rintro ⟨b, as, m⟩ ⟨G', hn, hr, hok, hframe, hpost⟩
  refine ⟨G', h.setSpace dst _ hn.inv (hn.apart h.apart) ⟨hr, hok, nofun⟩ (fun id' hid => ?_)
    (fun hle => absurd hle (h.lt_next hd)), hn.kept, hframe, hpost⟩
  by_cases hsrc : id' = src
  · subst hsrc
    rw [hs]
    exact ⟨hn.rooted hrs, hoks, fun hb => absurd (hsb.symm.trans hb) (by decide)⟩
  · have hold := h.spaces id'
    have hG := hn.others id' hsrc hid
    cases hsp : s.spaces id' with
    | none =>
      rw [hsp] at hold
      exact hG.trans hold
    | some sp =>
      rw [hsp] at hold
      exact ⟨hn.rooted hold.1, hold.2.1, fun hb => hn.unshared id' hsrc hid (hold.2.2 hb)⟩

theorem VmOk.asCopy (h : VmOk img s G) {dst src : ℕ} {ssp dsp : Space}
    (hs : s.spaces src = some ssp) (hsb : ssp.building = false) (hd : s.spaces dst = some dsp)
    (hdb : dsp.building = true) : (VmOp.asCopy dst src).Keeps img s := by
  simp only [VmOp.Keeps, VmOp.exec, VmState.onSpace, hs, hd]
  refine ((h.copied dst src hs hsb hd hdb).mono (fun _ => Or.inl) fun _ hr => hr).bind ?_
  rintro ⟨b, as, m⟩ ⟨G', hok, -⟩
  exact ⟨G', hok⟩

theorem VmOk.destroyed (h : VmOk img s G) (hsp : s.spaces id = some sp) :
    ∃ as m G', asDestroy img sp.as s.machine = .ok (as, m) ∧
      VmOk img ((s.withMachine m).setSpace id none) G' ∧
      view m.mem G' = dropSpace (view s.machine.mem G) id ∧ ∀ id', id' ≠ id → G' id' = G id' := by
  obtain ⟨hr, hok, -⟩ := h.space hsp
  obtain ⟨m, hk, hinv, hpriv, hview⟩ := asDestroy_spec h.inv hr hok
  exact ⟨_, m, _, hk, h.setSpace id none hinv (h.apart.keeps hpriv) (update_self ..)
    (fun id' hid => (h.spaces id').keeps (update_of_ne hid _ _) hpriv) (fun _ => rfl), hview,
    fun id' hid => update_of_ne hid _ _⟩

theorem VmOk.destroy (h : VmOk img s G) : (VmOp.destroy id).Keeps img s := by
  refine h.onSpace fun sp hsp => ?_
  obtain ⟨as, m, G', hk, hok, -⟩ := h.destroyed hsp
  rw [hk, Except.ok_bind]
  exact ⟨G', hok⟩

theorem regionOk_of_allowed {r : MemRegion} (htype : r.type ∈ [RegionType.text, .stack, .heap])
    (hperm : r.perm ∈ [pteR ||| pteW, pteR ||| pteW ||| pteX]) (hstart : r.vaStart ≤ r.vaEnd)
    (hend : r.vaEnd ≤ trapframe) (halign : r.vaStart % pgsize = 0) : RegionOk r where
  start_le := hstart
  end_le := hend
  aligned := halign
  freed := by
    simp only [List.mem_cons, List.not_mem_nil, or_false] at htype
    rcases htype with h | h | h <;> rw [h] <;> rfl
  perm := by
    simp only [List.mem_cons, List.not_mem_nil, or_false] at hperm
    rcases hperm with h | h <;> rw [h] <;> exact ⟨by decide, by decide, by decide⟩

theorem VmOk.step (h : VmOk img s G) {op : VmOp} (hop : op.Allowed s) : op.Keeps img s := by
  cases op with
  | kalloc => exact h.kalloc
  | kfree p => exact h.kfree hop
  | create tf => exact h.create hop
  | allocseg id va sz flags =>
    obtain ⟨hsp, halign, hend⟩ := hop
    obtain ⟨sp, hsp, hb⟩ := Option.map_eq_some_iff.mp hsp
    refine h.onPages _ fun sp' hsp' => ?_
    obtain rfl := Option.some.inj (hsp.symm.trans hsp')
    obtain ⟨hr, -, hun⟩ := h.space hsp
    have hva : va / pgsize * pgsize = va := Nat.div_mul_cancel (Nat.dvd_of_mod_eq_zero halign)
    rw [← hva] at hend ⊢
    exact (allocseg_spec h.inv hr (hun hb) hend (flags2perm_fresh flags)).mono
      (fun _ hf => hf.elim) fun _ ⟨G', hn, _⟩ => ⟨G', hn⟩
  | uvmalloc id oldsz newsz flags =>
    refine h.onPages _ fun sp hsp => ?_
    exact (uvmalloc_spec h.inv (h.space hsp).1 hop (flags2perm_fresh flags)).mono
      (fun _ herr => .inl herr.1) fun _ ⟨G', hn, _⟩ => ⟨G', hn⟩
  | uvmdealloc id oldsz newsz =>
    refine h.onPages _ fun sp hsp => ?_
    obtain ⟨m', G', hk, hn, -⟩ := uvmdealloc_spec newsz h.inv (h.space hsp).1 hop
    rw [hk]
    exact ⟨G', hn⟩
  | uvmclear id va =>
    have hv : va / pgsize < userVpns := by
      have hop : va < trapframe := hop
      rw [trapframe_eq] at hop
      rw [userVpns_eq, pgsize_eq]
      omega
    refine h.onSpace fun sp hsp => ((uvmclear_spec h.inv (h.space hsp).1 hv).mono
      (fun _ herr => .inr herr.1) fun _ hq => hq).bind ?_
    rintro m ⟨G', hn, -⟩
    exact ⟨G', h.of_next hn hsp⟩
  | addRegion id vaStart vaEnd type perm =>
    refine h.onRegions (asAddRegion · vaStart vaEnd type perm) fun as as' has hok => ?_
    obtain ⟨htab, -, halign, hstart, hend⟩ := asAddRegion_eq has
    exact ⟨htab, asAddRegion_ok (r := ⟨vaStart, vaEnd, type, perm⟩) has
      (regionOk_of_allowed hop.1 hop.2 hstart hend halign) hok⟩
  | resizeHeap id newEnd => 
    exact h.onRegions (asResizeRegion · .heap newEnd) fun as as' has hok => asResizeRegion_ok has hok
  | write id va bs => exact (h.written hop.1 hop.2).post fun _ hr => ⟨G, hr.2⟩
  | run id =>
    exact h.onSpace fun sp hsp => ⟨G, h.setRegions _ hsp rfl (h.space hsp).2.1 nofun⟩
  | vmfault id va read =>
    refine h.onPages _ fun sp hsp => ?_
    obtain ⟨hr, hok, -⟩ := h.space hsp
    exact (vmfault_spec h.inv hr hok).mono (fun _ hf => hf.elim) fun _ ⟨G', hn, _⟩ => ⟨G', hn⟩
  | asCopy dst src =>
    obtain ⟨ssp, hs, hsb⟩ := Option.map_eq_some_iff.mp hop.1
    obtain ⟨dsp, hd, hdb⟩ := Option.map_eq_some_iff.mp hop.2
    exact h.asCopy hs hsb hd hdb
  | destroy id => exact h.destroy

theorem vmOk_boot {k : Kmem} (hk : kinit img = .ok k) (mem : Mem) (failing : ℕ → Bool) :
    VmOk img ⟨⟨k, mem, failing, 0⟩, fun _ => none, 0, []⟩ fun _ => none := by
  obtain ⟨k', hk', -, -, hrefs⟩ := kinit_spec img
  obtain rfl := Except.ok.inj (hk.symm.trans hk')
  refine ⟨⟨AllocOk.kinit hk, ?_, (fun _ _ hG => nomatch hG), fun p => ?_, ?_, ?_,
    fun _ _ _ _ hG => nomatch hG⟩, ?_,
    fun _ => rfl, fun _ _ => rfl, List.nodup_nil⟩
  · exact Set.finite_empty.subset fun x hx => hx rfl
  · have hnone : ∀ x, owned (fun _ => none) x ≠ some p := fun _ => nofun
    rw [Holders.count_eq_zero hnone]
    exact hrefs p
  · rintro p ⟨id, pt, hG, -⟩
    cases hG
  · rintro id v l ⟨-, pt, hG, -⟩
    cases hG
  · rintro id v l ⟨-, pt, hG, -⟩
    cases hG

theorem VmRun.ok (hr : VmRun img s) : ∃ G, VmOk img s G := by
  induction hr with
  | boot mem failing hk => exact ⟨_, vmOk_boot hk mem failing⟩
  | step _ hop hexec ih =>
    obtain ⟨G, h⟩ := ih
    exact (h.step hop).of_eq_ok hexec

end

/-! ## Reading the page tables -/

/-- The valid leaf entry of the virtual page `v`, read as the MMU reads it. -/
def leafPte (mem : Mem) (pagetable v : ℕ) : Option ℕ :=
  let dir := rd32 mem (pagetable + 4 * (v / 1024))
  if dir &&& pteV = 0 then none
  else
    let pte := rd32 mem (pte2pa dir + 4 * (v % 1024))
    if pte &&& pteV = 0 then none else some pte

/-- Where the page at `pa` is mapped below `TRAPFRAME`: the live address spaces and
virtual pages. -/
def mappings (s : VmState) (pa : ℕ) : Set (ℕ × ℕ) :=
  {x | x.2 < userVpns ∧ ∃ sp pte, s.spaces x.1 = some sp ∧
    leafPte s.machine.mem sp.as.pagetable x.2 = some pte ∧ pte2pa pte = pa}

/-- Page `p` is the root or a level-0 table of a live address space. -/
def TablePage (s : VmState) (p : ℕ) : Prop :=
  ∃ id sp, s.spaces id = some sp ∧ (sp.as.pagetable = idx2pa p ∨
    ∃ i < 1024, rd32 s.machine.mem (sp.as.pagetable + 4 * i) &&& pteV ≠ 0 ∧
      pte2pa (rd32 s.machine.mem (sp.as.pagetable + 4 * i)) = idx2pa p)

theorem idx2pa_inj {p q : ℕ} (h : idx2pa p = idx2pa q) : p = q := by
  rw [← pa2idx_idx2pa p, h, pa2idx_idx2pa]

theorem Represents.leafPte_eq {mem : Mem} {pt : PageTable} (h : Represents mem pt) {v : ℕ}
    (hi : v / 1024 < 1024) : leafPte mem (idx2pa pt.root) v = (pt.leaf v).map Leaf.pte := by
  unfold leafPte
  rw [h.dirWord _ hi]
  cases ht : pt.dir (v / 1024) with
  | none =>
    rw [PageTable.leaf_eq_none ht]
    exact if_pos rfl
  | some t =>
    have hlt := (pt.dir_lt _ t ht).2
    have hvalid : ¬ (tableLeaf t hlt).pte &&& pteV = 0 := leafEntry_some_valid (tableLeaf t hlt)
    dsimp only
    rw [dirEntry_some hlt, if_neg hvalid, Leaf.pte2pa_pte,
      show (tableLeaf t hlt).pa = idx2pa t from rfl, h.leafWord_vpn ht]
    cases hl : pt.leaf v with
    | none => exact if_pos rfl
    | some l => exact if_neg (leafEntry_some_valid l)

section

variable {img : KernelImage} {s : VmState} {G : Tables} {p : ℕ}

theorem VmOk.leafPte_iff (h : VmOk img s G) {id v pte : ℕ} {sp : Space} (hv : v < userVpns)
    (hsp : s.spaces id = some sp) :
    leafPte s.machine.mem sp.as.pagetable v = some pte ↔ ∃ l, UserLeaf G id v l ∧ l.pte = pte := by
  obtain ⟨pt, hG, has⟩ := (h.space hsp).1
  have hi : v / 1024 < 1024 := by
    rw [userVpns_eq] at hv
    omega
  rw [has, (h.inv.represents id pt hG).leafPte_eq hi, Option.map_eq_some_iff]
  constructor
  · rintro ⟨l, hl, hpte⟩
    exact ⟨l, ⟨hv, pt, hG, hl⟩, hpte⟩
  · rintro ⟨l, ⟨-, pt', hG', hl⟩, hpte⟩
    obtain rfl := Option.some.inj (hG.symm.trans hG')
    exact ⟨l, hl, hpte⟩

theorem VmOk.live (h : VmOk img s G) {id : ℕ} {pt : PageTable} (hG : G id = some pt) :
    ∃ sp, s.spaces id = some sp ∧ sp.as.pagetable = idx2pa pt.root := by
  have hsp := h.spaces id
  cases hs : s.spaces id with
  | none =>
    rw [hs] at hsp
    rw [show G id = none from hsp] at hG
    cases hG
  | some sp =>
    obtain ⟨⟨pt', hG', has⟩, -⟩ := h.space hs
    obtain rfl := Option.some.inj (hG.symm.trans hG')
    exact ⟨sp, rfl, has⟩

theorem VmOk.mem_mappings (h : VmOk img s G) (id v : ℕ) :
    (id, v) ∈ mappings s (idx2pa p) ↔ owned G (id, .leaf v) = some p := by
  constructor
  · rintro ⟨hv, sp, pte, hsp, hpte, hpa⟩
    obtain ⟨l, hl, rfl⟩ := (h.leafPte_iff hv hsp).mp hpte
    rw [l.pte2pa_pte] at hpa
    rw [hl.owned_eq, hpa, pa2idx_idx2pa]
  · intro hown
    rcases owned_cases hown with ⟨v', l, hs, hl, hpg⟩ | ⟨hs, -⟩
    · obtain rfl := Slot.leaf.inj hs
      obtain ⟨sp, hsp, -⟩ := h.live hl.2.choose_spec.1
      refine ⟨hl.1, sp, l.pte, hsp, (h.leafPte_iff hl.1 hsp).mpr ⟨l, hl, rfl⟩, ?_⟩
      rw [l.pte2pa_pte, ← h.inv.leaf_pa hl, hpg]
    · exact absurd rfl (hs v)

theorem VmOk.tablePage_iff (h : VmOk img s G) : TablePage s p ↔ IsTable G p := by
  constructor
  · rintro ⟨id, sp, hsp, hp⟩
    obtain ⟨pt, hG, has⟩ := (h.space hsp).1
    rw [has] at hp
    rcases hp with hroot | ⟨i, hi, hvalid, hpa⟩
    · exact ⟨id, pt, hG, .inl (idx2pa_inj hroot)⟩
    · rw [(h.inv.represents id pt hG).dirWord i hi] at hvalid hpa
      cases ht : pt.dir i with
      | none =>
        rw [ht] at hvalid
        exact absurd rfl hvalid
      | some t =>
        have hlt := (pt.dir_lt i t ht).2
        rw [ht, dirEntry_some hlt, Leaf.pte2pa_pte] at hpa
        exact ⟨id, pt, hG, .inr ⟨i, idx2pa_inj hpa ▸ ht⟩⟩
  · rintro ⟨id, pt, hG, hp⟩
    obtain ⟨sp, hsp, has⟩ := h.live hG
    refine ⟨id, sp, hsp, ?_⟩
    rw [has]
    rcases hp with rfl | ⟨i, ht⟩
    · exact .inl rfl
    · obtain ⟨hi, hlt⟩ := pt.dir_lt i p ht
      refine .inr ⟨i, hi, ?_⟩
      rw [(h.inv.represents id pt hG).dirWord i hi, ht, dirEntry_some hlt, Leaf.pte2pa_pte]
      exact ⟨leafEntry_some_valid (tableLeaf p hlt), rfl⟩

theorem VmOk.count_eq (h : VmOk img s G) (hp : ¬ IsTable G p) :
    (mappings s (idx2pa p)).Finite ∧
      Holders.count (owned G) p = (mappings s (idx2pa p)).ncard := by
  have hinj : Function.Injective fun x : ℕ × ℕ => (x.1, Slot.leaf x.2) := fun x y hxy =>
    Prod.ext (Prod.mk.inj hxy).1 (Slot.leaf.inj (Prod.mk.inj hxy).2)
  have himage : Holders.holders (owned G) p =
      (fun x : ℕ × ℕ => (x.1, Slot.leaf x.2)) '' mappings s (idx2pa p) := by
    refine Set.Subset.antisymm ?_ ?_
    · rintro ⟨id, slot⟩ hx
      rcases owned_cases hx with ⟨v, l, rfl, -, -⟩ | ⟨-, htab⟩
      · exact ⟨(id, v), (h.mem_mappings id v).mpr hx, rfl⟩
      · exact absurd htab hp
    · rintro _ ⟨⟨id, v⟩, hx, rfl⟩
      exact (h.mem_mappings id v).mp hx
  have hfin := h.inv.bounded.holders p
  rw [himage] at hfin
  refine ⟨Set.Finite.of_finite_image hfin hinj.injOn, ?_⟩
  rw [Holders.count, himage, Set.ncard_image_of_injective _ hinj]

/-- What the reference counts of a state amount to. -/
structure PagesAccounted (img : KernelImage) (s : VmState) : Prop where
  /-- A page that the rest of the kernel does not hold and that is not part of a page
  table has as many references as there are entries that map it. -/
  refs : ∀ p, p ∉ s.held → ¬ TablePage s p →
    (mappings s (idx2pa p)).Finite ∧ s.machine.kmem.refcnt p = (mappings s (idx2pa p)).ncard
  /-- Mapped pages are such pages. -/
  mapped : ∀ p, (mappings s (idx2pa p)).Nonempty → p ∉ s.held ∧ ¬ TablePage s p
  /-- The pages of page tables have one reference. -/
  tables : ∀ p, TablePage s p → s.machine.kmem.refcnt p = 1
  /-- A writable entry is the only one of its page. -/
  writable : ∀ id sp v pte, s.spaces id = some sp → v < userVpns →
    leafPte s.machine.mem sp.as.pagetable v = some pte → pte &&& pteW ≠ 0 →
      s.machine.kmem.refcnt (pa2idx (pte2pa pte)) = 1
  /-- No operation frees a page that has no references or shares one that has none: the
  allocator does not panic. -/
  safe : ∀ op, VmOp.Allowed s op → ∀ err, op.exec img s = .error err →
    err = .mappagesRemap ∨ err = .uvmclear
  /-- Without address spaces every page the rest of the kernel does not hold is free. -/
  drained : (∀ id, s.spaces id = none) → ∀ p, Managed img p → p ∉ s.held →
    s.machine.kmem.refcnt p = 0 ∧ Covered s.machine.kmem p

theorem VmOk.refcnt_eq (h : VmOk img s G) (hheld : p ∉ s.held) :
    s.machine.kmem.refcnt p = Holders.count (owned G) p := by
  rw [h.inv.count, show heldRefs s.held p = 0 from List.count_eq_zero.mpr hheld]
  rfl

theorem VmOk.leaf_apart (h : VmOk img s G) {id v : ℕ} {l : Leaf} (hl : UserLeaf G id v l) :
    pa2idx l.pa ∉ s.held ∧ ¬ IsTable G (pa2idx l.pa) :=
  ⟨List.count_eq_zero.mp (h.apart id v l hl), h.inv.leaf_not_table hl⟩

theorem VmOk.mapped_apart (h : VmOk img s G) (hmap : (mappings s (idx2pa p)).Nonempty) :
    p ∉ s.held ∧ ¬ IsTable G p := by
  obtain ⟨⟨id, v⟩, hx⟩ := hmap
  rcases owned_cases ((h.mem_mappings id v).mp hx) with ⟨v', l, -, hl, rfl⟩ | ⟨hs, -⟩
  · exact h.leaf_apart hl
  · exact absurd rfl (hs v)

end

/-! ## A run that forks -/

/-- Execute allowed operations one after the other. -/
def runOps (img : KernelImage) : List VmOp → VmState → Option VmState
  | [], s => some s
  | op :: ops, s =>
    if op.Allowed s then
      match op.exec img s with
      | .ok s' => runOps img ops s'
      | .error _ => none
    else none

theorem VmRun.runOps {img : KernelImage} {ops : List VmOp} {s s' : VmState} (hr : VmRun img s)
    (h : runOps img ops s = some s') : VmRun img s' := by
  induction ops generalizing s with
  | nil => exact Option.some.inj h ▸ hr
  | cons op ops ih =>
    unfold Kernel.runOps at h
    split_ifs at h with hop
    cases hexec : op.exec img s with
    | error err => simp [hexec] at h
    | ok s1 =>
      simp only [hexec] at h
      exact ih (hr.step hop hexec) h

theorem sixteenPage_trampoline_lt : kernbase + pgsize ≤ idx2pa 32752 := by decide

theorem sixteenPage_trampoline_aligned : kernbase % pgsize = 0 := by decide

theorem sixteenPage_le_phystop : idx2pa 32752 ≤ phystop := by decide

/-- An image that leaves the last sixteen pages of RAM to the allocator. -/
def sixteenPageImage : KernelImage where
  kend := idx2pa 32752
  trampolinePa := kernbase
  kernbase_le := Nat.le_refl _
  trampoline_lt := sixteenPage_trampoline_lt
  trampoline_aligned := sixteenPage_trampoline_aligned
  le_phystop := sixteenPage_le_phystop

/-- The state after `kinit` with zeroed RAM and no failing allocation. -/
def bootState (img : KernelImage) : Option VmState :=
  match kinit img with
  | .ok k => some ⟨⟨k, fun _ => 0, fun _ => false, 0⟩, fun _ => none, 0, []⟩
  | .error _ => none

theorem VmRun.bootState {img : KernelImage} {s : VmState} (h : bootState img = some s) :
    VmRun img s := by
  unfold Kernel.bootState at h
  cases hk : kinit img with
  | error err => simp [hk] at h
  | ok k =>
    simp only [hk] at h
    exact Option.some.inj h ▸ .boot _ _ hk

/-- A process with one page of text forks. -/
def forkOps : List VmOp :=
  [.kalloc, .create 32752, .uvmalloc 0 0 pgsize 2, .addRegion 0 0 pgsize .text (pteR ||| pteW),
    .run 0, .kalloc, .create 32757, .asCopy 1 0]

end YHsys.Kernel
