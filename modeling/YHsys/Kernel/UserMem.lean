import YHsys.Kernel.VmRuns

/-!
# User memory at work

What happens to the memory of processes while they run: loads and stores with the
page faults they raise, `copyout` on their behalf, eager and lazy changes of the
heap's size, `fork` and `exit`. `ProcOp.Step` is one such operation that is not
refused and finds the memory it needs.
-/

namespace YHsys.Kernel

/-! ## Copying to user memory -/

/-- The address `copyout` writes the page of `va0` at, after the faults it takes
itself (`addrspace.c:663`). -/
def copyoutAddr (img : KernelImage) (as : AddrSpace) (pagetable va0 : ℕ) (m : Machine) :
    Except Panic (Option ℕ × Machine) := do
  let fault : Machine → Except Panic (Option ℕ × Machine) := fun m => do
    let (pa0, m) ← vmfault img as pagetable va0 false m
    if pa0 = 0 then .ok (none, m) else .ok (some pa0, m)
  match ← walk pagetable va0 false m with
  | (none, m) => fault m
  | (some pte, m) =>
    let e := rd32 m.mem pte
    if e &&& pteV = 0 ∨ e &&& pteU = 0 then fault m
    else if e &&& pteCOW ≠ 0 then fault m
    else .ok (some (pte2pa e), m)

/-- One round of the loop of `copyout`: `bs` goes to one page. -/
def copyoutPage (img : KernelImage) (as : AddrSpace) (pagetable dstva : ℕ) (bs : List UInt8)
    (m : Machine) : Except Panic (Bool × Machine) := do
  let va0 := pgrounddown dstva
  if maxva ≤ va0 then .ok (false, m)
  else
    match ← copyoutAddr img as pagetable va0 m with
    | (none, m) => .ok (false, m)
    | (some pa0, m) =>
      match ← walk pagetable va0 false m with
      | (none, _) => .error .kerneltrap
      | (some pte, m) =>
        if rd32 m.mem pte &&& pteW = 0 then .ok (false, m)
        else .ok (true, m.storeBytes (pa0 + (dstva - va0)) bs)

/-- The loop of `copyout`; every round writes at least one byte. -/
def copyoutLoop (img : KernelImage) (as : AddrSpace) (pagetable : ℕ) :
    ℕ → ℕ → List UInt8 → Machine → Except Panic (Bool × Machine)
  | 0, _, bs, m => .ok (bs.isEmpty, m)
  | fuel + 1, dstva, bs, m =>
    if bs = [] then .ok (true, m)
    else do
      let n := pgsize - dstva % pgsize
      match ← copyoutPage img as pagetable dstva (bs.take n) m with
      | (false, m) => .ok (false, m)
      | (true, m) =>
        copyoutLoop img as pagetable fuel ((pgrounddown dstva + pgsize) % 2 ^ 32) (bs.drop n) m

/-- `copyout` (`addrspace.c:653`). -/
def copyout (img : KernelImage) (as : AddrSpace) (pagetable dstva : ℕ) (bs : List UInt8)
    (m : Machine) : Except Panic (Bool × Machine) :=
  copyoutLoop img as pagetable bs.length dstva bs m

/-! ## Copying from user memory -/

/-- The `n` bytes from `a` on. -/
def loadBytes (mem : Mem) (a n : ℕ) : List UInt8 := (List.range n).map fun i => mem (a + i)

/-- The address `copyin` reads the page of `va0` at, after the fault it takes itself; `0`
if it is refused (`addrspace.c:703`). -/
def copyinAddr (img : KernelImage) (as : AddrSpace) (pagetable va0 : ℕ) (m : Machine) :
    Except Panic (ℕ × Machine) := do
  let (pa0, m) ← walkaddr pagetable va0 m
  if pa0 = 0 then vmfault img as pagetable va0 false m else .ok (pa0, m)

/-- The loop of `copyin`: whether it got to the end, and the bytes it copied. -/
def copyinLoop (img : KernelImage) (as : AddrSpace) (pagetable : ℕ) :
    ℕ → ℕ → ℕ → Machine → Except Panic (Bool × List UInt8 × Machine)
  | 0, _, len, m => .ok (len == 0, [], m)
  | fuel + 1, srcva, len, m =>
    if len = 0 then .ok (true, [], m)
    else do
      let va0 := pgrounddown srcva
      let (pa0, m) ← copyinAddr img as pagetable va0 m
      if pa0 = 0 then .ok (false, [], m)
      else
        let n := min (pgsize - (srcva - va0)) len
        let bs := loadBytes m.mem (pa0 + (srcva - va0)) n
        let (ok, rest, m) ← copyinLoop img as pagetable fuel ((va0 + pgsize) % 2 ^ 32) (len - n) m
        .ok (ok, bs ++ rest, m)

/-- `copyin` (`addrspace.c:697`). -/
def copyin (img : KernelImage) (as : AddrSpace) (pagetable srcva len : ℕ) (m : Machine) :
    Except Panic (Bool × List UInt8 × Machine) :=
  copyinLoop img as pagetable len srcva len m

/-- The inner loop of `copyinstr`: up to `n` bytes from `p` on, ending with the first NUL;
whether there was one. -/
def copyStr (mem : Mem) : ℕ → ℕ → Bool × List UInt8
  | 0, _ => (false, [])
  | n + 1, p =>
    if mem p = 0 then (true, [0])
    else
      let (gotNull, bs) := copyStr mem n (p + 1)
      (gotNull, mem p :: bs)

/-- The loop of `copyinstr` over pages. -/
def copyinstrLoop (pagetable : ℕ) :
    ℕ → ℕ → ℕ → Machine → Except Panic (Bool × List UInt8 × Machine)
  | 0, _, _, m => .ok (false, [], m)
  | fuel + 1, srcva, max, m =>
    if max = 0 then .ok (false, [], m)
    else do
      let va0 := pgrounddown srcva
      let (pa0, m) ← walkaddr pagetable va0 m
      if pa0 = 0 then .ok (false, [], m)
      else
        let n := min (pgsize - (srcva - va0)) max
        match copyStr m.mem n (pa0 + (srcva - va0)) with
        | (true, bs) => .ok (true, bs, m)
        | (false, bs) => do
          let (ok, rest, m) ← copyinstrLoop pagetable fuel ((va0 + pgsize) % 2 ^ 32) (max - n) m
          .ok (ok, bs ++ rest, m)

/-- `copyinstr` (`addrspace.c:726`); it never faults a page in. -/
def copyinstr (pagetable srcva max : ℕ) (m : Machine) :
    Except Panic (Bool × List UInt8 × Machine) :=
  copyinstrLoop pagetable max srcva max m

/-! ## Loads and stores -/

/-- The MMU's translation of a user access that needs the permission `need`. -/
def translate (mem : Mem) (pagetable va need : ℕ) : Option ℕ :=
  (leafPte mem pagetable (va / pgsize)).bind fun pte =>
    if pte &&& pteU ≠ 0 ∧ pte &&& need ≠ 0 then some (pte2pa pte + va % pgsize) else none

/-- A user load or store that ends up at the physical address `pa`. A fault goes to
`vmfault` (`irqtrap.c:71`), and when it is resolved the instruction is tried again. -/
inductive Access (img : KernelImage) (as : AddrSpace) (va : ℕ) (write : Bool) :
    Machine → ℕ → Machine → Prop where
  | hit {m : Machine} {pa : ℕ} :
      translate m.mem as.pagetable va (if write then pteW else pteR) = some pa →
      Access img as va write m pa m
  | fault {m m1 m2 : Machine} {r pa : ℕ} :
      translate m.mem as.pagetable va (if write then pteW else pteR) = none →
      vmfault img as as.pagetable va (!write) m = .ok (r, m1) → r ≠ 0 →
      Access img as va write m1 pa m2 → Access img as va write m pa m2

/-! ## The size of the heap -/

/-- `growproc` (`taskmgr.c:252`); the address space with its heap resized, or nothing
on failure. -/
def growproc (img : KernelImage) (as : AddrSpace) (n : ℤ) (m : Machine) :
    Except Panic (Option AddrSpace × Machine) :=
  match as.regions.find? fun r => r.type = .heap with
  | none => .ok (none, m)
  | some heap => do
    let sz := heap.vaEnd
    let newsz := ((sz + n) % 2 ^ 32).toNat
    if 0 < n then
      if newsz < sz ∨ trapframe < newsz then .ok (none, m)
      else
        let (newsz, m) ← uvmalloc img as sz newsz pteW m
        if newsz = 0 then .ok (none, m) else .ok (asResizeRegion as .heap newsz, m)
    else if n < 0 then
      if sz < newsz ∨ newsz < heap.vaStart then .ok (asResizeRegion as .heap sz, m)
      else
        let (newsz, m) ← uvmdealloc img as sz newsz m
        .ok (asResizeRegion as .heap newsz, m)
    else .ok (asResizeRegion as .heap newsz, m)

/-- The lazy branch of `sys_sbrk` (`sysproc.c:57`): only the region grows. -/
def sbrkLazy (as : AddrSpace) (n : ℕ) : Option AddrSpace :=
  let addr := (asRegionStart as .heap + asRegionSize as .heap) % 2 ^ 32
  if trapframe < addr + n then none else asResizeRegion as .heap (addr + n)

/-- `sys_sbrk` (`sysproc.c:40`): the old end of the heap, or nothing on failure, and the
address space afterwards. -/
def sysSbrk (img : KernelImage) (as : AddrSpace) (n : ℤ) (eager : Bool) (m : Machine) :
    Except Panic (Option ℕ × AddrSpace × Machine) := do
  let addr := (asRegionStart as .heap + asRegionSize as .heap) % 2 ^ 32
  if eager ∨ n < 0 then
    match ← growproc img as n m with
    | (none, m) => .ok (none, as, m)
    | (some as, m) => .ok (some addr, as, m)
  else
    match sbrkLazy as n.toNat with
    | none => .ok (none, as, m)
    | some as => .ok (some addr, as, m)

/-! ## Fork -/

/-- What `kfork` does to memory (`taskmgr.c:303`): a trap frame and an address space
for the child (`allocproc`), then `uvmcopy`. -/
def forkSpace (img : KernelImage) (s : VmState) (src : Space) : Except Panic (Option VmState) :=
  match s.machine.kalloc with
  | (none, _) => .ok none
  | (some tf, m) => do
    let (as, m) ← procAddrspaceCreate img tf m
    if as.pagetable = 0 then .ok none
    else
      let (copied, as, m) ← asCopy img as src.as m
      if copied then
        .ok (some { (s.withMachine m).addSpace ⟨as, false⟩ with held := pa2idx tf :: s.held })
      else .ok none

/-- `kfork` on memory with its failures: `allocproc` and `uvmcopy` give back what they took
(`freeproc`, `taskmgr.c:215`). -/
def kforkSpaces (img : KernelImage) (s : VmState) (src : Space) : Except Panic (Bool × VmState) :=
  match s.machine.kalloc with
  | (none, m) => .ok (false, s.withMachine m)
  | (some tf, m) => do
    let (as, m) ← procAddrspaceCreate img tf m
    if as.pagetable = 0 then
      let m ← m.kfree img tf
      .ok (false, s.withMachine m)
    else
      match ← asCopy img as src.as m with
      | (true, as, m) =>
        .ok (true, { (s.withMachine m).addSpace ⟨as, false⟩ with held := pa2idx tf :: s.held })
      | (false, as, m) =>
        let m ← m.kfree img tf
        let (_, m) ← asDestroy img as m
        .ok (false, s.withMachine m)

/-! ## Operations of processes -/

/-- The operations; `load` carries the byte it reads. -/
inductive ProcOp where
  | fork (src : ℕ)
  | load (id va : ℕ) (b : UInt8)
  | store (id va : ℕ) (bs : List UInt8)
  | copyout (id va : ℕ) (bs : List UInt8)
  | growproc (id : ℕ) (n : ℤ)
  | sbrkLazy (id n : ℕ)
  | exit (id : ℕ)

/-- A process runs in the address space `id`. -/
def Running (s : VmState) (id : ℕ) (sp : Space) : Prop :=
  s.spaces id = some sp ∧ sp.building = false

/-- One operation that succeeds. A store does not cross a page boundary. -/
inductive ProcOp.Step (img : KernelImage) : VmState → ProcOp → VmState → Prop where
  | fork {s s' : VmState} {src : ℕ} {sp : Space} : Running s src sp →
      forkSpace img s sp = .ok (some s') → Step img s (.fork src) s'
  | load {s : VmState} {id va pa : ℕ} {sp : Space} {m : Machine} : Running s id sp → va < 2 ^ 32 →
      Access img sp.as va false s.machine pa m →
      Step img s (.load id va (m.mem pa)) (s.withMachine m)
  | store {s : VmState} {id va pa : ℕ} {bs : List UInt8} {sp : Space} {m : Machine} :
      Running s id sp → va < 2 ^ 32 → va % pgsize + bs.length ≤ pgsize →
      Access img sp.as va true s.machine pa m →
      Step img s (.store id va bs) (s.withMachine (m.storeBytes pa bs))
  | copyout {s : VmState} {id va : ℕ} {bs : List UInt8} {sp : Space} {m : Machine} :
      Running s id sp → va < 2 ^ 32 →
      Kernel.copyout img sp.as sp.as.pagetable va bs s.machine = .ok (true, m) →
      Step img s (.copyout id va bs) (s.withMachine m)
  | growproc {s : VmState} {id : ℕ} {n : ℤ} {sp : Space} {as : AddrSpace} {m : Machine} :
      Running s id sp → Kernel.growproc img sp.as n s.machine = .ok (some as, m) →
      Step img s (.growproc id n) ((s.withMachine m).setSpace id (some { sp with as := as }))
  | sbrkLazy {s : VmState} {id n : ℕ} {sp : Space} {as : AddrSpace} : Running s id sp →
      Kernel.sbrkLazy sp.as n = some as →
      Step img s (.sbrkLazy id n) (s.setSpace id (some { sp with as := as }))
  | exit {s : VmState} {id : ℕ} {sp : Space} {as : AddrSpace} {m : Machine} : Running s id sp →
      asDestroy img sp.as s.machine = .ok (as, m) →
      Step img s (.exit id) ((s.withMachine m).setSpace id none)

end YHsys.Kernel
