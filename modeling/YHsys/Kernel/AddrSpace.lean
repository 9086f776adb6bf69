import YHsys.Kernel.Memory

/-!
# User address spaces (`addrspace.c`, and their callers' parts in `loader_exec.c`
and `taskmgr.c`)

The address-space code as the kernel computes it. Every function takes and
returns the `Machine`; a `panic` ends the computation with an error. A pointer to
a page-table entry is the entry's physical address, and `none` is the null
pointer. Where a function returns `0` for success and `-1` for failure the model
returns `true` and `false`.

The source's regions are an array `regions[MAX_MREGIONS]` with `region_count`
used slots; here they are the list of the used slots.
-/

namespace YHsys.Kernel

/-- The region types of `proc.h:32`. -/
inductive RegionType where
  | free
  | text
  | heap
  | stack
  | mmio
  | trapframe
  | trampoline
deriving DecidableEq, Repr

/-- `struct mem_region`. -/
structure MemRegion where
  vaStart : ℕ
  vaEnd : ℕ
  type : RegionType
  perm : ℕ
deriving DecidableEq, Repr

/-- `struct addr_space`; a null `pagetable` is `0`. -/
structure AddrSpace where
  pagetable : ℕ
  regions : List MemRegion
deriving DecidableEq, Repr

/-- `MAX_MREGIONS` (`proc.h:40`). -/
def maxMregions : ℕ := 16

/-! ## Walking a page table -/

/-- Address of the level-0 entry of `va`; with `alloc`, a missing level-0 table
is allocated (`addrspace.c:96`). The loop over the levels has one round. -/
def walk (pagetable va : ℕ) (alloc : Bool) (m : Machine) :
    Except Panic (Option ℕ × Machine) :=
  if maxva ≤ va then .error .walk
  else
    let pte := pagetable + 4 * px 1 va
    if rd32 m.mem pte &&& pteV ≠ 0 then
      .ok (some (pte2pa (rd32 m.mem pte) + 4 * px 0 va), m)
    else if !alloc then .ok (none, m)
    else
      match m.kalloc with
      | (none, m) => .ok (none, m)
      | (some table, m) =>
        .ok (some (table + 4 * px 0 va), (m.memset table 0).wr32 pte (pa2pte table ||| pteV))

/-- Physical address of a user page, `0` if there is none (`addrspace.c:119`). -/
def walkaddr (pagetable va : ℕ) (m : Machine) : Except Panic (ℕ × Machine) := do
  if maxva ≤ va then .ok (0, m)
  else
    match ← walk pagetable va false m with
    | (none, m) => .ok (0, m)
    | (some pte, m) =>
      let e := rd32 m.mem pte
      if e &&& pteV = 0 then .ok (0, m)
      else if e &&& pteU = 0 then .ok (0, m)
      else .ok (pte2pa e, m)

/-- Whether `va` has a valid entry (`addrspace.c:822`). -/
def ismapped (pagetable va : ℕ) (m : Machine) : Except Panic (Bool × Machine) := do
  match ← walk pagetable va false m with
  | (none, m) => .ok (false, m)
  | (some pte, m) => .ok (decide (rd32 m.mem pte &&& pteV ≠ 0), m)

/-- The loop of `mappages`, `n` pages from `a` on: `a == last` first holds at the
last of them. -/
def mappagesLoop (pagetable perm : ℕ) : ℕ → ℕ → ℕ → Machine → Except Panic (Bool × Machine)
  | 0, _, _, m => .ok (true, m)
  | n + 1, a, pa, m => do
    match ← walk pagetable a true m with
    | (none, m) => .ok (false, m)
    | (some pte, m) =>
      if rd32 m.mem pte &&& pteV ≠ 0 then .error .mappagesRemap
      else
        mappagesLoop pagetable perm n ((a + pgsize) % 2 ^ 32) ((pa + pgsize) % 2 ^ 32)
          (m.wr32 pte (pa2pte pa ||| perm ||| pteV))

/-- Map `size` bytes from `va` on to the pages from `pa` on (`addrspace.c:144`). -/
def mappages (pagetable va size pa perm : ℕ) (m : Machine) : Except Panic (Bool × Machine) :=
  if va % pgsize ≠ 0 then .error .mappagesVaNotAligned
  else if size % pgsize ≠ 0 then .error .mappagesSizeNotAligned
  else if size = 0 then .error .mappagesSize
  else mappagesLoop pagetable perm (size / pgsize) va pa m

/-- A zeroed root table, `0` if out of memory (`addrspace.c:177`). -/
def uvmcreate (m : Machine) : ℕ × Machine :=
  match m.kalloc with
  | (none, m) => (0, m)
  | (some pagetable, m) => (pagetable, m.memset pagetable 0)

/-- `as_create` (`addrspace.c:188`). -/
def asCreate (m : Machine) : AddrSpace × Machine :=
  let (pagetable, m) := uvmcreate m
  ({ pagetable := pagetable, regions := [] }, m)

/-! ## Regions -/

/-- The first region of a type; `as_region_index` (`addrspace.c:197`). -/
def asRegionIndex (as : AddrSpace) (type : RegionType) : Option ℕ :=
  as.regions.findIdx? fun r => r.type = type

/-- `as_region_do_free` (`addrspace.c:209`). -/
def asRegionDoFree (type : RegionType) : Bool :=
  decide (type ≠ .mmio ∧ type ≠ .trapframe ∧ type ≠ .trampoline)

/-- `as_region_map_start` (`addrspace.c:215`). -/
def asRegionMapStart (r : MemRegion) : ℕ := pgrounddown r.vaStart

/-- `as_region_map_npages` (`addrspace.c:221`). -/
def asRegionMapNpages (r : MemRegion) : ℕ :=
  if r.vaEnd ≤ r.vaStart then 0
  else (pgroundup r.vaEnd + 2 ^ 32 - pgrounddown r.vaStart) % 2 ^ 32 / pgsize

/-- Insert a region, sorted by its start (`addrspace.c:233`). -/
def asAddRegion (as : AddrSpace) (vaStart vaEnd : ℕ) (type : RegionType) (perm : ℕ) :
    Option AddrSpace :=
  if as.pagetable = 0 then none
  else if vaStart % pgsize ≠ 0 then none
  else if type ≠ .heap ∧ vaEnd % pgsize ≠ 0 then none
  else if vaEnd < vaStart ∨ trapframe < vaEnd then none
  else if maxMregions ≤ as.regions.length then none
  else if (asRegionIndex as type).isSome then none
  else if as.regions.any fun r => !(decide (vaEnd ≤ r.vaStart ∨ r.vaEnd ≤ vaStart)) then none
  else
    let ins := (as.regions.findIdx? fun r => vaStart < r.vaStart).getD as.regions.length
    some { as with
      regions := as.regions.take ins ++
        { vaStart := vaStart, vaEnd := vaEnd, type := type, perm := perm } ::
          as.regions.drop ins }

/-- The region that holds `va` (`addrspace.c:275`). -/
def asFindRegion (as : AddrSpace) (va : ℕ) : Option MemRegion :=
  as.regions.find? fun r => r.vaStart ≤ va ∧ va < r.vaEnd

/-- `as_region_start` (`addrspace.c:312`). -/
def asRegionStart (as : AddrSpace) (type : RegionType) : ℕ :=
  match as.regions.find? fun r => r.type = type with
  | none => 0
  | some r => r.vaStart

/-- `as_region_size` (`addrspace.c:325`). -/
def asRegionSize (as : AddrSpace) (type : RegionType) : ℕ :=
  match as.regions.find? fun r => r.type = type with
  | none => 0
  | some r => (r.vaEnd + 2 ^ 32 - r.vaStart) % 2 ^ 32

/-- Move the end of the region of a type (`addrspace.c:338`). -/
def asResizeRegion (as : AddrSpace) (type : RegionType) (newEnd : ℕ) : Option AddrSpace :=
  if trapframe < newEnd then none
  else
    match asRegionIndex as type with
    | none => none
    | some idx =>
      match as.regions[idx]? with
      | none => none
      | some region =>
        if newEnd < region.vaStart then none
        else if (as.regions.eraseIdx idx).any fun r =>
            !(decide (newEnd ≤ r.vaStart ∨ r.vaEnd ≤ region.vaStart)) then none
        else some { as with regions := as.regions.set idx { region with vaEnd := newEnd } }

/-! ## Mapping and unmapping user pages -/

/-- One round of the loop of `uvmunmap`; `continue` returns the machine. -/
def uvmunmapPage (img : KernelImage) (pagetable : ℕ) (doFree : Bool) (a : ℕ) (m : Machine) :
    Except Panic Machine := do
  match ← walk pagetable a false m with
  | (none, m) => .ok m
  | (some pte, m) =>
    let e := rd32 m.mem pte
    if e &&& pteV = 0 then .ok m
    else
      let m ← if doFree then m.kfree img (pte2pa e) else .ok m
      .ok (m.wr32 pte 0)

/-- The loop of `uvmunmap`, `n` pages from `a` on. -/
def uvmunmapLoop (img : KernelImage) (pagetable : ℕ) (doFree : Bool) :
    ℕ → ℕ → Machine → Except Panic Machine
  | 0, _, m => .ok m
  | n + 1, a, m => do
    let m ← uvmunmapPage img pagetable doFree a m
    uvmunmapLoop img pagetable doFree n ((a + pgsize) % 2 ^ 32) m

/-- Unmap `npages` pages from `va` on (`addrspace.c:390`). -/
def uvmunmap (img : KernelImage) (as : AddrSpace) (va npages : ℕ) (doFree : Bool)
    (m : Machine) : Except Panic Machine :=
  if as.pagetable = 0 then .error .uvmunmapAs
  else if va % pgsize ≠ 0 then .error .uvmunmapNotAligned
  else uvmunmapLoop img as.pagetable doFree npages va m

/-- The loops over the regions in `uvmfree` and `as_copy`. -/
def unmapRegions (img : KernelImage) (as : AddrSpace) (m : Machine) : Except Panic Machine :=
  as.regions.foldlM (fun m r =>
    if 0 < asRegionMapNpages r then
      uvmunmap img as (asRegionMapStart r) (asRegionMapNpages r) (asRegionDoFree r.type) m
    else .ok m) m

/-- `as_remove_region` (`addrspace.c:290`). -/
def asRemoveRegion (img : KernelImage) (as : AddrSpace) (type : RegionType) (m : Machine) :
    Except Panic (AddrSpace × Machine) := do
  if as.pagetable = 0 then .ok (as, m)
  else
    match asRegionIndex as type with
    | none => .ok (as, m)
    | some idx =>
      let as' := { as with regions := as.regions.eraseIdx idx }
      match as.regions[idx]? with
      | none => .ok (as', m)
      | some r =>
        if 0 < asRegionMapNpages r then
          let m ← uvmunmap img as (asRegionMapStart r) (asRegionMapNpages r)
            (asRegionDoFree r.type) m
          .ok (as', m)
        else .ok (as', m)

/-- Free the pages between two sizes (`addrspace.c:457`). -/
def uvmdealloc (img : KernelImage) (as : AddrSpace) (oldsz newsz : ℕ) (m : Machine) :
    Except Panic (ℕ × Machine) := do
  if oldsz ≤ newsz then .ok (oldsz, m)
  else if pgroundup newsz < pgroundup oldsz then
    let m ← uvmunmap img as (pgroundup newsz) ((pgroundup oldsz - pgroundup newsz) / pgsize) true m
    .ok (newsz, m)
  else .ok (newsz, m)

/-- The loop of `uvmalloc`, `n` pages from `a` on; a failure gives back what the
loop had mapped from `oldsz` on. -/
def uvmallocLoop (img : KernelImage) (as : AddrSpace) (oldsz xperm : ℕ) :
    ℕ → ℕ → Machine → Except Panic (Bool × Machine)
  | 0, _, m => .ok (true, m)
  | n + 1, a, m => do
    match m.kalloc with
    | (none, m) =>
      let (_, m) ← uvmdealloc img as a oldsz m
      .ok (false, m)
    | (some page, m) =>
      match ← mappages as.pagetable a pgsize page (pteR ||| pteU ||| xperm) (m.memset page 0) with
      | (true, m) => uvmallocLoop img as oldsz xperm n ((a + pgsize) % 2 ^ 32) m
      | (false, m) =>
        let m ← m.kfree img page
        let (_, m) ← uvmdealloc img as a oldsz m
        .ok (false, m)

/-- Map fresh zeroed pages between two sizes; `0` on failure (`addrspace.c:422`).
The loop runs over the pages from `PGROUNDUP(oldsz)` up to `newsz`. -/
def uvmalloc (img : KernelImage) (as : AddrSpace) (oldsz newsz xperm : ℕ) (m : Machine) :
    Except Panic (ℕ × Machine) := do
  if as.pagetable = 0 then .ok (0, m)
  else if newsz < oldsz then .ok (oldsz, m)
  else
    let oldsz := pgroundup oldsz
    match ← uvmallocLoop img as oldsz xperm ((newsz - oldsz + pgsize - 1) / pgsize) oldsz m with
    | (true, m) => .ok (newsz, m)
    | (false, m) => .ok (0, m)

/-- One round of the loop of `allocseg`: a page that is there gets the permissions
added, a missing one is mapped. -/
def allocsegPage (img : KernelImage) (pagetable perm a : ℕ) (m : Machine) :
    Except Panic (Bool × Machine) := do
  let (pte, m) ← walk pagetable a false m
  match pte.filter fun pte => rd32 m.mem pte &&& pteV ≠ 0 with
  | some pte => .ok (true, m.wr32 pte (rd32 m.mem pte ||| (pteR ||| pteU ||| perm)))
  | none =>
    match m.kalloc with
    | (none, m) => .ok (false, m)
    | (some page, m) =>
      match ← mappages pagetable a pgsize page (pteR ||| pteU ||| perm) (m.memset page 0) with
      | (true, m) => .ok (true, m)
      | (false, m) =>
        let m ← m.kfree img page
        .ok (false, m)

/-- The loop of `allocseg`, `n` pages from `a` on. -/
def allocsegLoop (img : KernelImage) (pagetable perm : ℕ) :
    ℕ → ℕ → Machine → Except Panic (Bool × Machine)
  | 0, _, m => .ok (true, m)
  | n + 1, a, m => do
    match ← allocsegPage img pagetable perm a m with
    | (false, m) => .ok (false, m)
    | (true, m) => allocsegLoop img pagetable perm n ((a + pgsize) % 2 ^ 32) m

/-- Allocate the pages of an ELF segment (`loader_exec.c:38`): the pages from `va`
to `last = PGROUNDDOWN(va + sz - 1)`. -/
def allocseg (img : KernelImage) (pagetable va sz perm : ℕ) (m : Machine) :
    Except Panic (Bool × Machine) :=
  if sz = 0 then .ok (true, m)
  else
    let last := pgrounddown ((va + sz - 1) % 2 ^ 32)
    allocsegLoop img pagetable perm ((last + 2 ^ 32 - va) % 2 ^ 32 / pgsize + 1) va m

/-- Take the user bit off an entry (`addrspace.c:639`). -/
def uvmclear (pagetable va : ℕ) (m : Machine) : Except Panic Machine := do
  match ← walk pagetable va false m with
  | (none, _) => .error .uvmclear
  | (some pte, m) => .ok (m.wr32 pte (rd32 m.mem pte &&& not32 pteU))

/-! ## Tearing down and copying -/

/-- One round of the loop of `freewalkall`; `free` frees what a table entry
points to. -/
def freewalkEntry (img : KernelImage) (free : ℕ → Machine → Except Panic Machine)
    (pagetable : ℕ) (m : Machine) (i : ℕ) : Except Panic Machine := do
  let pte := rd32 m.mem (pagetable + 4 * i)
  if pte &&& pteV = 0 then .ok m
  else
    let m ← if pte &&& (pteR ||| pteW ||| pteX) = 0 then free (pte2pa pte) m
      else m.kfree img (pte2pa pte)
    .ok (m.wr32 (pagetable + 4 * i) 0)

/-- Free a table, the tables below it and the pages still mapped
(`addrspace.c:491`); `depth` bounds the recursion. -/
def freewalkall (img : KernelImage) : ℕ → ℕ → Machine → Except Panic Machine
  | 0, _, _ => .error .stackOverflow
  | depth + 1, pagetable, m => do
    let m ← (List.range 1024).foldlM (freewalkEntry img (freewalkall img depth) pagetable) m
    m.kfree img pagetable

/-- How deep `freewalkall` may recurse: far more than the two levels of Sv32, and
far less than a kernel stack holds. -/
def freewalkDepth : ℕ := 8

/-- Unmap the regions, then free the tables (`addrspace.c:511`). -/
def uvmfree (img : KernelImage) (as : AddrSpace) (m : Machine) :
    Except Panic (AddrSpace × Machine) := do
  if as.pagetable = 0 then .ok (as, m)
  else
    let m ← unmapRegions img as m
    let m ← freewalkall img freewalkDepth as.pagetable m
    .ok ({ pagetable := 0, regions := [] }, m)

/-- `as_destroy` (`addrspace.c:530`). -/
def asDestroy (img : KernelImage) (as : AddrSpace) (m : Machine) :
    Except Panic (AddrSpace × Machine) := do
  if as.pagetable = 0 then .ok ({ as with regions := [] }, m)
  else
    let m ← uvmunmap img as trampoline 1 false m
    let m ← uvmunmap img as trapframe 1 false m
    uvmfree img as m

/-- `proc_addrspace_create` for a process whose trap frame is at `tf`
(`addrspace.c:609`). -/
def procAddrspaceCreate (img : KernelImage) (tf : ℕ) (m : Machine) :
    Except Panic (AddrSpace × Machine) := do
  let (as, m) := asCreate m
  if as.pagetable = 0 then .ok (as, m)
  else
    match ← mappages as.pagetable trampoline pgsize img.trampolinePa (pteR ||| pteX) m with
    | (false, m) => asDestroy img as m
    | (true, m) =>
      match ← mappages as.pagetable trapframe pgsize tf (pteR ||| pteW) m with
      | (false, m) => asDestroy img as m
      | (true, m) => .ok (as, m)

/-- The flags `as_copy` gives both entries of a writable page. -/
def cowFlags (flags : ℕ) : ℕ := (flags &&& not32 pteW) ||| pteCOW

/-- One round of the page loop of `as_copy`: share the page at `va`. -/
def asCopyPage (img : KernelImage) (dst src va : ℕ) (m : Machine) :
    Except Panic (Bool × Machine) := do
  match ← walk src va false m with
  | (none, m) => .ok (true, m)
  | (some pte, m) =>
    let e := rd32 m.mem pte
    if e &&& pteV = 0 then .ok (true, m)
    else
      let pa := pte2pa e
      let flags := if pteFlags e &&& pteW ≠ 0 then cowFlags (pteFlags e) else pteFlags e
      let m := if pteFlags e &&& pteW ≠ 0 then m.wr32 pte (pa2pte pa ||| flags) else m
      let m ← m.kaddref pa
      match ← mappages dst va pgsize pa flags m with
      | (true, m) => .ok (true, m)
      | (false, m) =>
        let m ← m.kfree img pa
        .ok (false, m)

/-- The page loop of `as_copy`, `n` pages from `va` on. -/
def asCopyPages (img : KernelImage) (dst src : ℕ) :
    ℕ → ℕ → Machine → Except Panic (Bool × Machine)
  | 0, _, m => .ok (true, m)
  | n + 1, va, m => do
    match ← asCopyPage img dst src va m with
    | (false, m) => .ok (false, m)
    | (true, m) => asCopyPages img dst src n ((va + pgsize) % 2 ^ 32) m

/-- The region loop of `as_copy`. -/
def asCopyRegions (img : KernelImage) (src : ℕ) :
    List MemRegion → AddrSpace → Machine → Except Panic (Bool × AddrSpace × Machine)
  | [], dst, m => .ok (true, dst, m)
  | r :: rs, dst, m => do
    match asAddRegion dst r.vaStart r.vaEnd r.type r.perm with
    | none => .ok (false, dst, m)
    | some dst =>
      match ← asCopyPages img dst.pagetable src
          ((pgroundup r.vaEnd - pgrounddown r.vaStart) / pgsize) (pgrounddown r.vaStart) m with
      | (false, m) => .ok (false, dst, m)
      | (true, m) => asCopyRegions img src rs dst m

/-- Share every page of `src` with `dst`, copy-on-write (`addrspace.c:544`). -/
def asCopy (img : KernelImage) (dst src : AddrSpace) (m : Machine) :
    Except Panic (Bool × AddrSpace × Machine) := do
  if dst.pagetable = 0 ∨ src.pagetable = 0 then .ok (false, dst, m)
  else
    let m ← unmapRegions img dst m
    match ← asCopyRegions img src.pagetable src.regions { dst with regions := [] } m with
    | (true, dst, m) => .ok (true, dst, m)
    | (false, dst, m) =>
      let m ← unmapRegions img dst m
      .ok (false, { dst with regions := [] }, m)

/-! ## Page faults and copying to user space -/

/-- The part of `vmfault` for a page without a valid entry: pages of the heap are
mapped on demand. -/
def vmfaultHeap (img : KernelImage) (as : AddrSpace) (pagetable va : ℕ) (m : Machine) :
    Except Panic (ℕ × Machine) := do
  let (mapped, m) ← ismapped pagetable va m
  if mapped then .ok (0, m)
  else
    match asFindRegion as va with
    | none => .ok (0, m)
    | some r =>
      if r.type ≠ .heap then .ok (0, m)
      else
        match m.kalloc with
        | (none, m) => .ok (0, m)
        | (some page, m) =>
          match ← mappages pagetable va pgsize page (pteU ||| r.perm) (m.memset page 0) with
          | (true, m) => .ok (page, m)
          | (false, m) =>
            let m ← m.kfree img page
            .ok (0, m)

/-- The part of `vmfault` for the valid entry at `pte`: a write to a copy-on-write
page gets a private copy. -/
def vmfaultCow (img : KernelImage) (pte : ℕ) (read : Bool) (m : Machine) :
    Except Panic (ℕ × Machine) := do
  let e := rd32 m.mem pte
  if e &&& pteCOW = 0 ∨ read then .ok (0, m)
  else
    let pa := pte2pa e
    let flags := pteFlags e
    match m.kalloc with
    | (none, m) => .ok (0, m)
    | (some page, m) =>
      let m := m.memmove page pa
      let m := m.wr32 pte (pa2pte page ||| ((flags ||| pteW) &&& not32 pteCOW))
      let m ← m.kfree img pa
      .ok (page, m)

/-- Resolve a fault at `va` in the table `pagetable` of the process with address
space `as`; `0` if the access is refused (`addrspace.c:769`). -/
def vmfault (img : KernelImage) (as : AddrSpace) (pagetable va : ℕ) (read : Bool)
    (m : Machine) : Except Panic (ℕ × Machine) := do
  let heapEnd := (asRegionStart as .heap + asRegionSize as .heap) % 2 ^ 32
  if heapEnd ≤ va then .ok (0, m)
  else
    let va := pgrounddown va
    let (pte, m) ← walk pagetable va false m
    match pte.filter fun pte => rd32 m.mem pte &&& pteV ≠ 0 with
    | some pte => vmfaultCow img pte read m
    | none => vmfaultHeap img as pagetable va m

end YHsys.Kernel
