import YHsys.Kernel.UserMem
import YHsys.Lib.Simulation

/-!
# The machine without copy-on-write

What user memory is for: every address space has pages of its own, and `fork`
copies them all at once. There are no page tables, no reference counts and no
`PTE_COW`; an access that the kernel would refuse is `none`. `eagerOf` is the state
of this machine that a state of the kernel stands for, with pages waiting to be
copied counted as writable.
-/

namespace YHsys.Kernel

open Function (update)

/-- The pages of all address spaces, by address space and virtual page. -/
abbrev Pages := ℕ × ℕ → Option UserPage

/-- A page with some of its bytes replaced. -/
def storePage (data : ℕ → UInt8) (off : ℕ) (bs : List UInt8) : ℕ → UInt8 := fun x =>
  if off ≤ x then (bs[x - off]?).getD (data x) else data x

/-- An address space with the regions `rs`, for the functions on regions: they look at
its table only to see that there is one. -/
def ofRegions (rs : List MemRegion) : AddrSpace := ⟨1, rs⟩

/-! ## Accesses -/

section

variable (rs : List MemRegion) (V : Pages) (id va : ℕ)

/-- The page of zeros that the heap has at `va` before the first access. -/
def heapPage : Option UserPage :=
  if va < heapEnd (ofRegions rs) then
    (asFindRegion (ofRegions rs) (pgrounddown va)).bind fun r =>
      if r.type = .heap then some (zeroPage (pteU ||| r.perm)) else none
  else none

/-- The page at `va`. -/
def pageAt : Option UserPage := (V (id, va / pgsize)).or (heapPage rs va)

/-- The page at `va` if the process may access it. -/
def touch (need : ℕ) : Option UserPage :=
  (pageAt rs V id va).bind fun pg =>
    if pg.flags &&& pteU ≠ 0 ∧ pg.flags &&& need ≠ 0 then some pg else none

/-- Reading the byte `b`. -/
def eagerLoad (b : UInt8) : Option Pages :=
  (touch rs V id va pteR).bind fun pg =>
    if pg.data (va % pgsize) = b then some (update V (id, va / pgsize) (some pg)) else none

/-- Writing within the page at `va`, to the offset `off`. -/
def eagerStore (off : ℕ) (bs : List UInt8) : Option Pages :=
  (touch rs V id va pteW).map fun pg =>
    update V (id, va / pgsize) (some ⟨storePage pg.data off bs, pg.flags⟩)

end

/-- Writing page by page; a fault is taken at the start of the page. -/
def eagerCopyoutLoop (rs : List MemRegion) (id : ℕ) :
    ℕ → ℕ → List UInt8 → Pages → Option Pages
  | 0, _, bs, V => if bs.isEmpty then some V else none
  | fuel + 1, va, bs, V =>
    if bs = [] then some V
    else
      let n := pgsize - va % pgsize
      (eagerStore rs V id (pgrounddown va) (va % pgsize) (bs.take n)).bind fun V =>
        eagerCopyoutLoop rs id fuel ((pgrounddown va + pgsize) % 2 ^ 32) (bs.drop n) V

/-! ## The size of the heap -/

/-- The regions and pages after `growproc`. -/
def eagerGrow (rs : List MemRegion) (V : Pages) (id : ℕ) (n : ℤ) :
    Option (List MemRegion × Pages) :=
  (rs.find? fun r => r.type = .heap).bind fun heap =>
    let sz := heap.vaEnd
    let newsz := ((sz + n) % 2 ^ 32).toNat
    let resized (sz : ℕ) (V : Pages) : Option (List MemRegion × Pages) :=
      (asResizeRegion (ofRegions rs) .heap sz).map fun as => (as.regions, V)
    if 0 < n then
      if newsz < sz ∨ trapframe < newsz then none
      else if ∀ v < upVpn newsz, upVpn sz ≤ v → (V (id, v)).isNone then
        resized newsz (fillPages V id (upVpn sz) (upVpn newsz - upVpn sz)
          (zeroPage (pteR ||| pteU ||| pteW)))
      else none
    else if n < 0 then
      if sz < newsz ∨ newsz < heap.vaStart then resized sz V
      else resized newsz (clearPages V id (upVpn newsz) (upVpn sz - upVpn newsz))
    else resized newsz V

/-! ## The machine -/

/-- Its states. -/
structure EagerState where
  regions : ℕ → Option (List MemRegion)
  pages : Pages
  next : ℕ

/-- One operation. -/
def EagerState.step (e : EagerState) : ProcOp → Option EagerState
  | .fork src => do
    let rs ← e.regions src
    let as ← addRegions (ofRegions []) rs
    some { regions := update e.regions e.next (some as.regions)
           pages := copyRegions e.pages src e.next rs
           next := e.next + 1 }
  | .load id va b => do
    let rs ← e.regions id
    let V ← eagerLoad rs e.pages id va b
    some { e with pages := V }
  | .store id va bs => do
    let rs ← e.regions id
    let V ← eagerStore rs e.pages id va (va % pgsize) bs
    some { e with pages := V }
  | .copyout id va bs => do
    let rs ← e.regions id
    let V ← eagerCopyoutLoop rs id bs.length va bs e.pages
    some { e with pages := V }
  | .growproc id n => do
    let rs ← e.regions id
    let (rs, V) ← eagerGrow rs e.pages id n
    some { e with regions := update e.regions id (some rs), pages := V }
  | .sbrkLazy id n => do
    let rs ← e.regions id
    let as ← sbrkLazy (ofRegions rs) n
    some { e with regions := update e.regions id (some as.regions) }
  | .exit id => do
    let _ ← e.regions id
    some { e with regions := update e.regions id none, pages := dropSpace e.pages id }

/-! ## The state the kernel's state stands for -/

/-- The user pages, read from the page tables. -/
def userPages (s : VmState) : Pages := fun x =>
  if x.2 < userVpns then
    (s.spaces x.1).bind fun sp => (leafPte s.machine.mem sp.as.pagetable x.2).map fun pte =>
      ⟨pageBytes s.machine.mem (pa2idx (pte2pa pte)), eagerFlags (pteFlags pte)⟩
  else none

/-- The regions of the address spaces. -/
def spaceRegions (s : VmState) (id : ℕ) : Option (List MemRegion) :=
  (s.spaces id).map fun sp => sp.as.regions

/-- The abstraction function. -/
def eagerOf (s : VmState) : EagerState := ⟨spaceRegions s, userPages s, s.next⟩

/-- The page `v`, if it is there, is the user's. -/
def UserPageOk (V : Pages) (id v : ℕ) : Prop := ∀ pg, V (id, v) = some pg → pg.flags &&& pteU ≠ 0

/-- The pages of the `len` bytes from `va` on are. -/
def UserBytes (V : Pages) (id va len : ℕ) : Prop :=
  ∀ i < len, UserPageOk V id ((va + i) / pgsize)

/-- Every page that a `copyout` writes to has `PTE_U`, as far as it is mapped. -/
def ProcOp.UserRange (s : VmState) : ProcOp → Prop
  | .copyout id va bs => UserBytes (userPages s) id va bs.length
  | _ => True

end YHsys.Kernel
