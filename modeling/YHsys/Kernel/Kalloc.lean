import Mathlib
import YHsys.Kernel.Layout

/-!
# The physical page allocator (`kalloc.c`)

The buddy allocator as the kernel computes it. `Kmem` holds the allocator's
globals: the free list and counter of every order, the reference counts and the
`page_state` bytes. A free list is the list of the physical addresses of its
blocks, head first: the source threads it through the first word of each free
page. Reference counts are `uint16` and the counters `uint32`, with their
wrap-around.

The lock and the junk bytes `memset` into a page are not part of the state.
-/

namespace YHsys.Kernel

open Function (update)

/-- `MAX_ORDER` (`kalloc.c:21`). -/
def maxOrder : ℕ := 15

/-- `NPAGES`: the pages of RAM (`kalloc.c:22`). -/
def npages : ℕ := (phystop - kernbase) / pgsize

/-- `PG_BUDDY_FREE` (`kalloc.c:23`). -/
def pgBuddyFree : ℕ := 1

/-- `struct free_area`: the free list of one order and its length counter. -/
structure FreeArea where
  freelist : List ℕ
  nrFree : ℕ
deriving DecidableEq, Repr

/-- The allocator's globals `kmem` and `page_state`. -/
structure Kmem where
  freeAreas : ℕ → FreeArea
  refcnt : ℕ → ℕ
  pageState : ℕ → ℕ

/-- Page index of a physical address. -/
def pa2idx (pa : ℕ) : ℕ := (pa - kernbase) / pgsize

/-- Physical address of a page index. -/
def idx2pa (idx : ℕ) : ℕ := kernbase + idx * pgsize

/-- Mark the `2 ^ order` pages from `idx` on. -/
def setBlockState (idx order state : ℕ) (s : Kmem) : Kmem :=
  { s with
    pageState := (List.range (1 <<< order)).foldl
      (fun ps i => update ps (idx + i) state) s.pageState }

/-- Put the block at `r` in front of the list of its order. -/
def freelistPush (order r : ℕ) (s : Kmem) : Kmem :=
  let a := s.freeAreas order
  { s with
    freeAreas := update s.freeAreas order
      { freelist := r :: a.freelist, nrFree := (a.nrFree + 1) % 2 ^ 32 } }

/-- Take the first block off the list of an order; `none` is the null pointer. -/
def freelistPop (order : ℕ) (s : Kmem) : Option ℕ × Kmem :=
  let a := s.freeAreas order
  match a.freelist with
  | [] => (none, s)
  | r :: next =>
    (some r, { s with
      freeAreas := update s.freeAreas order
        { freelist := next, nrFree := (a.nrFree + 2 ^ 32 - 1) % 2 ^ 32 } })

/-- Unlink `target` from the list of an order, if it is there. -/
def freelistRemove (order target : ℕ) (s : Kmem) : Bool × Kmem :=
  let a := s.freeAreas order
  if target ∈ a.freelist then
    (true, { s with
      freeAreas := update s.freeAreas order
        { freelist := a.freelist.erase target, nrFree := (a.nrFree + 2 ^ 32 - 1) % 2 ^ 32 } })
  else (false, s)

/-- The splitting loop of `buddy_alloc_order0` (`kalloc.c:123`): the upper half
of the block at `idx` goes back to the lists, order by order. -/
def buddyAllocSplit (idx : ℕ) : ℕ → Kmem → Kmem
  | 0, s => s
  | order + 1, s =>
    let buddyIdx := idx + (1 <<< order)
    buddyAllocSplit idx order
      (freelistPush order (idx2pa buddyIdx) (setBlockState buddyIdx order pgBuddyFree s))

/-- Take one page off the smallest free block (`kalloc.c:103`). -/
def buddyAllocOrder0 (s : Kmem) : Option ℕ × Kmem :=
  match (List.range (maxOrder + 1)).find? fun order => !(s.freeAreas order).freelist.isEmpty with
  | none => (none, s)
  | some order =>
    match freelistPop order s with
    | (none, s) => (none, s)
    | (some r, s) =>
      let idx := pa2idx r
      (some (idx2pa idx), buddyAllocSplit idx order (setBlockState idx order 0 s))

/-- The merging loop of `buddy_free_order0` (`kalloc.c:142`), `n` orders below
`MAX_ORDER`; each `break` of the source pushes the block reached so far. -/
def buddyFreeMerge : ℕ → ℕ → ℕ → Kmem → Kmem
  | 0, idx, order, s => freelistPush order (idx2pa idx) s
  | n + 1, idx, order, s =>
    let buddyIdx := idx ^^^ (1 <<< order)
    if npages ≤ buddyIdx then freelistPush order (idx2pa idx) s
    else if s.pageState buddyIdx ≠ pgBuddyFree then freelistPush order (idx2pa idx) s
    else
      match freelistRemove order (idx2pa buddyIdx) s with
      | (false, s) => freelistPush order (idx2pa idx) s
      | (true, s) =>
        let s := setBlockState buddyIdx order 0 (setBlockState idx order 0 s)
        let idx := if buddyIdx < idx then buddyIdx else idx
        buddyFreeMerge n idx (order + 1) (setBlockState idx (order + 1) pgBuddyFree s)

/-- Free one page and merge it upwards (`kalloc.c:133`). -/
def buddyFreeOrder0 (idx : ℕ) (s : Kmem) : Kmem :=
  buddyFreeMerge maxOrder idx 0 (setBlockState idx 0 pgBuddyFree s)

/-- Drop one reference to the page at `pa`; the last one frees it (`kalloc.c:202`). -/
def kfree (img : KernelImage) (pa : ℕ) (s : Kmem) : Except Panic Kmem :=
  if pa % pgsize ≠ 0 ∨ pa < img.kend ∨ phystop ≤ pa then .error .kfree
  else
    let idx := pa2idx pa
    if s.refcnt idx < 1 then .error .kfreeRef
    else
      let s := { s with refcnt := update s.refcnt idx (s.refcnt idx - 1) }
      if 0 < s.refcnt idx then .ok s else .ok (buddyFreeOrder0 idx s)

/-- Add a reference to the page at `pa` (`kalloc.c:182`). -/
def kaddref (pa : ℕ) (s : Kmem) : Except Panic Kmem :=
  if pa % pgsize ≠ 0 ∨ pa < kernbase ∨ phystop ≤ pa then .error .kaddref
  else
    let idx := pa2idx pa
    if s.refcnt idx = 0 then .error .kaddrefZero
    else .ok { s with refcnt := update s.refcnt idx ((s.refcnt idx + 1) % 2 ^ 16) }

/-- Allocate one page; `none` is the null pointer (`kalloc.c:231`). -/
def kalloc (s : Kmem) : Option ℕ × Kmem :=
  match buddyAllocOrder0 s with
  | (none, s) => (none, s)
  | (some r, s) => (some r, { s with refcnt := update s.refcnt (pa2idx r) 1 })

/-- Free the pages from `pa_start` to `pa_end`, lowest first (`kalloc.c:172`). -/
def freerange (img : KernelImage) (paStart paEnd : ℕ) (s : Kmem) : Except Panic Kmem :=
  let p := pgroundup paStart
  (List.range ((paEnd - p) / pgsize)).foldlM (fun s i =>
    let p := p + i * pgsize
    kfree img p { s with refcnt := update s.refcnt (pa2idx p) 1 }) s

/-- The allocator's globals after the three `memset`s of `kinit`. -/
def kmemZero : Kmem where
  freeAreas _ := { freelist := [], nrFree := 0 }
  refcnt _ := 0
  pageState _ := 0

/-- Build the allocator from the RAM above the kernel (`kalloc.c:161`). -/
def kinit (img : KernelImage) : Except Panic Kmem :=
  freerange img img.kend phystop kmemZero

end YHsys.Kernel
