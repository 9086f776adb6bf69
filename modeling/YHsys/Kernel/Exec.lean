import YHsys.Kernel.UserMem

/-!
# Executing a program (`loader_exec.c`)

`kexec` on memory: it builds an address space from an ELF file, with a guard page and a
stack above the program and an empty heap above the stack, pushes the arguments, and
only then gives up the old address space. The file is its bytes; `namei`, the log and
the inode's lock are not modelled, and `kexec` is only called on a file that exists.
-/

namespace YHsys.Kernel

/-! ## Files -/

/-- `readi` to a kernel buffer: fewer than `n` bytes at the end of the file (`fs.c:495`). -/
def readi (file : List UInt8) (off n : ℕ) : List UInt8 :=
  if file.length < off ∨ (off + n) % 2 ^ 32 < off then [] else (file.drop off).take n

/-- The number that bytes stand for, lowest first. -/
def leNat : List UInt8 → ℕ
  | [] => 0
  | b :: bs => b.toNat + 256 * leNat bs

/-- The four bytes of a word. -/
def leBytes (w : ℕ) : List UInt8 :=
  (List.range 4).map fun i => UInt8.ofNat (w / 256 ^ i)

/-- The field of `n` bytes at the offset `off` of a structure. -/
def structField (bs : List UInt8) (off n : ℕ) : ℕ := leNat ((bs.drop off).take n)

/-- What `kexec` reads of `struct elfhdr` (`elf.h:6`). -/
structure ElfHdr where
  magic : ℕ
  entry : ℕ
  phoff : ℕ
  phnum : ℕ

/-- `sizeof(struct elfhdr)`. -/
def elfHdrSize : ℕ := 52

/-- `ELF_MAGIC`. -/
def elfMagic : ℕ := 0x464C457F

def elfHdr (bs : List UInt8) : ElfHdr :=
  ⟨structField bs 0 4, structField bs 24 4, structField bs 28 4, structField bs 44 2⟩

/-- What `kexec` reads of `struct proghdr` (`elf.h:25`). -/
structure ProgHdr where
  type : ℕ
  off : ℕ
  vaddr : ℕ
  filesz : ℕ
  memsz : ℕ
  flags : ℕ

/-- `sizeof(struct proghdr)`. -/
def progHdrSize : ℕ := 32

/-- `ELF_PROG_LOAD`. -/
def elfProgLoad : ℕ := 1

def progHdr (bs : List UInt8) : ProgHdr :=
  ⟨structField bs 0 4, structField bs 4 4, structField bs 8 4, structField bs 16 4,
    structField bs 20 4, structField bs 24 4⟩

/-! ## Segments -/

/-- The loop of `loadseg`; every round reads at least one byte. -/
def loadsegLoop (pagetable : ℕ) (file : List UInt8) :
    ℕ → ℕ → ℕ → ℕ → Machine → Except Panic (Bool × Machine)
  | 0, _, _, sz, m => .ok (sz == 0, m)
  | fuel + 1, va, offset, sz, m =>
    if sz = 0 then .ok (true, m)
    else do
      let (pa, m) ← walkaddr pagetable va m
      if pa = 0 then .error .loadseg
      else
        let n := min sz pgsize
        let bs := readi file offset n
        let m := m.storeBytes pa bs
        if bs.length ≠ n then .ok (false, m)
        else
          loadsegLoop pagetable file fuel ((va + pgsize) % 2 ^ 32) ((offset + pgsize) % 2 ^ 32)
            (sz - n) m

/-- `loadseg` (`loader_exec.c:272`). -/
def loadseg (pagetable va : ℕ) (file : List UInt8) (offset sz : ℕ) (m : Machine) :
    Except Panic (Bool × Machine) :=
  loadsegLoop pagetable file sz va offset sz m

/-- The loop of `kexec` over `n` program headers from `off` on; the size so far, or nothing
on failure (`loader_exec.c:138`). -/
def execSegments (img : KernelImage) (pagetable : ℕ) (file : List UInt8) :
    ℕ → ℕ → ℕ → Machine → Except Panic (Option ℕ × Machine)
  | 0, _, sz, m => .ok (some sz, m)
  | n + 1, off, sz, m =>
    let bs := readi file off progHdrSize
    let ph := progHdr bs
    let next := (off + progHdrSize) % 2 ^ 32
    if bs.length ≠ progHdrSize then .ok (none, m)
    else if ph.type ≠ elfProgLoad then execSegments img pagetable file n next sz m
    else if ph.memsz < ph.filesz then .ok (none, m)
    else
      let segva := ph.vaddr
      let segend := (segva + ph.memsz) % 2 ^ 32
      if segend < segva ∨ trapframe ≤ segend ∨ segva % pgsize ≠ 0 then .ok (none, m)
      else do
        match ← allocseg img pagetable segva ph.memsz (flags2perm ph.flags) m with
        | (false, m) => .ok (none, m)
        | (true, m) =>
          match ← loadseg pagetable segva file ph.off ph.filesz m with
          | (false, m) => .ok (none, m)
          | (true, m) => execSegments img pagetable file n next (max sz segend) m

/-! ## The stack -/

/-- `MAXARG`, `USERSTACK` and the window sizes of `param.h`. -/
def maxarg : ℕ := 32

@[inherit_doc maxarg] def userstack : ℕ := 1

@[inherit_doc maxarg] def aslrCodeMaxPages : ℕ := 2

@[inherit_doc maxarg] def aslrStackGapMaxPages : ℕ := 1

@[inherit_doc maxarg] def aslrHeapGapMaxPages : ℕ := 0

/-- `aslr_pages` when `aslr_next` returns `draw`, which depends on the timer. -/
def aslrPages (draw maxPages : ℕ) : ℕ := if maxPages = 0 then 0 else draw % (maxPages + 1)

/-- The loop of `kexec` over the arguments: the stack pointer and the addresses of the
strings, or nothing on failure (`loader_exec.c:206`). `copyout` writes to the new table
while `myproc()` still has the old address space. -/
def execArgs (img : KernelImage) (oldAs : AddrSpace) (pagetable stackbase : ℕ) :
    List (List UInt8) → ℕ → List ℕ → Machine → Except Panic (Option (ℕ × List ℕ) × Machine)
  | [], sp, ustack, m => .ok (some (sp, ustack), m)
  | arg :: argv, sp, ustack, m =>
    if maxarg ≤ ustack.length then .ok (none, m)
    else
      let sp := (sp + 2 ^ 32 - (arg.length + 1)) % 2 ^ 32
      let sp := sp - sp % 16
      if sp < stackbase then .ok (none, m)
      else do
        match ← copyout img oldAs pagetable sp (arg ++ [0]) m with
        | (false, m) => .ok (none, m)
        | (true, m) => execArgs img oldAs pagetable stackbase argv sp (ustack ++ [sp]) m

/-- The three regions of a program, one after the other. -/
def execRegions (as : AddrSpace) (textEnd stackGuard stackEnd heapBase : ℕ) : Bool × AddrSpace :=
  match asAddRegion as 0 textEnd .text (pteR ||| pteW ||| pteX) with
  | none => (false, as)
  | some as =>
    match asAddRegion as stackGuard stackEnd .stack (pteR ||| pteW) with
    | none => (false, as)
    | some as =>
      match asAddRegion as heapBase heapBase .heap (pteR ||| pteW) with
      | none => (false, as)
      | some as => (true, as)

/-- Pushing the arguments and the array of their addresses (`loader_exec.c:206`). -/
def execPush (img : KernelImage) (oldAs : AddrSpace) (pagetable stackEnd : ℕ)
    (argv : List (List UInt8)) (m : Machine) : Except Panic (Bool × Machine) := do
  let stackbase := stackEnd - userstack * pgsize
  match ← execArgs img oldAs pagetable stackbase argv stackEnd [] m with
  | (none, m) => .ok (false, m)
  | (some (sp, ustack), m) =>
    let sp := (sp + 2 ^ 32 - (argv.length + 1) * 4) % 2 ^ 32
    let sp := sp - sp % 16
    if sp < stackbase then .ok (false, m)
    else copyout img oldAs pagetable sp ((ustack ++ [0]).flatMap leBytes) m

/-- The part of `kexec` after the segments: the stack with its guard page, the regions and
the arguments; whether it succeeded (`loader_exec.c:178`). -/
def execStack (img : KernelImage) (oldAs newAs : AddrSpace) (sz : ℕ) (argv : List (List UInt8))
    (draw : ℕ → ℕ) (m : Machine) : Except Panic (Bool × AddrSpace × Machine) :=
  let textEnd := pgroundup sz
  let stackGap := aslrPages (draw 1) aslrStackGapMaxPages * pgsize
  let stackEnd := (textEnd + stackGap + (userstack + 1) * pgsize) % 2 ^ 32
  let stackGuard := (stackEnd + 2 ^ 32 - (userstack + 1) * pgsize) % 2 ^ 32
  if stackEnd < textEnd ∨ trapframe ≤ stackEnd then .ok (false, newAs, m)
  else do
    let (sz1, m) ← uvmalloc img newAs stackGuard stackEnd pteW m
    if sz1 = 0 then .ok (false, newAs, m)
    else
      let m ← uvmclear newAs.pagetable stackGuard m
      let heapGap := aslrPages (draw 2) aslrHeapGapMaxPages * pgsize
      let heapBase := (sz1 + heapGap) % 2 ^ 32
      if heapBase < sz1 ∨ trapframe ≤ heapBase then .ok (false, newAs, m)
      else
        match execRegions newAs textEnd stackGuard sz1 heapBase with
        | (false, newAs) => .ok (false, newAs, m)
        | (true, newAs) =>
          let (ok, m) ← execPush img oldAs newAs.pagetable sz1 argv m
          .ok (ok, newAs, m)

/-! ## The whole -/

/-- The pages that `kexec` takes before it loads the program, to vary the addresses of the
program's pages. -/
def jitterPages : ℕ → Machine → List ℕ × Machine
  | 0, m => ([], m)
  | n + 1, m =>
    match m.kalloc with
    | (none, m) => ([], m)
    | (some page, m) =>
      let (pages, m) := jitterPages n m
      (page :: pages, m)

/-- Giving them back. -/
def freeJitter (img : KernelImage) (pages : List ℕ) (m : Machine) : Except Panic Machine :=
  pages.foldlM (fun m page => m.kfree img page) m

/-- The label `bad` of `kexec`. -/
def execBad (img : KernelImage) (s : VmState) (pages : List ℕ) (newAs : AddrSpace) (m : Machine) :
    Except Panic (Option ℕ × VmState) := do
  let m ← freeJitter img pages m
  let (_, m) ← asDestroy img newAs m
  .ok (none, s.withMachine m)

/-- `kexec` in the address space `id` of a process whose trap frame is the page `tf`
(`loader_exec.c:90`); the number of arguments, or nothing on failure. -/
def kexec (img : KernelImage) (s : VmState) (id tf : ℕ) (file : List UInt8)
    (argv : List (List UInt8)) (draw : ℕ → ℕ) : Except Panic (Option ℕ × VmState) :=
  match s.spaces id with
  | none => .ok (none, s)
  | some old =>
    let bs := readi file 0 elfHdrSize
    let elf := elfHdr bs
    if bs.length ≠ elfHdrSize then .ok (none, s)
    else if elf.magic ≠ elfMagic then .ok (none, s)
    else do
      let (newAs, m) ← procAddrspaceCreate img (idx2pa tf) s.machine
      if newAs.pagetable = 0 then .ok (none, s.withMachine m)
      else
        let (pages, m) := jitterPages (aslrPages (draw 0) aslrCodeMaxPages) m
        match ← execSegments img newAs.pagetable file elf.phnum elf.phoff 0 m with
        | (none, m) => execBad img s pages newAs m
        | (some sz, m) =>
          let m ← freeJitter img pages m
          let (ok, newAs, m) ← execStack img old.as newAs sz argv draw m
          if !ok ∨ trapframe ≤ elf.entry then execBad img s [] newAs m
          else
            let (_, m) ← asDestroy img old.as m
            .ok (some argv.length, ((s.withMachine m).setSpace id none).addSpace ⟨newAs, false⟩)

end YHsys.Kernel
