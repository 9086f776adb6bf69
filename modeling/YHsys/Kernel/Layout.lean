import Mathlib

/-!
# Constants, address rounding and panics of the kernel

The sizes and addresses of `riscv.h`, `memlayout.h` and `param.h` that the
modelled subsystems use. Addresses are natural numbers; the operations that can
leave 32 bits reduce modulo `2 ^ 32` where the source's `uint32` does.

`KernelImage` stands for two linker symbols of `kernel.ld`: `end`, the first
address after the kernel, which lies in RAM, and the page `trampoline` inside the
kernel's text.
-/

namespace YHsys.Kernel

/-- `PGSIZE` (`riscv.h:325`). -/
def pgsize : ℕ := 4096

/-- `KERNBASE` (`memlayout.h:40`). -/
def kernbase : ℕ := 0x80000000

/-- `PHYSTOP` (`memlayout.h:41`): 128 MiB of RAM. -/
def phystop : ℕ := kernbase + 128 * 1024 * 1024

/-- `PGROUNDUP` on a `uint32`: the sum wraps before the low bits are cleared. -/
def pgroundup (sz : ℕ) : ℕ := (sz + pgsize - 1) % 2 ^ 32 / pgsize * pgsize

/-- `PGROUNDDOWN`. -/
def pgrounddown (a : ℕ) : ℕ := a / pgsize * pgsize

/-- `MAXVA` (`riscv.h`): the end of the Sv32 address space, one past the largest
`uint32`. -/
def maxva : ℕ := 2 ^ 32

/-- `TRAMPOLINE` (`memlayout.h`): the highest page. -/
def trampoline : ℕ := maxva - pgsize

/-- `TRAPFRAME` (`memlayout.h`): the page below the trampoline. -/
def trapframe : ℕ := trampoline - pgsize

/-- The pages below `TRAPFRAME`: the virtual page numbers a process can use. -/
def userVpns : ℕ := trapframe / pgsize

theorem pgsize_eq : pgsize = 4096 := rfl

theorem maxva_eq : maxva = 4294967296 := rfl

theorem trampoline_eq : trampoline = 4294963200 := rfl

theorem trapframe_eq : trapframe = 4294959104 := rfl

theorem userVpns_eq : userVpns = 1048574 := rfl

theorem kernbase_eq : kernbase = 0x80000000 := rfl

theorem phystop_eq : phystop = 0x88000000 := rfl

/-- What the linker decides: the symbol `end` of `kernel.ld` and the physical
address of the trampoline page, which `kernel.ld` aligns and places in the text. -/
structure KernelImage where
  kend : ℕ
  trampolinePa : ℕ
  kernbase_le : kernbase ≤ trampolinePa
  trampoline_lt : trampolinePa + pgsize ≤ kend
  trampoline_aligned : trampolinePa % pgsize = 0
  le_phystop : kend ≤ phystop

theorem KernelImage.kernbase_le_kend (img : KernelImage) : kernbase ≤ img.kend :=
  Nat.le_trans img.kernbase_le
    (Nat.le_trans (Nat.le_add_right _ _) img.trampoline_lt)

/-- The panics of the modelled subsystems; each constructor is one call of
`panic` in the source, named after its text. `stackOverflow` stands for the fault
of a recursion deeper than a kernel stack. -/
inductive Panic where
  | kaddref
  | kaddrefZero
  | kfree
  | kfreeRef
  | walk
  | mappagesVaNotAligned
  | mappagesSizeNotAligned
  | mappagesSize
  | mappagesRemap
  | uvmunmapAs
  | uvmunmapNotAligned
  | uvmclear
  | loadseg
  | stackOverflow
  | kerneltrap
deriving DecidableEq, Repr

end YHsys.Kernel
