import YHsys.Kernel.SemLaws

/-!
# Reading and writing through descriptors

`fileread` and `filewrite` branch on the kind of a file; what `piperead`, the device or
`readi` return is given. Both panic for a kind they do not know.
-/

namespace YHsys.Kernel

/-- What the layers below return. A device may have no `read` or no `write`. The offset
is the file's. -/
structure FileIo where
  pipe : BitVec 64 → ℤ → ℤ
  device : BitVec 16 → Option (BitVec 64 → ℤ → ℤ)
  inode : BitVec 64 → BitVec 32 → ℤ → ℤ
  off : BitVec 32

/-- The `read` or `write` of a device (`file.c:116`, `file.c:145`). -/
def FileIo.devsw (io : FileIo) (major : BitVec 16) (addr : BitVec 64) (n : ℤ) : ℤ :=
  if major.toInt < 0 ∨ major.toInt ≥ ndev then -1
  else match io.device major with
    | none => -1
    | some call => call addr n

/-- `fileread` (`file.c:108`). `none` is its panic. -/
def fileread (io : FileIo) (f : File) (addr : BitVec 64) (n : ℤ) : Option ℤ :=
  if f.readable = false then some (-1)
  else match f.type with
    | .pipe => some (io.pipe addr n)
    | .device => some (io.devsw f.major addr n)
    | .inode => some (io.inode addr io.off n)
    | .none | .sem => none

/-- What one transaction of `filewrite` writes at most: `((MAXOPBLOCKS-1-1-2) / 2) * BSIZE`. -/
def writeMax : ℤ := ((10 - 1 - 1 - 2) / 2) * 1024

/-- The loop of `filewrite` (`file.c:156`): how far it gets. -/
def writeLoop (io : FileIo) (addr : BitVec 64) (n : ℤ) (off : BitVec 32) (i : ℤ) : ℤ :=
  if i < n then
    let n1 := min (n - i) writeMax
    let r := io.inode (addr + BitVec.ofInt 64 i) off n1
    let off := if r > 0 then off + BitVec.ofInt 32 r else off
    if r = n1 then writeLoop io addr n off (i + n1) else i
  else i
termination_by (n - i).toNat
decreasing_by
  unfold writeMax
  omega

/-- `filewrite` (`file.c:136`). `none` is its panic. -/
def filewrite (io : FileIo) (f : File) (addr : BitVec 64) (n : ℤ) : Option ℤ :=
  if f.writable = false then some (-1)
  else match f.type with
    | .pipe => some (io.pipe addr n)
    | .device => some (io.devsw f.major addr n)
    | .inode => some (if writeLoop io addr n io.off 0 = n then n else -1)
    | .none | .sem => none

/-- `sys_read` and `sys_write` (`sysfile.c:68`) by process `p`. -/
def Kern.sysRead (k : Kern) (io : FileIo) (p : ProcId) (fd : BitVec 32) (addr : BitVec 64)
    (n : ℤ) : Option ℤ :=
  match k.argfd p fd with
  | none => some (-1)
  | some (_, f) => fileread io (k.files f) addr n

def Kern.sysWrite (k : Kern) (io : FileIo) (p : ProcId) (fd : BitVec 32) (addr : BitVec 64)
    (n : ℤ) : Option ℤ :=
  match k.argfd p fd with
  | none => some (-1)
  | some (_, f) => filewrite io (k.files f) addr n

/-! ## When they panic -/

theorem fileread_eq_none_iff (io : FileIo) (f : File) (addr : BitVec 64) (n : ℤ) :
    fileread io f addr n = none ↔ f.readable = true ∧ (f.type = .none ∨ f.type = .sem) := by
  unfold fileread
  cases f.readable <;> cases f.type <;> simp

theorem filewrite_eq_none_iff (io : FileIo) (f : File) (addr : BitVec 64) (n : ℤ) :
    filewrite io f addr n = none ↔ f.writable = true ∧ (f.type = .none ∨ f.type = .sem) := by
  unfold filewrite
  cases f.writable <;> cases f.type <;> simp

variable {k : Kern} {p : ProcId}

theorem argfd_kind (hk : KernReach k) (hidle : k.calls p = .idle) {fd : BitVec 32} {d : Fd}
    {f : FileId} (hfd : k.argfd p fd = some (d, f)) :
    (k.files f).type ≠ .none ∧ ((k.argsem p fd).isSome ↔ (k.files f).type = .sem) := by
  refine ⟨hk.inv.files.filled p d f (by simp [hidle, FileCall.skip]) (Kern.argfd_slot hfd), ?_⟩
  unfold Kern.argsem
  rw [hfd]
  by_cases htype : (k.files f).type = .sem <;> simp [htype]

theorem sysRead_panics_iff (hk : KernReach k) (hidle : k.calls p = .idle) (io : FileIo)
    (fd : BitVec 32) (addr : BitVec 64) (n : ℤ) :
    k.sysRead io p fd addr n = none ↔ (k.argsem p fd).isSome := by
  unfold Kern.sysRead
  split
  · rename_i hfd
    simp [Kern.argsem, hfd]
  · rename_i d f hfd
    obtain ⟨hfilled, hsem⟩ := argfd_kind hk hidle hfd
    rw [fileread_eq_none_iff, hsem, or_iff_right hfilled]
    exact and_iff_right_of_imp fun htype => (hk.inv.files.flags f htype).1

theorem sysWrite_panics_iff (hk : KernReach k) (hidle : k.calls p = .idle) (io : FileIo)
    (fd : BitVec 32) (addr : BitVec 64) (n : ℤ) :
    k.sysWrite io p fd addr n = none ↔ (k.argsem p fd).isSome := by
  unfold Kern.sysWrite
  split
  · rename_i hfd
    simp [Kern.argsem, hfd]
  · rename_i d f hfd
    obtain ⟨hfilled, hsem⟩ := argfd_kind hk hidle hfd
    rw [filewrite_eq_none_iff, hsem, or_iff_right hfilled]
    exact and_iff_right_of_imp fun htype => (hk.inv.files.flags f htype).2

/-- In every reachable state, a read or write by a process does not panic in `fileread` or
`filewrite` exactly if its descriptor is not that of a semaphore. -/
theorem file_io_no_panic_iff (hk : KernReach k) (hidle : k.calls p = .idle) (io : FileIo)
    (fd : BitVec 32) (addr : BitVec 64) (n : ℤ) :
    (k.sysRead io p fd addr n ≠ none ↔ k.argsem p fd = none) ∧
      (k.sysWrite io p fd addr n ≠ none ↔ k.argsem p fd = none) := by
  rw [Ne, Ne, sysRead_panics_iff hk hidle, sysWrite_panics_iff hk hidle]
  simp

/-- No process has a descriptor at boot. -/
theorem file_io_no_panic_iff_boot :
    Kern.boot.calls initproc = .idle ∧ ∀ (io : FileIo) (addr : BitVec 64) (n : ℤ),
      Kern.boot.sysRead io initproc 0 addr n ≠ none := by
  refine ⟨rfl, fun io addr n => ?_⟩
  have hnone : Kern.boot.argsem initproc 0 = none := by decide
  exact (file_io_no_panic_iff .boot rfl io 0 addr n).1.mpr hnone

/-- `init` creates a semaphore and reads from, or writes to, its descriptor. -/
theorem file_io_panics_semaphore : ∃ k, KernReach k ∧ k.table.running = some initproc ∧
    k.table.pc initproc = .user ∧ k.calls initproc = .idle ∧
    ∀ (io : FileIo) (addr : BitVec 64) (n : ℤ), k.sysRead io initproc 0 addr n = none ∧
      k.sysWrite io initproc 0 addr n = none := by
  have hrun : (Kern.boot.steps (createSem 1)).any (fun k => k.table.running = some initproc ∧
      k.table.pc initproc = .user ∧ k.calls initproc = .idle ∧
      (k.argsem initproc 0).isSome) := by decide +kernel
  obtain ⟨k, hk, hs⟩ := Option.any_eq_true _ _ |>.mp hrun
  obtain ⟨hrunning, hpc, hidle, hsem⟩ : k.table.running = some initproc ∧
    k.table.pc initproc = .user ∧ k.calls initproc = .idle ∧
    (k.argsem initproc 0).isSome := by simpa using hs
  have hreach := KernReach.boot.steps hk
  exact ⟨k, hreach, hrunning, hpc, hidle, fun io addr n =>
    ⟨(sysRead_panics_iff hreach hidle io 0 addr n).mpr hsem,
      (sysWrite_panics_iff hreach hidle io 0 addr n).mpr hsem⟩⟩

end YHsys.Kernel
