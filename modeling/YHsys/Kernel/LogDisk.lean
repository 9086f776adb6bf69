import Mathlib.Data.BitVec
import Mathlib.Data.List.Nodup
import Mathlib.Logic.Function.Basic

/-!
# Commit and recovery of the log

`commit` and `recover_from_log` of `log.c` over a disk and a cache of buffers. A step does
what the code does up to and including its next block write, so the state between two steps
is one a crash can leave; a crash loses the cache and the log header in memory. In between,
other processes may read blocks into the cache, and buffers that are not pinned may be
reused. The number of buffers is not limited here: a `bget` that finds none panics, which
is a crash.
-/

namespace YHsys.Kernel

/-- `LOGBLOCKS` (`param.h`). -/
def logBlocks : ℕ := 30

abbrev BlockNo := BitVec 32

/-- The `BSIZE` bytes of a block, as words. -/
abbrev BlockData := Fin 256 → BitVec 32

/-- Where the code stands, before its next block write. -/
inductive LogPc where
  /-- At `commit`. -/
  | commit
  /-- In `write_log`. -/
  | writeLog (tail : ℕ)
  /-- At the first `write_head` of `commit`. -/
  | commitHead
  /-- In `install_trans`. -/
  | install (recovering : Bool) (tail : ℕ)
  /-- At the last `write_head` of `commit` or of `recover_from_log`. -/
  | clear
  /-- At `read_head`. -/
  | readHead
  /-- `commit` or `recover_from_log` has returned. -/
  | done
deriving DecidableEq, Repr

structure DiskState where
  disk : BlockNo → BlockData
  /-- The valid buffers. -/
  cache : BlockNo → Option BlockData
  /-- `log.lh.block[0..n)`. -/
  lh : List BlockNo
  pc : LogPc

/-- What can happen next. -/
inductive DiskEvent where
  /-- The code goes on. -/
  | run
  /-- Another process reads a block. -/
  | fetch (b : BlockNo)
  /-- A buffer is reused. -/
  | evict (b : BlockNo)
  /-- The machine stops, and starts again with `recover_from_log`. -/
  | crash
deriving DecidableEq, Repr

/-- The blocks a header on disk lists (`read_head`, `log.c:88`). -/
def headBlocks (x : BlockData) : List BlockNo :=
  (List.range (x 0).toInt.toNat).map fun i => if h : i + 1 < 256 then x ⟨i + 1, h⟩ else 0

/-- The header block after `write_head` (`log.c:103`) has filled in `lh`. -/
def headOf (x : BlockData) (lh : List BlockNo) : BlockData := fun w =>
  if w = 0 then BitVec.ofNat 32 lh.length else lh.getD (w - 1) (x w)

/-- The log block with index `tail`. -/
def logBlock (start : BlockNo) (tail : ℕ) : BlockNo := start + BitVec.ofNat 32 (tail + 1)

namespace DiskState

variable (s : DiskState)

def goto (pc : LogPc) : DiskState := { s with pc := pc }

/-- The data `bread` returns. -/
def bread (b : BlockNo) : BlockData := (s.cache b).getD (s.disk b)

/-- `bread` leaves the block in the cache. -/
def load (b : BlockNo) : DiskState :=
  { s with cache := Function.update s.cache b (some (s.bread b)) }

/-- A buffer is filled with `x` and `bwrite` writes it. -/
def bwrite (b : BlockNo) (x : BlockData) : DiskState :=
  { s with
    disk := Function.update s.disk b x
    cache := Function.update s.cache b (some x) }

/-- `write_head` (`log.c:98`). -/
def writeHead (start : BlockNo) : DiskState := s.bwrite start (headOf (s.bread start) s.lh)

/-- The code up to its next block write. -/
def run (start : BlockNo) : DiskState :=
  match s.pc with
  | .commit => if s.lh.length > 0 then s.goto (.writeLog 0) else s.goto .done
  | .writeLog tail =>
    match s.lh[tail]? with
    | some b => ((s.load b).bwrite (logBlock start tail) (s.bread b)).goto (.writeLog (tail + 1))
    | none => s.goto .commitHead
  | .commitHead => (s.writeHead start).goto (.install false 0)
  | .install recovering tail =>
    match s.lh[tail]? with
    | some b =>
      ((s.load (logBlock start tail)).bwrite b (s.bread (logBlock start tail))).goto
        (.install recovering (tail + 1))
    | none => { s with lh := [] }.goto .clear
  | .clear => (s.writeHead start).goto .done
  | .readHead => { s.load start with lh := headBlocks (s.bread start) }.goto (.install true 0)
  | .done => s

/-- The blocks that `log_write` has pinned and `install_trans` has not unpinned. -/
def pinned : List BlockNo :=
  match s.pc with
  | .commit | .writeLog _ | .commitHead => s.lh
  | .install false tail => s.lh.drop tail
  | _ => []

def step (start : BlockNo) : DiskEvent → DiskState
  | .run => s.run start
  | .fetch b => s.load b
  | .evict b => if b ∈ s.pinned then s else { s with cache := Function.update s.cache b none }
  | .crash => ⟨s.disk, fun _ => none, [], .readHead⟩

end DiskState

/-- The header with block `b`, which is logged once (log absorption). -/
def absorb (lh : List BlockNo) (b : BlockNo) : List BlockNo := if b ∈ lh then lh else lh ++ [b]

/-- The states over all runs from `s0`. -/
inductive DiskReach (start : BlockNo) (s0 : DiskState) : DiskState → Prop where
  | refl : DiskReach start s0 s0
  | step {s : DiskState} (hs : DiskReach start s0 s) (e : DiskEvent) :
      DiskReach start s0 (s.step start e)

/-- The state in which `commit` starts: the logged blocks are distinct, outside the log area
and pinned, the header on disk is empty, and all other buffers are as on disk. -/
structure Transaction (start : BlockNo) (s : DiskState) : Prop where
  pc : s.pc = .commit
  nodup : s.lh.Nodup
  length : s.lh.length ≤ logBlocks
  outside : ∀ b ∈ s.lh, ∀ i, i ≤ logBlocks → b ≠ start + BitVec.ofNat 32 i
  empty : s.disk start 0 = 0
  pinned : ∀ b ∈ s.lh, s.cache b ≠ none
  clean : ∀ b, b ∉ s.lh → ∀ x, s.cache b = some x → x = s.disk b

/-! ## The header block -/

theorem headBlocks_of_zero {x : BlockData} (h : x 0 = 0) : headBlocks x = [] := by
  simp [headBlocks, h]

theorem headOf_nil (x : BlockData) : headOf x [] 0 = 0 := rfl

theorem headBlocks_headOf (x : BlockData) {lh : List BlockNo} (h : lh.length ≤ logBlocks) :
    headBlocks (headOf x lh) = lh := by
  have hn : lh.length ≤ 30 := h
  have hlen : (headOf x lh 0).toInt.toNat = lh.length := by
    have hnat : (BitVec.ofNat 32 lh.length).toNat = lh.length := by
      rw [BitVec.toNat_ofNat]
      omega
    rw [headOf, if_pos rfl, BitVec.toInt_eq_toNat_of_lt (by omega), hnat, Int.toNat_natCast]
  refine List.ext_getElem? fun i => ?_
  rw [headBlocks, hlen, List.getElem?_map]
  by_cases hi : i < lh.length
  · have hw : i + 1 < 256 := by omega
    simp [hi, hw, headOf, List.getD_eq_getElem?_getD]
  · simp [hi]

/-! ## The log area -/

theorem add_ofNat_inj (start : BlockNo) {i j : ℕ} (hi : i ≤ logBlocks) (hj : j ≤ logBlocks)
    (h : start + BitVec.ofNat 32 i = start + BitVec.ofNat 32 j) : i = j := by
  have hi : i ≤ 30 := hi
  have hj : j ≤ 30 := hj
  have h : BitVec.ofNat 32 i = BitVec.ofNat 32 j := by simpa using h
  have h := congrArg BitVec.toNat h
  simp only [BitVec.toNat_ofNat] at h
  omega

end YHsys.Kernel
