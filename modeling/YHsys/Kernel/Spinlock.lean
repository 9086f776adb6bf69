import Mathlib.Data.List.Nodup
import Mathlib.Logic.Function.Basic
import YHsys.Lib.ExceptBind

/-!
# Spinlocks on one hart

`spinlock.c`: `push_off`, `pop_off`, `acquire`, `release` and `holding`, over the
fields of `struct cpu` they touch (`noff`, `intena`), the interrupt-enable bit of
`sstatus`, and the two fields of every `struct spinlock`. The kernel runs on one
hart, so `acquire` does not spin: a lock found taken is a panic.

`Holds` ties what a thread has done so far, the locks it holds and its open
`push_off`s, to the hart; each of the four functions has one lemma saying how it
moves both.
-/

namespace YHsys.Kernel

open Function (update update_of_ne)

/-- A spinlock: the `lock` of a slot of the process table, or any other lock of the
kernel (`wait_lock`, `tickslock`, `kmem.lock`, …). -/
inductive LockId where
  | proc (p : ℕ)
  | other (i : ℕ)
deriving DecidableEq, Repr

/-- `struct spinlock`. With one hart, `cpu` is null or points to that hart. -/
structure Lock where
  locked : Bool
  cpu : Bool
deriving DecidableEq, Repr

/-- The panics of `spinlock.c` and of `sched` (`taskmgr.c:528`). -/
inductive LockPanic where
  | acquire
  | acquireBusy
  | release
  | popOffInterruptible
  | popOff
  | schedLock
  | schedLocks
  | schedRunning
  | schedInterruptible
deriving DecidableEq, Repr

/-- The hart as the locks see it: `noff` and `intena` of its `struct cpu`, the
interrupt-enable bit `sstatus.SIE`, and the locks. -/
structure Cpu where
  noff : ℕ
  intena : Bool
  sie : Bool
  locks : LockId → Lock

/-- `initlock`. -/
def Lock.init : Lock := ⟨false, false⟩

namespace Cpu

/-- `push_off` (`spinlock.c:65`). -/
def pushOff (c : Cpu) : Cpu :=
  { c with
    sie := false
    intena := if c.noff = 0 then c.sie else c.intena
    noff := c.noff + 1 }

/-- `pop_off` (`spinlock.c:79`). -/
def popOff (c : Cpu) : Except LockPanic Cpu :=
  if c.sie then .error .popOffInterruptible
  else if c.noff < 1 then .error .popOff
  else .ok { c with
    noff := c.noff - 1
    sie := decide (c.noff - 1 = 0) && c.intena }

/-- `holding` (`spinlock.c:53`). -/
def holding (c : Cpu) (l : LockId) : Bool :=
  (c.locks l).locked && (c.locks l).cpu

/-- `acquire` (`spinlock.c:22`). -/
def acquire (c : Cpu) (l : LockId) : Except LockPanic Cpu :=
  if c.pushOff.holding l then .error .acquire
  else if (c.pushOff.locks l).locked then .error .acquireBusy
  else .ok { c.pushOff with locks := update c.locks l ⟨true, true⟩ }

/-- `release` (`spinlock.c:40`). -/
def release (c : Cpu) (l : LockId) : Except LockPanic Cpu :=
  if c.holding l then
    popOff { c with locks := update c.locks l ⟨false, false⟩ }
  else .error .release

end Cpu

/-! ## What a thread has open -/

/-- The locks a thread holds and the number of its open `push_off`s, on the hart it
runs on. Interrupts are on only while it holds no lock. -/
structure Cpu.Holds (c : Cpu) (held : List LockId) (pushes : ℕ) : Prop where
  noff : c.noff = pushes
  locked : ∀ l, (c.locks l).locked = true ↔ l ∈ held
  owner : ∀ l, (c.locks l).cpu = (c.locks l).locked
  nodup : held.Nodup
  le : held.length ≤ pushes
  off : c.sie = true → held = []

namespace Cpu.Holds

variable {c c' : Cpu} {held : List LockId} {pushes : ℕ} {l : LockId}

theorem holding_iff (h : c.Holds held pushes) : c.holding l = true ↔ l ∈ held := by
  rw [Cpu.holding, h.owner, Bool.and_self]
  exact h.locked l

theorem pushOff (h : c.Holds held pushes) : c.pushOff.Holds held (pushes + 1) where
  noff := congrArg (· + 1) h.noff
  locked := h.locked
  owner := h.owner
  nodup := h.nodup
  le := Nat.le_trans h.le (Nat.le_succ _)
  off := fun hsie => nomatch hsie

theorem popOff (h : c.Holds held pushes) (hlt : held.length < pushes)
    (hc : c.popOff = .ok c') : c'.Holds held (pushes - 1) := by
  have hnoff := h.noff
  unfold Cpu.popOff at hc
  split at hc
  · cases hc
  split at hc
  · cases hc
  · injection hc with hc
    subst hc
    refine ⟨congrArg (· - 1) hnoff, h.locked, h.owner, h.nodup, by omega, fun hsie => ?_⟩
    -- `noff` is 0, and every lock held counts for at least one `push_off`
    have hzero : c.noff - 1 = 0 := by
      have := (Bool.and_eq_true_iff.mp hsie).1
      exact of_decide_eq_true this
    exact List.length_eq_zero_iff.mp (by omega)

theorem popOff_ok (h : c.Holds held pushes) (hsie : c.sie = false) (hpos : 0 < pushes) :
    c.popOff = .ok { c with
      noff := pushes - 1
      sie := decide (pushes - 1 = 0) && c.intena } := by
  have hnoff := h.noff
  unfold Cpu.popOff
  rw [if_neg (by simp [hsie]), if_neg (by omega), hnoff]

theorem acquire_eq (h : c.Holds held pushes) (hl : l ∉ held) :
    c.acquire l =
      .ok { c.pushOff with locks := update c.locks l ⟨true, true⟩ } := by
  have hfree : (c.pushOff.locks l).locked ≠ true := fun hlk => hl ((h.locked l).mp hlk)
  have hnot : ¬ c.pushOff.holding l = true := fun hh => hl (h.pushOff.holding_iff.mp hh)
  rw [Cpu.acquire, if_neg hnot, if_neg hfree]

theorem acquire (h : c.Holds held pushes) (hl : l ∉ held) (hc : c.acquire l = .ok c') :
    c'.Holds (l :: held) (pushes + 1) := by
  rw [h.acquire_eq hl] at hc
  injection hc with hc
  subst hc
  refine ⟨congrArg (· + 1) h.noff, fun k => ?_, fun k => ?_, ?_, ?_, fun hsie => nomatch hsie⟩
  · by_cases hk : k = l
    · subst hk
      simp
    · simp only [update_of_ne hk, List.mem_cons, hk, false_or]
      exact h.locked k
  · by_cases hk : k = l
    · subst hk
      simp
    · simp only [update_of_ne hk]
      exact h.owner k
  · exact List.nodup_cons.mpr ⟨hl, h.nodup⟩
  · simpa using h.le

theorem unlock (h : c.Holds held pushes) (hl : l ∈ held) :
    ({ c with locks := update c.locks l ⟨false, false⟩ } : Cpu).Holds
      (held.erase l) pushes := by
  refine ⟨h.noff, fun k => ?_, fun k => ?_, h.nodup.erase l, ?_, fun hsie => ?_⟩
  · by_cases hk : k = l
    · subst hk
      simp [h.nodup.not_mem_erase]
    · simp only [update_of_ne hk, List.mem_erase_of_ne hk]
      exact h.locked k
  · by_cases hk : k = l
    · subst hk
      simp
    · simp only [update_of_ne hk]
      exact h.owner k
  · exact Nat.le_trans List.length_erase_le h.le
  · rw [h.off hsie] at hl
    cases hl

theorem release_eq (h : c.Holds held pushes) (hl : l ∈ held) :
    c.release l = .ok { c with
      locks := update c.locks l ⟨false, false⟩
      noff := pushes - 1
      sie := decide (pushes - 1 = 0) && c.intena } := by
  have hpos : 0 < pushes := Nat.lt_of_lt_of_le (List.length_pos_of_mem hl) h.le
  have hsie : c.sie = false := by
    cases hs : c.sie with
    | false => rfl
    | true => rw [h.off hs] at hl; cases hl
  rw [Cpu.release, if_pos (h.holding_iff.mpr hl), (h.unlock hl).popOff_ok hsie hpos]

theorem release (h : c.Holds held pushes) (hl : l ∈ held) (hc : c.release l = .ok c') :
    c'.Holds (held.erase l) (pushes - 1) := by
  rw [Cpu.release, if_pos (h.holding_iff.mpr hl)] at hc
  refine (h.unlock hl).popOff ?_ hc
  have hlen := List.length_erase_of_mem hl
  have hpos := List.length_pos_of_mem hl
  have hle := h.le
  omega

end Cpu.Holds

end YHsys.Kernel
