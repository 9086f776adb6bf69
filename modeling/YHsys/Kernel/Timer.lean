import Mathlib.Tactic.Common
import YHsys.Kernel.Mlfq

/-!
# The timer

`time` counts in 64 bits, and the timer interrupt is pending while `time` has reached
`stimecmp`, which has 64 bits as well. The kernel is compiled for RV32: `r_time` reads the low
half of the one and `w_stimecmp` writes the low half of the other, whose high half stays 0 as
after a reset.

So the deadline is taken modulo `2 ^ 32`. It lies ahead as long as the sum of the time and the
interval fits in 32 bits, and never again after that: from then on the interrupt is pending
whatever the handler does (`ClockRun.pending_of_wrapped`).
-/

namespace YHsys.Kernel

/-! ## The code -/

/-- The registers that the timer code uses, and the scheduler. -/
structure Clock where
  time : BitVec 64
  stimecmp : BitVec 64
  mie : BitVec 32
  mcounteren : BitVec 32
  sched : Sched

/-- The interval between two interrupts. -/
def timerInterval : BitVec 32 := 1000000

/-- `MIE_STIE` (`riscv.h:88`). -/
def mieStie : BitVec 32 := 1#32 <<< 5

namespace Clock

variable (s : Clock)

/-- `r_time` (`riscv.h:269`). -/
def rTime : BitVec 32 := s.time.setWidth 32

/-- `w_stimecmp` (`riscv.h:177`). -/
def wStimecmp (x : BitVec 32) : Clock :=
  { s with stimecmp := s.stimecmp.extractLsb' 32 32 ++ x }

/-- The timer interrupt is pending. -/
def Pending : Prop := s.stimecmp ≤ s.time

instance : Decidable s.Pending := inferInstanceAs (Decidable (_ ≤ _))

/-- `timerinit` (`start.c:49`). -/
def timerinit : Clock :=
  let s := { s with mie := s.mie ||| mieStie }
  let s := { s with mcounteren := s.mcounteren ||| 2 }
  s.wStimecmp (s.rTime + timerInterval)

/-- `clockintr` (`irqtrap.c:165`). -/
def clockintr : Clock :=
  let s := { s with sched := s.sched.tick }
  s.wStimecmp (s.rTime + timerInterval)

/-- Time passes. -/
def elapse (k : BitVec 64) : Clock := { s with time := s.time + k }

end Clock

/-- The timer is set again: at boot, or by the handler of a pending interrupt. -/
inductive Rearms : Clock → Clock → Prop where
  | timerinit (s : Clock) : Rearms s s.timerinit
  | clockintr {s : Clock} (h : s.Pending) : Rearms s s.clockintr

/-- The states of all runs from a reset, which leaves the high half of `stimecmp` 0. -/
inductive ClockRun : Clock → Prop where
  | reset {s : Clock} (h : s.stimecmp.toNat < 2 ^ 32) : ClockRun s
  | elapse {s : Clock} (hs : ClockRun s) (k : BitVec 64) : ClockRun (s.elapse k)
  | rearm {s s' : Clock} (hs : ClockRun s) (h : Rearms s s') : ClockRun s'
  | sched {s : Clock} {x : Sched} {e : SchedEvent} (hs : ClockRun s) (he : e ≠ .tick)
      (h : s.sched.step e = some x) : ClockRun { s with sched := x }

/-! ## The deadline -/

namespace Clock

variable (s : Clock)

theorem wStimecmp_toNat (h : s.stimecmp.toNat < 2 ^ 32) (x : BitVec 32) :
    (s.wStimecmp x).stimecmp.toNat = x.toNat := by
  have hhigh : s.stimecmp.extractLsb' 32 32 = 0#32 := by
    refine BitVec.eq_of_toNat_eq ?_
    rw [BitVec.extractLsb'_toNat, Nat.shiftRight_eq_div_pow, Nat.div_eq_of_lt h]
    rfl
  rw [wStimecmp, hhigh, BitVec.toNat_append, BitVec.toNat_zero, Nat.zero_shiftLeft, Nat.zero_or]

theorem deadline_toNat :
    (s.rTime + timerInterval).toNat = (s.time.toNat + 1000000) % 2 ^ 32 := by
  have hinterval : timerInterval.toNat = 1000000 := by decide
  rw [BitVec.toNat_add, hinterval, rTime, BitVec.toNat_setWidth, Nat.mod_add_mod]

end Clock

variable {s s' : Clock}

theorem Rearms.stimecmp_toNat (h : Rearms s s') (hs : s.stimecmp.toNat < 2 ^ 32) :
    s'.stimecmp.toNat = (s.time.toNat + 1000000) % 2 ^ 32 := by
  cases h with
  | timerinit => rw [← s.deadline_toNat]; exact Clock.wStimecmp_toNat _ hs _
  | clockintr => rw [← s.deadline_toNat]; exact Clock.wStimecmp_toNat _ hs _

theorem ClockRun.stimecmp_lt (h : ClockRun s) : s.stimecmp.toNat < 2 ^ 32 := by
  induction h with
  | reset h => exact h
  | elapse _ k ih => exact ih
  | rearm _ h ih =>
    rw [h.stimecmp_toNat ih]
    exact Nat.mod_lt _ (by decide)
  | sched _ _ _ ih => exact ih

/-- The deadline is ahead, by at most the interval, exactly as long as time and interval add up
in 32 bits. -/
theorem rearm_in_future_iff (h : ClockRun s) (hre : Rearms s s') :
    s.time.toNat < s'.stimecmp.toNat ∧ s'.stimecmp.toNat ≤ s.time.toNat + 1000000 ↔
      s.time.toNat + 1000000 < 2 ^ 32 := by
  rw [hre.stimecmp_toNat h.stimecmp_lt]
  constructor
  · rintro ⟨hlt, -⟩
    by_contra hge
    rcases Nat.lt_or_ge s.time.toNat (2 ^ 32) with ht | ht
    · -- the sum wraps once
      rw [Nat.mod_eq_sub_mod (by omega), Nat.mod_eq_of_lt (by omega)] at hlt
      omega
    · have := Nat.mod_lt (s.time.toNat + 1000000) (show 0 < 2 ^ 32 by decide)
      omega
  · intro hlt
    rw [Nat.mod_eq_of_lt hlt]
    omega

/-! ## A run that serves every interrupt at once -/

/-- All registers 0. -/
def Clock.boot : Clock := ⟨0, 0, 0, 0, .boot⟩

/-- After `k` interrupts, each served when its deadline comes. -/
def promptClock : ℕ → Clock
  | 0 => Clock.boot.timerinit
  | k + 1 =>
    let s := promptClock k
    (s.elapse (s.stimecmp - s.time)).clockintr

theorem promptClock_due (k : ℕ) :
    ((promptClock k).elapse ((promptClock k).stimecmp - (promptClock k).time)).time =
      (promptClock k).stimecmp := by
  rw [Clock.elapse, BitVec.add_comm, BitVec.sub_add_cancel]

theorem promptClock_time (k : ℕ) (hk : k * 1000000 < 2 ^ 32) :
    ClockRun (promptClock k) ∧ (promptClock k).time.toNat = k * 1000000 ∧
      (promptClock k).stimecmp.toNat = (k + 1) * 1000000 % 2 ^ 32 := by
  induction k with
  | zero =>
    have hre : Rearms Clock.boot (promptClock 0) := .timerinit _
    have hboot : Clock.boot.time.toNat = 0 := rfl
    have hcmp := hre.stimecmp_toNat (by decide)
    rw [hboot, ← Nat.one_mul 1000000] at hcmp
    exact ⟨.rearm (.reset (by decide)) hre, by rw [Nat.zero_mul]; exact hboot, hcmp⟩
  | succ k ih =>
    obtain ⟨hrun, htime, hcmp⟩ :=
      ih (Nat.lt_of_le_of_lt (Nat.mul_le_mul_right _ k.le_succ) hk)
    rw [Nat.mod_eq_of_lt hk] at hcmp
    let s := promptClock k
    have hrun' : ClockRun (s.elapse (s.stimecmp - s.time)) := hrun.elapse _
    have htime' := promptClock_due k
    have hre : Rearms (s.elapse (s.stimecmp - s.time)) (promptClock (k + 1)) :=
      .clockintr (by rw [Clock.Pending, htime']; exact BitVec.le_refl _)
    have hcmp' := hre.stimecmp_toNat hrun'.stimecmp_lt
    rw [htime', hcmp, ← Nat.succ_mul] at hcmp'
    exact ⟨hrun'.rearm hre, (congrArg BitVec.toNat htime').trans hcmp, hcmp'⟩

/-- A run serves every interrupt on time, and after 4294 of them, at time 4294000000, the
handler sets the deadline 32704. -/
theorem rearm_in_past : ∃ s s' : Clock, ClockRun s ∧ Rearms s s' ∧ s.time.toNat = 4294000000 ∧
    s.time = s.stimecmp ∧ s'.stimecmp.toNat = 32704 ∧ ¬ s.time.toNat < s'.stimecmp.toNat := by
  obtain ⟨hrun, htime, hcmp⟩ := promptClock_time 4293 (by decide)
  have hnow : ((promptClock 4293).elapse _).time = (promptClock 4293).stimecmp :=
    promptClock_due 4293
  rw [Nat.mod_eq_of_lt (by decide)] at hcmp
  have hre : Rearms _ ((promptClock 4293).elapse _).clockintr :=
    .clockintr (by rw [Clock.Pending, hnow]; exact BitVec.le_refl _)
  have hcmp' := hre.stimecmp_toNat (hrun.elapse _).stimecmp_lt
  rw [hnow, hcmp] at hcmp'
  refine ⟨_, _, hrun.elapse _, hre, by rw [hnow, hcmp], hnow, hcmp', ?_⟩
  rw [hcmp', hnow, hcmp]
  decide

/-- The first interval after a boot. -/
theorem rearm_in_future_boot :
    0 < Clock.boot.timerinit.stimecmp.toNat ∧ Clock.boot.timerinit.stimecmp.toNat ≤ 0 + 1000000 :=
  (rearm_in_future_iff (.reset (by decide)) (.timerinit Clock.boot)).mpr (by decide)

end YHsys.Kernel
