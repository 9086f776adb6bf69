import YHsys.Kernel.Mlfq
import YHsys.Kernel.Spinlock

/-!
# What the scheduler selects

In every run the level and the ticks of every process stay in range. So the scan of
`scheduler`, which starts from `MLFQ_LEVELS`, overlooks no `RUNNABLE` process.

`scanLocked` is the scan with the locks it takes: it holds the lock of the best process so
far, and of the process it looks at.
-/

namespace YHsys.Kernel

open Sched (beats scan scanSlot)

/-! ## Levels and ticks -/

/-- Level and ticks are in range. -/
structure SchedProc.InRange (x : SchedProc) : Prop where
  level_nonneg : 0 ≤ x.level
  level_lt : x.level < mlfqLevels
  ticks_nonneg : 0 ≤ x.ticksUsed
  ticks_lt : x.ticksUsed < mlfqQuantum x.level

theorem mlfqQuantum_pos (level : ℤ) : 0 < mlfqQuantum level := by
  unfold mlfqQuantum
  split_ifs <;> decide

namespace SchedProc.InRange

variable {x y : SchedProc}

theorem of_eq (h : x.InRange) (hlevel : y.level = x.level) (hticks : y.ticksUsed = x.ticksUsed) :
    y.InRange := by
  obtain ⟨h1, h2, h3, h4⟩ := h
  exact ⟨hlevel ▸ h1, hlevel ▸ h2, hticks ▸ h3, by rw [hlevel, hticks]; exact h4⟩

theorem fresh (h0 : 0 ≤ x.level) (h : x.level < mlfqLevels) (hticks : x.ticksUsed = 0) :
    x.InRange :=
  ⟨h0, h, hticks.ge, hticks ▸ mlfqQuantum_pos _⟩

theorem mlfqReset (x : SchedProc) : x.mlfqReset.InRange :=
  fresh le_rfl (show (0 : ℤ) < mlfqLevels by decide) rfl

theorem mlfqBoost (h : x.InRange) : x.mlfqBoost.InRange := by
  unfold SchedProc.mlfqBoost
  split_ifs
  · exact fresh le_rfl (show (0 : ℤ) < mlfqLevels by decide) rfl
  · exact h

theorem rise (h : x.InRange) : x.rise.InRange := by
  have h0 := h.level_nonneg
  have h1 := h.level_lt
  refine fresh ?_ ?_ rfl
  · show 0 ≤ if x.level > 0 then x.level - 1 else x.level
    split_ifs <;> omega
  · show (if x.level > 0 then x.level - 1 else x.level) < mlfqLevels
    split_ifs <;> omega

theorem mlfqTick (h : x.InRange) : x.mlfqTick.InRange := by
  have h0 := h.level_nonneg
  have h1 := h.level_lt
  have h2 := h.ticks_nonneg
  unfold SchedProc.mlfqTick
  dsimp only
  split_ifs with hused hlevel
  · exact fresh (show 0 ≤ x.level + 1 by omega) (show x.level + 1 < mlfqLevels by omega) rfl
  · exact fresh h0 h1 rfl
  · exact ⟨h0, h1, show 0 ≤ x.ticksUsed + 1 by omega,
      show x.ticksUsed + 1 < mlfqQuantum x.level by omega⟩

end SchedProc.InRange

/-- Every slot is in range. -/
def Sched.InRange (s : Sched) : Prop := ∀ p, (s.procs p).InRange

namespace Sched.InRange

variable {s s' : Sched}

theorem set (h : s.InRange) (p : ProcId) {x : SchedProc} (hx : x.InRange) : (s.set p x).InRange := by
  intro q
  show (Function.update s.procs p x q).InRange
  by_cases hq : q = p
  · rwa [hq, Function.update_self]
  · rw [Function.update_of_ne hq]
    exact h q

theorem boot : Sched.boot.InRange := fun _ =>
  ⟨le_rfl, show (0 : ℤ) < mlfqLevels by decide, le_rfl, show (0 : ℤ) < mlfqQuantum 0 by decide⟩

theorem boost (h : s.InRange) : s.boost.InRange := by
  unfold Sched.boost
  split_ifs
  · exact fun p => (h p).mlfqBoost
  · exact h

theorem schedule (h : s.InRange) : s.schedule.InRange := by
  unfold Sched.schedule
  split
  · exact h.boost.set _ ((h.boost _).of_eq rfl rfl)
  · exact h.boost

theorem tick (h : s.InRange) : s.tick.InRange := by
  unfold Sched.tick
  dsimp only
  cases s.running with
  | none => split_ifs <;> exact h
  | some p =>
    have hset : Sched.InRange (({ s with ticks := s.ticks + 1, running := some p } : Sched).set p
        (s.procs p).mlfqTick) :=
      set (s := { s with ticks := s.ticks + 1, running := some p }) h p (h p).mlfqTick
    by_cases hstate : (s.procs p).state = .running
    · simp only [if_pos hstate]
      split_ifs <;> exact hset
    · simp only [if_neg hstate]
      split_ifs <;> exact h

theorem step (h : s.InRange) {e : SchedEvent} (he : s.step e = some s') : s'.InRange := by
  cases e with
  | schedule =>
    obtain ⟨-, he⟩ := Option.ite_none_right_eq_some.mp he
    cases he
    exact h.schedule
  | tick =>
    cases he
    exact h.tick
  | yield fromTimer =>
    obtain ⟨p, -, rfl⟩ := Option.map_eq_some_iff.mp he
    refine h.set p ?_
    cases fromTimer with
    | false => exact (h p).rise.of_eq rfl rfl
    | true => exact (h p).of_eq rfl rfl
  | sleep =>
    obtain ⟨p, -, rfl⟩ := Option.map_eq_some_iff.mp he
    exact h.set p ((h p).rise.of_eq rfl rfl)
  | wake q =>
    obtain ⟨-, he⟩ := Option.ite_none_right_eq_some.mp he
    cases he
    exact h.set q ((h q).of_eq rfl rfl)
  | fork np ok =>
    obtain ⟨-, he⟩ := Option.ite_none_right_eq_some.mp he
    cases he
    exact h.set np ((SchedProc.InRange.mlfqReset (s.procs np)).of_eq rfl rfl)
  | ready np =>
    obtain ⟨-, he⟩ := Option.ite_none_right_eq_some.mp he
    cases he
    exact h.set np ((h np).of_eq rfl rfl)
  | exit =>
    obtain ⟨p, -, rfl⟩ := Option.map_eq_some_iff.mp he
    exact h.set p ((h p).of_eq rfl rfl)
  | reap q =>
    obtain ⟨-, he⟩ := Option.ite_none_right_eq_some.mp he
    cases he
    exact h.set q ((SchedProc.InRange.mlfqReset (s.procs q)).of_eq rfl rfl)

end Sched.InRange

theorem SchedReach.inRange {C : Sched → SchedEvent → Prop} {s : Sched} (hs : SchedReach C s) :
    s.InRange := by
  induction hs with
  | boot => exact .boot
  | step _ _ he ih => exact ih.step he

/-! ## The scan with its locks -/

/-- The lock of the best process so far. -/
def Scan.held (r : Scan) : List LockId := r.best.toList.map fun b : ProcId => .proc b.val

/-- The body of the loop of `scheduler` over processes, with its locks (`taskmgr.c:489`). -/
def scanSlotLocked (procs : ProcId → SchedProc) (r : Scan × Cpu) (p : ProcId) :
    Except LockPanic (Scan × Cpu) := do
  let c ← r.2.acquire (.proc p)
  if (procs p).state = .runnable ∧ Sched.beats (procs p) r.1 then
    let c ← match r.1.best with
      | some b => c.release (.proc b)
      | none => .ok c
    .ok (⟨some p, (procs p).level, (procs p).stamp⟩, c)
  else
    let c ← c.release (.proc p)
    .ok (r.1, c)

/-- The scan of `scheduler` with its locks. -/
def scanLocked (procs : ProcId → SchedProc) (c : Cpu) : Except LockPanic (Scan × Cpu) :=
  (List.finRange nproc).foldlM (scanSlotLocked procs) (⟨none, mlfqLevels, 0xffffffff⟩, c)

section

variable {procs : ProcId → SchedProc} {r : Scan} {c : Cpu}

theorem Cpu.Holds.acquire_ok {held : List LockId} {pushes : ℕ} {l : LockId}
    (h : c.Holds held pushes) (hl : l ∉ held) :
    ∃ c', c.acquire l = .ok c' ∧ c'.Holds (l :: held) (pushes + 1) :=
  ⟨_, h.acquire_eq hl, h.acquire hl (h.acquire_eq hl)⟩

theorem Cpu.Holds.release_ok {held : List LockId} {pushes : ℕ} {l : LockId}
    (h : c.Holds held pushes) (hl : l ∈ held) :
    ∃ c', c.release l = .ok c' ∧ c'.Holds (held.erase l) (pushes - 1) :=
  ⟨_, h.release_eq hl, h.release hl (h.release_eq hl)⟩

theorem scanSlotLocked_ok (procs : ProcId → SchedProc) (hc : c.Holds r.held r.held.length)
    {p : ProcId} (hp : r.best ≠ some p) :
    ∃ c', scanSlotLocked procs (r, c) p = .ok (scanSlot procs r p, c') ∧
      c'.Holds (scanSlot procs r p).held (scanSlot procs r p).held.length := by
  have hnot : LockId.proc p ∉ r.held := by
    simp only [Scan.held, List.mem_map, Option.mem_toList, LockId.proc.injEq, not_exists, not_and]
    exact fun b hb heq => hp (by rw [hb, Fin.ext heq])
  obtain ⟨c1, h1, hc1⟩ := hc.acquire_ok hnot
  unfold scanSlotLocked scanSlot
  rw [h1, Except.ok_bind]
  by_cases hwins : (procs p).state = .runnable ∧ beats (procs p) r
  · rw [if_pos hwins, if_pos hwins.1, if_pos hwins.2]
    cases hb : r.best with
    | none =>
      have hheld : r.held = [] := by simp [Scan.held, hb]
      rw [hheld] at hc1
      exact ⟨c1, rfl, hc1⟩
    | some b =>
      have hheld : r.held = [.proc b] := by simp [Scan.held, hb]
      rw [hheld] at hc1
      obtain ⟨c2, h2, hc2⟩ := hc1.release_ok (l := .proc b) (by simp)
      refine ⟨c2, by simp only [h2, Except.ok_bind], ?_⟩
      have hne : LockId.proc p ≠ .proc b := fun heq => hnot (by rw [heq, hheld]; simp)
      simpa [Scan.held, hne] using hc2
  · obtain ⟨c2, h2, hc2⟩ := hc1.release_ok (l := .proc p) (by simp)
    have hstay : (if (procs p).state = .runnable then
        if beats (procs p) r then ⟨some p, (procs p).level, (procs p).stamp⟩ else r
        else r) = r := by
      split_ifs with hrun hbeats
      · exact absurd ⟨hrun, hbeats⟩ hwins
      · rfl
      · rfl
    rw [if_neg hwins, h2, hstay]
    exact ⟨c2, rfl, by simpa using hc2⟩

theorem scanSlot_best {p b : ProcId} (h : (scanSlot procs r p).best = some b) :
    b = p ∨ r.best = some b := by
  unfold scanSlot at h
  split_ifs at h
  · exact .inl (Option.some.inj h).symm
  · exact .inr h
  · exact .inr h

theorem foldlM_scanSlotLocked {l : List ProcId} (hl : l.Nodup) :
    ∀ {r : Scan} {c : Cpu}, c.Holds r.held r.held.length → (∀ p ∈ l, r.best ≠ some p) →
    ∃ c', l.foldlM (scanSlotLocked procs) (r, c) = .ok (l.foldl (scanSlot procs) r, c') ∧
      c'.Holds (l.foldl (scanSlot procs) r).held
        (l.foldl (scanSlot procs) r).held.length := by
  induction l with
  | nil => exact fun {r c} hc _ => ⟨c, rfl, hc⟩
  | cons p l ih =>
    intro r c hc hnew
    obtain ⟨hpl, hl⟩ := List.nodup_cons.mp hl
    obtain ⟨c1, h1, hc1⟩ := scanSlotLocked_ok procs hc (hnew p (by simp))
    obtain ⟨c2, h2, hc2⟩ := ih hl hc1 fun q hq hbest => by
      rcases scanSlot_best hbest with rfl | hbest
      · exact hpl hq
      · exact hnew q (by simp [hq]) hbest
    exact ⟨c2, by rw [List.foldlM_cons, h1]; exact h2, hc2⟩

theorem scanLocked_ok (procs : ProcId → SchedProc) (hc : c.Holds [] 0) :
    ∃ c', scanLocked procs c = .ok (scan procs, c') ∧
      c'.Holds (scan procs).held (scan procs).held.length :=
  foldlM_scanSlotLocked (List.nodup_finRange nproc) hc fun _ _ h => nomatch h

end

/-- `(level, stamp)` of `x` is at most that of `y`, lexicographically. -/
def SchedProc.le (x y : SchedProc) : Prop :=
  x.level < y.level ∨ x.level = y.level ∧ x.stamp.toNat ≤ y.stamp.toNat

/-- In every reachable state levels and ticks are in range; and the scan that follows, which
starts without a lock, selects a `RUNNABLE` process with the least `(level, stamp)`, selects
none iff none is `RUNNABLE`, and ends with the lock of the selected process and no other. -/
theorem mlfq_selection {s : Sched} (hs : SchedReach (fun _ _ => True) s) :
    (∀ p, (s.procs p).state ≠ .unused → 0 ≤ (s.procs p).level ∧ (s.procs p).level < mlfqLevels ∧
      0 ≤ (s.procs p).ticksUsed ∧ (s.procs p).ticksUsed < mlfqQuantum (s.procs p).level) ∧
    ∀ c : Cpu, c.Holds [] 0 → ∃ r c', scanLocked s.boost.procs c = .ok (r, c') ∧
      (∀ b, r.best = some b → (s.boost.procs b).state = .runnable ∧
        ∀ p, (s.boost.procs p).state = .runnable → (s.boost.procs b).le (s.boost.procs p)) ∧
      (r.best = none ↔ ∀ p, (s.boost.procs p).state ≠ .runnable) ∧
      ∀ p : ProcId, (c'.locks (.proc p)).locked = true ↔ r.best = some p := by
  have hrange := hs.inRange
  refine ⟨fun p _ => ⟨(hrange p).level_nonneg, (hrange p).level_lt, (hrange p).ticks_nonneg,
    (hrange p).ticks_lt⟩, fun c hc => ?_⟩
  obtain ⟨c', hscan, hc'⟩ := scanLocked_ok s.boost.procs hc
  have hbest : ∀ b, (Sched.scan s.boost.procs).best = some b → (s.boost.procs b).state = .runnable :=
    fun b hb => ((scan_best s.boost.procs).best b hb).1
  refine ⟨_, c', hscan, fun b hb => ⟨hbest b hb, fun p hp => (scan_some hb hp).2⟩, ?_, fun p => ?_⟩
  · constructor
    · exact fun hnone p hp => scan_ne_none hp (hrange.boost p).level_lt hnone
    · intro hno
      cases hb : (Sched.scan s.boost.procs).best with
      | none => rfl
      | some b => exact absurd (hbest b hb) (hno b)
  · rw [hc'.locked]
    simp only [Scan.held, List.mem_map, Option.mem_toList, LockId.proc.injEq]
    constructor
    · rintro ⟨b, hb, heq⟩
      rw [hb, Fin.ext heq]
    · exact fun hp => ⟨p, hp, rfl⟩

/-- After boot the scan takes `init` and keeps its lock. -/
theorem mlfq_selection_boot :
    ∃ r c', scanLocked Sched.boot.boost.procs ⟨0, false, false, fun _ => .init⟩ = .ok (r, c') ∧
      r.best = some initproc ∧ (c'.locks (.proc 0)).locked = true := by
  obtain ⟨-, h⟩ := mlfq_selection .boot
  obtain ⟨r, c', hscan, hsel, hnone, hlock⟩ := h ⟨0, false, false, fun _ => .init⟩
    ⟨rfl, by simp [Lock.init], fun _ => rfl, by simp, by simp, fun hsie => nomatch hsie⟩
  have hboot : ∀ p, (Sched.boot.boost.procs p).state = .runnable ↔ p = initproc := by decide
  have hbest : r.best = some initproc := by
    cases hb : r.best with
    | none => exact absurd ((hboot initproc).mpr rfl) (hnone.mp hb initproc)
    | some b => rw [(hboot b).mp (hsel b hb).1]
  exact ⟨r, c', hscan, hbest, (hlock initproc).mpr hbest⟩

end YHsys.Kernel
