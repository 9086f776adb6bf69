import Mathlib.Data.BitVec
import YHsys.Kernel.ProcTable

/-!
# The MLFQ scheduler

The part of `taskmgr.c` that decides which process runs next: states, levels, ticks and
stamps of the processes, `mlfq_seq`, and every function that changes them. An iteration of
`scheduler` runs with interrupts off, so it is one step. The events that change a
process's state for other reasons (a wakeup, a fork, an exit) may come in any order.

Each process that `allocproc` makes gets its own number, `inst`, which is kept beside the
kernel's data.
-/

namespace YHsys.Kernel

/-- `MLFQ_LEVELS` and `MLFQ_BOOST_TICKS` (`param.h`). -/
def mlfqLevels : ℤ := 3

def mlfqBoostTicks : ℕ := 64

/-- The fields of `struct proc` that scheduling uses. -/
structure SchedProc where
  state : ProcState
  level : ℤ
  ticksUsed : ℤ
  stamp : BitVec 32
  inst : ℕ
deriving DecidableEq, Repr

@[ext]
structure Sched where
  procs : ProcId → SchedProc
  /-- `mlfq_seq`. -/
  seq : BitVec 32
  /-- `mlfq_need_boost`. -/
  needBoost : Bool
  ticks : BitVec 32
  /-- `mycpu()->proc`. -/
  running : Option ProcId
  nextInst : ℕ

/-- What can happen next. -/
inductive SchedEvent where
  /-- An iteration of the loop of `scheduler`. -/
  | schedule
  /-- `clockintr`. -/
  | tick
  /-- The running process calls `yield`. -/
  | yield (fromTimer : Bool)
  /-- The running process calls `sleep`. -/
  | sleep
  /-- `wakeup` or `kkill` finds a sleeping process. -/
  | wake (q : ProcId)
  /-- `kfork` takes a free slot; `ok` says whether its allocations succeed. -/
  | fork (np : ProcId) (ok : Bool)
  /-- `kfork` makes the new process `RUNNABLE`. -/
  | ready (np : ProcId)
  /-- The running process exits. -/
  | exit
  /-- `kwait` frees an exited process. -/
  | reap (q : ProcId)
deriving DecidableEq, Repr

/-- `mlfq_quantum` (`taskmgr.c:32`). -/
def mlfqQuantum (level : ℤ) : ℤ := if level ≤ 0 then 1 else if level = 1 then 2 else 4

namespace SchedProc

/-- `mlfq_reset_proc` (`taskmgr.c:42`). -/
def mlfqReset (x : SchedProc) : SchedProc := { x with level := 0, ticksUsed := 0, stamp := 0 }

/-- `mlfq_tick` (`taskmgr.c:56`) for the running process. -/
def mlfqTick (x : SchedProc) : SchedProc :=
  let used := x.ticksUsed + 1
  if used ≥ mlfqQuantum x.level then
    { x with ticksUsed := 0, level := if x.level < mlfqLevels - 1 then x.level + 1 else x.level }
  else { x with ticksUsed := used }

/-- The body of the loop of `mlfq_boost_all` (`taskmgr.c:75`). -/
def mlfqBoost (x : SchedProc) : SchedProc :=
  if x.state ≠ .unused then { x with level := 0, ticksUsed := 0 } else x

/-- What `yield(0)` and `sleep` do to the level. -/
def rise (x : SchedProc) : SchedProc :=
  { x with level := if x.level > 0 then x.level - 1 else x.level, ticksUsed := 0 }

end SchedProc

/-- `best`, `best_level` and `best_stamp` of `scheduler`. -/
structure Scan where
  best : Option ProcId
  level : ℤ
  stamp : BitVec 32
deriving DecidableEq, Repr

namespace Sched

variable (s : Sched)

def set (p : ProcId) (x : SchedProc) : Sched := { s with procs := Function.update s.procs p x }

/-- Whether `x` is preferred to the best process so far. -/
def beats (x : SchedProc) (r : Scan) : Bool :=
  x.level < r.level ∨ x.level = r.level ∧ x.stamp < r.stamp

/-- The body of the loop of `scheduler` over processes (`taskmgr.c:489`). -/
def scanSlot (procs : ProcId → SchedProc) (r : Scan) (p : ProcId) : Scan :=
  if (procs p).state = .runnable then
    if beats (procs p) r then ⟨some p, (procs p).level, (procs p).stamp⟩ else r
  else r

/-- The scan of `scheduler`. -/
def scan (procs : ProcId → SchedProc) : Scan :=
  (List.finRange nproc).foldl (scanSlot procs) ⟨none, mlfqLevels, 0xffffffff⟩

/-- A pending boost. -/
def boost : Sched :=
  if s.needBoost then { s with needBoost := false, procs := fun p => (s.procs p).mlfqBoost } else s

/-- `best` runs. -/
def dispatch (b : ProcId) : Sched :=
  { s.set b { s.procs b with state := .running, stamp := s.seq + 1 } with
    seq := s.seq + 1
    running := some b }

/-- An iteration of `scheduler` (`taskmgr.c:470`). -/
def schedule : Sched :=
  match (scan s.boost.procs).best with
  | some b => s.boost.dispatch b
  | none => s.boost

/-- `clockintr` (`irqtrap.c:165`). -/
def tick : Sched :=
  let s := { s with ticks := s.ticks + 1 }
  let s := match s.running with
    | some p => if (s.procs p).state = .running then s.set p (s.procs p).mlfqTick else s
    | none => s
  if s.ticks.toNat % mlfqBoostTicks = 0 then { s with needBoost := true } else s

/-- One event; `none` if it cannot happen. -/
def step : SchedEvent → Option Sched
  | .schedule => if s.running = none then some s.schedule else none
  | .tick => some s.tick
  | .yield fromTimer => s.running.map fun p =>
    let x := if fromTimer then s.procs p else (s.procs p).rise
    { s.set p { x with state := .runnable } with running := none }
  | .sleep => s.running.map fun p =>
    { s.set p { (s.procs p).rise with state := .sleeping } with running := none }
  | .wake q =>
    if (s.procs q).state = .sleeping then some (s.set q { s.procs q with state := .runnable })
    else none
  | .fork np ok =>
    if s.running ≠ none ∧ (s.procs np).state = .unused then
      let x := { (s.procs np).mlfqReset with
        state := if ok then .used else .unused, inst := s.nextInst }
      some { s.set np x with nextInst := s.nextInst + 1 }
    else none
  | .ready np =>
    if (s.procs np).state = .used then some (s.set np { s.procs np with state := .runnable })
    else none
  | .exit => s.running.map fun p =>
    { s.set p { s.procs p with state := .zombie } with running := none }
  | .reap q =>
    if (s.procs q).state = .zombie then
      some (s.set q { (s.procs q).mlfqReset with state := .unused })
    else none

/-- After `userinit`. -/
def boot : Sched where
  procs p := ⟨if p = initproc then .runnable else .unused, 0, 0, 0, 0⟩
  seq := 1
  needBoost := false
  ticks := 0
  running := none
  nextInst := 1

end Sched

/-- The states over all runs whose steps meet `C`. -/
inductive SchedReach (C : Sched → SchedEvent → Prop) : Sched → Prop where
  | boot : SchedReach C .boot
  | step {s s' : Sched} {e : SchedEvent} (hs : SchedReach C s) (hc : C s e)
      (he : s.step e = some s') : SchedReach C s'

/-! ## What the scan finds -/

/-- The scan of the slots `l`: the best is `RUNNABLE`, and no `RUNNABLE` slot beats it. -/
structure BestOf (procs : ProcId → SchedProc) (l : List ProcId) (r : Scan) : Prop where
  best : ∀ b, r.best = some b → (procs b).state = .runnable ∧ r.level = (procs b).level ∧
    r.stamp = (procs b).stamp
  none : r.best = none → r.level = mlfqLevels ∧ r.stamp = 0xffffffff
  least : ∀ p ∈ l, (procs p).state = .runnable → Sched.beats (procs p) r = false

theorem BestOf.slot {procs : ProcId → SchedProc} {l : List ProcId} {r : Scan}
    (h : BestOf procs l r) (p : ProcId) : BestOf procs (l ++ [p]) (Sched.scanSlot procs r p) := by
  unfold Sched.scanSlot
  split
  · rename_i hrun
    split
    · rename_i hbeats
      refine ⟨fun b hb => ?_, nofun, fun q hq hqrun => ?_⟩
      · cases hb
        exact ⟨hrun, rfl, rfl⟩
      · -- what the former best beats, the new one beats too
        rcases List.mem_append.mp hq with hq | hq
        · have := h.least q hq hqrun
          simp only [Sched.beats, decide_eq_true_eq, decide_eq_false_iff_not, BitVec.lt_def]
            at hbeats this ⊢
          omega
        · rw [List.mem_singleton] at hq
          subst hq
          simp [Sched.beats]
    · rename_i hbeats
      refine ⟨h.best, h.none, fun q hq hqrun => ?_⟩
      rcases List.mem_append.mp hq with hq | hq
      · exact h.least q hq hqrun
      · rw [List.mem_singleton] at hq
        subst hq
        simpa using hbeats
  · rename_i hrun
    refine ⟨h.best, h.none, fun q hq hqrun => ?_⟩
    rcases List.mem_append.mp hq with hq | hq
    · exact h.least q hq hqrun
    · rw [List.mem_singleton] at hq
      subst hq
      exact absurd hqrun hrun

theorem bestOf_foldl (procs : ProcId → SchedProc) (l : List ProcId) :
    BestOf procs l (l.foldl (Sched.scanSlot procs) ⟨none, mlfqLevels, 0xffffffff⟩) := by
  induction l using List.reverseRecOn with
  | nil => exact ⟨nofun, fun _ => ⟨rfl, rfl⟩, nofun⟩
  | append_singleton l p ih =>
    rw [List.foldl_append]
    exact ih.slot p

theorem scan_best (procs : ProcId → SchedProc) :
    BestOf procs (List.finRange nproc) (Sched.scan procs) :=
  bestOf_foldl procs _

theorem scan_some {procs : ProcId → SchedProc} {b : ProcId} (hb : (Sched.scan procs).best = some b)
    {p : ProcId} (hp : (procs p).state = .runnable) :
    (procs b).state = .runnable ∧ ((procs b).level < (procs p).level ∨
      (procs b).level = (procs p).level ∧ (procs b).stamp.toNat ≤ (procs p).stamp.toNat) := by
  have hscan := scan_best procs
  obtain ⟨hrun, hlevel, hstamp⟩ := hscan.best b hb
  have hleast := hscan.least p (List.mem_finRange p) hp
  simp only [Sched.beats, decide_eq_false_iff_not, BitVec.lt_def, hlevel, hstamp] at hleast
  exact ⟨hrun, by omega⟩

theorem scan_ne_none {procs : ProcId → SchedProc} {p : ProcId} (hp : (procs p).state = .runnable)
    (hlevel : (procs p).level < mlfqLevels) : (Sched.scan procs).best ≠ none := by
  intro hnone
  have hscan := scan_best procs
  have hleast := hscan.least p (List.mem_finRange p) hp
  simp only [Sched.beats, decide_eq_false_iff_not, (hscan.none hnone).1] at hleast
  omega

end YHsys.Kernel
