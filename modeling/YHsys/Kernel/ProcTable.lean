import Mathlib.Data.Fintype.Basic
import Mathlib.Data.BitVec

/-!
# The process table: fork, exit, wait, kill, sleep and wakeup

`taskmgr.c` on the one hart. A process's kernel thread runs until it gives up the
hart in `sched`, or a timer interrupt makes it `yield`; while it holds a lock interrupts
are off, so the hart changes hands only between critical sections.
Each function below is the code of one critical section, and `Pc` records between
which two sections a thread stands. What the loops of `kfork` and `kkill` do for one slot
is a section of its own, because they drop the slot's lock before the next one.

The history of exits and reaps is kept beside the table.
-/

namespace YHsys.Kernel

/-- `NPROC` (`param.h`). -/
def nproc : ℕ := 64

/-- `enum procstate` (`proc.h:106`). -/
inductive ProcState where
  | unused
  | used
  | sleeping
  | runnable
  | running
  | zombie
deriving DecidableEq, Repr

/-- A slot of `struct proc proc[NPROC]`. -/
abbrev ProcId := Fin nproc

/-- `initproc`: `userinit` takes the first slot. -/
def initproc : ProcId := ⟨0, by decide⟩

/-- A sleep channel: the address of a slot, as in `kwait`, or of anything else. -/
inductive Chan where
  | proc (p : ProcId)
  | other (c : ℕ)
deriving DecidableEq, Repr

/-- The fields of `struct proc` (`proc.h:109`) that these functions use. -/
structure Proc where
  state : ProcState
  chan : Option Chan
  killed : Bool
  xstate : BitVec 32
  pid : BitVec 32
  parent : Option ProcId
deriving DecidableEq, Repr

/-- Where a process's thread stands between two critical sections. -/
inductive Pc where
  /-- Outside the calls below: in user mode or in another system call. -/
  | user
  /-- In `allocproc`, called by `kfork`, before it looks at slot `i`. -/
  | forkScan (i : ℕ)
  /-- In `kfork`, before `np->parent = p`. -/
  | forkLink (np : ProcId)
  /-- In `kfork`, before `np->state = RUNNABLE`. -/
  | forkReady (np : ProcId)
  /-- In `kwait`, before it takes `wait_lock`, at entry or after `sleep`. -/
  | wait (addr : BitVec 32)
  /-- In the `sched` of the `sleep` of `kwait`. -/
  | inWait (addr : BitVec 32)
  /-- In the `sched` of any other `sleep`. -/
  | inSleep
  /-- In `kkill`, before it looks at slot `i`. -/
  | kill (pid : BitVec 32) (i : ℕ)
  /-- In the `sched` of `kexit`. -/
  | exited
deriving DecidableEq, Repr

/-- Whether interrupts can be on at a point: not between the `swtch` of `sched` and the
`release` that follows it. -/
def Pc.interruptible : Pc → Bool
  | .inWait _ | .inSleep | .exited => false
  | _ => true

/-- An exit, or a `kwait` by `parent` that freed a slot and returned its status. -/
inductive ProcLog where
  | exited (p : ProcId) (status : BitVec 32)
  | reaped (parent p : ProcId) (status : BitVec 32)
deriving DecidableEq, Repr

/-- The slot an entry is about. -/
def ProcLog.slot : ProcLog → ProcId
  | .exited p _ => p
  | .reaped _ p _ => p

/-- The process table and the threads. `running` is `myproc()`; the history is kept with
the latest entry first. -/
structure ProcTable where
  procs : ProcId → Proc
  nextpid : BitVec 32
  running : Option ProcId
  pc : ProcId → Pc
  history : List ProcLog

/-- What a process can call. -/
inductive ProcCall where
  | kfork
  | kexit (status : BitVec 32)
  | kwait (addr : BitVec 32)
  | kkill (pid : BitVec 32)
  | sleep (c : ℕ)
  | setkilled
deriving DecidableEq, Repr

/-- What can happen next. -/
inductive ProcEvent where
  /-- The scheduler runs a `RUNNABLE` process. -/
  | dispatch (p : ProcId)
  /-- A timer interrupt preempts the running process. -/
  | yield
  /-- The running process, outside these calls, makes one. -/
  | call (c : ProcCall)
  /-- The running process does its next section. `b` says whether the allocations of
  `kfork` or the `copyout` of `kwait` succeed. -/
  | run (b : Bool)
  /-- Code outside the calls above, or an interrupt handler, calls `wakeup`. -/
  | wakeup (c : ℕ)
deriving DecidableEq, Repr

namespace ProcTable

variable (s : ProcTable)

def modify (p : ProcId) (f : Proc → Proc) : ProcTable :=
  { s with procs := Function.update s.procs p (f (s.procs p)) }

/-- Thread `p` stands at `pc`. -/
def goto (p : ProcId) (pc : Pc) : ProcTable :=
  { s with pc := Function.update s.pc p pc }

/-- The hart goes back to the scheduler, with thread `p` at `pc`. -/
def sched (p : ProcId) (pc : Pc) : ProcTable :=
  { s.goto p pc with running := none }

/-- The body of the loop of `wakeup`. -/
def wakeupSlot (c : Option Chan) (s : ProcTable) (p : ProcId) : ProcTable :=
  if s.running = some p then s
  else if (s.procs p).state = .sleeping ∧ (s.procs p).chan = c then
    s.modify p fun x => { x with state := .runnable }
  else s

/-- `wakeup` (`taskmgr.c:633`). -/
def wakeup (c : Option Chan) : ProcTable :=
  (List.finRange nproc).foldl (wakeupSlot c) s

/-- The body of the loop of `reparent`. -/
def reparentSlot (p : ProcId) (s : ProcTable) (pp : ProcId) : ProcTable :=
  if (s.procs pp).parent = some p then
    (s.modify pp fun x => { x with parent := some initproc }).wakeup (some (.proc initproc))
  else s

/-- `reparent` (`taskmgr.c:349`). -/
def reparent (p : ProcId) : ProcTable :=
  (List.finRange nproc).foldl (reparentSlot p) s

/-- `freeproc` (`taskmgr.c:215`). -/
def freeproc (p : ProcId) : ProcTable :=
  s.modify p fun _ => ⟨.unused, none, false, 0, 0, none⟩

/-- `kexit` (`taskmgr.c:365`) from `acquire(&wait_lock)` to `sched`. `none` is the panic
of an exiting `init`. -/
def kexit (p : ProcId) (status : BitVec 32) : Option ProcTable :=
  if p = initproc then none
  else
    let s := s.reparent p
    let s := s.wakeup ((s.procs p).parent.map .proc)
    let s := s.modify p fun x => { x with xstate := status, state := .zombie }
    some { s.sched p .exited with history := .exited p status :: s.history }

/-- `sleep` (`taskmgr.c:602`) up to its `swtch`. -/
def sleep (p : ProcId) (c : Chan) (pc : Pc) : ProcTable :=
  (s.modify p fun x => { x with chan := some c, state := .sleeping }).sched p pc

/-- What the scan of the table in `kwait` finds. -/
inductive Found where
  /-- An exited child, whose status was copied out if asked for. -/
  | child (pp : ProcId)
  /-- An exited child, but `copyout` failed. -/
  | fault
  /-- No exited child. -/
  | nothing (havekids : Bool)
deriving DecidableEq, Repr

/-- The scan of `kwait` (`taskmgr.c:419`). -/
def scanKids (p : ProcId) (addr : BitVec 32) (copied : Bool) : List ProcId → Bool → Found
  | [], havekids => .nothing havekids
  | pp :: rest, havekids =>
    if (s.procs pp).parent = some p then
      if (s.procs pp).state = .zombie then
        if addr ≠ 0 ∧ copied = false then .fault else .child pp
      else scanKids p addr copied rest true
    else scanKids p addr copied rest havekids

/-- `kwait` (`taskmgr.c:408`) from `acquire(&wait_lock)` until it returns or sleeps. -/
def kwait (p : ProcId) (addr : BitVec 32) (copied : Bool) : ProcTable :=
  match s.scanKids p addr copied (List.finRange nproc) false with
  | .child pp =>
    { (s.freeproc pp).goto p .user with
      history := .reaped p pp (s.procs pp).xstate :: s.history }
  | .fault => s.goto p .user
  | .nothing havekids =>
    if !havekids || (s.procs p).killed then s.goto p .user
    else s.sleep p (.proc p) (.inWait addr)

/-- `allocproc` (`taskmgr.c:168`) at slot `np`, and `kfork` up to the first
`release(&np->lock)`. A new thread starts at `forkret`. -/
def forkAlloc (p np : ProcId) (ok : Bool) : ProcTable :=
  if (s.procs np).state = .unused then
    let s := { s.modify np fun x => { x with pid := s.nextpid, state := .used } with
      nextpid := s.nextpid + 1 }
    if ok then (s.goto np .user).goto p (.forkLink np)
    else (s.freeproc np).goto p .user
  else s.goto p (.forkScan (np + 1))

/-- `kkill` (`taskmgr.c:650`) at slot `q`, called by `p`. -/
def killSlot (p q : ProcId) (pid : BitVec 32) : ProcTable :=
  if (s.procs q).pid = pid then
    (s.modify q fun x => { x with
      killed := true
      state := if x.state = .sleeping then .runnable else x.state }).goto p .user
  else s.goto p (.kill pid (q + 1))

/-- The running process `p` makes a call. -/
def call (p : ProcId) : ProcCall → Option ProcTable
  | .kfork => some (s.goto p (.forkScan 0))
  | .kexit status => s.kexit p status
  | .kwait addr => some (s.goto p (.wait addr))
  | .kkill pid => some (s.goto p (.kill pid 0))
  | .sleep c => some (s.sleep p (.other c) .inSleep)
  | .setkilled => some (s.modify p fun x => { x with killed := true })

/-- The running process `p` does its next section. -/
def run (p : ProcId) (b : Bool) : Option ProcTable :=
  match s.pc p with
  | .user | .exited => none
  | .forkScan i =>
    if h : i < nproc then some (s.forkAlloc p ⟨i, h⟩ b) else some (s.goto p .user)
  | .forkLink np =>
    some ((s.modify np fun x => { x with parent := some p }).goto p (.forkReady np))
  | .forkReady np =>
    some ((s.modify np fun x => { x with state := .runnable }).goto p .user)
  | .wait addr => some (s.kwait p addr b)
  | .inWait addr => some ((s.modify p fun x => { x with chan := none }).goto p (.wait addr))
  | .inSleep => some ((s.modify p fun x => { x with chan := none }).goto p .user)
  | .kill pid i =>
    if h : i < nproc then some (s.killSlot p ⟨i, h⟩ pid) else some (s.goto p .user)

/-- One event. `none`: it cannot happen, or the kernel panics. -/
def step : ProcEvent → Option ProcTable
  | .dispatch p =>
    if s.running = none ∧ (s.procs p).state = .runnable then
      some { s.modify p fun x => { x with state := .running } with running := some p }
    else none
  | .yield => s.running.bind fun p =>
    if (s.pc p).interruptible then
      some { s.modify p fun x => { x with state := .runnable } with running := none }
    else none
  | .call c => s.running.bind fun p => if s.pc p = .user then s.call p c else none
  | .run b => s.running.bind fun p => s.run p b
  | .wakeup c => some (s.wakeup (some (.other c)))

end ProcTable

/-- After `userinit` (`taskmgr.c:237`): the first slot is `RUNNABLE`, the others are free. -/
def ProcTable.boot : ProcTable where
  procs := fun p =>
    if p = initproc then ⟨.runnable, none, false, 0, 1, none⟩
    else ⟨.unused, none, false, 0, 0, none⟩
  nextpid := 2
  running := none
  pc := fun _ => .user
  history := []

/-- The states of the table over all runs. -/
inductive ProcReach : ProcTable → Prop where
  | boot : ProcReach .boot
  | step {s s' : ProcTable} {e : ProcEvent} (hs : ProcReach s) (he : s.step e = some s') :
      ProcReach s'

end YHsys.Kernel
