import YHsys.Kernel.ProcRuns

/-!
# Open files and semaphores

`file.c`, `sem.c`, the calls of `sysfile.c` that make or drop descriptors, and the
descriptor loops of `kfork` and `kexit`, on top of the process table. As there, a call is
cut into its critical sections: code that touches only the caller's own descriptors, or a
file no one else has yet, stands with the section before it. `FileCall` records between
which two sections a call is.

The page of a semaphore is named by a number that is never given out twice. What becomes
of it (its first value, posts, successful waits, frees) is kept beside the kernel's data.
The state of pipes and inodes is left out; `piperead`, `readi` and the like are arguments.
-/

namespace YHsys.Kernel

open Function (update)

/-- `NOFILE`, `NFILE`, `NDEV` (`param.h`). -/
def nofile : ℕ := 16

def nfile : ℕ := 100

def ndev : ℤ := 10

/-- A descriptor. -/
abbrev Fd := Fin nofile

/-- A slot of `ftable.file`. -/
abbrev FileId := Fin nfile

/-- The `type` of a `struct file`. -/
inductive FileType where
  | none
  | pipe
  | inode
  | device
  | sem
deriving DecidableEq, Repr

/-- `struct file` (`file.h:1`). -/
structure File where
  type : FileType
  ref : ℤ
  readable : Bool
  writable : Bool
  /-- Which semaphore, for `FD_SEM`. -/
  sem : ℕ
  /-- The device, for `FD_DEVICE`. -/
  major : BitVec 16
deriving DecidableEq, Repr

/-- `struct semaphore` (`sem.c:12`). -/
structure Semaphore where
  value : BitVec 32
  refCount : ℤ
  destroyed : Bool
deriving DecidableEq, Repr

/-- What has become of a semaphore: whether its descriptor was made, its first value, how
many posts and successful waits are complete, and how often its page was freed. -/
structure SemHistory where
  made : Bool
  initial : BitVec 32
  posts : ℕ
  waits : ℕ
  frees : ℕ
deriving DecidableEq, Repr

/-- What `namei` or `create` found for `sys_open`. -/
inductive Opened where
  | dir
  | file
  | device (major : BitVec 16)
deriving DecidableEq, Repr

/-- What follows a `fileclose`. -/
inductive After where
  /-- The call returns. -/
  | ret
  /-- `kexit` clears the descriptor and goes on with the next one. -/
  | exitSlot (status : BitVec 32) (fd : Fd)
  /-- Another `fileclose`. -/
  | close (f : FileId) (k : After)
deriving DecidableEq, Repr

/-- The call a process is in, before its next critical section. -/
inductive FileCall where
  /-- None of them. -/
  | idle
  /-- `sys_open`, before `filealloc`. -/
  | openAlloc (omode : BitVec 32) (ip : Opened)
  /-- `sys_dup`, before `filedup(f)`; `fd` is the new descriptor. -/
  | dup (fd : Fd) (f : FileId)
  /-- Before the section of `fileclose(f)`. -/
  | fileclose (f : FileId) (k : After)
  /-- In `fileclose`, at `pipeclose` or at `begin_op` to `end_op`. -/
  | closeRest (k : After)
  /-- Before the section of `sem_close(s)`. -/
  | semClose (s : ℕ) (k : After)
  /-- In `sem_close`, before `kfree`. -/
  | semFree (s : ℕ) (k : After)
  /-- In the loop of `kexit`, at descriptor `fd`. -/
  | exit (status : BitVec 32) (fd : ℕ)
  /-- In `kexit`, past the loop. -/
  | exitDone (status : BitVec 32)
  /-- `pipealloc`, before the first `filealloc`. -/
  | pipeFirst
  /-- `pipealloc`, before the second `filealloc`. -/
  | pipeSecond (f0 : FileId)
  /-- `pipealloc`, before `kalloc`. -/
  | pipeMem (f0 f1 : FileId)
  /-- `sys_sem_create`, before `filealloc`. -/
  | semFile (value : BitVec 32)
  /-- `sys_sem_create`, before the `kalloc` of `sem_alloc`. -/
  | semMem (value : BitVec 32) (f : FileId)
  /-- `sys_sem_create`, before `s->ref_count++`. -/
  | semRef (s : ℕ)
  /-- `sys_sem_wait`, before it takes `s->lock`, at entry or after `sleep`. -/
  | semWait (fd : Fd) (f : FileId) (s : ℕ)
  /-- `sys_sem_post`, before it takes `s->lock`. -/
  | semPost (fd : Fd) (f : FileId) (s : ℕ)
  /-- `sys_sem_destroy`, before it takes `s->lock`. -/
  | semDestroy (fd : Fd) (f : FileId) (s : ℕ)
deriving DecidableEq, Repr

/-- The channel a waiter of semaphore `s` sleeps on: the page's address. The other
channels are odd. -/
def semChan (s : ℕ) : ℕ := 2 * s

/-- The kernel: the process table, the descriptors, the file table and the semaphores. -/
structure Kern where
  table : ProcTable
  ofile : ProcId → Fd → Option FileId
  calls : ProcId → FileCall
  files : FileId → File
  sems : ℕ → Semaphore
  history : ℕ → SemHistory
  nextSem : ℕ

/-- A system call with its arguments. `open` comes with what the file system found. -/
inductive FileSys where
  | open (omode : BitVec 32) (found : Option Opened)
  | dup (fd : BitVec 32)
  | close (fd : BitVec 32)
  | pipe
  | exit (status : BitVec 32)
  | semCreate (value : BitVec 32)
  | semWait (fd : BitVec 32)
  | semPost (fd : BitVec 32)
  | semDestroy (fd : BitVec 32)
deriving DecidableEq, Repr

/-- What can happen next. -/
inductive KernEvent where
  /-- An event of the process table. -/
  | proc (e : ProcEvent)
  /-- The running process, in none of these calls, makes one. -/
  | call (c : FileSys)
  /-- The running process does the next section of its call. `mem` says whether `kalloc`
  has a page, `copied` whether the `copyout`s of `sys_pipe` succeed. -/
  | run (mem copied : Bool)
deriving DecidableEq, Repr

namespace Kern

variable (k : Kern)

/-! ## Small steps -/

/-- Process `p` stands at `c`. -/
def goto (p : ProcId) (c : FileCall) : Kern :=
  { k with calls := update k.calls p c }

/-- `p->ofile[fd] = x`. -/
def setSlot (p : ProcId) (fd : Fd) (x : Option FileId) : Kern :=
  { k with ofile := update k.ofile p (update (k.ofile p) fd x) }

def setFile (f : FileId) (x : File) : Kern :=
  { k with files := update k.files f x }

def setSem (s : ℕ) (x : Semaphore) : Kern :=
  { k with sems := update k.sems s x }

def setHistory (s : ℕ) (x : SemHistory) : Kern :=
  { k with history := update k.history s x }

/-- The file of a descriptor given as a number (`argfd`, `sysfile.c:21`). -/
def argfd (p : ProcId) (fd : BitVec 32) : Option (Fd × FileId) :=
  if h : 0 ≤ fd.toInt ∧ fd.toInt < nofile then
    (k.ofile p ⟨fd.toInt.toNat, by omega⟩).map fun f => (⟨fd.toInt.toNat, by omega⟩, f)
  else none

/-- `fdalloc` (`sysfile.c:40`): the first free descriptor. -/
def fdalloc (p : ProcId) : Option Fd :=
  (List.finRange nofile).find? fun fd => (k.ofile p fd).isNone

/-- `filealloc` (`file.c:30`): the first file without references. -/
def filealloc : Option FileId :=
  (List.finRange nfile).find? fun f => (k.files f).ref = 0

/-- The file `filealloc` returns, with its one reference. -/
def takeFile (f : FileId) : Kern := k.setFile f { k.files f with ref := 1 }

/-- The semaphore of a descriptor, as the `sys_sem_*` calls look it up. -/
def argsem (p : ProcId) (fd : BitVec 32) : Option (Fd × FileId × ℕ) :=
  (k.argfd p fd).bind fun x =>
    if (k.files x.2).type = .sem then some (x.1, x.2, (k.files x.2).sem) else none

/-! ## Dropping files -/

/-- What follows a `fileclose` that is done. -/
def resume (p : ProcId) : After → Kern
  | .ret => k.goto p .idle
  | .exitSlot status fd => (k.setSlot p fd none).goto p (.exit status (fd + 1))
  | .close f r => k.goto p (.fileclose f r)

/-- `fileclose` (`file.c:62`) from `acquire(&ftable.lock)` to `release`. `none` is its
panic. -/
def fileclose (p : ProcId) (f : FileId) (r : After) : Option Kern :=
  let file := k.files f
  if file.ref < 1 then none
  else if file.ref - 1 > 0 then some ((k.setFile f { file with ref := file.ref - 1 }).resume p r)
  else
    let k := k.setFile f { file with ref := 0, type := .none }
    match file.type with
    | .pipe | .inode | .device => some (k.goto p (.closeRest r))
    | .sem => some (k.goto p (.semClose file.sem r))
    | .none => some (k.resume p r)

/-- `sem_close` (`sem.c:36`) up to `release`. -/
def semClose (p : ProcId) (s : ℕ) (r : After) : Kern :=
  let sem := k.sems s
  let k := k.setSem s { sem with refCount := sem.refCount - 1 }
  if sem.refCount - 1 > 0 then k.resume p r else k.goto p (.semFree s r)

/-- The `kfree` of `sem_close`. -/
def semFree (p : ProcId) (s : ℕ) (r : After) : Kern :=
  (k.setHistory s { k.history s with frees := (k.history s).frees + 1 }).resume p r

/-- `kexit` at descriptor `n` of its loop (`taskmgr.c:373`). -/
def exitLoop (p : ProcId) (status : BitVec 32) (n : ℕ) : Kern :=
  if h : n < nofile then
    match k.ofile p ⟨n, h⟩ with
    | some f => k.goto p (.fileclose f (.exitSlot status ⟨n, h⟩))
    | none => k.goto p (.exit status (n + 1))
  else k.goto p (.exitDone status)

/-! ## Making files -/

def oWronly : BitVec 32 := 0x001

def oRdwr : BitVec 32 := 0x002

/-- The file `sys_open` fills in (`sysfile.c:352`). -/
def openedFile (omode : BitVec 32) (ip : Opened) (file : File) : File :=
  { file with
    type := match ip with
      | .device _ => .device
      | _ => .inode
    major := match ip with
      | .device major => major
      | _ => file.major
    readable := omode &&& oWronly = 0
    writable := omode &&& oWronly ≠ 0 ∨ omode &&& oRdwr ≠ 0 }

/-- `sys_open` from `filealloc` on (`sysfile.c:343`). -/
def openAlloc (p : ProcId) (omode : BitVec 32) (ip : Opened) : Kern :=
  match k.filealloc with
  | none => k.goto p .idle
  | some f =>
    let k := k.takeFile f
    match k.fdalloc p with
    | none => k.goto p (.fileclose f .ret)
    | some fd =>
      ((k.setSlot p fd (some f)).setFile f (openedFile omode ip (k.files f))).goto p .idle

/-- `filedup` in `sys_dup` (`file.c:48`). `none` is its panic. -/
def filedup (p : ProcId) (f : FileId) : Option Kern :=
  if (k.files f).ref < 1 then none
  else some ((k.setFile f { k.files f with ref := (k.files f).ref + 1 }).goto p .idle)

/-- The two ends of a pipe, as `pipealloc` fills them in (`pipe.c:36`). -/
def pipeEnd (writer : Bool) (file : File) : File :=
  { file with type := .pipe, readable := !writer, writable := writer }

/-- `sys_pipe` from the `kalloc` of `pipealloc` on (`pipe.c:31`, `sysfile.c:486`). -/
def pipeMem (p : ProcId) (f0 f1 : FileId) (mem copied : Bool) : Kern :=
  let bad (k : Kern) := k.goto p (.fileclose f0 (.close f1 .ret))
  if mem then
    let k := k.setFile f0 (pipeEnd false (k.files f0))
    let k := k.setFile f1 (pipeEnd true (k.files f1))
    match k.fdalloc p with
    | none => bad k
    | some fd0 =>
      let k := k.setSlot p fd0 (some f0)
      match k.fdalloc p with
      | none => bad (k.setSlot p fd0 none)
      | some fd1 =>
        let k := k.setSlot p fd1 (some f1)
        if copied then k.goto p .idle
        else bad ((k.setSlot p fd0 none).setSlot p fd1 none)
  else bad k

/-- `sys_sem_create` from the `kalloc` of `sem_alloc` to `acquire(&s->lock)` (`sem.c:65`).
A semaphore for which there is no descriptor is never freed. -/
def semMem (p : ProcId) (value : BitVec 32) (f : FileId) (mem : Bool) : Kern :=
  if mem then
    let s := k.nextSem
    let k := { k.setSem s ⟨value, 0, false⟩ with nextSem := s + 1 }
    match k.fdalloc p with
    | none => k.goto p (.fileclose f .ret)
    | some fd =>
      let k := k.setSlot p fd (some f)
      let k := k.setFile f
        { k.files f with type := .sem, readable := true, writable := true, sem := s }
      (k.setHistory s ⟨true, value, 0, 0, 0⟩).goto p (.semRef s)
  else k.goto p (.fileclose f .ret)

/-! ## Semaphores -/

/-- `wakeup(s)`. -/
def wakeSem (s : ℕ) : Kern :=
  { k with table := k.table.wakeup (some (.other (semChan s))) }

/-- `sys_sem_wait` (`sem.c:108`) from `acquire(&s->lock)` until it returns or sleeps. The
process stays in the loop while it sleeps. -/
def semWait (p : ProcId) (s : ℕ) : Option Kern :=
  let sem := k.sems s
  if sem.value.toInt ≤ 0 then
    if sem.destroyed ∨ (k.table.procs p).killed then some (k.goto p .idle)
    else (k.table.step (.call (.sleep (semChan s)))).map fun t => { k with table := t }
  else
    some (((k.setSem s { sem with value := sem.value - 1 }).setHistory s
      { k.history s with waits := (k.history s).waits + 1 }).goto p .idle)

/-- `sys_sem_post` (`sem.c:138`) from `acquire(&s->lock)` on. -/
def semPost (p : ProcId) (s : ℕ) : Kern :=
  let sem := k.sems s
  let k := k.setHistory s { k.history s with posts := (k.history s).posts + 1 }
  ((k.setSem s { sem with value := sem.value + 1 }).wakeSem s).goto p .idle

/-- `sys_sem_destroy` (`sem.c:160`) from `acquire(&s->lock)` to its `fileclose`. -/
def semDestroy (p : ProcId) (fd : Fd) (f : FileId) (s : ℕ) : Kern :=
  let sem := k.sems s
  (((k.setSem s { sem with destroyed := true }).wakeSem s).setSlot p fd none).goto p
    (.fileclose f .ret)

/-! ## Calls -/

/-- The running process `p` makes a call. `none` is the panic of an exiting `init`. -/
def call (p : ProcId) : FileSys → Option Kern
  | .open omode found =>
    match found with
    | none => some k
    | some .dir =>
      -- `create` finds no directories, and `O_RDONLY` is 0
      if omode = 0 then some (k.goto p (.openAlloc omode .dir)) else some k
    | some .file => some (k.goto p (.openAlloc omode .file))
    | some (.device major) =>
      if major.toInt < 0 ∨ major.toInt ≥ ndev then some k
      else some (k.goto p (.openAlloc omode (.device major)))
  | .dup fd =>
    match k.argfd p fd with
    | none => some k
    | some (_, f) =>
      match k.fdalloc p with
      | none => some k
      | some fd' => some ((k.setSlot p fd' (some f)).goto p (.dup fd' f))
  | .close fd =>
    match k.argfd p fd with
    | none => some k
    | some (fd, f) => some ((k.setSlot p fd none).goto p (.fileclose f .ret))
  | .pipe => some (k.goto p .pipeFirst)
  | .exit status => if p = initproc then none else some (k.goto p (.exit status 0))
  | .semCreate value => if value.toInt < 0 then some k else some (k.goto p (.semFile value))
  | .semWait fd =>
    match k.argsem p fd with
    | none => some k
    | some (fd, f, s) => some (k.goto p (.semWait fd f s))
  | .semPost fd =>
    match k.argsem p fd with
    | none => some k
    | some (fd, f, s) => some (k.goto p (.semPost fd f s))
  | .semDestroy fd =>
    match k.argsem p fd with
    | none => some k
    | some (fd, f, s) => some (k.goto p (.semDestroy fd f s))

/-- The running process `p` does the next section of its call. -/
def run (p : ProcId) (mem copied : Bool) : Option Kern :=
  match k.calls p with
  | .idle | .exitDone _ => none
  | .openAlloc omode ip => some (k.openAlloc p omode ip)
  | .dup _ f => k.filedup p f
  | .fileclose f r => k.fileclose p f r
  | .closeRest r => some (k.resume p r)
  | .semClose s r => some (k.semClose p s r)
  | .semFree s r => some (k.semFree p s r)
  | .exit status n => some (k.exitLoop p status n)
  | .pipeFirst =>
    match k.filealloc with
    | none => some (k.goto p .idle)
    | some f0 => some ((k.takeFile f0).goto p (.pipeSecond f0))
  | .pipeSecond f0 =>
    match k.filealloc with
    | none => some (k.goto p (.fileclose f0 .ret))
    | some f1 => some ((k.takeFile f1).goto p (.pipeMem f0 f1))
  | .pipeMem f0 f1 => some (k.pipeMem p f0 f1 mem copied)
  | .semFile value =>
    match k.filealloc with
    | none => some (k.goto p .idle)
    | some f => some ((k.takeFile f).goto p (.semMem value f))
  | .semMem value f => some (k.semMem p value f mem)
  | .semRef s =>
    some ((k.setSem s { k.sems s with refCount := (k.sems s).refCount + 1 }).goto p .idle)
  | .semWait _ _ s => k.semWait p s
  | .semPost _ _ s => some (k.semPost p s)
  | .semDestroy fd f s => some (k.semDestroy p fd f s)

/-! ## Forks and exits of the process table -/

/-- `filedup` of one descriptor in the loop of `kfork` (`taskmgr.c:324`). -/
def dupSlot (p np : ProcId) (k : Kern) (fd : Fd) : Option Kern :=
  match k.ofile p fd with
  | none => some k
  | some f =>
    if (k.files f).ref < 1 then none
    else some ((k.setFile f { k.files f with ref := (k.files f).ref + 1 }).setSlot np fd (some f))

/-- The slot a successful `allocproc` in `kfork` takes at this event. -/
def forkSlot (t : ProcTable) : ProcEvent → Option (ProcId × ProcId)
  | .run true => t.running.bind fun p =>
    match t.pc p with
    | .forkScan i =>
      if h : i < nproc then
        if (t.procs ⟨i, h⟩).state = .unused then some (p, ⟨i, h⟩) else none
      else none
    | _ => none
  | _ => none

/-- Whether process `p`, at `c` in the file layer, may be at an event of the process table
that it makes itself: its other calls come when it is in none of these, `kexit` goes on
when its loop is done, and a sleep is on no semaphore. -/
def mayCall (c : FileCall) : ProcCall → Bool
  | .kexit status => c = .exitDone status
  | .sleep ch => ch % 2 = 1
  | _ => c = .idle

/-- An event of the process table, with what `kfork` and `kexit` do to descriptors. -/
def proc (e : ProcEvent) : Option Kern :=
  match e with
  | .call c => k.table.running.bind fun p =>
    if mayCall (k.calls p) c then (k.table.step e).map fun t =>
      match c with
      | .kexit _ => { k with table := t }.goto p .idle
      | _ => { k with table := t }
    else none
  | e => (k.table.step e).bind fun t =>
    match forkSlot k.table e with
    | none => some { k with table := t }
    | some (p, np) => (List.finRange nofile).foldlM (dupSlot p np) { k with table := t }

/-- One event. `none`: it cannot happen, or the kernel panics. -/
def step : KernEvent → Option Kern
  | .proc e => k.proc e
  | .call c => k.table.running.bind fun p =>
    if k.table.pc p = .user ∧ k.calls p = .idle then k.call p c else none
  | .run mem copied => k.table.running.bind fun p =>
    if k.table.pc p = .user then k.run p mem copied else none

end Kern

/-- No process has a file. -/
def Kern.boot : Kern where
  table := .boot
  ofile _ _ := none
  calls _ := .idle
  files _ := ⟨.none, 0, false, false, 0, 0⟩
  sems _ := ⟨0, 0, false⟩
  history _ := ⟨false, 0, 0, 0, 0⟩
  nextSem := 0

/-- The states of the kernel over all runs. -/
inductive KernReach : Kern → Prop where
  | boot : KernReach .boot
  | step {k k' : Kern} {e : KernEvent} (hk : KernReach k) (he : k.step e = some k') : KernReach k'

end YHsys.Kernel
