import YHsys.Lib.RingBuffer

/-!
# Pipes

`pipewrite`, `piperead` and `pipeclose` of `pipe.c` by any number of processes on one pipe.
A step is one `acquire`, one iteration of a loop, or what follows the loop; a process that
sleeps has given up the lock and may wake up at any time. The bytes that writes have put in
and that reads have handed out are kept beside the pipe.
-/

namespace YHsys.Kernel

/-- `PIPESIZE`. -/
def pipeSize : ℕ := 512

instance : NeZero pipeSize := ⟨by decide⟩

/-- `struct pipe` (`pipe.c:13`), its lock apart. -/
structure Pipe where
  data : Fin pipeSize → BitVec 8
  nread : BitVec 32
  nwrite : BitVec 32
  readopen : Bool
  writeopen : Bool

/-- Where a process stands. -/
inductive PipeCall where
  /-- Outside; `r` is what its last call returned. -/
  | idle (r : ℤ)
  /-- `pipewrite`, at `acquire`. -/
  | writeEnter (n : ℤ)
  /-- `pipewrite`, at the test of its loop. -/
  | write (i n : ℤ)
  /-- `pipewrite`, in `sleep`. -/
  | writeSleep (i n : ℤ)
  /-- `piperead`, at `acquire`. -/
  | readEnter (n : ℤ)
  /-- `piperead`, at the test of its first loop. -/
  | readWait (n : ℤ)
  /-- `piperead`, in `sleep`. -/
  | readSleep (n : ℤ)
  /-- `piperead`, at the test of its second loop. -/
  | read (i n : ℤ)
  /-- `pipeclose`. -/
  | close (writable : Bool)
deriving DecidableEq

def PipeCall.isIdle : PipeCall → Bool
  | .idle _ => true
  | _ => false

/-- A pipe and the processes that use it. -/
structure PipeState (P : Type) where
  pipe : Pipe
  lock : Option P
  calls : P → PipeCall
  accepted : List (BitVec 8)
  delivered : List (BitVec 8)

/-- What can happen next. -/
inductive PipeEvent (P : Type) where
  /-- Process `p` calls one of the functions. -/
  | write (p : P) (n : ℤ)
  | read (p : P) (n : ℤ)
  | close (p : P) (writable : Bool)
  /-- Process `p` goes on. `killed` is what `killed` returns; `user` is the byte at the
  address to copy from or to, if the address is good. -/
  | run (p : P) (killed : Bool) (user : Option (BitVec 8))

namespace PipeState

variable {P : Type} [DecidableEq P] (s : PipeState P)

def goto (p : P) (c : PipeCall) : PipeState P := { s with calls := Function.update s.calls p c }

/-- The lock is free. -/
def release (p : P) (c : PipeCall) : PipeState P := { s with lock := none }.goto p c

/-- Process `p` takes the lock, if it is free. -/
def acquire (p : P) (c : PipeCall) : Option (PipeState P) :=
  if s.lock = none then some ({ s with lock := some p }.goto p c) else none

/-- The loop of `pipewrite` (`pipe.c:83`). -/
def write (p : P) (i n : ℤ) (killed : Bool) (user : Option (BitVec 8)) : PipeState P :=
  if i < n then
    if s.pipe.readopen = false ∨ killed then s.release p (.idle (-1))
    else if s.pipe.nwrite = s.pipe.nread + BitVec.ofNat 32 pipeSize then
      s.release p (.writeSleep i n)
    else match user with
      | none => s.release p (.idle i)
      | some ch =>
        { s with
          pipe := { s.pipe with
            data := Function.update s.pipe.data (RingBuffer.index pipeSize s.pipe.nwrite) ch
            nwrite := s.pipe.nwrite + 1 }
          accepted := s.accepted ++ [ch] }.goto p (.write (i + 1) n)
  else s.release p (.idle i)

/-- The first loop of `piperead` (`pipe.c:113`). -/
def readWait (p : P) (n : ℤ) (killed : Bool) : PipeState P :=
  if s.pipe.nread = s.pipe.nwrite ∧ s.pipe.writeopen then
    if killed then s.release p (.idle (-1)) else s.release p (.readSleep n)
  else s.goto p (.read 0 n)

/-- The second loop of `piperead` (`pipe.c:120`). -/
def read (p : P) (i n : ℤ) (user : Option (BitVec 8)) : PipeState P :=
  if i < n then
    if s.pipe.nread = s.pipe.nwrite then s.release p (.idle i)
    else match user with
      | none => s.release p (.idle (if i = 0 then -1 else i))
      | some _ =>
        { s with
          pipe := { s.pipe with nread := s.pipe.nread + 1 }
          delivered := s.delivered ++
            [s.pipe.data (RingBuffer.index pipeSize s.pipe.nread)] }.goto p (.read (i + 1) n)
  else s.release p (.idle i)

/-- `pipeclose` (`pipe.c:60`). -/
def close (writable : Bool) : PipeState P :=
  { s with pipe :=
      if writable then { s.pipe with writeopen := false } else { s.pipe with readopen := false } }

/-- One event; `none` if it cannot happen. -/
def step : PipeEvent P → Option (PipeState P)
  | .write p n => if (s.calls p).isIdle then some (s.goto p (.writeEnter n)) else none
  | .read p n => if (s.calls p).isIdle then some (s.goto p (.readEnter n)) else none
  | .close p writable => if (s.calls p).isIdle then some (s.goto p (.close writable)) else none
  | .run p killed user =>
    match s.calls p with
    | .idle _ => none
    | .writeEnter n => s.acquire p (.write 0 n)
    | .write i n => some (s.write p i n killed user)
    | .writeSleep i n => s.acquire p (.write i n)
    | .readEnter n => s.acquire p (.readWait n)
    | .readWait n => some (s.readWait p n killed)
    | .readSleep n => s.acquire p (.readWait n)
    | .read i n => some (s.read p i n user)
    | .close writable => if s.lock = none then some ((s.close writable).goto p (.idle 0)) else none

/-- A new pipe (`pipealloc`, `pipe.c:33`); what the cells hold is not known. -/
def boot (data : Fin pipeSize → BitVec 8) : PipeState P :=
  ⟨⟨data, 0, 0, true, true⟩, none, fun _ => .idle 0, [], []⟩

end PipeState

/-- The states over all runs. -/
inductive PipeReach {P : Type} [DecidableEq P] : PipeState P → Prop where
  | boot (data : Fin pipeSize → BitVec 8) : PipeReach (.boot data)
  | step {s s' : PipeState P} {e : PipeEvent P} (hs : PipeReach s) (he : s.step e = some s') :
      PipeReach s'

/-! ## First in, first out -/

/-- The pipe as a ring buffer. -/
def Pipe.ring (pi : Pipe) : RingBuffer (BitVec 8) 32 pipeSize := ⟨pi.data, pi.nread, pi.nwrite⟩

/-- What was accepted is what was delivered and what the buffer holds. -/
def PipeInv {P : Type} (s : PipeState P) : Prop :=
  ∃ l, s.pipe.ring.Holds l ∧ s.accepted = s.delivered ++ l

namespace PipeInv

variable {P : Type} {s s' : PipeState P}

theorem pipeSize_dvd : pipeSize ∣ 2 ^ 32 := by decide

theorem pipeSize_lt : pipeSize < 2 ^ 32 := by decide

theorem congr (h : PipeInv s) (hring : s'.pipe.ring = s.pipe.ring)
    (haccepted : s'.accepted = s.accepted) (hdelivered : s'.delivered = s.delivered) :
    PipeInv s' := by
  obtain ⟨l, hl, heq⟩ := h
  exact ⟨l, by rwa [hring], by rw [haccepted, hdelivered, heq]⟩

theorem boot (data : Fin pipeSize → BitVec 8) : PipeInv (.boot data : PipeState P) :=
  ⟨[], ⟨Nat.zero_le _, rfl, fun _ _ h => nomatch h⟩, rfl⟩

variable [DecidableEq P] {p : P}

theorem write (h : PipeInv s) (i n : ℤ) (killed : Bool) (user : Option (BitVec 8)) :
    PipeInv (s.write p i n killed user) := by
  unfold PipeState.write
  split
  · split
    · exact h.congr rfl rfl rfl
    · split
      · exact h.congr rfl rfl rfl
      · rename_i hfull
        split
        · exact h.congr rfl rfl rfl
        · rename_i ch
          obtain ⟨l, hl, heq⟩ := h
          have hlen : l.length < pipeSize :=
            lt_of_le_of_ne hl.length fun hlen => hfull ((hl.full_iff pipeSize_lt).mpr hlen)
          refine ⟨l ++ [ch], hl.push pipeSize_dvd hlen ch, ?_⟩
          show s.accepted ++ [ch] = s.delivered ++ (l ++ [ch])
          rw [heq, List.append_assoc]
  · exact h.congr rfl rfl rfl

theorem readWait (h : PipeInv s) (n : ℤ) (killed : Bool) : PipeInv (s.readWait p n killed) := by
  unfold PipeState.readWait
  split
  · split
    · exact h.congr rfl rfl rfl
    · exact h.congr rfl rfl rfl
  · exact h.congr rfl rfl rfl

theorem read (h : PipeInv s) (i n : ℤ) (user : Option (BitVec 8)) :
    PipeInv (s.read p i n user) := by
  unfold PipeState.read
  split
  · split
    · exact h.congr rfl rfl rfl
    · rename_i hempty
      split
      · exact h.congr rfl rfl rfl
      · obtain ⟨l, hl, heq⟩ := h
        cases l with
        | nil => exact absurd ((hl.empty_iff pipeSize_lt).mpr rfl) hempty
        | cons x l =>
          obtain ⟨hx, hpop⟩ := hl.pop
          refine ⟨l, hpop, ?_⟩
          show s.accepted = s.delivered ++ [s.pipe.ring.data (RingBuffer.index _ s.pipe.ring.head)] ++ l
          rw [hx, heq, List.append_assoc]
          rfl
  · exact h.congr rfl rfl rfl

theorem step (h : PipeInv s) {e : PipeEvent P} (he : s.step e = some s') : PipeInv s' := by
  have hacquire : ∀ {p : P} {c : PipeCall}, s.acquire p c = some s' → PipeInv s' := by
    intro p c he
    unfold PipeState.acquire at he
    split at he
    · cases he
      exact h.congr rfl rfl rfl
    · cases he
  cases e with
  | write p n | read p n | close p writable =>
    simp only [PipeState.step] at he
    split at he
    · cases he
      exact h.congr rfl rfl rfl
    · cases he
  | run p killed user =>
    simp only [PipeState.step] at he
    split at he
    · cases he
    · exact hacquire he
    · cases he
      exact h.write _ _ killed user
    · exact hacquire he
    · exact hacquire he
    · cases he
      exact h.readWait _ killed
    · exact hacquire he
    · cases he
      exact h.read _ _ user
    · rename_i writable _
      split at he
      · cases he
        cases writable <;> exact h.congr rfl rfl rfl
      · cases he

end PipeInv

section Runs

variable {P : Type} [DecidableEq P] {s s' : PipeState P}

theorem PipeReach.inv (hs : PipeReach s) : PipeInv s := by
  induction hs with
  | boot data => exact .boot data
  | step _ he ih => exact ih.step he

/-- In every reachable state the bytes delivered are a prefix of the bytes accepted, and
`nwrite - nread` is the number of the others, at most `PIPESIZE`. -/
theorem pipe_lossless_fifo (hs : PipeReach s) :
    s.delivered <+: s.accepted ∧
      (s.pipe.nwrite - s.pipe.nread).toNat + s.delivered.length = s.accepted.length ∧
      (s.pipe.nwrite - s.pipe.nread).toNat ≤ pipeSize := by
  obtain ⟨l, hl, heq⟩ := hs.inv
  have hcount : (s.pipe.nwrite - s.pipe.nread).toNat = l.length := hl.sub_toNat PipeInv.pipeSize_lt
  refine ⟨⟨l, heq.symm⟩, ?_, ?_⟩
  · rw [hcount, heq, List.length_append, Nat.add_comm]
  · rw [hcount]
    exact hl.length

/-- Several events. -/
def PipeState.steps (s : PipeState P) (es : List (PipeEvent P)) : Option (PipeState P) :=
  es.foldlM PipeState.step s

theorem PipeReach.steps {es : List (PipeEvent P)} (hs : PipeReach s) (he : s.steps es = some s') :
    PipeReach s' := by
  induction es generalizing s with
  | nil =>
    cases he
    exact hs
  | cons e es ih =>
    obtain ⟨s1, hstep, hrest⟩ := Option.bind_eq_some_iff.mp he
    exact ih (hs.step hstep) hrest

end Runs

/-- One process writes two bytes, and another reads one of them. -/
def writeTwoReadOne : List (PipeEvent (Fin 2)) :=
  [.write 0 2, .run 0 false none, .run 0 false (some 7), .run 0 false (some 8), .run 0 false none,
    .read 1 1, .run 1 false none, .run 1 false none, .run 1 false (some 0), .run 1 false none]

theorem pipe_lossless_fifo_two : ∃ s : PipeState (Fin 2), PipeReach s ∧ s.accepted = [7, 8] ∧
    s.delivered = [7] ∧ (s.pipe.nwrite - s.pipe.nread).toNat ≤ pipeSize ∧
    s.delivered <+: s.accepted := by
  have hrun : ((PipeState.boot fun _ => 0 : PipeState (Fin 2)).steps writeTwoReadOne).any
      (fun s => s.accepted = [7, 8] ∧ s.delivered = [7]) := by decide +kernel
  obtain ⟨s, hs, hq⟩ := Option.any_eq_true _ _ |>.mp hrun
  obtain ⟨ha, hd⟩ : s.accepted = [7, 8] ∧ s.delivered = [7] := by simpa using hq
  have hreach := (PipeReach.boot _).steps hs
  obtain ⟨hfifo, -, hle⟩ := pipe_lossless_fifo hreach
  exact ⟨s, hreach, ha, hd, hle, hfifo⟩

end YHsys.Kernel
