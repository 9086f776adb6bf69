import Mathlib
import YHsys.Kernel.ProcSections

/-!
# Every run of the process table

`kwait` frees only an exited child of the caller, or sleeps after a scan that found none.
With that every event keeps `TreeInv`, and the protocol follows for all interleavings.
-/

namespace YHsys.Kernel

variable {s s' : ProcTable} {p : ProcId}

theorem ProcTable.scanKids_spec (s : ProcTable) (p : ProcId) (addr : BitVec 32) (copied : Bool)
    (l : List ProcId) (havekids : Bool) :
    match s.scanKids p addr copied l havekids with
    | .child pp => (s.procs pp).parent = some p ∧ (s.procs pp).state = .zombie
    | .fault => True
    | .nothing _ => ∀ q ∈ l, (s.procs q).parent = some p → (s.procs q).state ≠ .zombie := by
  induction l generalizing havekids with
  | nil => exact nofun
  | cons pp l ih =>
    unfold ProcTable.scanKids
    by_cases hparent : (s.procs pp).parent = some p
    · by_cases hz : (s.procs pp).state = .zombie
      · rw [if_pos hparent, if_pos hz]
        by_cases hcopy : addr ≠ 0 ∧ copied = false
        · rw [if_pos hcopy]
          trivial
        · rw [if_neg hcopy]
          exact ⟨hparent, hz⟩
      · rw [if_pos hparent, if_neg hz]
        have hrest := ih true
        split at hrest
        · exact hrest
        · exact hrest
        · rintro q (_ | ⟨_, hq⟩)
          · exact fun _ => hz
          · exact hrest q hq
    · rw [if_neg hparent]
      have hrest := ih havekids
      split at hrest
      · exact hrest
      · exact hrest
      · rintro q (_ | ⟨_, hq⟩)
        · exact fun hq => absurd hq hparent
        · exact hrest q hq

/-- What one `kwait` can do from `acquire(&wait_lock)` on. -/
inductive WaitOutcome (s : ProcTable) (p : ProcId) (addr : BitVec 32) : ProcTable → Prop where
  | reaps (pp : ProcId) (hparent : (s.procs pp).parent = some p)
      (hz : (s.procs pp).state = .zombie) :
      WaitOutcome s p addr { (s.freeproc pp).goto p .user with
        history := .reaped p pp (s.procs pp).xstate :: s.history }
  | returns : WaitOutcome s p addr (s.goto p .user)
  | sleeps (hkids : ∀ q, (s.procs q).parent = some p → (s.procs q).state ≠ .zombie) :
      WaitOutcome s p addr (s.sleep p (.proc p) (.inWait addr))

theorem ProcTable.kwait_outcome (s : ProcTable) (p : ProcId) (addr : BitVec 32) (copied : Bool) :
    WaitOutcome s p addr (s.kwait p addr copied) := by
  have hscan := s.scanKids_spec p addr copied (List.finRange nproc) false
  unfold ProcTable.kwait
  cases hfound : s.scanKids p addr copied (List.finRange nproc) false with
  | child pp =>
    rw [hfound] at hscan
    exact .reaps pp hscan.1 hscan.2
  | fault => exact .returns
  | nothing havekids =>
    rw [hfound] at hscan
    dsimp only
    split
    · exact .returns
    · exact .sleeps fun q => hscan q (List.mem_finRange q)

namespace TreeInv

theorem reap (h : TreeInv s) (hrun : s.running = some p) {pp : ProcId}
    (hz : (s.procs pp).state = .zombie) :
    TreeInv { (s.freeproc pp).goto p .user with
      history := .reaped p pp (s.procs pp).xstate :: s.history } := by
  have hfree := (h.freeproc (.inr hz)).goto_running hrun (show Pc.user.forking = none from rfl)
  refine ⟨hfree.init, hfree.running, hfree.parent_alive, hfree.parent_some, hfree.asleep,
    hfree.no_zombie, hfree.forking, hfree.forker, hfree.linked, fun q hq => ?_, ?_⟩
  · have hne : pp ≠ q := by
      rintro rfl
      have hun : (((s.freeproc pp).goto p .user).procs pp).state = .unused := by
        simp [ProcTable.freeproc, ProcTable.goto]
      exact absurd (hun.symm.trans hq) (by rintro ⟨⟩)
    exact (lastOf_cons_of_ne (e := .reaped p pp (s.procs pp).xstate) hne s.history).trans
      (hfree.last q hq)
  · refine h.reaps.cons fun parent q status heq => ?_
    cases heq
    exact h.last pp hz

theorem kwait (h : TreeInv s) (hrun : s.running = some p) (addr : BitVec 32) (copied : Bool) :
    TreeInv (s.kwait p addr copied) := by
  have hout := s.kwait_outcome p addr copied
  generalize s.kwait p addr copied = t at hout ⊢
  cases hout with
  | reaps pp hparent hz => exact h.reap hrun hz
  | returns => exact h.goto_running hrun rfl
  | sleeps hkids => exact h.sleep hrun (.inr ⟨⟨addr, rfl⟩, rfl, hkids⟩)

theorem call (h : TreeInv s) (hrun : s.running = some p) {c : ProcCall}
    (hs : s.call p c = some s') : TreeInv s' := by
  cases c with
  | kfork =>
    cases hs
    exact h.goto_running hrun rfl
  | kexit status => exact h.kexit hrun hs
  | kwait addr =>
    cases hs
    exact h.goto_running hrun rfl
  | kkill pid =>
    cases hs
    exact h.goto_running hrun rfl
  | sleep c =>
    cases hs
    exact h.sleep hrun (.inl rfl)
  | setkilled =>
    cases hs
    exact h.wakes (.modify (.inl rfl) rfl rfl rfl)

theorem run (h : TreeInv s) (hrun : s.running = some p) {b : Bool}
    (hs : s.run p b = some s') : TreeInv s' := by
  unfold ProcTable.run at hs
  split at hs
  · cases hs
  · cases hs
  · split at hs
    · cases hs
      exact h.forkAlloc hrun _ b
    · cases hs
      exact h.goto_running hrun rfl
  · rename_i np hpc
    cases hs
    exact h.forkLink hpc hrun
  · rename_i np hpc
    cases hs
    exact h.forkReady hpc hrun
  · cases hs
    exact h.kwait hrun _ b
  · cases hs
    exact h.wake hrun rfl
  · cases hs
    exact h.wake hrun rfl
  · split at hs
    · cases hs
      exact h.killSlot hrun _ _
    · cases hs
      exact h.goto_running hrun rfl

theorem step (h : TreeInv s) {e : ProcEvent} (hs : s.step e = some s') : TreeInv s' := by
  cases e with
  | dispatch p =>
    simp only [ProcTable.step] at hs
    split at hs
    · rename_i hp
      cases hs
      exact h.dispatch hp.1 hp.2
    · cases hs
  | yield =>
    obtain ⟨p, hrun, hs⟩ := Option.bind_eq_some_iff.mp hs
    split at hs
    · cases hs
      exact h.yield hrun
    · cases hs
  | call c =>
    obtain ⟨p, hrun, hs⟩ := Option.bind_eq_some_iff.mp hs
    split at hs
    · exact h.call hrun hs
    · cases hs
  | run b =>
    obtain ⟨p, hrun, hs⟩ := Option.bind_eq_some_iff.mp hs
    exact h.run hrun hs
  | wakeup c =>
    rw [← Option.some.inj hs]
    exact h.wakes (s.wakeup_wakes _)

end TreeInv

theorem ProcReach.inv (hs : ProcReach s) : TreeInv s := by
  induction hs with
  | boot => exact .boot
  | step _ he ih => exact ih.step he

/-! ## The history -/

/-- What one event adds to the history. -/
inductive Logged (s : ProcTable) : List ProcLog → Prop where
  | nothing : Logged s s.history
  | exit (p : ProcId) (status : BitVec 32) : Logged s (.exited p status :: s.history)
  | reap (p pp : ProcId) (hrun : s.running = some p) (hparent : (s.procs pp).parent = some p)
      (hz : (s.procs pp).state = .zombie) :
      Logged s (.reaped p pp (s.procs pp).xstate :: s.history)

theorem Logged.of_eq {history : List ProcLog} (h : history = s.history) : Logged s history :=
  h ▸ .nothing

theorem ProcTable.kexit_logged (hrun : s.running = some p) {status : BitVec 32}
    (hs : s.kexit p status = some s') : Logged s s'.history := by
  unfold ProcTable.kexit at hs
  split at hs
  · cases hs
  · rename_i hinit
    have hhist := (TreeInv.abandon hinit hrun).wakes.history
    rw [← Option.some.inj hs]
    simp only [ProcTable.modify]
    rw [hhist]
    exact .exit p status

theorem ProcTable.run_logged (hrun : s.running = some p) {b : Bool}
    (hs : s.run p b = some s') : Logged s s'.history := by
  unfold ProcTable.run at hs
  split at hs
  · cases hs
  · cases hs
  · split at hs
    · cases hs
      refine .of_eq ?_
      unfold ProcTable.forkAlloc
      split
      · cases b <;> rfl
      · rfl
    · cases hs
      exact .nothing
  · cases hs
    exact .nothing
  · cases hs
    exact .nothing
  · rename_i addr _
    cases hs
    have hout := s.kwait_outcome p addr b
    generalize s.kwait p addr b = t at hout ⊢
    cases hout with
    | reaps pp hparent hz => exact .reap p pp hrun hparent hz
    | returns => exact .nothing
    | sleeps _ => exact .nothing
  · cases hs
    exact .nothing
  · cases hs
    exact .nothing
  · split at hs
    · cases hs
      refine .of_eq ?_
      unfold ProcTable.killSlot
      split <;> rfl
    · cases hs
      exact .nothing

theorem ProcTable.step_logged {e : ProcEvent} (hs : s.step e = some s') :
    Logged s s'.history := by
  cases e with
  | dispatch p =>
    simp only [ProcTable.step] at hs
    split at hs
    · cases hs
      exact .nothing
    · cases hs
  | yield =>
    obtain ⟨p, hrun, hs⟩ := Option.bind_eq_some_iff.mp hs
    split at hs
    · cases hs
      exact .nothing
    · cases hs
  | call c =>
    obtain ⟨p, hrun, hs⟩ := Option.bind_eq_some_iff.mp hs
    split at hs
    · cases c with
      | kexit status => exact ProcTable.kexit_logged hrun hs
      | kfork | kwait | kkill | sleep | setkilled =>
        cases hs
        exact .nothing
    · cases hs
  | run b =>
    obtain ⟨p, hrun, hs⟩ := Option.bind_eq_some_iff.mp hs
    exact ProcTable.run_logged hrun hs
  | wakeup c =>
    rw [← Option.some.inj hs]
    exact .of_eq (s.wakeup_wakes _).history

/-- **Process tree and reaping.** In every state of every run: a process past its fork has
a parent whose slot is neither free nor exited; every reap in the history follows the exit
of that slot, with its status and no other reap in between; who reaps next is the running
process, it is the parent, and it gets the status of the exit; and nobody sleeps in `kwait`
over an exited child. -/
theorem process_tree {s : ProcTable} (hs : ProcReach s) :
    (∀ q, q ≠ initproc → (s.procs q).state ≠ .unused → (s.procs q).state ≠ .used →
      ∃ r, (s.procs q).parent = some r ∧
        (s.procs r).state ≠ .unused ∧ (s.procs r).state ≠ .zombie) ∧
    ReapsExits s.history ∧
    (∀ e s' r q status, s.step e = some s' →
      s'.history = .reaped r q status :: s.history →
      s.running = some r ∧ (s.procs q).parent = some r ∧ (s.procs q).state = .zombie ∧
        lastOf q s.history = some (.exited q status)) ∧
    (∀ p addr, (s.procs p).state = .sleeping → s.pc p = .inWait addr →
      ∀ q, (s.procs q).parent = some p → (s.procs q).state ≠ .zombie) := by
  have h := hs.inv
  refine ⟨fun q hq hun hus => ?_, h.reaps, fun e s' r q status he hhist => ?_, h.no_zombie⟩
  · obtain ⟨r, hr⟩ := Option.ne_none_iff_exists'.mp (h.parent_some q hq hun hus)
    have halive := h.parent_alive q r hr
    exact ⟨r, hr, halive.ne, halive.ne⟩
  · have hlog := ProcTable.step_logged he
    rw [hhist] at hlog
    generalize hnew : ProcLog.reaped r q status :: s.history = new at hlog
    cases hlog with
    | nothing => exact absurd hnew (List.cons_ne_self _ _)
    | exit => cases hnew
    | reap _ _ hrun hparent hz =>
      cases hnew
      exact ⟨hrun, hparent, hz, h.last q hz⟩

/-- Events one after the other. -/
def ProcTable.steps (s : ProcTable) (es : List ProcEvent) : Option ProcTable :=
  es.foldlM ProcTable.step s

theorem ProcReach.steps {es : List ProcEvent} (hs : ProcReach s) (h : s.steps es = some s') :
    ProcReach s' := by
  induction es generalizing s with
  | nil =>
    cases h
    exact hs
  | cons e es ih =>
    obtain ⟨s1, he, hrest⟩ := Option.bind_eq_some_iff.mp h
    exact ih (.step hs he) hrest

theorem firstChild_lt : 1 < nproc := by decide

/-- The slot of the first process `init` forks. -/
def firstChild : ProcId := ⟨1, firstChild_lt⟩

/-- `init` forks, waits and sleeps; the child exits with status 7 and wakes it. -/
def forkExit : List ProcEvent :=
  [.dispatch initproc, .call .kfork, .run true, .run true, .run true, .run true,
    .call (.kwait 4096), .run true, .dispatch firstChild, .call (.kexit 7),
    .dispatch initproc, .run true]

/-- The `kwait` of `init` then reaps the child and gets its status. -/
theorem process_tree_fork_exit :
    ∃ s s' : ProcTable, ProcReach s ∧ s.step (.run true) = some s' ∧
      s'.history = .reaped initproc firstChild 7 :: s.history ∧ (s.procs firstChild).parent = some initproc ∧
      lastOf firstChild s.history = some (.exited firstChild 7) := by
  have hrun : ((ProcTable.boot.steps forkExit).any fun s =>
      (s.step (.run true)).any fun s' =>
        decide (s'.history = .reaped initproc firstChild 7 :: s.history)) = true := by decide +kernel
  obtain ⟨s, hs, hrun⟩ := (Option.any_eq_true _ _).mp hrun
  obtain ⟨s', hs', hhist⟩ := (Option.any_eq_true _ _).mp hrun
  have hhist := of_decide_eq_true hhist
  have hreach : ProcReach s := ProcReach.steps .boot hs
  have ⟨_, hparent, _, hlast⟩ := (process_tree hreach).2.2.1 _ _ _ _ _ hs' hhist
  exact ⟨s, s', hreach, hs', hhist, hparent, hlast⟩

end YHsys.Kernel
