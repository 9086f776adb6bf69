import YHsys.Kernel.ProcRuns

/-!
# Who falls asleep and who is gone

What one event of the process table can do to the state and the channel of a slot
(`SlotStep`). Only `sleep` makes a sleeper, and only `kexit` empties a live slot.
-/

namespace YHsys.Kernel

open ProcTable (goto modify procs_modify_of_ne sched)

/-- The slot has no process that could run again. -/
def Proc.Gone (x : Proc) : Prop := x.state = .unused ∨ x.state = .zombie

/-- What an event can do to slot `q`; `run` is the running process. -/
inductive SlotStep (e : ProcEvent) (run : Option ProcId) (q : ProcId) (x x' : Proc) : Prop where
  /-- Its state stays, and its channel if it sleeps. -/
  | same (hstate : x'.state = x.state) (hchan : x.state = .sleeping → x'.chan = x.chan)
  /-- It is awake afterwards. -/
  | awake (h : x'.state = .used ∨ x'.state = .runnable ∨ x'.state = .running)
  /-- It has no process before or after. -/
  | gone (h : x.Gone) (h' : x'.Gone)
  | sleeps (c : ℕ) (he : e = .call (.sleep c)) (hchan : x'.chan = some (.other c))
      (hstate : x'.state = .sleeping)
  | waits (hchan : x'.chan = some (.proc q)) (hstate : x'.state = .sleeping)
  | exits (status : BitVec 32) (he : e = .call (.kexit status)) (hrun : run = some q)
      (hstate : x'.state = .zombie)

namespace SlotStep

variable {e : ProcEvent} {run : Option ProcId} {q : ProcId} {s s' : ProcTable}

theorem refl (x : Proc) : SlotStep e run q x x := .same rfl fun _ => rfl

theorem of_wakes (h : Wakes s s') (q : ProcId) : SlotStep e run q (s.procs q) (s'.procs q) := by
  rcases h.state q with hst | ⟨-, hst⟩
  · exact .same hst fun _ => h.chan q
  · exact .awake (.inr (.inl hst))

theorem update (p q : ProcId) (x : Proc) (h : SlotStep e run p (s.procs p) x) :
    SlotStep e run q (s.procs q) (Function.update s.procs p x q) := by
  by_cases hq : q = p
  · subst hq
    rwa [Function.update_self]
  · rw [Function.update_of_ne hq]
    exact refl _

end SlotStep

variable {s s' : ProcTable} {p q : ProcId} {e : ProcEvent}

theorem ProcTable.kexit_slot (hrun : s.running = some p) {status : BitVec 32}
    (hs : s.kexit p status = some s') :
    SlotStep (.call (.kexit status)) s.running q (s.procs q) (s'.procs q) := by
  unfold ProcTable.kexit at hs
  split at hs
  · cases hs
  · rename_i hinit
    cases hs
    by_cases hq : q = p
    · subst hq
      exact .exits status rfl hrun (by simp [sched, goto])
    · have hab := (TreeInv.abandon hinit hrun).wakes
      have hproc : ∀ t : ProcTable, (t.modify p fun x =>
          { x with xstate := status, state := .zombie }).procs q = t.procs q := fun t =>
        procs_modify_of_ne _ hq
      simp only [sched, goto, hproc]
      -- `adopt` changes parents only
      rcases hab.state q with hst | ⟨-, hst⟩
      · exact .same hst fun _ => hab.chan q
      · exact .awake (.inr (.inl hst))

theorem ProcTable.forkAlloc_slot (np : ProcId) (ok : Bool) :
    SlotStep e s.running q (s.procs q) ((s.forkAlloc p np ok).procs q) := by
  unfold ProcTable.forkAlloc
  split
  · rename_i hun
    by_cases hq : q = np
    · subst hq
      cases ok with
      | true => exact .awake (.inl (by simp [goto, modify]))
      | false => exact .gone (.inl hun) (.inl (by simp [goto, ProcTable.freeproc]))
    · cases ok with
      | true =>
        have : ((s.modify np fun x => { x with pid := s.nextpid, state := .used }).procs q) =
            s.procs q := procs_modify_of_ne _ hq
        simp only [goto, if_true, this]
        exact .refl _
      | false =>
        simp only [goto, ProcTable.freeproc, Bool.false_eq_true, if_false]
        rw [procs_modify_of_ne _ hq]
        simp only [procs_modify_of_ne _ hq]
        exact .refl _
  · exact .refl _

theorem ProcTable.killSlot_slot (v : ProcId) (pid : BitVec 32) :
    SlotStep e s.running q (s.procs q) ((s.killSlot p v pid).procs q) := by
  unfold ProcTable.killSlot
  split
  · refine .update v q { s.procs v with
      killed := true
      state := if (s.procs v).state = .sleeping then .runnable else (s.procs v).state } ?_
    by_cases hsl : (s.procs v).state = .sleeping
    · exact .awake (.inr (.inl (by simp [hsl])))
    · exact .same (by simp [hsl]) fun h => absurd h hsl
  · exact .refl _

theorem ProcTable.run_slot (hp : (s.procs p).state ≠ .sleeping) {b : Bool}
    (hs : s.run p b = some s') : SlotStep e s.running q (s.procs q) (s'.procs q) := by
  unfold ProcTable.run at hs
  split at hs
  · cases hs
  · cases hs
  · split at hs
    · cases hs
      exact ProcTable.forkAlloc_slot _ b
    · cases hs
      exact .refl _
  · rename_i np _
    cases hs
    exact .update np q { s.procs np with parent := some p } (.same rfl fun _ => rfl)
  · rename_i np _
    cases hs
    exact .update np q { s.procs np with state := .runnable } (.awake (.inr (.inl rfl)))
  · rename_i addr _
    cases hs
    have hout := s.kwait_outcome p addr b
    generalize s.kwait p addr b = t at hout ⊢
    cases hout with
    | reaps pp hparent hz =>
      exact .update pp q ⟨.unused, none, false, 0, 0, none⟩ (.gone (.inr hz) (.inl rfl))
    | returns => exact .refl _
    | sleeps hkids =>
      exact .update p q { s.procs p with chan := some (.proc p), state := .sleeping }
        (.waits rfl rfl)
  · cases hs
    exact .update p q { s.procs p with chan := none } (.same rfl fun h => absurd h hp)
  · cases hs
    exact .update p q { s.procs p with chan := none } (.same rfl fun h => absurd h hp)
  · split at hs
    · cases hs
      exact ProcTable.killSlot_slot _ _
    · cases hs
      exact .refl _

theorem ProcTable.call_slot (hrun : s.running = some p) {c : ProcCall}
    (hs : s.call p c = some s') : SlotStep (.call c) s.running q (s.procs q) (s'.procs q) := by
  cases c with
  | kexit status => exact ProcTable.kexit_slot hrun hs
  | sleep c =>
    cases hs
    exact .update p q { s.procs p with chan := some (.other c), state := .sleeping }
      (.sleeps c rfl rfl rfl)
  | setkilled =>
    cases hs
    exact .update p q { s.procs p with killed := true } (.same rfl fun _ => rfl)
  | kfork | kwait | kkill =>
    cases hs
    exact .refl _

theorem ProcTable.step_slot (h : TreeInv s) (hs : s.step e = some s') (q : ProcId) :
    SlotStep e s.running q (s.procs q) (s'.procs q) := by
  cases e with
  | dispatch p =>
    simp only [ProcTable.step] at hs
    split at hs
    · cases hs
      exact .update p q { s.procs p with state := .running } (.awake (.inr (.inr rfl)))
    · cases hs
  | yield =>
    obtain ⟨p, -, hs⟩ := Option.bind_eq_some_iff.mp hs
    split at hs
    · cases hs
      exact .update p q { s.procs p with state := .runnable } (.awake (.inr (.inl rfl)))
    · cases hs
  | call c =>
    obtain ⟨p, hrun, hs⟩ := Option.bind_eq_some_iff.mp hs
    split at hs
    · exact ProcTable.call_slot hrun hs
    · cases hs
  | run b =>
    obtain ⟨p, hrun, hs⟩ := Option.bind_eq_some_iff.mp hs
    have hp : (s.procs p).state ≠ .sleeping := by
      rw [(h.running p).mp hrun]
      rintro ⟨⟩
    exact ProcTable.run_slot hp hs
  | wakeup c =>
    rw [← Option.some.inj hs]
    exact .of_wakes (s.wakeup_wakes _) q

/-! ## Sleepers and empty slots -/

/-- Slot `q` sleeps on channel `c`. -/
def ProcTable.Asleep (s : ProcTable) (q : ProcId) (c : ℕ) : Prop :=
  (s.procs q).state = .sleeping ∧ (s.procs q).chan = some (.other c)

theorem ProcTable.step_asleep (h : TreeInv s) (hs : s.step e = some s') {c : ℕ}
    (hq : s'.Asleep q c) : s.Asleep q c ∨ e = .call (.sleep c) := by
  obtain ⟨hst, hch⟩ := hq
  cases ProcTable.step_slot h hs q with
  | same hstate hchan =>
    rw [hstate] at hst
    exact .inl ⟨hst, (hchan hst).symm.trans hch⟩
  | awake h =>
    rw [hst] at h
    simp at h
  | gone _ h' =>
    rw [Proc.Gone, hst] at h'
    simp at h'
  | sleeps c' he hchan =>
    rw [hch] at hchan
    cases hchan
    exact .inr he
  | waits hchan =>
    rw [hch] at hchan
    cases hchan
  | exits _ _ _ hstate =>
    rw [hst] at hstate
    cases hstate

theorem ProcTable.step_gone (h : TreeInv s) (hs : s.step e = some s')
    (hq : (s'.procs q).Gone) :
    (s.procs q).Gone ∨ ∃ status, e = .call (.kexit status) ∧ s.running = some q := by
  cases ProcTable.step_slot h hs q with
  | same hstate _ =>
    rw [Proc.Gone, hstate] at hq
    exact .inl hq
  | awake h => rcases hq with hq | hq <;> rw [hq] at h <;> simp at h
  | gone h _ => exact .inl h
  | sleeps _ _ _ hst => rcases hq with hq | hq <;> rw [hst] at hq <;> cases hq
  | waits _ hst => rcases hq with hq | hq <;> rw [hst] at hq <;> cases hq
  | exits status he hrun _ => exact .inr ⟨status, he, hrun⟩

/-- Only a call of `kfork` brings a thread to the loop of `allocproc`. -/
theorem ProcTable.step_forkScan (hs : s.step e = some s') {i : ℕ} (hq : s'.pc q = .forkScan i) :
    (∃ j, s.pc q = .forkScan j) ∨ e = .call .kfork ∧ s.running = some q := by
  -- a thread that goes to another point is not in the loop, or was there before
  have hgoto : ∀ {p : ProcId} {pc : Pc}, Function.update s.pc p pc q = .forkScan i →
      (p = q → pc = .forkScan i → (∃ j, s.pc q = .forkScan j) ∨
        e = .call .kfork ∧ s.running = some q) →
      (∃ j, s.pc q = .forkScan j) ∨ e = .call .kfork ∧ s.running = some q := by
    intro p pc hpc hcase
    rw [Function.update_apply] at hpc
    split at hpc
    · rename_i hqp
      exact hcase hqp.symm hpc
    · exact .inl ⟨i, hpc⟩
  cases e with
  | dispatch p =>
    simp only [ProcTable.step] at hs
    split at hs
    · cases hs
      exact .inl ⟨i, hq⟩
    · cases hs
  | yield =>
    obtain ⟨p, -, hs⟩ := Option.bind_eq_some_iff.mp hs
    split at hs
    · cases hs
      exact .inl ⟨i, hq⟩
    · cases hs
  | call c =>
    obtain ⟨p, hrun, hs⟩ := Option.bind_eq_some_iff.mp hs
    split at hs
    · cases c with
      | kexit status =>
        simp only [ProcTable.call, ProcTable.kexit] at hs
        split at hs
        · cases hs
        · rename_i hinit
          cases hs
          have hpc := (TreeInv.abandon hinit hrun).wakes.pc
          simp only [sched, goto, modify, hpc] at hq
          exact hgoto hq fun _ => (by rintro ⟨⟩)
      | sleep c =>
        cases hs
        exact hgoto hq fun _ => (by rintro ⟨⟩)
      | setkilled =>
        cases hs
        exact .inl ⟨i, hq⟩
      | kfork =>
        cases hs
        exact hgoto hq fun hpq _ => .inr ⟨rfl, hpq ▸ hrun⟩
      | kwait addr =>
        cases hs
        exact hgoto hq fun _ => (by rintro ⟨⟩)
      | kkill pid =>
        cases hs
        exact hgoto hq fun _ => (by rintro ⟨⟩)
    · cases hs
  | run b =>
    obtain ⟨p, -, hs⟩ := Option.bind_eq_some_iff.mp hs
    unfold ProcTable.run at hs
    split at hs
    · cases hs
    · cases hs
    · rename_i j hpc
      split at hs
      · rename_i hj
        cases hs
        unfold ProcTable.forkAlloc at hq
        split at hq
        · cases b with
          | true =>
            simp only [goto, modify, if_true, Function.update_apply] at hq
            split at hq
            · cases hq
            · split at hq
              · cases hq
              · exact .inl ⟨i, hq⟩
          | false => exact hgoto hq fun _ => (by rintro ⟨⟩)
        · exact hgoto hq fun hpq _ => .inl ⟨j, hpq ▸ hpc⟩
      · cases hs
        exact hgoto hq fun _ => (by rintro ⟨⟩)
    · cases hs
      exact hgoto hq fun _ => (by rintro ⟨⟩)
    · cases hs
      exact hgoto hq fun _ => (by rintro ⟨⟩)
    · rename_i addr _
      cases hs
      have hout := s.kwait_outcome p addr b
      generalize s.kwait p addr b = t at hout hq
      cases hout <;> exact hgoto hq fun _ => (by rintro ⟨⟩)
    · cases hs
      exact hgoto hq fun _ => (by rintro ⟨⟩)
    · cases hs
      exact hgoto hq fun _ => (by rintro ⟨⟩)
    · split at hs
      · cases hs
        unfold ProcTable.killSlot at hq
        split at hq
        · exact hgoto hq fun _ => (by rintro ⟨⟩)
        · exact hgoto hq fun _ => (by rintro ⟨⟩)
      · cases hs
        exact hgoto hq fun _ => (by rintro ⟨⟩)
  | wakeup c =>
    rw [← Option.some.inj hs, (s.wakeup_wakes _).pc] at hq
    exact .inl ⟨i, hq⟩

end YHsys.Kernel
