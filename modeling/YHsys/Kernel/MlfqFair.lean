import Mathlib.Data.Fintype.Pi
import YHsys.Kernel.Mlfq

/-!
# Round robin inside a level

A process that waits at a level keeps its stamp, and a process that is dispatched gets a
stamp above all others, as long as `mlfq_seq` does not wrap around; then the process that
was dispatched once is behind the one that waits. At the wraparound the order is lost.
-/

namespace YHsys.Kernel

open Option (any_eq_true ite_none_right_eq_some map_eq_some_iff)

namespace Sched

/-- The slot, number and level of the process that an event dispatches. -/
def dispatched (s : Sched) : SchedEvent → Option (ProcId × ℕ × ℤ)
  | .schedule => (scan s.boost.procs).best.map fun b =>
    (b, (s.boost.procs b).inst, (s.boost.procs b).level)
  | _ => none

/-- The process that an event dispatches from level `L`, as a list. -/
def dispatchedFrom (s : Sched) (L : ℤ) (e : SchedEvent) : List (ProcId × ℕ) :=
  match s.dispatched e with
  | some (b, i, l) => if l = L then [(b, i)] else []
  | none => []

/-- Process `p` waits at level `L`. -/
def WaitsAt (s : Sched) (p : ProcId) (L : ℤ) : Prop :=
  (s.procs p).state = .runnable ∧ (s.procs p).level = L

instance (s : Sched) (p : ProcId) (L : ℤ) : Decidable (s.WaitsAt p L) :=
  inferInstanceAs (Decidable (_ ∧ _))

/-- `mlfq_seq` does not wrap around. -/
def NoWrap (s : Sched) (e : SchedEvent) : Prop := s.dispatched e ≠ none → s.seq ≠ 0xffffffff

instance (s : Sched) (e : SchedEvent) : Decidable (s.NoWrap e) :=
  inferInstanceAs (Decidable (_ → _))

end Sched

/-- A piece of a run from `s` during which `p` waits at level `L` and whose steps meet `C`;
the list has the processes dispatched from that level. -/
inductive Waits (C : Sched → SchedEvent → Prop) (p : ProcId) (L : ℤ) (s : Sched) :
    List (ProcId × ℕ) → Sched → Prop where
  | start (hp : s.WaitsAt p L) : Waits C p L s [] s
  | step {s' s'' : Sched} {ds : List (ProcId × ℕ)} {e : SchedEvent} (hw : Waits C p L s ds s')
      (hc : C s' e) (he : s'.step e = some s'') (hp : s''.WaitsAt p L) :
      Waits C p L s (ds ++ s'.dispatchedFrom L e) s''

/-! ## What an event does to a slot -/

/-- What can happen to slot `q` from `s` to `s'`. -/
inductive SlotMove (s : Sched) (e : SchedEvent) (s' : Sched) (q : ProcId) : Prop where
  | same (hinst : (s'.procs q).inst = (s.procs q).inst)
      (hstamp : (s'.procs q).stamp = (s.procs q).stamp)
      (hused : (s'.procs q).state ≠ .unused → (s.procs q).state ≠ .unused)
  | runs (l : ℤ) (hd : s.dispatched e = some (q, (s.procs q).inst, l))
      (hinst : (s'.procs q).inst = (s.procs q).inst) (hstamp : (s'.procs q).stamp = s.seq + 1)
      (hold : (s.procs q).state = .runnable) (hstate : (s'.procs q).state = .running)
  | fresh (hinst : (s'.procs q).inst = s.nextInst) (hstamp : (s'.procs q).stamp = 0)
      (hstate : (s'.procs q).state = .used ∨ (s'.procs q).state = .unused)
      (hnext : s'.nextInst = s.nextInst + 1)
  | free (hinst : (s'.procs q).inst = (s.procs q).inst) (hstamp : (s'.procs q).stamp = 0)
      (hstate : (s'.procs q).state = .unused)

namespace SlotMove

variable {s s' : Sched} {e : SchedEvent} {p q : ProcId}

theorem refl (h : s'.procs q = s.procs q) : SlotMove s e s' q :=
  .same (by rw [h]) (by rw [h]) (by rw [h]; exact id)

theorem update {x : SchedProc} (hprocs : s'.procs = Function.update s.procs p x)
    (hp : s'.procs p = x → SlotMove s e s' p) : SlotMove s e s' q := by
  by_cases hq : q = p
  · subst hq
    exact hp (by rw [hprocs, Function.update_self])
  · exact refl (by rw [hprocs, Function.update_of_ne hq])

end SlotMove

namespace Sched

variable {s s' : Sched} {e : SchedEvent}

theorem boost_slot (s : Sched) (q : ProcId) :
    (s.boost.procs q).state = (s.procs q).state ∧ (s.boost.procs q).stamp = (s.procs q).stamp ∧
      (s.boost.procs q).inst = (s.procs q).inst := by
  unfold boost
  split
  · simp only [SchedProc.mlfqBoost]
    split <;> simp
  · simp

theorem boost_rest (s : Sched) :
    s.boost.seq = s.seq ∧ s.boost.nextInst = s.nextInst ∧ s.boost.running = s.running := by
  unfold boost
  split
  · exact ⟨rfl, rfl, rfl⟩
  · exact ⟨rfl, rfl, rfl⟩

theorem tick_eq (s : Sched) : ∃ needBoost,
    s.tick = { s with ticks := s.ticks + 1, needBoost } ∨
      ∃ p, s.tick = { s.set p (s.procs p).mlfqTick with ticks := s.ticks + 1, needBoost } := by
  unfold tick
  simp only
  split
  · split
    · split
      · exact ⟨true, .inr ⟨_, rfl⟩⟩
      · exact ⟨s.needBoost, .inr ⟨_, rfl⟩⟩
    · split
      · exact ⟨true, .inl rfl⟩
      · exact ⟨s.needBoost, .inl rfl⟩
  · split
    · exact ⟨true, .inl rfl⟩
    · exact ⟨s.needBoost, .inl rfl⟩

theorem mlfqTick_slot (x : SchedProc) : x.mlfqTick.state = x.state ∧ x.mlfqTick.stamp = x.stamp ∧
    x.mlfqTick.inst = x.inst := by
  unfold SchedProc.mlfqTick
  simp only
  split <;> simp

theorem tick_slot (s : Sched) (q : ProcId) :
    (s.tick.procs q).state = (s.procs q).state ∧ (s.tick.procs q).stamp = (s.procs q).stamp ∧
      (s.tick.procs q).inst = (s.procs q).inst := by
  obtain ⟨needBoost, heq | ⟨p, heq⟩⟩ := s.tick_eq
  · rw [heq]
    exact ⟨rfl, rfl, rfl⟩
  · simp only [heq, set, Function.update_apply]
    split
    · rename_i hq
      rw [hq]
      exact mlfqTick_slot _
    · exact ⟨rfl, rfl, rfl⟩

theorem tick_rest (s : Sched) :
    s.tick.seq = s.seq ∧ s.tick.nextInst = s.nextInst ∧ s.tick.running = s.running := by
  obtain ⟨needBoost, heq | ⟨p, heq⟩⟩ := s.tick_eq
  · rw [heq]
    exact ⟨rfl, rfl, rfl⟩
  · rw [heq]
    exact ⟨rfl, rfl, rfl⟩

theorem dispatch_self (s : Sched) (b : ProcId) : (s.dispatch b).procs b =
    { s.procs b with state := .running, stamp := s.seq + 1 } :=
  Function.update_self ..

theorem dispatch_of_ne (s : Sched) {b q : ProcId} (h : q ≠ b) :
    (s.dispatch b).procs q = s.procs q :=
  Function.update_of_ne h ..

/-- The process on the CPU is `RUNNING`. -/
def RunningOk (s : Sched) : Prop := ∀ p, s.running = some p → (s.procs p).state = .running

theorem RunningOk.set (h : s.RunningOk) {p : ProcId} {x : SchedProc}
    (hp : (s.procs p).state ≠ .running) {n : ℕ} :
    { s.set p x with nextInst := n }.RunningOk := by
  intro q hq
  have hne : q ≠ p := by
    rintro rfl
    exact hp (h q hq)
  change (Function.update s.procs p x q).state = _
  rw [Function.update_of_ne hne]
  exact h q hq

theorem schedule_running (s : Sched) (hrun : s.running = none) : s.schedule.RunningOk := by
  unfold schedule
  split
  · rename_i b hb
    rintro p hp
    cases hp
    rw [dispatch_self]
  · intro p hp
    rw [s.boost_rest.2.2, hrun] at hp
    cases hp

theorem tick_running (h : s.RunningOk) : s.tick.RunningOk := by
  intro p hp
  rw [(s.tick_slot p).1]
  exact h p (s.tick_rest.2.2 ▸ hp)

theorem step_running (h : s.RunningOk) (he : s.step e = some s') : s'.RunningOk := by
  cases e with
  | schedule =>
    simp only [step, ite_none_right_eq_some, Option.some.injEq] at he
    obtain ⟨hrun, rfl⟩ := he
    exact schedule_running s hrun
  | tick =>
    cases he
    exact tick_running h
  | yield fromTimer | sleep | exit =>
    obtain ⟨p, -, rfl⟩ := map_eq_some_iff.mp he
    exact nofun
  | wake q | ready q | reap q =>
    simp only [step, ite_none_right_eq_some, Option.some.injEq] at he
    obtain ⟨hstate, rfl⟩ := he
    exact h.set (n := s.nextInst) (by simp [hstate])
  | fork np ok =>
    simp only [step, ite_none_right_eq_some, Option.some.injEq] at he
    obtain ⟨⟨-, hstate⟩, rfl⟩ := he
    exact h.set (by simp [hstate])

theorem step_move (h : s.RunningOk) (he : s.step e = some s') (q : ProcId) :
    SlotMove s e s' q := by
  cases e with
  | schedule =>
    simp only [step, ite_none_right_eq_some, Option.some.injEq] at he
    obtain ⟨-, rfl⟩ := he
    obtain ⟨hstate, hstamp, hinst⟩ := s.boost_slot q
    unfold schedule
    split
    · rename_i b hb
      by_cases hq : q = b
      · subst hq
        have hself := s.boost.dispatch_self q
        have hrun := ((scan_best s.boost.procs).best q hb).1
        refine .runs (s.boost.procs q).level ?_ ?_ ?_ (hstate ▸ hrun) ?_
        · rw [dispatched, hb, ← hinst]
          rfl
        · rw [hself]
          exact hinst
        · rw [hself, s.boost_rest.1]
        · rw [hself]
      · have hother := s.boost.dispatch_of_ne hq
        exact .same (by rw [hother, hinst]) (by rw [hother, hstamp])
          (by rw [hother, hstate]; exact id)
    · exact .same hinst hstamp (by rw [hstate]; exact id)
  | tick =>
    cases he
    obtain ⟨hstate, hstamp, hinst⟩ := s.tick_slot q
    exact .same hinst hstamp (by rw [hstate]; exact id)
  | yield fromTimer =>
    obtain ⟨p, hp, rfl⟩ := map_eq_some_iff.mp he
    refine .update rfl fun hx => .same ?_ ?_ fun _ => by simp [h p hp]
    · rw [hx]
      cases fromTimer <;> rfl
    · rw [hx]
      cases fromTimer <;> rfl
  | sleep =>
    obtain ⟨p, hp, rfl⟩ := map_eq_some_iff.mp he
    exact .update rfl fun hx => .same (by rw [hx]; rfl) (by rw [hx]; rfl) fun _ => by simp [h p hp]
  | exit =>
    obtain ⟨p, hp, rfl⟩ := map_eq_some_iff.mp he
    exact .update rfl fun hx => .same (by rw [hx]) (by rw [hx]) fun _ => by simp [h p hp]
  | wake q' | ready q' =>
    simp only [step, ite_none_right_eq_some, Option.some.injEq] at he
    obtain ⟨hstate, rfl⟩ := he
    exact .update rfl fun hx => .same (by rw [hx]) (by rw [hx]) fun _ => by simp [hstate]
  | fork np ok =>
    simp only [step, ite_none_right_eq_some, Option.some.injEq] at he
    obtain ⟨-, rfl⟩ := he
    refine .update rfl fun hx => .fresh (by rw [hx]) (by rw [hx]; rfl) ?_ rfl
    rw [hx]
    cases ok
    · exact .inr rfl
    · exact .inl rfl
  | reap q' =>
    simp only [step, ite_none_right_eq_some, Option.some.injEq] at he
    obtain ⟨-, rfl⟩ := he
    exact .update rfl fun hx => .free (by rw [hx]; rfl) (by rw [hx]; rfl) (by rw [hx])

theorem step_seq (he : s.step e = some s') :
    s'.seq = if s.dispatched e = none then s.seq else s.seq + 1 := by
  cases e with
  | schedule =>
    simp only [step, ite_none_right_eq_some, Option.some.injEq] at he
    obtain ⟨-, rfl⟩ := he
    cases hb : (scan s.boost.procs).best with
    | none =>
      simp only [schedule, dispatched, hb, Option.map_none, if_true]
      exact s.boost_rest.1
    | some b =>
      simp only [schedule, dispatched, hb, Option.map_some, reduceCtorEq, if_false]
      exact congrArg (· + 1) s.boost_rest.1
  | tick =>
    cases he
    exact s.tick_rest.1
  | yield fromTimer | sleep | exit =>
    obtain ⟨p, -, rfl⟩ := map_eq_some_iff.mp he
    rfl
  | wake q | ready q | reap q | fork np ok =>
    simp only [step, ite_none_right_eq_some, Option.some.injEq] at he
    obtain ⟨-, rfl⟩ := he
    rfl

theorem step_nextInst (he : s.step e = some s') : s.nextInst ≤ s'.nextInst := by
  cases e with
  | schedule =>
    simp only [step, ite_none_right_eq_some, Option.some.injEq] at he
    obtain ⟨-, rfl⟩ := he
    unfold schedule
    split
    · exact s.boost_rest.2.1.ge
    · exact s.boost_rest.2.1.ge
  | tick =>
    cases he
    exact s.tick_rest.2.1.ge
  | yield fromTimer | sleep | exit =>
    obtain ⟨p, -, rfl⟩ := map_eq_some_iff.mp he
    exact le_rfl
  | wake q | ready q | reap q =>
    simp only [step, ite_none_right_eq_some, Option.some.injEq] at he
    obtain ⟨-, rfl⟩ := he
    exact le_rfl
  | fork np ok =>
    simp only [step, ite_none_right_eq_some, Option.some.injEq] at he
    obtain ⟨-, rfl⟩ := he
    exact Nat.le_succ _

theorem dispatched_before {p b : ProcId} {i : ℕ} {L l : ℤ} (he : s.step e = some s')
    (hp : s.WaitsAt p L) (hp' : s'.WaitsAt p L) (hd : s.dispatched e = some (b, i, l)) :
    (s.procs b).inst = i ∧ (s.procs b).state = .runnable ∧ (s'.procs b).stamp = s.seq + 1 ∧
      (l = L → (s.procs b).stamp.toNat ≤ (s.procs p).stamp.toNat) := by
  cases e with
  | schedule =>
    obtain ⟨b', hb, hpair⟩ := map_eq_some_iff.mp hd
    cases hpair
    obtain ⟨-, hsched⟩ : s.running = none ∧ s.schedule = s' := by simpa [step] using he
    have hs' : s.boost.dispatch b = s' := by rw [← hsched, schedule, hb]
    have hne : p ≠ b := by
      -- `b` is RUNNING now and `p` still waits
      rintro rfl
      simp [← hs', dispatch_self, WaitsAt] at hp'
    have hother : s'.procs p = s.boost.procs p := by rw [← hs', dispatch_of_ne _ hne]
    obtain ⟨hbstate, hbstamp, hbinst⟩ := s.boost_slot b
    obtain ⟨hpstate, hpstamp, -⟩ := s.boost_slot p
    obtain ⟨hrun, hbest⟩ := scan_some hb (p := p) (hpstate ▸ hp.1)
    refine ⟨hbinst.symm, hbstate ▸ hrun, by rw [← hs', dispatch_self, s.boost_rest.1], fun hl => ?_⟩
    have hlevel : (s.boost.procs p).level = L := hother ▸ hp'.2
    rw [hlevel, hl] at hbest
    rw [← hbstamp, ← hpstamp]
    omega
  | _ => cases hd

end Sched

/-! ## Runs -/

structure SchedInv (s : Sched) : Prop where
  running : s.RunningOk
  insts : ∀ q, (s.procs q).inst < s.nextInst

namespace SchedInv

variable {s s' : Sched} {e : SchedEvent}

theorem boot : SchedInv .boot where
  running := nofun
  insts _ := Nat.one_pos

theorem step (h : SchedInv s) (he : s.step e = some s') : SchedInv s' := by
  refine ⟨Sched.step_running h.running he, fun q => ?_⟩
  have hnext := Sched.step_nextInst he
  cases Sched.step_move h.running he q with
  | same hinst | runs _ _ hinst | free hinst => exact hinst ▸ (h.insts q).trans_le hnext
  | fresh hinst _ _ hnew => omega

end SchedInv

theorem SchedReach.inv {C : Sched → SchedEvent → Prop} {s : Sched} (hs : SchedReach C s) :
    SchedInv s := by
  induction hs with
  | boot => exact .boot
  | step hs hc he ih => exact ih.step he

theorem toNat_add_one {x : BitVec 32} (h : x ≠ 0xffffffff) : (x + 1).toNat = x.toNat + 1 := by
  bv_omega

theorem seq_le_step {s s' : Sched} {e : SchedEvent} (hc : s.NoWrap e) (he : s.step e = some s') :
    s.seq.toNat ≤ s'.seq.toNat := by
  rw [Sched.step_seq he]
  split
  · exact le_rfl
  · rw [toNat_add_one (hc ‹_›)]
    exact Nat.le_succ _

/-! ## The dispatches while a process waits -/

/-- Whoever was dispatched while `p` waits has a later stamp than `p`. -/
structure Behind (p : ProcId) (ds : List (ProcId × ℕ)) (s : Sched) : Prop where
  inv : SchedInv s
  stamp : (s.procs p).stamp.toNat ≤ s.seq.toNat
  old : ∀ d ∈ ds, d.2 < s.nextInst
  later : ∀ d ∈ ds, (s.procs d.1).inst = d.2 → (s.procs d.1).state ≠ .unused →
    (s.procs p).stamp.toNat < (s.procs d.1).stamp.toNat
  once : ds.Nodup

namespace Behind

variable {s s' : Sched} {e : SchedEvent} {p : ProcId} {L : ℤ} {ds : List (ProcId × ℕ)}

theorem stamp_eq (h : SchedInv s) (he : s.step e = some s')
    (hp' : s'.WaitsAt p L) : (s'.procs p).stamp = (s.procs p).stamp := by
  cases Sched.step_move h.running he p with
  | same hinst hstamp => exact hstamp
  | runs l hd hinst hstamp hold hstate => cases hstate.symm.trans hp'.1
  | fresh hinst hstamp hstate => rcases hstate with h | h <;> cases h.symm.trans hp'.1
  | free hinst hstamp hstate => cases hstate.symm.trans hp'.1

theorem later_step (h : Behind p ds s) (hc : s.NoWrap e)
    (he : s.step e = some s') (hp' : s'.WaitsAt p L) {d : ProcId × ℕ} (hd : d ∈ ds)
    (hinst' : (s'.procs d.1).inst = d.2) (hused : (s'.procs d.1).state ≠ .unused) :
    (s'.procs p).stamp.toNat < (s'.procs d.1).stamp.toNat := by
  rw [stamp_eq h.inv he hp']
  cases Sched.step_move h.inv.running he d.1 with
  | same hinst hstamp hold =>
    rw [hstamp]
    exact h.later d hd (hinst ▸ hinst') (hold hused)
  | runs l hdis hinst hstamp =>
    rw [hstamp, toNat_add_one (hc (by simp [hdis]))]
    exact Nat.lt_succ_of_le h.stamp
  | fresh hinst => exact absurd (hinst' ▸ hinst) (h.old d hd).ne
  | free hinst hstamp hstate => exact absurd hstate hused

theorem dispatchedFrom_cases (s : Sched) (L : ℤ) (e : SchedEvent) :
    s.dispatchedFrom L e = [] ∨
      ∃ b i, s.dispatched e = some (b, i, L) ∧ s.dispatchedFrom L e = [(b, i)] := by
  unfold Sched.dispatchedFrom
  split
  · rename_i b i l hd
    split
    · rename_i hl
      exact .inr ⟨b, i, hl ▸ hd, rfl⟩
    · exact .inl rfl
  · exact .inl rfl

theorem step (h : Behind p ds s) (hp : s.WaitsAt p L) (hc : s.NoWrap e) (he : s.step e = some s')
    (hp' : s'.WaitsAt p L) : Behind p (ds ++ s.dispatchedFrom L e) s' := by
  have hinv := h.inv.step he
  have hle : (s'.procs p).stamp.toNat ≤ s'.seq.toNat := by
    rw [stamp_eq h.inv he hp']
    exact h.stamp.trans (seq_le_step hc he)
  have hold : ∀ d ∈ ds, d.2 < s'.nextInst := fun d hd =>
    (h.old d hd).trans_le (Sched.step_nextInst he)
  obtain hnil | ⟨b, i, hd, hone⟩ := dispatchedFrom_cases s L e
  · rw [hnil, List.append_nil]
    exact ⟨hinv, hle, hold, fun d hd => h.later_step hc he hp' hd, h.once⟩
  · rw [hone]
    obtain ⟨hinst, hrun, hnext, hstamp⟩ := Sched.dispatched_before he hp hp' hd
    -- `b` was not dispatched before: its stamp is not above that of `p`
    have hnew : (b, i) ∉ ds := by
      intro hmem
      have hlater := h.later (b, i) hmem hinst (by simp [hrun])
      exact absurd (hstamp rfl) (Nat.not_le.mpr hlater)
    have hself : (s'.procs p).stamp.toNat < (s'.procs b).stamp.toNat := by
      rw [stamp_eq h.inv he hp', hnext, toNat_add_one (hc (by simp [hd]))]
      exact Nat.lt_succ_of_le h.stamp
    refine ⟨hinv, hle, ?_, ?_, ?_⟩
    · intro d hmem
      rcases List.mem_append.mp hmem with hmem | hmem
      · exact hold d hmem
      · cases List.mem_singleton.mp hmem
        exact hinst ▸ (h.inv.insts b).trans_le (Sched.step_nextInst he)
    · intro d hmem hinst' hused
      rcases List.mem_append.mp hmem with hmem | hmem
      · exact h.later_step hc he hp' hmem hinst' hused
      · cases List.mem_singleton.mp hmem
        exact hself
    · exact List.nodup_append.mpr ⟨h.once, List.nodup_singleton _, by
        rintro d hd _ hmem rfl
        cases List.mem_singleton.mp hmem
        exact hnew hd⟩

end Behind

theorem Waits.behind {s s' : Sched} {p : ProcId} {L : ℤ} {ds : List (ProcId × ℕ)}
    (hs : SchedInv s) (hstamp : (s.procs p).stamp.toNat ≤ s.seq.toNat)
    (hw : Waits Sched.NoWrap p L s ds s') : Behind p ds s' ∧ s'.WaitsAt p L := by
  induction hw with
  | start hp => exact ⟨⟨hs, hstamp, nofun, nofun, .nil⟩, hp⟩
  | step hw hc he hp ih => exact ⟨ih.1.step ih.2 hc he hp, hp⟩

/-- Round robin: while `p` waits at level `L`, no process is dispatched from `L` twice, if
the stamp of `p` is not above `mlfq_seq` when the wait begins and `mlfq_seq` does not wrap
around before it ends. -/
theorem mlfq_round_robin {s s' : Sched} {p : ProcId} {L : ℤ} {ds : List (ProcId × ℕ)}
    (hs : SchedReach (fun _ _ => True) s) (hstamp : (s.procs p).stamp.toNat ≤ s.seq.toNat)
    (hw : Waits Sched.NoWrap p L s ds s') (d : ProcId × ℕ) : ds.count d ≤ 1 :=
  List.nodup_iff_count_le_one.mp (hw.behind hs.inv hstamp).1.once d

/-! ## Runs of given events -/

namespace Sched

def steps (s : Sched) (es : List SchedEvent) : Option Sched := es.foldlM step s

/-- The events `es` from `s` while `p` waits at level `L` and the steps meet `C`, with the
dispatches from `L`. -/
def waitSteps (C : Sched → SchedEvent → Prop) [∀ s e, Decidable (C s e)] (p : ProcId) (L : ℤ)
    (s : Sched) : List (ProcId × ℕ) → List SchedEvent → Option (List (ProcId × ℕ) × Sched)
  | ds, [] => if s.WaitsAt p L then some (ds, s) else none
  | ds, e :: es =>
    if s.WaitsAt p L ∧ C s e then
      (s.step e).bind fun s' => waitSteps C p L s' (ds ++ s.dispatchedFrom L e) es
    else none

end Sched

theorem SchedReach.steps {s s' : Sched} {es : List SchedEvent}
    (hs : SchedReach (fun _ _ => True) s) (he : s.steps es = some s') :
    SchedReach (fun _ _ => True) s' := by
  induction es generalizing s with
  | nil =>
    cases he
    exact hs
  | cons e es ih =>
    rw [Sched.steps, List.foldlM_cons] at he
    obtain ⟨t, ht, he⟩ := Option.bind_eq_some_iff.mp he
    exact ih (hs.step trivial ht) he

section

variable {C : Sched → SchedEvent → Prop} [∀ s e, Decidable (C s e)] {p : ProcId} {L : ℤ}
  {s t : Sched} {ds : List (ProcId × ℕ)} {es : List SchedEvent} {r : List (ProcId × ℕ) × Sched}

theorem waitsAt_of_waitSteps (he : t.waitSteps C p L ds es = some r) : t.WaitsAt p L := by
  cases es with
  | nil => exact (ite_none_right_eq_some.mp he).1
  | cons e es => exact (ite_none_right_eq_some.mp he).1.1

theorem Waits.append_waitSteps (hw : Waits C p L s ds t)
    (he : t.waitSteps C p L ds es = some r) : Waits C p L s r.1 r.2 := by
  induction es generalizing t ds with
  | nil =>
    simp only [Sched.waitSteps, ite_none_right_eq_some, Option.some.injEq] at he
    obtain ⟨-, rfl⟩ := he
    exact hw
  | cons e es ih =>
    simp only [Sched.waitSteps, ite_none_right_eq_some] at he
    obtain ⟨⟨-, hc⟩, he⟩ := he
    obtain ⟨t', ht, he⟩ := Option.bind_eq_some_iff.mp he
    exact ih (hw.step hc ht (waitsAt_of_waitSteps he)) he

theorem Waits.of_waitSteps (he : s.waitSteps C p L [] es = some r) : Waits C p L s r.1 r.2 :=
  Waits.append_waitSteps (.start (waitsAt_of_waitSteps he)) he

end

/-- The slots after that of `initproc`. -/
def slotOne : ProcId := ⟨1, by decide⟩

def slotTwo : ProcId := ⟨2, by decide⟩

/-- The second process waits while the first, which was forked before it, runs. -/
theorem mlfq_round_robin_fork : ∃ s ds s', SchedReach (fun _ _ => True) s ∧
    Waits Sched.NoWrap slotTwo 0 s ds s' ∧ ds = [(slotOne, 1)] ∧ ∀ d, ds.count d ≤ 1 := by
  have hrun : ((Sched.boot.steps [.schedule, .fork slotOne true, .ready slotOne,
      .fork slotTwo true, .ready slotTwo]).any
      fun s => (s.procs slotTwo).stamp.toNat ≤ s.seq.toNat ∧
        (s.waitSteps Sched.NoWrap slotTwo 0 [] [.sleep, .schedule]).any
          fun r => r.1 = [(slotOne, 1)]) = true := by
    decide +kernel
  obtain ⟨s, hs, hs2⟩ := Option.any_eq_true _ _ |>.mp hrun
  obtain ⟨hstamp, hwait⟩ := of_decide_eq_true hs2
  obtain ⟨⟨ds, s'⟩, hr, hds⟩ := Option.any_eq_true _ _ |>.mp hwait
  have hreach := SchedReach.boot.steps hs
  have hw := Waits.of_waitSteps hr
  exact ⟨s, ds, s', hreach, hw, of_decide_eq_true hds, mlfq_round_robin hreach hstamp hw⟩

/-! ## The wraparound -/

namespace Sched

/-- `initproc` runs, its two children sleep and the counter is at `x`. -/
def alone (x : BitVec 32) : Sched where
  procs q :=
    if q = initproc then ⟨.running, 0, 0, x, 0⟩
    else if q = slotOne then ⟨.sleeping, 0, 0, 3, 1⟩
    else if q = slotTwo then ⟨.sleeping, 0, 0, 4, 2⟩
    else ⟨.unused, 0, 0, 0, 0⟩
  seq := x
  needBoost := false
  ticks := 0
  running := some initproc
  nextInst := 3

/-- The same with `initproc` woken and not yet running. -/
def woken (x : BitVec 32) : Sched :=
  { (alone x).set initproc ⟨.runnable, 0, 0, x, 0⟩ with running := none }

theorem alone_boot : boot.steps [.schedule, .fork slotOne true, .ready slotOne,
    .fork slotTwo true, .ready slotTwo, .sleep, .schedule, .sleep, .schedule, .sleep,
    .wake initproc, .schedule] = some (alone 5) := by
  have hrun : ((boot.steps [.schedule, .fork slotOne true, .ready slotOne,
      .fork slotTwo true, .ready slotTwo, .sleep, .schedule, .sleep, .schedule, .sleep,
      .wake initproc, .schedule]).any fun s => (∀ q, s.procs q = (alone 5).procs q) ∧ s.seq = 5 ∧
        s.needBoost = false ∧ s.ticks = 0 ∧ s.running = some initproc ∧ s.nextInst = 3) = true := by
    decide +kernel
  obtain ⟨s, hs, heq⟩ := any_eq_true _ _ |>.mp hrun
  obtain ⟨hprocs, hseq, hboost, hticks, hrunning, hnext⟩ := of_decide_eq_true heq
  rw [hs]
  exact congrArg some (Sched.ext (funext hprocs) hseq hboost hticks hrunning hnext)

theorem alone_woken (x : BitVec 32) :
    (alone x).steps [.sleep, .wake initproc] = some (woken x) := by
  simp [steps, step, woken, alone, set, SchedProc.rise]

theorem woken_init (x : BitVec 32) : (woken x).procs initproc = ⟨.runnable, 0, 0, x, 0⟩ := by
  simp [woken, set]

theorem scan_woken (x : BitVec 32) : (scan (woken x).procs).best = some initproc := by
  cases hb : (scan (woken x).procs).best with
  | none =>
    refine absurd hb (scan_ne_none (p := initproc) ?_ ?_)
    · rw [woken_init]
    · simp [woken_init, mlfqLevels]
  | some b =>
    have hrun := ((scan_best (woken x).procs).best b hb).1
    by_contra hne
    have hb' : b ≠ initproc := fun h => hne (congrArg some h)
    simp only [woken, set, Function.update_of_ne hb', alone, if_neg hb'] at hrun
    split at hrun
    · cases hrun
    · split at hrun <;> cases hrun

theorem woken_schedule (x : BitVec 32) : (woken x).step .schedule = some (alone (x + 1)) := by
  have hschedule : (woken x).schedule = (woken x).dispatch initproc := by
    have hboost : (woken x).boost = woken x := rfl
    rw [schedule, hboost, scan_woken]
  have hprocs : ((woken x).dispatch initproc).procs = (alone (x + 1)).procs := by
    funext q
    by_cases hq : q = initproc
    · subst hq
      rw [dispatch_self, woken_init]
      rfl
    · rw [dispatch_of_ne _ hq]
      simp [woken, set, alone, hq]
  have hrunning : (woken x).running = none := rfl
  rw [step, if_pos hrunning, hschedule]
  exact congrArg some (Sched.ext hprocs rfl rfl rfl rfl rfl)

theorem alone_step (x : BitVec 32) :
    (alone x).steps [.sleep, .wake initproc, .schedule] = some (alone (x + 1)) := by
  have hwoken := alone_woken x
  have hsplit : (alone x).steps [.sleep, .wake initproc, .schedule] =
      ((alone x).steps [.sleep, .wake initproc]).bind fun s => s.step .schedule := by
    simp [steps, Option.bind_assoc]
  rw [hsplit, hwoken]
  exact woken_schedule x

end Sched

theorem reach_alone (n : ℕ) : SchedReach (fun _ _ => True) (.alone (5 + BitVec.ofNat 32 n)) := by
  induction n with
  | zero => exact SchedReach.boot.steps Sched.alone_boot
  | succ n ih =>
    have hnext : 5 + BitVec.ofNat 32 (n + 1) = 5 + BitVec.ofNat 32 n + 1 := by
      rw [BitVec.ofNat_add, BitVec.add_assoc]
      rfl
    rw [hnext]
    exact ih.steps (Sched.alone_step _)

/-- The first child gets the last stamp, `0xffffffff`, and then waits at level 0 while the
second one, whose stamps start again at 1, runs twice. -/
theorem round_robin_wraps : ∃ s ds s', SchedReach (fun _ _ => True) s ∧
    Waits (fun _ _ => True) slotOne 0 s ds s' ∧ ds.count (slotTwo, 2) = 2 := by
  have hrun : ((Sched.steps (.alone 0xfffffffe) [.sleep, .wake slotOne, .schedule, .sleep,
      .wake initproc, .schedule, .wake slotOne]).any fun s =>
        (s.waitSteps (fun _ _ => True) slotOne 0 [] [.wake slotTwo, .sleep, .schedule,
          .wake initproc, .sleep, .schedule, .wake slotTwo, .sleep, .schedule]).any
            fun r => r.1.count (slotTwo, 2) = 2) = true := by
    decide +kernel
  obtain ⟨s, hs, hwait⟩ := Option.any_eq_true _ _ |>.mp hrun
  obtain ⟨⟨ds, s'⟩, hr, hds⟩ := Option.any_eq_true _ _ |>.mp hwait
  have hreach : SchedReach (fun _ _ => True) (.alone 0xfffffffe) := reach_alone 0xfffffff9
  exact ⟨s, ds, s', hreach.steps hs, Waits.of_waitSteps hr, of_decide_eq_true hds⟩

end YHsys.Kernel
