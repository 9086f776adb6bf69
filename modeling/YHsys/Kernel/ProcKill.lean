import YHsys.Kernel.ProcRuns

/-!
# Who is marked killed

`allocproc` does not reset `killed`; it relies on `freeproc`. `kkill` compares pids without
looking at the state, and a free slot has pid 0, so `kkill(0)` marks the first free slot it
comes to: the next process in it starts killed. `KillOk` is the condition that no `kkill(0)`
looks at a free slot. In runs that meet it free slots are not marked.
-/

namespace YHsys.Kernel

/-- No `kkill(0)` looks at a free slot in this step. -/
def KillOk (s : ProcTable) (e : ProcEvent) : Prop :=
  ∀ p b i, s.running = some p → e = .run b → s.pc p = .kill 0 i →
    ∀ h : i < nproc, (s.procs ⟨i, h⟩).state ≠ .unused

/-- The step is a `kkill` of the pid of slot `q`, at that slot, or a `setkilled` by it. -/
def Marks (s : ProcTable) (e : ProcEvent) (q : ProcId) : Prop :=
  (∃ p b, s.running = some p ∧ e = .run b ∧ s.pc p = .kill (s.procs q).pid q) ∨
    s.running = some q ∧ e = .call .setkilled

/-- Runs whose steps meet `C`, with the states and events they go through. -/
inductive ProcTrace (C : ProcTable → ProcEvent → Prop) (s : ProcTable) :
    List (ProcTable × ProcEvent) → ProcTable → Prop where
  | nil : ProcTrace C s [] s
  | snoc {tr : List (ProcTable × ProcEvent)} {t t' : ProcTable} {e : ProcEvent}
      (ht : ProcTrace C s tr t) (hc : C t e) (he : t.step e = some t') :
      ProcTrace C s (tr ++ [(t, e)]) t'

theorem ProcTrace.reach {C : ProcTable → ProcEvent → Prop} {s t : ProcTable}
    {tr : List (ProcTable × ProcEvent)} (h : ProcTrace C s tr t) (hs : ProcReach s) :
    ProcReach t := by
  induction h with
  | nil => exact hs
  | snoc _ _ he ih => exact .step ih he

/-! ## What a step does to the mark of a slot -/

/-- Marks, pids and which slots are free stay. -/
structure SameMarks (s s' : ProcTable) : Prop where
  killed : ∀ q, (s'.procs q).killed = (s.procs q).killed
  pid : ∀ q, (s'.procs q).pid = (s.procs q).pid
  free : ∀ q, (s'.procs q).state = .unused ↔ (s.procs q).state = .unused
  running : s'.running = s.running

namespace SameMarks

variable {s s' s'' : ProcTable}

theorem refl (s : ProcTable) : SameMarks s s :=
  ⟨fun _ => rfl, fun _ => rfl, fun _ => Iff.rfl, rfl⟩

theorem trans (h : SameMarks s s') (h' : SameMarks s' s'') : SameMarks s s'' where
  killed q := (h'.killed q).trans (h.killed q)
  pid q := (h'.pid q).trans (h.pid q)
  free q := (h'.free q).trans (h.free q)
  running := h'.running.trans h.running

theorem modify {p : ProcId} {f : Proc → Proc} (hkilled : (f (s.procs p)).killed = (s.procs p).killed)
    (hpid : (f (s.procs p)).pid = (s.procs p).pid)
    (hfree : (f (s.procs p)).state = .unused ↔ (s.procs p).state = .unused) :
    SameMarks s (s.modify p f) := by
  have hslot : ∀ q, q ≠ p → (s.modify p f).procs q = s.procs q := fun q hq =>
    ProcTable.procs_modify_of_ne f hq
  have hself : (s.modify p f).procs p = f (s.procs p) := Function.update_self ..
  refine ⟨fun q => ?_, fun q => ?_, fun q => ?_, rfl⟩ <;> by_cases hq : q = p
  · rw [hq, hself, hkilled]
  · rw [hslot q hq]
  · rw [hq, hself, hpid]
  · rw [hslot q hq]
  · rw [hq, hself]
    exact hfree
  · rw [hslot q hq]

theorem foldl {f : ProcTable → ProcId → ProcTable} (hf : ∀ s p, SameMarks s (f s p))
    (l : List ProcId) (s : ProcTable) : SameMarks s (l.foldl f s) := by
  induction l generalizing s with
  | nil => exact refl s
  | cons p l ih => exact (hf s p).trans (ih _)

theorem wakeup (s : ProcTable) (c : Option Chan) : SameMarks s (s.wakeup c) := by
  refine foldl (fun s p => ?_) _ s
  unfold ProcTable.wakeupSlot
  split_ifs with _ hsleep
  · exact refl s
  · exact modify rfl rfl (by simp [hsleep.1])
  · exact refl s

theorem reparent (s : ProcTable) (p : ProcId) : SameMarks s (s.reparent p) := by
  refine foldl (fun s pp => ?_) _ s
  unfold ProcTable.reparentSlot
  split_ifs
  · exact (modify (f := fun x => { x with parent := some initproc }) rfl rfl Iff.rfl).trans
      (wakeup _ _)
  · exact refl s

theorem live (p : ProcId) {f : Proc → Proc} (hkilled : (f (s.procs p)).killed = (s.procs p).killed)
    (hpid : (f (s.procs p)).pid = (s.procs p).pid) (hp : (s.procs p).state ≠ .unused)
    (hf : (f (s.procs p)).state ≠ .unused) : SameMarks s (s.modify p f) :=
  modify hkilled hpid (by simp [hp, hf])

end SameMarks

/-- What an event can do to the mark of slot `q`. -/
inductive MarkStep (s : ProcTable) (e : ProcEvent) (q : ProcId) (x x' : Proc) : Prop where
  | same (hkilled : x'.killed = x.killed) (hpid : x'.pid = x.pid)
      (hfree : x'.state = .unused ↔ x.state = .unused)
  | freed (hx' : x' = ⟨.unused, none, false, 0, 0, none⟩)
  | reserved (hx : x.state = .unused) (hx' : x'.state = .used) (hkilled : x'.killed = x.killed)
  | marked (h : Marks s e q) (hkilled : x'.killed = true) (hpid : x'.pid = x.pid)
      (hfree : x'.state = .unused ↔ x.state = .unused)

namespace MarkStep

variable {s s' : ProcTable} {e : ProcEvent} {p q : ProcId}

theorem of_same (h : SameMarks s s') (q : ProcId) : MarkStep s e q (s.procs q) (s'.procs q) :=
  .same (h.killed q) (h.pid q) (h.free q)

theorem refl (q : ProcId) (x : Proc) : MarkStep s e q x x := .same rfl rfl Iff.rfl

theorem update (p q : ProcId) {x : Proc} (h : MarkStep s e p (s.procs p) x) :
    MarkStep s e q (s.procs q) (Function.update s.procs p x q) := by
  by_cases hq : q = p
  · subst hq
    rwa [Function.update_self]
  · rw [Function.update_of_ne hq]
    exact refl q _

theorem kexit (hp : (s.procs p).state ≠ .unused) {status : BitVec 32}
    (hs : s.kexit p status = some s') (q : ProcId) :
    MarkStep s e q (s.procs q) (s'.procs q) := by
  have hwoken := (SameMarks.reparent s p).trans
    (SameMarks.wakeup (s.reparent p) (((s.reparent p).procs p).parent.map .proc))
  unfold ProcTable.kexit at hs
  split_ifs at hs
  rw [← Option.some.inj hs]
  dsimp only
  generalize (s.reparent p).wakeup (((s.reparent p).procs p).parent.map .proc) = t at hwoken ⊢
  have hexit : SameMarks t (t.modify p fun x => { x with xstate := status, state := .zombie }) :=
    SameMarks.live p rfl rfl (fun h => hp ((hwoken.free p).mp h)) nofun
  exact of_same (hwoken.trans hexit) q

theorem forkAlloc (np : ProcId) (ok : Bool) (q : ProcId) :
    MarkStep s e q (s.procs q) ((s.forkAlloc p np ok).procs q) := by
  unfold ProcTable.forkAlloc
  split_ifs with hun hok
  · exact .update np q (.reserved hun rfl rfl)
  · have hproc : ∀ t : ProcTable, (t.freeproc np).procs q =
        Function.update t.procs np ⟨.unused, none, false, 0, 0, none⟩ q := fun _ => rfl
    simp only [ProcTable.goto, hproc, ProcTable.modify, Function.update_idem]
    exact .update np q (.freed rfl)
  · exact refl q _

theorem killSlot (hrun : s.running = some p) {b : Bool} {i : ProcId} {pid : BitVec 32}
    (hpc : s.pc p = .kill pid i) (q : ProcId) :
    MarkStep s (.run b) q (s.procs q) ((s.killSlot p i pid).procs q) := by
  unfold ProcTable.killSlot
  split_ifs with hpid
  · refine .update i q (.marked (.inl ⟨p, b, hrun, rfl, by rw [hpc, hpid]⟩) rfl rfl ?_)
    by_cases hsl : (s.procs i).state = .sleeping <;> simp [hsl]
  · exact refl q _

theorem run (h : TreeInv s) (hrun : s.running = some p) {b : Bool} (hs : s.run p b = some s')
    (q : ProcId) : MarkStep s (.run b) q (s.procs q) (s'.procs q) := by
  have hp : (s.procs p).state ≠ .unused := by
    rw [(h.running p).mp hrun]
    nofun
  unfold ProcTable.run at hs
  cases hpc : s.pc p with
  | user => simp [hpc] at hs
  | exited => simp [hpc] at hs
  | forkScan i =>
    simp only [hpc] at hs
    split_ifs at hs <;> cases hs
    · exact forkAlloc _ b q
    · exact refl q _
  | forkLink np =>
    simp only [hpc, Option.some.injEq] at hs
    subst hs
    exact .update np q (.same rfl rfl Iff.rfl)
  | forkReady np =>
    simp only [hpc, Option.some.injEq] at hs
    subst hs
    have hnp : (s.procs np).state = .used := (h.forking p np (by simp [hpc, Pc.forking])).2
    exact .update np q (.same rfl rfl (by simp [hnp]))
  | wait addr =>
    simp only [hpc, Option.some.injEq] at hs
    subst hs
    have hout := s.kwait_outcome p addr b
    generalize s.kwait p addr b = t at hout ⊢
    cases hout with
    | reaps pp hparent hz => exact .update pp q (.freed rfl)
    | returns => exact refl q _
    | sleeps hkids => exact .update p q (.same rfl rfl (by simp [hp]))
  | inWait addr =>
    simp only [hpc, Option.some.injEq] at hs
    subst hs
    exact .update p q (.same rfl rfl Iff.rfl)
  | inSleep =>
    simp only [hpc, Option.some.injEq] at hs
    subst hs
    exact .update p q (.same rfl rfl Iff.rfl)
  | kill pid i =>
    simp only [hpc] at hs
    split_ifs at hs with hi <;> cases hs
    · exact killSlot hrun (i := ⟨i, hi⟩) hpc q
    · exact refl q _

theorem call (h : TreeInv s) (hrun : s.running = some p) {c : ProcCall}
    (hs : s.call p c = some s') (q : ProcId) :
    MarkStep s (.call c) q (s.procs q) (s'.procs q) := by
  have hp : (s.procs p).state ≠ .unused := by
    rw [(h.running p).mp hrun]
    nofun
  cases c with
  | kexit status => exact kexit hp hs q
  | sleep c =>
    cases hs
    exact .update p q (.same rfl rfl (by simp [hp]))
  | setkilled =>
    cases hs
    exact .update p q (.marked (.inr ⟨hrun, rfl⟩) rfl rfl Iff.rfl)
  | kfork | kwait | kkill =>
    cases hs
    exact refl q _

theorem step (h : TreeInv s) (hs : s.step e = some s') (q : ProcId) :
    MarkStep s e q (s.procs q) (s'.procs q) := by
  cases e with
  | dispatch p =>
    obtain ⟨⟨-, hp⟩, hs⟩ := Option.ite_none_right_eq_some.mp hs
    cases hs
    exact .update p q (.same rfl rfl (by simp [hp]))
  | yield =>
    obtain ⟨p, hrun, hs⟩ := Option.bind_eq_some_iff.mp hs
    obtain ⟨-, hs⟩ := Option.ite_none_right_eq_some.mp hs
    cases hs
    exact .update p q (.same rfl rfl (by simp [(h.running p).mp hrun]))
  | call c =>
    obtain ⟨p, hrun, hs⟩ := Option.bind_eq_some_iff.mp hs
    obtain ⟨-, hs⟩ := Option.ite_none_right_eq_some.mp hs
    exact call h hrun hs q
  | run b =>
    obtain ⟨p, hrun, hs⟩ := Option.bind_eq_some_iff.mp hs
    exact run h hrun hs q
  | wakeup c =>
    rw [← Option.some.inj hs]
    exact of_same (SameMarks.wakeup s _) q

end MarkStep

/-! ## Free slots -/

/-- A free slot has pid 0. -/
def FreePids (s : ProcTable) : Prop := ∀ q, (s.procs q).state = .unused → (s.procs q).pid = 0

/-- A free slot is not marked. -/
def FreeClean (s : ProcTable) : Prop :=
  ∀ q, (s.procs q).state = .unused → (s.procs q).killed = false

section

variable {s s' : ProcTable} {e : ProcEvent}

theorem FreePids.step (h : FreePids s) (hinv : TreeInv s) (hs : s.step e = some s') :
    FreePids s' := by
  intro q hq
  cases MarkStep.step hinv hs q with
  | same _ hpid hfree => rw [hpid, h q (hfree.mp hq)]
  | freed hx' => rw [hx']
  | reserved _ hx' => rw [hx'] at hq; cases hq
  | marked _ _ hpid hfree => rw [hpid, h q (hfree.mp hq)]

theorem ProcReach.freePids (hs : ProcReach s) : FreePids s := by
  induction hs with
  | boot =>
    intro q hq
    by_cases hinit : q = initproc <;> simp [ProcTable.boot, hinit] at hq ⊢
  | step hs he ih => exact ih.step hs.inv he

theorem Marks.not_ok {q : ProcId} (h : Marks s e q) (hinv : TreeInv s) (hpids : FreePids s)
    (hq : (s.procs q).state = .unused) : ¬ KillOk s e := by
  intro hok
  rcases h with ⟨p, b, hrun, rfl, hpc⟩ | ⟨hrun, -⟩
  · rw [hpids q hq] at hpc
    exact hok p b q hrun rfl hpc q.isLt hq
  · rw [(hinv.running q).mp hrun] at hq
    cases hq

theorem FreeClean.step (h : FreeClean s) (hinv : TreeInv s) (hpids : FreePids s) (hok : KillOk s e)
    (hs : s.step e = some s') : FreeClean s' := by
  intro q hq
  cases MarkStep.step hinv hs q with
  | same hkilled _ hfree => rw [hkilled, h q (hfree.mp hq)]
  | freed hx' => rw [hx']
  | reserved _ hx' => rw [hx'] at hq; cases hq
  | marked hm _ _ hfree => exact absurd hok (hm.not_ok hinv hpids (hfree.mp hq))

theorem step_kill_found {p : ProcId} {b : Bool} {i : ℕ} {pid : BitVec 32} (hrun : s.running = some p)
    (hpc : s.pc p = .kill pid i) (hi : i < nproc) (hpid : (s.procs ⟨i, hi⟩).pid = pid)
    (hs : s.step (.run b) = some s') : (s'.procs ⟨i, hi⟩).killed = true ∧
      ((s'.procs ⟨i, hi⟩).state = .unused ↔ (s.procs ⟨i, hi⟩).state = .unused) := by
  obtain ⟨p', hrun', hs⟩ := Option.bind_eq_some_iff.mp hs
  cases hrun.symm.trans hrun'
  simp only [ProcTable.run, hpc, dif_pos hi, Option.some.injEq] at hs
  subst hs
  unfold ProcTable.killSlot
  rw [if_pos hpid]
  by_cases hsl : (s.procs ⟨i, hi⟩).state = .sleeping <;>
    simp [ProcTable.goto, ProcTable.modify, hsl]

theorem FreePids.ok_of_clean (hpids : FreePids s) (hs : s.step e = some s') (h : FreeClean s') :
    KillOk s e := by
  rintro p b i hrun rfl hpc hi hfree
  obtain ⟨hkilled, hstate⟩ := step_kill_found hrun hpc hi (hpids _ hfree) hs
  rw [h _ (hstate.mpr hfree)] at hkilled
  cases hkilled

theorem ProcTrace.freeClean {tr : List (ProcTable × ProcEvent)}
    (h : ProcTrace KillOk .boot tr s) : FreeClean s := by
  induction h with
  | nil =>
    intro q _
    by_cases hinit : q = initproc <;> simp [ProcTable.boot, hinit]
  | snoc ht hc he ih =>
    have hreach := ht.reach .boot
    exact ih.step hreach.inv hreach.freePids hc he

theorem ProcTrace.marked {C : ProcTable → ProcEvent → Prop} {t : ProcTable} {q : ProcId}
    {tr : List (ProcTable × ProcEvent)} (h : ProcTrace C s tr t) (hs : ProcReach s)
    (hclean : (s.procs q).killed = false) (hlive : ∀ x ∈ tr, (x.1.procs q).state ≠ .unused)
    (hkilled : (t.procs q).killed = true) : ∃ x ∈ tr, Marks x.1 x.2 q := by
  induction h with
  | nil => rw [hclean] at hkilled; cases hkilled
  | @snoc tr t t' e ht hc he ih =>
    have hstep := MarkStep.step (ht.reach hs).inv he q
    cases hstep with
    | same hsame =>
      obtain ⟨x, hx, hm⟩ := ih (fun x hx => hlive x (by simp [hx])) (hsame ▸ hkilled)
      exact ⟨x, by simp [hx], hm⟩
    | freed hx' => rw [hx'] at hkilled; cases hkilled
    | reserved hx => exact absurd hx (hlive (t, e) (by simp))
    | marked hm => exact ⟨(t, e), by simp, hm⟩

end

/-- **New processes start clean**, in runs in which no `kkill(0)` looks at a free slot. Free
slots are not marked, and the next step keeps that exactly if it meets the condition; a
process that `allocproc` makes is not marked, and later only by a `kkill` of its pid or a
`setkilled`; and a `kkill` that returns 0 has marked a slot that is not free. -/
theorem new_process_clean {tr : List (ProcTable × ProcEvent)} {s : ProcTable}
    (hs : ProcTrace KillOk .boot tr s) :
    (∀ q, (s.procs q).state = .unused → (s.procs q).killed = false) ∧
    (∀ e s', s.step e = some s' →
      ((∀ q, (s'.procs q).state = .unused → (s'.procs q).killed = false) ↔ KillOk s e)) ∧
    (∀ e s' np, s.step e = some s' → (s.procs np).state = .unused →
      (s'.procs np).state ≠ .unused → (s'.procs np).killed = false ∧
      ∀ tr' t, ProcTrace (fun _ _ => True) s' tr' t →
        (∀ x ∈ tr', (x.1.procs np).state ≠ .unused) → (t.procs np).killed = true →
        ∃ x ∈ tr', Marks x.1 x.2 np) ∧
    (∀ p b i pid s', s.running = some p → s.pc p = .kill pid i → s.step (.run b) = some s' →
      KillOk s (.run b) → ∀ hi : i < nproc, (s.procs ⟨i, hi⟩).pid = pid →
      (s'.procs ⟨i, hi⟩).killed = true ∧ (s'.procs ⟨i, hi⟩).state ≠ .unused) := by
  have hreach := hs.reach .boot
  have hclean := hs.freeClean
  have hpids := hreach.freePids
  refine ⟨hclean, fun e s' he => ⟨hpids.ok_of_clean he, fun hok =>
    hclean.step hreach.inv hpids hok he⟩, fun e s' np he hfree hused => ?_, ?_⟩
  · have hnew : (s'.procs np).killed = false := by
      cases MarkStep.step hreach.inv he np with
      | same _ _ hsame => exact absurd (hsame.mpr hfree) hused
      | freed hx' => rw [hx']
      | reserved _ _ hkilled => rw [hkilled, hclean np hfree]
      | marked _ _ _ hsame => exact absurd (hsame.mpr hfree) hused
    exact ⟨hnew, fun tr' t ht hlive hkilled => ht.marked (.step hreach he) hnew hlive hkilled⟩
  · intro p b i pid s' hrun hpc he hok hi hpid
    obtain ⟨hkilled, hstate⟩ := step_kill_found hrun hpc hi hpid he
    refine ⟨hkilled, fun hfree => ?_⟩
    have hfree := hstate.mp hfree
    rw [hpids _ hfree] at hpid
    exact hok p b i hrun rfl (hpid ▸ hpc) hi hfree

/-- `init` calls `kkill(0)`, which marks the first free slot, and forks. -/
def killFree : List ProcEvent :=
  [.dispatch initproc, .call (.kkill 0), .run true, .run true,
    .call .kfork, .run true, .run true, .run true, .run true]

/-- The child is marked from the start, although its pid is 2. -/
theorem new_process_killed :
    ∃ s, ProcTable.boot.steps killFree = some s ∧ (s.procs firstChild).state = .runnable ∧
      (s.procs firstChild).pid = 2 ∧ (s.procs firstChild).killed = true := by
  have hrun : ((ProcTable.boot.steps killFree).any fun s =>
      decide ((s.procs firstChild).state = .runnable ∧ (s.procs firstChild).pid = 2 ∧
        (s.procs firstChild).killed = true)) = true := by decide +kernel
  obtain ⟨s, hs, hrun⟩ := (Option.any_eq_true _ _).mp hrun
  exact ⟨s, hs, of_decide_eq_true hrun⟩

/-- `init` forks: the child in the second slot is not marked. -/
theorem new_process_clean_fork :
    ∃ s s' : ProcTable, ProcTable.boot.steps [.dispatch initproc, .call .kfork, .run true] = some s ∧
      s.step (.run true) = some s' ∧ (s'.procs firstChild).state = .used ∧
      (s'.procs firstChild).killed = false := by
  have hrun : ((ProcTable.boot.step (.dispatch initproc)).any fun s1 =>
      (s1.step (.call .kfork)).any fun s2 =>
      decide (s2.running = some initproc ∧ s2.pc initproc = .forkScan 0) &&
      (s2.step (.run true)).any fun s3 => decide ((s3.procs firstChild).state = .unused) &&
      (s3.step (.run true)).any fun s4 => decide ((s4.procs firstChild).state = .used)) = true := by
    decide +kernel
  obtain ⟨s1, h1, hrun⟩ := (Option.any_eq_true _ _).mp hrun
  obtain ⟨s2, h2, hrun⟩ := (Option.any_eq_true _ _).mp hrun
  obtain ⟨hat, hrun⟩ := Bool.and_eq_true_iff.mp hrun
  obtain ⟨hinit, hpc⟩ := of_decide_eq_true hat
  obtain ⟨s3, h3, hrun⟩ := (Option.any_eq_true _ _).mp hrun
  obtain ⟨hfree, hrun⟩ := Bool.and_eq_true_iff.mp hrun
  obtain ⟨s4, h4, hused⟩ := (Option.any_eq_true _ _).mp hrun
  have hused := of_decide_eq_true hused
  have hscan : KillOk s2 (.run true) := by
    intro p b i hp _ hkill
    cases hinit.symm.trans hp
    rw [hpc] at hkill
    cases hkill
  have hdispatch : KillOk .boot (.dispatch initproc) := nofun
  have hcall : KillOk s1 (.call .kfork) := fun _ _ _ _ h => nomatch h
  have htrace : ProcTrace KillOk .boot _ s3 := .snoc (.snoc (.snoc .nil hdispatch h1) hcall h2) hscan h3
  refine ⟨s3, s4, ?_, h4, hused,
    ((new_process_clean htrace).2.2.1 _ s4 firstChild h4 (of_decide_eq_true hfree)
      (by rw [hused]; nofun)).1⟩
  simp only [ProcTable.steps, List.foldlM_cons, List.foldlM_nil, h1, h2, h3, Option.bind_eq_bind,
    Option.bind_some, Option.pure_def]

end YHsys.Kernel
