import Mathlib.Algebra.BigOperators.Fin
import YHsys.Kernel.FileSteps

/-!
# The file invariant over all runs

`KernInv` puts the process table and the descriptors together: the table is one of its
own reachable ones, and every event of the kernel keeps the references right.
-/

namespace YHsys.Kernel

open FileCall (creating held skip)

open Function (update_of_ne)

variable {k k' : Kern} {p : ProcId}

attribute [local irreducible] ProcTable.wakeup

/-! ## What a section leaves alone -/

/-- The table stays, and the other processes stay in their calls. -/
structure OwnStep (k : Kern) (p : ProcId) (k' : Kern) : Prop where
  table : k'.table = k.table
  calls : ∀ q, q ≠ p → k'.calls q = k.calls q

theorem OwnStep.goto {c : FileCall} (h : OwnStep k p k') : OwnStep k p (k'.goto p c) :=
  ⟨h.table, fun q hq => (update_of_ne hq ..).trans (h.calls q hq)⟩

theorem OwnStep.of_eq (htable : k'.table = k.table) (hcalls : k'.calls = k.calls) :
    OwnStep k p k' :=
  ⟨htable, fun q _ => congrFun hcalls q⟩

theorem OwnStep.refl (k : Kern) (p : ProcId) : OwnStep k p k := .of_eq rfl rfl

theorem OwnStep.resume {r : After} (h : OwnStep k p k') : OwnStep k p (k'.resume p r) := by
  cases r with
  | ret => exact h.goto
  | close f r => exact h.goto
  | exitSlot status fd =>
    have hslot : OwnStep k p (k'.setSlot p fd none) := ⟨h.table, h.calls⟩
    exact hslot.goto

namespace Kern

theorem call_own {c : FileSys} (he : k.call p c = some k') : OwnStep k p k' := by
  unfold call at he
  repeat' split at he
  all_goals
    cases he
    try
      first
      | exact .refl k p
      | exact OwnStep.goto (.of_eq rfl rfl)

theorem fileclose_own {f : FileId} {r : After} (he : k.fileclose p f r = some k') :
    OwnStep k p k' := by
  unfold fileclose at he
  simp only at he
  repeat' split at he
  all_goals
    cases he
    try
      first
      | exact OwnStep.goto (.of_eq rfl rfl)
      | exact OwnStep.resume (.of_eq rfl rfl)

theorem semClose_own (s : ℕ) (r : After) : OwnStep k p (k.semClose p s r) := by
  unfold semClose
  simp only
  split
  · exact OwnStep.resume (.of_eq rfl rfl)
  · exact OwnStep.goto (.of_eq rfl rfl)

theorem exitLoop_own (status : BitVec 32) (n : ℕ) : OwnStep k p (k.exitLoop p status n) := by
  unfold exitLoop
  repeat' split
  all_goals exact (OwnStep.refl k p).goto

theorem openAlloc_own (omode : BitVec 32) (ip : Opened) :
    OwnStep k p (k.openAlloc p omode ip) := by
  unfold openAlloc
  simp only
  repeat' split
  all_goals exact OwnStep.goto (.of_eq rfl rfl)

theorem pipeMem_own (f0 f1 : FileId) (mem copied : Bool) :
    OwnStep k p (k.pipeMem p f0 f1 mem copied) := by
  unfold pipeMem
  simp only
  repeat' split
  all_goals exact OwnStep.goto (.of_eq rfl rfl)

theorem semMem_own (value : BitVec 32) (f : FileId) (mem : Bool) :
    OwnStep k p (k.semMem p value f mem) := by
  unfold semMem
  simp only
  repeat' split
  all_goals exact OwnStep.goto (.of_eq rfl rfl)

/-- `sys_sem_wait` has found that it cannot go on, and sleeps. -/
structure SleepStep (k : Kern) (p : ProcId) (s : ℕ) (t : ProcTable) : Prop where
  call : ∃ fd f, k.calls p = .semWait fd f s
  value : (k.sems s).value.toInt ≤ 0
  destroyed : (k.sems s).destroyed = false
  sleep : k.table.step (.call (.sleep (semChan s))) = some t

theorem run_own {mem copied : Bool} (he : k.run p mem copied = some k') :
    OwnStep k p k' ∨ (∃ s t, SleepStep k p s t ∧ k' = { k with table := t }) ∨
      (∀ q, q ≠ p → k'.calls q = k.calls q) ∧
        ∃ s, k.table.step (.wakeup (semChan s)) = some k'.table := by
  unfold run at he
  split at he
  · cases he
  · cases he
  · cases he
    exact .inl (openAlloc_own _ _)
  · unfold filedup at he
    split at he
    · cases he
    · cases he
      exact .inl (.goto (.of_eq rfl rfl))
  · exact .inl (fileclose_own he)
  · cases he
    exact .inl ((OwnStep.refl k p).resume)
  · cases he
    exact .inl (semClose_own ..)
  · cases he
    exact .inl (.resume (.of_eq rfl rfl))
  · cases he
    exact .inl (exitLoop_own ..)
  · split at he <;> cases he <;> exact .inl (.goto (.of_eq rfl rfl))
  · split at he <;> cases he <;> exact .inl (.goto (.of_eq rfl rfl))
  · cases he
    exact .inl (pipeMem_own ..)
  · split at he <;> cases he <;> exact .inl (.goto (.of_eq rfl rfl))
  · cases he
    exact .inl (semMem_own ..)
  · cases he
    exact .inl (.goto (.of_eq rfl rfl))
  · rename_i fd f s hc
    unfold semWait at he
    simp only at he
    split at he
    · rename_i hvalue
      split at he
      · cases he
        exact .inl ((OwnStep.refl k p).goto)
      · rename_i hkeep
        obtain ⟨t, ht, rfl⟩ := Option.map_eq_some_iff.mp he
        simp only [not_or, Bool.not_eq_true] at hkeep
        exact .inr (.inl ⟨s, t, ⟨⟨fd, f, hc⟩, hvalue, hkeep.1, ht⟩, rfl⟩)
    · cases he
      exact .inl (.goto (.of_eq rfl rfl))
  · rename_i s _
    cases he
    exact .inr (.inr ⟨fun q hq => update_of_ne hq .., s, rfl⟩)
  · rename_i s _
    cases he
    exact .inr (.inr ⟨fun q hq => update_of_ne hq .., s, rfl⟩)

end Kern

/-! ## Fork -/

/-- What the loop of `kfork` over descriptors has done after the descriptors `l`: the new
process has those of `p`, and their files have one more reference each. -/
structure Forked (p np : ProcId) (l : List Fd) (k k' : Kern) : Prop where
  table : k'.table = k.table
  calls : k'.calls = k.calls
  sems : k'.sems = k.sems
  history : k'.history = k.history
  nextSem : k'.nextSem = k.nextSem
  others : ∀ q, q ≠ np → k'.ofile q = k.ofile q
  child : ∀ fd, k'.ofile np fd =
    if fd ∈ l ∧ k.ofile p fd ≠ none then k.ofile p fd else k.ofile np fd
  files : ∀ f, k'.files f = { k.files f with
    ref := (k.files f).ref + (l.map fun fd => if k.ofile p fd = some f then 1 else 0).sum }

theorem Kern.forked {np : ProcId} (hne : p ≠ np) (l : List Fd) :
    ∀ {k : Kern}, l.foldlM (dupSlot p np) k = some k' → Forked p np l k k' := by
  induction l with
  | nil =>
    intro k he
    cases he
    exact ⟨rfl, rfl, rfl, rfl, rfl, fun _ _ => rfl, fun _ => by simp, fun _ => by simp⟩
  | cons fd l ih =>
    intro k he
    rw [List.foldlM_cons] at he
    obtain ⟨k1, hstep, hrest⟩ := Option.bind_eq_some_iff.mp he
    have hl := ih hrest
    unfold dupSlot at hstep
    split at hstep
    · rename_i hnone
      cases hstep
      refine ⟨hl.table, hl.calls, hl.sems, hl.history, hl.nextSem, hl.others, fun j => ?_,
        fun f => ?_⟩
      · rw [hl.child]
        by_cases hj : j = fd
        · simp [hj, hnone]
        · simp [hj]
      · rw [hl.files]
        simp [hnone]
    · rename_i g hg
      split at hstep
      · cases hstep
      · cases hstep
        have hp : ((k.setFile g { k.files g with ref := (k.files g).ref + 1 }).setSlot np fd
            (some g)).ofile p = k.ofile p := update_of_ne hne ..
        refine ⟨hl.table, hl.calls, hl.sems, hl.history, hl.nextSem, fun q hq => ?_, fun j => ?_,
          fun f => ?_⟩
        · rw [hl.others q hq]
          exact update_of_ne hq ..
        · rw [hl.child, hp]
          by_cases hj : j = fd
          · subst hj
            by_cases hmem : j ∈ l <;> simp [hg, hmem, Kern.setSlot]
          · simp [hj, Kern.setSlot, Kern.setFile]
        · rw [hl.files, hp]
          by_cases hf : f = g
          · subst hf
            simp [Kern.setSlot, Kern.setFile, hg]
            omega
          · simp [Kern.setSlot, Kern.setFile, hg, hf, Ne.symm hf]

theorem Kern.forkSlot_spec {s t : ProcTable} {e : ProcEvent} {np : ProcId}
    (ht : s.step e = some t) (h : forkSlot s e = some (p, np)) :
    s.running = some p ∧ ∃ i, s.pc p = .forkScan i ∧ (s.procs np).state = .unused ∧
      (t.procs np).state = .used := by
  unfold forkSlot at h
  split at h
  · obtain ⟨p', hrun, h⟩ := Option.bind_eq_some_iff.mp h
    split at h
    · rename_i i hpc
      split at h
      · rename_i hi
        split at h
        · rename_i hun
          cases h
          refine ⟨hrun, i, hpc, hun, ?_⟩
          simp only [ProcTable.step, hrun, Option.bind_some, ProcTable.run, hpc, hi,
            dif_pos, ProcTable.forkAlloc, hun, if_true, Option.some.injEq] at ht
          rw [← ht]
          simp [ProcTable.goto, ProcTable.modify]
        · cases h
      · cases h
    · cases h
  · cases h

namespace FileInv

theorem fork (h : FileInv k) {np : ProcId} (hc : k.calls p = .idle) (hnp : (k.table.procs np).Gone) (t : ProcTable)
    (hgone : ∀ q, (t.procs q).Gone → q ≠ np ∧ (k.table.procs q).Gone)
    (hf : Forked p np (List.finRange nofile) { k with table := t } k') : FileInv k' := by
  obtain ⟨hempty, hidle⟩ := h.gone np hnp
  have hchild : k'.ofile np = k.ofile p := by
    funext fd
    rw [hf.child]
    by_cases hfd : k.ofile p fd = none <;> simp [List.mem_finRange, hfd, hempty]
  have hcall : k'.calls np = .idle := by rw [hf.calls, ← hidle]
  have hshare : share (k'.ofile np) (k'.calls np) = share (k.ofile p) (k.calls p) := by
    rw [hchild, hcall, hc]
  have hzero : ∀ f, share (k.ofile np) (k.calls np) f = 0 := by
    intro f
    simp [share, slots, hempty, hidle, held]
  have hslots : ∀ f, share (k.ofile p) (k.calls p) f =
      ((List.finRange nofile).map fun fd => if k.ofile p fd = some f then (1 : ℤ) else 0).sum := by
    intro f
    rw [share, slots, Fin.sum_univ_def, hc]
    simp [held, skip]
  have hfiles : ∀ f, k'.files f = { k.files f with
      ref := (k.files f).ref + share (k.ofile p) (k.calls p) f } := by
    intro f
    rw [hf.files, hslots]
  have hskip : ∀ fd, (k.calls p).skip ≠ some fd := by simp [hc, skip]
  refine h.moved (p := np) ⟨hf.others, fun q _ => congrFun hf.calls q, fun q hq => .inr ?_,
    fun f => ?_, fun f => .inl ?_, fun f hpos => .inr ?_, fun f h0 => ?_, fun f => ?_, ?_,
    fun fd f _ hfd => ?_, ?_, ?_, ?_⟩
  · rw [hf.table] at hq
    exact hgone q hq
  · rw [hfiles, hzero, hshare]
    simp
  · rw [hfiles]
    rfl
  · -- the new process has the descriptors of `p`, and these are filled in
    rw [hshare] at hpos
    by_contra hcon
    push Not at hcon
    have hnone : share (k.ofile p) (k.calls p) f = 0 := by
      rw [share, hc]
      refine add_eq_zero_iff_of_nonneg ?_ ?_ |>.mpr ⟨Finset.sum_eq_zero fun fd _ => ?_, rfl⟩
      · exact slots_nonneg _ _ f
      · exact Int.natCast_nonneg _
      · refine if_neg fun hfd => h.filled p fd f (hskip fd) hfd.2 hcon.2
    omega
  · rw [hfiles] at h0 ⊢
    have := share_nonneg (k.ofile p) (k.calls p) f
    have := h.le_ref p f
    have h0 : (k.files f).ref + share (k.ofile p) (k.calls p) f = 0 := h0
    exact h.free f (by omega)
  · rw [hfiles]
    exact h.flags f
  · rw [hcall]
    rintro _ ⟨⟩
  · rw [hfiles]
    rw [hchild] at hfd
    exact h.filled p fd f (hskip fd) hfd
  · rw [hcall]
    (intros; contradiction)
  · rw [hcall]
    rintro _ _ ⟨⟩
  · rw [hcall]
    rintro _ ⟨⟩

/-- A call starts. -/
theorem call (h : FileInv k) (hp : ¬ (k.table.procs p).Gone) (hc : k.calls p = .idle)
    {c : FileSys} (he : k.call p c = some k') : FileInv k' := by
  have hplain : ∀ {c : FileCall}, c.held = [] → c.skip = none → c.cleared = 0 → c.Plain →
      FileInv (k.goto p c) := fun hheld hskip hcleared hplain =>
    h.goto_plain hp (by rw [hc, hheld]; rfl) (by rw [hc, hskip]; rfl) (by omega) hplain
  have huses : ∀ {c : FileCall} {n : BitVec 32} {fd : Fd} {f : FileId} {s : ℕ},
      c.held = [] → c.skip = none → c.cleared = 0 → c.creating = [] → (∀ fd f, c ≠ .dup fd f) →
      k.argsem p n = some (fd, f, s) → c.uses = some (fd, f, s) → FileInv (k.goto p c) := by
    intro c n fd f s hheld hskip hcleared hcreating hdup hn hu
    refine h.goto hp (by rw [hc, hheld]; rfl) (by rw [hc, hskip]; rfl) ⟨?_, ?_, ?_, ?_, ?_⟩
    · simp [hcreating]
    · exact fun fd f _ ho => h.filled p fd f (by simp [hc, skip]) ho
    · intro fd' f' s' hu'
      rw [hu] at hu'
      cases hu'
      exact Kern.argsem_slot hn
    · exact fun fd f hd => absurd hd (hdup fd f)
    · omega
  cases c with
  | «open» omode found =>
    simp only [Kern.call] at he
    split at he
    · cases he
      exact h
    · split at he
      · cases he
        exact hplain rfl rfl rfl ⟨rfl, rfl, (by rintro _ _ ⟨⟩)⟩
      · cases he
        exact h
    · cases he
      exact hplain rfl rfl rfl ⟨rfl, rfl, (by rintro _ _ ⟨⟩)⟩
    · split at he
      · cases he
        exact h
      · cases he
        exact hplain rfl rfl rfl ⟨rfl, rfl, (by rintro _ _ ⟨⟩)⟩
  | dup n =>
    simp only [Kern.call] at he
    split at he
    · cases he
      exact h
    · rename_i hn
      split at he
      · cases he
        exact h
      · rename_i hfd
        cases he
        exact h.setDup hp hc (Kern.argfd_slot hn) (Kern.fdalloc_free hfd)
  | close n =>
    simp only [Kern.call] at he
    split at he
    · cases he
      exact h
    · rename_i hn
      cases he
      exact h.unslot hp (Kern.argfd_slot hn) (by rw [hc]; rfl) (by rw [hc]; rfl)
  | pipe =>
    cases he
    exact hplain rfl rfl rfl ⟨rfl, rfl, (by rintro _ _ ⟨⟩)⟩
  | exit status =>
    simp only [Kern.call] at he
    split at he
    · cases he
    · cases he
      exact hplain rfl rfl rfl ⟨rfl, rfl, (by rintro _ _ ⟨⟩)⟩
  | semCreate value =>
    simp only [Kern.call] at he
    split at he
    · cases he
      exact h
    · cases he
      exact hplain rfl rfl rfl ⟨rfl, rfl, (by rintro _ _ ⟨⟩)⟩
  | semWait n | semPost n | semDestroy n =>
    simp only [Kern.call] at he
    split at he
    · cases he
      exact h
    · rename_i hn
      cases he
      exact huses rfl rfl rfl rfl (by rintro _ _ ⟨⟩) hn rfl

theorem semWait (h : FileInv k) (ht : TreeInv k.table) (hp : ¬ (k.table.procs p).Gone) {fd : Fd}
    {f : FileId} {s : ℕ} (hc : k.calls p = .semWait fd f s) (he : k.semWait p s = some k') :
    FileInv k' := by
  have hidle : FileInv (k.goto p .idle) :=
    h.goto_plain hp (by rw [hc]; rfl) (by rw [hc]; rfl) (Nat.zero_le _) ⟨rfl, rfl, nofun⟩
  unfold Kern.semWait at he
  simp only at he
  split at he
  · split at he
    · cases he
      exact hidle
    · obtain ⟨t, hstep, rfl⟩ := Option.map_eq_some_iff.mp he
      refine h.congr rfl rfl rfl fun q hq => ?_
      exact (ProcTable.step_gone ht hstep hq).resolve_right (by simp)
  · cases he
    exact hidle.congr rfl rfl rfl fun _ hq => hq

theorem wakeSem (h : FileInv k) (ht : TreeInv k.table) (s : ℕ) : FileInv (k.wakeSem s) :=
  h.congr rfl rfl rfl fun _ hq =>
    (ProcTable.step_gone ht (e := .wakeup (semChan s)) rfl hq).resolve_right (by simp)

theorem semPost (h : FileInv k) (ht : TreeInv k.table) (hp : ¬ (k.table.procs p).Gone) {fd : Fd}
    {f : FileId} {s : ℕ} (hc : k.calls p = .semPost fd f s) : FileInv (k.semPost p s) := by
  have hidle : FileInv (k.goto p .idle) :=
    h.goto_plain hp (by rw [hc]; rfl) (by rw [hc]; rfl) (Nat.zero_le _) ⟨rfl, rfl, nofun⟩
  exact (hidle.wakeSem ht s).congr rfl rfl rfl fun _ hq => hq

theorem semDestroy (h : FileInv k) (ht : TreeInv k.table) (hp : ¬ (k.table.procs p).Gone)
    {fd : Fd} {f : FileId} {s : ℕ} (hc : k.calls p = .semDestroy fd f s) :
    FileInv (k.semDestroy p fd f s) := by
  have hclose := h.unslot hp (h.uses p fd f s (by rw [hc]; rfl)).1 (by rw [hc]; rfl)
    (by rw [hc]; rfl)
  exact (hclose.wakeSem ht s).congr rfl rfl rfl fun _ hq => hq

theorem run (h : FileInv k) (ht : TreeInv k.table) (hp : ¬ (k.table.procs p).Gone)
    {mem copied : Bool} (he : k.run p mem copied = some k') : FileInv k' := by
  have hidle : ∀ {c : FileCall}, (k.calls p).held = c.held → (k.calls p).skip = c.skip →
      c.cleared = 0 → c.Plain → FileInv (k.goto p c) := fun hheld hskip hcleared hplain =>
    h.goto_plain hp hheld.symm hskip.symm (by omega) hplain
  unfold Kern.run at he
  split at he <;> rename_i hc
  · cases he
  · cases he
  · cases he
    exact h.openAlloc hp hc
  · exact h.filedup hp hc he
  · exact h.fileclose hp hc he
  · cases he
    exact h.resume hp (by rw [hc]; rfl) (by rw [hc]; rfl) (by rw [hc]; rfl)
  · cases he
    exact h.semClose hp hc
  · cases he
    exact h.semFree hp hc
  · cases he
    exact h.exitLoop hp hc
  · split at he
    · cases he
      exact hidle (by rw [hc]; rfl) (by rw [hc]; rfl) rfl ⟨rfl, rfl, (by rintro _ _ ⟨⟩)⟩
    · rename_i f0 hf0
      cases he
      exact h.take hp (Kern.filealloc_free hf0) (by
        simp [hc, held, List.count_singleton]) (by rw [hc]; rfl)
        (by simp [creating]) rfl (by rintro _ _ ⟨⟩) rfl
  · split at he
    · cases he
      exact hidle (by rw [hc]; rfl) (by rw [hc]; rfl) rfl ⟨rfl, rfl, (by rintro _ _ ⟨⟩)⟩
    · rename_i f0 _ f1 hf1
      cases he
      refine h.take hp (Kern.filealloc_free hf1) (fun g => ?_) (by rw [hc]; rfl)
        (fun g hg => ?_) rfl (by rintro _ _ ⟨⟩) rfl
      · simp [hc, held, List.count_cons, Nat.add_comm]
      · rw [hc]
        simpa [creating, or_comm] using hg
  · cases he
    exact h.pipeMem hp hc mem copied
  · split at he
    · cases he
      exact hidle (by rw [hc]; rfl) (by rw [hc]; rfl) rfl ⟨rfl, rfl, (by rintro _ _ ⟨⟩)⟩
    · rename_i f0 hf0
      cases he
      exact h.take hp (Kern.filealloc_free hf0) (by
        simp [hc, held, List.count_singleton]) (by rw [hc]; rfl)
        (by simp [creating]) rfl (by rintro _ _ ⟨⟩) rfl
  · cases he
    exact h.semMem hp hc mem
  · cases he
    have hidle := hidle (c := .idle) (by rw [hc]; rfl) (by rw [hc]; rfl) rfl ⟨rfl, rfl, (by rintro _ _ ⟨⟩)⟩
    exact hidle.congr rfl rfl rfl fun _ hq => hq
  · exact h.semWait ht hp hc he
  · cases he
    exact h.semPost ht hp hc
  · cases he
    exact h.semDestroy ht hp hc

theorem setTable (h : FileInv k) (t : ProcTable) (hgone : ∀ q, (t.procs q).Gone →
    (k.table.procs q).Gone ∨ (∀ fd, k.ofile q fd = none) ∧ k.calls q = .idle) :
    FileInv { k with table := t } :=
  ⟨h.refs, h.free, h.flags, h.fresh, h.filled, h.uses, h.dup, h.cleared,
    fun q hq => (hgone q hq).elim (h.gone q) id⟩

end FileInv

/-! ## Every event -/

/-- The invariant of the kernel between two events. -/
structure KernInv (k : Kern) : Prop where
  reach : ProcReach k.table
  files : FileInv k
  forks : ∀ q i, k.table.pc q = .forkScan i → k.calls q = .idle

namespace KernInv

theorem boot : KernInv .boot := ⟨.boot, .boot, nofun⟩

theorem not_gone (h : KernInv k) (hrun : k.table.running = some p) :
    ¬ (k.table.procs p).Gone := by
  rw [Proc.Gone, (h.reach.inv.running p).mp hrun]
  simp

theorem procCall (h : KernInv k) {c : ProcCall} (he : k.proc (.call c) = some k') :
    KernInv k' := by
  obtain ⟨p, hrun, he⟩ := Option.bind_eq_some_iff.mp he
  split at he
  · rename_i hmay
    obtain ⟨t, ht, rfl⟩ := Option.map_eq_some_iff.mp he
    have hreach : ProcReach t := h.reach.step ht
    have hgone := fun q => ProcTable.step_gone (q := q) h.reach.inv ht
    have hscan := fun q i => ProcTable.step_forkScan (q := q) (i := i) ht
    cases c with
    | kexit status =>
      have hdone : k.calls p = .exitDone status := by simpa [Kern.mayCall] using hmay
      have hidle := h.files.goto_plain (c := .idle) (h.not_gone hrun) (by rw [hdone]; rfl)
        (by rw [hdone]; rfl) (Nat.zero_le _) ⟨rfl, rfl, nofun⟩
      refine ⟨hreach, hidle.setTable t fun q hq => ?_, fun q i hq => ?_⟩
      · rcases hgone q hq with hq | ⟨_, _, hq⟩
        · exact .inl hq
        · -- the loop has cleared every descriptor
          cases hrun.symm.trans hq
          refine .inr ⟨fun fd => h.files.cleared p fd ?_, by simp⟩
          rw [hdone]
          exact fd.isLt
      · by_cases hqp : q = p
        · rw [hqp]
          exact Kern.calls_goto ..
        · rcases hscan q i hq with ⟨j, hj⟩ | ⟨heq, _⟩
          · exact (update_of_ne hqp ..).trans (h.forks q j hj)
          · cases heq
    | kfork =>
      have hc : k.calls p = .idle := by simpa [Kern.mayCall] using hmay
      refine ⟨hreach, h.files.setTable t fun q hq => .inl ?_, fun q i hq => ?_⟩
      · exact (hgone q hq).resolve_right (by simp)
      · rcases hscan q i hq with ⟨j, hj⟩ | ⟨_, hq⟩
        · exact h.forks q j hj
        · cases hrun.symm.trans hq
          exact hc
    | kwait | kkill | sleep | setkilled =>
      refine ⟨hreach, h.files.setTable t fun q hq => .inl ?_, fun q i hq => ?_⟩
      · exact (hgone q hq).resolve_right (by simp)
      · obtain ⟨j, hj⟩ := (hscan q i hq).resolve_right (by simp)
        exact h.forks q j hj
  · cases he

theorem procOther (h : KernInv k) {e : ProcEvent} (hcall : ∀ c, e ≠ .call c) {t : ProcTable}
    (ht : k.table.step e = some t)
    (he : (match Kern.forkSlot k.table e with
      | none => some { k with table := t }
      | some (p, np) => (List.finRange nofile).foldlM (Kern.dupSlot p np) { k with table := t }) =
      some k') : KernInv k' := by
  have hgone : ∀ q, (t.procs q).Gone → (k.table.procs q).Gone := fun q hq =>
    (ProcTable.step_gone h.reach.inv ht hq).resolve_right fun ⟨_, heq, _⟩ => hcall _ heq
  have hforks : ∀ q i, t.pc q = .forkScan i → k.calls q = .idle := fun q i hq => by
    obtain ⟨j, hj⟩ := (ProcTable.step_forkScan ht hq).resolve_right fun heq => hcall _ heq.1
    exact h.forks q j hj
  split at he
  · cases he
    exact ⟨h.reach.step ht, h.files.setTable t fun q hq => .inl (hgone q hq), hforks⟩
  · rename_i p np hslot
    obtain ⟨hrun, i, hpc, hnp, hused⟩ := Kern.forkSlot_spec ht hslot
    have hne : p ≠ np := by
      rintro rfl
      exact h.not_gone hrun (.inl hnp)
    have hf := Kern.forked hne _ he
    refine ⟨by rw [hf.table]; exact h.reach.step ht, h.files.fork (h.forks p i hpc) (.inl hnp) t
      (fun q hq => ⟨?_, hgone q hq⟩) hf, fun q i hq => ?_⟩
    · rintro rfl
      rw [Proc.Gone, hused] at hq
      simp at hq
    · rw [hf.table] at hq
      rw [hf.calls]
      exact hforks q i hq

theorem proc (h : KernInv k) {e : ProcEvent} (he : k.proc e = some k') : KernInv k' := by
  cases e with
  | call c => exact h.procCall he
  | dispatch | yield | run | wakeup =>
    simp only [Kern.proc] at he
    obtain ⟨t, ht, he⟩ := Option.bind_eq_some_iff.mp he
    exact h.procOther (by simp) ht he

theorem forks_of_own (h : KernInv k) (hpc : k.table.pc p = .user)
    (hcalls : ∀ q, q ≠ p → k'.calls q = k.calls q) {q : ProcId} {j : ℕ}
    (hq : k.table.pc q = .forkScan j) : k'.calls q = .idle := by
  have hne : q ≠ p := by
    rintro rfl
    rw [hpc] at hq
    cases hq
  rw [hcalls q hne]
  exact h.forks q j hq

theorem step (h : KernInv k) {e : KernEvent} (he : k.step e = some k') : KernInv k' := by
  cases e with
  | proc e => exact h.proc he
  | call c =>
    obtain ⟨p, hrun, he⟩ := Option.bind_eq_some_iff.mp he
    split at he
    · rename_i hidle
      have hown := Kern.call_own he
      refine ⟨by rw [hown.table]; exact h.reach,
        h.files.call (h.not_gone hrun) hidle.2 he, fun q i hq => ?_⟩
      exact h.forks_of_own hidle.1 hown.calls (hown.table ▸ hq)
    · cases he
  | run mem copied =>
    obtain ⟨p, hrun, he⟩ := Option.bind_eq_some_iff.mp he
    split at he
    · rename_i hpc
      have hfiles := h.files.run h.reach.inv (h.not_gone hrun) he
      rcases Kern.run_own he with hown | ⟨s, t, hsleep, rfl⟩ | ⟨hcalls, s, hwake⟩
      · refine ⟨by rw [hown.table]; exact h.reach, hfiles, fun q i hq => ?_⟩
        exact h.forks_of_own hpc hown.calls (hown.table ▸ hq)
      · refine ⟨h.reach.step hsleep.sleep, hfiles, fun q i hq => ?_⟩
        obtain ⟨j, hj⟩ := (ProcTable.step_forkScan hsleep.sleep hq).resolve_right (by simp)
        exact h.forks q j hj
      · refine ⟨h.reach.step hwake, hfiles, fun q i hq => ?_⟩
        obtain ⟨j, hj⟩ := (ProcTable.step_forkScan hwake hq).resolve_right (by simp)
        exact h.forks_of_own hpc hcalls hj
    · cases he

end KernInv

theorem KernReach.inv (hk : KernReach k) : KernInv k := by
  induction hk with
  | boot => exact .boot
  | step _ he ih => exact ih.step he

end YHsys.Kernel
