import YHsys.Kernel.SemLaws

/-!
# A `sys_sem_create` that fails

The call takes a file, a page and a descriptor, in this order, and gives back what it has when
the next one is missing, through `fileclose`. Which resources that releases depends on the
`type` of the file, and `f->type = FD_SEM` comes last: when there is no descriptor, `fileclose`
does not know of the page, and nothing frees it.

`sysSemCreate` is the call from its entry to its return, with no other process in between; it
is a run of the sections of `Kern.step` (`sysSemCreate_steps`).
-/

namespace YHsys.Kernel

namespace Kern

variable (k : Kern)

/-- The pages in use for semaphores. `sys_sem_create` and `fileclose` take and free no other
pages for a file that is no pipe, so the free pages are the same iff these are. -/
def semPages : Set ℕ := {s | s < k.nextSem ∧ (k.history s).frees = 0}

/-- `sem_alloc` (`sem.c:20`) when there is a page. -/
def semAlloc (value : BitVec 32) : Kern :=
  { k.setSem k.nextSem ⟨value, 0, false⟩ with nextSem := k.nextSem + 1 }

/-- The descriptor and the file of semaphore `s` (`sem.c:72` and `:81`). -/
def semInstall (p : ProcId) (fd : Fd) (f : FileId) (s : ℕ) (value : BitVec 32) : Kern :=
  let k := k.setSlot p fd (some f)
  let k := k.setFile f
    { k.files f with type := .sem, readable := true, writable := true, sem := s }
  k.setHistory s ⟨true, value, 0, 0, 0⟩

/-- `s->ref_count++`. -/
def semRef (s : ℕ) : Kern := k.setSem s { k.sems s with refCount := (k.sems s).refCount + 1 }

/-- `sys_sem_create` (`sem.c:50`) with its return value; `mem` says whether `kalloc` has a page.
`none` is a panic of `fileclose`. -/
def sysSemCreate (p : ProcId) (value : BitVec 32) (mem : Bool) : Option (ℤ × Kern) :=
  if value.toInt < 0 then some (-1, k)
  else
    match k.filealloc with
    | none => some (-1, k)
    | some f =>
      let k := k.takeFile f
      if mem then
        let s := k.nextSem
        let k := k.semAlloc value
        match k.fdalloc p with
        | none => (k.fileclose p f .ret).map fun k => (-1, k)
        | some fd => some (fd.val, (k.semInstall p fd f s value).semRef s)
      else (k.fileclose p f .ret).map fun k => (-1, k)

end Kern

variable {k k' : Kern} {p : ProcId} {value : BitVec 32} {mem : Bool}

/-! ## Giving the file back -/

theorem ref_of_filealloc {f : FileId} (h : k.filealloc = some f) : (k.files f).ref = 0 := by
  simpa using List.find?_some h

theorem fileclose_taken {f : FileId} (htype : (k.files f).type = .none) {j : Kern}
    (hj : j.files = (k.takeFile f).files) :
    j.fileclose p f .ret =
      some ((j.setFile f { k.files f with ref := 0, type := .none }).goto p .idle) := by
  have hf : j.files f = { k.files f with ref := 1 } := by simp [hj, Kern.takeFile, Kern.setFile]
  simp [Kern.fileclose, hf, htype, Kern.resume]

theorem files_restored {f : FileId} (href : (k.files f).ref = 0)
    (htype : (k.files f).type = .none) :
    Function.update (k.takeFile f).files f { k.files f with ref := 0, type := .none } =
      k.files := by
  have hself : ({ k.files f with ref := 0, type := .none } : File) = k.files f := by
    cases hfile : k.files f with
    | mk type ref readable writable sem major =>
      rw [hfile] at href htype
      cases href
      cases htype
      rfl
  rw [hself, Kern.takeFile, Kern.setFile, Function.update_idem, Function.update_eq_self]

/-! ## The failure positions -/

theorem sysSemCreate_negative (h : value.toInt < 0) : k.sysSemCreate p value mem = some (-1, k) :=
  if_pos h

theorem sysSemCreate_noFile (hf : k.filealloc = none) :
    k.sysSemCreate p value mem = some (-1, k) := by
  simp [Kern.sysSemCreate, hf]

theorem sysSemCreate_noPage (hk : KernReach k) (hv : ¬ value.toInt < 0) {f : FileId}
    (hf : k.filealloc = some f) : ∃ k', k.sysSemCreate p value false = some (-1, k') ∧
      k'.files = k.files ∧ k'.ofile = k.ofile ∧ k'.nextSem = k.nextSem ∧
      k'.history = k.history := by
  have href := ref_of_filealloc hf
  have htype := hk.inv.files.free f href
  rw [Kern.sysSemCreate, if_neg hv, hf]
  simp only [Bool.false_eq_true, if_false, fileclose_taken htype rfl, Option.map_some]
  exact ⟨_, rfl, files_restored href htype, rfl, rfl, rfl⟩

theorem sysSemCreate_noFd (hk : KernReach k) (hv : ¬ value.toInt < 0) {f : FileId}
    (hf : k.filealloc = some f) (hfd : k.fdalloc p = none) :
    ∃ k', k.sysSemCreate p value true = some (-1, k') ∧ k'.files = k.files ∧
      k'.ofile = k.ofile ∧ k'.nextSem = k.nextSem + 1 ∧ k'.history = k.history := by
  have href := ref_of_filealloc hf
  have htype := hk.inv.files.free f href
  rw [Kern.sysSemCreate, if_neg hv, hf]
  dsimp only
  rw [if_pos rfl]
  split
  · rw [fileclose_taken (j := (k.takeFile f).semAlloc value) htype rfl]
    exact ⟨_, rfl, files_restored href htype, rfl, rfl, rfl⟩
  · rename_i fd hsome
    cases hfd.symm.trans hsome

theorem sysSemCreate_ok (hv : ¬ value.toInt < 0) {f : FileId} (hf : k.filealloc = some f) {fd : Fd}
    (hfd : k.fdalloc p = some fd) : ∃ k', k.sysSemCreate p value true = some (↑fd.val, k') := by
  rw [Kern.sysSemCreate, if_neg hv, hf]
  dsimp only
  rw [if_pos rfl]
  split
  · rename_i hnone
    cases hfd.symm.trans hnone
  · rename_i fd' hsome
    cases hfd.symm.trans hsome
    exact ⟨_, rfl⟩

/-! ## The call as a run of its sections -/

section

variable (p : ProcId) (value : BitVec 32) (f : FileId) (mem copied : Bool)

theorem run_semFile : (k.goto p (.semFile value)).run p mem copied =
    match k.filealloc with
    | none => some (k.goto p .idle)
    | some f => some ((k.takeFile f).goto p (.semMem value f)) := by
  have hf : (k.goto p (.semFile value)).filealloc = k.filealloc := rfl
  rw [Kern.run, Kern.calls_goto]
  dsimp only
  rw [hf]
  cases k.filealloc with
  | none => exact congrArg some (Kern.goto_goto k p _ _)
  | some f => exact congrArg some (Kern.goto_goto (k.takeFile f) p _ _)

theorem run_semMem : (k.goto p (.semMem value f)).run p mem copied =
    if mem then
      match k.fdalloc p with
      | none => some ((k.semAlloc value).goto p (.fileclose f .ret))
      | some fd =>
        some (((k.semAlloc value).semInstall p fd f k.nextSem value).goto p (.semRef k.nextSem))
    else some (k.goto p (.fileclose f .ret)) := by
  rw [Kern.run, Kern.calls_goto]
  dsimp only [Kern.semMem]
  cases mem with
  | false => exact congrArg some (Kern.goto_goto k p _ _)
  | true =>
    rw [if_pos rfl, if_pos rfl]
    split
    · rename_i hfd
      have hfd : k.fdalloc p = none := hfd
      rw [hfd]
      exact congrArg some (Kern.goto_goto (k.semAlloc value) p _ _)
    · rename_i fd hfd
      have hfd : k.fdalloc p = some fd := hfd
      rw [hfd]
      exact congrArg some (Kern.goto_goto
        ((k.semAlloc value).semInstall p fd f k.nextSem value) p _ _)

theorem run_semRef (s : ℕ) :
    (k.goto p (.semRef s)).run p mem copied = some ((k.semRef s).goto p .idle) := by
  rw [Kern.run, Kern.calls_goto]
  exact congrArg some (Kern.goto_goto (k.semRef s) p _ _)

theorem run_fileclose (r : After) :
    (k.goto p (.fileclose f r)).run p mem copied = k.fileclose p f r := by
  have hset : ∀ (c : FileCall) (x : File), (k.goto p c).setFile f x = (k.setFile f x).goto p c :=
    fun _ _ => rfl
  have hfiles : ∀ c, (k.goto p c).files = k.files := fun _ => rfl
  rw [Kern.run, Kern.calls_goto]
  simp only [Kern.fileclose, hset, hfiles, Kern.resume_goto, Kern.goto_goto]

/-- The call is made, and its process does one section after the other. -/
theorem sysSemCreate_steps {r : ℤ} (hrun : k.table.running = some p)
    (hpc : k.table.pc p = .user) (hidle : k.calls p = .idle)
    (h : k.sysSemCreate p value mem = some (r, k')) :
    ∃ n, k.steps (.call (.semCreate value) :: List.replicate n (.run mem true)) = some k' := by
  have hstep : ∀ (j : Kern) (c : FileCall), j.table = k.table →
      (j.goto p c).step (.run mem true) = (j.goto p c).run p mem true := by
    intro j c hj
    have hj : (j.goto p c).table = k.table := hj
    simp [Kern.step, hj, hrun, hpc]
  have hgoto : ∀ j : Kern, j.calls = k.calls → j.goto p .idle = j := by
    intro j hj
    rw [Kern.goto, ← hidle, ← hj, Function.update_eq_self]
  have hcall : k.step (.call (.semCreate value)) = k.call p (.semCreate value) := by
    simp [Kern.step, hrun, hpc, hidle]
  by_cases hv : value.toInt < 0
  · rw [sysSemCreate_negative hv] at h
    cases h
    exact ⟨0, by simp [Kern.steps, hcall, Kern.call, hv]⟩
  rw [Kern.call, if_neg hv] at hcall
  have hfile := (hstep k (.semFile value) rfl).trans (run_semFile p value mem true)
  cases hf : k.filealloc with
  | none =>
    rw [sysSemCreate_noFile hf] at h
    cases h
    rw [hf, hgoto k rfl] at hfile
    exact ⟨1, by simp [Kern.steps, hcall, hfile]⟩
  | some f =>
    rw [hf] at hfile
    have hmem := (hstep (k.takeFile f) (.semMem value f) rfl).trans (run_semMem p value f mem true)
    rw [Kern.sysSemCreate, if_neg hv, hf] at h
    dsimp only at h
    -- the section after the `kalloc`, then one more
    have hthree : ∀ {j j' : Kern}, ((k.takeFile f).goto p (.semMem value f)).step (.run mem true) =
        some j → j.step (.run mem true) = some j' →
        ∃ n, k.steps (.call (.semCreate value) :: List.replicate n (.run mem true)) = some j' :=
      fun hj hj' => ⟨3, by simp [Kern.steps, List.replicate, hcall, hfile, hj, hj']⟩
    have hclose : ∀ {j : Kern}, j.table = k.table →
        (j.fileclose p f .ret).map (fun k => ((-1 : ℤ), k)) = some (r, k') →
        (j.goto p (.fileclose f .ret)).step (.run mem true) = some k' := by
      intro j hj h
      obtain ⟨j', hj', heq⟩ := Option.map_eq_some_iff.mp h
      cases heq
      rw [hstep j _ hj, run_fileclose, hj']
    cases mem with
    | false => exact hthree hmem (hclose rfl h)
    | true =>
      rw [if_pos rfl] at h hmem
      have hfd : ((k.takeFile f).semAlloc value).fdalloc p = (k.takeFile f).fdalloc p := rfl
      rw [hfd] at h
      cases hfd : (k.takeFile f).fdalloc p with
      | none =>
        rw [hfd] at h hmem
        exact hthree hmem (hclose rfl h)
      | some fd =>
        rw [hfd] at h hmem
        cases h
        let j := ((k.takeFile f).semAlloc value).semInstall p fd f (k.takeFile f).nextSem value
        have href := (hstep j (.semRef (k.takeFile f).nextSem) rfl).trans
          (run_semRef p true true _)
        rw [hgoto (j.semRef _) rfl] at href
        exact hthree hmem href

theorem sysSemCreate_steps_init :
    let k := (Kern.boot.step (.proc (.dispatch initproc))).getD .boot
    ∃ n k', k.steps (.call (.semCreate 1) :: List.replicate n (.run true true)) = some k' := by
  intro k
  have hf : k.filealloc = some ⟨0, by decide⟩ := rfl
  have hfd : k.fdalloc initproc = some ⟨0, by decide⟩ := rfl
  obtain ⟨k', hk'⟩ := sysSemCreate_ok (by decide : ¬ (1 : BitVec 32).toInt < 0) hf hfd
  obtain ⟨n, hn⟩ := sysSemCreate_steps initproc 1 true rfl rfl rfl hk'
  exact ⟨n, k', hn⟩

end

/-! ## The pages -/

theorem frees_of_fresh (hk : KernReach k) {s : ℕ} (hs : k.nextSem ≤ s) : (k.history s).frees = 0 := by
  have hinv := hk.semInv
  have htok := hinv.tokens s
  rw [SemHistory.token, hinv.fresh s hs] at htok
  have hcarry := k.carriers_nonneg s
  have hclosing : 0 ≤ ∑ p, (k.calls p).closing s :=
    Finset.sum_nonneg fun p _ => (k.calls p).closing_nonneg s
  simp only [Bool.false_eq_true, if_false] at htok
  omega

theorem semPages_congr (hnext : k'.nextSem = k.nextSem) (hhist : k'.history = k.history) :
    k'.semPages = k.semPages := by
  rw [Kern.semPages, Kern.semPages, hnext, hhist]

theorem semPages_leaked (hk : KernReach k) (hnext : k'.nextSem = k.nextSem + 1)
    (hhist : k'.history = k.history) : k'.semPages ≠ k.semPages := by
  intro h
  have hmem : k.nextSem ∈ k'.semPages :=
    ⟨by omega, by rw [hhist]; exact frees_of_fresh hk le_rfl⟩
  rw [h] at hmem
  exact absurd hmem.1 (lt_irrefl _)

/-! ## The result -/

/-- A failed `sys_sem_create` leaves the file table, the descriptors and the pages as they were
iff it does not fail for want of a descriptor only. -/
theorem failed_semCreate_iff (hk : KernReach k)
    (h : k.sysSemCreate p value mem = some (-1, k')) :
    (k'.files = k.files ∧ k'.ofile = k.ofile ∧ k'.semPages = k.semPages) ↔
      ¬ (0 ≤ value.toInt ∧ k.filealloc ≠ none ∧ mem = true ∧ k.fdalloc p = none) := by
  by_cases hv : value.toInt < 0
  · rw [sysSemCreate_negative hv] at h
    cases h
    exact iff_of_true ⟨rfl, rfl, rfl⟩ fun hc => by omega
  cases hf : k.filealloc with
  | none =>
    rw [sysSemCreate_noFile hf] at h
    cases h
    exact iff_of_true ⟨rfl, rfl, rfl⟩ fun hc => hc.2.1 rfl
  | some f =>
    cases mem with
    | false =>
      obtain ⟨j, hj, hfiles, hofile, hnext, hhist⟩ := sysSemCreate_noPage hk hv hf
      rw [hj] at h
      cases h
      exact iff_of_true ⟨hfiles, hofile, semPages_congr hnext hhist⟩ fun hc => nomatch hc.2.2.1
    | true =>
      cases hfd : k.fdalloc p with
      | none =>
        obtain ⟨j, hj, -, -, hnext, hhist⟩ := sysSemCreate_noFd hk hv hf hfd
        rw [hj] at h
        cases h
        refine iff_of_false (fun hsame => semPages_leaked hk hnext hhist hsame.2.2) fun hc => hc ?_
        exact ⟨by omega, nofun, rfl, rfl⟩
      | some fd =>
        obtain ⟨j, hj⟩ := sysSemCreate_ok hv hf hfd
        rw [hj] at h
        have hret : (fd.val : ℤ) = -1 := congrArg Prod.fst (Option.some.inj h)
        omega

/-- After the boot there is a file and no page. -/
theorem failed_semCreate_boot : ∃ k', Kern.boot.sysSemCreate initproc 1 false = some (-1, k') ∧
    k'.files = Kern.boot.files ∧ k'.ofile = Kern.boot.ofile ∧
    k'.semPages = Kern.boot.semPages := by
  have hf : Kern.boot.filealloc = some ⟨0, by decide⟩ := by decide
  have hv : ¬ (1 : BitVec 32).toInt < 0 := by decide
  obtain ⟨k', hk', -⟩ := sysSemCreate_noPage (p := initproc) .boot hv hf
  exact ⟨k', hk', (failed_semCreate_iff .boot hk').mpr (by simp)⟩

/-- `init` fills its descriptors with semaphores, and asks for one more. -/
theorem failed_semCreate_leaks : ∃ k k', KernReach k ∧ k.table.running = some initproc ∧
    k.table.pc initproc = .user ∧ k.calls initproc = .idle ∧
    k.sysSemCreate initproc 1 true = some (-1, k') ∧ k'.semPages ≠ k.semPages := by
  have hrun : (Kern.boot.steps (.proc (.dispatch initproc) ::
      (List.replicate nofile (createSem 1).tail).flatten)).any (fun k =>
        k.table.running = some initproc ∧ k.table.pc initproc = .user ∧
        k.calls initproc = .idle ∧ k.filealloc.isSome ∧ k.fdalloc initproc = none) := by
    decide +kernel
  obtain ⟨k, hk, hs⟩ := Option.any_eq_true _ _ |>.mp hrun
  obtain ⟨hrunning, hpc, hidle, hf, hfd⟩ : k.table.running = some initproc ∧
    k.table.pc initproc = .user ∧ k.calls initproc = .idle ∧ k.filealloc.isSome ∧
    k.fdalloc initproc = none := by simpa using hs
  obtain ⟨f, hf⟩ := Option.isSome_iff_exists.mp hf
  have hreach := KernReach.boot.steps hk
  have hv : ¬ (1 : BitVec 32).toInt < 0 := by decide
  obtain ⟨k', hk', -, -, hnext, hhist⟩ := sysSemCreate_noFd hreach hv hf hfd
  exact ⟨k, k', hreach, hrunning, hpc, hidle, hk', semPages_leaked hreach hnext hhist⟩

end YHsys.Kernel
