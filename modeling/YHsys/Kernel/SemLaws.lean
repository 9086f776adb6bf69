import YHsys.Kernel.SemRuns

/-!
# What semaphores and descriptors guarantee

No wakeup is lost, the value of a semaphore is its history modulo `2 ^ 32`, and a page is
freed once, when the last descriptor is gone.
-/

namespace YHsys.Kernel

variable {k k' : Kern} {p q : ProcId} {f : FileId} {s : ℕ}

attribute [local irreducible] ProcTable.wakeup

/-! ## No lost wakeup -/

/-- A waiter has to stay in its loop. -/
def Semaphore.Blocks (x : Semaphore) : Prop := x.value.toInt ≤ 0 ∧ x.destroyed = false

/-- What a section does to the semaphores there are: each still blocks if it did, or its
sleepers were woken. -/
structure SemsKept (k k' : Kern) : Prop where
  next : k.nextSem ≤ k'.nextSem
  blocks : ∀ s, s < k.nextSem → (k.sems s).Blocks →
    (k'.sems s).Blocks ∨ k'.table = k.table.wakeup (some (.other (semChan s)))

theorem SemsKept.of_eq (hnext : k'.nextSem = k.nextSem) (hsems : k'.sems = k.sems) :
    SemsKept k k' :=
  ⟨hnext.ge, fun s _ hs => .inl (by rwa [hsems])⟩

theorem SemsKept.of_update {x : Semaphore} (hnext : k'.nextSem = k.nextSem)
    (hsems : k'.sems = Function.update k.sems s x)
    (hx : (k.sems s).Blocks → x.Blocks ∨ k'.table = k.table.wakeup (some (.other (semChan s)))) :
    SemsKept k k' := by
  refine ⟨hnext.ge, fun t _ ht => ?_⟩
  rw [hsems]
  by_cases hts : t = s
  · subst hts
    rw [Function.update_self]
    exact hx ht
  · rw [Function.update_of_ne hts]
    exact .inl ht

namespace Kern

theorem call_sems {c : FileSys} (he : k.call p c = some k') : SemsKept k k' := by
  unfold call at he
  repeat' split at he
  all_goals
    cases he
    try exact .of_eq rfl rfl

theorem run_sems {mem copied : Bool} (he : k.run p mem copied = some k') : SemsKept k k' := by
  have hresume : ∀ {k1 : Kern} {r : After}, k1.nextSem = k.nextSem → k1.sems = k.sems →
      SemsKept k (k1.resume p r) := by
    intro k1 r hnext hsems
    obtain ⟨-, hs, -, hn, -, -⟩ := k1.resume_rest p r
    exact .of_eq (hn.trans hnext) (hs.trans hsems)
  unfold run at he
  split at he
  · cases he
  · cases he
  · cases he
    unfold openAlloc
    simp only
    repeat' split
    all_goals exact .of_eq rfl rfl
  · unfold filedup at he
    split at he
    · cases he
    · cases he
      exact .of_eq rfl rfl
  · unfold fileclose at he
    simp only at he
    repeat' split at he
    all_goals
      cases he
      try
        first
        | exact hresume rfl rfl
        | exact .of_eq rfl rfl
  · cases he
    exact hresume rfl rfl
  · rename_i s r _
    cases he
    unfold semClose
    simp only
    split
    · obtain ⟨-, hs, -, hn, -, -⟩ := (k.setSem s { k.sems s with
        refCount := (k.sems s).refCount - 1 }).resume_rest p r
      exact .of_update hn hs .inl
    · exact .of_update rfl rfl .inl
  · cases he
    exact hresume rfl rfl
  · cases he
    unfold exitLoop
    repeat' split
    all_goals exact .of_eq rfl rfl
  · split at he <;> cases he <;> exact .of_eq rfl rfl
  · split at he <;> cases he <;> exact .of_eq rfl rfl
  · cases he
    unfold pipeMem
    simp only
    repeat' split
    all_goals exact .of_eq rfl rfl
  · split at he <;> cases he <;> exact .of_eq rfl rfl
  · -- a new semaphore is none of those there are
    cases he
    have hnew : ∀ {k1 : Kern} {x : Semaphore}, k1.nextSem = k.nextSem + 1 →
        k1.sems = Function.update k.sems k.nextSem x → SemsKept k k1 := by
      intro k1 x hnext hsems
      refine ⟨by omega, fun t ht hb => .inl ?_⟩
      rwa [hsems, Function.update_of_ne (by omega)]
    unfold semMem
    simp only
    repeat' split
    · exact hnew rfl rfl
    · exact hnew rfl rfl
    · exact .of_eq rfl rfl
  · cases he
    exact .of_update rfl rfl .inl
  · unfold semWait at he
    simp only at he
    split at he
    · split at he
      · cases he
        exact .of_eq rfl rfl
      · obtain ⟨t, -, rfl⟩ := Option.map_eq_some_iff.mp he
        exact .of_eq rfl rfl
    · rename_i hpos
      cases he
      exact .of_update rfl rfl fun hb => absurd hb.1 hpos
  · cases he
    exact .of_update rfl rfl fun _ => .inr rfl
  · cases he
    exact .of_update rfl rfl fun _ => .inr rfl

end Kern

theorem ProcTable.not_asleep_wakeup {t : ProcTable} (ht : TreeInv t) {c : ℕ} :
    ¬ (t.wakeup (some (.other c))).Asleep q c := by
  rintro ⟨hsl, hchan⟩
  have hwakes := t.wakeup_wakes (some (.other c))
  have hrun : t.running ≠ some q := by
    intro hrun
    have := hwakes.of_sleeping hsl
    rw [(ht.running q).mp hrun] at this
    cases this
  rw [hwakes.chan q] at hchan
  exact t.wakeup_awake _ hrun hsl hchan

/-- Whoever sleeps on a semaphore has to. -/
def SleepInv (k : Kern) : Prop :=
  ∀ q s, k.table.Asleep q (semChan s) → s < k.nextSem ∧ (k.sems s).Blocks

namespace SleepInv

theorem kept (h : SleepInv k) (ht : TreeInv k.table) (hkept : SemsKept k k')
    (hold : k'.table.Asleep q (semChan s) → k.table.Asleep q (semChan s))
    (hq : k'.table.Asleep q (semChan s)) : s < k'.nextSem ∧ (k'.sems s).Blocks := by
  obtain ⟨hlt, hblocks⟩ := h q s (hold hq)
  refine ⟨hlt.trans_le hkept.next, (hkept.blocks s hlt hblocks).resolve_right fun hwake => ?_⟩
  rw [hwake] at hq
  exact ProcTable.not_asleep_wakeup ht hq

theorem proc (h : SleepInv k) (hk : KernInv k) {e : ProcEvent} (he : k.proc e = some k') :
    SleepInv k' := by
  cases e with
  | call c =>
    obtain ⟨p, hrun, he⟩ := Option.bind_eq_some_iff.mp he
    split at he
    · rename_i hmay
      obtain ⟨t, ht, rfl⟩ := Option.map_eq_some_iff.mp he
      -- the other calls sleep on other channels
      have hold : ∀ q s, t.Asleep q (semChan s) → s < k.nextSem ∧ (k.sems s).Blocks := by
        intro q s hq
        rcases ProcTable.step_asleep hk.reach.inv ht hq with hq | heq
        · exact h q s hq
        · cases heq
          simp [Kern.mayCall, semChan] at hmay
      cases c <;> exact hold
    · cases he
  | dispatch | yield | run | wakeup =>
    simp only [Kern.proc] at he
    obtain ⟨t, ht, he⟩ := Option.bind_eq_some_iff.mp he
    have hold : SleepInv { k with table := t } := fun q s hq =>
      h q s ((ProcTable.step_asleep hk.reach.inv ht hq).resolve_right (by simp))
    split at he
    · cases he
      exact hold
    · rename_i p np hslot
      obtain ⟨hrun, i, hpc, hnp, -⟩ := Kern.forkSlot_spec ht hslot
      have hne : p ≠ np := by
        rintro rfl
        exact hk.not_gone hrun (.inl hnp)
      have hf := Kern.forked hne _ he
      intro q s hq
      rw [hf.table] at hq
      rw [hf.nextSem, hf.sems]
      exact hold q s hq

theorem step (h : SleepInv k) (hk : KernInv k) (hs : SemInv k) {e : KernEvent}
    (he : k.step e = some k') : SleepInv k' := by
  have ht := hk.reach.inv
  cases e with
  | proc e => exact h.proc hk he
  | call c =>
    obtain ⟨p, -, he⟩ := Option.bind_eq_some_iff.mp he
    split at he
    · exact fun q s => h.kept ht (Kern.call_sems he) (by rw [(Kern.call_own he).table]; exact id)
    · cases he
  | run mem copied =>
    obtain ⟨p, -, he⟩ := Option.bind_eq_some_iff.mp he
    split at he
    · intro q s hq
      rcases Kern.run_own he with hown | ⟨s', t, hsleep, rfl⟩ | ⟨-, s', hwake⟩
      · exact h.kept ht (Kern.run_sems he) (by rw [hown.table]; exact id) hq
      · rcases ProcTable.step_asleep ht hsleep.sleep hq with hold | heq
        · exact h q s hold
        · -- the new sleeper has just found that the semaphore blocks
          have hss : s = s' := by
            simp only [ProcEvent.call.injEq, ProcCall.sleep.injEq, semChan] at heq
            omega
          subst hss
          obtain ⟨fd, f, hc⟩ := hsleep.call
          obtain ⟨-, htype, hsem⟩ := hk.files.uses p fd f s (by rw [hc]; rfl)
          have hmade := (hs.of_carried (Kern.one_le_carriers htype hsem)).1
          refine ⟨?_, hsleep.value, hsleep.destroyed⟩
          by_contra hge
          rw [hs.fresh s (by simpa using hge)] at hmade
          cases hmade
      · exact h.kept ht (Kern.run_sems he) (fun hq =>
          (ProcTable.step_asleep ht hwake hq).resolve_right (by simp)) hq
    · cases he

end SleepInv

theorem KernReach.sleepInv (hk : KernReach k) : SleepInv k := by
  induction hk with
  | boot =>
    intro q s hq
    have hstate := hq.1
    simp only [Kern.boot, ProcTable.boot] at hstate
    split at hstate <;> cases hstate
  | step hk he ih => exact ih.step hk.inv hk.semInv he

/-- In every reachable state, whoever sleeps on a semaphore could not go on: its value is not
positive and it is not destroyed. -/
theorem semaphore_no_lost_wakeup (hk : KernReach k) :
    ∀ q s, k.table.Asleep q (semChan s) →
      (k.sems s).value.toInt ≤ 0 ∧ (k.sems s).destroyed = false :=
  fun q s hq => (hk.sleepInv q s hq).2

/-! ### A run -/

instance (t : ProcTable) (q : ProcId) (c : ℕ) : Decidable (t.Asleep q c) :=
  inferInstanceAs (Decidable (_ ∧ _))

/-- Several events. -/
def Kern.steps (k : Kern) (es : List KernEvent) : Option Kern := es.foldlM Kern.step k

theorem KernReach.steps {es : List KernEvent} (hk : KernReach k) (he : k.steps es = some k') :
    KernReach k' := by
  induction es generalizing k with
  | nil =>
    cases he
    exact hk
  | cons e es ih =>
    obtain ⟨k1, hstep, hrest⟩ := Option.bind_eq_some_iff.mp he
    exact ih (hk.step hstep) hrest

/-- `init` runs, and creates a semaphore. -/
def createSem (value : BitVec 32) : List KernEvent :=
  [.proc (.dispatch initproc), .call (.semCreate value), .run true true, .run true true,
    .run true true]

/-- `init` sleeps on a semaphore it created with value 0. -/
theorem semaphore_no_lost_wakeup_init : ∃ k, KernReach k ∧ k.table.Asleep initproc (semChan 0) ∧
    (k.sems 0).value.toInt ≤ 0 ∧ (k.sems 0).destroyed = false := by
  have hrun : (Kern.boot.steps (createSem 0 ++ [.call (.semWait 0), .run true true])).any
      (fun k => k.table.Asleep initproc (semChan 0)) := by decide +kernel
  obtain ⟨k, hk, hq⟩ := Option.any_eq_true _ _ |>.mp hrun
  have hreach := KernReach.boot.steps hk
  have hq : k.table.Asleep initproc (semChan 0) := by simpa using hq
  exact ⟨k, hreach, hq, semaphore_no_lost_wakeup hreach initproc 0 hq⟩

/-! ## Counting -/

/-- `INT_MAX`. -/
def intMax : ℤ := 2 ^ 31 - 1

theorem toInt_ofInt_eq_iff {n : ℤ} (h : 0 ≤ n) :
    (BitVec.ofInt 32 n).toInt = n ∧ 0 ≤ (BitVec.ofInt 32 n).toInt ↔ n ≤ intMax := by
  have hle := BitVec.toInt_lt (x := BitVec.ofInt 32 n)
  rw [BitVec.toInt_ofInt] at hle ⊢
  simp only [Int.bmod_def, intMax] at hle ⊢
  omega

/-- The stored value of a semaphore is what was put in minus what was taken out, and not
negative, as long as that number is at most `INT_MAX`, and not beyond. -/
theorem semaphore_counting (hk : KernReach k) (hs : (k.history s).made = true) :
    ((k.sems s).value.toInt = (k.history s).initial.toInt + (k.history s).posts -
        (k.history s).waits ∧ 0 ≤ (k.sems s).value.toInt) ↔
      (k.history s).initial.toInt + (k.history s).posts - (k.history s).waits ≤ intMax := by
  obtain ⟨hvalue, hcount⟩ := hk.semInv.counts s hs
  rw [hvalue]
  exact toInt_ofInt_eq_iff hcount

/-- A semaphore created with value 1. -/
theorem semaphore_counting_one : ∃ k, KernReach k ∧ (k.history 0).made = true ∧
    (((k.sems 0).value.toInt = (k.history 0).initial.toInt + (k.history 0).posts -
        (k.history 0).waits ∧ 0 ≤ (k.sems 0).value.toInt) ↔
      (k.history 0).initial.toInt + (k.history 0).posts - (k.history 0).waits ≤ intMax) := by
  have hrun : (Kern.boot.steps (createSem 1)).any (fun k => (k.history 0).made) := by
    decide +kernel
  obtain ⟨k, hk, hs⟩ := Option.any_eq_true _ _ |>.mp hrun
  have hreach := KernReach.boot.steps hk
  exact ⟨k, hreach, hs, semaphore_counting hreach hs⟩

/-- A post to a semaphore created with `INT_MAX` makes its value negative. -/
theorem semaphore_counting_overflow : ∃ k, KernReach k ∧ (k.history 0).made = true ∧
    (k.history 0).initial.toInt = intMax ∧ (k.history 0).posts = 1 ∧ (k.history 0).waits = 0 ∧
    (k.sems 0).value.toInt = -2 ^ 31 := by
  have hrun : (Kern.boot.steps (createSem 0x7fffffff ++ [.call (.semPost 0), .run true true])).any
      (fun k => (k.history 0).made ∧ (k.history 0).initial.toInt = intMax ∧
        (k.history 0).posts = 1 ∧ (k.history 0).waits = 0 ∧
        (k.sems 0).value.toInt = -2 ^ 31) := by decide +kernel
  obtain ⟨k, hk, hs⟩ := Option.any_eq_true _ _ |>.mp hrun
  exact ⟨k, KernReach.boot.steps hk, by simpa using hs⟩

/-! ## Lifetime -/

/-- Some descriptor is to semaphore `s`. -/
def Kern.Open (k : Kern) (s : ℕ) : Prop :=
  ∃ p fd f, k.ofile p fd = some f ∧ (k.files f).type = .sem ∧ (k.files f).sem = s

/-- Process `p` is closing a descriptor to semaphore `s`. -/
def Kern.Closing (k : Kern) (p : ProcId) (s : ℕ) : Prop :=
  (∃ f ∈ (k.calls p).held, (k.files f).type = .sem ∧ (k.files f).sem = s) ∨
    ∃ r, k.calls p = .semClose s r ∨ k.calls p = .semFree s r

theorem FileCall.closing_eq_one_iff (c : FileCall) (s : ℕ) :
    c.closing s = 1 ↔ ∃ r, c = .semClose s r ∨ c = .semFree s r := by
  unfold closing
  cases c <;> simp [semPoint]

theorem share_pos {o : Fd → Option FileId} {c : FileCall} (h : 1 ≤ share o c f) :
    (∃ fd, o fd = some f) ∨ f ∈ c.held := by
  by_contra hcon
  push Not at hcon
  have hslots : slots o c.skip f = 0 := Finset.sum_eq_zero fun fd _ =>
    if_neg fun hfd => hcon.1 fd hfd.2
  have hcount : c.held.count f = 0 := List.count_eq_zero.mpr hcon.2
  rw [share, hslots, hcount] at h
  simp at h

theorem FileInv.owner (h : FileInv k) (hf : (k.files f).type ≠ .none) :
    ∃ p, (∃ fd, k.ofile p fd = some f) ∨ f ∈ (k.calls p).held := by
  by_contra hcon
  push Not at hcon
  refine hf (h.free f ?_)
  rw [h.refs f]
  refine Finset.sum_eq_zero fun p _ => ?_
  by_contra hne
  have := share_nonneg (k.ofile p) (k.calls p) f
  rcases share_pos (show 1 ≤ share (k.ofile p) (k.calls p) f by omega) with ⟨fd, hfd⟩ | hheld
  · exact (hcon p).1 fd hfd
  · exact (hcon p).2 hheld

theorem frees_eq_zero_iff (hk : KernReach k) (hs : (k.history s).made = true) :
    (k.history s).frees = 0 ↔ k.Open s ∨ ∃ p, k.Closing p s := by
  have hinv := hk.semInv
  have htok := hinv.tokens s
  rw [SemHistory.token, if_pos hs] at htok
  constructor
  · intro hfrees
    by_cases hclosing : ∃ p, (k.calls p).closing s = 1
    · obtain ⟨p, hp⟩ := hclosing
      exact .inr ⟨p, .inr ((FileCall.closing_eq_one_iff _ s).mp hp)⟩
    · -- no call has the semaphore, so a file carries it
      push Not at hclosing
      have hzero : ∑ p, (k.calls p).closing s = 0 := Finset.sum_eq_zero fun p _ => by
        have := hclosing p
        unfold FileCall.closing at this ⊢
        split <;> simp_all
      obtain ⟨f, -, hf⟩ : ∃ f ∈ Finset.univ, (k.files f).carries s ≠ 0 :=
        Finset.exists_ne_zero_of_sum_ne_zero (show k.carriers s ≠ 0 by omega)
      have hcarry : (k.files f).type = .sem ∧ (k.files f).sem = s := by
        by_contra hno
        exact hf (if_neg hno)
      obtain ⟨p, ⟨fd, hfd⟩ | hheld⟩ := hk.inv.files.owner (f := f) (by rw [hcarry.1]; rintro ⟨⟩)
      · exact .inl ⟨p, fd, f, hfd, hcarry⟩
      · exact .inr ⟨p, .inl ⟨f, hheld, hcarry⟩⟩
  · rintro (⟨p, fd, f, -, htype, hsem⟩ | ⟨p, ⟨f, -, htype, hsem⟩ | hr⟩)
    · exact (hinv.of_carried (Kern.one_le_carriers htype hsem)).2
    · exact (hinv.of_carried (Kern.one_le_carriers htype hsem)).2
    · have hone := (FileCall.closing_eq_one_iff _ s).mpr hr
      have hle : (k.calls p).closing s ≤ ∑ q, (k.calls q).closing s :=
        Finset.single_le_sum (f := fun q => (k.calls q).closing s)
          (fun q _ => (k.calls q).closing_nonneg s) (Finset.mem_univ p)
      have := k.carriers_nonneg s
      omega

theorem ref_eq_card (hk : KernReach k) (hidle : ∀ p, k.calls p = .idle) (f : FileId) :
    (k.files f).ref =
      (Finset.univ.filter fun x : ProcId × Fd => k.ofile x.1 x.2 = some f).card := by
  rw [hk.inv.files.refs f, Finset.card_filter, Fintype.sum_prod_type]
  push_cast
  refine Finset.sum_congr rfl fun p _ => ?_
  simp [share, slots, hidle p, FileCall.held, FileCall.skip]

/-- In every reachable state: while no call is in progress the references of a file are its
descriptors; and a semaphore whose creation succeeded is freed at most once, is freed when
no descriptor is left and the last one has been closed, not before, and is not freed while
a process waits for it or posts to it. -/
theorem descriptor_and_semaphore_lifetime (hk : KernReach k) :
    ((∀ p, k.calls p = .idle) → ∀ f, (k.files f).ref =
      (Finset.univ.filter fun x : ProcId × Fd => k.ofile x.1 x.2 = some f).card) ∧
    ∀ s, (k.history s).made = true →
      (k.history s).frees ≤ 1 ∧
      ((k.history s).frees = 0 ↔ k.Open s ∨ ∃ p, k.Closing p s) ∧
      ((∀ p, k.calls p = .idle) → ((k.history s).frees = 1 ↔ ¬ k.Open s)) ∧
      ∀ p fd f, k.calls p = .semWait fd f s ∨ k.calls p = .semPost fd f s →
        (k.history s).frees = 0 := by
  refine ⟨ref_eq_card hk, fun s hs => ?_⟩
  have hiff := frees_eq_zero_iff hk hs
  have hle : (k.history s).frees ≤ 1 := by
    have htok := hk.semInv.tokens s
    rw [SemHistory.token, if_pos hs] at htok
    have := k.carriers_nonneg s
    have : 0 ≤ ∑ p, (k.calls p).closing s :=
      Finset.sum_nonneg fun p _ => (k.calls p).closing_nonneg s
    omega
  refine ⟨hle, hiff, fun hidle => ?_, fun p fd f hcall => ?_⟩
  · have hclosed : ¬ ∃ p, k.Closing p s := by
      rintro ⟨p, ⟨f, hf, -⟩ | ⟨r, hr | hr⟩⟩
      · simp [hidle p, FileCall.held] at hf
      · simp [hidle p] at hr
      · simp [hidle p] at hr
    rw [or_iff_left hclosed] at hiff
    rw [← hiff]
    omega
  · have huses : (k.calls p).uses = some (fd, f, s) := by
      rcases hcall with hcall | hcall <;> rw [hcall] <;> rfl
    obtain ⟨-, htype, hsem⟩ := hk.inv.files.uses p fd f s huses
    exact (hk.semInv.of_carried (Kern.one_le_carriers htype hsem)).2

/-- `init` creates a semaphore and closes it: its page is free and no descriptor is to it. -/
theorem descriptor_and_semaphore_lifetime_close : ∃ k, KernReach k ∧
    (k.history 0).made = true ∧ (∀ p, k.calls p = .idle) ∧ (k.history 0).frees = 1 ∧
    ¬ k.Open 0 ∧ ∀ f, (k.files f).ref =
      (Finset.univ.filter fun x : ProcId × Fd => k.ofile x.1 x.2 = some f).card := by
  have hrun : (Kern.boot.steps (createSem 1 ++
      [.call (.close 0), .run true true, .run true true, .run true true])).any
      (fun k => (k.history 0).made ∧ (∀ p, k.calls p = .idle) ∧ (k.history 0).frees = 1) := by
    decide +kernel
  obtain ⟨k, hk, hs⟩ := Option.any_eq_true _ _ |>.mp hrun
  obtain ⟨hmade, hidle, hfrees⟩ : (k.history 0).made ∧ (∀ p, k.calls p = .idle) ∧
    (k.history 0).frees = 1 := by simpa using hs
  have hreach := KernReach.boot.steps hk
  obtain ⟨hrefs, hsem⟩ := descriptor_and_semaphore_lifetime hreach
  exact ⟨k, hreach, hmade, hidle, hfrees, ((hsem 0 hmade).2.2.1 hidle).mp hfrees, hrefs hidle⟩

end YHsys.Kernel
