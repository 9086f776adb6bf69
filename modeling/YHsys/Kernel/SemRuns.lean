import YHsys.Kernel.SemInv

/-!
# Semaphores over all runs

Every section keeps `SemInv`, and with it what is known of the sleepers of a semaphore.
-/

namespace YHsys.Kernel

open Function (update update_apply update_eq_self update_of_ne update_self)
open SemHistory (count token)
open FileCall (semPoint closing atClose atRef)

variable {k k' : Kern} {p : ProcId} {f : FileId} {s : ℕ}

attribute [local irreducible] ProcTable.wakeup

namespace Kern

theorem resume_rest (k : Kern) (p : ProcId) (r : After) :
    (k.resume p r).files = k.files ∧ (k.resume p r).sems = k.sems ∧
      (k.resume p r).history = k.history ∧ (k.resume p r).nextSem = k.nextSem ∧
      ((k.resume p r).calls p).semPoint = none ∧ ((k.resume p r).calls p).initial = none := by
  cases r <;> simp [resume, goto, setSlot, semPoint, FileCall.initial]

theorem carriers_congr (h : ∀ f s, (k'.files f).carries s = (k.files f).carries s) (s : ℕ) :
    k'.carriers s = k.carriers s :=
  Finset.sum_congr rfl fun f _ => h f s

theorem carriers_setFile_of_eq {x : File} (h : ∀ s, x.carries s = (k.files f).carries s) (s : ℕ) :
    (k.setFile f x).carriers s = k.carriers s := by
  rw [carriers_setFile, h]
  omega

end Kern

open Kern (calls_goto carriers carriers_setFile_of_eq)

namespace SemInv

theorem goto (h : SemInv k) {k1 : Kern} {c : FileCall} (hcalls : k1.calls = k.calls)
    (hcarriers : ∀ s, k1.carriers s = k.carriers s) (hsems : k1.sems = k.sems)
    (hhistory : k1.history = k.history) (hnext : k1.nextSem = k.nextSem)
    (hpoint : (k.calls p).semPoint = none) (hc : c.semPoint = none)
    (hinitial : ∀ v, c.initial = some v → 0 ≤ v.toInt) : SemInv (k1.goto p c) := by
  refine h.quiet (p := p) (fun q hq => ?_) hcarriers ?_ ?_ hsems hhistory hnext
  · exact (update_of_ne hq ..).trans (congrFun hcalls q)
  · rw [calls_goto, hc, hpoint]
  · rwa [calls_goto]

theorem resume (h : SemInv k) {k1 : Kern} {r : After} (hcalls : k1.calls = k.calls)
    (hcarriers : ∀ s, k1.carriers s = k.carriers s) (hsems : k1.sems = k.sems)
    (hhistory : k1.history = k.history) (hnext : k1.nextSem = k.nextSem)
    (hpoint : (k.calls p).semPoint = none) : SemInv (k1.resume p r) := by
  obtain ⟨hfiles, hs, hh, hn, hp, hi⟩ := k1.resume_rest p r
  have hown : OwnStep k1 p (k1.resume p r) := (OwnStep.refl k1 p).resume
  refine h.quiet (p := p) (fun q hq => ?_) (fun s => ?_) ?_ ?_ (hs.trans hsems)
    (hh.trans hhistory) (hn.trans hnext)
  · exact (hown.calls q hq).trans (congrFun hcalls q)
  · rw [carriers, hfiles]
    exact hcarriers s
  · rw [hp, hpoint]
  · rw [hi]
    rintro _ ⟨⟩

theorem call (h : SemInv k) (hc : k.calls p = .idle) {c : FileSys} (he : k.call p c = some k') :
    SemInv k' := by
  have hgoto : ∀ {k1 : Kern} {c : FileCall}, k1.calls = k.calls → k1.files = k.files →
      k1.sems = k.sems → k1.history = k.history → k1.nextSem = k.nextSem → c.semPoint = none →
      (∀ v, c.initial = some v → 0 ≤ v.toInt) → SemInv (k1.goto p c) :=
    fun hcalls hfiles hsems hhistory hnext hpoint hinitial => h.goto hcalls
      (fun s => by rw [carriers, hfiles]; rfl) hsems hhistory hnext (by rw [hc]; rfl) hpoint
      hinitial
  cases c with
  | semCreate value =>
    simp only [Kern.call] at he
    split at he
    · cases he
      exact h
    · rename_i hpos
      cases he
      refine hgoto rfl rfl rfl rfl rfl rfl fun v hv => ?_
      cases hv
      omega
  | _ =>
    simp only [Kern.call] at he
    repeat' split at he
    all_goals
      cases he
      try
        first
        | exact h
        | exact hgoto rfl rfl rfl rfl rfl rfl (by simp [FileCall.initial])

/-! ## Closing -/

theorem fileclose (h : SemInv k) {r : After} (hc : k.calls p = .fileclose f r)
    (he : k.fileclose p f r = some k') : SemInv k' := by
  have hpoint : (k.calls p).semPoint = none := by rw [hc]; rfl
  unfold Kern.fileclose at he
  simp only at he
  split at he
  · cases he
  split at he
  · cases he
    exact h.resume rfl (carriers_setFile_of_eq fun _ => rfl) rfl rfl rfl hpoint
  · -- a file that carries no semaphore is free now
    have hnone : (k.files f).type ≠ .sem → ∀ s, (k.setFile f { k.files f with
        ref := 0, type := .none }).carriers s = k.carriers s := fun hne =>
      carriers_setFile_of_eq fun s => by
        rw [File.carries_of_ne hne, File.carries_of_ne (by simp)]
    split at he
    · rename_i htype
      cases he
      exact h.goto rfl (hnone (by simp [htype])) rfl rfl rfl hpoint rfl (by rintro _ ⟨⟩)
    · rename_i htype
      cases he
      exact h.goto rfl (hnone (by simp [htype])) rfl rfl rfl hpoint rfl (by rintro _ ⟨⟩)
    · rename_i htype
      cases he
      exact h.goto rfl (hnone (by simp [htype])) rfl rfl rfl hpoint rfl (by rintro _ ⟨⟩)
    · -- the semaphore goes from the file to the call
      rename_i htype
      cases he
      have hcarry : ∀ s, (k.files f).carries s = if (k.files f).sem = s then 1 else 0 := by
        simp [File.carries, htype]
      have hcarriers : ∀ s, ((k.setFile f { k.files f with ref := 0, type := .none }).goto p
          (.semClose (k.files f).sem r)).carriers s =
          k.carriers s - if (k.files f).sem = s then 1 else 0 := by
        intro s
        have := k.carriers_setFile f { k.files f with ref := 0, type := .none } s
        rw [File.carries_of_ne (x := { k.files f with ref := 0, type := .none }) (by rintro ⟨⟩), hcarry]
          at this
        exact this.trans (by omega)
      refine h.moved (p := p) (fun q hq => update_of_ne hq ..) (fun s => ?_) (fun s => ?_)
        h.fresh (fun _ hs => hs) ?_ ?_ h.counts
      · rw [hcarriers, calls_goto, closing, closing, hpoint]
        simp only [semPoint, Option.some.injEq, SemPoint.close.injEq, reduceCtorEq,
          or_false, if_false]
        show _ + (((k.history s).frees : ℤ)) - (k.history s).token = _
        split <;> omega
      · rw [hcarriers, calls_goto, atClose, atClose, atRef,
          atRef, hpoint]
        simp only [semPoint, Option.some.injEq, SemPoint.close.injEq, reduceCtorEq,
          if_false]
        show (k.sems s).refCount - _ - _ + _ = _
        split <;> omega
      · rw [calls_goto]
        rintro _ ⟨⟩
      · rw [calls_goto]
        rintro _ ⟨⟩
    · rename_i htype
      cases he
      exact h.resume rfl (hnone (by simp [htype])) rfl rfl rfl hpoint

theorem semClose (h : SemInv k) {r : After} (hc : k.calls p = .semClose s r) :
    SemInv (k.semClose p s r) := by
  have hpoint : (k.calls p).semPoint = some (.close s) := by rw [hc]; rfl
  -- the semaphore has no file, so this is its last reference
  have hlast : ¬ (k.sems s).refCount - 1 > 0 := by
    have htok := h.tokens s
    have hrefs := h.refs s
    have hcar := k.carriers_nonneg s
    have hle : ∑ q, (k.calls q).atClose s ≤ ∑ q, (k.calls q).closing s :=
      Finset.sum_le_sum fun q _ => (k.calls q).atClose_le_closing s
    have href : 0 ≤ ∑ q, (k.calls q).atRef s :=
      Finset.sum_nonneg fun q _ => (k.calls q).atRef_nonneg s
    have hone : (k.history s).token ≤ 1 := by
      unfold token
      split <;> simp
    omega
  unfold Kern.semClose
  simp only
  rw [if_neg hlast]
  refine h.moved (p := p) (fun q hq => update_of_ne hq ..) (fun t => ?_) (fun t => ?_)
    h.fresh (fun _ hs => hs) ?_ ?_ fun t ht => ?_
  · rw [calls_goto, closing, closing, hpoint]
    simp [semPoint, Kern.goto, Kern.setSem, carriers]
  · rw [calls_goto, atClose, atClose, atRef, atRef, hpoint]
    by_cases hts : s = t
    · subst hts
      simp [semPoint, Kern.goto, Kern.setSem, carriers]
      omega
    · simp [semPoint, Kern.goto, Kern.setSem, carriers, hts, Ne.symm hts]
  · rw [calls_goto]
    rintro _ ⟨⟩
  · rw [calls_goto]
    rintro _ ⟨⟩
  · have hvalue : (update k.sems s { k.sems s with
        refCount := (k.sems s).refCount - 1 } t).value = (k.sems t).value := by
      by_cases hts : t = s
      · rw [hts, update_self]
      · rw [update_of_ne hts]
    exact hvalue ▸ h.counts t ht

theorem semFree (h : SemInv k) {r : After} (hc : k.calls p = .semFree s r) :
    SemInv (k.semFree p s r) := by
  have hpoint : (k.calls p).semPoint = some (.free s) := by rw [hc]; rfl
  unfold Kern.semFree
  generalize hk1 : k.setHistory s { k.history s with frees := (k.history s).frees + 1 } = k1
  obtain ⟨hfiles, hs, hh, hn, hp, hi⟩ := k1.resume_rest p r
  have hown : OwnStep k1 p (k1.resume p r) := (OwnStep.refl k1 p).resume
  have hcalls : k1.calls = k.calls := by rw [← hk1]; rfl
  have hfiles' : k1.files = k.files := by rw [← hk1]; rfl
  have hsems : k1.sems = k.sems := by rw [← hk1]; rfl
  have hnext : k1.nextSem = k.nextSem := by rw [← hk1]; rfl
  have hhist : ∀ t, k1.history t = { k.history t with
      frees := (k.history t).frees + if s = t then 1 else 0 } := by
    intro t
    rw [← hk1]
    by_cases ht : s = t
    · subst ht
      simp [Kern.setHistory]
    · simp [Kern.setHistory, ht, Ne.symm ht]
  have hcar : ∀ t, (k1.resume p r).carriers t = k.carriers t := fun t => by
    rw [carriers, hfiles, hfiles']
    rfl
  refine h.moved (p := p) (fun q hq => ?_) (fun t => ?_) (fun t => ?_) (fun t ht => ?_)
    (fun t ht => ?_) ?_ ?_ fun t ht => ?_
  · rw [hown.calls q hq, hcalls]
  · rw [hcar, hh, hhist, closing, hp, closing, hpoint]
    simp only [token, reduceCtorEq, Option.some.injEq, SemPoint.free.injEq, false_or,
      or_self, if_false]
    split <;> push_cast <;> omega
  · rw [hcar, hs, hsems, atClose, atRef, atClose, atRef, hp,
      hpoint]
    simp
  · rw [hh, hhist]
    exact h.fresh t (by rwa [hn, hnext] at ht)
  · rw [hh, hhist]
    exact ht
  · rw [hp]
    rintro _ ⟨⟩
  · rw [hi]
    rintro _ ⟨⟩
  · rw [hh, hhist] at ht ⊢
    rw [hs, hsems]
    exact h.counts t ht

/-! ## Creation -/

theorem openAlloc (h : SemInv k) (hf : FileInv k) {omode : BitVec 32} {ip : Opened}
    (hc : k.calls p = .openAlloc omode ip) : SemInv (k.openAlloc p omode ip) := by
  have hpoint : (k.calls p).semPoint = none := by rw [hc]; rfl
  unfold Kern.openAlloc
  simp only
  split
  · exact h.goto rfl (fun _ => rfl) rfl rfl rfl hpoint rfl nofun
  · rename_i f hfree
    have htype : (k.files f).type = .none := hf.free f (Kern.filealloc_free hfree)
    have htake : ∀ s, (k.takeFile f).carriers s = k.carriers s :=
      carriers_setFile_of_eq fun _ => rfl
    split
    · exact h.goto rfl htake rfl rfl rfl hpoint rfl nofun
    · refine h.goto rfl (fun s => ?_) rfl rfl rfl hpoint rfl nofun
      refine Eq.trans (carriers_setFile_of_eq (fun t => ?_) s) (htake s)
      rw [File.carries_of_ne (by cases ip <;> simp [Kern.openedFile])]
      rw [File.carries_of_ne (by simp [Kern.setSlot, Kern.takeFile, Kern.setFile, htype])]

theorem pipeMem (h : SemInv k) (hf : FileInv k) {f0 f1 : FileId}
    (hc : k.calls p = .pipeMem f0 f1) (mem copied : Bool) :
    SemInv (k.pipeMem p f0 f1 mem copied) := by
  have hpoint : (k.calls p).semPoint = none := by rw [hc]; rfl
  have hfresh : ∀ g ∈ [f0, f1], (k.files g).type = .none := fun g hg =>
    (hf.fresh p g (by rw [hc]; exact hg)).2
  have h0 : (k.files f0).type = .none := hfresh f0 (by simp)
  have h1 : (k.files f1).type = .none := hfresh f1 (by simp)
  have hends : ∀ s, ((k.setFile f0 (Kern.pipeEnd false (k.files f0))).setFile f1
      (Kern.pipeEnd true ((k.setFile f0 (Kern.pipeEnd false (k.files f0))).files f1))).carriers s =
      k.carriers s := by
    refine Kern.carriers_congr fun g s => ?_
    simp only [Kern.setFile, update_apply]
    split
    · rename_i hg
      rw [File.carries_of_ne (by simp [Kern.pipeEnd]), File.carries_of_ne (by simp [hg, h1])]
    · split
      · rename_i hg
        rw [File.carries_of_ne (by simp [Kern.pipeEnd]), File.carries_of_ne (by simp [hg, h0])]
      · rfl
  unfold Kern.pipeMem
  simp only
  repeat' split
  all_goals
    first
    | exact h.goto rfl hends rfl rfl rfl hpoint rfl (by rintro _ ⟨⟩)
    | exact h.goto rfl (fun _ => rfl) rfl rfl rfl hpoint rfl (by rintro _ ⟨⟩)

theorem unused (h : SemInv k) : k.carriers k.nextSem = 0 ∧ (k.history k.nextSem).frees = 0 ∧
    (k.history k.nextSem).made = false ∧ (k.sems k.nextSem).refCount = 0 := by
  have hmade := h.fresh k.nextSem le_rfl
  have htok := h.tokens k.nextSem
  rw [token, hmade] at htok
  simp only [Bool.false_eq_true, if_false] at htok
  have hcar := k.carriers_nonneg k.nextSem
  have hclosing : 0 ≤ ∑ q, (k.calls q).closing k.nextSem :=
    Finset.sum_nonneg fun q _ => (k.calls q).closing_nonneg k.nextSem
  have hclose : ∑ q, (k.calls q).atClose k.nextSem = 0 := by
    refine le_antisymm ?_ (Finset.sum_nonneg fun q _ => ?_)
    · have : ∑ q, (k.calls q).atClose k.nextSem ≤ ∑ q, (k.calls q).closing k.nextSem :=
        Finset.sum_le_sum fun q _ => (k.calls q).atClose_le_closing k.nextSem
      omega
    · unfold atClose
      split <;> simp
  have href : ∑ q, (k.calls q).atRef k.nextSem = 0 := by
    refine Finset.sum_eq_zero fun q _ => if_neg fun hq => ?_
    rw [h.born q _ hq] at hmade
    cases hmade
  have := h.refs k.nextSem
  exact ⟨by omega, by omega, hmade, by omega⟩

theorem alloc (h : SemInv k) {x : Semaphore} (hx : x.refCount = 0)
    (hcalls : ∀ q, q ≠ p → k'.calls q = k.calls q)
    (hpoint : (k'.calls p).semPoint = (k.calls p).semPoint) (hinit : (k'.calls p).initial = none)
    (hcarriers : ∀ t, k'.carriers t = k.carriers t)
    (hsems : k'.sems = update k.sems k.nextSem x) (hhistory : k'.history = k.history)
    (hnext : k'.nextSem = k.nextSem + 1) : SemInv k' := by
  obtain ⟨-, -, hmade, href⟩ := h.unused
  have hrefs : ∀ t, (k'.sems t).refCount = (k.sems t).refCount := by
    intro t
    rw [hsems, update_apply]
    split
    · rename_i ht
      rw [hx, ht, href]
    · rfl
  refine h.moved (p := p) hcalls (fun t => ?_) (fun t => ?_) (fun t ht => ?_) (fun t ht => ?_)
    (fun t ht => ?_) ?_ fun t ht => ?_
  · rw [hcarriers, hhistory, closing, hpoint]
    rfl
  · rw [hcarriers, hrefs, atClose, atRef, hpoint]
    rfl
  · rw [hhistory]
    exact h.fresh t (by omega)
  · rwa [hhistory]
  · rw [hhistory]
    rw [hpoint] at ht
    exact h.born p t ht
  · rw [hinit]
    rintro _ ⟨⟩
  · rw [hhistory] at ht ⊢
    have hne : t ≠ k.nextSem := by
      rintro rfl
      rw [hmade] at ht
      cases ht
    rw [hsems, update_of_ne hne]
    exact h.counts t ht

theorem make (h : SemInv k) {value : BitVec 32} (hvalue : 0 ≤ value.toInt)
    (hpoint : (k.calls p).semPoint = none) (hcalls : ∀ q, q ≠ p → k'.calls q = k.calls q)
    (hcall : k'.calls p = .semRef k.nextSem)
    (hcarriers : ∀ t, k'.carriers t = k.carriers t + if t = k.nextSem then 1 else 0)
    (hsems : k'.sems = update k.sems k.nextSem ⟨value, 0, false⟩)
    (hhistory : k'.history = update k.history k.nextSem ⟨true, value, 0, 0, 0⟩)
    (hnext : k'.nextSem = k.nextSem + 1) : SemInv k' := by
  obtain ⟨hcar, hfrees, hmade, href⟩ := h.unused
  have hnew : k'.history k.nextSem = ⟨true, value, 0, 0, 0⟩ := by
    rw [hhistory, update_self]
  have hold : ∀ {t}, t ≠ k.nextSem → k'.history t = k.history t := fun ht => by
    rw [hhistory, update_of_ne ht]
  refine h.moved (p := p) hcalls (fun t => ?_) (fun t => ?_) (fun t ht => ?_) (fun t ht => ?_)
    (fun t ht => ?_) ?_ fun t ht => ?_
  · rw [hcarriers, hcall, closing, closing, hpoint]
    by_cases htn : t = k.nextSem
    · subst htn
      simp [hnew, semPoint, token, hfrees, hmade]
    · simp [hold htn, semPoint, htn]
  · rw [hcarriers, hcall, atClose, atClose, atRef, atRef,
      hpoint, hsems, update_apply]
    by_cases htn : t = k.nextSem
    · subst htn
      simp [semPoint, href]
    · simp [semPoint, htn, Ne.symm htn]
  · rw [hold (by omega)]
    exact h.fresh t (by omega)
  · by_cases htn : t = k.nextSem
    · rw [htn, hnew]
    · rwa [hold htn]
  · rw [hcall] at ht
    cases ht
    rw [hnew]
  · rw [hcall]
    rintro _ ⟨⟩
  · by_cases htn : t = k.nextSem
    · subst htn
      rw [hnew, hsems, update_self]
      simpa [count] using hvalue
    · rw [hold htn] at ht ⊢
      rw [hsems, update_of_ne htn]
      exact h.counts t ht

theorem semMem (h : SemInv k) (hf : FileInv k) {value : BitVec 32}
    (hc : k.calls p = .semMem value f) (mem : Bool) : SemInv (k.semMem p value f mem) := by
  have hpoint : (k.calls p).semPoint = none := by rw [hc]; rfl
  have htype : (k.files f).type = .none := (hf.fresh p f (by rw [hc]; simp [FileCall.creating])).2
  unfold Kern.semMem
  simp only
  split
  · split
    · refine h.alloc (x := ⟨value, 0, false⟩) rfl (fun q hq => update_of_ne hq ..) ?_ ?_
        (fun _ => rfl) rfl rfl rfl
      · rw [calls_goto, hpoint]
        rfl
      · rw [calls_goto]
        rfl
    · refine h.make (h.initial p value (by rw [hc]; rfl)) hpoint
        (fun q hq => update_of_ne hq ..) (calls_goto ..) (fun t => ?_) rfl rfl rfl
      refine (k.carriers_setFile f _ t).trans ?_
      rw [File.carries_of_ne (x := k.files f) (by simp [htype])]
      simp only [File.carries, true_and, eq_comm (a := t)]
      omega
  · exact h.goto rfl (fun _ => rfl) rfl rfl rfl hpoint rfl (by rintro _ ⟨⟩)

theorem semRef (h : SemInv k) (hc : k.calls p = .semRef s) :
    SemInv ((k.setSem s { k.sems s with refCount := (k.sems s).refCount + 1 }).goto p .idle) := by
  have hpoint : (k.calls p).semPoint = some (.ref s) := by rw [hc]; rfl
  refine h.moved (p := p) (fun q hq => update_of_ne hq ..) (fun t => ?_) (fun t => ?_)
    h.fresh (fun _ hs => hs) ?_ ?_ fun t ht => ?_
  · rw [calls_goto, closing, closing, hpoint]
    simp [semPoint, Kern.goto, Kern.setSem, carriers]
  · rw [calls_goto, atClose, atClose, atRef, atRef, hpoint]
    by_cases hts : s = t
    · subst hts
      simp [semPoint, Kern.goto, Kern.setSem, carriers]
      omega
    · simp [semPoint, Kern.goto, Kern.setSem, carriers, hts, Ne.symm hts]
  · rw [calls_goto]
    rintro _ ⟨⟩
  · rw [calls_goto]
    rintro _ ⟨⟩
  · have hvalue : (update k.sems s { k.sems s with
        refCount := (k.sems s).refCount + 1 } t).value = (k.sems t).value := by
      by_cases hts : t = s
      · rw [hts, update_self]
      · rw [update_of_ne hts]
    exact hvalue ▸ h.counts t ht

/-! ## Waiting and posting -/

theorem counted (h : SemInv k) {x : Semaphore} {y : SemHistory}
    (hcalls : ∀ q, q ≠ p → k'.calls q = k.calls q) (hpoint : (k.calls p).semPoint = none)
    (hpoint' : (k'.calls p).semPoint = none) (hinit : (k'.calls p).initial = none)
    (hfiles : k'.files = k.files) (hsems : k'.sems = update k.sems s x)
    (hhistory : k'.history = update k.history s y) (hnext : k'.nextSem = k.nextSem)
    (href : x.refCount = (k.sems s).refCount) (hmade : y.made = (k.history s).made)
    (hfrees : y.frees = (k.history s).frees)
    (hcount : y.made = true → x.value = BitVec.ofInt 32 y.count ∧ 0 ≤ y.count) : SemInv k' := by
  have hcar : ∀ t, k'.carriers t = k.carriers t := fun t => by
    rw [carriers, hfiles]
    rfl
  have hrefs : ∀ t, (k'.sems t).refCount = (k.sems t).refCount := by
    intro t
    rw [hsems, update_apply]
    split
    · rename_i ht
      rw [href, ht]
    · rfl
  have hhist : ∀ t, (k'.history t).made = (k.history t).made ∧
      (k'.history t).frees = (k.history t).frees := by
    intro t
    rw [hhistory, update_apply]
    split
    · rename_i ht
      rw [ht]
      exact ⟨hmade, hfrees⟩
    · exact ⟨rfl, rfl⟩
  refine h.moved (p := p) hcalls (fun t => ?_) (fun t => ?_) (fun t ht => ?_) (fun t ht => ?_)
    ?_ ?_ fun t ht => ?_
  · rw [hcar, (hhist t).2, token, (hhist t).1, closing, closing,
      hpoint, hpoint']
    rfl
  · rw [hcar, hrefs, atClose, atClose, atRef, atRef, hpoint,
      hpoint']
  · rw [(hhist t).1]
    exact h.fresh t (hnext ▸ ht)
  · rwa [(hhist t).1]
  · rw [hpoint']
    rintro _ ⟨⟩
  · rw [hinit]
    rintro _ ⟨⟩
  · by_cases hts : t = s
    · subst hts
      rw [hhistory, update_self] at ht ⊢
      rw [hsems, update_self]
      exact hcount ht
    · rw [(hhist t).1] at ht
      rw [hhistory, hsems, update_of_ne hts, update_of_ne hts]
      exact h.counts t ht

theorem semWait (h : SemInv k) {fd : Fd} (hc : k.calls p = .semWait fd f s)
    (he : k.semWait p s = some k') : SemInv k' := by
  have hpoint : (k.calls p).semPoint = none := by rw [hc]; rfl
  unfold Kern.semWait at he
  simp only at he
  split at he
  · split at he
    · cases he
      exact h.goto rfl (fun _ => rfl) rfl rfl rfl hpoint rfl nofun
    · obtain ⟨t, -, rfl⟩ := Option.map_eq_some_iff.mp he
      exact ⟨h.tokens, h.refs, h.fresh, h.born, h.initial, h.counts⟩
  · rename_i hpos
    cases he
    refine h.counted (p := p) (s := s) (fun q hq => update_of_ne hq ..) hpoint
      (by rw [calls_goto]; rfl) (by rw [calls_goto]; rfl) rfl rfl rfl rfl rfl rfl rfl
      fun hmade => ?_
    obtain ⟨hvalue, hcount⟩ := h.counts s hmade
    -- a positive value is not zero modulo `2 ^ 32`
    have hne : (k.history s).count ≠ 0 := by
      intro h0
      rw [hvalue, h0] at hpos
      simp at hpos
    have hminus : ({ k.history s with waits := (k.history s).waits + 1 } : SemHistory).count =
        (k.history s).count - 1 := by
      simp only [count]
      omega
    rw [hminus]
    refine ⟨?_, by omega⟩
    show (k.sems s).value - 1 = _
    rw [hvalue, Int.sub_eq_add_neg, BitVec.ofInt_add, BitVec.sub_eq_add_neg]
    rfl

theorem semPost (h : SemInv k) {fd : Fd} (hc : k.calls p = .semPost fd f s) :
    SemInv (k.semPost p s) := by
  refine h.counted (p := p) (s := s) (fun q hq => update_of_ne hq ..) (by rw [hc]; rfl)
    (by rw [Kern.semPost, calls_goto]; rfl) (by rw [Kern.semPost, calls_goto]; rfl)
    rfl rfl rfl rfl rfl rfl rfl fun hmade => ?_
  obtain ⟨hvalue, hcount⟩ := h.counts s hmade
  have hplus : ({ k.history s with posts := (k.history s).posts + 1 } : SemHistory).count =
      (k.history s).count + 1 := by
    simp only [count]
    omega
  rw [hplus]
  refine ⟨?_, by omega⟩
  show (k.sems s).value + 1 = _
  rw [hvalue, BitVec.ofInt_add]
  rfl

theorem semDestroy (h : SemInv k) {fd : Fd} (hc : k.calls p = .semDestroy fd f s) :
    SemInv (k.semDestroy p fd f s) := by
  refine h.counted (p := p) (s := s) (fun q hq => update_of_ne hq ..) (by rw [hc]; rfl)
    (by rw [Kern.semDestroy, calls_goto]; rfl)
    (by rw [Kern.semDestroy, calls_goto]; rfl) rfl rfl (update_eq_self ..).symm rfl
    rfl rfl rfl fun hmade => h.counts s hmade

/-! ## Every event -/

theorem run (h : SemInv k) (hf : FileInv k) {mem copied : Bool}
    (he : k.run p mem copied = some k') : SemInv k' := by
  have htake : ∀ {f : FileId} {c : FileCall}, (k.calls p).semPoint = none → c.semPoint = none →
      (∀ v, c.initial = some v → 0 ≤ v.toInt) → SemInv ((k.takeFile f).goto p c) :=
    fun hpoint hc hinit => h.goto rfl (carriers_setFile_of_eq fun _ => rfl) rfl rfl rfl hpoint
      hc hinit
  have hgoto : ∀ {c : FileCall}, (k.calls p).semPoint = none → c.semPoint = none →
      (∀ v, c.initial = some v → 0 ≤ v.toInt) → SemInv (k.goto p c) :=
    fun hpoint hc hinit => h.goto rfl (fun _ => rfl) rfl rfl rfl hpoint hc hinit
  unfold Kern.run at he
  split at he <;> rename_i hc
  · cases he
  · cases he
  · cases he
    exact h.openAlloc hf hc
  · unfold Kern.filedup at he
    split at he
    · cases he
    · cases he
      exact h.goto rfl (carriers_setFile_of_eq fun _ => rfl) rfl rfl rfl (by rw [hc]; rfl) rfl
        nofun
  · exact h.fileclose hc he
  · cases he
    exact h.resume rfl (fun _ => rfl) rfl rfl rfl (by rw [hc]; rfl)
  · cases he
    exact h.semClose hc
  · cases he
    exact h.semFree hc
  · cases he
    unfold Kern.exitLoop
    repeat' split
    all_goals exact hgoto (by rw [hc]; rfl) rfl nofun
  · split at he
    · cases he
      exact hgoto (by rw [hc]; rfl) rfl nofun
    · cases he
      exact htake (by rw [hc]; rfl) rfl nofun
  · split at he
    · cases he
      exact hgoto (by rw [hc]; rfl) rfl nofun
    · cases he
      exact htake (by rw [hc]; rfl) rfl nofun
  · cases he
    exact h.pipeMem hf hc mem copied
  · rename_i value
    split at he
    · cases he
      exact hgoto (by rw [hc]; rfl) rfl nofun
    · cases he
      refine htake (by rw [hc]; rfl) rfl fun v hv => ?_
      cases hv
      exact h.initial p value (by rw [hc]; rfl)
  · cases he
    exact h.semMem hf hc mem
  · cases he
    exact h.semRef hc
  · exact h.semWait hc he
  · cases he
    exact h.semPost hc
  · cases he
    exact h.semDestroy hc

theorem congr (h : SemInv k) (hcalls : k'.calls = k.calls) (hsems : k'.sems = k.sems)
    (hhistory : k'.history = k.history) (hnext : k'.nextSem = k.nextSem)
    (hcarriers : ∀ s, k'.carriers s = k.carriers s) : SemInv k' := by
  refine ⟨fun s => ?_, fun s => ?_, ?_, ?_, ?_, ?_⟩
  · rw [hcarriers, hcalls, hhistory]
    exact h.tokens s
  · rw [hcarriers, hcalls, hsems]
    exact h.refs s
  · rw [hhistory, hnext]
    exact h.fresh
  · rw [hcalls, hhistory]
    exact h.born
  · rw [hcalls]
    exact h.initial
  · rw [hhistory, hsems]
    exact h.counts

theorem proc (h : SemInv k) (hk : KernInv k) {e : ProcEvent} (he : k.proc e = some k') :
    SemInv k' := by
  have htable : ∀ t, SemInv { k with table := t } := fun t =>
    ⟨h.tokens, h.refs, h.fresh, h.born, h.initial, h.counts⟩
  cases e with
  | call c =>
    obtain ⟨p, hrun, he⟩ := Option.bind_eq_some_iff.mp he
    split at he
    · rename_i hmay
      obtain ⟨t, -, rfl⟩ := Option.map_eq_some_iff.mp he
      cases c with
      | kexit status =>
        have hdone : k.calls p = .exitDone status := by simpa [Kern.mayCall] using hmay
        exact (htable t).goto rfl (fun _ => rfl) rfl rfl rfl
          (congrArg semPoint hdone) rfl (by rintro _ ⟨⟩)
      | _ => exact htable t
    · cases he
  | dispatch | yield | run | wakeup =>
    simp only [Kern.proc] at he
    obtain ⟨t, ht, he⟩ := Option.bind_eq_some_iff.mp he
    split at he
    · cases he
      exact htable t
    · rename_i p np hslot
      obtain ⟨hrun, i, hpc, hnp, -⟩ := Kern.forkSlot_spec ht hslot
      have hne : p ≠ np := by
        rintro rfl
        exact hk.not_gone hrun (.inl hnp)
      have hf := Kern.forked hne _ he
      refine (htable t).congr hf.calls hf.sems hf.history hf.nextSem
        (Kern.carriers_congr fun f s => ?_)
      rw [hf.files]
      rfl

theorem step (h : SemInv k) (hk : KernInv k) {e : KernEvent} (he : k.step e = some k') :
    SemInv k' := by
  cases e with
  | proc e => exact h.proc hk he
  | call c =>
    obtain ⟨p, -, he⟩ := Option.bind_eq_some_iff.mp he
    split at he
    · rename_i hidle
      exact h.call hidle.2 he
    · cases he
  | run mem copied =>
    obtain ⟨p, -, he⟩ := Option.bind_eq_some_iff.mp he
    split at he
    · exact h.run hk.files he
    · cases he

end SemInv

theorem KernReach.semInv (hk : KernReach k) : SemInv k := by
  induction hk with
  | boot => exact .boot
  | step hk he ih => exact ih.step hk.inv he

end YHsys.Kernel
