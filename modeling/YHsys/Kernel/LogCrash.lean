import Mathlib.Tactic.IntervalCases
import YHsys.Kernel.LogDisk

/-!
# Crash atomicity of the log

What a crash can leave on the disk is one of three things: the old blocks with an empty
header, the new blocks with an empty header, or a header that lists the blocks and a log
that holds their new contents (`Survives`). Each step of `commit` and of
`recover_from_log` stays among them, whatever part of the installation was done before.
-/

namespace YHsys.Kernel

open DiskState (bread bwrite goto load pinned writeHead)

open Function (update update_apply update_of_ne update_self)

variable {start : BlockNo} {s0 s : DiskState}

/-! ## What the disk holds -/

/-- The first `t` log blocks hold the new contents of their blocks. -/
def LogHolds (start : BlockNo) (s0 : DiskState) (d : BlockNo → BlockData) (t : ℕ) : Prop :=
  ∀ i b, i < t → s0.lh[i]? = some b → d (logBlock start i) = s0.bread b

/-- Nothing is installed, and the log is empty. -/
structure AllOld (start : BlockNo) (s0 : DiskState) (d : BlockNo → BlockData) : Prop where
  empty : d start 0 = 0
  home : ∀ b ∈ s0.lh, d b = s0.disk b

/-- Everything is installed, and the log is empty. -/
structure AllNew (start : BlockNo) (s0 : DiskState) (d : BlockNo → BlockData) : Prop where
  empty : d start 0 = 0
  home : ∀ b ∈ s0.lh, d b = s0.bread b

/-- The transaction is in the log, and its first `t` blocks are installed. -/
structure Committed (start : BlockNo) (s0 : DiskState) (d : BlockNo → BlockData) (t : ℕ) : Prop where
  head : headBlocks (d start) = s0.lh
  logged : LogHolds start s0 d s0.lh.length
  home : ∀ i b, s0.lh[i]? = some b → d b = s0.bread b ∨ t ≤ i ∧ d b = s0.disk b

/-- What a crash can leave. -/
def Survives (start : BlockNo) (s0 : DiskState) (d : BlockNo → BlockData) : Prop :=
  AllOld start s0 d ∨ AllNew start s0 d ∨ Committed start s0 d 0

theorem Committed.mono {d : BlockNo → BlockData} {t t' : ℕ} (h : Committed start s0 d t)
    (ht : ∀ i, i < s0.lh.length → t ≤ i → t' ≤ i) : Committed start s0 d t' :=
  ⟨h.head, h.logged, fun i b hi => (h.home i b hi).imp_right fun hold =>
    ⟨ht i (List.getElem?_eq_some_iff.mp hi).1 hold.1, hold.2⟩⟩

theorem Committed.all {d : BlockNo → BlockData} (h : Committed start s0 d s0.lh.length) :
    ∀ b ∈ s0.lh, d b = s0.bread b := by
  intro b hb
  obtain ⟨i, hi⟩ := List.mem_iff_getElem?.mp hb
  refine (h.home i b hi).resolve_right fun hold => ?_
  have := (List.getElem?_eq_some_iff.mp hi).1
  omega

/-! ## The invariant -/

/-- The buffers of the transaction hold the new contents. -/
def Held (s0 s : DiskState) : Prop := ∀ b ∈ s0.lh, s.cache b = some (s0.bread b)

/-- What is known at each point of the code. -/
def LogPhase (start : BlockNo) (s0 s : DiskState) : Prop :=
  match s.pc with
  | .commit => s.lh = s0.lh ∧ AllOld start s0 s.disk ∧ Held s0 s
  | .writeLog t => s.lh = s0.lh ∧ AllOld start s0 s.disk ∧ Held s0 s ∧ LogHolds start s0 s.disk t
  | .commitHead =>
    s.lh = s0.lh ∧ AllOld start s0 s.disk ∧ Held s0 s ∧ LogHolds start s0 s.disk s0.lh.length
  | .install recovering t =>
    s.lh = s0.lh ∧ Committed start s0 s.disk t ∨
      recovering = true ∧ s.lh = [] ∧ (AllOld start s0 s.disk ∨ AllNew start s0 s.disk)
  | .clear =>
    s.lh = [] ∧ (AllOld start s0 s.disk ∨ AllNew start s0 s.disk ∨
      Committed start s0 s.disk s0.lh.length)
  | .readHead => Survives start s0 s.disk
  | .done => AllOld start s0 s.disk ∨ AllNew start s0 s.disk

structure DiskInv (start : BlockNo) (s0 s : DiskState) : Prop where
  frame : ∀ b, b ∉ s0.lh → (∀ i, i ≤ logBlocks → b ≠ start + BitVec.ofNat 32 i) →
    s.disk b = s0.disk b
  clean : ∀ b, b ∉ s.pinned → ∀ x, s.cache b = some x → x = s.disk b
  phase : LogPhase start s0 s

namespace Transaction

variable (h : Transaction start s0)
include h

theorem ne_start {b : BlockNo} (hb : b ∈ s0.lh) : b ≠ start := by
  simpa using h.outside b hb 0 (Nat.zero_le _)

theorem ne_logBlock {b : BlockNo} (hb : b ∈ s0.lh) {i : ℕ} (hi : i < s0.lh.length) :
    b ≠ logBlock start i :=
  h.outside b hb (i + 1) (Nat.le_trans hi h.length)

theorem logBlock_ne_start {i : ℕ} (hi : i < s0.lh.length) : logBlock start i ≠ start := by
  intro heq
  have h0 : start + BitVec.ofNat 32 (i + 1) = start + BitVec.ofNat 32 0 := by
    simpa [logBlock] using heq
  have := add_ofNat_inj start (Nat.le_trans hi h.length) (Nat.zero_le _) h0
  omega

theorem logBlock_inj {i j : ℕ} (hi : i < s0.lh.length) (hj : j < s0.lh.length)
    (heq : logBlock start i = logBlock start j) : i = j := by
  have := add_ofNat_inj start (Nat.le_trans hi h.length) (Nat.le_trans hj h.length) heq
  omega

end Transaction

namespace DiskInv

theorem bread_eq (h : DiskInv start s0 s) {b : BlockNo} (hb : b ∉ s.pinned) :
    s.bread b = s.disk b := by
  unfold bread
  cases hc : s.cache b with
  | none => rfl
  | some x => exact h.clean b hb x hc

theorem init (h : Transaction start s0) : DiskInv start s0 s0 where
  frame b _ _ := rfl
  clean b hb x hx := h.clean b (by simpa [pinned, h.pc] using hb) x hx
  phase := by
    rw [LogPhase, h.pc]
    refine ⟨rfl, ⟨h.empty, fun _ _ => rfl⟩, fun b hb => ?_⟩
    obtain ⟨x, hx⟩ := Option.ne_none_iff_exists'.mp (h.pinned b hb)
    simp [bread, hx]

theorem survives (h : DiskInv start s0 s) : Survives start s0 s.disk := by
  have hphase := h.phase
  unfold LogPhase at hphase
  split at hphase
  · exact .inl hphase.2.1
  · exact .inl hphase.2.1
  · exact .inl hphase.2.1
  · rcases hphase with ⟨-, hc⟩ | ⟨-, -, hold | hnew⟩
    · exact .inr (.inr (hc.mono fun _ _ _ => Nat.zero_le _))
    · exact .inl hold
    · exact .inr (.inl hnew)
  · rcases hphase with ⟨-, hold | hnew | hc⟩
    · exact .inl hold
    · exact .inr (.inl hnew)
    · exact .inr (.inr (hc.mono fun _ _ _ => Nat.zero_le _))
  · exact hphase
  · rcases hphase with hold | hnew
    · exact .inl hold
    · exact .inr (.inl hnew)

theorem crash (h : DiskInv start s0 s) : DiskInv start s0 (s.step start .crash) :=
  ⟨h.frame, fun _ _ _ hx => (nomatch hx), h.survives⟩

/-! ## The cache -/

theorem load_clean (h : DiskInv start s0 s) (b : BlockNo) {b' : BlockNo} (hb : b' ∉ s.pinned)
    {x : BlockData} (hx : (s.load b).cache b' = some x) : x = s.disk b' := by
  simp only [load, update_apply] at hx
  split at hx
  · rename_i heq
    cases hx
    rw [heq] at hb ⊢
    exact h.bread_eq hb
  · exact h.clean b' hb x hx

theorem fetch (h : DiskInv start s0 s) (b : BlockNo) :
    DiskInv start s0 (s.step start (.fetch b)) := by
  have hheld : Held s0 s → Held s0 (s.load b) := by
    intro hheld b' hb'
    simp only [load, update_apply]
    split
    · rename_i heq
      rw [bread, ← heq, hheld b' hb']
      rfl
    · exact hheld b' hb'
  refine ⟨h.frame, fun b' hb' x hx => h.load_clean b hb' hx, ?_⟩
  have hphase := h.phase
  show LogPhase start s0 (s.load b)
  unfold LogPhase at hphase ⊢
  cases hpc : s.pc with
  | commit =>
    simp only [hpc] at hphase
    simpa only [load, hpc] using ⟨hphase.1, hphase.2.1, hheld hphase.2.2⟩
  | writeLog t =>
    simp only [hpc] at hphase
    simpa only [load, hpc] using
      ⟨hphase.1, hphase.2.1, hheld hphase.2.2.1, hphase.2.2.2⟩
  | commitHead =>
    simp only [hpc] at hphase
    simpa only [load, hpc] using
      ⟨hphase.1, hphase.2.1, hheld hphase.2.2.1, hphase.2.2.2⟩
  | install | clear | readHead | done =>
    simp only [hpc] at hphase
    simpa only [load, hpc] using hphase

theorem evict (h : DiskInv start s0 s) (b : BlockNo) :
    DiskInv start s0 (s.step start (.evict b)) := by
  unfold DiskState.step
  simp only
  split
  · exact h
  · rename_i hb
    refine ⟨h.frame, fun b' hb' x hx => ?_, ?_⟩
    · simp only [update_apply] at hx
      split at hx
      · cases hx
      · exact h.clean b' hb' x hx
    · -- the buffers of the transaction are pinned as long as they are spoken of
      have hheld : s.pinned = s0.lh → Held s0 s →
          Held s0 { s with cache := update s.cache b none } := by
        intro hpin hheld b' hb'
        have hne : b' ≠ b := by
          rintro rfl
          exact hb (hpin ▸ hb')
        simpa [update_of_ne hne] using hheld b' hb'
      have hphase := h.phase
      unfold LogPhase at hphase ⊢
      cases hpc : s.pc with
      | commit =>
        simp only [hpc] at hphase ⊢
        exact ⟨hphase.1, hphase.2.1, hheld (by simp [pinned, hpc, hphase.1]) hphase.2.2⟩
      | writeLog t =>
        simp only [hpc] at hphase ⊢
        exact ⟨hphase.1, hphase.2.1, hheld (by simp [pinned, hpc, hphase.1]) hphase.2.2.1,
          hphase.2.2.2⟩
      | commitHead =>
        simp only [hpc] at hphase ⊢
        exact ⟨hphase.1, hphase.2.1, hheld (by simp [pinned, hpc, hphase.1]) hphase.2.2.1,
          hphase.2.2.2⟩
      | install | clear | readHead | done =>
        simp only [hpc] at hphase ⊢
        exact hphase

/-! ## The code -/

theorem writeLog (h : DiskInv start s0 s) (h0 : Transaction start s0) {t : ℕ} {b : BlockNo}
    (hpc : s.pc = .writeLog t) (hb : s.lh[t]? = some b) :
    DiskInv start s0
      (((s.load b).bwrite (logBlock start t) (s.bread b)).goto (.writeLog (t + 1))) := by
  have hphase := h.phase
  rw [LogPhase, hpc] at hphase
  obtain ⟨hlh, hold, hheld, hlogged⟩ := hphase
  rw [hlh] at hb
  have hmem : b ∈ s0.lh := List.mem_of_getElem? hb
  have ht : t < s0.lh.length := (List.getElem?_eq_some_iff.mp hb).1
  have hbread : s.bread b = s0.bread b := by
    rw [bread, hheld b hmem]
    rfl
  refine ⟨fun b' hb' hout => ?_, fun b' hb' x hx => ?_, ?_⟩
  · have hne : b' ≠ logBlock start t := hout (t + 1) (Nat.le_trans ht h0.length)
    exact (update_of_ne hne ..).trans (h.frame b' hb' hout)
  · have hb' : b' ∉ s.pinned := by
      rw [pinned, hpc]
      exact hb'
    simp only [goto, bwrite, update_apply] at hx ⊢
    split
    · rename_i heq
      rw [if_pos heq] at hx
      exact (Option.some.inj hx).symm
    · rename_i hne
      rw [if_neg hne] at hx
      exact h.load_clean b hb' hx
  · refine ⟨hlh, ⟨?_, fun b' hb' => ?_⟩, fun b' hb' => ?_, fun i b' hi hib => ?_⟩
    · show update s.disk (logBlock start t) _ start 0 = 0
      rw [update_of_ne (h0.logBlock_ne_start ht).symm]
      exact hold.empty
    · exact (update_of_ne (h0.ne_logBlock hb' ht) ..).trans (hold.home b' hb')
    · show update (s.load b).cache (logBlock start t) _ b' = _
      rw [update_of_ne (h0.ne_logBlock hb' ht)]
      simp only [load, update_apply]
      split
      · rename_i heq
        rw [hbread, heq]
      · exact hheld b' hb'
    · show update s.disk (logBlock start t) (s.bread b) (logBlock start i) = _
      by_cases hit : i = t
      · subst hit
        rw [hb] at hib
        cases hib
        rw [update_self, hbread]
      · have hne : logBlock start i ≠ logBlock start t := fun heq =>
          hit (h0.logBlock_inj (by omega) ht heq)
        rw [update_of_ne hne]
        exact hlogged i b' (by omega) hib

theorem commitHead (h : DiskInv start s0 s) (h0 : Transaction start s0)
    (hpc : s.pc = .commitHead) :
    DiskInv start s0 ((s.writeHead start).goto (.install false 0)) := by
  have hphase := h.phase
  rw [LogPhase, hpc] at hphase
  obtain ⟨hlh, hold, -, hlogged⟩ := hphase
  refine ⟨fun b' hb' hout => ?_, fun b' hb' x hx => ?_, .inl ⟨hlh, ?_, fun i b hi hib => ?_,
    fun i b hib => .inr ⟨Nat.zero_le _, ?_⟩⟩⟩
  · have hne : b' ≠ start := by simpa using hout 0 (Nat.zero_le _)
    exact (update_of_ne hne ..).trans (h.frame b' hb' hout)
  · have hb' : b' ∉ s.pinned := by
      rw [pinned, hpc]
      exact hb'
    simp only [goto, writeHead, bwrite, update_apply]
      at hx ⊢
    split
    · rename_i heq
      rw [if_pos heq] at hx
      exact (Option.some.inj hx).symm
    · rename_i hne
      rw [if_neg hne] at hx
      exact h.clean b' hb' x hx
  · show headBlocks (update s.disk start (headOf (s.bread start) s.lh) start) = _
    rw [update_self, hlh, headBlocks_headOf _ h0.length]
  · exact (update_of_ne (h0.logBlock_ne_start hi) ..).trans (hlogged i b hi hib)
  · have hmem : b ∈ s0.lh := List.mem_of_getElem? hib
    exact (update_of_ne (h0.ne_start hmem) ..).trans (hold.home b hmem)

theorem install (h : DiskInv start s0 s) (h0 : Transaction start s0) {r : Bool} {t : ℕ}
    {b : BlockNo} (hpc : s.pc = .install r t) (hlh : s.lh = s0.lh)
    (hc : Committed start s0 s.disk t) (hb : s0.lh[t]? = some b) :
    DiskInv start s0 (((s.load (logBlock start t)).bwrite b (s.bread (logBlock start t))).goto
      (.install r (t + 1))) := by
  have hmem : b ∈ s0.lh := List.mem_of_getElem? hb
  have ht : t < s0.lh.length := (List.getElem?_eq_some_iff.mp hb).1
  have hbread : s.bread (logBlock start t) = s0.bread b := by
    rw [h.bread_eq, hc.logged t b ht hb]
    -- a pinned block is one of the transaction, and no log block is
    intro hpin
    have hpin : logBlock start t ∈ s0.lh := by
      rw [pinned, hpc, hlh] at hpin
      cases r with
      | true => cases hpin
      | false => exact List.mem_of_mem_drop hpin
    exact h0.ne_logBlock hpin ht rfl
  rw [hbread]
  refine ⟨fun b' hb' hout => ?_, fun b' hb' x hx => ?_, .inl ⟨hlh, ?_, fun i b' hi hib => ?_,
    fun i b' hib => ?_⟩⟩
  · have hne : b' ≠ b := by
      rintro rfl
      exact hb' hmem
    exact (update_of_ne hne ..).trans (h.frame b' hb' hout)
  · simp only [goto, bwrite, update_apply] at hx ⊢
    split
    · rename_i heq
      rw [if_pos heq] at hx
      exact (Option.some.inj hx).symm
    · rename_i hne
      rw [if_neg hne] at hx
      refine h.load_clean _ (fun hpin => hb' ?_) hx
      rw [pinned, hpc, hlh] at hpin
      cases r with
      | true => cases hpin
      | false =>
        have hdrop : s0.lh.drop t = b :: s0.lh.drop (t + 1) := by
          rw [List.drop_eq_getElem_cons ht, (List.getElem?_eq_some_iff.mp hb).2]
        simp only [hdrop, List.mem_cons, hne, false_or] at hpin
        show b' ∈ s.lh.drop (t + 1)
        rw [hlh]
        exact hpin
  · show headBlocks (update s.disk b _ start) = _
    rw [update_of_ne (h0.ne_start hmem).symm]
    exact hc.head
  · exact (update_of_ne (h0.ne_logBlock hmem hi).symm ..).trans (hc.logged i b' hi hib)
  · show update s.disk b (s0.bread b) b' = _ ∨ _ ∧ update s.disk b _ b' = _
    by_cases hbb : b' = b
    · subst hbb
      exact .inl (update_self ..)
    · rw [update_of_ne hbb]
      have hit : i ≠ t := by
        rintro rfl
        rw [hb] at hib
        exact hbb (Option.some.inj hib).symm
      exact (hc.home i b' hib).imp_right fun hold => ⟨by omega, hold.2⟩

theorem clear (h : DiskInv start s0 s) (h0 : Transaction start s0) (hpc : s.pc = .clear) :
    DiskInv start s0 ((s.writeHead start).goto .done) := by
  have hphase := h.phase
  rw [LogPhase, hpc] at hphase
  obtain ⟨hlh, hdisk⟩ := hphase
  have hempty : (s.writeHead start).disk start 0 = 0 := by
    simp only [writeHead, bwrite, update_self, hlh]
    exact headOf_nil _
  have hhome : ∀ b ∈ s0.lh, (s.writeHead start).disk b = s.disk b := fun b hb =>
    update_of_ne (h0.ne_start hb) ..
  refine ⟨fun b' hb' hout => ?_, fun b' _ x hx => ?_, ?_⟩
  · have hne : b' ≠ start := by simpa using hout 0 (Nat.zero_le _)
    exact (update_of_ne hne ..).trans (h.frame b' hb' hout)
  · simp only [goto, writeHead, bwrite, update_apply]
      at hx ⊢
    split
    · rename_i heq
      rw [if_pos heq] at hx
      exact (Option.some.inj hx).symm
    · rename_i hne
      rw [if_neg hne] at hx
      exact h.clean b' (by simp [pinned, hpc]) x hx
  · show AllOld start s0 (s.writeHead start).disk ∨ AllNew start s0 (s.writeHead start).disk
    rcases hdisk with hold | hnew | hc
    · exact .inl ⟨hempty, fun b hb => (hhome b hb).trans (hold.home b hb)⟩
    · exact .inr ⟨hempty, fun b hb => (hhome b hb).trans (hnew.home b hb)⟩
    · exact .inr ⟨hempty, fun b hb => (hhome b hb).trans (hc.all b hb)⟩

theorem readHead (h : DiskInv start s0 s) (hpc : s.pc = .readHead) :
    DiskInv start s0
      ({ s.load start with lh := headBlocks (s.bread start) }.goto (.install true 0)) := by
  have hphase := h.phase
  rw [LogPhase, hpc] at hphase
  have hpin : ∀ b, b ∉ s.pinned := by simp [pinned, hpc]
  refine ⟨h.frame, fun b' _ x hx => h.load_clean start (hpin b') hx, ?_⟩
  show headBlocks (s.bread start) = _ ∧ _ ∨ _ ∧ headBlocks (s.bread start) = _ ∧ _
  rw [h.bread_eq (hpin start)]
  rcases hphase with hold | hnew | hc
  · exact .inr ⟨rfl, headBlocks_of_zero hold.empty, .inl hold⟩
  · exact .inr ⟨rfl, headBlocks_of_zero hnew.empty, .inr hnew⟩
  · exact .inl ⟨hc.head, hc⟩

theorem move (h : DiskInv start s0 s) (lh : List BlockNo) {pc : LogPc}
    (hpin : ∀ b, b ∈ s.pinned → b ∈ ({ s with lh := lh, pc := pc } : DiskState).pinned)
    (hphase : LogPhase start s0 { s with lh := lh, pc := pc }) :
    DiskInv start s0 { s with lh := lh, pc := pc } :=
  ⟨h.frame, fun b hb x hx => h.clean b (fun hmem => hb (hpin b hmem)) x hx, hphase⟩

theorem run (h : DiskInv start s0 s) (h0 : Transaction start s0) :
    DiskInv start s0 (s.run start) := by
  have hphase := h.phase
  unfold DiskState.run
  split
  · rename_i hpc
    rw [LogPhase, hpc] at hphase
    obtain ⟨hlh, hold, hheld⟩ := hphase
    split
    · refine h.move s.lh (by simp [pinned, hpc]) ?_
      exact ⟨hlh, hold, hheld, fun i b hi _ => absurd hi (Nat.not_lt_zero i)⟩
    · rename_i hn
      have hnil : s.lh = [] := by simpa using hn
      exact h.move s.lh (by simp [pinned, hpc, hnil]) (.inl hold)
  · rename_i t hpc
    split
    · rename_i b hb
      exact h.writeLog h0 hpc hb
    · rename_i hb
      rw [LogPhase, hpc] at hphase
      obtain ⟨hlh, hold, hheld, hlogged⟩ := hphase
      refine h.move s.lh (by simp [pinned, hpc]) ?_
      refine ⟨hlh, hold, hheld, fun i b hi hib => hlogged i b ?_ hib⟩
      rw [List.getElem?_eq_none_iff, hlh] at hb
      omega
  · exact h.commitHead h0 ‹_›
  · rename_i r t hpc
    rw [LogPhase, hpc] at hphase
    rcases hphase with ⟨hlh, hc⟩ | ⟨hr, hlh, hdisk⟩
    · split
      · rename_i b hb
        exact h.install h0 hpc hlh hc (hlh ▸ hb)
      · rename_i hb
        rw [List.getElem?_eq_none_iff] at hb
        refine h.move _ ?_ ⟨rfl, .inr (.inr (hc.mono fun i hi _ => ?_))⟩
        · intro b hmem
          rw [pinned, hpc] at hmem
          cases r with
          | true => cases hmem
          | false => simp [List.drop_eq_nil_of_le hb] at hmem
        · rw [hlh] at hb
          omega
    · subst hr
      simp only [hlh, List.getElem?_nil]
      refine h.move _ (by simp [pinned, hpc]) ⟨rfl, ?_⟩
      rcases hdisk with hold | hnew
      · exact .inl hold
      · exact .inr (.inl hnew)
  · exact h.clear h0 ‹_›
  · exact h.readHead ‹_›
  · exact h

theorem step (h : DiskInv start s0 s) (h0 : Transaction start s0) (e : DiskEvent) :
    DiskInv start s0 (s.step start e) := by
  cases e with
  | run => exact h.run h0
  | fetch b => exact h.fetch b
  | evict b => exact h.evict b
  | crash => exact h.crash

end DiskInv

theorem DiskReach.inv (hs : DiskReach start s0 s) (h0 : Transaction start s0) :
    DiskInv start s0 s := by
  induction hs with
  | refl => exact .init h0
  | step _ e ih => exact ih.step h0 e

/-! ## Atomicity -/

/-- After any run of `commit` with any number of crashes and recoveries, once the code has
returned, the blocks of the transaction have all their old or all their new contents, the
log on disk is empty, and no other block outside the log area has changed. -/
theorem log_crash_atomicity (h0 : Transaction start s0) (hs : DiskReach start s0 s)
    (hdone : s.pc = .done) :
    ((∀ b ∈ s0.lh, s.disk b = s0.disk b) ∨ ∀ b ∈ s0.lh, s.disk b = s0.bread b) ∧
      s.disk start 0 = 0 ∧
      ∀ b, b ∉ s0.lh → (∀ i, i ≤ logBlocks → b ≠ start + BitVec.ofNat 32 i) →
        s.disk b = s0.disk b := by
  have hinv := hs.inv h0
  have hphase := hinv.phase
  rw [LogPhase, hdone] at hphase
  rcases hphase with hold | hnew
  · exact ⟨.inl hold.home, hold.empty, hinv.frame⟩
  · exact ⟨.inr hnew.home, hnew.empty, hinv.frame⟩

/-! ### A run -/

/-- Several events. -/
def DiskState.steps (start : BlockNo) (es : List DiskEvent) (s : DiskState) : DiskState :=
  es.foldl (fun s e => s.step start e) s

theorem DiskReach.steps (es : List DiskEvent) (hs : DiskReach start s0 s) :
    DiskReach start s0 (s.steps start es) := by
  induction es generalizing s with
  | nil => exact hs
  | cons e es ih => exact ih (hs.step e)

/-- Blocks 40 and 41, all zeros on disk, are logged with all ones. -/
def twoBlocks : DiskState where
  disk _ _ := 0
  cache b := if b = 40 ∨ b = 41 then some fun _ => 1 else none
  lh := [40, 41]
  pc := .commit

theorem twoBlocks_transaction : Transaction 2 twoBlocks where
  pc := rfl
  nodup := by decide
  length := by decide
  outside b hb i hi := by
    have hi : i ≤ 30 := hi
    simp only [twoBlocks, List.mem_cons, List.not_mem_nil, or_false] at hb
    rcases hb with rfl | rfl <;> interval_cases i <;> decide
  empty := rfl
  pinned b hb := by
    simp only [twoBlocks, List.mem_cons, List.not_mem_nil, or_false] at hb ⊢
    rw [if_pos hb]
    nofun
  clean b hb x hx := by
    simp only [twoBlocks, List.mem_cons, List.not_mem_nil, or_false] at hb hx
    rw [if_neg hb] at hx
    cases hx

/-- A crash after the first block is installed, one after recovery has installed it again,
and a recovery that completes. -/
def crashTwice : List DiskEvent :=
  [.run, .run, .run, .run, .run, .run, .crash, .run, .run, .crash, .run, .run, .run, .run, .run]

theorem log_crash_atomicity_twoBlocks :
    (twoBlocks.steps 2 crashTwice).pc = .done ∧
      ((∀ b ∈ twoBlocks.lh, (twoBlocks.steps 2 crashTwice).disk b = twoBlocks.disk b) ∨
        ∀ b ∈ twoBlocks.lh, (twoBlocks.steps 2 crashTwice).disk b = twoBlocks.bread b) := by
  have hdone : (twoBlocks.steps 2 crashTwice).pc = .done := by decide +kernel
  exact ⟨hdone, (log_crash_atomicity twoBlocks_transaction (DiskReach.refl.steps crashTwice)
    hdone).1⟩

end YHsys.Kernel
