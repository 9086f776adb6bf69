import Mathlib
import YHsys.Kernel.LogDisk
import YHsys.Lib.TableSums

/-!
# Reservation of log space

`begin_op`, `log_write` and `end_op` of `log.c` by any number of processes. Each function
is one critical section of `log.lock`, apart from `end_op`, which runs `commit` between
two of them. A sleep in `begin_op` is a section that changes nothing and is tried again.
With each operation goes the set of blocks it has written.
-/

namespace YHsys.Kernel

open Function (update update_apply update_of_ne update_self)

/-- `MAXOPBLOCKS` (`param.h`). -/
def maxOpBlocks : ℕ := 10

/-- Where a process stands. -/
inductive LogOp where
  /-- In no operation, or in `begin_op` before it takes the lock. -/
  | outside
  /-- In an operation that has written `blocks`. -/
  | inside (blocks : Finset BlockNo)
  /-- In `end_op`, at `commit`. -/
  | commit
  /-- In `end_op`, after `commit`. -/
  | finish
deriving DecidableEq

inductive LogPanic where
  | tooBig
  | outsideTrans
  | committing
deriving DecidableEq, Repr

/-- `struct log`, and the processes. -/
structure LogState (P : Type) where
  outstanding : ℤ
  committing : Bool
  /-- `lh.block[0..n)`. -/
  lh : List BlockNo
  ops : P → LogOp

/-- What process `p` does next. -/
inductive LogEvent (P : Type) where
  | beginOp (p : P)
  | logWrite (p : P) (b : BlockNo)
  | endOp (p : P)
  | commit (p : P)
  | finish (p : P)

namespace LogState

variable {P : Type} [DecidableEq P] (s : LogState P)

def goto (p : P) (op : LogOp) : LogState P := { s with ops := update s.ops p op }

/-- `begin_op` (`log.c:128`). -/
def beginOp (p : P) : LogState P :=
  if s.committing then s
  else if s.lh.length + (s.outstanding + 1) * maxOpBlocks > logBlocks then s
  else { s with outstanding := s.outstanding + 1 }.goto p (.inside ∅)

/-- `log_write` (`log.c:216`) of block `b`, by a process that has written `blocks`. -/
def logWrite (p : P) (blocks : Finset BlockNo) (b : BlockNo) : Except LogPanic (LogState P) :=
  if s.lh.length ≥ logBlocks then .error .tooBig
  else if s.outstanding < 1 then .error .outsideTrans
  else .ok ({ s with lh := absorb s.lh b }.goto p
    (.inside (insert b blocks)))

/-- `end_op` (`log.c:147`) up to `commit`. -/
def endOp (p : P) : Except LogPanic (LogState P) :=
  let s := { s with outstanding := s.outstanding - 1 }
  if s.committing then .error .committing
  else if s.outstanding = 0 then .ok ({ s with committing := true }.goto p .commit)
  else .ok (s.goto p .outside)

/-- One event; `none` if the process is elsewhere. -/
def step : LogEvent P → Option (Except LogPanic (LogState P))
  | .beginOp p => if s.ops p = .outside then some (.ok (s.beginOp p)) else none
  | .logWrite p b =>
    match s.ops p with
    | .inside blocks => some (s.logWrite p blocks b)
    | _ => none
  | .endOp p =>
    match s.ops p with
    | .inside _ => some (s.endOp p)
    | _ => none
  | .commit p =>
    -- `commit` has emptied the log
    if s.ops p = .commit then some (.ok ({ s with lh := [] }.goto p .finish)) else none
  | .finish p =>
    if s.ops p = .finish then some (.ok ({ s with committing := false }.goto p .outside))
    else none

/-- The contract of an operation: at most `MAXOPBLOCKS` different blocks. -/
def allowed : LogEvent P → Bool
  | .logWrite p b =>
    match s.ops p with
    | .inside blocks => (insert b blocks).card ≤ maxOpBlocks
    | _ => true
  | _ => true

/-- No operation has begun. -/
def boot : LogState P := ⟨0, false, [], fun _ => .outside⟩

end LogState

open LogState (goto)

/-- The states over all runs of operations that keep the contract. -/
inductive LogReach {P : Type} [DecidableEq P] : LogState P → Prop where
  | boot : LogReach .boot
  | step {s s' : LogState P} {e : LogEvent P} (hs : LogReach s) (ha : s.allowed e)
      (he : s.step e = some (.ok s')) : LogReach s'

/-! ## The invariant -/

namespace LogOp

/-- Whether the process is in an operation. -/
def count : LogOp → ℤ
  | .inside _ => 1
  | _ => 0

/-- The blocks an operation may still add. -/
def left : LogOp → ℤ
  | .inside blocks => maxOpBlocks - blocks.card
  | _ => 0

theorem left_inside (blocks : Finset BlockNo) :
    (inside blocks).left = maxOpBlocks - blocks.card := rfl

end LogOp

/-- Whether the process is in the part of `end_op` that commits. -/
def LogOp.ends (op : LogOp) : Prop := op = .commit ∨ op = .finish

open LogOp (count ends left)

variable {P : Type} [Fintype P]

/-- What holds between two critical sections. `space`: the log has room for all that the
operations in progress may still add. -/
structure LogInv (s : LogState P) : Prop where
  outstanding : s.outstanding = ∑ p, (s.ops p).count
  space : s.lh.length + ∑ p, (s.ops p).left ≤ logBlocks
  nodup : s.lh.Nodup
  written : ∀ p blocks, s.ops p = .inside blocks →
    blocks.card ≤ maxOpBlocks ∧ ∀ b ∈ blocks, b ∈ s.lh
  quiet : s.committing = true → s.outstanding = 0
  commits : ∀ p, (s.ops p).ends → s.committing = true
  one : ∀ p q, (s.ops p).ends → (s.ops q).ends → p = q

namespace LogInv

variable {s s' : LogState P} {p : P}

theorem boot : LogInv (.boot : LogState P) where
  outstanding := by simp [LogState.boot, count]
  space := by simp [LogState.boot, left, logBlocks]
  nodup := List.nodup_nil
  written p blocks h := nomatch h
  quiet h := nomatch h
  commits p h := by simp [LogState.boot, ends] at h
  one p q h := by simp [LogState.boot, ends] at h

theorem sum_goto [DecidableEq P] (F : LogOp → ℤ) (ops : P → LogOp) (p : P) (op : LogOp) :
    ∑ q, F (update ops p op q) = ∑ q, F (ops q) - F (ops p) + F op := by
  have h := TableSum.sum_of_eq_off (f := fun q => F (ops q))
    (g := fun q => F (update ops p op q)) p fun q hq => by
      rw [update_of_ne hq]
  simpa using h

theorem left_nonneg (h : LogInv s) (p : P) : 0 ≤ (s.ops p).left := by
  cases hp : s.ops p with
  | inside blocks =>
    have := (h.written p blocks hp).1
    simp only [left]
    omega
  | outside | commit | finish => simp [left]

theorem not_committing (h : LogInv s) {blocks : Finset BlockNo} (hp : s.ops p = .inside blocks) :
    1 ≤ s.outstanding ∧ s.committing = false := by
  have hone : 1 ≤ s.outstanding := by
    rw [h.outstanding]
    have hcount : (s.ops p).count = 1 := by rw [hp]; rfl
    rw [← hcount]
    refine Finset.single_le_sum (f := fun q => (s.ops q).count) (fun q _ => ?_) (Finset.mem_univ p)
    cases s.ops q <;> simp [count]
  refine ⟨hone, ?_⟩
  by_contra hc
  have := h.quiet (by simpa using hc)
  omega

theorem space_left (h : LogInv s) {blocks : Finset BlockNo} (hp : s.ops p = .inside blocks) :
    s.lh.length + ((maxOpBlocks : ℤ) - blocks.card) ≤ logBlocks := by
  have hle : (s.ops p).left ≤ ∑ q, (s.ops q).left :=
    Finset.single_le_sum (f := fun q => (s.ops q).left) (fun q _ => h.left_nonneg q)
      (Finset.mem_univ p)
  have hleft : (s.ops p).left = maxOpBlocks - blocks.card := by rw [hp]; rfl
  have hspace := h.space
  omega

theorem length_le (h : LogInv s) : s.lh.length ≤ logBlocks := by
  have hspace := h.space
  have : 0 ≤ ∑ p, (s.ops p).left := Finset.sum_nonneg fun p _ => h.left_nonneg p
  omega

theorem lt_of_new (h : LogInv s) {blocks : Finset BlockNo} (hp : s.ops p = .inside blocks)
    {b : BlockNo} (hb : b ∉ s.lh) (ha : (insert b blocks).card ≤ maxOpBlocks) :
    s.lh.length < logBlocks := by
  have hnew : b ∉ blocks := fun hmem => hb ((h.written p blocks hp).2 b hmem)
  rw [Finset.card_insert_of_notMem hnew] at ha
  have := h.space_left hp
  omega

theorem not_inside (h : LogInv s) (h0 : s.outstanding = 0) (p : P) (blocks : Finset BlockNo) :
    s.ops p ≠ .inside blocks := by
  intro hp
  have := (h.not_committing hp).1
  omega

section Steps

variable [DecidableEq P]

omit [Fintype P] in
theorem ends_goto {op : LogOp} {t : LogState P} (hop : ¬ op.ends) {q : P}
    (hq : ((t.goto p op).ops q).ends) : q ≠ p ∧ (t.ops q).ends := by
  by_cases hqp : q = p
  · subst hqp
    simp only [goto, update_self] at hq
    exact absurd hq hop
  · simp only [goto, update_of_ne hqp] at hq
    exact ⟨hqp, hq⟩

theorem beginOp (h : LogInv s) (hp : s.ops p = .outside) : LogInv (s.beginOp p) := by
  unfold LogState.beginOp
  split
  · exact h
  rename_i hc
  split
  · exact h
  rename_i hroom
  have hends : ¬ (LogOp.inside ∅).ends := by simp [ends]
  have hsum : ∑ q, (s.ops q).left ≤ maxOpBlocks * s.outstanding := by
    rw [h.outstanding, Finset.mul_sum]
    refine Finset.sum_le_sum fun q _ => ?_
    cases s.ops q <;> simp [left, count]
  refine ⟨?_, ?_, h.nodup, fun q blocks hq => ?_, fun hcom => absurd hcom hc, fun q hq => ?_,
    fun q r hq hr => ?_⟩
  · show s.outstanding + 1 = ∑ q, (update s.ops p (.inside ∅) q).count
    rw [sum_goto, hp, ← h.outstanding]
    simp [count]
  · show (s.lh.length : ℤ) + ∑ q, (update s.ops p (.inside ∅) q).left ≤ logBlocks
    rw [sum_goto, hp]
    rw [LogOp.left_inside, Finset.card_empty]
    show _ + (_ - (0 : ℤ) + _) ≤ _
    simp only [maxOpBlocks] at hsum hroom ⊢
    omega
  · by_cases hqp : q = p
    · subst hqp
      simp only [goto, update_self, LogOp.inside.injEq] at hq
      simp [← hq]
    · simp only [goto, update_of_ne hqp] at hq
      exact h.written q blocks hq
  · exact absurd (h.commits q (ends_goto hends hq).2) hc
  · exact h.one q r (ends_goto hends hq).2 (ends_goto hends hr).2

theorem logWrite (h : LogInv s) {blocks : Finset BlockNo} {b : BlockNo}
    (hp : s.ops p = .inside blocks) (ha : (insert b blocks).card ≤ maxOpBlocks)
    (he : s.logWrite p blocks b = .ok s') : LogInv s' := by
  unfold LogState.logWrite at he
  split at he
  · cases he
  split at he
  · cases he
  cases he
  have hends : ¬ (LogOp.inside (insert b blocks)).ends := by simp [ends]
  have hwritten := (h.written p blocks hp).2
  refine ⟨?_, ?_, ?_, fun q blocks' hq => ?_, fun hc => ?_, fun q hq => ?_, fun q r hq hr => ?_⟩
  · show s.outstanding = ∑ q, (update s.ops p (.inside (insert b blocks)) q).count
    rw [sum_goto, hp, ← h.outstanding]
    simp [count]
  · show ((if b ∈ s.lh then s.lh else s.lh ++ [b]).length : ℤ) +
      ∑ q, (update s.ops p (.inside (insert b blocks)) q).left ≤ logBlocks
    rw [sum_goto, hp]
    have hspace := h.space
    simp only [LogOp.left_inside]
    split
    · have := Finset.card_le_card (Finset.subset_insert b blocks)
      omega
    · -- a block that is not in the log is new to the operation
      rename_i hb
      rw [Finset.card_insert_of_notMem fun hmem => hb (hwritten b hmem)]
      simp only [List.length_append, List.length_singleton]
      omega
  · show (if b ∈ s.lh then s.lh else s.lh ++ [b]).Nodup
    split
    · exact h.nodup
    · rename_i hb
      refine List.nodup_append.mpr ⟨h.nodup, List.nodup_singleton b, fun x hx y hy => ?_⟩
      rintro rfl
      rw [List.mem_singleton] at hy
      exact hb (hy ▸ hx)
  · have hmono : ∀ x ∈ s.lh, x ∈ (if b ∈ s.lh then s.lh else s.lh ++ [b]) := by
      intro x hx
      split
      · exact hx
      · exact List.mem_append_left _ hx
    have hmem : b ∈ (if b ∈ s.lh then s.lh else s.lh ++ [b]) := by
      split
      · assumption
      · simp
    by_cases hqp : q = p
    · subst hqp
      simp only [goto, update_self, LogOp.inside.injEq] at hq
      subst hq
      refine ⟨ha, fun x hx => ?_⟩
      rcases Finset.mem_insert.mp hx with rfl | hx
      · exact hmem
      · exact hmono x (hwritten x hx)
    · simp only [goto, update_of_ne hqp] at hq
      obtain ⟨hcard, hin⟩ := h.written q blocks' hq
      exact ⟨hcard, fun x hx => hmono x (hin x hx)⟩
  · exact h.quiet hc
  · exact h.commits q (ends_goto hends hq).2
  · exact h.one q r (ends_goto hends hq).2 (ends_goto hends hr).2

theorem endOp (h : LogInv s) {blocks : Finset BlockNo} (hp : s.ops p = .inside blocks)
    (he : s.endOp p = .ok s') : LogInv s' := by
  obtain ⟨hone, hc⟩ := h.not_committing hp
  have hleft := h.left_nonneg p
  have hspace := h.space
  have hcount : (s.ops p).count = 1 := by rw [hp]; rfl
  -- what is the same whether it was the last one or not
  have hbase : ∀ {op : LogOp} (com : Bool), op.count = 0 → op.left = 0 →
      (∀ bs, op ≠ .inside bs) → (com = true → s.outstanding - 1 = 0) → (op.ends → com = true) →
      LogInv ({ s with outstanding := s.outstanding - 1, committing := com }.goto p op) := by
    intro op com hopc hopl hopi hquiet hcom
    have hends : ∀ q, ((({ s with outstanding := s.outstanding - 1, committing := com }.goto p
        op).ops q).ends) → q = p ∧ op.ends := by
      intro q hq
      by_cases hqp : q = p
      · subst hqp
        simp only [goto, update_self] at hq
        exact ⟨rfl, hq⟩
      · simp only [goto, update_of_ne hqp] at hq
        rw [h.commits q hq] at hc
        cases hc
    refine ⟨?_, ?_, h.nodup, fun q bs hq => ?_, hquiet, fun q hq => ?_, fun q r hq hr => ?_⟩
    · show s.outstanding - 1 = ∑ q, (update s.ops p op q).count
      rw [sum_goto, ← h.outstanding]
      omega
    · show (s.lh.length : ℤ) + ∑ q, (update s.ops p op q).left ≤ logBlocks
      rw [sum_goto]
      omega
    · by_cases hqp : q = p
      · subst hqp
        simp only [goto, update_self] at hq
        exact absurd hq (hopi bs)
      · simp only [goto, update_of_ne hqp] at hq
        exact h.written q bs hq
    · exact hcom (hends q hq).2
    · rw [(hends q hq).1, (hends r hr).1]
  unfold LogState.endOp at he
  simp only [hc, Bool.false_eq_true, if_false] at he
  split at he
  · rename_i hzero
    cases he
    exact hbase true rfl rfl (fun _ => nofun) (fun _ => hzero) fun _ => rfl
  · cases he
    exact hc ▸ hbase s.committing rfl rfl (fun _ => nofun) (by simp [hc])
      (by simp [ends])

theorem commit (h : LogInv s) (hp : s.ops p = .commit) :
    LogInv ({ s with lh := [] }.goto p .finish) := by
  have hcom := h.commits p (by simp [hp, ends])
  have hzero := h.quiet hcom
  have hop : ∀ q, ({ s with lh := [] }.goto p .finish : LogState P).ops q =
      if q = p then .finish else s.ops q := fun q => update_apply ..
  refine ⟨?_, ?_, List.nodup_nil, fun q blocks hq => ?_, fun _ => hzero, fun _ _ => hcom,
    fun q r hq hr => ?_⟩
  · show s.outstanding = ∑ q, (update s.ops p .finish q).count
    rw [sum_goto, hp, ← h.outstanding]
    simp [count]
  · show (0 : ℤ) + ∑ q, (update s.ops p .finish q).left ≤ logBlocks
    rw [sum_goto, hp]
    have hspace := h.space
    show _ + (_ - (0 : ℤ) + 0) ≤ _
    omega
  · rw [hop] at hq
    split at hq
    · cases hq
    · exact absurd hq (h.not_inside hzero q blocks)
  · have hends : ∀ q, (({ s with lh := [] }.goto p .finish : LogState P).ops q).ends →
        (s.ops q).ends := by
      intro q hq
      rw [hop] at hq
      split at hq
      · rename_i hqp
        simp [hqp, hp, ends]
      · exact hq
    exact h.one q r (hends q hq) (hends r hr)

theorem finish (h : LogInv s) (hp : s.ops p = .finish) :
    LogInv ({ s with committing := false }.goto p .outside) := by
  have hends : ¬ LogOp.outside.ends := by simp [ends]
  have hnone : ∀ q, ¬ (({ s with committing := false }.goto p .outside : LogState P).ops q).ends :=
    fun q hq => (ends_goto hends hq).1 (h.one q p (ends_goto hends hq).2 (.inr hp))
  refine ⟨?_, ?_, h.nodup, fun q blocks hq => ?_, nofun, fun q hq => absurd hq (hnone q),
    fun q r hq => absurd hq (hnone q)⟩
  · show s.outstanding = ∑ q, (update s.ops p .outside q).count
    rw [sum_goto, hp, ← h.outstanding]
    simp [count]
  · show (s.lh.length : ℤ) + ∑ q, (update s.ops p .outside q).left ≤ logBlocks
    rw [sum_goto, hp]
    have hspace := h.space
    show _ + (_ - (0 : ℤ) + 0) ≤ _
    omega
  · by_cases hqp : q = p
    · subst hqp
      simp [goto] at hq
    · simp only [goto, update_of_ne hqp] at hq
      exact h.written q blocks hq

theorem step (h : LogInv s) {e : LogEvent P} (ha : s.allowed e) (he : s.step e = some (.ok s')) :
    LogInv s' := by
  cases e with
  | beginOp p =>
    simp only [LogState.step] at he
    split at he
    · cases he
      exact h.beginOp ‹_›
    · cases he
  | logWrite p b =>
    simp only [LogState.step] at he
    split at he
    · rename_i blocks hp
      have ha : (insert b blocks).card ≤ maxOpBlocks := by simpa [LogState.allowed, hp] using ha
      exact h.logWrite hp ha (Option.some.inj he)
    · cases he
  | endOp p =>
    simp only [LogState.step] at he
    split at he
    · rename_i blocks hp
      exact h.endOp hp (Option.some.inj he)
    · cases he
  | commit p =>
    simp only [LogState.step] at he
    split at he
    · cases he
      exact h.commit ‹_›
    · cases he
  | finish p =>
    simp only [LogState.step] at he
    split at he
    · cases he
      exact h.finish ‹_›
    · cases he

end Steps

end LogInv

section Runs

variable [DecidableEq P] {s s' : LogState P}

theorem LogReach.inv (hs : LogReach s) : LogInv s := by
  induction hs with
  | boot => exact .boot
  | step _ ha he ih => exact ih.step ha he

theorem LogInv.logWrite_ok_iff (h : LogInv s) {p : P} {blocks : Finset BlockNo}
    (hp : s.ops p = .inside blocks) (b : BlockNo) :
    (∃ s', s.step (.logWrite p b) = some (.ok s')) ↔ s.lh.length < logBlocks := by
  have hone := (h.not_committing hp).1
  simp only [LogState.step, hp, LogState.logWrite, if_neg (show ¬ s.outstanding < 1 by omega)]
  by_cases hfull : s.lh.length ≥ logBlocks
  · simp [hfull]
  · simp [hfull, not_le.mp hfull]

/-- In every run of operations that keep to `MAXOPBLOCKS` blocks each, the log header has
at most `LOGBLOCKS` different blocks, `commit` runs only when no operation is outstanding,
`end_op` does not panic, and `log_write` does not panic exactly if the log is not full;
when it is full, the block is one that is in the log. -/
theorem log_reservation (hs : LogReach s) :
    s.lh.Nodup ∧ s.lh.length ≤ logBlocks ∧
      (∀ p, s.ops p = .commit → s.outstanding = 0 ∧ ∀ q blocks, s.ops q ≠ .inside blocks) ∧
      (∀ p blocks, s.ops p = .inside blocks → ∃ s', s.step (.endOp p) = some (.ok s')) ∧
      ∀ p blocks b, s.ops p = .inside blocks → s.allowed (.logWrite p b) →
        ((∃ s', s.step (.logWrite p b) = some (.ok s')) ↔ s.lh.length < logBlocks) ∧
        (s.lh.length = logBlocks → b ∈ s.lh) := by
  have h := hs.inv
  refine ⟨h.nodup, h.length_le, fun p hp => ?_, fun p blocks hp => ?_, fun p blocks b hp ha => ?_⟩
  · have hzero := h.quiet (h.commits p (.inl hp))
    exact ⟨hzero, h.not_inside hzero⟩
  · simp only [LogState.step, hp, LogState.endOp, (h.not_committing hp).2, Bool.false_eq_true,
      if_false]
    split
    · exact ⟨_, rfl⟩
    · exact ⟨_, rfl⟩
  · refine ⟨h.logWrite_ok_iff hp b, fun hfull => ?_⟩
    by_contra hb
    have ha : (insert b blocks).card ≤ maxOpBlocks := by simpa [LogState.allowed, hp] using ha
    have := h.lt_of_new hp hb ha
    omega

/-! ### Runs -/

/-- Several events, each allowed and without a panic. -/
def LogState.steps (s : LogState P) : List (LogEvent P) → Option (LogState P)
  | [] => some s
  | e :: es =>
    if s.allowed e then
      match s.step e with
      | some (.ok s') => s'.steps es
      | _ => none
    else none

omit [Fintype P] in
theorem LogReach.steps {es : List (LogEvent P)} (hs : LogReach s) (he : s.steps es = some s') :
    LogReach s' := by
  induction es generalizing s with
  | nil =>
    cases he
    exact hs
  | cons e es ih =>
    unfold LogState.steps at he
    split at he
    · rename_i ha
      split at he
      · rename_i hstep
        exact ih (hs.step ha hstep) he
      · cases he
    · cases he

end Runs

/-- Three operations of ten blocks each. -/
def fullLog : List (LogEvent (Fin 3)) :=
  [.beginOp 0, .beginOp 1, .beginOp 2] ++
    (List.range 30).map fun i => .logWrite (Fin.ofNat 3 i) (BitVec.ofNat 32 i)

theorem log_reservation_first_write : ∃ s : LogState (Fin 3), LogReach s ∧
    s.lh.length < logBlocks ∧ ∃ s', s.step (.logWrite 0 7) = some (.ok s') := by
  have hrun : ((LogState.boot : LogState (Fin 3)).steps [.beginOp 0]).any
      (fun s => s.lh.length < logBlocks ∧ s.ops 0 = .inside ∅) := by decide +kernel
  obtain ⟨s, hs, hq⟩ := Option.any_eq_true _ _ |>.mp hrun
  obtain ⟨hlen, hp⟩ : s.lh.length < logBlocks ∧ s.ops 0 = .inside ∅ := by simpa using hq
  have hreach := LogReach.boot.steps hs
  have hok := (log_reservation hreach).2.2.2.2 0 ∅ 7 hp (by simp [LogState.allowed, hp, maxOpBlocks])
  exact ⟨s, hreach, hlen, hok.1.mpr hlen⟩

def panicsTooBig : Option (Except LogPanic (LogState (Fin 3))) → Bool
  | some (.error .tooBig) => true
  | _ => false

theorem eq_of_panicsTooBig {r : Option (Except LogPanic (LogState (Fin 3)))}
    (h : panicsTooBig r = true) : r = some (.error .tooBig) := by
  unfold panicsTooBig at h
  split at h
  · rfl
  · cases h

/-- The first of the three operations writes its first block once more. -/
theorem log_reservation_repeated_write : ∃ s : LogState (Fin 3), LogReach s ∧
    s.allowed (.logWrite 0 0) ∧ s.step (.logWrite 0 0) = some (.error .tooBig) := by
  have hrun : ((LogState.boot : LogState (Fin 3)).steps fullLog).any
      (fun s => s.allowed (.logWrite 0 0) && panicsTooBig (s.step (.logWrite 0 0))) := by
    decide +kernel
  obtain ⟨s, hs, hq⟩ := Option.any_eq_true _ _ |>.mp hrun
  rw [Bool.and_eq_true] at hq
  exact ⟨s, LogReach.boot.steps hs, hq.1, eq_of_panicsTooBig hq.2⟩

end YHsys.Kernel
