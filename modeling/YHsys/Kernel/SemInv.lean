import YHsys.Kernel.FileRuns

/-!
# Semaphores: one file each, freed once, counted modulo `2 ^ 32`

A semaphore whose creation succeeded is in one place: its file carries it, or a process is
closing it, or its page is free (`SemInv.tokens`). Its `ref_count` is the number of files
that carry it, up to the processes that have still to count theirs or to uncount it.
Its value is what its history says, in 32 bits.
-/

namespace YHsys.Kernel

/-! ## Where semaphores are -/

/-- Whether a file is that of semaphore `s`. -/
def File.carries (x : File) (s : ℕ) : ℤ := if x.type = .sem ∧ x.sem = s then 1 else 0

/-- Where a call works on the `ref_count` of a semaphore. -/
inductive SemPoint where
  | close (s : ℕ)
  | free (s : ℕ)
  | ref (s : ℕ)
deriving DecidableEq

namespace FileCall

def semPoint : FileCall → Option SemPoint
  | .semClose s _ => some (.close s)
  | .semFree s _ => some (.free s)
  | .semRef s => some (.ref s)
  | _ => none

/-- The value `sys_sem_create` was called with. -/
def initial : FileCall → Option (BitVec 32)
  | .semFile v | .semMem v _ => some v
  | _ => none

def closing (c : FileCall) (s : ℕ) : ℤ :=
  if c.semPoint = some (.close s) ∨ c.semPoint = some (.free s) then 1 else 0

def atClose (c : FileCall) (s : ℕ) : ℤ := if c.semPoint = some (.close s) then 1 else 0

def atRef (c : FileCall) (s : ℕ) : ℤ := if c.semPoint = some (.ref s) then 1 else 0

end FileCall

/-- The files that carry a semaphore. -/
def Kern.carriers (k : Kern) (s : ℕ) : ℤ := ∑ f, (k.files f).carries s

/-- First value, plus posts, minus successful waits. -/
def SemHistory.count (x : SemHistory) : ℤ := x.initial.toInt + x.posts - x.waits

/-- One for a semaphore whose creation succeeded. -/
def SemHistory.token (x : SemHistory) : ℤ := if x.made then 1 else 0

theorem File.carries_nonneg (x : File) (s : ℕ) : 0 ≤ x.carries s := by
  unfold carries
  split <;> simp

theorem FileCall.closing_nonneg (c : FileCall) (s : ℕ) : 0 ≤ c.closing s := by
  unfold closing
  split <;> simp

theorem FileCall.atRef_nonneg (c : FileCall) (s : ℕ) : 0 ≤ c.atRef s := by
  unfold atRef
  split <;> simp

theorem FileCall.atClose_le_closing (c : FileCall) (s : ℕ) : c.atClose s ≤ c.closing s := by
  unfold atClose closing
  split
  · rw [if_pos (.inl ‹_›)]
  · split <;> simp

theorem Kern.carriers_nonneg (k : Kern) (s : ℕ) : 0 ≤ k.carriers s :=
  Finset.sum_nonneg fun _ _ => File.carries_nonneg _ s

theorem File.carries_of_ne {x : File} (h : x.type ≠ .sem) (s : ℕ) : x.carries s = 0 :=
  if_neg fun hx => h hx.1

theorem Kern.one_le_carriers {k : Kern} {f : FileId} {s : ℕ} (ht : (k.files f).type = .sem)
    (hs : (k.files f).sem = s) : 1 ≤ k.carriers s := by
  have hone : (k.files f).carries s = 1 := if_pos ⟨ht, hs⟩
  rw [← hone]
  exact Finset.single_le_sum (f := fun f => (k.files f).carries s)
    (fun f _ => File.carries_nonneg _ s) (Finset.mem_univ f)

theorem Kern.carriers_setFile (k : Kern) (f : FileId) (x : File) (s : ℕ) :
    (k.setFile f x).carriers s = k.carriers s - (k.files f).carries s + x.carries s := by
  have h := TableSum.sum_of_eq_off (f := fun g => (k.files g).carries s)
    (g := fun g => ((k.setFile f x).files g).carries s) f fun g hg => by
      simp [Kern.setFile, hg]
  simpa [Kern.carriers, Kern.setFile] using h

/-! ## The invariant -/

/-- What holds between any two critical sections. -/
structure SemInv (k : Kern) : Prop where
  tokens : ∀ s, k.carriers s + ∑ p, (k.calls p).closing s + (k.history s).frees =
    (k.history s).token
  refs : ∀ s, (k.sems s).refCount =
    k.carriers s + ∑ p, (k.calls p).atClose s - ∑ p, (k.calls p).atRef s
  fresh : ∀ s, k.nextSem ≤ s → (k.history s).made = false
  born : ∀ p s, (k.calls p).semPoint = some (.ref s) → (k.history s).made = true
  initial : ∀ p v, (k.calls p).initial = some v → 0 ≤ v.toInt
  counts : ∀ s, (k.history s).made = true →
    (k.sems s).value = BitVec.ofInt 32 (k.history s).count ∧ 0 ≤ (k.history s).count

namespace SemInv

variable {k k' : Kern} {p : ProcId} {s : ℕ}

theorem boot : SemInv .boot where
  tokens s := by simp [Kern.boot, Kern.carriers, File.carries, FileCall.closing,
    FileCall.semPoint, SemHistory.token]
  refs s := by simp [Kern.boot, Kern.carriers, File.carries, FileCall.atClose, FileCall.atRef,
    FileCall.semPoint]
  fresh s _ := rfl
  born p s h := nomatch h
  initial p v h := nomatch h
  counts s h := nomatch h

theorem of_carried (h : SemInv k) (hs : 1 ≤ k.carriers s) :
    (k.history s).made = true ∧ (k.history s).frees = 0 := by
  have htok := h.tokens s
  have hnon : 0 ≤ ∑ p, (k.calls p).closing s :=
    Finset.sum_nonneg fun p _ => (k.calls p).closing_nonneg s
  unfold SemHistory.token at htok
  split at htok
  · rename_i hmade
    exact ⟨hmade, by omega⟩
  · omega

theorem moved (h : SemInv k) (hcalls : ∀ q, q ≠ p → k'.calls q = k.calls q)
    (htokens : ∀ s, k'.carriers s + (k'.calls p).closing s + (k'.history s).frees -
        (k'.history s).token =
      k.carriers s + (k.calls p).closing s + (k.history s).frees - (k.history s).token)
    (hrefs : ∀ s, (k'.sems s).refCount - k'.carriers s - (k'.calls p).atClose s +
        (k'.calls p).atRef s =
      (k.sems s).refCount - k.carriers s - (k.calls p).atClose s + (k.calls p).atRef s)
    (hfresh : ∀ s, k'.nextSem ≤ s → (k'.history s).made = false)
    (hmade : ∀ s, (k.history s).made = true → (k'.history s).made = true)
    (hborn : ∀ s, (k'.calls p).semPoint = some (.ref s) → (k'.history s).made = true)
    (hinitial : ∀ v, (k'.calls p).initial = some v → 0 ≤ v.toInt)
    (hcounts : ∀ s, (k'.history s).made = true →
      (k'.sems s).value = BitVec.ofInt 32 (k'.history s).count ∧ 0 ≤ (k'.history s).count) :
    SemInv k' := by
  have hsum : ∀ F : FileCall → ℤ, ∑ q, F (k'.calls q) =
      ∑ q, F (k.calls q) - F (k.calls p) + F (k'.calls p) := fun F =>
    TableSum.sum_of_eq_off (f := fun q => F (k.calls q)) (g := fun q => F (k'.calls q)) p
      fun q hq => by simp only [hcalls q hq]
  refine ⟨fun s => ?_, fun s => ?_, hfresh, fun q s hq => ?_, fun q v hq => ?_, hcounts⟩
  · have := h.tokens s
    have := htokens s
    rw [hsum fun c => c.closing s]
    omega
  · have := h.refs s
    have := hrefs s
    rw [hsum fun c => c.atClose s, hsum fun c => c.atRef s]
    omega
  · by_cases hqp : q = p
    · subst hqp
      exact hborn s hq
    · rw [hcalls q hqp] at hq
      exact hmade s (h.born q s hq)
  · by_cases hqp : q = p
    · subst hqp
      exact hinitial v hq
    · rw [hcalls q hqp] at hq
      exact h.initial q v hq

theorem quiet (h : SemInv k) (hcalls : ∀ q, q ≠ p → k'.calls q = k.calls q)
    (hcarriers : ∀ s, k'.carriers s = k.carriers s)
    (hpoint : (k'.calls p).semPoint = (k.calls p).semPoint)
    (hinitial : ∀ v, (k'.calls p).initial = some v → 0 ≤ v.toInt)
    (hsems : k'.sems = k.sems) (hhistory : k'.history = k.history)
    (hnext : k'.nextSem = k.nextSem) : SemInv k' := by
  refine h.moved (p := p) hcalls (fun s => ?_) (fun s => ?_) ?_ ?_ (fun s hs => ?_) hinitial ?_
  · rw [hcarriers, hhistory, FileCall.closing, hpoint]
    rfl
  · rw [hcarriers, hsems, FileCall.atClose, FileCall.atRef, hpoint]
    rfl
  · rw [hhistory, hnext]
    exact h.fresh
  · rw [hhistory]
    exact fun _ hs => hs
  · rw [hpoint] at hs
    rw [hhistory]
    exact h.born p s hs
  · rw [hhistory, hsems]
    exact h.counts

end SemInv

end YHsys.Kernel
