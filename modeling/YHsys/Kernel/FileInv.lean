import Mathlib.Algebra.Order.Ring.Int
import YHsys.Kernel.Files
import YHsys.Kernel.ProcSleep
import YHsys.Lib.TableSums

/-!
# References to open files

`FileInv` holds between any two critical sections. A process's share in a file is the
number of its descriptors that hold a reference to it, and the references its call is
still to hand on or to drop; a file's `ref` is the sum of all shares. A process changes
what a file is only when it has all of its references, so a file someone else has a share
in keeps its kind (`FileInv.moved`).
-/

namespace YHsys.Kernel

open Function (update update_apply update_of_ne update_self)

/-! ## Shares -/

/-- References that a call still has to drop. -/
def After.held : After → List FileId
  | .ret | .exitSlot _ _ => []
  | .close f r => f :: r.held

/-- A descriptor that holds no reference any more, or none yet. -/
def After.skip : After → Option Fd
  | .ret => none
  | .exitSlot _ fd => some fd
  | .close _ r => r.skip

/-- How many of the lowest descriptors `kexit` has cleared. -/
def After.cleared : After → ℕ
  | .ret => 0
  | .exitSlot _ fd => fd
  | .close _ r => r.cleared

namespace FileCall

def held : FileCall → List FileId
  | .fileclose f r => f :: r.held
  | .closeRest r | .semClose _ r | .semFree _ r => r.held
  | .pipeSecond f0 => [f0]
  | .pipeMem f0 f1 => [f0, f1]
  | .semMem _ f => [f]
  | _ => []

def skip : FileCall → Option Fd
  | .dup fd _ => some fd
  | .fileclose _ r | .closeRest r | .semClose _ r | .semFree _ r => r.skip
  | _ => none

def cleared : FileCall → ℕ
  | .fileclose _ r | .closeRest r | .semClose _ r | .semFree _ r => r.cleared
  | .exit _ n => n
  | .exitDone _ => nofile
  | _ => 0

/-- Files that the call has allocated and not filled in. -/
def creating : FileCall → List FileId
  | .pipeSecond f0 => [f0]
  | .pipeMem f0 f1 => [f0, f1]
  | .semMem _ f => [f]
  | _ => []

/-- The descriptor, the file and the semaphore a semaphore call works on. -/
def uses : FileCall → Option (Fd × FileId × ℕ)
  | .semWait fd f s | .semPost fd f s | .semDestroy fd f s => some (fd, f, s)
  | _ => none

end FileCall

/-- The descriptors that hold a reference to `f`. -/
def slots (o : Fd → Option FileId) (skip : Option Fd) (f : FileId) : ℤ :=
  ∑ fd, if skip ≠ some fd ∧ o fd = some f then 1 else 0

/-- A process's share in a file. -/
def share (o : Fd → Option FileId) (c : FileCall) (f : FileId) : ℤ :=
  slots o c.skip f + c.held.count f

theorem slots_nonneg (o : Fd → Option FileId) (skip : Option Fd) (f : FileId) :
    0 ≤ slots o skip f :=
  Finset.sum_nonneg fun fd _ => by split <;> simp

theorem share_nonneg (o : Fd → Option FileId) (c : FileCall) (f : FileId) : 0 ≤ share o c f := by
  have := slots_nonneg o c.skip f
  unfold share
  omega

theorem slots_pos {o : Fd → Option FileId} {skip : Option Fd} {f : FileId} {fd : Fd}
    (hs : skip ≠ some fd) (ho : o fd = some f) : 1 ≤ slots o skip f := by
  have hone : (if skip ≠ some fd ∧ o fd = some f then (1 : ℤ) else 0) = 1 := if_pos ⟨hs, ho⟩
  rw [← hone]
  exact Finset.single_le_sum (f := fun fd => if skip ≠ some fd ∧ o fd = some f then (1 : ℤ) else 0)
    (fun fd _ => by split <;> simp) (Finset.mem_univ fd)

theorem share_pos_of_slot {o : Fd → Option FileId} {c : FileCall} {f : FileId} {fd : Fd}
    (hs : c.skip ≠ some fd) (ho : o fd = some f) : 1 ≤ share o c f := by
  have := slots_pos hs ho
  unfold share
  omega

theorem share_pos_of_held {o : Fd → Option FileId} {c : FileCall} {f : FileId}
    (h : f ∈ c.held) : 1 ≤ share o c f := by
  have := slots_nonneg o c.skip f
  have := List.count_pos_iff.mpr h
  unfold share
  omega

theorem slots_change {o o' : Fd → Option FileId} {skip' : Option Fd} (fd : Fd)
    (ho : ∀ j, j ≠ fd → o' j = o j) (skip : Option Fd)
    (hs : ∀ j, j ≠ fd → (skip' ≠ some j ↔ skip ≠ some j)) (f : FileId) :
    slots o' skip' f = slots o skip f - (if skip ≠ some fd ∧ o fd = some f then 1 else 0) +
      if skip' ≠ some fd ∧ o' fd = some f then 1 else 0 := by
  refine TableSum.sum_of_eq_off fd fun j hj => ?_
  rw [ho j hj]
  simp only [hs j hj]

/-! ## The invariant -/

/-- `x` and `y` differ in their references only. -/
def File.SameKind (x y : File) : Prop := y = { x with ref := y.ref }

/-- What holds between any two critical sections. -/
structure FileInv (k : Kern) : Prop where
  refs : ∀ f, (k.files f).ref = ∑ p, share (k.ofile p) (k.calls p) f
  free : ∀ f, (k.files f).ref = 0 → (k.files f).type = .none
  flags : ∀ f, (k.files f).type = .sem →
    (k.files f).readable = true ∧ (k.files f).writable = true
  fresh : ∀ p, ∀ f ∈ (k.calls p).creating, (k.files f).ref = 1 ∧ (k.files f).type = .none
  filled : ∀ p fd f, (k.calls p).skip ≠ some fd → k.ofile p fd = some f →
    (k.files f).type ≠ .none
  uses : ∀ p fd f s, (k.calls p).uses = some (fd, f, s) →
    k.ofile p fd = some f ∧ (k.files f).type = .sem ∧ (k.files f).sem = s
  dup : ∀ p fd f, k.calls p = .dup fd f →
    k.ofile p fd = some f ∧ ∃ fd', fd' ≠ fd ∧ k.ofile p fd' = some f
  cleared : ∀ p fd, fd.val < (k.calls p).cleared → k.ofile p fd = none
  gone : ∀ p, (k.table.procs p).Gone → (∀ fd, k.ofile p fd = none) ∧ k.calls p = .idle

namespace FileInv

variable {k k' : Kern} {p q : ProcId} {f : FileId}

theorem add_le_ref (h : FileInv k) (hpq : p ≠ q) (f : FileId) :
    share (k.ofile p) (k.calls p) f + share (k.ofile q) (k.calls q) f ≤ (k.files f).ref := by
  rw [h.refs f]
  exact TableSum.add_le_sum (f := fun p => share (k.ofile p) (k.calls p) f)
    (fun p => share_nonneg _ _ f) hpq

theorem le_ref (h : FileInv k) (p : ProcId) (f : FileId) :
    share (k.ofile p) (k.calls p) f ≤ (k.files f).ref := by
  rw [h.refs f]
  exact Finset.single_le_sum (f := fun p => share (k.ofile p) (k.calls p) f)
    (fun p _ => share_nonneg _ _ f) (Finset.mem_univ p)

theorem boot : FileInv .boot where
  refs f := by simp [Kern.boot, share, slots, FileCall.held]
  free f _ := rfl
  flags f h := nomatch h
  fresh p f hf := nomatch hf
  filled p fd f _ h := nomatch h
  uses p fd f s h := nomatch h
  dup p fd f h := nomatch h
  cleared p fd h := rfl
  gone p _ := ⟨fun _ => rfl, rfl⟩

/-- What process `p` did: the other processes stand where they stood, each file's
references moved as the share of `p`, only files of which `p` had all references became
something else, and a new share is in a file that was free or filled in. -/
structure Moved (k : Kern) (p : ProcId) (k' : Kern) : Prop where
  ofile : ∀ q, q ≠ p → k'.ofile q = k.ofile q
  calls : ∀ q, q ≠ p → k'.calls q = k.calls q
  gone : ∀ q, (k'.table.procs q).Gone →
    (∀ fd, k'.ofile q fd = none) ∧ k'.calls q = .idle ∨ q ≠ p ∧ (k.table.procs q).Gone
  refs : ∀ f, (k'.files f).ref = (k.files f).ref - share (k.ofile p) (k.calls p) f +
    share (k'.ofile p) (k'.calls p) f
  kind : ∀ f, (k.files f).SameKind (k'.files f) ∨
    (k.files f).ref = share (k.ofile p) (k.calls p) f
  gain : ∀ f, 1 ≤ share (k'.ofile p) (k'.calls p) f →
    1 ≤ share (k.ofile p) (k.calls p) f ∨ (k.files f).ref = 0 ∨ (k.files f).type ≠ .none
  free : ∀ f, (k'.files f).ref = 0 → (k'.files f).type = .none
  flags : ∀ f, (k'.files f).type = .sem →
    (k'.files f).readable = true ∧ (k'.files f).writable = true
  fresh : ∀ f ∈ (k'.calls p).creating, (k'.files f).ref = 1 ∧ (k'.files f).type = .none
  filled : ∀ fd f, (k'.calls p).skip ≠ some fd → k'.ofile p fd = some f →
    (k'.files f).type ≠ .none
  uses : ∀ fd f s, (k'.calls p).uses = some (fd, f, s) →
    k'.ofile p fd = some f ∧ (k'.files f).type = .sem ∧ (k'.files f).sem = s
  dup : ∀ fd f, k'.calls p = .dup fd f →
    k'.ofile p fd = some f ∧ ∃ fd', fd' ≠ fd ∧ k'.ofile p fd' = some f
  cleared : ∀ fd, fd.val < (k'.calls p).cleared → k'.ofile p fd = none

theorem Moved.kind_of_share (h : FileInv k) (hm : Moved k p k') (hq : q ≠ p)
    (hf : 1 ≤ share (k.ofile q) (k.calls q) f) : (k.files f).SameKind (k'.files f) := by
  refine (hm.kind f).resolve_right fun heq => ?_
  have := h.add_le_ref hq.symm f
  omega

theorem creating_held {c : FileCall} (hf : f ∈ c.creating) : f ∈ c.held := by
  cases c <;> simp_all [FileCall.creating, FileCall.held]

/-- What one process does keeps the invariant. -/
theorem moved (h : FileInv k) (hm : Moved k p k') : FileInv k' := by
  have hkind : ∀ {q f}, q ≠ p → 1 ≤ share (k.ofile q) (k.calls q) f →
      (k'.files f).type = (k.files f).type ∧ (k'.files f).sem = (k.files f).sem := by
    intro q f hq hf
    rw [hm.kind_of_share h hq hf]
    exact ⟨rfl, rfl⟩
  constructor
  case refs =>
    intro f
    have hsum := TableSum.sum_of_eq_off (f := fun q => share (k.ofile q) (k.calls q) f)
      (g := fun q => share (k'.ofile q) (k'.calls q) f) p fun q hq => by
        simp only [hm.ofile q hq, hm.calls q hq]
    rw [hm.refs f, hsum, h.refs f]
  case free => exact hm.free
  case flags => exact hm.flags
  case fresh =>
    intro q f hf
    by_cases hq : q = p
    · subst hq
      exact hm.fresh f hf
    · -- all references to a file being created are its creator's
      rw [hm.calls q hq] at hf
      obtain ⟨href, htype⟩ := h.fresh q f hf
      have hone := share_pos_of_held (o := k.ofile q) (creating_held hf)
      have hle := h.add_le_ref (Ne.symm hq) f
      have hnon := share_nonneg (k.ofile p) (k.calls p) f
      have hnon' := share_nonneg (k'.ofile p) (k'.calls p) f
      have hzero : ¬ 1 ≤ share (k'.ofile p) (k'.calls p) f := by
        intro hpos
        rcases hm.gain f hpos with hshare | hfree | hfilled
        · omega
        · omega
        · exact hfilled htype
      rw [hm.refs f, (hkind hq hone).1]
      exact ⟨by omega, htype⟩
  case filled =>
    intro q fd f hs ho
    by_cases hq : q = p
    · subst hq
      exact hm.filled fd f hs ho
    · rw [hm.calls q hq] at hs
      rw [hm.ofile q hq] at ho
      rw [(hkind hq (share_pos_of_slot hs ho)).1]
      exact h.filled q fd f hs ho
  case uses =>
    intro q fd f s hu
    by_cases hq : q = p
    · subst hq
      exact hm.uses fd f s hu
    · rw [hm.calls q hq] at hu
      obtain ⟨ho, htype, hsem⟩ := h.uses q fd f s hu
      have hskip : (k.calls q).skip ≠ some fd := by
        cases hc : k.calls q <;> simp_all [FileCall.uses, FileCall.skip]
      have hkind := hkind hq (share_pos_of_slot hskip ho)
      rw [hm.ofile q hq, hkind.1, hkind.2]
      exact ⟨ho, htype, hsem⟩
  case dup =>
    intro q fd f hd
    by_cases hq : q = p
    · subst hq
      exact hm.dup fd f hd
    · rw [hm.calls q hq] at hd
      rw [hm.ofile q hq]
      exact h.dup q fd f hd
  case cleared =>
    intro q fd hlt
    by_cases hq : q = p
    · subst hq
      exact hm.cleared fd hlt
    · rw [hm.calls q hq] at hlt
      rw [hm.ofile q hq]
      exact h.cleared q fd hlt
  case gone =>
    intro q hg
    rcases hm.gone q hg with hnone | ⟨hq, hg⟩
    · exact hnone
    · rw [hm.ofile q hq, hm.calls q hq]
      exact h.gone q hg

theorem congr (h : FileInv k) (hfiles : k'.files = k.files) (hofile : k'.ofile = k.ofile)
    (hcalls : k'.calls = k.calls)
    (hgone : ∀ q, (k'.table.procs q).Gone → (k.table.procs q).Gone) : FileInv k' := by
  obtain ⟨table, ofile, calls, files, sems, history, nextSem⟩ := k
  obtain ⟨table', ofile', calls', files', sems', history', nextSem'⟩ := k'
  obtain rfl : files' = files := hfiles
  obtain rfl : ofile' = ofile := hofile
  obtain rfl : calls' = calls := hcalls
  exact ⟨h.refs, h.free, h.flags, h.fresh, h.filled, h.uses, h.dup, h.cleared,
    fun q hq => h.gone q (hgone q hq)⟩

/-- Process `p` with the descriptors `o`, at `c`. -/
def desk (k : Kern) (p : ProcId) (o : Fd → Option FileId) (c : FileCall) : Kern :=
  { k with ofile := update k.ofile p o, calls := update k.calls p c }

/-- What is asked of the descriptors and the call of one process, when the files are
`files`. -/
structure DeskOk (files : FileId → File) (o : Fd → Option FileId) (c : FileCall) : Prop where
  fresh : ∀ f ∈ c.creating, (files f).ref = 1 ∧ (files f).type = .none
  filled : ∀ fd f, c.skip ≠ some fd → o fd = some f → (files f).type ≠ .none
  uses : ∀ fd f s, c.uses = some (fd, f, s) →
    o fd = some f ∧ (files f).type = .sem ∧ (files f).sem = s
  dup : ∀ fd f, c = .dup fd f → o fd = some f ∧ ∃ fd', fd' ≠ fd ∧ o fd' = some f
  cleared : ∀ fd, fd.val < c.cleared → o fd = none

theorem setFile_desk (h : FileInv k) (hp : ¬ (k.table.procs p).Gone) {o : Fd → Option FileId}
    {c : FileCall} {x : File}
    (href : x.ref = (k.files f).ref - share (k.ofile p) (k.calls p) f + share o c f)
    (hother : ∀ g, g ≠ f → share o c g = share (k.ofile p) (k.calls p) g)
    (hkind : (k.files f).SameKind x ∨ (k.files f).ref = share (k.ofile p) (k.calls p) f)
    (hgain : 1 ≤ share o c f →
      1 ≤ share (k.ofile p) (k.calls p) f ∨ (k.files f).ref = 0 ∨ (k.files f).type ≠ .none)
    (hfree : x.ref = 0 → x.type = .none)
    (hflags : x.type = .sem → x.readable = true ∧ x.writable = true)
    (hdesk : DeskOk (update k.files f x) o c) :
    FileInv (desk (k.setFile f x) p o c) := by
  have hfile : ∀ g, (desk (k.setFile f x) p o c).files g = if g = f then x else k.files g :=
    fun g => update_apply ..
  have ho : (desk (k.setFile f x) p o c).ofile p = o := update_self ..
  have hc : (desk (k.setFile f x) p o c).calls p = c := update_self ..
  refine h.moved (p := p) ⟨fun q hq => update_of_ne hq .., fun q hq =>
    update_of_ne hq .., fun q hg => .inr ⟨?_, hg⟩, fun g => ?_, fun g => ?_, fun g => ?_,
    fun g => ?_, fun g => ?_, ?_, ?_, ?_, ?_, ?_⟩
  · rintro rfl
    exact hp hg
  · rw [hfile, ho, hc]
    split
    · rename_i hg
      rw [hg, href]
    · rename_i hg
      rw [hother g hg]
      omega
  · rw [hfile]
    split
    · rename_i hg
      rw [hg]
      exact hkind
    · exact .inl rfl
  · rw [ho, hc]
    by_cases hg : g = f
    · rw [hg]
      exact hgain
    · rw [hother g hg]
      exact .inl
  · rw [hfile]
    split
    · exact hfree
    · exact h.free g
  · rw [hfile]
    split
    · exact hflags
    · exact h.flags g
  · rw [hc]
    exact hdesk.fresh
  · rw [ho, hc]
    exact hdesk.filled
  · rw [ho, hc]
    exact hdesk.uses
  · rw [ho, hc]
    exact hdesk.dup
  · rw [ho, hc]
    exact hdesk.cleared

theorem same_files (h : FileInv k) (hp : ¬ (k.table.procs p).Gone) {o : Fd → Option FileId}
    {c : FileCall} (hshare : ∀ f, share o c f = share (k.ofile p) (k.calls p) f)
    (hdesk : DeskOk k.files o c) : FileInv (desk k p o c) := by
  have ho : (desk k p o c).ofile p = o := update_self ..
  have hc : (desk k p o c).calls p = c := update_self ..
  refine h.moved (p := p) ⟨fun q hq => update_of_ne hq .., fun q hq =>
    update_of_ne hq .., fun q hg => .inr ⟨?_, hg⟩, fun g => ?_, fun g => .inl rfl,
    fun g => ?_, h.free, h.flags, ?_, ?_, ?_, ?_, ?_⟩
  · rintro rfl
    exact hp hg
  · rw [ho, hc, hshare g]
    show _ = (k.files g).ref - _ + _
    rw [Int.sub_add_cancel]
    rfl
  · rw [ho, hc, hshare g]
    exact .inl
  · rw [hc]
    exact hdesk.fresh
  · rw [ho, hc]
    exact hdesk.filled
  · rw [ho, hc]
    exact hdesk.uses
  · rw [ho, hc]
    exact hdesk.dup
  · rw [ho, hc]
    exact hdesk.cleared

end FileInv

end YHsys.Kernel
