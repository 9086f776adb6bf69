import YHsys.Kernel.FileInv

/-!
# Every section of a file call keeps the references right

First what single moves do (a descriptor is dropped, a file is taken, filled in, put into a
descriptor), then the sections of `Kern.run` and the starts of `Kern.call` as
sequences of moves. Where a section makes several moves, the process stands at a `fileclose`
in between: a reference it is about to drop is one it may just as well hand on.
-/

namespace YHsys.Kernel

open FileCall (held skip)
open Kern (openedFile pipeEnd setFile)

open Function (update update_apply update_comm update_idem update_of_ne update_self)

/-- The call creates no file, is no `dup` and uses no semaphore. -/
structure FileCall.Plain (c : FileCall) : Prop where
  creating : c.creating = []
  uses : c.uses = none
  dup : ∀ fd f, c ≠ .dup fd f

namespace Kern

variable {k : Kern} {p : ProcId}

theorem fdalloc_free {fd : Fd} (h : k.fdalloc p = some fd) : k.ofile p fd = none := by
  simpa using List.find?_some h

theorem filealloc_free {f : FileId} (h : k.filealloc = some f) : (k.files f).ref = 0 := by
  simpa using List.find?_some h

theorem argfd_slot {n : BitVec 32} {fd : Fd} {f : FileId} (h : k.argfd p n = some (fd, f)) :
    k.ofile p fd = some f := by
  unfold argfd at h
  split at h
  · obtain ⟨g, hg, heq⟩ := Option.map_eq_some_iff.mp h
    cases heq
    exact hg
  · cases h

theorem argsem_slot {n : BitVec 32} {fd : Fd} {f : FileId} {s : ℕ}
    (h : k.argsem p n = some (fd, f, s)) :
    k.ofile p fd = some f ∧ (k.files f).type = .sem ∧ (k.files f).sem = s := by
  obtain ⟨⟨fd', f'⟩, hfd, hs⟩ := Option.bind_eq_some_iff.mp h
  simp only at hs
  split at hs
  · cases hs
    exact ⟨argfd_slot hfd, ‹_›, rfl⟩
  · cases hs

@[simp]
theorem goto_goto (k : Kern) (p : ProcId) (c c' : FileCall) :
    (k.goto p c).goto p c' = k.goto p c' := by
  simp [goto]

@[simp]
theorem resume_goto (k : Kern) (p : ProcId) (c : FileCall) (r : After) :
    (k.goto p c).resume p r = k.resume p r := by
  cases r <;> simp [resume, goto, setSlot]

@[simp]
theorem calls_goto (k : Kern) (p : ProcId) (c : FileCall) : (k.goto p c).calls p = c :=
  update_self ..

theorem setSlot_undo {fd : Fd} (h : k.ofile p fd = none) (x : Option FileId) :
    (k.setSlot p fd x).setSlot p fd none = k := by
  simp [setSlot, ← h]

theorem setSlot_comm (k : Kern) (p : ProcId) {fd fd' : Fd} (h : fd ≠ fd') (x y : Option FileId) :
    (k.setSlot p fd x).setSlot p fd' y = (k.setSlot p fd' y).setSlot p fd x := by
  simp only [setSlot, update_self, update_idem]
  rw [update_comm h]

end Kern

namespace FileInv

variable {k k' : Kern} {p q : ProcId} {f : FileId} {c : FileCall}

theorem DeskOk.plain {files : FileId → File} {o : Fd → Option FileId} (hc : c.Plain)
    (hfilled : ∀ fd f, c.skip ≠ some fd → o fd = some f → (files f).type ≠ .none)
    (hcleared : ∀ fd, fd.val < c.cleared → o fd = none) : DeskOk files o c where
  fresh f hf := by simp [hc.creating] at hf
  filled := hfilled
  uses fd f s hu := by simp [hc.uses] at hu
  dup fd f hd := absurd hd (hc.dup fd f)
  cleared := hcleared

theorem goto_eq_desk (k : Kern) (p : ProcId) (c : FileCall) :
    k.goto p c = desk k p (k.ofile p) c := by
  simp [desk, Kern.goto]

theorem setFile_goto_eq_desk (k : Kern) (f : FileId) (x : File) (p : ProcId) (c : FileCall) :
    (k.setFile f x).goto p c = desk (k.setFile f x) p (k.ofile p) c :=
  goto_eq_desk _ p c

theorem setSlot_goto_eq_desk (k : Kern) (p : ProcId) (fd : Fd) (x : Option FileId)
    (c : FileCall) :
    (k.setSlot p fd x).goto p c = desk k p (update (k.ofile p) fd x) c := rfl

/-! ## Single moves -/

theorem goto (h : FileInv k) (hp : ¬ (k.table.procs p).Gone)
    (hheld : c.held = (k.calls p).held) (hskip : c.skip = (k.calls p).skip)
    (hdesk : DeskOk k.files (k.ofile p) c) : FileInv (k.goto p c) := by
  rw [goto_eq_desk]
  refine h.same_files hp (fun f => ?_) hdesk
  rw [share, share, hheld, hskip]

theorem goto_plain (h : FileInv k) (hp : ¬ (k.table.procs p).Gone)
    (hheld : c.held = (k.calls p).held) (hskip : c.skip = (k.calls p).skip)
    (hcleared : c.cleared ≤ (k.calls p).cleared) (hc : c.Plain) : FileInv (k.goto p c) :=
  h.goto hp hheld hskip <| .plain hc (fun fd f hs => h.filled p fd f (hskip ▸ hs))
    fun fd hfd => h.cleared p fd (hfd.trans_le hcleared)

theorem unslot (h : FileInv k) (hp : ¬ (k.table.procs p).Gone) {fd : Fd}
    (ho : k.ofile p fd = some f) (hheld : (k.calls p).held = [])
    (hskip : (k.calls p).skip = none) :
    FileInv ((k.setSlot p fd none).goto p (.fileclose f .ret)) := by
  rw [setSlot_goto_eq_desk]
  refine h.same_files hp (fun g => ?_) (.plain ⟨rfl, rfl, nofun⟩ (fun j g _ hj => ?_) nofun)
  · rw [share, share, slots_change fd (fun j hj => update_of_ne hj ..)
      (k.calls p).skip (fun j _ => by rw [hskip]; rfl), hheld, hskip]
    by_cases hg : f = g <;>
      simp [held, After.held, ho, hg]
  · refine h.filled p j g (by simp [hskip]) ?_
    rw [update_apply] at hj
    split at hj
    · cases hj
    · exact hj

theorem take (h : FileInv k) (hp : ¬ (k.table.procs p).Gone) (hf : (k.files f).ref = 0)
    (hheld : ∀ g, c.held.count g = (k.calls p).held.count g + if f = g then 1 else 0)
    (hskip : c.skip = (k.calls p).skip) (hcreating : ∀ g ∈ c.creating, g = f ∨
      g ∈ (k.calls p).creating) (huses : c.uses = none) (hdup : ∀ fd g, c ≠ .dup fd g)
    (hcleared : c.cleared = 0) : FileInv ((k.takeFile f).goto p c) := by
  have htype := h.free f hf
  have hzero : share (k.ofile p) (k.calls p) f = 0 := by
    have := h.le_ref p f
    have := share_nonneg (k.ofile p) (k.calls p) f
    omega
  have hshare : ∀ g, share (k.ofile p) c g =
      share (k.ofile p) (k.calls p) g + if f = g then 1 else 0 := by
    intro g
    rw [share, share, hheld, hskip]
    split <;> push_cast <;> omega
  rw [Kern.takeFile, setFile_goto_eq_desk]
  refine h.setFile_desk hp ?_ (fun g hg => ?_) (.inl rfl) (fun _ => .inr (.inl hf)) (by rintro ⟨⟩)
    (fun ht => ?_) ⟨fun g hg => ?_, fun fd g hs ho => ?_, fun fd g s hu => ?_,
      fun fd g hd => absurd hd (hdup fd g), fun fd hfd => ?_⟩
  · rw [hshare, if_pos rfl]
    show (1 : ℤ) = _
    omega
  · rw [hshare, if_neg (Ne.symm hg)]
    omega
  · exact h.flags f ht
  · by_cases hgf : g = f
    · subst hgf
      simp [htype]
    · rw [update_of_ne hgf]
      exact h.fresh p g ((hcreating g hg).resolve_left hgf)
  · rw [hskip] at hs
    have hpos := share_pos_of_slot hs ho
    have hgf : g ≠ f := by
      rintro rfl
      omega
    rw [update_of_ne hgf]
    exact h.filled p fd g hs ho
  · rw [huses] at hu
    cases hu
  · omega

theorem fill (h : FileInv k) (hp : ¬ (k.table.procs p).Gone) {x : File}
    (hf : f ∈ (k.calls p).held) (href : (k.files f).ref = 1) (hx : x.ref = 1)
    (htype : x.type ≠ .none)
    (hflags : x.type = .sem → x.readable = true ∧ x.writable = true)
    (hheld : c.held = (k.calls p).held) (hskip : c.skip = (k.calls p).skip)
    (hc : c.Plain) (hcleared : c.cleared = 0) : FileInv ((k.setFile f x).goto p c) := by
  have hshare : ∀ g, share (k.ofile p) c g = share (k.ofile p) (k.calls p) g := by
    intro g
    rw [share, share, hheld, hskip]
  have hpos := share_pos_of_held (o := k.ofile p) hf
  have hle := h.le_ref p f
  rw [setFile_goto_eq_desk]
  refine h.setFile_desk hp ?_ (fun g _ => hshare g) (.inr (by omega)) (fun _ => .inl hpos)
    (by omega) hflags (.plain hc (fun fd g hs ho => ?_) (by omega))
  · rw [hshare]
    omega
  · rw [update_apply]
    split
    · exact htype
    · rw [hskip] at hs
      exact h.filled p fd g hs ho

theorem slot (h : FileInv k) (hp : ¬ (k.table.procs p).Gone) {fd : Fd}
    (ho : k.ofile p fd = none) (htype : (k.files f).type ≠ .none)
    (hheld : (k.calls p).held = f :: c.held) (hskip : (k.calls p).skip = none)
    (hskip' : c.skip = none) (hc : c.Plain) (hcleared : c.cleared = 0) :
    FileInv ((k.setSlot p fd (some f)).goto p c) := by
  rw [setSlot_goto_eq_desk]
  refine h.same_files hp (fun g => ?_) (.plain hc (fun j g _ hj => ?_) (by omega))
  · rw [share, share, slots_change fd (fun j hj => update_of_ne hj ..)
      (k.calls p).skip (fun j _ => by rw [hskip, hskip']), hheld, hskip, hskip',
      List.count_cons]
    by_cases hg : f = g <;> simp [ho, hg]
    omega
  · rw [update_apply] at hj
    split at hj
    · cases hj
      exact htype
    · exact h.filled p j g (by simp [hskip]) hj

theorem drop (h : FileInv k) (hp : ¬ (k.table.procs p).Gone) {r : After} {x : File}
    (hc : k.calls p = .fileclose f r)
    (hx : x = { k.files f with ref := (k.files f).ref - 1 } ∧ 1 < (k.files f).ref ∨
      x = { k.files f with ref := 0, type := .none } ∧ (k.files f).ref = 1) :
    FileInv ((k.setFile f x).goto p (.closeRest r)) := by
  have hshare : ∀ g, share (k.ofile p) (k.calls p) g =
      share (k.ofile p) (.closeRest r) g + if f = g then 1 else 0 := by
    intro g
    rw [share, share, hc]
    simp only [skip, held, List.count_cons]
    by_cases hg : f = g <;> simp [hg]
    omega
  have hpos := share_pos_of_held (o := k.ofile p) (c := k.calls p) (f := f)
    (by rw [hc]; exact List.mem_cons_self)
  have hle := h.le_ref p f
  have hf := hshare f
  rw [if_pos rfl] at hf
  have hnon := share_nonneg (k.ofile p) (.closeRest r) f
  rw [setFile_goto_eq_desk]
  refine h.setFile_desk hp ?_ (fun g hg => ?_) ?_ (fun _ => .inl hpos) ?_ ?_
    (.plain ⟨rfl, rfl, (by rintro _ _ ⟨⟩)⟩ (fun fd g hs ho => ?_) fun fd hfd => ?_)
  · rcases hx with ⟨rfl, _⟩ | ⟨rfl, _⟩
    · show (k.files f).ref - 1 = _
      omega
    · show (0 : ℤ) = _
      omega
  · rw [hshare, if_neg (Ne.symm hg)]
    omega
  · rcases hx with ⟨rfl, _⟩ | ⟨rfl, _⟩
    · exact .inl rfl
    · exact .inr (by omega)
  · rcases hx with ⟨rfl, _⟩ | ⟨rfl, _⟩
    · intro h0
      have h0 : (k.files f).ref - 1 = 0 := h0
      omega
    · exact fun _ => rfl
  · rcases hx with ⟨rfl, _⟩ | ⟨rfl, _⟩
    · exact h.flags f
    · rintro ⟨⟩
  · rw [update_apply]
    have hs' : (k.calls p).skip ≠ some fd := by rwa [hc]
    have hfilled := h.filled p fd g hs' ho
    split
    · rename_i hgf
      rw [hgf] at hfilled
      rcases hx with ⟨rfl, _⟩ | ⟨rfl, _⟩
      · exact hfilled
      · -- the reference in hand is the last one: no descriptor is left
        have := share_pos_of_slot (c := .closeRest r) hs ho
        rw [hgf] at this
        omega
    · exact hfilled
  · exact h.cleared p fd (by rwa [hc])

/-! ## Closing -/

theorem resume (h : FileInv k) (hp : ¬ (k.table.procs p).Gone) {r : After}
    (hheld : (k.calls p).held = r.held) (hskip : (k.calls p).skip = r.skip)
    (hcleared : (k.calls p).cleared = r.cleared) : FileInv (k.resume p r) := by
  cases r with
  | ret => exact h.goto_plain hp hheld.symm hskip.symm (Nat.zero_le _) ⟨rfl, rfl, nofun⟩
  | close g r => exact h.goto_plain hp hheld.symm hskip.symm hcleared.ge ⟨rfl, rfl, nofun⟩
  | exitSlot status fd =>
    have hskip : (k.calls p).skip = some fd := hskip
    have hcleared : (k.calls p).cleared = fd := hcleared
    rw [Kern.resume, setSlot_goto_eq_desk]
    refine h.same_files hp (fun g => ?_) (.plain ⟨rfl, rfl, nofun⟩ (fun j g _ hj => ?_)
      fun j hj => ?_)
    · -- the descriptor has stopped to count when `fileclose` was called
      rw [share, share, slots_change fd (fun j hj => update_of_ne hj ..)
        (k.calls p).skip (fun j hj => by rw [hskip]; simp [skip, Ne.symm hj]),
        hheld, hskip]
      simp [held, After.held]
    · rw [update_apply] at hj
      split at hj
      · cases hj
      · rename_i hne
        exact h.filled p j g (by simp [hskip, Ne.symm hne]) hj
    · rw [update_apply]
      split
      · rfl
      · rename_i hne
        have hj : j.val < fd.val + 1 := hj
        have := Fin.val_ne_of_ne hne
        exact h.cleared p j (by omega)

theorem fileclose (h : FileInv k) (hp : ¬ (k.table.procs p).Gone) {r : After}
    (hc : k.calls p = .fileclose f r) (he : k.fileclose p f r = some k') : FileInv k' := by
  unfold Kern.fileclose at he
  simp only at he
  split at he
  · cases he
  · rename_i hpos
    split at he
    · rename_i hmore
      cases he
      rw [← Kern.resume_goto _ p (.closeRest r)]
      exact (h.drop hp hc (.inl ⟨rfl, by omega⟩)).resume hp (by simp [held])
        (by simp [skip]) (by simp [FileCall.cleared])
    · have hlast := h.drop hp hc (.inr ⟨rfl, by omega⟩)
      split at he
      · cases he
        exact hlast
      · cases he
        exact hlast
      · cases he
        exact hlast
      · cases he
        rw [← Kern.goto_goto _ p (.closeRest r)]
        exact hlast.goto_plain hp (by simp [held]) (by simp [skip])
          (by simp [FileCall.cleared]) ⟨rfl, rfl, (by rintro _ _ ⟨⟩)⟩
      · cases he
        rw [← Kern.resume_goto _ p (.closeRest r)]
        exact hlast.resume hp (by simp [held]) (by simp [skip])
          (by simp [FileCall.cleared])

theorem semClose (h : FileInv k) (hp : ¬ (k.table.procs p).Gone) {s : ℕ} {r : After}
    (hc : k.calls p = .semClose s r) : FileInv (k.semClose p s r) := by
  have h' : FileInv (k.setSem s { k.sems s with refCount := (k.sems s).refCount - 1 }) :=
    h.congr rfl rfl rfl fun _ hq => hq
  unfold Kern.semClose
  simp only
  split
  · exact h'.resume hp (congrArg held hc) (congrArg skip hc)
      (congrArg FileCall.cleared hc)
  · exact h'.goto_plain hp (congrArg held hc).symm (congrArg skip hc).symm
      (congrArg FileCall.cleared hc).ge ⟨rfl, rfl, nofun⟩

theorem semFree (h : FileInv k) (hp : ¬ (k.table.procs p).Gone) {s : ℕ} {r : After}
    (hc : k.calls p = .semFree s r) : FileInv (k.semFree p s r) := by
  have h' : FileInv (k.setHistory s { k.history s with frees := (k.history s).frees + 1 }) :=
    h.congr rfl rfl rfl fun _ hq => hq
  exact h'.resume hp (congrArg held hc) (congrArg skip hc)
    (congrArg FileCall.cleared hc)

theorem exitLoop (h : FileInv k) (hp : ¬ (k.table.procs p).Gone) {status : BitVec 32} {n : ℕ}
    (hc : k.calls p = .exit status n) : FileInv (k.exitLoop p status n) := by
  have hclear := h.cleared p
  rw [hc] at hclear
  unfold Kern.exitLoop
  split
  · rename_i hn
    split
    · rename_i f hf
      -- the reference of the descriptor is now the one `fileclose` is to drop
      rw [goto_eq_desk]
      refine h.same_files hp (fun g => ?_) (.plain ⟨rfl, rfl, (by rintro _ _ ⟨⟩)⟩ (fun j g _ hj => ?_) hclear)
      · rw [share, share, slots_change ⟨n, hn⟩ (fun _ _ => rfl)
          (k.calls p).skip (fun j hj => by
            simp [hc, skip, After.skip, Ne.symm hj]), hc]
        by_cases hg : f = g <;> simp [held, After.held, skip, After.skip, hf, hg]
      · exact h.filled p j g (by simp [hc, skip]) hj
    · rename_i hnone
      refine h.goto hp (by rw [hc]; rfl) (by rw [hc]; rfl) (.plain ⟨rfl, rfl, (by rintro _ _ ⟨⟩)⟩
        (fun j g _ hj => h.filled p j g (by simp [hc, skip]) hj) fun j hj => ?_)
      have hj : j.val < n + 1 := hj
      by_cases hjn : j.val = n
      · obtain rfl : j = ⟨n, hn⟩ := Fin.ext hjn
        exact hnone
      · exact hclear j (show j.val < n by omega)
  · rename_i hn
    refine h.goto hp (by rw [hc]; rfl) (by rw [hc]; rfl) (.plain ⟨rfl, rfl, (by rintro _ _ ⟨⟩)⟩
      (fun j g _ hj => h.filled p j g (by simp [hc, skip]) hj) fun j _ => ?_)
    exact hclear j (show j.val < n by omega)

/-! ## Making files -/

theorem openAlloc (h : FileInv k) (hp : ¬ (k.table.procs p).Gone) {omode : BitVec 32}
    {ip : Opened} (hc : k.calls p = .openAlloc omode ip) :
    FileInv (k.openAlloc p omode ip) := by
  unfold Kern.openAlloc
  split
  · exact h.goto_plain hp (by rw [hc]; rfl) (by rw [hc]; rfl) (Nat.zero_le _) ⟨rfl, rfl, nofun⟩
  · rename_i f hf
    have htake : FileInv ((k.takeFile f).goto p (.fileclose f .ret)) :=
      h.take hp (Kern.filealloc_free hf) (fun g => by simp [hc, held, After.held,
        List.count_singleton]) (by rw [hc]; rfl) nofun rfl nofun rfl
    simp only
    split
    · exact htake
    · rename_i fd hfd
      have hfill := htake.fill (c := .fileclose f .ret) (f := f) hp
        (x := openedFile omode ip ((k.takeFile f).files f))
        (by simp [held]) (by simp [Kern.goto, Kern.takeFile, setFile])
        (by simp [openedFile, Kern.takeFile, setFile])
        (by cases ip <;> simp [openedFile]) (by cases ip <;> simp [openedFile])
        (by simp) (by simp) ⟨rfl, rfl, nofun⟩ rfl
      have hslot := hfill.slot (c := .idle) (f := f) hp (Kern.fdalloc_free hfd)
        (by cases ip <;> simp [Kern.goto, setFile, openedFile])
        (by simp [held, After.held]) (by simp [skip, After.skip]) rfl
        ⟨rfl, rfl, nofun⟩ rfl
      convert hslot using 1
      simp [Kern.goto, Kern.setSlot, setFile]

theorem setDup (h : FileInv k) (hp : ¬ (k.table.procs p).Gone) (hc : k.calls p = .idle) {fd fd' : Fd}
    (ho : k.ofile p fd = some f) (ho' : k.ofile p fd' = none) :
    FileInv ((k.setSlot p fd' (some f)).goto p (.dup fd' f)) := by
  have hne : fd ≠ fd' := by
    rintro rfl
    rw [ho] at ho'
    cases ho'
  have hfilled := fun j g => h.filled p j g (by simp [hc, skip])
  rw [setSlot_goto_eq_desk]
  refine h.same_files hp (fun g => ?_) ⟨(by intros; contradiction), fun j g hs hj => ?_, (by intros; contradiction), fun j g hd => ?_, (by intros; contradiction)⟩
  · rw [share, share, slots_change fd' (fun j hj => update_of_ne hj ..)
      (k.calls p).skip (fun j hj => by simp [hc, skip, Ne.symm hj]), hc]
    simp [held, skip, ho']
  · have hj' : j ≠ fd' := fun heq => hs (by rw [heq]; rfl)
    rw [update_of_ne hj'] at hj
    exact hfilled j g hj
  · cases hd
    exact ⟨update_self .., fd, hne, by rw [update_of_ne hne, ho]⟩

theorem filedup (h : FileInv k) (hp : ¬ (k.table.procs p).Gone) {fd : Fd}
    (hc : k.calls p = .dup fd f) (he : k.filedup p f = some k') : FileInv k' := by
  unfold Kern.filedup at he
  split at he
  · cases he
  rename_i hpos
  cases he
  obtain ⟨ho, fd', hne, ho'⟩ := h.dup p fd f hc
  have hskip : ∀ {j}, j ≠ fd → (k.calls p).skip ≠ some j := fun hj => by
    simp [hc, skip, Ne.symm hj]
  have hshare : ∀ g, share (k.ofile p) .idle g =
      share (k.ofile p) (k.calls p) g + if f = g then 1 else 0 := by
    intro g
    rw [share, share, slots_change fd (o := k.ofile p) (fun _ _ => rfl)
      (k.calls p).skip (fun j hj => by simpa [skip] using hskip hj), hc]
    simp [held, skip, ho]
  have hone := share_pos_of_slot (hskip hne) ho'
  rw [setFile_goto_eq_desk]
  refine h.setFile_desk hp ?_ (fun g hg => ?_) (.inl rfl) (fun _ => .inl hone) (fun h0 => ?_)
    (h.flags f) (.plain ⟨rfl, rfl, (by rintro _ _ ⟨⟩)⟩ (fun j g _ hj => ?_) (by rintro _ ⟨⟩))
  · rw [hshare, if_pos rfl]
    show (k.files f).ref + 1 = _
    omega
  · rw [hshare, if_neg (Ne.symm hg)]
    omega
  · have h0 : (k.files f).ref + 1 = 0 := h0
    omega
  · -- the new descriptor is to the same file as the old one
    have hfilled : (k.files g).type ≠ .none := by
      by_cases hj' : j = fd
      · rw [hj', ho] at hj
        cases hj
        exact h.filled p fd' f (hskip hne) ho'
      · exact h.filled p j g (hskip hj') hj
    rw [update_apply]
    split
    · rename_i hg
      exact hg ▸ hfilled
    · exact hfilled

/-- The two ends of a pipe are filled in, and put into descriptors if there are two. -/
theorem pipeMem (h : FileInv k) (hp : ¬ (k.table.procs p).Gone) {f0 f1 : FileId}
    (hc : k.calls p = .pipeMem f0 f1) (mem copied : Bool) :
    FileInv (k.pipeMem p f0 f1 mem copied) := by
  have hbad : FileInv (k.goto p (.fileclose f0 (.close f1 .ret))) :=
    h.goto_plain hp (by rw [hc]; rfl) (by rw [hc]; rfl) (Nat.zero_le _) ⟨rfl, rfl, (by rintro _ _ ⟨⟩)⟩
  unfold Kern.pipeMem
  cases mem with
  | false => exact hbad
  | true =>
    have hfresh := h.fresh p
    rw [hc] at hfresh
    have href0 : (k.files f0).ref = 1 := (hfresh f0 (by simp [FileCall.creating])).1
    have href1 : (k.files f1).ref = 1 := (hfresh f1 (by simp [FileCall.creating])).1
    -- `hfill0` and `hfill1`: after the two ends are filled in
    have hfill0 := hbad.fill (c := .fileclose f0 (.close f1 .ret)) (f := f0) hp
      (x := pipeEnd false (k.files f0)) (by simp [held]) href0 href0 (by rintro ⟨⟩) (by rintro ⟨⟩)
      (by simp) (by simp) ⟨rfl, rfl, (by rintro _ _ ⟨⟩)⟩ rfl
    have href1' : ((k.setFile f0 (pipeEnd false (k.files f0))).files f1).ref = 1 := by
      simp only [setFile, update_apply]
      split
      · exact href0
      · exact href1
    have hfill1 := hfill0.fill (c := .fileclose f0 (.close f1 .ret)) (f := f1) hp
      (x := pipeEnd true ((k.setFile f0 (pipeEnd false (k.files f0))).files f1))
      (by simp [held, After.held]) href1' href1' (by rintro ⟨⟩) (by rintro ⟨⟩)
      (by simp) (by simp) ⟨rfl, rfl, (by rintro _ _ ⟨⟩)⟩ rfl
    simp only [if_true]
    generalize hk1 : (k.setFile f0 (pipeEnd false (k.files f0))).setFile f1
      (pipeEnd true ((k.setFile f0 (pipeEnd false (k.files f0))).files f1)) = k1
    have hk1' : k1.table = k.table := by rw [← hk1]; rfl
    have hbad1 : FileInv (k1.goto p (.fileclose f0 (.close f1 .ret))) := by
      convert hfill1 using 1
      rw [← hk1]
      simp [Kern.goto, setFile]
    have htype1 : (k1.files f1).type ≠ .none := by
      rw [← hk1]
      simp [setFile, pipeEnd]
    have htype0 : (k1.files f0).type ≠ .none := by
      rw [← hk1]
      by_cases heq : f0 = f1 <;> simp [setFile, pipeEnd, heq]
    rw [← hk1'] at hp
    split
    · exact hbad1
    · rename_i fd0 hfd0
      have ho0 := Kern.fdalloc_free hfd0
      have hslot0 := hbad1.slot (c := .fileclose f1 .ret) (f := f0) hp ho0 htype0
        (by simp [held, After.held]) (by simp [skip, After.skip]) rfl
        ⟨rfl, rfl, (by rintro _ _ ⟨⟩)⟩ rfl
      split
      · rw [Kern.setSlot_undo ho0]
        exact hbad1
      · rename_i fd1 hfd1
        have ho1 := Kern.fdalloc_free hfd1
        cases copied with
        | true =>
          have hslot1 := hslot0.slot (c := .idle) (f := f1) hp ho1 htype1
            (by simp [held, After.held]) (by simp [skip, After.skip]) rfl
            ⟨rfl, rfl, (by rintro _ _ ⟨⟩)⟩ rfl
          convert hslot1 using 1
          simp [Kern.goto, Kern.setSlot]
        | false =>
          -- the two descriptors are emptied again
          have hne : fd0 ≠ fd1 := by
            rintro rfl
            simp [Kern.setSlot] at ho1
          simp only [Bool.false_eq_true, if_false]
          rw [Kern.setSlot_comm _ p hne, Kern.setSlot_undo ho1, Kern.setSlot_undo ho0]
          exact hbad1

theorem semMem (h : FileInv k) (hp : ¬ (k.table.procs p).Gone) {value : BitVec 32}
    (hc : k.calls p = .semMem value f) (mem : Bool) : FileInv (k.semMem p value f mem) := by
  have hclose : FileInv (k.goto p (.fileclose f .ret)) :=
    h.goto_plain hp (by rw [hc]; rfl) (by rw [hc]; rfl) (Nat.zero_le _) ⟨rfl, rfl, (by rintro _ _ ⟨⟩)⟩
  unfold Kern.semMem
  cases mem with
  | false => exact hclose
  | true =>
    have href : (k.files f).ref = 1 := (h.fresh p f (by simp [hc, FileCall.creating])).1
    simp only [if_true]
    split
    · exact hclose.congr rfl rfl rfl fun _ hq => hq
    · rename_i fd hfd
      have hfill := hclose.fill (c := .fileclose f .ret) (f := f) hp
        (x := { k.files f with type := .sem, readable := true, writable := true, sem := k.nextSem })
        (by simp [held]) href href (by rintro ⟨⟩) (fun _ => ⟨rfl, rfl⟩) (by simp) (by simp)
        ⟨rfl, rfl, (by rintro _ _ ⟨⟩)⟩ rfl
      have hslot := hfill.slot (c := .semRef k.nextSem) (f := f) hp (Kern.fdalloc_free hfd)
        (by simp [Kern.goto, setFile]) (by simp [held, After.held])
        (by simp [skip, After.skip]) rfl ⟨rfl, rfl, (by rintro _ _ ⟨⟩)⟩ rfl
      refine hslot.congr rfl rfl ?_ fun _ hq => hq
      simp [Kern.goto, Kern.setSlot, setFile, Kern.setSem, Kern.setHistory]

end FileInv

end YHsys.Kernel
