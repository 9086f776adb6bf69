import YHsys.Kernel.ProcTable

/-!
# The process tree and reaping

`TreeInv` holds between any two critical sections: a parent is a live process, a
process past its fork has one, a process asleep in `kwait` has no exited child, and
the last entry of the history about an exited process is its exit, with the status in
its slot.

`wakeup` only turns `SLEEPING` slots `RUNNABLE` (`Wakes`), which keeps all of this.
The work is in `kexit`: `reparent` leaves no child behind, and whoever gets an exited
child, `init` or the parent, is awake afterwards.
-/

namespace YHsys.Kernel

/-- The slot has a process that has been forked and has not exited. -/
def ProcState.Alive (st : ProcState) : Prop := st = .sleeping ∨ st = .runnable ∨ st = .running

/-- The slot a thread is forking into. -/
def Pc.forking : Pc → Option ProcId
  | .forkLink np | .forkReady np => some np
  | _ => none

/-- The latest entry about slot `q`. -/
def lastOf (q : ProcId) (history : List ProcLog) : Option ProcLog :=
  history.find? fun e => e.slot = q

/-- Every reap follows an exit of the same slot, with the status of that exit and no reap
in between. -/
def ReapsExits (history : List ProcLog) : Prop :=
  ∀ later parent q status earlier, history = later ++ .reaped parent q status :: earlier →
    lastOf q earlier = some (.exited q status)

/-- What holds between any two critical sections. -/
structure TreeInv (s : ProcTable) : Prop where
  init : (s.procs initproc).state.Alive
  running : ∀ p, s.running = some p ↔ (s.procs p).state = .running
  parent_alive : ∀ q r, (s.procs q).parent = some r → (s.procs r).state.Alive
  parent_some : ∀ q, q ≠ initproc → (s.procs q).state ≠ .unused → (s.procs q).state ≠ .used →
    (s.procs q).parent ≠ none
  asleep : ∀ p, (s.procs p).state = .sleeping →
    s.pc p = .inSleep ∨ (∃ addr, s.pc p = .inWait addr) ∧ (s.procs p).chan = some (.proc p)
  no_zombie : ∀ p addr, (s.procs p).state = .sleeping → s.pc p = .inWait addr →
    ∀ q, (s.procs q).parent = some p → (s.procs q).state ≠ .zombie
  forking : ∀ p np, (s.pc p).forking = some np →
    (s.procs p).state.Alive ∧ (s.procs np).state = .used
  forker : ∀ p p' np, (s.pc p).forking = some np → (s.pc p').forking = some np → p = p'
  linked : ∀ p np, s.pc p = .forkReady np → (s.procs np).parent = some p
  last : ∀ q, (s.procs q).state = .zombie →
    lastOf q s.history = some (.exited q (s.procs q).xstate)
  reaps : ReapsExits s.history

theorem TreeInv.boot : TreeInv .boot := by
  have hstate : ∀ p, (ProcTable.boot.procs p).state = .runnable ∨
      (ProcTable.boot.procs p).state = .unused := by
    intro p
    by_cases hp : p = initproc <;> simp [ProcTable.boot, hp]
  have hparent : ∀ p, (ProcTable.boot.procs p).parent = none := by
    intro p
    by_cases hp : p = initproc <;> simp [ProcTable.boot, hp]
  refine ⟨.inr (.inl (by simp [ProcTable.boot])), fun p => ⟨nofun, fun h => ?_⟩,
    fun q r h => ?_, fun q hq hun => ?_, fun p h => ?_, fun p _ h => ?_, nofun, nofun, nofun,
    fun q h => ?_, fun later _ _ _ _ h => ?_⟩
  · rcases hstate p with h' | h' <;> rw [h] at h' <;> cases h'
  · rw [hparent] at h
    cases h
  · exact absurd (by simp [ProcTable.boot, hq]) hun
  · rcases hstate p with h' | h' <;> rw [h] at h' <;> cases h'
  · rcases hstate p with h' | h' <;> rw [h] at h' <;> cases h'
  · rcases hstate q with h' | h' <;> rw [h] at h' <;> cases h'
  · cases later <;> cases h

/-! ## Waking -/

/-- Some sleepers of the table have become `RUNNABLE`, and some slots may have been marked
killed; nothing else that the invariant speaks of has changed. -/
structure Wakes (s s' : ProcTable) : Prop where
  state : ∀ q, (s'.procs q).state = (s.procs q).state ∨
    (s.procs q).state = .sleeping ∧ (s'.procs q).state = .runnable
  parent : ∀ q, (s'.procs q).parent = (s.procs q).parent
  chan : ∀ q, (s'.procs q).chan = (s.procs q).chan
  xstate : ∀ q, (s'.procs q).xstate = (s.procs q).xstate
  running : s'.running = s.running
  pc : s'.pc = s.pc
  history : s'.history = s.history

namespace Wakes

variable {s s' s'' : ProcTable}

theorem refl (s : ProcTable) : Wakes s s :=
  ⟨fun _ => .inl rfl, fun _ => rfl, fun _ => rfl, fun _ => rfl, rfl, rfl, rfl⟩

theorem trans (h : Wakes s s') (h' : Wakes s' s'') : Wakes s s'' where
  state q := by
    rcases h'.state q with hq' | ⟨hsl, hq'⟩
    · rw [hq']
      exact h.state q
    · rcases h.state q with hq | ⟨_, hq⟩
      · exact .inr ⟨hq ▸ hsl, hq'⟩
      · rw [hq] at hsl
        cases hsl
  parent q := (h'.parent q).trans (h.parent q)
  chan q := (h'.chan q).trans (h.chan q)
  xstate q := (h'.xstate q).trans (h.xstate q)
  running := h'.running.trans h.running
  pc := h'.pc.trans h.pc
  history := h'.history.trans h.history

theorem modify {p : ProcId} {f : Proc → Proc}
    (hstate : (f (s.procs p)).state = (s.procs p).state ∨
      (s.procs p).state = .sleeping ∧ (f (s.procs p)).state = .runnable)
    (hparent : (f (s.procs p)).parent = (s.procs p).parent)
    (hchan : (f (s.procs p)).chan = (s.procs p).chan)
    (hxstate : (f (s.procs p)).xstate = (s.procs p).xstate) : Wakes s (s.modify p f) := by
  have hcases : ∀ q, (s.modify p f).procs q = if q = p then f (s.procs p) else s.procs q := by
    intro q
    by_cases hq : q = p
    · subst hq
      simp [ProcTable.modify]
    · simp [ProcTable.modify, hq]
  refine ⟨fun q => ?_, fun q => ?_, fun q => ?_, fun q => ?_, rfl, rfl, rfl⟩ <;>
    rw [hcases] <;> by_cases hq : q = p
  all_goals first | subst hq | skip
  all_goals simp_all

theorem of_sleeping (h : Wakes s s') {q : ProcId} (hq : (s'.procs q).state = .sleeping) :
    (s.procs q).state = .sleeping := by
  rcases h.state q with hp | ⟨hsl, -⟩
  · exact hp ▸ hq
  · exact hsl

theorem alive (h : Wakes s s') {q : ProcId} (hq : (s.procs q).state.Alive) :
    (s'.procs q).state.Alive := by
  rcases h.state q with hp | ⟨-, hp⟩ <;> rw [hp]
  · exact hq
  · exact .inr (.inl rfl)

theorem state_iff (h : Wakes s s') (q : ProcId) (st : ProcState)
    (hst : st ≠ .sleeping ∧ st ≠ .runnable := by decide) :
    (s'.procs q).state = st ↔ (s.procs q).state = st := by
  rcases h.state q with hp | ⟨hsleep, hp⟩ <;> rw [hp]
  rw [hsleep]
  exact ⟨fun heq => absurd heq.symm hst.2, fun heq => absurd heq.symm hst.1⟩

end Wakes

theorem TreeInv.wakes {s s' : ProcTable} (h : TreeInv s) (hw : Wakes s s') : TreeInv s' where
  init := hw.alive h.init
  running p := by
    rw [hw.running, hw.state_iff p .running]
    exact h.running p
  parent_alive q r hq := hw.alive (h.parent_alive q r (by rw [← hw.parent]; exact hq))
  parent_some q hq hun hus := by
    rw [hw.parent]
    exact h.parent_some q hq (fun hst => hun ((hw.state_iff q .unused).mpr hst))
      fun hst => hus ((hw.state_iff q .used).mpr hst)
  asleep p hp := by
    rw [hw.pc, hw.chan]
    exact h.asleep p (hw.of_sleeping hp)
  no_zombie p addr hp hpc q hq := by
    rw [hw.parent] at hq
    rw [hw.pc] at hpc
    rw [ne_eq, hw.state_iff q .zombie]
    exact h.no_zombie p addr (hw.of_sleeping hp) hpc q hq
  forking p np hf := by
    rw [hw.pc] at hf
    have ⟨halive, hused⟩ := h.forking p np hf
    exact ⟨hw.alive halive, (hw.state_iff np .used).mpr hused⟩
  forker := by
    rw [hw.pc]
    exact h.forker
  linked p np hp := by
    rw [hw.pc] at hp
    rw [hw.parent]
    exact h.linked p np hp
  last q hq := by
    rw [hw.state_iff q .zombie] at hq
    rw [hw.history, hw.xstate]
    exact h.last q hq
  reaps := by
    rw [hw.history]
    exact h.reaps

namespace ProcTable

variable {s : ProcTable} {p : ProcId}

@[simp] theorem procs_modify_self (f : Proc → Proc) : (s.modify p f).procs p = f (s.procs p) :=
  Function.update_self ..

theorem procs_modify_of_ne (f : Proc → Proc) {q : ProcId} (h : q ≠ p) :
    (s.modify p f).procs q = s.procs q :=
  Function.update_of_ne h ..

theorem wakeupSlot_wakes (c : Option Chan) (s : ProcTable) (p : ProcId) :
    Wakes s (wakeupSlot c s p) := by
  unfold wakeupSlot
  split
  · exact .refl s
  split
  · rename_i hsl
    exact .modify (.inr ⟨hsl.1, rfl⟩) rfl rfl rfl
  · exact .refl s

theorem foldl_wakeup (c : Option Chan) (l : List ProcId) (s : ProcTable) :
    Wakes s (l.foldl (wakeupSlot c) s) ∧
      ∀ q ∈ l, s.running ≠ some q →
        ((l.foldl (wakeupSlot c) s).procs q).state = .sleeping →
        ((l.foldl (wakeupSlot c) s).procs q).chan ≠ c := by
  induction l generalizing s with
  | nil => exact ⟨.refl s, nofun⟩
  | cons p l ih =>
    have hslot := wakeupSlot_wakes c s p
    have ⟨hrest, hawake⟩ := ih (wakeupSlot c s p)
    refine ⟨hslot.trans hrest, fun q hq hne hsl => ?_⟩
    rcases List.mem_cons.mp hq with rfl | hq
    · -- the slot was passed over at its turn, so its channel is another one
      intro hchan
      rw [List.foldl_cons, hrest.chan, hslot.chan] at hchan
      have hsl1 := hrest.of_sleeping hsl
      have hsl0 := hslot.of_sleeping hsl1
      rw [wakeupSlot, if_neg hne, if_pos ⟨hsl0, hchan⟩, procs_modify_self] at hsl1
      cases hsl1
    · exact hawake q hq (by rw [hslot.running]; exact hne) hsl

theorem wakeup_wakes (s : ProcTable) (c : Option Chan) : Wakes s (s.wakeup c) :=
  (foldl_wakeup c (List.finRange nproc) s).1

theorem wakeup_awake (s : ProcTable) (c : Option Chan) {q : ProcId} (hq : s.running ≠ some q)
    (hsl : ((s.wakeup c).procs q).state = .sleeping) : (s.procs q).chan ≠ c := by
  rw [← (s.wakeup_wakes c).chan]
  unfold wakeup at hsl ⊢
  exact (foldl_wakeup c (List.finRange nproc) s).2 q (List.mem_finRange q) hq hsl

-- from here on `wakeup` is known by its two lemmas only
attribute [local irreducible] wakeup

/-! ## Exit -/

/-- The children of `p` among the slots `l` are `init`'s now. -/
def adopt (s : ProcTable) (p : ProcId) (l : List ProcId) : ProcTable :=
  { s with procs := fun q =>
      { s.procs q with parent :=
          if q ∈ l ∧ (s.procs q).parent = some p then some initproc else (s.procs q).parent } }

theorem reparentSlot_wakes (s : ProcTable) (p pp : ProcId) :
    Wakes (s.adopt p [pp]) (reparentSlot p s pp) := by
  unfold reparentSlot
  split
  · rename_i hpp
    have hadopt : Wakes (s.adopt p [pp])
        (s.modify pp fun x => { x with parent := some initproc }) := by
      refine ⟨fun q => .inl ?_, fun q => ?_, fun q => ?_, fun q => ?_, rfl, rfl, rfl⟩ <;>
        by_cases hq : q = pp
      all_goals first | subst hq | skip
      all_goals simp_all [adopt, procs_modify_of_ne]
    exact hadopt.trans (wakeup_wakes _ _)
  · rename_i hpp
    refine ⟨fun q => .inl rfl, fun q => ?_, fun q => rfl, fun q => rfl, rfl, rfl, rfl⟩
    by_cases hq : q = pp
    all_goals first | subst hq | skip
    all_goals simp_all [adopt]

theorem reparentSlot_init {s : ProcTable} {p pp : ProcId} (hrun : s.running ≠ some initproc)
    (hpp : (s.procs pp).parent = some p)
    (hsl : ((reparentSlot p s pp).procs initproc).state = .sleeping) :
    (s.procs initproc).chan ≠ some (.proc initproc) := by
  rw [reparentSlot, if_pos hpp] at hsl
  have hrun' : (s.modify pp fun x => { x with parent := some initproc }).running ≠
      some initproc := hrun
  have hchan := wakeup_awake _ _ hrun' hsl
  by_cases hinit : initproc = pp
  · subst hinit
    simpa using hchan
  · rw [procs_modify_of_ne _ hinit] at hchan
    exact hchan

theorem foldl_reparent {p : ProcId} (hp : p ≠ initproc) (l : List ProcId) (s : ProcTable)
    (hrun : s.running ≠ some initproc) :
    Wakes (s.adopt p l) (l.foldl (reparentSlot p) s) ∧
      ∀ q ∈ l, (s.procs q).parent = some p →
        ((l.foldl (reparentSlot p) s).procs initproc).state = .sleeping →
        (s.procs initproc).chan ≠ some (.proc initproc) := by
  induction l generalizing s with
  | nil =>
    refine ⟨⟨fun q => .inl rfl, fun q => ?_, fun q => rfl, fun q => rfl, rfl, rfl, rfl⟩, nofun⟩
    simp [adopt]
  | cons pp l ih =>
    have hslot := reparentSlot_wakes s p pp
    have ⟨hrest, hinit⟩ := ih (reparentSlot p s pp) (by rw [hslot.running]; exact hrun)
    have hparent : ∀ q, ((reparentSlot p s pp).procs q).parent =
        if q = pp ∧ (s.procs q).parent = some p then some initproc else (s.procs q).parent := by
      intro q
      rw [hslot.parent]
      simp [adopt]
    have hchan : ((reparentSlot p s pp).procs initproc).chan = (s.procs initproc).chan :=
      hslot.chan initproc
    constructor
    · have hstep : Wakes (s.adopt p (pp :: l)) ((reparentSlot p s pp).adopt p l) := by
        refine ⟨hslot.state, fun q => ?_, hslot.chan, hslot.xstate, hslot.running,
          hslot.pc, hslot.history⟩
        -- a child adopted at slot `pp` is not a child of `p` for the rest of the loop
        simp only [adopt, hparent, List.mem_cons]
        by_cases hq : (s.procs q).parent = some p
        · by_cases hqp : q = pp
          · subst hqp
            simp [hq, Ne.symm hp]
          · simp [hq, hqp]
        · simp [hq]
      exact hstep.trans hrest
    · intro q hq hqp hsl
      by_cases hpp : (s.procs pp).parent = some p
      · exact reparentSlot_init hrun hpp (hrest.of_sleeping hsl)
      · have hne : q ≠ pp := fun h => hpp (h ▸ hqp)
        have hmem : q ∈ l := (List.mem_cons.mp hq).resolve_left hne
        rw [← hchan]
        refine hinit q hmem ?_ hsl
        rw [hparent, if_neg fun h => hne h.1]
        exact hqp

theorem reparent_wakes {p : ProcId} (hp : p ≠ initproc) (hrun : s.running ≠ some initproc) :
    Wakes (s.adopt p (List.finRange nproc)) (s.reparent p) := by
  unfold reparent
  exact (foldl_reparent hp (List.finRange nproc) s hrun).1

theorem reparent_init {p q : ProcId} (hp : p ≠ initproc) (hrun : s.running ≠ some initproc)
    (hq : (s.procs q).parent = some p)
    (hsl : ((s.reparent p).procs initproc).state = .sleeping) :
    (s.procs initproc).chan ≠ some (.proc initproc) := by
  unfold reparent at hsl
  exact (foldl_reparent hp (List.finRange nproc) s hrun).2 q (List.mem_finRange q) hq hsl

theorem parent_adopt (p q : ProcId) :
    ((s.adopt p (List.finRange nproc)).procs q).parent =
      if (s.procs q).parent = some p then some initproc else (s.procs q).parent := by
  simp [adopt]

end ProcTable

attribute [local irreducible] ProcTable.wakeup ProcTable.reparent

theorem ProcState.Alive.ne {st st' : ProcState} (h : st.Alive)
    (hst : ¬ st'.Alive := by simp [ProcState.Alive]) : st ≠ st' := fun heq => hst (heq ▸ h)

theorem lastOf_cons_of_ne {q : ProcId} {e : ProcLog} (h : e.slot ≠ q) (history : List ProcLog) :
    lastOf q (e :: history) = lastOf q history := by
  simp [lastOf, h]

theorem lastOf_cons_self (e : ProcLog) (history : List ProcLog) :
    lastOf e.slot (e :: history) = some e := by
  simp [lastOf]

theorem ReapsExits.cons {history : List ProcLog} (h : ReapsExits history) {e : ProcLog}
    (he : ∀ parent q status, e = .reaped parent q status →
      lastOf q history = some (.exited q status)) : ReapsExits (e :: history) := by
  intro later parent q status earlier heq
  cases later with
  | nil =>
    injection heq with hhead htail
    rw [← htail]
    exact he parent q status hhead
  | cons e' later =>
    injection heq with _ htail
    exact h later parent q status earlier htail

namespace TreeInv

variable {s s' : ProcTable} {p : ProcId}

theorem alive_of_running (h : TreeInv s) (hrun : s.running = some p) :
    (s.procs p).state.Alive :=
  .inr (.inr ((h.running p).mp hrun))

/-- The table when `p` is about to become a `ZOMBIE`: its children are `init`'s, and
`init` if it got any, and the parent of `p`, do not sleep in `kwait`. -/
structure Abandoned (s : ProcTable) (p : ProcId) (s' : ProcTable) : Prop where
  wakes : Wakes (s.adopt p (List.finRange nproc)) s'
  heir : ∀ q r, (s'.procs q).parent = some r → q = p ∨ (s.procs q).parent = some p →
    (s'.procs r).state = .sleeping → (s.procs r).chan ≠ some (.proc r)

namespace Abandoned

theorem parent (h : Abandoned s p s') (q : ProcId) : (s'.procs q).parent =
    if (s.procs q).parent = some p then some initproc else (s.procs q).parent :=
  (h.wakes.parent q).trans (ProcTable.parent_adopt p q)

theorem state_iff (h : Abandoned s p s') (q : ProcId) (st : ProcState)
    (hst : st ≠ .sleeping ∧ st ≠ .runnable := by decide) :
    (s'.procs q).state = st ↔ (s.procs q).state = st :=
  h.wakes.state_iff q st hst

end Abandoned

theorem abandon (hinit : p ≠ initproc) (hrun : s.running = some p) :
    Abandoned s p ((s.reparent p).wakeup (((s.reparent p).procs p).parent.map .proc)) := by
  have hruninit : s.running ≠ some initproc := fun heq =>
    hinit (Option.some.inj (hrun.symm.trans heq))
  have hadopt := ProcTable.reparent_wakes hinit hruninit
  have hwake := (s.reparent p).wakeup_wakes (((s.reparent p).procs p).parent.map .proc)
  refine ⟨hadopt.trans hwake, fun q r hqr hor hsl => ?_⟩
  rw [hwake.parent] at hqr
  rcases hor with rfl | hq
  · -- the parent of `p` is woken by its own channel
    have hne : (s.reparent q).running ≠ some r := by
      rw [hadopt.running]
      intro heq
      cases hrun.symm.trans heq
      rw [hadopt.parent, ProcTable.parent_adopt] at hqr
      split at hqr
      · exact hinit (Option.some.inj hqr).symm
      · contradiction
    have hchan := ProcTable.wakeup_awake _ _ hne hsl
    rw [hqr, hadopt.chan] at hchan
    exact hchan
  · -- a child that `init` gets wakes `init`
    rw [hadopt.parent, ProcTable.parent_adopt, if_pos hq] at hqr
    cases hqr
    exact ProcTable.reparent_init hinit hruninit hq (hwake.of_sleeping hsl)

theorem exited (h : TreeInv s) (hinit : p ≠ initproc) (hrun : s.running = some p)
    (hs : Abandoned s p s') (status : BitVec 32) :
    TreeInv { (s'.modify p fun x => { x with xstate := status, state := .zombie }).sched p .exited
      with history := .exited p status :: s'.history } := by
  have hprun : (s.procs p).state = .running := (h.running p).mp hrun
  have hhist : s'.history = s.history := hs.wakes.history
  set t : ProcTable :=
    { (s'.modify p fun x => { x with xstate := status, state := .zombie }).sched p .exited
      with history := .exited p status :: s'.history }
  have hself : t.procs p = { s'.procs p with xstate := status, state := .zombie } :=
    Function.update_self ..
  have hother : ∀ {q}, q ≠ p → t.procs q = s'.procs q :=
    fun hq => Function.update_of_ne hq _ _
  have hparent : ∀ q, (t.procs q).parent =
      if (s.procs q).parent = some p then some initproc else (s.procs q).parent := by
    intro q
    rw [← hs.parent]
    by_cases hq : q = p
    · rw [hq, hself]
    · rw [hother hq]
  have hpc : ∀ {q}, q ≠ p → t.pc q = s.pc q := fun hq =>
    (Function.update_of_ne hq _ _).trans (congrFun hs.wakes.pc _)
  have hpcp : t.pc p = .exited := Function.update_self ..
  have halive : ∀ {q}, q ≠ p → (s.procs q).state.Alive → (t.procs q).state.Alive :=
    fun hq hal => by
      rw [hother hq]
      exact hs.wakes.alive hal
  have hfork : ∀ {q np}, (t.pc q).forking = some np → q ≠ p ∧ (s.pc q).forking = some np := by
    intro q np hf
    by_cases hq : q = p
    · rw [hq, hpcp] at hf
      cases hf
    · rw [hpc hq] at hf
      exact ⟨hq, hf⟩
  have hsleep : ∀ {q}, (t.procs q).state = .sleeping →
      q ≠ p ∧ (s'.procs q).state = .sleeping ∧ (s.procs q).state = .sleeping := by
    intro q hsl
    by_cases hq : q = p
    · rw [hq, hself] at hsl
      cases hsl
    · rw [hother hq] at hsl
      exact ⟨hq, hsl, hs.wakes.of_sleeping hsl⟩
  refine
    { init := halive (Ne.symm hinit) h.init
      running := fun q => ⟨nofun, fun hq => ?_⟩
      parent_alive := fun q r hqr => ?_
      parent_some := fun q hq hun hus => ?_
      asleep := fun q hq => ?_
      no_zombie := fun r addr hr hpcr q hq => ?_
      forking := fun q np hf => ?_
      forker := fun q q' np hf hf' => h.forker q q' np (hfork hf).2 (hfork hf').2
      linked := fun q np hq => ?_
      last := fun q hq => ?_
      reaps := ?_ }
  · by_cases hqp : q = p
    · rw [hqp, hself] at hq
      cases hq
    · rw [hother hqp, hs.state_iff q .running, ← h.running, hrun] at hq
      exact absurd (Option.some.inj hq).symm hqp
  · rw [hparent] at hqr
    split at hqr
    · cases hqr
      exact halive (Ne.symm hinit) h.init
    · rename_i hne
      have hrp : r ≠ p := fun hrp => hne (hrp ▸ hqr)
      exact halive hrp (h.parent_alive q r hqr)
  · rw [hparent]
    split
    · exact nofun
    · by_cases hqp : q = p
      · subst hqp
        exact h.parent_some q hq (by rw [hprun]; nofun) (by rw [hprun]; nofun)
      · rw [hother hqp] at hun hus
        rw [ne_eq, hs.state_iff q .unused] at hun
        rw [ne_eq, hs.state_iff q .used] at hus
        exact h.parent_some q hq hun hus
  · obtain ⟨hqp, -, hsl⟩ := hsleep hq
    have hchan : (t.procs q).chan = (s.procs q).chan := by
      rw [hother hqp]
      exact hs.wakes.chan q
    rw [hpc hqp, hchan]
    exact h.asleep q hsl
  · obtain ⟨hrp, hsl', hsl⟩ := hsleep hr
    rw [hpc hrp] at hpcr
    -- a process asleep in `kwait` sleeps on its own slot
    have hchan : (s.procs r).chan = some (.proc r) := by
      rcases h.asleep r hsl with hin | ⟨-, hchan⟩
      · rw [hin] at hpcr
        cases hpcr
      · exact hchan
    have hheir := hs.heir q r
    rw [hs.parent, ← hparent] at hheir
    by_cases hqp : q = p
    · exact absurd hchan (hheir hq (.inl hqp) hsl')
    · by_cases hchild : (s.procs q).parent = some p
      · exact absurd hchan (hheir hq (.inr hchild) hsl')
      · rw [hparent, if_neg hchild] at hq
        rw [hother hqp, ne_eq, hs.state_iff q .zombie]
        exact h.no_zombie r addr hsl hpcr q hq
  · have ⟨hqp, hf⟩ := hfork hf
    have ⟨hal, hused⟩ := h.forking q np hf
    have hnp : np ≠ p := fun hnp => by
      rw [hnp, hprun] at hused
      cases hused
    exact ⟨halive hqp hal, by rw [hother hnp, hs.state_iff np .used]; exact hused⟩
  · have hqp : q ≠ p := fun hqp => by
      rw [hqp, hpcp] at hq
      cases hq
    rw [hpc hqp] at hq
    have hlink := h.linked q np hq
    rw [hparent, if_neg fun heq => hqp (Option.some.inj (hlink.symm.trans heq))]
    exact hlink
  · by_cases hqp : q = p
    · subst hqp
      rw [hself]
      exact lastOf_cons_self (.exited q status) _
    · rw [hother hqp] at hq ⊢
      rw [hs.state_iff q .zombie] at hq
      have hx : (s'.procs q).xstate = (s.procs q).xstate := hs.wakes.xstate q
      rw [lastOf_cons_of_ne (Ne.symm hqp), hhist, hx]
      exact h.last q hq
  · change ReapsExits (.exited p status :: s'.history)
    rw [hhist]
    exact h.reaps.cons nofun

theorem kexit (h : TreeInv s) (hrun : s.running = some p) {status : BitVec 32}
    (hs : s.kexit p status = some s') : TreeInv s' := by
  unfold ProcTable.kexit at hs
  split at hs
  · cases hs
  · rename_i hinit
    cases hs
    exact h.exited hinit hrun (abandon hinit hrun) status

end TreeInv

end YHsys.Kernel
