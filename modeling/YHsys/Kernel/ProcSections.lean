import YHsys.Kernel.ProcTree

/-!
# The critical sections of fork, sleep, kill and the scheduler keep the tree

A section changes one slot and the position of the running thread. `TreeInv.live` is the
case of a slot with a live process, `TreeInv.dormant` that of a slot without one; the two
last sections of `kfork` take a slot from the one kind to the other.
-/

namespace YHsys.Kernel

open Function (update update_apply update_eq_self update_idem update_of_ne update_self)

namespace TreeInv

variable {s s' : ProcTable} {p : ProcId}

/-! ## Slots with a live process -/

/-- A live process moves on and stays alive: it may go to sleep, in `kwait` only without
an exited child. -/
theorem live (h : TreeInv s) (hp : (s.procs p).state.Alive) {x : Proc} (hx : x.state.Alive)
    (hparent : x.parent = (s.procs p).parent) {pc : Pc} (hpc : pc = s.pc p ∨ pc.forking = none)
    (hsleep : x.state = .sleeping → pc = .inSleep ∨
      (∃ addr, pc = .inWait addr) ∧ x.chan = some (.proc p) ∧
        ∀ q, (s.procs q).parent = some p → (s.procs q).state ≠ .zombie)
    (run : Option ProcId)
    (hrun : ∀ q, run = some q ↔ (update s.procs p x q).state = .running) :
    TreeInv { s with
      procs := update s.procs p x
      pc := update s.pc p pc
      running := run } := by
  have hproc : ∀ q, update s.procs p x q = if q = p then x else s.procs q := fun q =>
    update_apply ..
  have hpcs : ∀ q, update s.pc p pc q = if q = p then pc else s.pc q := fun q =>
    update_apply ..
  have hpar : ∀ q, (update s.procs p x q).parent = (s.procs q).parent := by
    intro q
    rw [hproc]
    split
    · rename_i hq
      rw [hparent, hq]
    · rfl
  have halive : ∀ {q}, (s.procs q).state.Alive → (update s.procs p x q).state.Alive := by
    intro q hq
    rw [hproc]
    split
    · exact hx
    · exact hq
  -- a slot that is not alive is another slot
  have hother : ∀ {q st}, ¬ st.Alive → ((update s.procs p x q).state = st ↔
      (s.procs q).state = st) := by
    intro q st hst
    rw [hproc]
    split
    · rename_i hq
      rw [hq]
      exact ⟨fun heq => absurd (heq ▸ hx) hst, fun heq => absurd (heq ▸ hp) hst⟩
    · exact Iff.rfl
  have hfork : ∀ {q np}, (update s.pc p pc q).forking = some np →
      (s.pc q).forking = some np := by
    intro q np hf
    rw [hpcs] at hf
    split at hf
    · rename_i hq
      rcases hpc with hpc | hpc
      · rw [hq, ← hpc]
        exact hf
      · rw [hpc] at hf
        cases hf
    · exact hf
  have hdead : ¬ ProcState.zombie.Alive := by simp [ProcState.Alive]
  have hused : ¬ ProcState.used.Alive := by simp [ProcState.Alive]
  have hunused : ¬ ProcState.unused.Alive := by simp [ProcState.Alive]
  refine
    { init := halive h.init
      running := hrun
      parent_alive := fun q r hqr => halive (h.parent_alive q r (hpar q ▸ hqr))
      parent_some := fun q hq hun hus => ?_
      asleep := fun q hq => ?_
      no_zombie := fun r addr hr hpcr q hq => ?_
      forking := fun q np hf => ?_
      forker := fun q q' np hf hf' => h.forker q q' np (hfork hf) (hfork hf')
      linked := fun q np hq => ?_
      last := fun q hq => ?_
      reaps := h.reaps }
  · dsimp only at hun hus ⊢
    rw [ne_eq, hother hunused] at hun
    rw [ne_eq, hother hused] at hus
    rw [hpar]
    exact h.parent_some q hq hun hus
  · dsimp only at hq ⊢
    rw [hproc] at hq ⊢
    rw [hpcs]
    split at hq
    · rename_i hqp
      simp only [hqp, if_true]
      rcases hsleep hq with hin | ⟨hin, hchan, -⟩
      · exact .inl hin
      · exact .inr ⟨hin, hchan⟩
    · rename_i hqp
      simp only [hqp, if_false]
      exact h.asleep q hq
  · dsimp only at hr hpcr hq ⊢
    rw [hpar] at hq
    rw [ne_eq, hother hdead]
    rw [hproc] at hr
    rw [hpcs] at hpcr
    split at hr
    · rename_i hrp
      rw [if_pos hrp] at hpcr
      rcases hsleep hr with hin | ⟨-, -, hkids⟩
      · rw [hin] at hpcr
        cases hpcr
      · exact hkids q (hrp ▸ hq)
    · rename_i hrp
      rw [if_neg hrp] at hpcr
      exact h.no_zombie r addr hr hpcr q hq
  · have ⟨hal, hus⟩ := h.forking q np (hfork hf)
    exact ⟨halive hal, (hother hused).mpr hus⟩
  · dsimp only at hq ⊢
    rw [hpar]
    rw [hpcs] at hq
    split at hq
    · rename_i hqp
      rcases hpc with hpc | hpc
      · rw [hqp]
        exact h.linked p np (hpc.symm.trans hq)
      · rw [hq] at hpc
        cases hpc
    · exact h.linked q np hq
  · dsimp only at hq ⊢
    have hz := (hother hdead).mp hq
    have hqp : q ≠ p := fun hqp => hdead (hz ▸ hqp ▸ hp)
    rw [hproc, if_neg hqp]
    exact h.last q hz

theorem goto (h : TreeInv s) (hp : (s.procs p).state.Alive) (hawake : (s.procs p).state ≠ .sleeping)
    {pc : Pc} (hpc : pc.forking = none) : TreeInv (s.goto p pc) := by
  have hlive := h.live hp hp rfl (.inr hpc) (fun hsl => absurd hsl hawake)
    s.running (fun q => by rw [update_eq_self]; exact h.running q)
  rw [update_eq_self] at hlive
  exact hlive

theorem goto_running (h : TreeInv s) (hrun : s.running = some p) {pc : Pc}
    (hpc : pc.forking = none) : TreeInv (s.goto p pc) := by
  have hstate := (h.running p).mp hrun
  exact h.goto (h.alive_of_running hrun) (by rw [hstate]; nofun) hpc

theorem running_update (h : TreeInv s) {x : Proc} {run : Option ProcId}
    (hrun : ∀ q, q ≠ p → (run = some q ↔ s.running = some q))
    (hx : run = some p ↔ x.state = .running) (q : ProcId) :
    run = some q ↔ (update s.procs p x q).state = .running := by
  by_cases hq : q = p
  · subst hq
    rw [update_self]
    exact hx
  · rw [update_of_ne hq, hrun q hq]
    exact h.running q

theorem some_ne_of_running (hrun : s.running = some p) (q : ProcId) (hq : q ≠ p) :
    (none : Option ProcId) = some q ↔ s.running = some q :=
  ⟨nofun, fun heq => absurd (Option.some.inj (heq.symm.trans hrun)) hq⟩

theorem sleep (h : TreeInv s) (hrun : s.running = some p) {c : Chan} {pc : Pc}
    (hpc : pc = .inSleep ∨ (∃ addr, pc = .inWait addr) ∧ c = .proc p ∧
      ∀ q, (s.procs q).parent = some p → (s.procs q).state ≠ .zombie) :
    TreeInv (s.sleep p c pc) := by
  refine h.live (x := { s.procs p with chan := some c, state := .sleeping })
    (h.alive_of_running hrun) (.inl rfl) rfl (.inr ?_) (fun _ => ?_) none
    (h.running_update (some_ne_of_running hrun) ⟨nofun, nofun⟩)
  · rcases hpc with rfl | ⟨⟨addr, rfl⟩, -⟩ <;> rfl
  · rcases hpc with hpc | ⟨hpc, rfl, hkids⟩
    · exact .inl hpc
    · exact .inr ⟨hpc, rfl, hkids⟩

theorem wake (h : TreeInv s) (hrun : s.running = some p) {pc : Pc} (hpc : pc.forking = none) :
    TreeInv ((s.modify p fun x => { x with chan := none }).goto p pc) := by
  have hstate := (h.running p).mp hrun
  have halive := h.alive_of_running hrun
  exact h.live (x := { s.procs p with chan := none }) halive halive rfl (.inr hpc)
    (fun hsl => nomatch hstate.symm.trans hsl) s.running
    (h.running_update (fun _ _ => Iff.rfl) ⟨fun _ => hstate, fun _ => hrun⟩)

theorem dispatch (h : TreeInv s) (hrun : s.running = none)
    (hp : (s.procs p).state = .runnable) :
    TreeInv { s.modify p fun x => { x with state := .running } with running := some p } := by
  have hlive := h.live (x := { s.procs p with state := .running }) (.inr (.inl hp))
    (.inr (.inr rfl)) rfl (.inl rfl) nofun (some p)
    (h.running_update (fun q hq => ⟨fun heq => absurd (Option.some.inj heq).symm hq, fun heq => by
      rw [hrun] at heq
      cases heq⟩) ⟨fun _ => rfl, fun _ => rfl⟩)
  rw [update_eq_self] at hlive
  exact hlive

theorem yield (h : TreeInv s) (hrun : s.running = some p) :
    TreeInv { s.modify p fun x => { x with state := .runnable } with running := none } := by
  have hlive := h.live (x := { s.procs p with state := .runnable }) (h.alive_of_running hrun)
    (.inr (.inl rfl)) rfl (.inl rfl) nofun none
    (h.running_update (some_ne_of_running hrun) ⟨nofun, nofun⟩)
  rw [update_eq_self] at hlive
  exact hlive

theorem killSlot (h : TreeInv s) (hrun : s.running = some p) (q : ProcId) (pid : BitVec 32) :
    TreeInv (s.killSlot p q pid) := by
  unfold ProcTable.killSlot
  split
  · have hwakes : Wakes s (s.modify q fun x => { x with
        killed := true
        state := if x.state = .sleeping then .runnable else x.state }) := by
      refine .modify ?_ rfl rfl rfl
      by_cases hsl : (s.procs q).state = .sleeping
      · exact .inr ⟨hsl, if_pos hsl⟩
      · exact .inl (if_neg hsl)
    exact (h.wakes hwakes).goto_running (hwakes.running.trans hrun) rfl
  · exact h.goto_running hrun rfl

/-! ## Slots without one -/

/-- A slot without a live process changes hands between free, reserved and exited without
anybody noticing. -/
theorem dormant (h : TreeInv s) {np : ProcId} (hnp : ¬ (s.procs np).state.Alive)
    (hfork : ∀ p, (s.pc p).forking ≠ some np) {x : Proc}
    (hx : x.state = .unused ∨ x.state = .used) (hparent : ∀ r, x.parent = some r →
      (s.procs np).parent = some r) (nextpid : BitVec 32) {pc : Pc} (hpc : pc.forking = none) :
    TreeInv { s with
      procs := update s.procs np x
      pc := update s.pc np pc
      nextpid := nextpid } := by
  have hproc : ∀ q, update s.procs np x q = if q = np then x else s.procs q := fun q =>
    update_apply ..
  have hpcs : ∀ q, update s.pc np pc q = if q = np then pc else s.pc q := fun q =>
    update_apply ..
  have halive : ∀ {q}, (s.procs q).state.Alive →
      update s.procs np x q = s.procs q := by
    intro q hq
    rw [hproc, if_neg]
    rintro rfl
    exact hnp hq
  -- in a state other than free and reserved the slot is another one
  have hold : ∀ {q st}, (update s.procs np x q).state = st →
      st ≠ .unused → st ≠ .used → q ≠ np ∧ (s.procs q).state = st := by
    intro q st hst hun hus
    rw [hproc] at hst
    split at hst
    · rcases hx with hx | hx <;> rw [hx] at hst
      · exact absurd hst.symm hun
      · exact absurd hst.symm hus
    · rename_i hq
      exact ⟨hq, hst⟩
  have hpf : ∀ {q m}, (update s.pc np pc q).forking = some m →
      (s.pc q).forking = some m := by
    intro q m hf
    rw [hpcs] at hf
    split at hf
    · rw [hpc] at hf
      cases hf
    · exact hf
  have hpar : ∀ {q r}, (update s.procs np x q).parent = some r →
      (s.procs q).parent = some r := by
    intro q r hqr
    rw [hproc] at hqr
    split at hqr
    · rename_i hq
      rw [hq]
      exact hparent r hqr
    · exact hqr
  refine
    { init := by dsimp only; rw [halive h.init]; exact h.init
      running := fun q => ?_
      parent_alive := fun q r hqr => ?_
      parent_some := fun q hq hun hus => ?_
      asleep := fun q hq => ?_
      no_zombie := fun r addr hr hpcr q hq => ?_
      forking := fun q m hf => ?_
      forker := fun q q' m hf hf' => h.forker q q' m (hpf hf) (hpf hf')
      linked := fun q m hq => ?_
      last := fun q hq => ?_
      reaps := h.reaps }
  · refine (h.running q).trans ⟨fun hst => ?_, fun hst => (hold hst nofun nofun).2⟩
    dsimp only
    rw [halive (.inr (.inr hst))]
    exact hst
  · have hr := h.parent_alive q r (hpar hqr)
    dsimp only
    rw [halive hr]
    exact hr
  · dsimp only at hun hus ⊢
    have hqnp : q ≠ np := by
      rintro rfl
      rw [hproc, if_pos rfl] at hun hus
      exact hx.elim hun hus
    rw [hproc, if_neg hqnp] at hun hus ⊢
    exact h.parent_some q hq hun hus
  · have ⟨hqnp, hsl⟩ := hold hq nofun nofun
    dsimp only
    rw [hpcs, hproc, if_neg hqnp, if_neg hqnp]
    exact h.asleep q hsl
  · have ⟨hrnp, hsl⟩ := hold hr nofun nofun
    dsimp only at hpcr hq
    rw [hpcs, if_neg hrnp] at hpcr
    intro hz
    exact h.no_zombie r addr hsl hpcr q (hpar hq) (hold hz nofun nofun).2
  · have hf := hpf hf
    have ⟨hal, hus⟩ := h.forking q m hf
    have hm : m ≠ np := fun hm => hfork q (hm ▸ hf)
    dsimp only
    rw [halive hal, hproc, if_neg hm]
    exact ⟨hal, hus⟩
  · dsimp only at hq ⊢
    have hq' : s.pc q = .forkReady m := by
      rw [hpcs] at hq
      split at hq
      · rw [hq] at hpc
        cases hpc
      · exact hq
    have hm : m ≠ np := fun hm => hfork q (by rw [hq', hm]; rfl)
    rw [hproc, if_neg hm]
    exact h.linked q m hq'
  · have ⟨hqnp, hz⟩ := hold hq nofun nofun
    dsimp only
    rw [hproc, if_neg hqnp]
    exact h.last q hz

theorem not_forking (h : TreeInv s) {np : ProcId} (hnp : (s.procs np).state ≠ .used)
    (p : ProcId) : (s.pc p).forking ≠ some np := fun hf => hnp (h.forking p np hf).2

theorem freeproc (h : TreeInv s) {np : ProcId}
    (hnp : (s.procs np).state = .unused ∨ (s.procs np).state = .zombie) :
    TreeInv (s.freeproc np) := by
  have hdead : ¬ (s.procs np).state.Alive := by
    rcases hnp with hst | hst <;> rw [hst] <;> simp [ProcState.Alive]
  have hused : (s.procs np).state ≠ .used := by
    rcases hnp with hst | hst <;> rw [hst] <;> nofun
  have hpc : (s.pc np).forking = none := by
    cases hf : (s.pc np).forking with
    | none => rfl
    | some m => exact absurd (h.forking np m hf).1 hdead
  have hfree := h.dormant hdead (h.not_forking hused)
    (x := ⟨.unused, none, false, 0, 0, none⟩) (.inl rfl) nofun s.nextpid hpc
  rw [update_eq_self] at hfree
  exact hfree

theorem reserve (h : TreeInv s) (hrun : s.running = some p) {np : ProcId}
    (hnp : (s.procs np).state = .used) (hfork : ∀ q, (s.pc q).forking ≠ some np) :
    TreeInv (s.goto p (.forkLink np)) := by
  have hpcs : ∀ q, (s.goto p (.forkLink np)).pc q = if q = p then .forkLink np else s.pc q :=
    fun q => update_apply ..
  have hstate := (h.running p).mp hrun
  refine
    { init := h.init
      running := h.running
      parent_alive := h.parent_alive
      parent_some := h.parent_some
      asleep := fun q hq => ?_
      no_zombie := fun r addr hr hpcr q hq => ?_
      forking := fun q m hf => ?_
      forker := fun q q' m hf hf' => ?_
      linked := fun q m hq => ?_
      last := h.last
      reaps := h.reaps }
  · have hqp : q ≠ p := by
      rintro rfl
      cases hstate.symm.trans hq
    rw [hpcs, if_neg hqp]
    exact h.asleep q hq
  · rw [hpcs] at hpcr
    split at hpcr
    · cases hpcr
    · exact h.no_zombie r addr hr hpcr q hq
  · rw [hpcs] at hf
    split at hf
    · rename_i hqp
      cases hf
      rw [hqp]
      exact ⟨h.alive_of_running hrun, hnp⟩
    · exact h.forking q m hf
  · rw [hpcs] at hf hf'
    split at hf <;> split at hf'
    · rename_i hq hq'
      exact hq.trans hq'.symm
    · cases hf
      exact absurd hf' (hfork q')
    · cases hf'
      exact absurd hf (hfork q)
    · exact h.forker q q' m hf hf'
  · rw [hpcs] at hq
    split at hq
    · cases hq
    · exact h.linked q m hq

theorem forkAlloc (h : TreeInv s) (hrun : s.running = some p) (np : ProcId) (ok : Bool) :
    TreeInv (s.forkAlloc p np ok) := by
  unfold ProcTable.forkAlloc
  split
  · rename_i hun
    have hdead : ¬ (s.procs np).state.Alive := by rw [hun]; simp [ProcState.Alive]
    have hused : (s.procs np).state ≠ .used := by rw [hun]; nofun
    have hnof := h.not_forking hused
    have hne : np ≠ p := by
      rintro rfl
      cases hun.symm.trans ((h.running np).mp hrun)
    cases ok with
    | true =>
      have hres := h.dormant hdead hnof
        (x := { s.procs np with pid := s.nextpid, state := .used }) (.inr rfl) (fun r hr => hr)
        (s.nextpid + 1) (show Pc.user.forking = none from rfl)
      refine TreeInv.reserve hres hrun ?_ fun q hf => ?_
      · simp
      · dsimp only at hf
        rw [update_apply] at hf
        split at hf
        · cases hf
        · exact hnof q hf
    | false =>
      have hfree := h.freeproc (.inl hun)
      have hgoto := TreeInv.goto_running hfree hrun (show Pc.user.forking = none from rfl)
      have hnext : ∀ {t : ProcTable} {n : BitVec 32}, TreeInv t → TreeInv { t with nextpid := n } :=
        fun ht => ⟨ht.init, ht.running, ht.parent_alive, ht.parent_some, ht.asleep, ht.no_zombie,
          ht.forking, ht.forker, ht.linked, ht.last, ht.reaps⟩
      have hgoto' := hnext (n := s.nextpid + 1) hgoto
      simpa [ProcTable.freeproc, ProcTable.modify, ProcTable.goto, update_idem]
        using hgoto'
  · exact h.goto_running hrun rfl

/-! ## The end of a fork -/

/-- `np->parent = p` in `kfork`. -/
theorem forkLink (h : TreeInv s) {np : ProcId} (hpc : s.pc p = .forkLink np)
    (hrun : s.running = some p) :
    TreeInv ((s.modify np fun x => { x with parent := some p }).goto p (.forkReady np)) := by
  have hforking : (s.pc p).forking = some np := by rw [hpc]; rfl
  have ⟨halive, hused⟩ := h.forking p np hforking
  set t := (s.modify np fun x => { x with parent := some p }).goto p (.forkReady np)
  have hproc : ∀ q, t.procs q =
      if q = np then { s.procs np with parent := some p } else s.procs q :=
    fun q => update_apply ..
  have hpcs : ∀ q, t.pc q = if q = p then .forkReady np else s.pc q :=
    fun q => update_apply ..
  have hstate : ∀ q, (t.procs q).state = (s.procs q).state := by
    intro q
    rw [hproc]
    split
    · rename_i hq
      rw [hq]
    · rfl
  have hpf : ∀ {q m}, (t.pc q).forking = some m → (s.pc q).forking = some m := by
    intro q m hf
    rw [hpcs] at hf
    split at hf
    · rename_i hq
      cases hf
      rw [hq]
      exact hforking
    · exact hf
  have hstatep := (h.running p).mp hrun
  refine
    { init := by rw [hstate]; exact h.init
      running := fun q => by rw [hstate]; exact h.running q
      parent_alive := fun q r hqr => ?_
      parent_some := fun q hq hun hus => ?_
      asleep := fun q hq => ?_
      no_zombie := fun r addr hr hpcr q hq => ?_
      forking := fun q m hf => by rw [hstate, hstate]; exact h.forking q m (hpf hf)
      forker := fun q q' m hf hf' => h.forker q q' m (hpf hf) (hpf hf')
      linked := fun q m hq => ?_
      last := fun q hq => ?_
      reaps := h.reaps }
  · rw [hstate]
    rw [hproc] at hqr
    split at hqr
    · cases hqr
      exact halive
    · exact h.parent_alive q r hqr
  · rw [hstate] at hun hus
    rw [hproc]
    split
    · exact nofun
    · exact h.parent_some q hq hun hus
  · rw [hstate] at hq
    have hqp : q ≠ p := by
      rintro rfl
      cases hstatep.symm.trans hq
    have hqnp : q ≠ np := by
      rintro rfl
      cases hused.symm.trans hq
    rw [hpcs, if_neg hqp, hproc, if_neg hqnp]
    exact h.asleep q hq
  · rw [hstate] at hr ⊢
    rw [hpcs] at hpcr
    rw [hproc] at hq
    split at hpcr
    · cases hpcr
    · split at hq
      · rename_i hqnp
        rw [hqnp, hused]
        nofun
      · exact h.no_zombie r addr hr hpcr q hq
  · rw [hpcs] at hq
    split at hq
    · rename_i hqp
      cases hq
      rw [hproc, if_pos rfl, hqp]
    · -- two processes never fork into one slot
      rename_i hqp
      have hm : m ≠ np := by
        rintro rfl
        exact hqp (h.forker q p m (by rw [hq]; rfl) hforking)
      rw [hproc, if_neg hm]
      exact h.linked q m hq
  · rw [hstate] at hq
    have hqnp : q ≠ np := by
      rintro rfl
      cases hused.symm.trans hq
    rw [hproc, if_neg hqnp]
    exact h.last q hq

/-- `np->state = RUNNABLE` in `kfork`: the child has its parent by now. -/
theorem forkReady (h : TreeInv s) {np : ProcId} (hpc : s.pc p = .forkReady np)
    (hrun : s.running = some p) :
    TreeInv ((s.modify np fun x => { x with state := .runnable }).goto p .user) := by
  have hforking : (s.pc p).forking = some np := by rw [hpc]; rfl
  have hused := (h.forking p np hforking).2
  have hlinked := h.linked p np hpc
  set t := (s.modify np fun x => { x with state := .runnable }).goto p .user
  have hproc : ∀ q, t.procs q =
      if q = np then { s.procs np with state := .runnable } else s.procs q :=
    fun q => update_apply ..
  have hpcs : ∀ q, t.pc q = if q = p then .user else s.pc q := fun q => update_apply ..
  have hparent : ∀ q, (t.procs q).parent = (s.procs q).parent := by
    intro q
    rw [hproc]
    split
    · rename_i hq
      rw [hq]
    · rfl
  have hother : ∀ {q}, (s.procs q).state ≠ .used → t.procs q = s.procs q := by
    intro q hq
    rw [hproc, if_neg]
    rintro rfl
    exact hq hused
  have hold : ∀ {q st}, (t.procs q).state = st → st ≠ .runnable → (s.procs q).state = st := by
    intro q st hst hne
    rw [hproc] at hst
    split at hst
    · exact absurd hst.symm hne
    · exact hst
  have halive : ∀ {q}, (s.procs q).state.Alive → (t.procs q).state.Alive := fun hq => by
    rw [hother hq.ne]
    exact hq
  have hpf : ∀ {q m}, (t.pc q).forking = some m →
      q ≠ p ∧ m ≠ np ∧ (s.pc q).forking = some m := by
    intro q m hf
    rw [hpcs] at hf
    split at hf
    · cases hf
    · rename_i hq
      refine ⟨hq, ?_, hf⟩
      rintro rfl
      exact hq (h.forker q p m hf hforking)
  refine
    { init := halive h.init
      running := fun q => ⟨fun hq => ?_, fun hq => (h.running q).mpr (hold hq nofun)⟩
      parent_alive := fun q r hqr => halive (h.parent_alive q r (hparent q ▸ hqr))
      parent_some := fun q hq hun hus => ?_
      asleep := fun q hq => ?_
      no_zombie := fun r addr hr hpcr q hq hz => ?_
      forking := fun q m hf => ?_
      forker := fun q q' m hf hf' => h.forker q q' m (hpf hf).2.2 (hpf hf').2.2
      linked := fun q m hq => ?_
      last := fun q hq => ?_
      reaps := h.reaps }
  · have hst := (h.running q).mp hq
    rw [hother (by rw [hst]; nofun)]
    exact hst
  · rw [hparent]
    by_cases hqnp : q = np
    · rw [hqnp, hlinked]
      nofun
    · rw [hproc, if_neg hqnp] at hun hus
      exact h.parent_some q hq hun hus
  · have hsl := hold hq nofun
    have hqp : q ≠ p := by
      rintro rfl
      cases hsl.symm.trans ((h.running q).mp hrun)
    rw [hpcs, if_neg hqp, hother (by rw [hsl]; nofun)]
    exact h.asleep q hsl
  · rw [hparent] at hq
    rw [hpcs] at hpcr
    split at hpcr
    · cases hpcr
    · exact h.no_zombie r addr (hold hr nofun) hpcr q hq (hold hz nofun)
  · have ⟨_, hm, hf⟩ := hpf hf
    have ⟨hal, hus⟩ := h.forking q m hf
    refine ⟨halive hal, ?_⟩
    rw [hproc, if_neg hm]
    exact hus
  · rw [hpcs] at hq
    split at hq
    · cases hq
    · rw [hparent]
      exact h.linked q m hq
  · have hz := hold hq nofun
    rw [hother (by rw [hz]; nofun)]
    exact h.last q hz

end TreeInv

end YHsys.Kernel
