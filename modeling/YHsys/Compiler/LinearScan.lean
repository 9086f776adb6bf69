import YHsys.Compiler.RegAlloc
import YHsys.Compiler.Frame

/-!
# Linear scan books every register once

Two scalars that are alive at a common instruction never share a register. The scan goes through
the intervals in the order of their starts; a register that is free has only been given to
intervals that have ended, and one in `active` to none that ends later than its entry there says
(`LinearScan.Booked`).
-/

namespace YHsys.Compiler

open List (mem_append mem_filter mem_map mem_singleton map_append)

variable {layout : FrameLayout} {code : List Instr}

/-! ## Intervals -/

/-- Instruction `i` of the code reads or writes the scalar `x`. -/
def Occurs (layout : FrameLayout) (code : List Instr) (i : ℕ) (x : String) : Prop :=
  ∃ ins uses defs, code[i]? = some ins ∧ instructionUsesDefs layout ins = .ok (uses, defs) ∧
    x ∈ uses ++ defs ∧ layout.isScalar x = true

/-- Instruction `p` lies between the first and the last occurrence of `x`. -/
def InInterval (layout : FrameLayout) (code : List Instr) (x : String) (p : ℕ) : Prop :=
  ∃ a b, Occurs layout code a x ∧ Occurs layout code b x ∧ a ≤ p ∧ p ≤ b

/-- The names seen before instruction `idx`, in the order of their first occurrences. -/
structure Scanned (order : List Span) (idx : ℕ) : Prop where
  sorted : order.Pairwise fun a b => a.start ≤ b.start
  within : ∀ span ∈ order, span.start ≤ span.last ∧ span.last ≤ idx

/-- Every span of `order` is kept, and may end later in `order'`. -/
def Grows (order order' : List Span) : Prop :=
  ∀ span ∈ order, ∃ span' ∈ order', span'.name = span.name ∧ span'.start = span.start ∧
    span.last ≤ span'.last

theorem Grows.trans {o1 o2 o3 : List Span} (h : Grows o1 o2) (h' : Grows o2 o3) : Grows o1 o3 := by
  intro span hspan
  obtain ⟨s2, hs2, hname, hstart, hlast⟩ := h span hspan
  obtain ⟨s3, hs3, hname', hstart', hlast'⟩ := h' s2 hs2
  exact ⟨s3, hs3, hname'.trans hname, hstart'.trans hstart, hlast.trans hlast'⟩

theorem Scanned.mention {order : List Span} {idx : ℕ} (h : Scanned order idx) (x : String) :
    Scanned (mention idx order x) idx ∧ Grows order (mention idx order x) ∧
      ∃ span ∈ mention idx order x, span.name = x ∧ span.start ≤ idx ∧ idx ≤ span.last := by
  unfold Compiler.mention
  split_ifs with hany
  · refine ⟨⟨?_, ?_⟩, ?_, ?_⟩
    · rw [List.pairwise_map]
      refine h.sorted.imp fun {a b} hab => ?_
      split_ifs <;> exact hab
    · intro span hspan
      obtain ⟨s, hs, rfl⟩ := mem_map.mp hspan
      have hw := h.within s hs
      split_ifs
      · exact ⟨hw.1.trans hw.2, le_rfl⟩
      · exact hw
    · intro span hspan
      refine ⟨_, List.mem_map_of_mem hspan, ?_⟩
      split_ifs
      · exact ⟨rfl, rfl, (h.within span hspan).2⟩
      · exact ⟨rfl, rfl, le_rfl⟩
    · obtain ⟨s, hs, hname⟩ := List.any_eq_true.mp hany
      have hname : s.name = x := of_decide_eq_true hname
      refine ⟨_, List.mem_map_of_mem hs, ?_⟩
      rw [if_pos hname]
      exact ⟨hname, (h.within s hs).1.trans (h.within s hs).2, le_rfl⟩
  · refine ⟨⟨?_, ?_⟩, ?_, ?_⟩
    · refine List.pairwise_append.mpr ⟨h.sorted, List.pairwise_singleton _ _, ?_⟩
      intro a ha b hb
      cases mem_singleton.mp hb
      exact (h.within a ha).1.trans (h.within a ha).2
    · refine List.forall_mem_append.mpr ⟨h.within, List.forall_mem_singleton.mpr ?_⟩
      exact ⟨le_rfl, le_rfl⟩
    · intro span hspan
      exact ⟨span, List.mem_append_left _ hspan, rfl, rfl, le_rfl⟩
    · exact ⟨⟨x, idx, idx⟩, List.mem_append_right _ (mem_singleton.mpr rfl), rfl, le_rfl,
        le_rfl⟩

theorem Scanned.mentions {idx : ℕ} (names : List String) : ∀ {order : List Span},
    Scanned order idx →
    Scanned (names.foldl (Compiler.mention idx) order) idx ∧
      Grows order (names.foldl (Compiler.mention idx) order) ∧
      ∀ x ∈ names, ∃ span ∈ names.foldl (Compiler.mention idx) order,
        span.name = x ∧ span.start ≤ idx ∧ idx ≤ span.last := by
  induction names with
  | nil =>
    intro order h
    exact ⟨h, fun span hspan => ⟨span, hspan, rfl, rfl, le_rfl⟩, List.forall_mem_nil _⟩
  | cons y names ih =>
    intro order h
    obtain ⟨hscan, hgrows, s, hs, hname, hstart, hlast⟩ := h.mention y
    obtain ⟨hscan', hgrows', hall⟩ := ih hscan
    refine ⟨hscan', hgrows.trans hgrows', List.forall_mem_cons.mpr ⟨?_, hall⟩⟩
    obtain ⟨s', hs', hname', hstart', hlast'⟩ := hgrows' s hs
    exact ⟨s', hs', hname'.trans hname, hstart'.le.trans hstart, hlast.trans hlast'⟩

theorem spans_spec : ∀ {code : List Instr} {idx : ℕ} {order order' : List Span},
    Scanned order idx → spans layout idx code order = .ok order' →
    (∃ n, Scanned order' n) ∧ Grows order order' ∧
      ∀ i x, Occurs layout code i x →
        ∃ span ∈ order', span.name = x ∧ span.start ≤ idx + i ∧ idx + i ≤ span.last
  | [], idx, order, _, horder, h => by
    cases h
    refine ⟨⟨idx, horder⟩, fun span hspan => ⟨span, hspan, rfl, rfl, le_rfl⟩, ?_⟩
    rintro i x ⟨ins, uses, defs, hins, -⟩
    simp at hins
  | ins :: rest, idx, order, order', horder, h => by
    obtain ⟨⟨uses, defs⟩, hins, h⟩ := Except.bind_eq_ok.mp h
    obtain ⟨hscan, hgrows, hall⟩ :=
      horder.mentions (((uses ++ defs).filter layout.isScalar).insertionSort (· ≤ ·))
    obtain ⟨hn, hgrows', hrest⟩ := spans_spec
      (⟨hscan.sorted, fun span hs => ⟨(hscan.within span hs).1,
        (hscan.within span hs).2.trans (Nat.le_succ idx)⟩⟩ : Scanned _ (idx + 1)) h
    refine ⟨hn, hgrows.trans hgrows', ?_⟩
    rintro (_ | i) x ⟨ins', uses', defs', hget, huses, hx, hscalar⟩
    · cases hget
      cases hins.symm.trans huses
      have hmem : x ∈ ((uses ++ defs).filter layout.isScalar).insertionSort (· ≤ ·) :=
        (List.mem_insertionSort _).mpr (mem_filter.mpr ⟨hx, hscalar⟩)
      obtain ⟨s, hs, hname, hstart, hlast⟩ := hall x hmem
      obtain ⟨s', hs', hname', hstart', hlast'⟩ := hgrows' s hs
      exact ⟨s', hs', hname'.trans hname, hstart'.le.trans hstart, hlast.trans hlast'⟩
    · obtain ⟨s, hs, hname, hstart, hlast⟩ :=
        hrest i x ⟨ins', uses', defs', hget, huses, hx, hscalar⟩
      exact ⟨s, hs, hname, by omega, by omega⟩

/-! ## The scan -/

/-- What the scan has given to the spans `placed`, when the next span starts at `now` or later. -/
structure LinearScan.Booked (s : LinearScan) (placed : List (Span × Option Reg)) (now : ℕ) :
    Prop where
  locations : s.locations.map (fun l => (l.name, l.reg)) = placed.map fun p => (p.1.name, p.2)
  free : ∀ r ∈ s.freeRegs, ∀ p ∈ placed, p.2 = some r → p.1.last < now
  active : ∀ a ∈ s.active, ∀ p ∈ placed, p.2 = some a.1 → p.1.last ≤ a.2
  apart : placed.Pairwise fun p q => ∀ r, p.2 = some r → q.2 = some r → p.1.last < q.1.start

theorem LinearScan.Booked.expire {s : LinearScan} {placed : List (Span × Option Reg)} {now : ℕ}
    (h : s.Booked placed now) {start : ℕ} (hstart : now ≤ start) :
    (s.expire start).Booked placed start := by
  refine ⟨h.locations, ?_, ?_, h.apart⟩
  · intro r hr p hp hpr
    rcases mem_append.mp hr with hr | hr
    · exact (h.free r hr p hp hpr).trans_le hstart
    · obtain ⟨a, ha, rfl⟩ := mem_map.mp hr
      obtain ⟨ha, hlt⟩ := mem_filter.mp ha
      exact (h.active a ha p hp hpr).trans_lt (of_decide_eq_true hlt)
  · intro a ha p hp hpr
    exact h.active a (mem_filter.mp ha).1 p hp hpr

theorem LinearScan.Booked.place {s s' : LinearScan} {placed : List (Span × Option Reg)} {now : ℕ}
    {span : Span} (h : s.Booked placed now) (hinv : s.Inv layout) (hstart : now ≤ span.start)
    (hspan : span.start ≤ span.last) (hplace : s.place layout span = .ok s') :
    ∃ r, s'.Booked (placed ++ [(span, r)]) span.start := by
  have hbooked := h.expire hstart
  have hperm := (s.regs_expire span.start).trans hinv.regs
  have hnodup := hperm.nodup_iff.mpr (by decide : allocatableRegs.Nodup)
  have hlocs : ∀ (o : ℕ) (r : Option Reg),
      (s.locations ++ [(⟨span.name, r, o⟩ : VarLocation)]).map (fun l => (l.name, l.reg)) =
        (placed ++ [(span, r)]).map fun p => (p.1.name, p.2) := by
    intro o r
    rw [map_append, h.locations, map_append]
    rfl
  obtain ⟨slot, -, ⟨reg, free, hfree, rfl⟩ | ⟨hfree, rfl⟩⟩ := LinearScan.place_eq_ok hplace
  · rw [hfree, List.cons_append, List.nodup_cons] at hnodup
    have hreg : ∀ p ∈ placed, p.2 = some reg → p.1.last < span.start :=
      hbooked.free reg (by rw [hfree]; exact List.mem_cons_self)
    refine ⟨some reg, hlocs _ _, ?_, ?_, ?_⟩
    · intro r hr p hp hpr
      rcases mem_append.mp hp with hp | hp
      · exact hbooked.free r (by rw [hfree]; exact List.mem_cons_of_mem _ hr) p hp hpr
      · -- the register taken is no longer free
        cases mem_singleton.mp hp
        cases hpr
        exact absurd (List.mem_append_left _ hr) hnodup.1
    · intro a ha p hp hpr
      rw [List.mem_insertionSort] at ha
      rcases mem_append.mp ha with ha | ha <;> rcases mem_append.mp hp with hp | hp
      · exact hbooked.active a ha p hp hpr
      · cases mem_singleton.mp hp
        refine absurd (List.mem_append_right _ (mem_map.mpr ⟨a, ha, ?_⟩)) hnodup.1
        exact (Option.some.inj hpr).symm
      · cases mem_singleton.mp ha
        exact (hreg p hp hpr).le.trans hspan
      · cases mem_singleton.mp ha
        cases mem_singleton.mp hp
        exact le_rfl
    · refine List.pairwise_append.mpr ⟨h.apart, List.pairwise_singleton _ _, ?_⟩
      intro p hp q hq r hpr hqr
      cases mem_singleton.mp hq
      cases hqr
      exact hreg p hp hpr
  · refine ⟨none, hlocs _ _, ?_, ?_, ?_⟩
    · intro r hr
      rw [show (s.expire span.start).freeRegs = [] from hfree] at hr
      cases hr
    · intro a ha p hp hpr
      rcases mem_append.mp hp with hp | hp
      · exact hbooked.active a ha p hp hpr
      · cases mem_singleton.mp hp
        cases hpr
    · refine List.pairwise_append.mpr ⟨h.apart, List.pairwise_singleton _ _, ?_⟩
      intro p hp q hq r hpr hqr
      cases mem_singleton.mp hq
      cases hqr

theorem LinearScan.Booked.places {order : List Span} : ∀ {s s' : LinearScan}
    {placed : List (Span × Option Reg)} {now : ℕ}, s.Booked placed now → s.Inv layout →
    ScalarSpans layout order → order.Pairwise (fun a b => a.start ≤ b.start) →
    (∀ span ∈ order, now ≤ span.start ∧ span.start ≤ span.last) →
    order.foldlM (LinearScan.place layout) s = .ok s' →
    ∃ placed' now', s'.Booked placed' now' ∧ placed'.map (·.1) = placed.map (·.1) ++ order := by
  induction order with
  | nil =>
    intro s s' placed now h _ _ _ _ hfold
    cases hfold
    exact ⟨placed, now, h, (List.append_nil _).symm⟩
  | cons span order ih =>
    intro s s' placed now h hinv hscalar hsorted hstart hfold
    rw [List.foldlM_cons] at hfold
    obtain ⟨s1, hplace, hfold⟩ := Except.bind_eq_ok.mp hfold
    obtain ⟨hhead, htail⟩ := List.forall_mem_cons.mp hstart
    obtain ⟨r, hbooked⟩ := h.place hinv hhead.1 hhead.2 hplace
    obtain ⟨hle, hsorted⟩ := List.pairwise_cons.mp hsorted
    obtain ⟨placed', now', hb, hmap⟩ := ih hbooked
      (hinv.place (hscalar span List.mem_cons_self) hplace)
      (fun sp hsp => hscalar sp (List.mem_cons_of_mem _ hsp)) hsorted
      (fun sp hsp => ⟨hle sp hsp, (htail sp hsp).2⟩) hfold
    refine ⟨placed', now', hb, ?_⟩
    rw [hmap, map_append, List.append_assoc]
    rfl

/-! ## The allocation -/

/-- The last loop of `_build_register_allocation`: the scalars that no instruction mentions get a
location without a register. -/
def RegisterAllocation.allLocations (layout : FrameLayout) (alloc : RegisterAllocation) :
    List VarLocation :=
  alloc.locations ++ (layout.symbols.filter fun p =>
    !p.2.isArray && !alloc.locations.any (·.name = p.1)).map fun p => ⟨p.1, none, p.2.offset⟩

theorem buildRegisterAllocation_booked {alloc : RegisterAllocation}
    (h : buildRegisterAllocation layout code = .ok alloc) :
    ∃ placed : List (Span × Option Reg),
      alloc.locations.map (fun l => (l.name, l.reg)) = placed.map (fun p => (p.1.name, p.2)) ∧
      placed.Pairwise (fun p q => ∀ r, p.2 = some r → q.2 = some r → p.1.last < q.1.start) ∧
      ∀ i x, Occurs layout code i x →
        ∃ p ∈ placed, p.1.name = x ∧ p.1.start ≤ i ∧ i ≤ p.1.last := by
  obtain ⟨⟨live, outs⟩, -, h⟩ := Except.bind_eq_ok.mp h
  obtain ⟨order, horder, h⟩ := Except.bind_eq_ok.mp h
  obtain ⟨s, hplace, h⟩ := Except.bind_eq_ok.mp h
  cases h
  obtain ⟨⟨n, hscan⟩, -, hocc⟩ := spans_spec
    (⟨.nil, List.forall_mem_nil _⟩ : Scanned [] 0) horder
  have hempty : LinearScan.Booked ⟨[], fun _ => none, allocatableRegs, []⟩ [] 0 := by
    refine ⟨rfl, ?_, ?_, .nil⟩
    · intro r _ p hp
      cases hp
    · intro a ha
      cases ha
  obtain ⟨placed, now, hbooked, hmap⟩ := hempty.places (LinearScan.inv_start layout)
    (spans_scalar (by simp [ScalarSpans]) horder) hscan.sorted
    (fun span hspan => ⟨Nat.zero_le _, (hscan.within span hspan).1⟩) hplace
  refine ⟨placed, hbooked.locations, hbooked.apart, fun i x hx => ?_⟩
  obtain ⟨span, hspan, hname, hstart, hlast⟩ := hocc i x hx
  rw [Nat.zero_add] at hstart hlast
  have hmem : span ∈ placed.map (·.1) := by
    rw [hmap]
    exact hspan
  obtain ⟨p, hp, rfl⟩ := mem_map.mp hmem
  exact ⟨p, hp, hname, hstart, hlast⟩

theorem regs_apart {alloc : RegisterAllocation}
    (h : buildRegisterAllocation layout code = .ok alloc) {x y : String} (hxy : x ≠ y) {p : ℕ}
    (hx : InInterval layout code x p) (hy : InInterval layout code y p) {r : Reg}
    (hrx : alloc.reg x = some r) : alloc.reg y ≠ some r := by
  intro hry
  have hwf := buildRegisterAllocation_wf h
  obtain ⟨placed, hlocs, hapart, hocc⟩ := buildRegisterAllocation_booked h
  -- the entry of a name in `placed` carries its register and its whole interval
  have hnames : (placed.map fun q => q.1.name).Nodup := by
    have hmap : alloc.locations.map (·.name) = placed.map fun q => q.1.name := by
      simpa [Function.comp_def] using congrArg (List.map Prod.fst) hlocs
    rw [← hmap]
    exact hwf.names
  have hentry : ∀ z, InInterval layout code z p → alloc.reg z = some r →
      ∃ q ∈ placed, q.1.name = z ∧ q.2 = some r ∧ q.1.start ≤ p ∧ p ≤ q.1.last := by
    rintro z ⟨a, b, ha, hb, hap, hpb⟩ hrz
    obtain ⟨qa, hqa, hna, hsa, -⟩ := hocc a z ha
    obtain ⟨qb, hqb, hnb, -, hlb⟩ := hocc b z hb
    cases List.inj_on_of_nodup_map hnames hqa hqb (hna.trans hnb.symm)
    obtain ⟨loc, hloc, hlname, hlreg⟩ := RegisterAllocation.Wf.exists_of_reg hrz
    have hmem : (z, some r) ∈ placed.map fun q => (q.1.name, q.2) := by
      rw [← hlocs, ← hlname, ← hlreg]
      exact List.mem_map_of_mem hloc
    obtain ⟨q, hq, hqz⟩ := mem_map.mp hmem
    obtain ⟨hqn, hqr⟩ := Prod.mk.inj hqz
    cases List.inj_on_of_nodup_map hnames hq hqa (hqn.trans hna.symm)
    exact ⟨qa, hqa, hna, hqr, hsa.trans hap, hpb.trans hlb⟩
  obtain ⟨qx, hqx, hnx, hrx', hsx, hlx⟩ := hentry x hx hrx
  obtain ⟨qy, hqy, hny, hry', hsy, hly⟩ := hentry y hy hry
  have hne : qx ≠ qy := fun he => hxy (by rw [← hnx, ← hny, he])
  let R (p q : Span × Option Reg) : Prop :=
    ∀ r, p.2 = some r → q.2 = some r → p.1.last < q.1.start ∨ q.1.last < p.1.start
  have hR : Std.Symm R := ⟨fun _ _ hpq r h1 h2 => (hpq r h2 h1).symm⟩
  have hpair : placed.Pairwise R := hapart.imp fun hpq r h1 h2 => .inl (hpq r h1 h2)
  rcases hpair.forall hqx hqy hne r hrx' hry' with hlt | hlt <;> omega

/-- Linear scan books every register once: names alive at a common instruction have different
registers or none, the registers are those of `ALLOCATABLE_REGS`, and every scalar of the frame
has one location, with the offset of its slot. -/
theorem linear_scan_sound {layout : FrameLayout} {code : List Instr} {alloc : RegisterAllocation}
    (hsymbols : (layout.symbols.map (·.1)).Nodup)
    (h : buildRegisterAllocation layout code = .ok alloc) :
    (∀ x y p, x ≠ y → InInterval layout code x p → InInterval layout code y p →
      ∀ r, alloc.reg x = some r → alloc.reg y ≠ some r) ∧
    (∀ loc ∈ alloc.allLocations layout, ∀ r, loc.reg = some r → r ∈ allocatableRegs) ∧
    ∀ x slot, layout.symbol x = .ok slot → slot.isArray = false →
      ∃ loc ∈ alloc.allLocations layout, loc.name = x ∧ loc.stackOffset = slot.offset ∧
        loc.reg = alloc.reg x ∧ ∀ loc' ∈ alloc.allLocations layout, loc'.name = x → loc' = loc := by
  have hwf := buildRegisterAllocation_wf h
  refine ⟨fun x y p hxy hx hy r hr => regs_apart h hxy hx hy hr, ?_, ?_⟩
  · intro loc hloc r hr
    rcases List.mem_append.mp hloc with hloc | hloc
    · exact hwf.held loc hloc r hr
    · obtain ⟨p, -, rfl⟩ := List.mem_map.mp hloc
      cases hr
  · intro x slot hslot hscalar
    have hmem := FrameLayout.mem_of_symbol hslot
    by_cases hin : ∃ loc ∈ alloc.locations, loc.name = x
    · obtain ⟨loc, hloc, rfl⟩ := hin
      obtain ⟨slot', hslot', -, hoff⟩ := hwf.slots loc hloc
      cases hslot.symm.trans hslot'
      refine ⟨loc, List.mem_append_left _ hloc, rfl, hoff, (hwf.reg_eq hloc).symm, ?_⟩
      intro loc' hloc' hname
      rcases List.mem_append.mp hloc' with hloc' | hloc'
      · exact List.inj_on_of_nodup_map hwf.names hloc' hloc hname
      · obtain ⟨p, hp, rfl⟩ := List.mem_map.mp hloc'
        have hfilter := (List.mem_filter.mp hp).2
        have hany : alloc.locations.any (·.name = p.1) = true :=
          List.any_eq_true.mpr ⟨loc, hloc, decide_eq_true hname.symm⟩
        rw [hany, Bool.not_true, Bool.and_false] at hfilter
        cases hfilter
    · have hany : alloc.locations.any (·.name = x) = false := by
        rw [List.any_eq_false]
        intro loc hloc hname
        exact hin ⟨loc, hloc, of_decide_eq_true hname⟩
      have hreg : alloc.reg x = none := by
        cases hr : alloc.reg x with
        | none => rfl
        | some r =>
          obtain ⟨loc, hloc, hname, -⟩ := RegisterAllocation.Wf.exists_of_reg hr
          exact absurd ⟨loc, hloc, hname⟩ hin
      have hrest : (x, slot) ∈ layout.symbols.filter fun p =>
          !p.2.isArray && !alloc.locations.any (·.name = p.1) := by
        refine List.mem_filter.mpr ⟨hmem, ?_⟩
        simp only [hscalar, hany]
        rfl
      refine ⟨⟨x, none, slot.offset⟩, List.mem_append_right _ (List.mem_map.mpr ⟨_, hrest, rfl⟩),
        rfl, rfl, hreg.symm, ?_⟩
      intro loc' hloc' hname
      rcases List.mem_append.mp hloc' with hloc' | hloc'
      · exact absurd ⟨loc', hloc', hname⟩ hin
      · obtain ⟨p, hp, rfl⟩ := List.mem_map.mp hloc'
        cases List.inj_on_of_nodup_map hsymbols (List.mem_filter.mp hp).1 hmem hname
        rfl

def sumLayout : FrameLayout :=
  ⟨[("x", ⟨0, 1, false⟩), ("y", ⟨4, 1, false⟩), ("z", ⟨8, 1, false⟩)], 32, 24, 28⟩

def sumCode : List Instr :=
  [.act (.assign (.var "x") (.int 1)), .act (.assign (.var "y") (.var "x")),
    .act (.returnExpr (.binary .add (.var "x") (.var "y")))]

/-- `x` and `y` are both alive at the sum; `z` is never mentioned. -/
theorem linear_scan_sound_sum : ∃ alloc, buildRegisterAllocation sumLayout sumCode = .ok alloc ∧
    (∀ r, alloc.reg "x" = some r → alloc.reg "y" ≠ some r) ∧
    ∃ loc ∈ alloc.allLocations sumLayout, loc.name = "z" ∧ loc.stackOffset = 8 := by
  obtain ⟨alloc, halloc⟩ : ∃ alloc, buildRegisterAllocation sumLayout sumCode = .ok alloc :=
    ⟨_, rfl⟩
  obtain ⟨hapart, -, hlocs⟩ := linear_scan_sound (by decide) halloc
  obtain ⟨loc, hloc, hname, hoff, -⟩ := hlocs "z" ⟨8, 1, false⟩ rfl rfl
  refine ⟨alloc, halloc, hapart "x" "y" 2 (by decide) ?_ ?_, loc, hloc, hname, hoff⟩
  · have hx : Occurs sumLayout sumCode 2 "x" := ⟨_, _, _, rfl, rfl, by decide, rfl⟩
    exact ⟨2, 2, hx, hx, le_rfl, le_rfl⟩
  · have hy : Occurs sumLayout sumCode 2 "y" := ⟨_, _, _, rfl, rfl, by decide, rfl⟩
    exact ⟨2, 2, hy, hy, le_rfl, le_rfl⟩

end YHsys.Compiler
