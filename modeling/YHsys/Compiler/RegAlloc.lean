import YHsys.Compiler.CodegenLive

/-!
# What the register allocation gives

`_build_register_allocation`: every location is a scalar's, with the offset of its slot and one of
the ten registers or none, and `reg_to_var` names a variable with that register.
-/

namespace YHsys.Compiler

variable {layout : FrameLayout} {code : List Instr}

/-! ## The scan -/

theorem LinearScan.place_eq_ok {s s' : LinearScan} {span : Span}
    (h : s.place layout span = .ok s') : ∃ slot, layout.symbol span.name = .ok slot ∧
      ((∃ reg free, (s.expire span.start).freeRegs = reg :: free ∧
        s' = ⟨s.locations ++ [⟨span.name, some reg, slot.offset⟩],
          Function.update s.regToVar reg (some span.name), free,
          ((s.expire span.start).active ++ [(reg, span.last)]).insertionSort fun x y => x.2 ≤ y.2⟩) ∨
      ((s.expire span.start).freeRegs = [] ∧
        s' = { s.expire span.start with
          locations := s.locations ++ [⟨span.name, none, slot.offset⟩] })) := by
  obtain ⟨slot, hslot, h⟩ := Except.bind_eq_ok.mp h
  refine ⟨slot, hslot, ?_⟩
  split at h
  · rename_i reg free hfree
    cases h
    exact .inl ⟨reg, free, hfree, rfl⟩
  · rename_i hfree
    cases h
    exact .inr ⟨hfree, rfl⟩

/-- What holds all through the scan. -/
structure LinearScan.Inv (layout : FrameLayout) (s : LinearScan) : Prop where
  regs : (s.freeRegs ++ s.active.map (·.1)).Perm allocatableRegs
  held : ∀ loc ∈ s.locations, ∀ reg, loc.reg = some reg → reg ∈ allocatableRegs
  slots : ∀ loc ∈ s.locations, ∃ slot, layout.symbol loc.name = .ok slot ∧
    slot.isArray = false ∧ loc.stackOffset = slot.offset
  owners : ∀ reg x, s.regToVar reg = some x → ∃ loc ∈ s.locations, loc.name = x ∧ loc.reg = some reg
  owned : ∀ loc ∈ s.locations, ∀ reg, loc.reg = some reg → (s.regToVar reg).isSome = true

theorem LinearScan.regs_expire (s : LinearScan) (before : ℕ) :
    ((s.expire before).freeRegs ++ (s.expire before).active.map (·.1)).Perm
      (s.freeRegs ++ s.active.map (·.1)) := by
  unfold expire
  rw [List.append_assoc, ← List.map_append]
  refine List.Perm.append_left _ (List.Perm.map _ ?_)
  simp only [decide_not]
  exact List.filter_append_perm (fun x : Reg × ℕ => decide (x.2 < before)) s.active

theorem isScalar_slot {x : String} {slot : SymbolLayout} (hx : layout.isScalar x = true)
    (hslot : layout.symbol x = .ok slot) : slot.isArray = false := by
  unfold FrameLayout.symbol at hslot
  unfold FrameLayout.isScalar at hx
  cases hlookup : layout.symbols.lookup x with
  | none =>
    rw [hlookup] at hslot
    cases hslot
  | some slot' =>
    rw [hlookup] at hslot hx
    cases hslot
    simpa using hx

theorem LinearScan.Inv.place {s s' : LinearScan} {span : Span} (hs : s.Inv layout)
    (hspan : layout.isScalar span.name = true) (h : s.place layout span = .ok s') :
    s'.Inv layout := by
  have hkept : ∀ loc reg x, (∃ l ∈ s.locations, l.name = x ∧ l.reg = some reg) →
      ∃ l ∈ s.locations ++ [loc], l.name = x ∧ l.reg = some reg := by
    rintro loc reg x ⟨l, hl, hx⟩
    exact ⟨l, List.mem_append_left _ hl, hx⟩
  obtain ⟨slot, hslot, ⟨reg, free, hfree, rfl⟩ | ⟨hfree, rfl⟩⟩ := LinearScan.place_eq_ok h
  · have hperm := (s.regs_expire span.start).trans hs.regs
    rw [hfree] at hperm
    constructor
    · have hsort := ((List.perm_insertionSort (fun x y : Reg × ℕ => x.2 ≤ y.2)
        ((s.expire span.start).active ++ [(reg, span.last)])).map (·.1)).append_left free
      refine (hsort.trans ?_).trans hperm
      rw [List.map_append, ← List.append_assoc]
      exact List.perm_append_singleton _ _
    · refine List.forall_mem_append.mpr ⟨hs.held, List.forall_mem_singleton.mpr fun r hr => ?_⟩
      cases hr
      exact hperm.subset (by simp)
    · exact List.forall_mem_append.mpr ⟨hs.slots, List.forall_mem_singleton.mpr
        ⟨slot, hslot, isScalar_slot hspan hslot, rfl⟩⟩
    · intro r x hx
      by_cases hr : r = reg
      · subst hr
        cases (Function.update_self r _ s.regToVar).symm.trans hx
        exact ⟨_, List.mem_append_right _ (List.mem_singleton.mpr rfl), rfl, rfl⟩
      · exact hkept _ _ _ (hs.owners r x ((Function.update_of_ne hr _ _).symm.trans hx))
    · intro loc hloc r hr
      by_cases hnew : r = reg
      · subst hnew
        simp
      · rcases List.mem_append.mp hloc with hloc | hloc
        · simpa [Function.update_of_ne hnew] using hs.owned loc hloc r hr
        · cases List.mem_singleton.mp hloc
          exact absurd (Option.some.inj hr).symm hnew
  · constructor
    · exact (s.regs_expire span.start).trans hs.regs
    · exact List.forall_mem_append.mpr
        ⟨hs.held, List.forall_mem_singleton.mpr fun r hr => nomatch hr⟩
    · exact List.forall_mem_append.mpr ⟨hs.slots, List.forall_mem_singleton.mpr
        ⟨slot, hslot, isScalar_slot hspan hslot, rfl⟩⟩
    · exact fun r x hx => hkept _ _ _ (hs.owners r x hx)
    · exact List.forall_mem_append.mpr
        ⟨hs.owned, List.forall_mem_singleton.mpr fun r hr => nomatch hr⟩

theorem LinearScan.inv_start (layout : FrameLayout) :
    LinearScan.Inv layout ⟨[], fun _ => none, allocatableRegs, []⟩ :=
  ⟨by simp, by simp, by simp, by simp, by simp⟩

/-! ## The names -/

theorem spans_scalar : ∀ {code : List Instr} {idx : ℕ} {order order' : List Span},
    ScalarSpans layout order → spans layout idx code order = .ok order' →
    ScalarSpans layout order'
  | [], _, _, _, horder, h => by
    cases h
    exact horder
  | ins :: rest, _, _, _, horder, h => by
    obtain ⟨⟨uses, defs⟩, -, h⟩ := Except.bind_eq_ok.mp h
    refine spans_scalar (scalarSpans_foldl (fun x hx => ?_) horder) h
    rw [List.mem_insertionSort, List.mem_filter] at hx
    exact hx.2

theorem names_mention (idx : ℕ) (order : List Span) (x : String) :
    (mention idx order x).map (·.name) =
      if x ∈ order.map (·.name) then order.map (·.name) else order.map (·.name) ++ [x] := by
  have hany : order.any (·.name = x) = true ↔ x ∈ order.map (·.name) := by
    simp [List.any_eq_true]
  unfold mention
  by_cases hx : x ∈ order.map (·.name)
  · rw [if_pos (hany.mpr hx), if_pos hx, List.map_map]
    refine List.map_congr_left fun span _ => ?_
    simp only [Function.comp]
    split_ifs <;> rfl
  · rw [if_neg (mt hany.mp hx), if_neg hx, List.map_append]
    rfl

theorem spans_nodup : ∀ {code : List Instr} {idx : ℕ} {order order' : List Span},
    (order.map (·.name)).Nodup → spans layout idx code order = .ok order' →
    (order'.map (·.name)).Nodup
  | [], _, _, _, horder, h => by
    cases h
    exact horder
  | ins :: rest, idx, order, _, horder, h => by
    obtain ⟨⟨uses, defs⟩, -, h⟩ := Except.bind_eq_ok.mp h
    refine spans_nodup ?_ h
    have hfold : ∀ (names : List String) (order : List Span), (order.map (·.name)).Nodup →
        ((names.foldl (mention idx) order).map (·.name)).Nodup := by
      intro names
      induction names with
      | nil => exact fun order h => h
      | cons x names ih =>
        intro order horder
        refine ih _ ?_
        rw [names_mention]
        split_ifs with hx
        · exact horder
        · exact List.nodup_append'.mpr ⟨horder, List.nodup_singleton _, by simpa using hx⟩
    exact hfold _ order horder

theorem names_place {s s' : LinearScan} {span : Span} (h : s.place layout span = .ok s') :
    s'.locations.map (·.name) = s.locations.map (·.name) ++ [span.name] := by
  obtain ⟨slot, -, ⟨reg, free, -, rfl⟩ | ⟨-, rfl⟩⟩ := LinearScan.place_eq_ok h
  · exact List.map_append
  · exact List.map_append

theorem names_places {order : List Span} : ∀ {s s' : LinearScan},
    order.foldlM (LinearScan.place layout) s = .ok s' →
    s'.locations.map (·.name) = s.locations.map (·.name) ++ order.map (·.name) := by
  induction order with
  | nil =>
    intro s s' h
    cases h
    simp
  | cons span order ih =>
    intro s s' h
    rw [List.foldlM_cons] at h
    obtain ⟨s1, h1, h⟩ := Except.bind_eq_ok.mp h
    rw [ih h, names_place h1]
    simp

/-! ## The allocation -/

/-- An allocation as `_build_register_allocation` returns it. -/
structure RegisterAllocation.Wf (layout : FrameLayout) (alloc : RegisterAllocation) : Prop where
  names : (alloc.locations.map (·.name)).Nodup
  held : ∀ loc ∈ alloc.locations, ∀ reg, loc.reg = some reg → reg ∈ allocatableRegs
  slots : ∀ loc ∈ alloc.locations, ∃ slot, layout.symbol loc.name = .ok slot ∧
    slot.isArray = false ∧ loc.stackOffset = slot.offset
  owners : ∀ reg x, alloc.regToVar reg = some x →
    ∃ loc ∈ alloc.locations, loc.name = x ∧ loc.reg = some reg
  owned : ∀ loc ∈ alloc.locations, ∀ reg, loc.reg = some reg → (alloc.regToVar reg).isSome = true

theorem buildRegisterAllocation_wf {alloc : RegisterAllocation}
    (h : buildRegisterAllocation layout code = .ok alloc) : alloc.Wf layout := by
  obtain ⟨⟨live, outs⟩, hlive, h⟩ := Except.bind_eq_ok.mp h
  obtain ⟨order, horder, h⟩ := Except.bind_eq_ok.mp h
  obtain ⟨s, hplace, h⟩ := Except.bind_eq_ok.mp h
  cases h
  have hscalar : ScalarSpans layout order := spans_scalar (by simp [ScalarSpans]) horder
  have hinv : s.Inv layout := Except.foldlM_inv
    (fun t span hspan t' ht hplace => ht.place (hscalar span hspan) hplace)
    (LinearScan.inv_start layout) hplace
  refine ⟨?_, hinv.held, hinv.slots, hinv.owners, hinv.owned⟩
  rw [names_places hplace]
  simpa using spans_nodup (by simp) horder

namespace RegisterAllocation.Wf

variable {alloc : RegisterAllocation}

theorem reg_eq (h : alloc.Wf layout) {loc : VarLocation} (hloc : loc ∈ alloc.locations) :
    alloc.reg loc.name = loc.reg := by
  cases hfind : alloc.locations.find? (·.name = loc.name) with
  | none => exact absurd (List.find?_eq_none.mp hfind loc hloc) (by simp)
  | some found =>
    have hname : found.name = loc.name := by simpa using List.find?_some hfind
    have hsame := List.inj_on_of_nodup_map h.names (List.mem_of_find?_eq_some hfind) hloc hname
    rw [RegisterAllocation.reg, hfind, hsame]
    rfl

theorem exists_of_reg {x : String} {reg : Reg} (hx : alloc.reg x = some reg) :
    ∃ loc ∈ alloc.locations, loc.name = x ∧ loc.reg = some reg := by
  obtain ⟨loc, hfind, hreg⟩ := Option.bind_eq_some_iff.mp hx
  exact ⟨loc, List.mem_of_find?_eq_some hfind, by simpa using List.find?_some hfind, hreg⟩

end RegisterAllocation.Wf

end YHsys.Compiler
