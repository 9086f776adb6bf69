import Mathlib
import YHsys.Compiler.Frame
import YHsys.Compiler.RegAlloc
import YHsys.Compiler.Rv32

/-!
# Array accesses stay in their slots

`_build_frame_layout` returns for every list of symbols with distinct names and positive sizes,
and the slots of its frame do not overlap. The code of an array access with an index in bounds
reads or writes the word of that element; the rest of the frame, the saved `s0` and `ra` included,
stays as it is.
-/

namespace YHsys.Compiler

open Machine (get_next get_set_of_ne get_set_self loadWord)
open BitVec (ofNat)

/-! ## Layouts -/

theorem layoutSymbols_ok {syms : List IrSymbol} :
    ∀ (symbols : List (String × SymbolLayout)) (offset : ℕ),
    (syms.map (·.name)).Nodup → (∀ s ∈ syms, 0 < s.size.getD 1) →
    (∀ s ∈ syms, symbols.lookup s.name = none) →
    ∃ r, layoutSymbols syms symbols offset = .ok r ∧
      (∀ x slot, symbols.lookup x = some slot → r.1.lookup x = some slot) ∧
      ∀ s ∈ syms, ∃ slot, r.1.lookup s.name = some slot ∧ slot.words = s.words ∧
        slot.isArray = s.size.isSome := by
  induction syms with
  | nil =>
    intro symbols offset _ _ _
    exact ⟨(symbols, offset), rfl, fun _ _ h => h, List.forall_mem_nil _⟩
  | cons sym rest ih =>
    intro symbols offset hnodup hsize hnew
    rw [List.map_cons, List.nodup_cons] at hnodup
    have hwords : ¬ sym.size.getD 1 ≤ 0 := not_le.mpr (hsize sym List.mem_cons_self)
    have hnone : symbols.lookup sym.name = none := hnew sym List.mem_cons_self
    -- the new slot comes after the others, and under a name of its own
    have hslot : ∀ slot : SymbolLayout,
        (symbols ++ [(sym.name, slot)]).lookup sym.name = some slot := by
      intro slot
      simp [List.lookup_append, hnone]
    obtain ⟨r, hr, hold, hall⟩ := ih
      (symbols ++ [(sym.name, ⟨offset, (sym.size.getD 1).toNat, sym.size.isSome⟩)])
      (offset + (sym.size.getD 1).toNat * 4) hnodup.2
      (fun s hs => hsize s (List.mem_cons_of_mem _ hs)) fun s hs => by
        have hne : s.name ≠ sym.name := fun h => hnodup.1 (List.mem_map.mpr ⟨s, hs, h⟩)
        have hbeq : (s.name == sym.name) = false := by simpa using hne
        simp [List.lookup_append, hnew s (List.mem_cons_of_mem _ hs), List.lookup, hbeq]
    refine ⟨r, ?_, fun x slot h => hold x slot ?_, fun s hs => ?_⟩
    · simp only [layoutSymbols, hwords, if_false, hnone, Option.isSome_none, Bool.false_eq_true]
      exact hr
    · rw [List.lookup_append, h, Option.some_or]
    · rcases List.mem_cons.mp hs with rfl | hs
      · exact ⟨_, hold _ _ (hslot _), rfl, rfl⟩
      · exact hall s hs

theorem buildFrameLayout_ok {f : IrFunction} (hnames : (f.symbols.map (·.name)).Nodup)
    (hsizes : ∀ s ∈ f.symbols, 0 < s.size.getD 1) :
    ∃ layout, buildFrameLayout f = .ok layout ∧ ∀ s ∈ f.symbols,
      ∃ slot, layout.symbol s.name = .ok slot ∧ slot.words = s.words ∧
        slot.isArray = s.size.isSome := by
  obtain ⟨⟨symbols, offset⟩, hlayout, -, hall⟩ :=
    layoutSymbols_ok [] 0 hnames hsizes fun _ _ => rfl
  refine ⟨_, by rw [buildFrameLayout, hlayout]; rfl, fun s hs => ?_⟩
  obtain ⟨slot, hslot, hkind⟩ := hall s hs
  exact ⟨slot, by rw [FrameLayout.symbol, show List.lookup _ _ = _ from hslot], hkind⟩

/-! ## Bytes -/

/-- The byte at offset `o` of the frame is one of the slot's. -/
def SymbolLayout.Has (slot : SymbolLayout) (o : ℕ) : Prop :=
  slot.offset ≤ o ∧ o < slot.offset + 4 * slot.words

/-- Slots apart from each other and from the two saved registers. -/
structure FrameLayout.SlotsApart (layout : FrameLayout) : Prop where
  apart : ∀ x y slot slot', x ≠ y → layout.symbol x = .ok slot → layout.symbol y = .ok slot' →
    ∀ o, slot.Has o → ¬ slot'.Has o
  inside : ∀ x slot, layout.symbol x = .ok slot → ∀ o, slot.Has o → o < layout.frameSize - 8
  aligned : ∀ x slot, layout.symbol x = .ok slot → slot.offset % 4 = 0
  frame : 0 < layout.frameSize ∧ layout.frameSize % 16 = 0
  saved : layout.savedS0Offset = layout.frameSize - 8 ∧
    layout.savedRaOffset = layout.frameSize - 4

theorem FrameLayout.Wf.slotsApart {layout : FrameLayout} (h : layout.Wf) : layout.SlotsApart := by
  constructor
  · rintro x y slot slot' hxy hx hy o ⟨h1, h2⟩ ⟨h3, h4⟩
    rcases h.apart hx hy hxy with hle | hle <;> omega
  · rintro x slot hx o ⟨-, ho⟩
    have := h.slot_le hx
    omega
  · exact fun x slot hx => h.offset_mod hx
  · have := h.frame
    exact ⟨by omega, this.2⟩
  · exact ⟨h.savedS0, h.savedRa⟩

/-- The address of a byte of the frame. -/
def Machine.frameByte (m : Machine) (o : ℕ) : BitVec 32 := m.get .s0 + BitVec.ofNat 32 o

/-- Nothing but bytes of the slot changes. -/
def SymbolLayout.OnlyChanges (slot : SymbolLayout) (m m' : Machine) : Prop :=
  ∀ a, (∀ o, slot.Has o → a ≠ m.frameByte o) → m'.mem a = m.mem a

theorem Machine.frameByte_inj (m : Machine) {o o' : ℕ} (ho : o < 2 ^ 32) (ho' : o' < 2 ^ 32)
    (heq : m.frameByte o = m.frameByte o') : o = o' := by
  simp only [frameByte] at heq
  bv_omega

theorem Machine.frameByte_add (m : Machine) (o k : ℕ) :
    m.frameByte o + ofNat 32 k = m.frameByte (o + k) := by
  rw [frameByte, frameByte, BitVec.add_assoc, ← BitVec.ofNat_add]

theorem SymbolLayout.onlyChanges_storeWord {slot : SymbolLayout} {i : ℕ} (hi : i < slot.words)
    (m : Machine) (v : BitVec 32) :
    slot.OnlyChanges m (m.storeWord (m.frameByte (slot.offset + 4 * i)) v) := by
  intro a ha
  have hne : ∀ k < 4, a ≠ m.frameByte (slot.offset + 4 * i) + ofNat 32 k := by
    intro k hk
    rw [m.frameByte_add]
    exact ha _ ⟨by omega, by omega⟩
  have h0 : a ≠ m.frameByte (slot.offset + 4 * i) := by
    simpa using hne 0 (by omega)
  have h1 : a ≠ m.frameByte (slot.offset + 4 * i) + 1 := hne 1 (by omega)
  have h2 : a ≠ m.frameByte (slot.offset + 4 * i) + 2 := hne 2 (by omega)
  have h3 : a ≠ m.frameByte (slot.offset + 4 * i) + 3 := hne 3 (by omega)
  simp only [Machine.storeWord, Machine.storeByte]
  rw [Function.update_of_ne h3, Function.update_of_ne h2, Function.update_of_ne h1,
    Function.update_of_ne h0]

/-! ## The code of an access -/

section

variable {data : AsmLabel → BitVec 32} {m : Machine} {i : ℕ}

theorem add_ofInt_zero (a : BitVec 32) : a + BitVec.ofInt 32 0 = a := by
  simp

/-- The address of an element, from the index in `target`. -/
def elementAddress (target addr : Reg) (offset : ℕ) : List Rv :=
  [.slli target target 2, .addi addr .s0 offset, .alu .add addr addr target]

theorem ofNat_shiftLeft_two (i : ℕ) : ofNat 32 i <<< 2 = ofNat 32 (4 * i) := by
  refine BitVec.eq_of_toNat_eq ?_
  rw [BitVec.toNat_shiftLeft, BitVec.toNat_ofNat, BitVec.toNat_ofNat, Nat.shiftLeft_eq]
  omega

/-- Registers as they are used for an address. -/
structure AddressRegs (target addr : Reg) : Prop where
  target_zero : target ≠ .zero
  addr_zero : addr ≠ .zero
  ne : target ≠ addr
  target_s0 : .s0 ≠ target
  addr_s0 : .s0 ≠ addr

variable (data) in
theorem runBlock_elementAddress {target addr : Reg} (hr : AddressRegs target addr) (offset : ℕ)
    (hm : m.get target = ofNat 32 i) :
    (runBlock data m (elementAddress target addr offset)).get addr =
        m.frameByte (offset + 4 * i) ∧
      (runBlock data m (elementAddress target addr offset)).mem = m.mem ∧
      ∀ r, r ≠ target → r ≠ addr →
        (runBlock data m (elementAddress target addr offset)).get r = m.get r := by
  have hs0 : (Reg.s0 : Reg) ≠ .zero := by decide
  refine ⟨?_, rfl, fun r h1 h2 => ?_⟩
  · simp only [runBlock, elementAddress, List.foldl_cons, List.foldl_nil, Rv.apply, AluOp.eval,
      get_next, get_set_self _ _ hr.addr_zero, get_set_of_ne _ _ hr.ne,
      get_set_self _ _ hr.target_zero, get_set_of_ne _ _ hr.target_s0, hm,
      ofNat_shiftLeft_two, Machine.frameByte, BitVec.ofNat_add, BitVec.add_assoc]
    rfl
  · simp only [runBlock, elementAddress, List.foldl_cons, List.foldl_nil, Rv.apply,
      get_next, get_set_of_ne _ _ h1, get_set_of_ne _ _ h2]

/-- Straight code at the end of what has been emitted, and what it does. -/
def EndsWith (s s' : Emit) (P : Machine → Machine → Prop) : Prop :=
  ∃ block : List Rv, s'.lines = s.lines ++ block.map .instr ∧
    (∀ ins ∈ block, ins.isStraight = true) ∧ ∀ data m, P m (runBlock data m block)

end

section

variable {env : EmitEnv} {s s' : Emit} {x : String} {index : Expr} {slot : SymbolLayout}

theorem prepareRegForClobber_scratch (hwf : env.alloc.Wf env.layout) {reg : Reg}
    (hreg : reg ∉ allocatableRegs) : prepareRegForClobber env reg s = .ok s := by
  unfold prepareRegForClobber
  cases howner : env.alloc.regToVar reg with
  | none => rfl
  | some owner =>
    obtain ⟨loc, hloc, -, hlreg⟩ := hwf.owners reg owner howner
    exact absurd (hwf.held loc hloc reg hlreg) hreg

theorem emitEvalExpr_element (hwf : env.alloc.Wf env.layout) {target : Reg}
    (hzero : target ≠ .zero) (hs0 : target ≠ .s0) (hx : env.layout.array x = .ok slot)
    (h : emitEvalExpr env (.array x index) target s = .ok s') :
    ∃ s1, emitEvalExpr env index target s = .ok s1 ∧ EndsWith s1 s' fun m m' =>
      ∀ i : ℕ, m.get target = ofNat 32 i →
        m'.get target = m.loadWord (m.frameByte (slot.offset + 4 * i)) ∧ m'.mem = m.mem := by
  rw [emitEvalExpr] at h
  obtain ⟨slot', hslot', h⟩ := Except.bind_eq_ok.mp h
  cases hx.symm.trans hslot'
  obtain ⟨s1, hs1, h⟩ := Except.bind_eq_ok.mp h
  refine ⟨s1, hs1, ?_⟩
  -- the other scratch register serves when the target is `a4` itself
  have hcode : ∀ addr : Reg, addr ∉ allocatableRegs → addr ≠ .zero → .s0 ≠ addr → target ≠ addr →
      (prepareRegForClobber env addr (s1.instr (.slli target target 2)) >>= fun s =>
        Except.ok (((s.instr (.addi addr .s0 slot.offset)).instr
          (.alu .add addr addr target)).instr (.lw target 0 addr))) = .ok s' →
      EndsWith s1 s' fun m m' => ∀ i : ℕ, m.get target = ofNat 32 i →
        m'.get target = m.loadWord (m.frameByte (slot.offset + 4 * i)) ∧ m'.mem = m.mem := by
    intro addr hscratch haddr hs0a hne h
    rw [prepareRegForClobber_scratch hwf hscratch] at h
    cases h
    refine ⟨elementAddress target addr slot.offset ++ [.lw target 0 addr], ?_, ?_, ?_⟩
    · simp [elementAddress, Emit.instr]
    · simp [elementAddress, Rv.isStraight]
    · intro data m i hm
      obtain ⟨haddr', hmem, -⟩ := runBlock_elementAddress data
        ⟨hzero, haddr, hne, hs0.symm, hs0a⟩ slot.offset hm
      rw [runBlock_append]
      refine ⟨?_, hmem⟩
      generalize runBlock data m (elementAddress target addr slot.offset) = m1 at *
      simp only [runBlock, List.foldl_cons, List.foldl_nil, Rv.apply, get_next,
        get_set_self _ _ hzero, haddr', loadWord, hmem, add_ofInt_zero]
  by_cases ha4 : target = .a4
  · subst ha4
    exact hcode .a5 (by decide) (by decide) (by decide) (by decide) h
  · rw [if_neg ha4] at h
    exact hcode .a4 (by decide) (by decide) (by decide) ha4 h

theorem emitStoreLvalue_element {valueReg : Reg} (hx : env.layout.array x = .ok slot)
    (h : emitStoreLvalue env (.array x index) valueReg s = .ok s') :
    ∃ s1, emitEvalExpr env index .t0 (s.push valueReg) = .ok s1 ∧ EndsWith s1 s' fun m m' =>
      ∀ i : ℕ, m.get .t0 = ofNat 32 i →
        m'.mem = (m.storeWord (m.frameByte (slot.offset + 4 * i)) (m.loadWord (m.get .sp))).mem := by
  obtain ⟨slot', hslot', h⟩ := Except.bind_eq_ok.mp h
  cases hx.symm.trans hslot'
  obtain ⟨s1, hs1, h⟩ := Except.bind_eq_ok.mp h
  cases h
  refine ⟨s1, hs1, elementAddress .t0 .a6 slot.offset ++
    [.lw .a5 0 .sp, .addi .sp .sp 4, .sw .a5 0 .a6], ?_, ?_, ?_⟩
  · simp [elementAddress, Emit.instr, Emit.pop]
  · simp [elementAddress, Rv.isStraight]
  · intro data m i hm
    obtain ⟨haddr, hmem, hregs⟩ := runBlock_elementAddress data
      (⟨by decide, by decide, by decide, by decide, by decide⟩ : AddressRegs .t0 .a6)
      slot.offset hm
    have hsp := hregs .sp (by decide) (by decide)
    rw [runBlock_append]
    generalize runBlock data m (elementAddress .t0 .a6 slot.offset) = m1 at *
    have h1 : (Reg.a6 : Reg) ≠ .sp := by decide
    have h2 : (Reg.a6 : Reg) ≠ .a5 := by decide
    have h3 : (Reg.a5 : Reg) ≠ .sp := by decide
    have h4 : (Reg.a5 : Reg) ≠ .zero := by decide
    simp only [runBlock, List.foldl_cons, List.foldl_nil, Rv.apply, get_next,
      get_set_of_ne _ _ h1, get_set_of_ne _ _ h2, get_set_of_ne _ _ h3,
      get_set_self _ _ h4, haddr, hsp, add_ofInt_zero]
    simp only [Machine.storeWord, Machine.storeByte, loadWord, Machine.set, Machine.next,
      hmem]

theorem zeroWords_onlyChanges {size : ℤ} (hsize : size ≤ slot.words) (s : Emit) :
    EndsWith s (zeroWords slot size s) slot.OnlyChanges := by
  refine ⟨(List.range size.toNat).map fun i =>
    .sw .zero ((slot.offset + i * 4 : ℕ) : ℤ) .s0, ?_, ?_, ?_⟩
  · unfold zeroWords
    generalize List.range size.toNat = l
    induction l generalizing s with
    | nil => simp
    | cons i l ih =>
      rw [List.foldl_cons, ih, Emit.instr]
      simp
  · simp [Rv.isStraight]
  · intro data m
    have hlt : ∀ i ∈ List.range size.toNat, i < slot.words := by
      intro i hi
      have := List.mem_range.mp hi
      omega
    generalize List.range size.toNat = l at hlt
    induction l generalizing m with
    | nil => exact fun a _ => rfl
    | cons i l ih =>
      intro a ha
      rw [List.map_cons, runBlock, List.foldl_cons, ← runBlock]
      have haddr : m.get .s0 + BitVec.ofInt 32 ((slot.offset + i * 4 : ℕ) : ℤ) =
          m.frameByte (slot.offset + 4 * i) := by
        rw [Nat.mul_comm, Machine.frameByte]
        rfl
      rw [Rv.apply, haddr, Machine.get_zero]
      -- the base register is not written, so the bytes keep their addresses
      refine (ih _ (fun j hj => hlt j (List.mem_cons_of_mem _ hj)) a fun o ho => ?_).trans
        (SymbolLayout.onlyChanges_storeWord (hlt i List.mem_cons_self) m 0 a ha)
      rw [Machine.frameByte, get_next, Machine.get_storeWord]
      exact ha o ho

end

/-- What the code of array accesses touches, for the arrays of a frame. -/
def FrameLayout.AccessesInBounds (layout : FrameLayout) : Prop :=
  ∀ env : EmitEnv, env.layout = layout → env.alloc.Wf layout →
    ∀ x slot, layout.array x = .ok slot →
    (∀ index target s s', target ≠ .zero → target ≠ .s0 →
      emitEvalExpr env (.array x index) target s = .ok s' →
      ∃ s1, emitEvalExpr env index target s = .ok s1 ∧ EndsWith s1 s' fun m m' =>
        ∀ i < slot.words, m.get target = BitVec.ofNat 32 i →
          m'.get target = m.loadWord (m.frameByte (slot.offset + 4 * i)) ∧ m'.mem = m.mem) ∧
    (∀ index valueReg s s', emitStoreLvalue env (.array x index) valueReg s = .ok s' →
      ∃ s1, emitEvalExpr env index .t0 (s.push valueReg) = .ok s1 ∧ EndsWith s1 s' fun m m' =>
        ∀ i < slot.words, m.get .t0 = BitVec.ofNat 32 i → slot.OnlyChanges m m') ∧
    ∀ size : ℤ, size ≤ slot.words → ∀ s, EndsWith s (zeroWords slot size s) slot.OnlyChanges

/-- Every list of symbols with distinct names and positive sizes has a frame with slots apart,
and array accesses in bounds stay in theirs. The bytes of a frame that fits in the address space
have addresses of their own. -/
theorem frame_slots_apart {f : IrFunction} (hnames : (f.symbols.map (·.name)).Nodup)
    (hsizes : ∀ s ∈ f.symbols, 0 < s.size.getD 1) :
    ∃ layout, buildFrameLayout f = .ok layout ∧
      (∀ s ∈ f.symbols, ∃ slot, layout.symbol s.name = .ok slot ∧ slot.words = s.words ∧
        slot.isArray = s.size.isSome) ∧
      layout.SlotsApart ∧ layout.AccessesInBounds ∧
      (layout.frameSize ≤ 2 ^ 32 → ∀ (m : Machine) (o o' : ℕ), o < layout.frameSize →
        o' < layout.frameSize → m.frameByte o = m.frameByte o' → o = o') := by
  obtain ⟨layout, hlayout, hall⟩ := buildFrameLayout_ok hnames hsizes
  refine ⟨layout, hlayout, hall, (buildFrameLayout_wf hlayout).1.slotsApart, ?_, ?_⟩
  · rintro env rfl hwf x slot hx
    refine ⟨?_, ?_, fun size hsize s => zeroWords_onlyChanges hsize s⟩
    · intro index target s s' hzero hs0 h
      obtain ⟨s1, hs1, block, hlines, hstraight, hrun⟩ := emitEvalExpr_element hwf hzero hs0 hx h
      exact ⟨s1, hs1, block, hlines, hstraight, fun data m i _ hm => hrun data m i hm⟩
    · intro index valueReg s s' h
      obtain ⟨s1, hs1, block, hlines, hstraight, hrun⟩ := emitStoreLvalue_element hx h
      refine ⟨s1, hs1, block, hlines, hstraight, fun data m i hi hm a ha => ?_⟩
      rw [hrun data m i hm]
      exact SymbolLayout.onlyChanges_storeWord hi m _ a ha
  · intro hframe m o o' ho ho' heq
    exact m.frameByte_inj (by omega) (by omega) heq

/-- An array of three words and a scalar. -/
theorem frame_slots_apart_array : ∃ layout,
    buildFrameLayout ⟨"main", [], [⟨"a", some 3⟩, ⟨"x", none⟩], []⟩ = .ok layout ∧
      layout.frameSize = 32 ∧ layout.SlotsApart ∧ layout.AccessesInBounds := by
  obtain ⟨layout, hlayout, -, hapart, haccess, -⟩ := @frame_slots_apart
    ⟨"main", [], [⟨"a", some 3⟩, ⟨"x", none⟩], []⟩ (by decide) (by decide)
  have hframe : layout.frameSize = 32 := by
    cases hlayout
    rfl
  exact ⟨layout, hlayout, hframe, hapart, haccess⟩

end YHsys.Compiler
