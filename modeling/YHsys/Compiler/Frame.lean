import Mathlib
import YHsys.Compiler.Codegen
import YHsys.Lib.ExceptBind

/-!
# Frames

`_build_frame_layout` puts the symbols of a function side by side, a word for a scalar and its
size for an array, and the saved `s0` and `ra` at the end of the frame (`buildFrameLayout_wf`).
-/

namespace YHsys.Compiler

theorem mem_of_lookup {α : Type} {x : String} {v : α} {l : List (String × α)}
    (h : l.lookup x = some v) : (x, v) ∈ l := by
  induction l with
  | nil => cases h
  | cons p l ih =>
    obtain ⟨y, w⟩ := p
    rw [List.lookup_cons] at h
    split at h
    · rename_i hxy
      cases h
      rw [eq_of_beq hxy]
      exact List.mem_cons_self
    · exact List.mem_cons_of_mem _ (ih h)

/-- The words of a symbol. -/
def IrSymbol.words (sym : IrSymbol) : ℕ := (sym.size.getD 1).toNat

/-- The words of a function's symbols. -/
def IrFunction.words (f : IrFunction) : ℕ := (f.symbols.map IrSymbol.words).sum

/-- Slots side by side in the first `size` bytes of a frame. -/
structure SlotsIn (symbols : List (String × SymbolLayout)) (size : ℕ) : Prop where
  inside : ∀ p ∈ symbols, p.2.offset + 4 * p.2.words ≤ size
  words : ∀ p ∈ symbols, 0 < p.2.words ∧ (p.2.isArray = false → p.2.words = 1)
  aligned : ∀ p ∈ symbols, p.2.offset % 4 = 0
  apart : symbols.Pairwise fun p q => p.2.offset + 4 * p.2.words ≤ q.2.offset
  size_mod : size % 4 = 0

theorem slotsIn_nil : SlotsIn [] 0 :=
  ⟨List.forall_mem_nil _, List.forall_mem_nil _, List.forall_mem_nil _, .nil, rfl⟩

theorem SlotsIn.add {symbols : List (String × SymbolLayout)} {size words : ℕ}
    (h : SlotsIn symbols size) (name : String) {isArray : Bool} (hwords : 0 < words)
    (hscalar : isArray = false → words = 1) :
    SlotsIn (symbols ++ [(name, ⟨size, words, isArray⟩)]) (size + words * 4) := by
  constructor
  · intro p hp
    rcases List.mem_append.mp hp with hp | hp
    · exact (h.inside p hp).trans (Nat.le_add_right _ _)
    · cases List.mem_singleton.mp hp
      simp only
      omega
  · intro p hp
    rcases List.mem_append.mp hp with hp | hp
    · exact h.words p hp
    · cases List.mem_singleton.mp hp
      exact ⟨hwords, hscalar⟩
  · intro p hp
    rcases List.mem_append.mp hp with hp | hp
    · exact h.aligned p hp
    · cases List.mem_singleton.mp hp
      exact h.size_mod
  · refine List.pairwise_append.mpr ⟨h.apart, List.pairwise_singleton _ _, ?_⟩
    intro p hp q hq
    cases List.mem_singleton.mp hq
    exact h.inside p hp
  · have := h.size_mod
    omega

theorem layoutSymbols_spec {syms : List IrSymbol} :
    ∀ {symbols : List (String × SymbolLayout)} {offset : ℕ}
      {r : List (String × SymbolLayout) × ℕ}, SlotsIn symbols offset →
    layoutSymbols syms symbols offset = .ok r →
    SlotsIn r.1 r.2 ∧ r.2 = offset + 4 * (syms.map IrSymbol.words).sum ∧
      ∀ p ∈ r.1, p ∈ symbols ∨ ∃ sym ∈ syms, p.1 = sym.name ∧ p.2.words = sym.words ∧
        p.2.isArray = sym.size.isSome := by
  induction syms with
  | nil =>
    intro symbols offset r hs h
    cases h
    exact ⟨hs, rfl, fun p hp => .inl hp⟩
  | cons sym syms ih =>
    intro symbols offset r hs h
    simp only [layoutSymbols] at h
    split_ifs at h with hneg hdup
    have hscalar : sym.size.isSome = false → sym.words = 1 := by
      intro hnone
      rw [IrSymbol.words, Option.isSome_eq_false_iff.mp hnone |> Option.isNone_iff_eq_none.mp]
      rfl
    have hpos : 0 < sym.words := by
      rw [IrSymbol.words]
      omega
    obtain ⟨hslots, hsize, hfrom⟩ := ih (hs.add sym.name hpos hscalar) h
    refine ⟨hslots, ?_, fun p hp => ?_⟩
    · rw [hsize, List.map_cons, List.sum_cons]
      omega
    · rcases hfrom p hp with hold | ⟨s, hs', hp'⟩
      · rcases List.mem_append.mp hold with hold | hold
        · exact .inl hold
        · cases List.mem_singleton.mp hold
          exact .inr ⟨sym, List.mem_cons_self, rfl, rfl, rfl⟩
      · exact .inr ⟨s, List.mem_cons_of_mem _ hs', hp'⟩

/-- A frame: the slots, and above them the two saved registers. -/
structure FrameLayout.Wf (layout : FrameLayout) : Prop where
  slots : SlotsIn layout.symbols (layout.frameSize - 8)
  frame : 16 ≤ layout.frameSize ∧ layout.frameSize % 16 = 0
  savedS0 : layout.savedS0Offset = layout.frameSize - 8
  savedRa : layout.savedRaOffset = layout.frameSize - 4

theorem buildFrameLayout_wf {f : IrFunction} {layout : FrameLayout}
    (h : buildFrameLayout f = .ok layout) :
    layout.Wf ∧ layout.frameSize = alignUp16 (max 16 (4 * f.words + 8)) ∧
      ∀ p ∈ layout.symbols, ∃ sym ∈ f.symbols, p.1 = sym.name ∧ p.2.words = sym.words ∧
        p.2.isArray = sym.size.isSome := by
  obtain ⟨⟨symbols, offset⟩, hr, h⟩ := Except.bind_eq_ok.mp h
  cases h
  obtain ⟨hslots, hsize, hfrom⟩ := layoutSymbols_spec slotsIn_nil hr
  obtain rfl : offset = 4 * f.words := by simpa [IrFunction.words] using hsize
  have hframe : 4 * f.words + 8 ≤ alignUp16 (max 16 (4 * f.words + 8)) := by
    unfold alignUp16
    omega
  refine ⟨⟨⟨fun p hp => ?_, hslots.words, hslots.aligned, hslots.apart, ?_⟩, ?_, rfl, rfl⟩, rfl,
    fun p hp => (hfrom p hp).resolve_left List.not_mem_nil⟩
  · have : p.2.offset + 4 * p.2.words ≤ 4 * f.words := hslots.inside p hp
    simp only
    omega
  · simp only [alignUp16]
    omega
  · simp only [alignUp16]
    omega

theorem FrameLayout.mem_of_symbol {layout : FrameLayout} {x : String} {slot : SymbolLayout}
    (hx : layout.symbol x = .ok slot) : (x, slot) ∈ layout.symbols := by
  unfold FrameLayout.symbol at hx
  split at hx
  · cases hx
  · rename_i s hs
    cases hx
    exact mem_of_lookup hs

namespace FrameLayout.Wf

variable {layout : FrameLayout} (h : layout.Wf) {x y : String} {slot slot' : SymbolLayout}
include h

theorem slot_le (hx : layout.symbol x = .ok slot) :
    slot.offset + 4 * slot.words + 8 ≤ layout.frameSize := by
  have hin := h.slots.inside _ (mem_of_symbol hx)
  have := h.frame.1
  simp only at hin
  omega

theorem offset_mod (hx : layout.symbol x = .ok slot) : slot.offset % 4 = 0 :=
  h.slots.aligned _ (mem_of_symbol hx)

theorem apart (hx : layout.symbol x = .ok slot) (hy : layout.symbol y = .ok slot') (hne : x ≠ y) :
    slot.offset + 4 * slot.words ≤ slot'.offset ∨ slot'.offset + 4 * slot'.words ≤ slot.offset := by
  have hmem := mem_of_symbol hx
  have hmem' := mem_of_symbol hy
  have hdiff : (x, slot) ≠ (y, slot') := fun he => hne (congrArg Prod.fst he)
  -- in either order of the two
  let R (p q : String × SymbolLayout) : Prop :=
    p.2.offset + 4 * p.2.words ≤ q.2.offset ∨ q.2.offset + 4 * q.2.words ≤ p.2.offset
  have hR : Std.Symm R := ⟨fun _ _ => Or.symm⟩
  have hpair : layout.symbols.Pairwise R := h.slots.apart.imp .inl
  exact hpair.forall hmem hmem' hdiff

end FrameLayout.Wf

end YHsys.Compiler
