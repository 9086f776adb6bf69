import YHsys.Cpu.Stages

/-!
# Memory-operation codes from decode to memory

`id_stage` writes the width of an access into `id_mem_op`; `es_stage` hands the two bits on;
`ms_stage` reads them as load or store. The two readings agree for bytes that are loaded and
halfwords that are stored, and for no other access.
-/

namespace YHsys.Cpu

/-- LB, LH, LW, LBU, LHU. -/
def IsLoad (w : BitVec 32) : Prop :=
  opcodeOf w = some .load ∧ (funct3Of w = 0 ∨ funct3Of w = 1 ∨ funct3Of w = 2 ∨ funct3Of w = 4 ∨
    funct3Of w = 5)

/-- SB, SH, SW. -/
def IsStore (w : BitVec 32) : Prop :=
  opcodeOf w = some .store ∧ (funct3Of w = 0 ∨ funct3Of w = 1 ∨ funct3Of w = 2)

/-- What a load leaves in its register: the low byte, halfword or word that was read, extended by
its sign or, if bit 2 of `funct3` is set, by zeros. -/
def loadValue (funct3 : BitVec 3) (data : BitVec 32) : BitVec 32 :=
  let width := 8 * 2 ^ (funct3.extractLsb' 0 2).toNat
  if funct3.getLsbD 2 then (data.extractLsb' 0 width).setWidth 32
  else (data.extractLsb' 0 width).signExtend 32

/-- The access of an instruction that reaches `ms_stage`: it writes exactly if it is a store, its
result is the extended word exactly if it is a load, and the ALU's otherwise. -/
def AccessAgrees (w : BitVec 32) : Prop :=
  ∀ (pc : BitVec 32) (regfile : BitVec 5 → BitVec 32) (i : MsIn), i.mmuReady = true →
    i.mmuExcpEn = false →
    let ex := exNext true w pc regfile
    (dmemWe ex i = true ↔ IsStore w) ∧
    (IsLoad w → msResult ex i = loadValue (funct3Of w) i.dmemRdata) ∧
    (¬ IsLoad w → msResult ex i = ex.aluResult)

/-- Accesses whose width is coded as `ms_stage` codes their kind: of the loads LB and LBU, of the
stores SH. -/
def WidthIsKind (w : BitVec 32) : Prop :=
  (opcodeOf w = some .load → funct3Of w = 0 ∨ funct3Of w = 4) ∧
  (opcodeOf w = some .store → funct3Of w = 1)

instance (w : BitVec 32) : Decidable (WidthIsKind w) := by
  unfold WidthIsKind
  infer_instance

section

variable {w : BitVec 32} {pc : BitVec 32} {regfile : BitVec 5 → BitVec 32} {i : MsIn}

theorem dmemWe_exNext (hillegal : (idControl w).illegal = false) (hready : i.mmuReady = true)
    (hexcp : i.mmuExcpEn = false) :
    dmemWe (exNext true w pc regfile) i =
      ((idControl w).memEn && (idControl w).memOp == memOpStore) := by
  simp only [dmemWe, exNext, idExcpEn, hillegal, hready, hexcp, Bool.and_false, Bool.not_false,
    Bool.and_true, Bool.true_and]
  cases (idControl w).memEn <;> simp

theorem accessAgrees_of_memEn (hillegal : (idControl w).illegal = false)
    (hmem : (idControl w).memEn = false) (hload : ¬ IsLoad w) (hstore : ¬ IsStore w) :
    AccessAgrees w := by
  intro pc regfile i hready hexcp
  refine ⟨?_, fun h => absurd h hload, fun _ => ?_⟩
  · rw [dmemWe_exNext hillegal hready hexcp, hmem]
    simpa using hstore
  · have hen : (exNext true w pc regfile).memEn = false := hmem
    simp only [msResult, hen, Bool.false_and]
    rfl

theorem accessAgrees_load (hop : opcodeOf w = some .load)
    (hf : funct3Of w = 0 ∨ funct3Of w = 4) : AccessAgrees w := by
  have hload : IsLoad w := ⟨hop, by tauto⟩
  have hstore : ¬ IsStore w := fun h => by cases hop.symm.trans h.1
  have hop' : (idControl w).memOp = memOpLoad := by
    rcases hf with hf | hf <;> simp only [idControl, hop, hf] <;> rfl
  have hlegal : (idControl w).illegal = false := by
    rcases hf with hf | hf <;> simp only [idControl, hop, hf] <;> rfl
  have hen : (idControl w).memEn = true := by simp only [idControl, hop]
  have hf3 : (idControl w).funct3 = funct3Of w := by simp only [idControl, hop]
  intro pc regfile i hready hexcp
  refine ⟨?_, fun _ => ?_, fun h => absurd hload h⟩
  · rw [dmemWe_exNext hlegal hready hexcp, hop']
    simp only [hen, Bool.true_and]
    exact ⟨fun h => absurd h (by decide), fun h => absurd h hstore⟩
  · have h1 : (exNext true w pc regfile).memEn = true := hen
    have h2 : (exNext true w pc regfile).memOp = memOpLoad := hop'
    have h3 : (exNext true w pc regfile).funct3 = funct3Of w := hf3
    simp only [msResult, loadDataFinal, h1, h2, h3, hready, hexcp]
    rcases hf with hf | hf <;> rw [hf] <;> rfl

theorem accessAgrees_store (hop : opcodeOf w = some .store) (hf : funct3Of w = 1) :
    AccessAgrees w := by
  have hstore : IsStore w := ⟨hop, by tauto⟩
  have hload : ¬ IsLoad w := fun h => by cases hop.symm.trans h.1
  have hop' : (idControl w).memOp = memOpStore := by simp only [idControl, hop, hf]; rfl
  have hlegal : (idControl w).illegal = false := by simp only [idControl, hop, hf]; rfl
  have hen : (idControl w).memEn = true := by simp only [idControl, hop]
  intro pc regfile i hready hexcp
  refine ⟨?_, fun h => absurd h hload, fun _ => ?_⟩
  · rw [dmemWe_exNext hlegal hready hexcp, hop', hen]
    exact ⟨fun _ => hstore, fun _ => rfl⟩
  · have h2 : (exNext true w pc regfile).memOp = memOpStore := hop'
    simp only [msResult, h2]
    rw [if_neg (by simp [memOpStore, memOpLoad])]

theorem not_accessAgrees_load (hop : opcodeOf w = some .load)
    (hlegal : (idControl w).illegal = false) (hf : ¬ (funct3Of w = 0 ∨ funct3Of w = 4)) :
    ¬ AccessAgrees w := by
  intro h
  have hen : (idControl w).memEn = true := by simp only [idControl, hop]
  have hstore : ¬ IsStore w := fun h => by cases hop.symm.trans h.1
  have hload : IsLoad w ∧ (idControl w).memOp ≠ memOpLoad := by
    rcases funct3_cases (funct3Of w) with hf' | hf' | hf' | hf' | hf' | hf' | hf' | hf' <;>
      simp_all [IsLoad, idControl, memOpLoad, memOpH, memOpW]
  -- the ALU's result is returned, whatever has been read
  obtain ⟨-, h0, -⟩ := h 0 (fun _ => 0) ⟨true, false, 0⟩ rfl rfl
  obtain ⟨-, h1, -⟩ := h 0 (fun _ => 0) ⟨true, false, 1⟩ rfl rfl
  have hsame : ∀ d, msResult (exNext true w 0 fun _ => 0) ⟨true, false, d⟩ =
      (exNext true w 0 fun _ => 0).aluResult := by
    intro d
    have h2 : (exNext true w 0 fun _ => 0).memOp ≠ memOpLoad := hload.2
    simp only [msResult, beq_eq_false_iff_ne.mpr h2, Bool.and_false]
    rfl
  have heq := (h0 hload.1).symm.trans ((hsame 0).trans ((hsame 1).symm.trans (h1 hload.1)))
  rcases hload.1.2 with hf' | hf' | hf' | hf' | hf' <;> rw [hf'] at heq <;>
    exact absurd heq (by decide)

theorem not_accessAgrees_store (hop : opcodeOf w = some .store)
    (hlegal : (idControl w).illegal = false) (hf : funct3Of w ≠ 1) : ¬ AccessAgrees w := by
  intro h
  have hstore : IsStore w ∧ (idControl w).memOp ≠ memOpStore := by
    rcases funct3_cases (funct3Of w) with hf' | hf' | hf' | hf' | hf' | hf' | hf' | hf' <;>
      simp_all [IsStore, idControl, memOpStore, memOpB, memOpW]
  obtain ⟨hwe, -⟩ := h 0 (fun _ => 0) ⟨true, false, 0⟩ rfl rfl
  have htrue := hwe.mpr hstore.1
  rw [dmemWe_exNext hlegal rfl rfl, beq_eq_false_iff_ne.mpr hstore.2, Bool.and_false] at htrue
  cases htrue

end

/-- The stages agree on the meaning of the codes of an instruction that raises no exception
exactly if the instruction is not an access whose width is coded as another kind. -/
theorem mem_op_codes_agree {w : BitVec 32} (hlegal : (idControl w).illegal = false) :
    AccessAgrees w ↔ WidthIsKind w := by
  cases hop : opcodeOf w with
  | none =>
    simp only [idControl, hop] at hlegal
    cases hlegal
  | some op =>
    by_cases hload : op = .load
    · subst hload
      constructor
      · intro h
        refine ⟨fun _ => ?_, fun hst => by cases hop.symm.trans hst⟩
        by_contra hf
        exact not_accessAgrees_load hop hlegal hf h
      · exact fun h => accessAgrees_load hop (h.1 hop)
    by_cases hstore : op = .store
    · subst hstore
      constructor
      · intro h
        refine ⟨fun hl => (by cases hop.symm.trans hl), fun _ => ?_⟩
        by_contra hf
        exact not_accessAgrees_store hop hlegal hf h
      · exact fun h => accessAgrees_store hop (h.2 hop)
    have hne : ∀ o, o ≠ op → opcodeOf w ≠ some o := by
      intro o ho heq
      exact ho (Option.some.inj (heq.symm.trans hop))
    refine ⟨fun _ => ⟨fun h => absurd h (hne _ (Ne.symm hload)),
      fun h => absurd h (hne _ (Ne.symm hstore))⟩, fun _ => ?_⟩
    refine accessAgrees_of_memEn hlegal ?_ (fun h => hne _ (Ne.symm hload) h.1)
      fun h => hne _ (Ne.symm hstore) h.1
    cases op <;> simp_all [idControl]

/-- `lbu x5, 0(x6)`. -/
theorem mem_op_codes_agree_lbu :
    (idControl 0x00034283).illegal = false ∧ AccessAgrees 0x00034283 :=
  ⟨by decide, (mem_op_codes_agree (by decide)).mpr (by decide)⟩

/-- `lw x5, 0(x6)` does not return the word that was read, and `sw x5, 0(x6)` does not write. -/
theorem word_access_lost :
    (idControl 0x00032283).illegal = false ∧ IsLoad 0x00032283 ∧
      msResult (exNext true 0x00032283 0 fun _ => 0) ⟨true, false, 7⟩ = 0 ∧
    (idControl 0x00532023).illegal = false ∧ IsStore 0x00532023 ∧
      dmemWe (exNext true 0x00532023 0 fun _ => 0) ⟨true, false, 7⟩ = false := by
  refine ⟨by decide, ⟨by decide, by decide⟩, by decide, by decide, ⟨by decide, by decide⟩, by decide⟩

end YHsys.Cpu
