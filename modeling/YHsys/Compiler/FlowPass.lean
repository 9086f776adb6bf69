import YHsys.Compiler.Execution
import YHsys.Compiler.KnownConsts

/-!
# Unreachable code, idle jumps and labels

`_remove_unreachable_code` keeps the instructions that a search from the first one visits.
The visited set is closed: whatever can follow a visited instruction is visited, or lies
past the end. So a run never leaves it. `_cleanup_control_flow` drops jumps to the next
instruction and labels nobody jumps to, again and again.
-/

namespace YHsys.Compiler

open Flat (OutRel Follows Pass KeepsLabels UniqueLabels)

variable {V : Type} {S : OpSem V} {call : String → List V → Beh (Event V) V} {code : List Instr}

/-! ## Where control can go -/

theorem labelToIndex_some {l : Label} {q : ℕ} (h : labelToIndex code l = some q) :
    code[q]? = some (.label l) := by
  have hmem := List.mem_of_getLast? h
  rw [List.mem_filter] at hmem
  exact of_decide_eq_true hmem.2

theorem labelToIndex_eq (hu : UniqueLabels code) (l : Label) :
    labelToIndex code l = Flat.find code l := by
  cases h : labelToIndex code l with
  | some q => exact (Flat.find_eq hu (labelToIndex_some h)).symm
  | none =>
    rw [labelToIndex, List.getLast?_eq_none_iff, List.filter_eq_nil_iff] at h
    cases hf : Flat.find code l with
    | none => rfl
    | some q =>
      have hq := Flat.find_some hf
      have hlt := (List.getElem?_eq_some_iff.mp hq).1
      exact absurd (decide_eq_true hq) (h q (List.mem_range.mpr hlt))

theorem successors_length_le (idx : ℕ) (ins : Instr) : (successors code idx ins).length ≤ 2 := by
  cases ins with
  | act a =>
    simp only [successors]
    split <;> simp
  | label l => simp [successors]
  | goto l => cases h : labelToIndex code l <;> simp [successors, h]
  | ifGoto c l => cases h : labelToIndex code l <;> simp [successors, h]

theorem act_exits {cs : List IrConstant} {a : Action} (ha : a.exits = true) {σ : Store V}
    {t : List (Event V)} {o : Ended V} (h : (act S call cs a σ).Obs t (some o)) :
    ∃ v, o = .returned v := by
  cases a with
  | sysExitExpr e | returnExpr e =>
    obtain ⟨_, _, v, -, -, h⟩ := Beh.obs_bind_some.mp h
    exact ⟨v, (Beh.obs_pure_some.mp h).2⟩
  | _ => cases ha

/-! ## The search -/

/-- What `visited` and `worklist` satisfy while the search runs. -/
structure Exploring (code : List Instr) (worklist visited : List ℕ) : Prop where
  nodup : visited.Nodup
  bound : ∀ i ∈ visited, i < code.length
  closed : ∀ {i : ℕ} {ins : Instr} {j : ℕ}, i ∈ visited → code[i]? = some ins →
    j ∈ successors code i ins → j ∈ visited ∨ j ∈ worklist ∨ code.length ≤ j

namespace Exploring

variable {worklist visited : List ℕ} {idx : ℕ}

theorem skip (h : Exploring code (idx :: worklist) visited)
    (hidx : idx ∈ visited ∨ code.length ≤ idx) : Exploring code worklist visited where
  nodup := h.nodup
  bound := h.bound
  closed := by
    intro i ins j hi hins hj
    rcases h.closed hi hins hj with hj | hj | hj
    · exact .inl hj
    · rcases List.mem_cons.mp hj with rfl | hj
      · exact hidx.imp_right .inr
      · exact .inr (.inl hj)
    · exact .inr (.inr hj)

theorem add (h : Exploring code (idx :: worklist) visited) {ins : Instr}
    (hins : code[idx]? = some ins) (hnew : idx ∉ visited) :
    Exploring code (successors code idx ins ++ worklist) (idx :: visited) where
  nodup := List.nodup_cons.mpr ⟨hnew, h.nodup⟩
  bound := by
    intro i hi
    rcases List.mem_cons.mp hi with rfl | hi
    · exact (List.getElem?_eq_some_iff.mp hins).1
    · exact h.bound i hi
  closed := by
    intro i ins' j hi hins' hj
    rcases List.mem_cons.mp hi with rfl | hi
    · cases hins.symm.trans hins'
      exact .inr (.inl (List.mem_append_left _ hj))
    · rcases h.closed hi hins' hj with hj | hj | hj
      · exact .inl (List.mem_cons_of_mem _ hj)
      · rcases List.mem_cons.mp hj with rfl | hj
        · exact .inl List.mem_cons_self
        · exact .inr (.inl (List.mem_append_right _ hj))
      · exact .inr (.inr hj)

theorem length_le (h : Exploring code worklist visited) : visited.length ≤ code.length := by
  have hsub : visited ⊆ List.range code.length := fun i hi => List.mem_range.mpr (h.bound i hi)
  simpa using (h.nodup.subperm hsub).length_le

end Exploring

theorem visit_spec (n : ℕ) : ∀ {worklist visited : List ℕ}, Exploring code worklist visited →
    worklist.length + 2 * (code.length - visited.length) ≤ n →
    Exploring code [] (visit code n worklist visited) ∧
      (∀ i ∈ visited, i ∈ visit code n worklist visited) ∧
      ∀ i ∈ worklist, i ∈ visit code n worklist visited ∨ code.length ≤ i := by
  induction n with
  | zero =>
    intro worklist visited h hn
    obtain rfl : worklist = [] := List.length_eq_zero_iff.mp (by omega)
    exact ⟨h, fun _ hi => hi, by simp⟩
  | succ n ih =>
    intro worklist visited h hn
    cases worklist with
    | nil => exact ⟨h, fun _ hi => hi, by simp⟩
    | cons idx worklist =>
      rw [List.length_cons] at hn
      -- the entry is old: the search goes on with the others
      have hskip : idx ∈ visited ∨ code.length ≤ idx →
          Exploring code [] (visit code n worklist visited) ∧
            (∀ i ∈ visited, i ∈ visit code n worklist visited) ∧
            ∀ i ∈ idx :: worklist, i ∈ visit code n worklist visited ∨ code.length ≤ i := by
        intro hidx
        obtain ⟨hex, hv, hw⟩ := ih (h.skip hidx) (by omega)
        refine ⟨hex, hv, fun i hi => ?_⟩
        rcases List.mem_cons.mp hi with rfl | hi
        · exact hidx.imp_left (hv i)
        · exact hw i hi
      cases hins : code[idx]? with
      | none =>
        simp only [visit, hins]
        exact hskip (.inr (List.getElem?_eq_none_iff.mp hins))
      | some ins =>
        simp only [visit, hins]
        split_ifs with hold
        · exact hskip (.inl hold)
        · have hnew := h.add hins hold
          have hle := hnew.length_le
          have hsucc : (successors code idx ins).length ≤ 2 := successors_length_le idx ins
          obtain ⟨hex, hv, hw⟩ := ih hnew (by
            rw [List.length_append, List.length_cons]
            rw [List.length_cons] at hle
            omega)
          refine ⟨hex, fun i hi => hv i (List.mem_cons_of_mem _ hi), fun i hi => ?_⟩
          rcases List.mem_cons.mp hi with rfl | hi
          · exact .inl (hv _ List.mem_cons_self)
          · exact hw i (List.mem_append_right _ hi)

theorem exploring_start (code : List Instr) : Exploring code [0] [] :=
  ⟨.nil, by simp, by simp⟩

theorem reachable_spec (code : List Instr) : Exploring code [] (reachable code) ∧
    ∀ i ∈ [0], i ∈ reachable code ∨ code.length ≤ i := by
  obtain ⟨hex, -, hw⟩ :=
    visit_spec (2 * code.length + 1) (exploring_start code) (by simp; omega)
  exact ⟨hex, hw⟩

theorem zero_reachable (code : List Instr) : 0 ∈ reachable code ∨ code.length ≤ 0 :=
  (reachable_spec code).2 0 (by simp)

theorem reachable_closed {i j : ℕ} {ins : Instr} (hi : i ∈ reachable code)
    (hins : code[i]? = some ins) (hj : j ∈ successors code i ins) :
    j ∈ reachable code ∨ code.length ≤ j :=
  ((reachable_spec code).1.closed hi hins hj).imp_right fun h => h.resolve_left (by simp)

/-! ## Unreachable code -/

theorem keepReachable_get (i : ℕ) : (keepReachable code)[i]? =
    code[i]?.map fun ins => if i ∈ reachable code then some ins else none := by
  simp [keepReachable]

theorem keepReachable_some {i : ℕ} {ins : Instr} (h : (keepReachable code)[i]? = some (some ins)) :
    code[i]? = some ins ∧ i ∈ reachable code := by
  rw [keepReachable_get, Option.map_eq_some_iff] at h
  obtain ⟨ins', hins, h⟩ := h
  split_ifs at h with hi
  cases h
  exact ⟨hins, hi⟩

theorem keepReachable_of_mem {i : ℕ} {ins : Instr} (h : code[i]? = some ins)
    (hi : i ∈ reachable code) : (keepReachable code)[i]? = some (some ins) := by
  simp [keepReachable_get, h, hi]

theorem reachable_jump (hu : UniqueLabels code) {i q : ℕ} {ins : Instr} {l : Label}
    (hi : i ∈ reachable code) (hins : code[i]? = some ins)
    (hjump : ins = .goto l ∨ ∃ c, ins = .ifGoto c l) (hq : Flat.find code l = some q) :
    q ∈ reachable code := by
  have hj : q ∈ successors code i ins := by
    rcases hjump with rfl | ⟨c, rfl⟩ <;> simp [successors, labelToIndex_eq hu, hq]
  refine (reachable_closed hi hins hj).resolve_right ?_
  exact not_le.mpr (List.getElem?_eq_some_iff.mp (Flat.find_some hq)).1

theorem keepReachable_labels (hu : UniqueLabels code) : KeepsLabels code (keepReachable code) where
  unique := hu
  length := by simp [keepReachable]
  old h := (keepReachable_some h).1
  goto h hq := by
    obtain ⟨hins, hi⟩ := keepReachable_some h
    exact keepReachable_of_mem hq (reachable_jump hu hi hins (.inl rfl) (Flat.find_eq hu hq))
  ifGoto h hq := by
    obtain ⟨hins, hi⟩ := keepReachable_some h
    exact keepReachable_of_mem hq (reachable_jump hu hi hins (.inr ⟨_, rfl⟩) (Flat.find_eq hu hq))

theorem keepReachable_pass (hu : UniqueLabels code) (cs : List IrConstant) :
    Pass (irSem S call cs) (irSem S call cs) code (keepReachable code)
      (fun i σ σ' => σ = σ' ∧ (i ∈ reachable code ∨ code.length ≤ i)) (fun σ σ' => σ = σ') where
  labels := keepReachable_labels hu
  ends h _ := h.1
  follows := by
    rintro i ins y σ _ ⟨rfl, hreach⟩ hins hy
    have hi : i ∈ reachable code :=
      hreach.resolve_right (not_le.mpr (List.getElem?_eq_some_iff.mp hins).1)
    rw [keepReachable_of_mem hins hi, Option.some.injEq] at hy
    subst hy
    have hnext : i + 1 ∈ successors code i ins →
        σ = σ ∧ (i + 1 ∈ reachable code ∨ code.length ≤ i + 1) :=
      fun h => ⟨rfl, reachable_closed hi hins h⟩
    cases ins with
    | label l => exact .label (hnext (by simp [successors]))
    | goto l =>
      exact .goto fun q hq => ⟨rfl, .inl (reachable_jump hu hi hins (.inl rfl) hq)⟩
    | ifGoto c l =>
      exact .ifGoto rfl (fun q hq => ⟨rfl, .inl (reachable_jump hu hi hins (.inr ⟨c, rfl⟩) hq)⟩)
        (hnext (by simp [successors]))
    | act a =>
      refine .act (.of_obs fun t o ho => ?_)
      cases o with
      | returned v => exact .returned v
      | normal τ =>
        have hexit : a.exits = false := by
          by_contra hexit
          obtain ⟨v, hv⟩ := act_exits (by simpa using hexit) ho
          cases hv
        exact .normal ⟨rfl, reachable_closed hi hins (by simp [successors, hexit])⟩

/-! ## Idle jumps -/

theorem keepJumps_get (i : ℕ) : (keepJumps code)[i]? =
    code[i]?.map fun ins => if isIdleJump code i ins then none else some ins := by
  simp [keepJumps]

theorem keepJumps_some {i : ℕ} {ins : Instr} (h : (keepJumps code)[i]? = some (some ins)) :
    code[i]? = some ins := by
  rw [keepJumps_get, Option.map_eq_some_iff] at h
  obtain ⟨ins', hins, h⟩ := h
  split_ifs at h
  cases h
  exact hins

theorem keepJumps_label {i : ℕ} {l : Label} (h : code[i]? = some (.label l)) :
    (keepJumps code)[i]? = some (some (.label l)) := by
  simp [keepJumps_get, h, isIdleJump]

theorem keepJumps_pass (hu : UniqueLabels code) (cs : List IrConstant) :
    Pass (irSem S call cs) (irSem S call cs) code (keepJumps code)
      (fun _ σ σ' => σ = σ') (fun σ σ' => σ = σ') where
  labels := ⟨hu, by simp [keepJumps], fun h => keepJumps_some h, fun _ h => keepJumps_label h,
    fun _ h => keepJumps_label h⟩
  ends h _ := h
  follows := by
    rintro i ins y σ _ rfl hins hy
    rw [keepJumps_get, hins, Option.map_some, Option.some.injEq] at hy
    subst hy
    cases ins with
    | label l => exact .label rfl
    | goto l =>
      by_cases hidle : code[i + 1]? = some (.label l)
      · simp only [isIdleJump, hidle, decide_true, if_true]
        exact .skipGoto (Flat.find_eq hu hidle) rfl
      · simp only [isIdleJump, hidle, decide_false, Bool.false_eq_true, if_false]
        exact .goto fun _ _ => rfl
    | ifGoto c l => exact .ifGoto rfl (fun _ _ => rfl) rfl
    | act a =>
      refine .act (.of_obs fun t o _ => ?_)
      cases o with
      | normal τ => exact .normal rfl
      | returned v => exact .returned v

/-! ## Labels -/

theorem keepLabels_get (i : ℕ) : (keepLabels code)[i]? = code[i]?.map (keepLabel code) := by
  simp [keepLabels]

theorem keepLabels_some {i : ℕ} {ins : Instr} (h : (keepLabels code)[i]? = some (some ins)) :
    code[i]? = some ins := by
  rw [keepLabels_get, Option.map_eq_some_iff] at h
  obtain ⟨ins', hins, h⟩ := h
  cases ins' with
  | label l =>
    rw [keepLabel] at h
    split_ifs at h
    cases h
    exact hins
  | _ =>
    cases h
    exact hins

theorem isTarget_of_jump {i : ℕ} {ins : Instr} {l : Label} (h : code[i]? = some ins)
    (hjump : ins = .goto l ∨ ∃ c, ins = .ifGoto c l) : isTarget code l = true := by
  refine List.any_eq_true.mpr ⟨ins, List.mem_of_getElem? h, ?_⟩
  rcases hjump with rfl | ⟨c, rfl⟩ <;> simp

theorem keepLabels_pass (hu : UniqueLabels code) (cs : List IrConstant) :
    Pass (irSem S call cs) (irSem S call cs) code (keepLabels code)
      (fun _ σ σ' => σ = σ') (fun σ σ' => σ = σ') where
  labels := by
    refine ⟨hu, by simp [keepLabels], fun h => keepLabels_some h, fun {i q l} h hq => ?_,
      fun {i q c l} h hq => ?_⟩
    · simp [keepLabels_get, hq, keepLabel, isTarget_of_jump (keepLabels_some h) (.inl rfl)]
    · simp [keepLabels_get, hq, keepLabel, isTarget_of_jump (keepLabels_some h) (.inr ⟨c, rfl⟩)]
  ends h _ := h
  follows := by
    rintro i ins y σ _ rfl hins hy
    rw [keepLabels_get, hins, Option.map_some, Option.some.injEq] at hy
    subst hy
    cases ins with
    | label l =>
      rw [keepLabel]
      split_ifs
      · exact .label rfl
      · exact .skipLabel rfl
    | goto l => exact .goto fun _ _ => rfl
    | ifGoto c l => exact .ifGoto rfl (fun _ _ => rfl) rfl
    | act a =>
      refine .act (.of_obs fun t o _ => ?_)
      cases o with
      | normal τ => exact .normal rfl
      | returned v => exact .returned v

/-! ## The passes -/

/-- `code'` runs as `code` does, keeps labels unique and meets the
same specifications of its rewrites. -/
structure Refines (S : OpSem V) (code code' : List Instr) : Prop where
  run : ∀ (call : String → List V → Beh (Event V) V) (cs : List IrConstant) (σ : Store V),
    runCode S call cs code' σ = runCode S call cs code σ
  unique : UniqueLabels code'
  folds : ∀ {F : FoldSpec}, CodeOk F code → CodeOk F code'

theorem Refines.refl (hu : UniqueLabels code) : Refines S code code :=
  ⟨fun _ _ _ => rfl, hu, fun h => h⟩

theorem Refines.trans {code1 code2 code3 : List Instr} (h : Refines S code1 code2)
    (h' : Refines S code2 code3) : Refines S code1 code3 where
  run call cs σ := (h'.run call cs σ).trans (h.run call cs σ)
  unique := h'.unique
  folds hF := h'.folds (h.folds hF)

theorem runCode_eq {cs : List IrConstant} {code' : List Instr} {σ : Store V}
    {F : Store V → Store V → Prop}
    (h : Beh.Rel (OutRel F) (Flat.run (irSem S call cs) code 0 σ)
      (Flat.run (irSem S call cs) code' 0 σ)) :
    runCode S call cs code' σ = runCode S call cs code σ := by
  simp only [runCode, map_eq_pure_bind]
  refine (Beh.Rel.eq (h.bind fun o o' ho => ?_)).symm
  cases ho with
  | normal _ => exact .refl _
  | returned v => exact .refl _

theorem Refines.of_pass {kept : List (Option Instr)} {R : ℕ → Store V → Store V → Prop}
    {F : Store V → Store V → Prop}
    (h : ∀ call cs, Pass (irSem S call cs) (irSem S call cs) code kept R F)
    (hR : ∀ σ, R 0 σ σ)
    (hk : ∀ {j : ℕ} {ins}, kept[j]? = some (some ins) → code[j]? = some ins) :
    Refines S code kept.reduceOption where
  run call cs σ := runCode_eq ((h call cs).run_rel (hR σ))
  unique := (h (fun _ _ => ⊥) []).labels.unique_new
  folds hF := hF.drop hk

theorem removeUnreachableCode_refines (hu : UniqueLabels code) :
    Refines S code (removeUnreachableCode code) :=
  .of_pass (fun _ cs => keepReachable_pass hu cs) (fun _ => ⟨rfl, zero_reachable code⟩)
    fun hj => (keepReachable_some hj).1

theorem cleanupRound_refines (hu : UniqueLabels code) : Refines S code (cleanupRound code) := by
  have hjumps : Refines S code (keepJumps code).reduceOption :=
    .of_pass (fun _ cs => keepJumps_pass hu cs) (fun _ => rfl) keepJumps_some
  exact hjumps.trans
    (.of_pass (fun _ cs => keepLabels_pass hjumps.unique cs) (fun _ => rfl) keepLabels_some)

theorem cleanupLoop_refines (n : ℕ) (hu : UniqueLabels code) :
    Refines S code (cleanupLoop n code) := by
  induction n generalizing code with
  | zero => exact .refl hu
  | succ n ih =>
    have hround := cleanupRound_refines (S := S) hu
    simp only [cleanupLoop]
    split_ifs
    · exact hround
    · exact hround.trans (ih hround.unique)

theorem cleanupControlFlow_refines (hu : UniqueLabels code) :
    Refines S code (cleanupControlFlow code) := cleanupLoop_refines _ hu

end YHsys.Compiler
