import YHsys.Compiler.DeadStores
import YHsys.Compiler.OptimizeSound
import YHsys.Lib.FlatObserve

/-!
# All that a pass must keep

The refinements of the optimizer's passes speak of the events and the exit value of a run.
Here an observer sees more: after each operation the array that it has written, the value
of an exit and of a return as two different things, and a jump to a label that is nowhere.
Dead stores, dead branches, unreachable code and idle jumps are removed without this
observer noticing.

A run that goes past the end of the code ends in a store; passes that only remove control
flow end in the same store, and dead store elimination in one with the same arrays.
-/

namespace YHsys.Compiler

open Flat (UniqueLabels OutRel Pass Follows)

variable {V : Type} {S : OpSem V} {call : String → List V → Beh (Event V) V} {code : List Instr}

/-- What an operation has done, apart from its events. -/
inductive Effect (V : Type) where
  | array (name : String) (content : List V)
  | exit (v : V)
  | ret (v : V)
  | noLabel

def LValue.arrayName : LValue → Option String
  | .var _ => none
  | .array x _ => some x

/-- The array that an operation writes. -/
def Action.arrayName : Action → Option String
  | .assign target _ => target.arrayName
  | .arrayZero x _ => some x
  | .call _ _ target => target.bind LValue.arrayName
  | _ => none

/-- The whole array is shown after each update. As the meaning of array reads and writes is
arbitrary, the content may well be a log of indices and values. -/
def effect (a : Action) : Ended V → Option (Effect V)
  | .normal σ => a.arrayName.map fun x => .array x (σ.arrs x)
  | .returned v =>
    match a with
    | .sysExitExpr _ => some (.exit v)
    | _ => some (.ret v)

/-- The meaning of IR code with all its effects shown. -/
def effectSem (S : OpSem V) (call : String → List V → Beh (Event V) V) (cs : List IrConstant) :
    Flat.Sem (Event V ⊕ Effect V) Action Expr (Store V) V :=
  (irSem S call cs).observe effect .noLabel

theorem effect_congr {R : Store V → Store V → Prop} {a : Action} {o o' : Ended V}
    (h : OutRel R o o') (hR : ∀ σ σ', R σ σ' → σ.arrs = σ'.arrs) : effect a o = effect a o' := by
  cases h with
  | normal h => simp only [effect, hR _ _ h]
  | returned v => rfl

theorem pass_effects {kept : List (Option Instr)} {R : ℕ → Store V → Store V → Prop}
    {F : Store V → Store V → Prop} {cs : List IrConstant}
    (h : Pass (irSem S call cs) (irSem S call cs) code kept R F)
    (hR : ∀ i σ σ', R i σ σ' → σ.arrs = σ'.arrs)
    (hkeep : ∀ {i : ℕ} {a a' : Action}, code[i]? = some (.act a) →
      kept[i]? = some (some (.act a')) → a' = a)
    (hdrop : ∀ {i : ℕ} {a : Action} {σ σ' : Store V}, R i σ σ' → code[i]? = some (.act a) →
      kept[i]? = some none → a.arrayName = none) :
    Pass (effectSem S call cs) (effectSem S call cs) code kept R F := by
  refine h.observe (fun hi hk ho => ?_) fun hRi hi hk => ?_
  · rw [hkeep hi hk]
    exact effect_congr ho (hR _)
  · simp only [effect, hdrop hRi hi hk, Option.map_none]

/-! ## Dead stores -/

theorem keepStores_effects (hS : S.Safe) (hu : UniqueLabels code) (cs : List IrConstant) :
    Pass (effectSem S call cs) (effectSem S call cs) code (keepStores code) (SameLive code)
      (fun σ σ' => σ.arrs = σ'.arrs) := by
  refine pass_effects (keepStores_pass hS hu cs) (fun _ _ _ h => h.1) (fun hi hk => ?_)
    fun _ hi hk => ?_
  · have := keepStores_some hk
    rw [hi] at this
    cases this
    rfl
  · rw [keepStores_get, hi, Option.map_some, Option.some.injEq] at hk
    split_ifs at hk with hdead
    -- only assignments to variables are dropped
    unfold isDeadStore at hdead
    split at hdead
    · rename_i heq
      cases heq
      rfl
    · cases hdead

/-- Removing dead stores keeps the writes, pauses, calls, array updates and the exit or
return value of every run, and where the code falls off its end the arrays. -/
theorem removeDeadStores_sound (hS : S.Safe) (hu : UniqueLabels code)
    (call : String → List V → Beh (Event V) V) (cs : List IrConstant) (σ : Store V) :
    Beh.Rel (OutRel fun τ τ' => τ.arrs = τ'.arrs)
      (Flat.run (effectSem S call cs) code 0 σ)
      (Flat.run (effectSem S call cs) (removeDeadStores code) 0 σ) :=
  (keepStores_effects hS hu cs).run_rel ⟨rfl, fun _ _ => rfl⟩

/-- `x = 1; while (1) { print_int(2); }`. -/
def deadStoreLoop : List Instr :=
  [.act (.assign (.var "x") (.int 1)), .label ⟨"main", .whileBody, 0⟩,
    .act (.sysWriteExpr (.int 2)), .goto ⟨"main", .whileBody, 0⟩]

theorem removeDeadStores_sound_loop :
    removeDeadStores deadStoreLoop = deadStoreLoop.tail ∧
      ∀ (call : String → List (BitVec 32) → Beh (Event (BitVec 32)) (BitVec 32)) σ,
        Beh.Rel (OutRel fun τ τ' => τ.arrs = τ'.arrs)
          (Flat.run (effectSem sem32 call []) deadStoreLoop 0 σ)
          (Flat.run (effectSem sem32 call []) (removeDeadStores deadStoreLoop) 0 σ) :=
  have hu : UniqueLabels deadStoreLoop := Flat.uniqueLabels_of_nodup (List.nodup_singleton _)
  ⟨by decide +kernel, fun call σ => removeDeadStores_sound sem32_total.safe hu call [] σ⟩

/-! ## Control flow -/

/-- `code'` does all that `code` does and ends as it does, and a label that it jumps to is
defined if it was. -/
structure SameOutcome (S : OpSem V) (code code' : List Instr) : Prop where
  run : ∀ (call : String → List V → Beh (Event V) V) (cs : List IrConstant) (σ : Store V),
    Flat.run (effectSem S call cs) code' 0 σ = Flat.run (effectSem S call cs) code 0 σ
  unique : UniqueLabels code'
  target : ∀ l, isTarget code' l = true → isTarget code l = true
  defined : ∀ l, isTarget code' l = true → .label l ∈ code → .label l ∈ code'

theorem SameOutcome.refl (hu : UniqueLabels code) : SameOutcome S code code :=
  ⟨fun _ _ _ => rfl, hu, fun _ h => h, fun _ _ h => h⟩

theorem SameOutcome.trans {code1 code2 code3 : List Instr} (h : SameOutcome S code1 code2)
    (h' : SameOutcome S code2 code3) : SameOutcome S code1 code3 where
  run call cs σ := (h'.run call cs σ).trans (h.run call cs σ)
  unique := h'.unique
  target l hl := h.target l (h'.target l hl)
  defined l hl hdef := h'.defined l hl (h.defined l (h'.target l hl) hdef)

theorem exists_jump {l : Label} (h : isTarget code l = true) :
    ∃ (i : ℕ) (ins : Instr), code[i]? = some ins ∧ (ins = .goto l ∨ ∃ c, ins = .ifGoto c l) := by
  obtain ⟨ins, hmem, hins⟩ := List.any_eq_true.mp h
  obtain ⟨i, hi⟩ := List.getElem?_of_mem hmem
  refine ⟨i, ins, hi, ?_⟩
  cases ins with
  | goto l' => exact .inl (by simpa using hins)
  | ifGoto c l' => exact .inr ⟨c, by simpa using hins⟩
  | act a => simp at hins
  | label l' => simp at hins

theorem SameOutcome.of_pass {kept : List (Option Instr)} {R : ℕ → Store V → Store V → Prop}
    (h : ∀ call cs, Pass (irSem S call cs) (irSem S call cs) code kept R (fun σ σ' => σ = σ'))
    (hR : ∀ i σ σ', R i σ σ' → σ = σ') (hstart : ∀ σ, R 0 σ σ)
    (hkeep : ∀ {i : ℕ} {ins : Instr}, kept[i]? = some (some ins) → code[i]? = some ins ∨
      ∃ c l, ins = .goto l ∧ code[i]? = some (.ifGoto c l))
    (hdrop : ∀ {i : ℕ} {a : Action} {σ σ' : Store V}, R i σ σ' → code[i]? = some (.act a) →
      kept[i]? ≠ some none) :
    SameOutcome S code kept.reduceOption := by
  have hlabels := (h (fun _ _ => ⊥) []).labels
  have heff : ∀ call cs, Pass (effectSem S call cs) (effectSem S call cs) code kept R
      (fun σ σ' => σ = σ') := by
    intro call cs
    refine pass_effects (h call cs) (fun i σ σ' hσ => by rw [hR i σ σ' hσ]) (fun hi hk => ?_)
      fun hσ hi hk => absurd hk (hdrop hσ hi)
    rcases hkeep hk with hi' | ⟨c, l, hins, -⟩
    · rw [hi] at hi'
      cases hi'
      rfl
    · cases hins
  refine ⟨fun call cs σ => ?_, hlabels.unique_new, fun l hl => ?_, fun l hl hdef => ?_⟩
  · have hrel := (heff call cs).run_rel (hstart σ)
    refine (Beh.Rel.eq (hrel.mono fun o o' ho => ?_)).symm
    cases ho with
    | normal hσ => rw [hσ]
    | returned v => rfl
  · -- a jump that is left was a jump to the same label
    obtain ⟨p, ins, hp, hins⟩ := exists_jump hl
    obtain ⟨i, hi, -⟩ := Flat.exists_newPos hp
    rcases hkeep hi with hi' | ⟨c, l', rfl, hi'⟩
    · exact isTarget_of_jump hi' hins
    · rcases hins with hins | ⟨c', hins⟩
      · cases hins
        exact isTarget_of_jump hi' (.inr ⟨c, rfl⟩)
      · cases hins
  · obtain ⟨p, ins, hp, hins⟩ := exists_jump hl
    obtain ⟨i, hi, -⟩ := Flat.exists_newPos hp
    obtain ⟨q, hq⟩ := List.getElem?_of_mem hdef
    have hq' : kept[q]? = some (some (.label l)) := by
      rcases hins with rfl | ⟨c, rfl⟩
      · exact hlabels.goto hi hq
      · exact hlabels.ifGoto hi hq
    exact List.mem_of_getElem? (Flat.get_newPos hq')

/-! ### Dead branches -/

theorem keepBranches_some {i : ℕ} {ins : Instr}
    (h : (code.map pruneBranch)[i]? = some (some ins)) : code[i]? = some ins ∨
      ∃ c l, ins = .goto l ∧ code[i]? = some (.ifGoto c l) := by
  rw [List.getElem?_map, Option.map_eq_some_iff] at h
  obtain ⟨ins', hins, h⟩ := h
  cases ins' with
  | ifGoto c l =>
    cases ht : truthyConst c with
    | none =>
      rw [pruneBranch_none ht, Option.some.injEq] at h
      exact .inl (h ▸ hins)
    | some v =>
      cases v with
      | true =>
        rw [pruneBranch_true ht, Option.some.injEq] at h
        exact .inr ⟨c, l, h.symm, hins⟩
      | false =>
        rw [pruneBranch_false ht] at h
        cases h
  | act a | label l | goto l =>
    cases h
    exact .inl hins

theorem keepBranches_pass (hu : UniqueLabels code)
    (hconst : ∀ n l, Flat.Instr.ifGoto (.int n) l ∈ code → TruthExact S n)
    (cs : List IrConstant) :
    Pass (irSem S call cs) (irSem S call cs) code (code.map pruneBranch)
      (fun _ σ σ' => σ = σ') (fun σ σ' => σ = σ') where
  labels := by
    have hlabel : ∀ {q : ℕ} {l : Label}, code[q]? = some (.label l) →
        (code.map pruneBranch)[q]? = some (some (.label l)) := by
      intro q l hq
      rw [List.getElem?_map, hq]
      rfl
    refine ⟨hu, by simp, fun hq => ?_, fun _ hq => hlabel hq, fun _ hq => hlabel hq⟩
    rcases keepBranches_some hq with hq | ⟨c, l, hins, -⟩
    · exact hq
    · cases hins
  ends h _ := h
  follows := by
    rintro i ins y σ _ rfl hins hy
    rw [List.getElem?_map, hins, Option.map_some, Option.some.injEq] at hy
    subst hy
    cases ins with
    | label l => exact .label rfl
    | goto l => exact .goto fun _ _ => rfl
    | ifGoto c l =>
      refine follows_pruneBranch rfl ?_ (fun _ _ => rfl) rfl
      rintro n rfl
      exact test_const (hconst n l (List.mem_of_getElem? hins)) rfl σ
    | act a =>
      refine .act (.of_obs fun t o _ => ?_)
      cases o with
      | normal τ => exact .normal rfl
      | returned v => exact .returned v

theorem removeDeadBranches_outcome (hu : UniqueLabels code)
    (hconst : ∀ n l, Flat.Instr.ifGoto (.int n) l ∈ code → TruthExact S n) :
    SameOutcome S code (removeDeadBranches code) := by
  refine .of_pass (fun _ cs => keepBranches_pass hu hconst cs) (fun _ _ _ h => h) (fun _ => rfl)
    keepBranches_some fun _ hi hk => ?_
  rw [List.getElem?_map, hi] at hk
  cases hk

/-! ### Unreachable code, idle jumps and labels -/

theorem removeUnreachableCode_outcome (hu : UniqueLabels code) :
    SameOutcome S code (removeUnreachableCode code) := by
  refine .of_pass (fun _ cs => keepReachable_pass hu cs) (fun _ _ _ h => h.1)
    (fun _ => ⟨rfl, zero_reachable code⟩) (fun hk => .inl (keepReachable_some hk).1)
    fun hR hi hk => ?_
  have hreach := hR.2.resolve_right (not_le.mpr (List.getElem?_eq_some_iff.mp hi).1)
  rw [keepReachable_of_mem hi hreach] at hk
  cases hk

theorem cleanupRound_outcome (hu : UniqueLabels code) :
    SameOutcome S code (cleanupRound code) := by
  have hjumps : SameOutcome S code (keepJumps code).reduceOption := by
    refine .of_pass (fun _ cs => keepJumps_pass hu cs) (fun _ _ _ h => h) (fun _ => rfl)
      (fun hk => .inl (keepJumps_some hk)) fun _ hi hk => ?_
    simp [keepJumps_get, hi, isIdleJump] at hk
  refine hjumps.trans (.of_pass (fun _ cs => keepLabels_pass hjumps.unique cs)
    (fun _ _ _ h => h) (fun _ => rfl) (fun hk => .inl (keepLabels_some hk)) fun _ hi hk => ?_)
  simp [keepLabels_get, hi, keepLabel] at hk

theorem cleanupLoop_outcome (n : ℕ) (hu : UniqueLabels code) :
    SameOutcome S code (cleanupLoop n code) := by
  induction n generalizing code with
  | zero => exact .refl hu
  | succ n ih =>
    have hround := cleanupRound_outcome (S := S) hu
    simp only [cleanupLoop]
    split_ifs
    · exact hround
    · exact hround.trans (ih hround.unique)

theorem cleanup_outcome (hu : UniqueLabels code)
    (hconst : ∀ n l, Flat.Instr.ifGoto (.int n) l ∈ code → TruthExact S n) :
    SameOutcome S code
      (cleanupControlFlow (removeUnreachableCode (removeDeadBranches code))) := by
  have hbranches := removeDeadBranches_outcome hu hconst
  have hreach := hbranches.trans (removeUnreachableCode_outcome hbranches.unique)
  exact hreach.trans (cleanupLoop_outcome _ hreach.unique)

/-- Removing dead branches and unreachable code and cleaning up the jumps keeps the events and
the outcome of every run, and every label that is still jumped to, if it was defined. -/
theorem controlFlow_sound (hu : UniqueLabels code)
    (hconst : ∀ n l, Flat.Instr.ifGoto (.int n) l ∈ code → TruthExact S n) :
    (∀ (call : String → List V → Beh (Event V) V) (cs : List IrConstant) (σ : Store V),
      Flat.run (effectSem S call cs)
          (cleanupControlFlow (removeUnreachableCode (removeDeadBranches code))) 0 σ =
        Flat.run (effectSem S call cs) code 0 σ) ∧
      ∀ l, isTarget (cleanupControlFlow (removeUnreachableCode (removeDeadBranches code))) l =
          true → .label l ∈ code →
        .label l ∈ cleanupControlFlow (removeUnreachableCode (removeDeadBranches code)) :=
  have h := cleanup_outcome hu hconst
  ⟨h.run, h.defined⟩

/-- A branch on a constant. -/
def constBranch (n : ℤ) : List Instr :=
  [.ifGoto (.int n) ⟨"main", .ifThen, 0⟩, .act (.returnExpr (.int 0)),
    .label ⟨"main", .ifThen, 0⟩, .act (.returnExpr (.int 1))]

theorem constBranch_unique (n : ℤ) : UniqueLabels (constBranch n) :=
  Flat.uniqueLabels_of_nodup (List.nodup_singleton _)

/-- A branch on 5 is always taken. -/
theorem controlFlow_sound_five :
    cleanupControlFlow (removeUnreachableCode (removeDeadBranches (constBranch 5))) =
        [.act (.returnExpr (.int 1))] ∧
      (∀ call cs σ, Flat.run (effectSem sem32 call cs)
          (cleanupControlFlow (removeUnreachableCode (removeDeadBranches (constBranch 5)))) 0 σ =
        Flat.run (effectSem sem32 call cs) (constBranch 5) 0 σ) := by
  have hfive : ∀ n l, Flat.Instr.ifGoto (.int n) l ∈ constBranch 5 → TruthExact sem32 n := by
    intro n l h
    have hn : n = 5 := by
      simp only [constBranch, List.mem_cons, Flat.Instr.ifGoto.injEq, Expr.int.injEq,
        List.not_mem_nil, or_false, reduceCtorEq] at h
      exact h.1
    subst hn
    show sem32.truthy (sem32.lit 5) = true
    decide
  exact ⟨by decide +kernel, (controlFlow_sound (constBranch_unique 5) hfive).1⟩

theorem run_return_int {cs : List IrConstant} {i : ℕ} {n : ℤ} (σ : Store V)
    (h : code[i]? = some (.act (.returnExpr (.int n)))) :
    Flat.run (effectSem S call cs) code i σ =
      Beh.emit (.inr (.ret (S.lit n))) >>= fun _ => pure (.returned (S.lit n)) := by
  rw [Flat.run_eq, Flat.step_act h]
  simp [effectSem, Flat.Sem.observe, irSem, act, eval, Flat.look, effect]

/-- On 32 bits the branch is not taken, but it is made a jump. -/
theorem controlFlow_changes_hugeBranch :
    UniqueLabels (constBranch 4294967296) ∧
      Flat.run (effectSem sem32 (fun _ _ => ⊥) []) (cleanupControlFlow
          (removeUnreachableCode (removeDeadBranches (constBranch 4294967296)))) 0
          ⟨fun _ => 0, fun _ => []⟩ ≠
        Flat.run (effectSem sem32 (fun _ _ => ⊥) []) (constBranch 4294967296) 0
          ⟨fun _ => 0, fun _ => []⟩ := by
  have hu := constBranch_unique 4294967296
  refine ⟨hu, fun heq => ?_⟩
  have hclean : cleanupControlFlow
      (removeUnreachableCode (removeDeadBranches (constBranch 4294967296))) =
        [.act (.returnExpr (.int 1))] := by decide +kernel
  have hfalse : (effectSem sem32 (fun _ _ => ⊥) []).test (.int 4294967296)
      ⟨fun _ => 0, fun _ => []⟩ = pure false := by
    have htruth : sem32.truthy (sem32.lit 4294967296) = false := by decide
    simp [effectSem, Flat.Sem.observe, irSem, test, eval, htruth]
  rw [hclean, run_return_int _ rfl, Flat.run_eq,
    Flat.step_ifGoto (c := .int 4294967296) (q := 2) hu rfl rfl, hfalse, Beh.pure_bind',
    if_neg Bool.false_ne_true, run_return_int _ rfl] at heq
  -- the run of the cleaned up code shows the return of 1
  have hshown := congrArg (fun m => m.Obs [.inr (.ret (sem32.lit 1))] none) heq
  have hone := hshown.mp (.inl ⟨.inr rfl, rfl⟩)
  obtain ⟨hzero, -⟩ | ⟨t1, t2, _, ht, hzero, ht2, -⟩ := hone
  · obtain ⟨hnil, -⟩ | hret := hzero
    · cases hnil
    · cases hret
  · subst ht2
    cases ht.trans (congrArg (· ++ []) (Beh.obs_emit_some.mp hzero))

end YHsys.Compiler
