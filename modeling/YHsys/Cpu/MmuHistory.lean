import YHsys.Cpu.Mmu

/-!
# What the MMU remembers

`pa` and `pte0` keep their values from one request to the next. A request that reads a
second-level entry overwrites both; every other request returns something of what the
requests before it left there.
-/

namespace YHsys.Cpu

/-- No request is there. -/
def MmuIn.Quiet (i : MmuIn) : Prop := i.active = false

/-- The idle states after any requests and pauses since reset. -/
inductive History : Mmu → Prop where
  | reset : History .reset
  | quiet {m : Mmu} {i : MmuIn} (h : History m) (hi : i.Quiet) : History (m.clock i)
  | serves {m m' : Mmu} {r : Request} (h : History m) (hr : Serves r m m') : History m'

theorem History.idle {m : Mmu} (h : History m) : m.state = .idle := by
  induction h with
  | reset => rfl
  | quiet h hi ih =>
    have hactive : _ = false := hi
    simp [Mmu.clock, Mmu.nextState, ih, hactive]
  | serves h hr => exact hr.result.1

namespace Request

variable (r : Request)

/-- The result of the request is the same after all histories. -/
def HistoryFree : Prop :=
  ∀ m1 m2 m1' m2', History m1 → History m2 → Serves r m1 m1' → Serves r m2 m2' →
    m1'.outcome = m2'.outcome

/-- Paging is on and both levels of the table are there. -/
def Walks : Prop := r.enabled = true ∧ r.pointer = true ∧ pteV r.pte0 = true

instance : Decidable r.Walks := inferInstanceAs (Decidable (_ ∧ _))

variable {r}

theorem Walks.outcome_eq (h : r.Walks) (m1 m2 : Mmu) : r.outcome m1 = r.outcome m2 := by
  obtain ⟨hen, hptr, hv0⟩ := h
  obtain ⟨hv1, hleaf⟩ : pteV r.pte1 = true ∧ (pteR r.pte1 || pteX r.pte1) = false := by
    simpa [pointer] using hptr
  simp [outcome, hen, hv1, hleaf, hv0, translated]

end Request

/-! ## Two histories -/

/-- An identity access, which leaves its address in `pa`. -/
def bypass (va : BitVec 32) : Request := ⟨va, .load, privU, 0, fun _ => 0⟩

/-- An access to page 5 that leaves `pte0` with all permissions. -/
def grantAll : Request :=
  ⟨0, .load, privU, 0x40000001, fun a => if a = 0x1000 then 0x801 else 0x141f⟩

theorem bypass_history (va : BitVec 32) : ∃ m, History m ∧ m.pa = va := by
  obtain ⟨m, hm⟩ := serves_exists (bypass va) (m := .reset) rfl
  obtain ⟨-, -, hout, -⟩ := hm.result
  have hbypass : ((bypass va).outcome .reset).pa = va := by
    simp [bypass, Request.outcome, Request.enabled, Request.translated, Mmu.reset, pteV]
  exact ⟨m, .serves .reset hm, (congrArg Outcome.pa hout).trans hbypass⟩

theorem grantAll_history : ∃ m, History m ∧ m.pte0 = 0x141f := by
  obtain ⟨m, hm⟩ := serves_exists grantAll (m := .reset) rfl
  obtain ⟨-, -, -, hpte0⟩ := hm.result
  exact ⟨m, .serves .reset hm, hpte0.trans (by decide)⟩

namespace Request

variable {r : Request}

theorem translated_zero (r : Request) (pa : BitVec 32) : (r.translated 0 pa).fault = true := by
  simp [translated, pteV]

theorem translated_grantAll (r : Request) (pa : BitVec 32) :
    (r.translated 0x141f pa).fault = false := by
  have hvalid : pteV 0x141f = true := by decide
  have hdenied : (r.wires 0 false).denied 0x141f = false := by
    simp [MmuIn.denied, pteX, pteR, pteW, pteU]
  simp only [translated, hvalid, hdenied, if_true, Bool.false_eq_true, if_false]

theorem outcome_of_not_walks (h : ¬ r.Walks) : (∀ m, r.outcome m = ⟨m.pa, true, 0⟩) ∨
    ∀ m, ∃ pa, r.outcome m = r.translated m.pte0 pa := by
  unfold outcome
  cases hen : r.enabled with
  | false => exact .inr fun m => ⟨r.va, rfl⟩
  | true =>
    cases hv1 : pteV r.pte1 with
    | false => exact .inl fun m => rfl
    | true =>
      cases hleaf : pteR r.pte1 || pteX r.pte1 with
      | true => exact .inr fun m => ⟨m.pa, rfl⟩
      | false =>
        have hv0 : pteV r.pte0 = false := by
          simpa [Walks, hen, pointer, hv1, hleaf] using h
        rw [hv0]
        exact .inl fun m => rfl

theorem not_historyFree (h : ¬ r.Walks) : ¬ r.HistoryFree := by
  intro hfree
  -- the results from any two histories are equal
  have heq : ∀ {m1 m2}, History m1 → History m2 → r.outcome m1 = r.outcome m2 := by
    intro m1 m2 h1 h2
    obtain ⟨m1', hs1⟩ := serves_exists r h1.idle
    obtain ⟨m2', hs2⟩ := serves_exists r h2.idle
    obtain ⟨-, -, hout1, -⟩ := hs1.result
    obtain ⟨-, -, hout2, -⟩ := hs2.result
    rw [← hout1, ← hout2]
    exact hfree _ _ _ _ h1 h2 hs1 hs2
  rcases outcome_of_not_walks h with hpa | hpte0
  · obtain ⟨m1, h1, hpa1⟩ := bypass_history 0
    obtain ⟨m2, h2, hpa2⟩ := bypass_history 1
    have hout := heq h1 h2
    rw [hpa, hpa, hpa1, hpa2] at hout
    cases hout
  · obtain ⟨m, hm, hgrant⟩ := grantAll_history
    have hout := heq .reset hm
    obtain ⟨pa1, h1⟩ := hpte0 .reset
    obtain ⟨pa2, h2⟩ := hpte0 m
    rw [h1, h2, hgrant] at hout
    have hfault := congrArg Outcome.fault hout
    rw [translated_grantAll] at hfault
    exact absurd ((translated_zero r pa1).symm.trans hfault) (by decide)

end Request

/-- The result of a request is independent of the requests before it exactly when the
request reads a valid second-level entry through a first-level pointer. -/
theorem mmu_history_free_iff (r : Request) : r.HistoryFree ↔ r.Walks := by
  constructor
  · intro hfree
    by_contra hwalks
    exact Request.not_historyFree hwalks hfree
  · intro hwalks m1 m2 m1' m2' _ _ hs1 hs2
    obtain ⟨-, -, hout1, -⟩ := hs1.result
    obtain ⟨-, -, hout2, -⟩ := hs2.result
    rw [hout1, hout2]
    exact hwalks.outcome_eq m1 m2

/-- A load through a first-level leaf entry. -/
def superpageLoad : Request := ⟨0, .load, privU, 0x40000001, fun _ => 0xdf⟩

/-- After reset the load through a superpage faults; after an ordinary access to another
page it is granted, at the address of that other page. -/
theorem superpage_leaks : ∃ m1 m2 m1' m2', History m1 ∧ History m2 ∧ Serves superpageLoad m1 m1' ∧
    Serves superpageLoad m2 m2' ∧ m1'.outcome = ⟨0, true, causeLoadPageFault⟩ ∧
    m2'.outcome = ⟨0x5000, false, 0⟩ := by
  obtain ⟨m, hm, hpte0⟩ := grantAll_history
  obtain ⟨m1', hs1⟩ := serves_exists superpageLoad (m := .reset) rfl
  obtain ⟨m2', hs2⟩ := serves_exists superpageLoad hm.idle
  obtain ⟨-, -, hout1, -⟩ := hs1.result
  obtain ⟨-, -, hout2, -⟩ := hs2.result
  refine ⟨.reset, m, m1', m2', .reset, hm, hs1, hs2, hout1.trans (by decide), hout2.trans ?_⟩
  have hleaf : superpageLoad.outcome m = superpageLoad.translated m.pte0 m.pa := rfl
  rw [hleaf, hpte0]
  rfl

end YHsys.Cpu
