import YHsys.Kernel.UserRuns

/-!
# Mapped pages and regions

In the address space of a process every page that is mapped lies in the page range of one
region and of no other. The break may stand inside a page, and an eager growth starts at the
next page, while a fault maps pages below the break; since no page at or above the rounded
break is ever mapped, neither of them meets a page that is there.
-/

namespace YHsys.Kernel

/-- The pages of a region, as `as_copy` and `uvmfree` go through them. -/
def MemRegion.HasPage (r : MemRegion) (v : ℕ) : Prop :=
  pgrounddown r.vaStart ≤ v * pgsize ∧ v * pgsize < pgroundup r.vaEnd

theorem MemRegion.hasPage_iff {r : MemRegion} {a v : ℕ} (hstart : r.vaStart = a * pgsize)
    (hend : r.vaEnd ≤ trapframe) : r.HasPage v ↔ a ≤ v ∧ v < upVpn r.vaEnd := by
  rw [HasPage, hstart, pgrounddown, mul_pgsize_div, pgroundup_eq hend, pgsize_eq]
  omega

theorem ProcLayout.page_region_unique (L : ProcLayout) {v : ℕ} (h : L.Page v) :
    ∃! r, r ∈ L.regions ∧ r.HasPage v := by
  obtain ⟨hb1, hb2, hb3, hb4⟩ := L.bounds
  have htext := L.text_le
  have hguard := L.guard_lt
  have hheap := L.heap_le_upVpn
  let text : MemRegion := ⟨0, L.text * pgsize, .text, pteR ||| pteW ||| pteX⟩
  let stack : MemRegion := ⟨L.guard * pgsize, L.heap * pgsize, .stack, pteR ||| pteW⟩
  let heap : MemRegion := ⟨L.heap * pgsize, L.brk, .heap, pteR ||| pteW⟩
  have htextPage : text.HasPage v ↔ v < L.text := by
    rw [MemRegion.hasPage_iff (a := 0) (by simp [text]) (show L.text * pgsize ≤ trapframe by omega)]
    simp [text, upVpn_mul]
  have hstackPage : stack.HasPage v ↔ L.guard ≤ v ∧ v < L.heap := by
    rw [MemRegion.hasPage_iff rfl (show L.heap * pgsize ≤ trapframe by omega), upVpn_mul]
  have hheapPage : heap.HasPage v ↔ L.heap ≤ v ∧ v < upVpn L.brk :=
    MemRegion.hasPage_iff rfl hb4
  have hmem : ∀ r, r ∈ L.regions ↔ r = text ∨ r = stack ∨ r = heap := by
    intro r
    simp [ProcLayout.regions, text, stack, heap]
  -- which of the three it is
  have hcases : v < L.text ∨ (L.guard ≤ v ∧ v < L.heap) ∨ L.heap ≤ v ∧ v < upVpn L.brk := by
    rcases h with h | ⟨hlo, hhi⟩ <;> omega
  rcases hcases with hin | hin | hin
  · refine ⟨text, ⟨(hmem _).mpr (.inl rfl), htextPage.mpr hin⟩, ?_⟩
    rintro r ⟨hr, hpage⟩
    rcases (hmem r).mp hr with rfl | rfl | rfl
    · rfl
    · rw [hstackPage] at hpage
      omega
    · rw [hheapPage] at hpage
      omega
  · refine ⟨stack, ⟨(hmem _).mpr (.inr (.inl rfl)), hstackPage.mpr hin⟩, ?_⟩
    rintro r ⟨hr, hpage⟩
    rcases (hmem r).mp hr with rfl | rfl | rfl
    · rw [htextPage] at hpage
      omega
    · rfl
    · rw [hheapPage] at hpage
      omega
  · refine ⟨heap, ⟨(hmem _).mpr (.inr (.inr rfl)), hheapPage.mpr hin⟩, ?_⟩
    rintro r ⟨hr, hpage⟩
    rcases (hmem r).mp hr with rfl | rfl | rfl
    · rw [htextPage] at hpage
      omega
    · rw [hstackPage] at hpage
      omega
    · rfl

section

variable {img : KernelImage} {s : VmState} {G : Tables} {id : ℕ} {sp : Space}

theorem UserOk.uvmalloc_no_remap (h : UserOk img s G) (hrun : Running s id sp) {newsz : ℕ}
    (hle : newsz ≤ trapframe) :
    uvmalloc img sp.as (heapEnd sp.as) newsz pteW s.machine ≠ .error .mappagesRemap := by
  intro herr
  obtain ⟨L, hL, hw⟩ := h.laid id sp hrun
  rw [ProcLayout.heapEnd_eq hL] at herr
  have hpost := @uvmalloc_spec _ _ _ _ _ _ L.brk newsz pteW h.inv (h.toVmOk.space hrun.1).1 hle
    heapPerm_fresh
  rw [herr] at hpost
  obtain ⟨-, x, hx, -, hsome⟩ := hpost
  exact hsome (hw.unmapped hx)

/-- In every state that processes reach after an `exec`, each valid entry below `TRAPFRAME` is
in the page range of exactly one region. No growth of the heap and no fault finds a page mapped
that it maps: the panic of `mappages` is out of reach, and `sys_sbrk` never panics. -/
theorem mapped_in_one_region (hr : UserRun img s) (hrun : Running s id sp) :
    (∀ v pte, v < userVpns → leafPte s.machine.mem sp.as.pagetable v = some pte →
      ∃! r, r ∈ sp.as.regions ∧ r.HasPage v) ∧
    (∀ newsz ≤ trapframe,
      uvmalloc img sp.as (heapEnd sp.as) newsz pteW s.machine ≠ .error .mappagesRemap) ∧
    (∀ n eager, -2 ^ 31 ≤ n → n < 2 ^ 31 → ∃ r, sysSbrk img sp.as n eager s.machine = .ok r) ∧
    ∀ va read, ∃ r, vmfault img sp.as sp.as.pagetable va read s.machine = .ok r := by
  obtain ⟨G, h⟩ := hr.ok
  obtain ⟨L, hL, hw⟩ := h.laid id sp hrun
  obtain ⟨hrooted, hregs, -⟩ := h.toVmOk.space hrun.1
  refine ⟨fun v pte hv hpte => ?_, fun newsz hle => h.uvmalloc_no_remap hrun hle,
    fun n eager hge hlt => ?_, fun va read => ?_⟩
  · obtain ⟨l, hl, -⟩ := (h.toVmOk.leafPte_iff hv hrun.1).mp hpte
    rw [hL]
    exact L.page_region_unique (hw v l hl)
  · have hspec : ∃ r as' m' G', sysSbrk img sp.as n eager s.machine = .ok (r, as', m') ∧ _ :=
      sysSbrk_spec h.inv hrooted hL hw hge hlt
    obtain ⟨r, as', m', -, hs, -⟩ := hspec
    exact ⟨_, hs⟩
  · have hfault : Except.Sat (fun _ => False) _
        (vmfault img sp.as sp.as.pagetable va read s.machine) := vmfault_spec h.inv hrooted hregs
    cases hf : vmfault img sp.as sp.as.pagetable va read s.machine with
    | ok r => exact ⟨r, rfl⟩
    | error err =>
      rw [hf] at hfault
      exact hfault.elim

end

/-- A process with one byte of heap: the page of the byte is in one region. -/
theorem mapped_in_one_region_byte : ∃ s sp, UserRun sixteenPageImage s ∧ Running s 1 sp ∧
    (∃ pte, leafPte s.machine.mem sp.as.pagetable 2 = some pte) ∧
    ∃! r, r ∈ sp.as.regions ∧ r.HasPage 2 := by
  obtain ⟨s, sp, s1, hr, hrun, -, ⟨pte, hpte, -⟩, -⟩ := byteHeap_run
  exact ⟨s, sp, hr, hrun, ⟨pte, hpte⟩,
    (mapped_in_one_region hr hrun).1 2 pte (by decide) hpte⟩

end YHsys.Kernel
