import YHsys.Kernel.CowFork
import YHsys.Kernel.Exec

/-!
# The address space of a program

A program's address space has three regions: the text from `0` on, the stack with the
guard page at its bottom, and the heap right above the stack. Their bounds are whole
pages but for the end of the heap, the break. `LaidOut` is the invariant of the address
spaces that processes run in: these regions, and no page outside them.
-/

namespace YHsys.Kernel

theorem asAddRegion_last {as : AddrSpace} {a b perm : ℕ} {type : RegionType}
    (hpt : as.pagetable ≠ 0) (halign : a % pgsize = 0) (hend : type = .heap ∨ b % pgsize = 0)
    (hab : a ≤ b) (hb : b ≤ trapframe) (hlen : as.regions.length < maxMregions)
    (hrs : ∀ r ∈ as.regions, r.type ≠ type ∧ r.vaStart ≤ a ∧ r.vaEnd ≤ a) :
    asAddRegion as a b type perm =
      some { as with regions := as.regions ++ [⟨a, b, type, perm⟩] } := by
  have hidx : ¬ (asRegionIndex as type).isSome := by
    rw [asRegionIndex, Option.not_isSome_iff_eq_none, List.findIdx?_eq_none_iff]
    exact fun r hr => decide_eq_false (hrs r hr).1
  have hclear : ¬ as.regions.any fun r => !(decide (b ≤ r.vaStart ∨ r.vaEnd ≤ a)) := by
    rw [Bool.not_eq_true, List.any_eq_false]
    intro r hr
    rw [Bool.not_eq_true, Bool.not_eq_false', decide_eq_true_eq]
    exact .inr (hrs r hr).2.2
  have hins : (as.regions.findIdx? fun r => a < r.vaStart) = none := by
    rw [List.findIdx?_eq_none_iff]
    exact fun r hr => decide_eq_false (Nat.not_lt.mpr (hrs r hr).2.1)
  unfold asAddRegion
  rw [if_neg hpt, if_neg (not_not.mpr halign), if_neg fun h => h.2 (hend.resolve_left h.1),
    if_neg (by omega), if_neg (Nat.not_le.mpr hlen), if_neg hidx, if_neg hclear, hins]
  simp

/-- The bounds of the regions, in pages; the break in bytes. -/
structure ProcLayout where
  text : ℕ
  guard : ℕ
  heap : ℕ
  brk : ℕ
  text_le : text ≤ guard
  guard_lt : guard < heap
  heap_le : heap * pgsize ≤ brk
  brk_le : brk ≤ trapframe

namespace ProcLayout

variable (L : ProcLayout)

/-- The regions. -/
def regions : List MemRegion :=
  [⟨0, L.text * pgsize, .text, pteR ||| pteW ||| pteX⟩,
    ⟨L.guard * pgsize, L.heap * pgsize, .stack, pteR ||| pteW⟩,
    ⟨L.heap * pgsize, L.brk, .heap, pteR ||| pteW⟩]

/-- The pages of the regions. -/
def Page (v : ℕ) : Prop := v < L.text ∨ L.guard ≤ v ∧ v < upVpn L.brk

/-- With another break. -/
def withBrk (b : ℕ) (h1 : L.heap * pgsize ≤ b) (h2 : b ≤ trapframe) : ProcLayout :=
  { L with brk := b, heap_le := h1, brk_le := h2 }

theorem bounds : L.text * pgsize ≤ L.guard * pgsize ∧ L.guard * pgsize < L.heap * pgsize ∧
    L.heap * pgsize ≤ L.brk ∧ L.brk ≤ trapframe :=
  ⟨Nat.mul_le_mul_right _ L.text_le, Nat.mul_lt_mul_of_pos_right L.guard_lt (by decide), L.heap_le,
    L.brk_le⟩

theorem heap_le_upVpn : L.heap ≤ upVpn L.brk := by
  have h := L.heap_le
  rw [upVpn, pgsize_eq] at *
  omega

theorem page_region {v : ℕ} (h : L.Page v) :
    ∃ r ∈ L.regions, r.vaStart / pgsize ≤ v ∧ v < r.vaStart / pgsize + regionPages r := by
  simp only [regions, regionPages, List.exists_mem_cons_iff, List.not_mem_nil, false_and, exists_false,
    or_false, mul_pgsize_div, upVpn_mul, Nat.zero_div]
  have := L.guard_lt
  have := L.heap_le_upVpn
  rcases h with h | h <;> omega

theorem regionsOk (pagetable : ℕ) : RegionsOk ⟨pagetable, L.regions⟩ := by
  obtain ⟨h1, h2, h3, h4⟩ := L.bounds
  intro r hr
  simp only [regions, List.mem_cons, List.not_mem_nil, or_false] at hr
  rcases hr with rfl | rfl | rfl
  · exact regionOk_of_allowed (by simp) (by simp) (Nat.zero_le _) (by dsimp only; omega) (Nat.zero_mod _)
  · exact regionOk_of_allowed (by simp) (by simp) h2.le (by dsimp only; omega) (mul_pgsize_mod _)
  · exact regionOk_of_allowed (by simp) (by simp) h3 h4 (mul_pgsize_mod _)

section

variable {L} {as : AddrSpace} (h : as.regions = L.regions)

include h

theorem heapEnd_eq : heapEnd as = L.brk := by
  unfold heapEnd
  rw [h]
  rfl

theorem heapStart_eq : asRegionStart as .heap = L.heap * pgsize := by
  unfold asRegionStart
  rw [h]
  rfl

theorem heap_start_size : (asRegionStart as .heap + asRegionSize as .heap) % 2 ^ 32 = L.brk := by
  have hok : RegionsOk as := by
    have := L.regionsOk as.pagetable
    rwa [← h] at this
  rw [Kernel.heapEnd_eq hok, heapEnd_eq h]

theorem of_findRegion {va : ℕ} {r : MemRegion} (hf : asFindRegion as va = some r)
    (htype : r.type = .heap) : L.heap * pgsize ≤ va ∧ va < L.brk := by
  unfold asFindRegion at hf
  have hmem := List.mem_of_find?_eq_some hf
  have hin : r.vaStart ≤ va ∧ va < r.vaEnd := by simpa using List.find?_some hf
  rw [h] at hmem
  simp only [regions, List.mem_cons, List.not_mem_nil, or_false] at hmem
  rcases hmem with rfl | rfl | rfl
  · cases htype
  · cases htype
  · exact hin

theorem resize {b : ℕ} (h1 : L.heap * pgsize ≤ b) (h2 : b ≤ trapframe) :
    asResizeRegion as .heap b = some { as with regions := (L.withBrk b h1 h2).regions } := by
  obtain ⟨hb1, hb2, hb3, hb4⟩ := L.bounds
  unfold asResizeRegion asRegionIndex
  rw [h, if_neg (Nat.not_lt.mpr h2)]
  have hidx : L.regions.findIdx? (fun r => decide (r.type = .heap)) = some 2 := rfl
  rw [hidx]
  dsimp only
  have hget : L.regions[2]? = some ⟨L.heap * pgsize, L.brk, .heap, pteR ||| pteW⟩ := rfl
  rw [hget]
  dsimp only
  rw [if_neg (Nat.not_lt.mpr h1), if_neg]
  · rfl
  · simp only [regions, List.eraseIdx, List.any_cons, List.any_nil, Bool.or_false, Bool.or_eq_true,
      Bool.not_eq_true', decide_eq_false_iff_not, not_or]
    omega

end

theorem addRegions_eq {pagetable : ℕ} (hpt : pagetable ≠ 0) :
    addRegions ⟨pagetable, []⟩ L.regions = some ⟨pagetable, L.regions⟩ := by
  obtain ⟨h1, h2, h3, h4⟩ := L.bounds
  unfold addRegions regions
  rw [List.foldlM_cons, asAddRegion_last hpt rfl (.inr (mul_pgsize_mod _)) (Nat.zero_le _) (by omega)
    (by simp [maxMregions]) (fun r hr => absurd hr List.not_mem_nil), Option.bind_eq_bind, Option.bind_some, List.foldlM_cons,
    asAddRegion_last hpt (mul_pgsize_mod _) (.inr (mul_pgsize_mod _)) h2.le (by omega)
      (by simp [maxMregions]) ?_,
    Option.bind_eq_bind, Option.bind_some, List.foldlM_cons,
    asAddRegion_last hpt (mul_pgsize_mod _) (.inl rfl) h3 h4 (by simp [maxMregions]) ?_]
  · rfl
  · intro r hr
    simp only [List.nil_append, List.cons_append, List.mem_cons, List.not_mem_nil, or_false] at hr
    rcases hr with rfl | rfl
    · exact ⟨by simp, Nat.zero_le _, h1.trans h2.le⟩
    · exact ⟨by simp, h2.le, Nat.le_refl _⟩
  · intro r hr
    simp only [List.nil_append, List.mem_cons, List.not_mem_nil, or_false] at hr
    subst hr
    exact ⟨by simp, Nat.zero_le _, h1⟩

end ProcLayout

/-- Every page of the address space satisfies `P`. -/
def Within (G : Tables) (id : ℕ) (P : ℕ → Prop) : Prop := ∀ v l, UserLeaf G id v l → P v

/-- The regions of a program, and no page outside them. -/
def LaidOut (G : Tables) (id : ℕ) (as : AddrSpace) : Prop :=
  ∃ L : ProcLayout, as.regions = L.regions ∧ Within G id L.Page

section

variable {G G' : Tables} {id : ℕ} {P Q : ℕ → Prop} {mem mem' : Mem}

theorem Within.mono (h : Within G id P) (hPQ : ∀ v, P v → Q v) : Within G id Q :=
  fun v l hl => hPQ v (h v l hl)

theorem Within.of_leaves (h : Within G id P)
    (hleaves : ∀ v l, userLeaves G' (id, v) = some l → (userLeaves G (id, v)).isSome ∨ P v) :
    Within G' id P := fun v l hl => by
  rcases hleaves v l (userLeaves_iff.mpr hl) with hold | hP
  · obtain ⟨l0, hl0⟩ := Option.isSome_iff_exists.mp hold
    exact h v l0 (userLeaves_iff.mp hl0)
  · exact hP

theorem Within.of_view (mem mem' : Mem) (h : Within G id P)
    (hview : ∀ v pg, view mem' G' (id, v) = some pg → (view mem G (id, v)).isSome ∨ P v) :
    Within G' id P := fun v l hl => by
  rcases hview v _ (hl.view_eq mem') with hold | hP
  · obtain ⟨pg, hpg⟩ := Option.isSome_iff_exists.mp hold
    obtain ⟨l0, hl0, -⟩ := view_eq_some hpg
    exact h v l0 hl0
  · exact hP

end

end YHsys.Kernel
