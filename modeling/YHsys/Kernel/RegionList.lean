import Mathlib
import YHsys.Kernel.AddrSpace
import YHsys.Kernel.KallocRuns

/-!
# The list of regions of an address space

`as_add_region`, `as_resize_region`, `as_remove_region` and `as_copy` as they act on the
regions, with arbitrary arguments: the type of a region is any C `int`, and the space that
`as_copy` reads need not have been made by these functions. What they do to the page table is
in `AddrSpace`; there they act on the regions as here (the last section).

Starts are whole pages and regions are apart as ranges of bytes. A range that ends before a
page boundary ends before it in whole pages too, so the page ranges are apart as well, though
ends need not be aligned.
-/

namespace YHsys.Kernel

open List (map_cons pairwise_cons mem_cons)

/-- `struct mem_region` (`proc.h:42`), with the `int`s of its type and permissions. -/
structure Region where
  vaStart : ℕ
  vaEnd : ℕ
  type : ℤ
  perm : ℤ
deriving DecidableEq, Repr

/-- `MR_HEAP` (`proc.h:34`). -/
def mrHeap : ℤ := 2

/-- `struct addr_space` (`proc.h:49`), with the used slots of `regions`. -/
structure RegionSpace where
  pagetable : ℕ
  regions : List Region
deriving DecidableEq, Repr

namespace RegionSpace

variable (s : RegionSpace)

/-- `as_region_index` (`addrspace.c:197`). -/
def regionIndex (type : ℤ) : Option ℕ := s.regions.findIdx? fun r => r.type = type

/-- `as_add_region` (`addrspace.c:233`). -/
def addRegion (vaStart vaEnd : ℕ) (type perm : ℤ) : Option RegionSpace :=
  if s.pagetable = 0 then none
  else if vaStart % pgsize ≠ 0 then none
  else if type ≠ mrHeap ∧ vaEnd % pgsize ≠ 0 then none
  else if vaEnd < vaStart ∨ trapframe < vaEnd then none
  else if maxMregions ≤ s.regions.length then none
  else if (s.regionIndex type).isSome then none
  else if s.regions.any fun r => !(decide (vaEnd ≤ r.vaStart ∨ r.vaEnd ≤ vaStart)) then none
  else
    let ins := (s.regions.findIdx? fun r => vaStart < r.vaStart).getD s.regions.length
    some { s with regions := s.regions.take ins ++ ⟨vaStart, vaEnd, type, perm⟩ :: s.regions.drop ins }

/-- `as_find_region` (`addrspace.c:275`). -/
def findRegion (va : ℕ) : Option Region := s.regions.find? fun r => r.vaStart ≤ va ∧ va < r.vaEnd

/-- `as_remove_region` (`addrspace.c:290`). -/
def removeRegion (type : ℤ) : RegionSpace :=
  if s.pagetable = 0 then s
  else
    match s.regionIndex type with
    | none => s
    | some idx => { s with regions := s.regions.eraseIdx idx }

/-- `as_resize_region` (`addrspace.c:338`). -/
def resizeRegion (type : ℤ) (newEnd : ℕ) : Option RegionSpace :=
  if trapframe < newEnd then none
  else
    match s.regionIndex type with
    | none => none
    | some idx =>
      match s.regions[idx]? with
      | none => none
      | some region =>
        if newEnd < region.vaStart then none
        else if (s.regions.eraseIdx idx).any fun r =>
            !(decide (newEnd ≤ r.vaStart ∨ r.vaEnd ≤ region.vaStart)) then none
        else some { s with regions := s.regions.set idx { region with vaEnd := newEnd } }

/-- The loop of `as_copy` over the regions of the source; of the first `mapped` of them the
pages can be mapped. -/
def copyLoop : ℕ → RegionSpace → List Region → Option RegionSpace
  | _, s, [] => some s
  | mapped, s, r :: rest =>
    match s.addRegion r.vaStart r.vaEnd r.type r.perm with
    | none => none
    | some s =>
      match mapped with
      | 0 => none
      | mapped + 1 => copyLoop mapped s rest

/-- `as_copy` (`addrspace.c:544`). Of a space that is copied to itself no region is left, as if
the source had none. -/
def copy (src : RegionSpace) (mapped : ℕ) : RegionSpace :=
  if s.pagetable = 0 ∨ src.pagetable = 0 then s
  else (copyLoop mapped { s with regions := [] } src.regions).getD { s with regions := [] }

end RegionSpace

/-- A call with its arguments. -/
inductive RegionCall where
  | add (vaStart vaEnd : ℕ) (type perm : ℤ)
  | resize (type : ℤ) (newEnd : ℕ)
  | remove (type : ℤ)
  | copy (src : RegionSpace) (mapped : ℕ)
deriving DecidableEq, Repr

/-- A call that fails leaves the regions as they are, `as_copy` apart. -/
def RegionSpace.call (s : RegionSpace) : RegionCall → RegionSpace
  | .add vaStart vaEnd type perm => (s.addRegion vaStart vaEnd type perm).getD s
  | .resize type newEnd => (s.resizeRegion type newEnd).getD s
  | .remove type => s.removeRegion type
  | .copy src mapped => s.copy src mapped

/-! ## The invariant -/

/-- No byte is in both. -/
def Region.Apart (r s : Region) : Prop := r.vaEnd ≤ s.vaStart ∨ s.vaEnd ≤ r.vaStart

theorem Region.Apart.symm {r s : Region} (h : r.Apart s) : s.Apart r := Or.symm h

/-- The pages of a region, as the range of their addresses. -/
def Region.pages (r : Region) : Set ℕ := Set.Ico (pgrounddown r.vaStart) (pgroundup r.vaEnd)

structure RegionsWf (rs : List Region) : Prop where
  count : rs.length ≤ maxMregions
  types : (rs.map (·.type)).Nodup
  sorted : (rs.map (·.vaStart)).Pairwise (· ≤ ·)
  aligned : ∀ r ∈ rs, r.vaStart % pgsize = 0
  bounds : ∀ r ∈ rs, r.vaStart ≤ r.vaEnd ∧ r.vaEnd ≤ trapframe
  apart : rs.Pairwise Region.Apart

namespace RegionsWf

variable {rs : List Region} {r : Region}

theorem nil : RegionsWf [] := ⟨by simp, by simp, by simp, by simp, by simp, by simp⟩

theorem sublist {rs' : List Region} (h : RegionsWf rs) (hsub : rs'.Sublist rs) : RegionsWf rs' where
  count := hsub.length_le.trans h.count
  types := h.types.sublist (hsub.map _)
  sorted := h.sorted.sublist (hsub.map _)
  aligned r hr := h.aligned r (hsub.subset hr)
  bounds r hr := h.bounds r (hsub.subset hr)
  apart := h.apart.sublist hsub

theorem sorted_insert (x : Region) (h : (rs.map (·.vaStart)).Pairwise (· ≤ ·)) :
    let ins := (rs.findIdx? fun r => x.vaStart < r.vaStart).getD rs.length
    ((rs.take ins ++ x :: rs.drop ins).map (·.vaStart)).Pairwise (· ≤ ·) := by
  induction rs with
  | nil => simp
  | cons r rs ih =>
    rw [map_cons, pairwise_cons] at h
    rw [List.findIdx?_cons]
    by_cases hlt : x.vaStart < r.vaStart
    · simp only [hlt, decide_true, if_true, Option.getD_some, List.take_zero, List.nil_append,
        List.drop_zero, map_cons, pairwise_cons, mem_cons]
      refine ⟨?_, h⟩
      rintro a (rfl | ha)
      · exact hlt.le
      · exact hlt.le.trans (h.1 a ha)
    · simp only [hlt, decide_false, Bool.false_eq_true, if_false]
      have hins : ((rs.findIdx? fun r => decide (x.vaStart < r.vaStart)).map (· + 1)).getD
          (r :: rs).length = (rs.findIdx? fun r => decide (x.vaStart < r.vaStart)).getD rs.length + 1 := by
        cases rs.findIdx? fun r => decide (x.vaStart < r.vaStart) <;> rfl
      rw [hins, List.take_succ_cons, List.drop_succ_cons, List.cons_append, map_cons,
        pairwise_cons]
      refine ⟨fun a ha => ?_, ih h.2⟩
      rw [List.mem_map] at ha
      obtain ⟨q, hq, rfl⟩ := ha
      rcases List.mem_append.mp hq with hq | hq
      · exact h.1 _ (List.mem_map_of_mem (List.mem_of_mem_take hq))
      · rcases mem_cons.mp hq with rfl | hq
        · exact Nat.not_lt.mp hlt
        · exact h.1 _ (List.mem_map_of_mem (List.mem_of_mem_drop hq))

theorem insert (h : RegionsWf rs) (hlen : rs.length < maxMregions)
    (htype : ∀ q ∈ rs, q.type ≠ r.type) (halign : r.vaStart % pgsize = 0)
    (hbounds : r.vaStart ≤ r.vaEnd ∧ r.vaEnd ≤ trapframe) (hapart : ∀ q ∈ rs, r.Apart q) :
    let ins := (rs.findIdx? fun q => r.vaStart < q.vaStart).getD rs.length
    RegionsWf (rs.take ins ++ r :: rs.drop ins) := by
  intro ins
  have hperm : (rs.take ins ++ r :: rs.drop ins).Perm (r :: rs) := by
    have hmid : (rs.take ins ++ r :: rs.drop ins).Perm (r :: (rs.take ins ++ rs.drop ins)) :=
      List.perm_middle
    rwa [List.take_append_drop] at hmid
  have hmem : ∀ q, q ∈ rs.take ins ++ r :: rs.drop ins → q = r ∨ q ∈ rs :=
    fun q hq => mem_cons.mp (hperm.subset hq)
  refine ⟨?_, ?_, sorted_insert r h.sorted, ?_, ?_, ?_⟩
  · rw [hperm.length_eq, List.length_cons]
    exact hlen
  · rw [(hperm.map _).nodup_iff, map_cons, List.nodup_cons]
    refine ⟨fun hr => ?_, h.types⟩
    obtain ⟨q, hq, heq⟩ := List.mem_map.mp hr
    exact htype q hq heq
  · intro q hq
    rcases hmem q hq with rfl | hq
    · exact halign
    · exact h.aligned q hq
  · intro q hq
    rcases hmem q hq with rfl | hq
    · exact hbounds
    · exact h.bounds q hq
  · rw [hperm.pairwise_iff Region.Apart.symm, pairwise_cons]
    exact ⟨hapart, h.apart⟩

theorem setEnd (h : RegionsWf rs) {idx newEnd : ℕ} (hidx : rs[idx]? = some r)
    (hbounds : r.vaStart ≤ newEnd ∧ newEnd ≤ trapframe)
    (hapart : ∀ q ∈ rs.eraseIdx idx, Region.Apart { r with vaEnd := newEnd } q) :
    RegionsWf (rs.set idx { r with vaEnd := newEnd }) := by
  obtain ⟨hlt, hget⟩ := List.getElem?_eq_some_iff.mp hidx
  have hsame : ∀ {α : Type} (f : Region → α), f { r with vaEnd := newEnd } = f r →
      (rs.set idx { r with vaEnd := newEnd }).map f = rs.map f := by
    intro α f hf
    rw [List.map_set, hf, ← hget, ← List.getElem_map f, List.set_getElem_self]
    simpa using hlt
  have hmem : ∀ q, q ∈ rs.set idx { r with vaEnd := newEnd } →
      q = { r with vaEnd := newEnd } ∨ q ∈ rs := fun q hq => (List.mem_or_eq_of_mem_set hq).symm
  have hr : r ∈ rs := List.mem_of_getElem? hidx
  refine ⟨by rw [List.length_set]; exact h.count, by rw [hsame _ rfl]; exact h.types,
    by rw [hsame _ rfl]; exact h.sorted, ?_, ?_, ?_⟩
  · intro q hq
    rcases hmem q hq with rfl | hq
    · exact h.aligned r hr
    · exact h.aligned q hq
  · intro q hq
    rcases hmem q hq with rfl | hq
    · exact hbounds
    · exact h.bounds q hq
  · rw [(List.set_perm_cons_eraseIdx hlt _).pairwise_iff Region.Apart.symm, pairwise_cons]
    exact ⟨hapart, h.apart.sublist (List.eraseIdx_sublist _ _)⟩

theorem pages_disjoint {q : Region} (h : RegionsWf rs) (hr : r ∈ rs) (hq : q ∈ rs)
    (hapart : r.Apart q) : Disjoint r.pages q.pages := by
  have hle : ∀ a b : Region, a ∈ rs → b ∈ rs → a.vaEnd ≤ b.vaStart →
      pgroundup a.vaEnd ≤ pgrounddown b.vaStart := by
    intro a b ha hb hab
    have halign := h.aligned b hb
    have hbound := (h.bounds a ha).2
    rw [pgroundup, pgrounddown, pgsize_eq] at *
    rw [trapframe_eq] at hbound
    omega
  rw [Region.pages, Region.pages, Set.disjoint_left]
  rintro x ⟨hrlo, hrhi⟩ ⟨hqlo, hqhi⟩
  rcases hapart with hapart | hapart
  · have := hle r q hr hq hapart
    omega
  · have := hle q r hq hr hapart
    omega

theorem eq_of_holds {q : Region} {va : ℕ} (h : RegionsWf rs) (hr : r ∈ rs) (hq : q ∈ rs)
    (hrva : r.vaStart ≤ va ∧ va < r.vaEnd) (hqva : q.vaStart ≤ va ∧ va < q.vaEnd) : r = q := by
  by_contra hne
  have : Std.Symm Region.Apart := ⟨fun _ _ => Region.Apart.symm⟩
  have hap : r.Apart q := h.apart.forall hr hq hne
  rcases hap with hap | hap <;> omega

end RegionsWf

/-! ## What each call keeps -/

namespace RegionSpace

variable {s s' : RegionSpace}

theorem type_ne_of_regionIndex {type : ℤ} (h : ¬ (s.regionIndex type).isSome) :
    ∀ r ∈ s.regions, r.type ≠ type := by
  rw [regionIndex, Option.not_isSome_iff_eq_none, List.findIdx?_eq_none_iff] at h
  exact fun r hr => of_decide_eq_false (h r hr)

theorem apart_of_any {rs : List Region} {r : Region}
    (h : ¬ rs.any fun q => !(decide (r.vaEnd ≤ q.vaStart ∨ q.vaEnd ≤ r.vaStart))) :
    ∀ q ∈ rs, r.Apart q := by
  rw [Bool.not_eq_true, List.any_eq_false] at h
  intro q hq
  have := h q hq
  rwa [Bool.not_eq_true, Bool.not_eq_false', decide_eq_true_eq] at this

theorem wf_addRegion {vaStart vaEnd : ℕ} {type perm : ℤ} (hs : RegionsWf s.regions)
    (h : s.addRegion vaStart vaEnd type perm = some s') : RegionsWf s'.regions := by
  unfold addRegion at h
  split_ifs at h with hpt halign hend hbounds hlen hindex hover
  cases h
  exact hs.insert (r := ⟨vaStart, vaEnd, type, perm⟩) (Nat.not_le.mp hlen)
    (type_ne_of_regionIndex hindex) (not_not.mp halign) (by dsimp only; omega)
    (apart_of_any hover)

theorem wf_resizeRegion {type : ℤ} {newEnd : ℕ} (hs : RegionsWf s.regions)
    (h : s.resizeRegion type newEnd = some s') : RegionsWf s'.regions := by
  unfold resizeRegion at h
  split at h
  · cases h
  split at h
  · cases h
  split at h
  · cases h
  rename_i hend _ idx _ _ region hidx
  split_ifs at h with hlt hover
  cases h
  exact hs.setEnd hidx ⟨Nat.not_lt.mp hlt, Nat.not_lt.mp hend⟩
    (apart_of_any (r := { region with vaEnd := newEnd }) hover)

theorem wf_removeRegion {type : ℤ} (hs : RegionsWf s.regions) :
    RegionsWf (s.removeRegion type).regions := by
  unfold removeRegion
  split
  · exact hs
  · split
    · exact hs
    · exact hs.sublist (List.eraseIdx_sublist _ _)

theorem wf_copyLoop {rs : List Region} : ∀ {mapped : ℕ} {s s' : RegionSpace}, RegionsWf s.regions →
    copyLoop mapped s rs = some s' → RegionsWf s'.regions := by
  induction rs with
  | nil =>
    intro mapped s s' hs h
    rw [copyLoop] at h
    cases h
    exact hs
  | cons r rs ih =>
    intro mapped s s' hs h
    rw [copyLoop] at h
    split at h
    · cases h
    · rename_i s1 hadd
      cases mapped with
      | zero => cases h
      | succ mapped => exact ih (wf_addRegion hs hadd) h

theorem wf_copy (hs : RegionsWf s.regions) (src : RegionSpace) (mapped : ℕ) :
    RegionsWf (s.copy src mapped).regions := by
  unfold copy
  split
  · exact hs
  · cases h : copyLoop mapped { s with regions := [] } src.regions with
    | none => exact .nil
    | some s' => exact wf_copyLoop .nil h

theorem wf_call (hs : RegionsWf s.regions) (c : RegionCall) : RegionsWf (s.call c).regions := by
  cases c with
  | add vaStart vaEnd type perm =>
    cases h : s.addRegion vaStart vaEnd type perm with
    | none => simpa [call, h] using hs
    | some s' => simpa [call, h] using wf_addRegion hs h
  | resize type newEnd =>
    cases h : s.resizeRegion type newEnd with
    | none => simpa [call, h] using hs
    | some s' => simpa [call, h] using wf_resizeRegion hs h
  | remove type => exact wf_removeRegion hs
  | copy src mapped => exact wf_copy hs src mapped

theorem wf_calls (pagetable : ℕ) (cs : List RegionCall) :
    RegionsWf (cs.foldl call ⟨pagetable, []⟩).regions := by
  have hrun : ∀ (cs : List RegionCall) (s : RegionSpace), RegionsWf s.regions →
      RegionsWf (cs.foldl call s).regions := by
    intro cs
    induction cs with
    | nil => exact fun s hs => hs
    | cons c cs ih => exact fun s hs => ih _ (wf_call hs c)
  exact hrun cs _ .nil

theorem findRegion_eq_some_iff (hs : RegionsWf s.regions) {va : ℕ} {r : Region} :
    s.findRegion va = some r ↔ r ∈ s.regions ∧ r.vaStart ≤ va ∧ va < r.vaEnd := by
  constructor
  · intro h
    exact ⟨List.mem_of_find?_eq_some h, by simpa using List.find?_some h⟩
  · rintro ⟨hr, hva⟩
    cases h : s.findRegion va with
    | none => exact absurd (List.find?_eq_none.mp h r hr) (by simpa using hva)
    | some q =>
      have hq : q.vaStart ≤ va ∧ va < q.vaEnd := by simpa using List.find?_some h
      rw [hs.eq_of_holds (List.mem_of_find?_eq_some h) hr hq hva]

/-- The list of regions is in order after any sequence of calls, whatever their arguments: not
too many, of distinct types, sorted by their starts, which are aligned, each one below
`TRAPFRAME`, no page in two of them; and `as_find_region` finds the one region that holds an
address, if there is one. -/
theorem regions_wellFormed (pagetable : ℕ) (cs : List RegionCall) :
    let s := cs.foldl call ⟨pagetable, []⟩
    s.regions.length ≤ maxMregions ∧ (s.regions.map (·.type)).Nodup ∧
      (s.regions.map (·.vaStart)).Pairwise (· ≤ ·) ∧
      (∀ r ∈ s.regions, r.vaStart % pgsize = 0 ∧ r.vaStart ≤ r.vaEnd ∧ r.vaEnd ≤ trapframe) ∧
      s.regions.Pairwise (fun r q => Disjoint r.pages q.pages) ∧
      ∀ va, (∀ r, s.findRegion va = some r ↔ r ∈ s.regions ∧ r.vaStart ≤ va ∧ va < r.vaEnd) ∧
        (s.findRegion va = none ↔ ∀ r ∈ s.regions, ¬ (r.vaStart ≤ va ∧ va < r.vaEnd)) := by
  intro s
  have h : RegionsWf s.regions := wf_calls pagetable cs
  refine ⟨h.count, h.types, h.sorted, fun r hr => ⟨h.aligned r hr, h.bounds r hr⟩, ?_, fun va =>
    ⟨fun r => findRegion_eq_some_iff h, ?_⟩⟩
  · exact h.apart.imp_of_mem fun hr hq hap => h.pages_disjoint hr hq hap
  · simp [findRegion, List.find?_eq_none]

end RegionSpace

/-! ## The regions in the model of the page tables -/

/-- The numbers of the region types (`proc.h:32`). -/
def RegionType.code : RegionType → ℤ
  | .free => 0
  | .text => 1
  | .heap => 2
  | .stack => 3
  | .mmio => 4
  | .trapframe => 5
  | .trampoline => 6

theorem RegionType.code_eq_iff {t u : RegionType} : t.code = u.code ↔ t = u := by
  cases t <;> cases u <;> simp [RegionType.code]

def MemRegion.toRegion (r : MemRegion) : Region := ⟨r.vaStart, r.vaEnd, r.type.code, r.perm⟩

def AddrSpace.toSpace (as : AddrSpace) : RegionSpace := ⟨as.pagetable, as.regions.map (·.toRegion)⟩

open AddrSpace (toSpace)

section

variable {as as' : AddrSpace}

theorem regionIndex_toSpace (type : RegionType) :
    as.toSpace.regionIndex type.code = asRegionIndex as type := by
  simp only [RegionSpace.regionIndex, toSpace, List.findIdx?_map, asRegionIndex]
  congr 1
  funext r
  simp [MemRegion.toRegion, RegionType.code_eq_iff]

theorem asAddRegion_toSpace (vaStart vaEnd : ℕ) (type : RegionType) (perm : ℕ) :
    (asAddRegion as vaStart vaEnd type perm).map toSpace =
      as.toSpace.addRegion vaStart vaEnd type.code perm := by
  have hheap : type.code ≠ mrHeap ↔ type ≠ .heap :=
    (RegionType.code_eq_iff (u := .heap)).not
  unfold RegionSpace.addRegion asAddRegion
  rw [regionIndex_toSpace]
  simp only [hheap, toSpace, List.length_map, List.any_map, List.findIdx?_map,
    ← List.map_take, ← List.map_drop, apply_ite (Option.map _), Option.map_none, Option.map_some,
    List.map_append, map_cons]
  rfl

theorem asFindRegion_toSpace (va : ℕ) :
    (asFindRegion as va).map (·.toRegion) = as.toSpace.findRegion va := by
  simp only [asFindRegion, RegionSpace.findRegion, toSpace, List.find?_map]
  rfl

theorem asResizeRegion_toSpace (type : RegionType) (newEnd : ℕ) :
    (asResizeRegion as type newEnd).map toSpace =
      as.toSpace.resizeRegion type.code newEnd := by
  unfold RegionSpace.resizeRegion asResizeRegion
  rw [regionIndex_toSpace]
  split
  · rfl
  · cases asRegionIndex as type with
    | none => rfl
    | some idx =>
      simp only [toSpace, List.getElem?_map]
      cases hidx : as.regions[idx]? with
      | none => rfl
      | some r =>
        simp only [Option.map_some, List.eraseIdx_map, List.any_map, apply_ite (Option.map _),
          Option.map_none, toSpace, List.map_set]
        rfl

theorem asRemoveRegion_toSpace {img : KernelImage} {type : RegionType} {m m' : Machine}
    (h : asRemoveRegion img as type m = .ok (as', m')) :
    as'.toSpace = as.toSpace.removeRegion type.code := by
  unfold asRemoveRegion at h
  unfold RegionSpace.removeRegion
  rw [regionIndex_toSpace]
  split at h
  · rename_i hpt
    cases h
    exact (if_pos hpt).symm
  · rename_i hpt
    have hpt : as.toSpace.pagetable ≠ 0 := hpt
    rw [if_neg hpt]
    cases hidx : asRegionIndex as type with
    | none =>
      rw [hidx] at h
      cases h
      rfl
    | some idx =>
      rw [hidx] at h
      -- the pages are unmapped or there are none, and the region goes
      have has' : as' = { as with regions := as.regions.eraseIdx idx } := by
        dsimp only at h
        split at h
        · cases h
          rfl
        · split_ifs at h
          · obtain ⟨_, -, h⟩ := Except.bind_eq_ok.mp h
            cases h
            rfl
          · cases h
            rfl
      rw [has']
      simp only [toSpace, List.eraseIdx_map]

theorem asCopyRegions_toSpace {img : KernelImage} {src : ℕ} {rs : List MemRegion} :
    ∀ {dst dst' : AddrSpace} {m m' : Machine} {ok : Bool},
      asCopyRegions img src rs dst m = .ok (ok, dst', m') →
      dst'.pagetable = dst.pagetable ∧ ∃ mapped,
        RegionSpace.copyLoop mapped dst.toSpace (rs.map (·.toRegion)) =
          if ok then some dst'.toSpace else none := by
  induction rs with
  | nil =>
    intro dst dst' m m' ok h
    cases h
    exact ⟨rfl, 0, by rw [List.map_nil, RegionSpace.copyLoop, if_pos rfl]⟩
  | cons r rs ih =>
    intro dst dst' m m' ok h
    have hadd : (asAddRegion dst r.vaStart r.vaEnd r.type r.perm).map toSpace = _ :=
      asAddRegion_toSpace ..
    rw [asCopyRegions] at h
    cases hr : asAddRegion dst r.vaStart r.vaEnd r.type r.perm with
    | none =>
      rw [hr] at h hadd
      cases h
      refine ⟨rfl, 0, ?_⟩
      rw [map_cons, RegionSpace.copyLoop]
      simp [MemRegion.toRegion, ← hadd]
    | some dst1 =>
      rw [hr] at h hadd
      have hpt : dst1.pagetable = dst.pagetable := by
        unfold asAddRegion at hr
        split_ifs at hr
        cases hr
        rfl
      obtain ⟨⟨mapped, m1⟩, -, h⟩ := Except.bind_eq_ok.mp h
      cases mapped with
      | false =>
        cases h
        refine ⟨hpt, 0, ?_⟩
        rw [map_cons, RegionSpace.copyLoop]
        simp [MemRegion.toRegion, ← hadd]
      | true =>
        obtain ⟨hpt', mapped, hloop⟩ := ih h
        refine ⟨hpt'.trans hpt, mapped + 1, ?_⟩
        rw [map_cons, RegionSpace.copyLoop]
        simp only [MemRegion.toRegion, ← hadd, Option.map_some]
        exact hloop

theorem asCopy_toSpace {img : KernelImage} {dst dst' src : AddrSpace} {m m' : Machine} {ok : Bool}
    (h : asCopy img dst src m = .ok (ok, dst', m')) :
    ∃ mapped, dst'.toSpace = dst.toSpace.copy src.toSpace mapped := by
  unfold asCopy at h
  split at h
  · rename_i hpt
    cases h
    exact ⟨0, (if_pos hpt).symm⟩
  · rename_i hpt
    obtain ⟨m1, -, h⟩ := Except.bind_eq_ok.mp h
    obtain ⟨⟨ok', dst1, m2⟩, hloop, h⟩ := Except.bind_eq_ok.mp h
    obtain ⟨hpt', mapped, hcopy⟩ := asCopyRegions_toSpace hloop
    refine ⟨mapped, ?_⟩
    have hcopy' : dst.toSpace.copy src.toSpace mapped =
        (if ok' then some dst1.toSpace else none).getD ⟨dst.pagetable, []⟩ :=
      (if_neg hpt).trans (congrArg (Option.getD · _) hcopy)
    rw [hcopy']
    cases ok' with
    | true =>
      cases h
      rfl
    | false =>
      obtain ⟨m3, -, h⟩ := Except.bind_eq_ok.mp h
      cases h
      exact congrArg (RegionSpace.mk · []) hpt'

/-- A call of `addrspace.c` on `as`, with any arguments and on any machine, leaves `as'`. -/
inductive SpaceStep (img : KernelImage) (as as' : AddrSpace) : Prop where
  | add (vaStart vaEnd : ℕ) (type : RegionType) (perm : ℕ)
      (h : asAddRegion as vaStart vaEnd type perm = some as')
  | resize (type : RegionType) (newEnd : ℕ) (h : asResizeRegion as type newEnd = some as')
  | remove (type : RegionType) (m m' : Machine) (h : asRemoveRegion img as type m = .ok (as', m'))
  | copy (src : AddrSpace) (m m' : Machine) (ok : Bool)
      (h : asCopy img as src m = .ok (ok, as', m'))

theorem SpaceStep.call {img : KernelImage} (h : SpaceStep img as as') :
    ∃ c, as'.toSpace = as.toSpace.call c := by
  cases h with
  | add vaStart vaEnd type perm h =>
    refine ⟨.add vaStart vaEnd type.code perm, ?_⟩
    simp [RegionSpace.call, ← asAddRegion_toSpace, h]
  | resize type newEnd h =>
    refine ⟨.resize type.code newEnd, ?_⟩
    simp [RegionSpace.call, ← asResizeRegion_toSpace, h]
  | remove type m m' h => exact ⟨.remove type.code, asRemoveRegion_toSpace h⟩
  | copy src m m' ok h =>
    obtain ⟨mapped, hcopy⟩ := asCopy_toSpace h
    exact ⟨.copy src.toSpace mapped, hcopy⟩

end

end YHsys.Kernel
