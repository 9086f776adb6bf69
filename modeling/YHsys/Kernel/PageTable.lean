import Mathlib
import YHsys.Kernel.AddrSpace

/-!
# Sv32 page tables, abstractly

`PageTable` says what a two-level table is: its root page, the level-0 table of
each root entry, and the leaf entry of each virtual page. `Represents mem pt` ties
it to memory word by word; the lemmas below it say which single word writes carry
out the abstract updates `setLeaf` and `addTable`, and `walk_find` and `walk_miss`
what `walk` finds in a represented table.
-/

namespace YHsys.Kernel

open Function (update update_idem update_of_ne update_self)

/-- A two-level page table. Pages are given by index, virtual pages by number. -/
structure PageTable where
  root : ℕ
  dir : ℕ → Option ℕ
  leaf : ℕ → Option Leaf
  dir_lt : ∀ i t, dir i = some t → i < 1024 ∧ t < npages
  leaf_dir : ∀ v l, leaf v = some l → ∃ t, dir (v / 1024) = some t

namespace PageTable

/-- A root table and nothing else. -/
def empty (root : ℕ) : PageTable where
  root := root
  dir _ := none
  leaf _ := none
  dir_lt _ _ h := nomatch h
  leaf_dir _ _ h := nomatch h

/-- Change the entry of a virtual page whose level-0 table is there. -/
def setLeaf (pt : PageTable) (v : ℕ) (x : Option Leaf) (h : ∃ t, pt.dir (v / 1024) = some t) :
    PageTable where
  root := pt.root
  dir := pt.dir
  leaf := update pt.leaf v x
  dir_lt := pt.dir_lt
  leaf_dir v' l hl := by
    by_cases hv : v' = v
    · exact hv ▸ h
    · rw [update_of_ne hv] at hl
      exact pt.leaf_dir v' l hl

theorem setLeaf_setLeaf (pt : PageTable) (v : ℕ) (x y : Option Leaf)
    (h : ∃ t, pt.dir (v / 1024) = some t) :
    (pt.setLeaf v x h).setLeaf v y h = pt.setLeaf v y h := by
  simp only [setLeaf, update_idem]

/-- Add an empty level-0 table. -/
def addTable (pt : PageTable) (i t : ℕ) (hi : i < 1024) (ht : t < npages) : PageTable where
  root := pt.root
  dir := update pt.dir i (some t)
  leaf := pt.leaf
  dir_lt i' t' h := by
    by_cases hii : i' = i
    · rw [hii, update_self] at h
      exact ⟨hii ▸ hi, Option.some.inj h ▸ ht⟩
    · rw [update_of_ne hii] at h
      exact pt.dir_lt i' t' h
  leaf_dir v l hl := by
    obtain ⟨t', ht'⟩ := pt.leaf_dir v l hl
    by_cases hvi : v / 1024 = i
    · exact ⟨t, by rw [hvi, update_self]⟩
    · exact ⟨t', by rwa [update_of_ne hvi]⟩

variable {pt : PageTable}

theorem leaf_eq_none {v : ℕ} (h : pt.dir (v / 1024) = none) : pt.leaf v = none := by
  cases hl : pt.leaf v with
  | none => rfl
  | some l =>
    obtain ⟨t, ht⟩ := pt.leaf_dir v l hl
    rw [h] at ht
    cases ht

end PageTable

/-- The word of a root entry. -/
def dirEntry : Option ℕ → ℕ
  | none => 0
  | some t => pa2pte (idx2pa t) ||| pteV

/-- The word of a level-0 entry. -/
def leafEntry : Option Leaf → ℕ
  | none => 0
  | some l => l.pte

theorem tableLeaf_aligned (t : ℕ) : idx2pa t % pgsize = 0 := by
  simp only [idx2pa, kernbase_eq, pgsize_eq]
  omega

theorem tableLeaf_pa_lt {t : ℕ} (ht : t < npages) : idx2pa t < 2 ^ 32 := by
  rw [npages_val] at ht
  simp only [idx2pa, kernbase_eq, pgsize_eq]
  omega

theorem pteV_lt : pteV < 2 ^ 10 := by decide

theorem pteV_testBit : pteV.testBit 0 = true := by decide

theorem or_pteV_lt {perm : ℕ} (hp : perm < 2 ^ 10) : perm ||| pteV < 2 ^ 10 :=
  Nat.or_lt_two_pow hp pteV_lt

theorem or_pteV_testBit (perm : ℕ) : (perm ||| pteV).testBit 0 = true := by
  rw [Nat.testBit_or, pteV_testBit, Bool.or_true]

/-- The pointer to a level-0 table, read as an entry. -/
def tableLeaf (t : ℕ) (ht : t < npages) : Leaf where
  pa := idx2pa t
  flags := pteV
  aligned := tableLeaf_aligned t
  pa_lt := tableLeaf_pa_lt ht
  flags_lt := pteV_lt
  valid := pteV_testBit

theorem dirEntry_some {t : ℕ} (ht : t < npages) : dirEntry (some t) = (tableLeaf t ht).pte := rfl

theorem dirEntry_lt {x : Option ℕ} (h : ∀ t, x = some t → t < npages) : dirEntry x < 2 ^ 32 := by
  cases x with
  | none => decide
  | some t => exact (tableLeaf t (h t rfl)).pte_lt

theorem leafEntry_lt (x : Option Leaf) : leafEntry x < 2 ^ 32 := by
  cases x with
  | none => decide
  | some l => exact l.pte_lt

@[simp] theorem leafEntry_valid (x : Option Leaf) :
    (leafEntry x).testBit 0 = x.isSome := by
  cases x with
  | none => rfl
  | some l => exact (l.testBit_pte (by decide)).trans l.valid

theorem leafEntry_none_valid : ¬ leafEntry none &&& pteV ≠ 0 := by decide

theorem leafEntry_some_valid (l : Leaf) : leafEntry (some l) &&& pteV ≠ 0 := by
  rw [pteV, and_shift_ne_zero, leafEntry_valid]
  rfl

/-- The words of memory that make up the table. -/
structure Represents (mem : Mem) (pt : PageTable) : Prop where
  dirWord : ∀ i < 1024, rd32 mem (idx2pa pt.root + 4 * i) = dirEntry (pt.dir i)
  leafWord : ∀ i t, pt.dir i = some t → ∀ j < 1024,
    rd32 mem (idx2pa t + 4 * j) = leafEntry (pt.leaf (1024 * i + j))

namespace Represents

variable {mem mem' : Mem} {pt : PageTable} {S : Set ℕ}

theorem of_same (h : Represents mem pt) (hs : SameOutside S mem mem') (hroot : pt.root ∉ S)
    (hdir : ∀ i t, pt.dir i = some t → t ∉ S) : Represents mem' pt where
  dirWord i hi := by rw [← hs.rd32_eq hroot hi, h.dirWord i hi]
  leafWord i t ht j hj := by rw [← hs.rd32_eq (hdir i t ht) hj, h.leafWord i t ht j hj]

theorem leafWord_vpn (h : Represents mem pt) {v t : ℕ} (ht : pt.dir (v / 1024) = some t) :
    rd32 mem (idx2pa t + 4 * (v % 1024)) = leafEntry (pt.leaf v) := by
  rw [h.leafWord _ t ht _ (Nat.mod_lt v (by decide)), Nat.div_add_mod]

theorem empty {p : ℕ} (h : ∀ i < 1024, rd32 mem (idx2pa p + 4 * i) = 0) :
    Represents mem (PageTable.empty p) :=
  ⟨h, fun _ _ ht => nomatch ht⟩

end Represents

theorem rd32_wr32_same_page (mem : Mem) (a w : ℕ) {i j : ℕ} (hij : i ≠ j) :
    rd32 (wr32 mem (a + 4 * i) w) (a + 4 * j) = rd32 mem (a + 4 * j) :=
  rd32_congr fun x hlo hhi => wr32_of_disjoint mem w (by omega)

theorem Represents.setLeaf {mem : Mem} {pt : PageTable} (h : Represents mem pt) {v t : ℕ}
    (ht : pt.dir (v / 1024) = some t) (x : Option Leaf) (hroot : pt.root ≠ t)
    (hinj : ∀ i, pt.dir i = some t → i = v / 1024) :
    Represents (wr32 mem (idx2pa t + 4 * (v % 1024)) (leafEntry x))
      (pt.setLeaf v x ⟨t, ht⟩) where
  dirWord i hi := by
    show rd32 _ (idx2pa pt.root + 4 * i) = dirEntry (pt.dir i)
    rw [← (SameOutside.wr32 mem t _ (Nat.mod_lt v (by decide))).rd32_eq hroot hi, h.dirWord i hi]
  leafWord i t' ht' j hj := by
    show _ = leafEntry (update pt.leaf v x (1024 * i + j))
    by_cases hv : 1024 * i + j = v
    · have hdiv : v / 1024 = i := by omega
      have hmod : v % 1024 = j := by omega
      obtain rfl : t = t' := Option.some.inj (ht.symm.trans (hdiv ▸ ht'))
      rw [hv, update_self, hmod, rd32_wr32 _ _ (leafEntry_lt x)]
    · rw [update_of_ne hv, ← h.leafWord i t' ht' j hj]
      by_cases htt : t' = t
      · subst htt
        have hi : i = v / 1024 := hinj i ht'
        exact rd32_wr32_same_page _ _ _ (by omega)
      · exact ((SameOutside.wr32 mem t _ (Nat.mod_lt v (by decide))).rd32_eq htt hj).symm

theorem Represents.addTable {mem : Mem} {pt : PageTable} (h : Represents mem pt) {i t : ℕ}
    (hi : i < 1024) (ht : t < npages) (hnone : pt.dir i = none) (hroot : pt.root ≠ t)
    (hzero : ∀ j < 1024, rd32 mem (idx2pa t + 4 * j) = 0)
    (hdroot : ∀ i', pt.dir i' ≠ some pt.root) :
    Represents (wr32 mem (idx2pa pt.root + 4 * i) (dirEntry (some t))) (pt.addTable i t hi ht) where
  dirWord i' hi' := by
    show rd32 _ (idx2pa pt.root + 4 * i') = dirEntry (update pt.dir i (some t) i')
    by_cases hii : i' = i
    · subst hii
      rw [update_self, rd32_wr32 _ _ (dirEntry_lt fun t' h => Option.some.inj h ▸ ht)]
    · rw [update_of_ne hii, rd32_wr32_same_page _ _ _ (Ne.symm hii), h.dirWord i' hi']
  leafWord i' t' ht' j hj := by
    have hsame := SameOutside.wr32 mem pt.root (dirEntry (some t)) hi
    have ht' : update pt.dir i (some t) i' = some t' := ht'
    by_cases hii : i' = i
    · subst hii
      rw [update_self] at ht'
      obtain rfl : t = t' := Option.some.inj ht'
      have hl : pt.leaf (1024 * i' + j) = none :=
        PageTable.leaf_eq_none (by rwa [show (1024 * i' + j) / 1024 = i' by omega])
      rw [← hsame.rd32_eq (Ne.symm hroot) hj, hzero j hj]
      exact (congrArg leafEntry hl).symm
    · rw [update_of_ne hii] at ht'
      rw [← hsame.rd32_eq (fun heq : t' = pt.root => hdroot i' (heq ▸ ht')) hj]
      exact h.leafWord i' t' ht' j hj

/-! ## What `walk` finds -/

section

variable {m : Machine} {pt : PageTable} {va : ℕ}

theorem px_one_lt (h : va < maxva) : va / pgsize / 1024 < 1024 := by
  rw [maxva_eq] at h
  rw [pgsize_eq]
  omega

theorem walk_find (h : Represents m.mem pt) (hva : va < maxva) {t : ℕ}
    (ht : pt.dir (va / pgsize / 1024) = some t) (alloc : Bool) :
    walk (idx2pa pt.root) va alloc m = .ok (some (idx2pa t + 4 * (va / pgsize % 1024)), m) := by
  have hlt := (pt.dir_lt _ t ht).2
  have hword : rd32 m.mem (idx2pa pt.root + 4 * px 1 va) = (tableLeaf t hlt).pte := by
    rw [px_one hva, ← pgsize_eq, h.dirWord _ (px_one_lt hva), ht, dirEntry_some hlt]
  have hv : (tableLeaf t hlt).pte &&& pteV ≠ 0 := by
    rw [pteV, and_shift_ne_zero, Leaf.testBit_pte _ (by decide)]
    exact (tableLeaf t hlt).valid
  rw [walk, if_neg (Nat.not_le.mpr hva)]
  simp only [hword]
  rw [if_pos hv, Leaf.pte2pa_pte, px_zero, ← pgsize_eq]
  rfl

theorem dirWord_of_miss (h : Represents m.mem pt) (hva : va < maxva)
    (hnone : pt.dir (va / pgsize / 1024) = none) :
    rd32 m.mem (idx2pa pt.root + 4 * px 1 va) &&& pteV = 0 := by
  rw [px_one hva, ← pgsize_eq, h.dirWord _ (px_one_lt hva), hnone]
  rfl

theorem walk_miss (h : Represents m.mem pt) (hva : va < maxva)
    (hnone : pt.dir (va / pgsize / 1024) = none) :
    walk (idx2pa pt.root) va false m = .ok (none, m) := by
  rw [walk, if_neg (Nat.not_le.mpr hva)]
  simp only [dirWord_of_miss h hva hnone]
  rfl

theorem walk_alloc (h : Represents m.mem pt) (hva : va < maxva)
    (hnone : pt.dir (va / pgsize / 1024) = none) :
    walk (idx2pa pt.root) va true m =
      match m.kalloc with
      | (none, m) => .ok (none, m)
      | (some table, m) =>
        .ok (some (table + 4 * (va / pgsize % 1024)),
          (m.memset table 0).wr32 (idx2pa pt.root + 4 * (va / pgsize / 1024))
            (pa2pte table ||| pteV)) := by
  rw [walk, if_neg (Nat.not_le.mpr hva)]
  simp only [dirWord_of_miss h hva hnone]
  rw [px_one hva, px_zero, pgsize_eq]
  rfl

end

end YHsys.Kernel
