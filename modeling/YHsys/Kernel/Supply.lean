import Mathlib.Order.Interval.Finset.Nat
import YHsys.Kernel.CowFork

/-!
# Enough free memory

`Machine.hasPages n` says that the next `n` calls of `kalloc` succeed. Growing the heap
takes a page for every page mapped and one for every page table that is not there yet
(`missingTables`), and nothing else: with that many free pages it cannot fail. A fault on
a shared page takes one page.
-/

namespace YHsys.Kernel

/-- The next `n` calls of `kalloc` succeed. -/
def Machine.hasPages : ℕ → Machine → Bool
  | 0, _ => true
  | n + 1, m =>
    match m.kalloc with
    | (none, _) => false
    | (some _, m) => m.hasPages n

/-- How many of the page tables for the `n` pages from `v` on are missing. -/
def missingTables (mem : Mem) (pagetable v n : ℕ) : ℕ :=
  (((Finset.Ico v (v + n)).image (· / 1024)).filter fun i =>
    rd32 mem (pagetable + 4 * i) &&& pteV = 0).card

section

variable {img : KernelImage} {id v va : ℕ} {m : Machine} {G : Tables} {e : ℕ → ℕ}
  {pt : PageTable} {as : AddrSpace}

theorem Machine.hasPages_withMem (n : ℕ) (m : Machine) (mem : Mem) :
    Machine.hasPages n { m with mem := mem } = m.hasPages n := by
  induction n generalizing m mem with
  | zero => rfl
  | succ n ih =>
    unfold hasPages kalloc
    dsimp only
    split_ifs
    · rfl
    · cases hk : Kernel.kalloc m.kmem with
      | mk r k =>
        cases r with
        | none => rfl
        | some r => exact ih ⟨k, Kernel.memset m.mem r 5 pgsize, m.failing, m.calls + 1⟩ _

theorem Machine.hasPages_mono {k n : ℕ} (hkn : k ≤ n) {m : Machine} (h : m.hasPages n) :
    m.hasPages k := by
  induction k generalizing n m with
  | zero => rfl
  | succ k ih =>
    obtain ⟨n, rfl⟩ : ∃ n', n = n' + 1 := ⟨n - 1, by omega⟩
    unfold hasPages at h ⊢
    split at h
    · cases h
    · exact ih (by omega) h

theorem Machine.hasPages_succ {n : ℕ} {m : Machine} (h : m.hasPages (n + 1)) :
    ∃ r m', m.kalloc = (some r, m') ∧ m'.hasPages n := by
  unfold hasPages at h
  split at h
  · cases h
  · exact ⟨_, _, by assumption, h⟩

/-! ## Page tables -/

/-- The tables missing for a range of pages. -/
def PageTable.missing (pt : PageTable) (v n : ℕ) : Finset ℕ :=
  ((Finset.Ico v (v + n)).image (· / 1024)).filter fun i => pt.dir i = none

theorem Represents.missingTables_eq {mem : Mem} (h : Represents mem pt) {n : ℕ}
    (hn : v + n ≤ userVpns) :
    missingTables mem (idx2pa pt.root) v n = (pt.missing v n).card := by
  unfold missingTables PageTable.missing
  congr 1
  refine Finset.filter_congr fun i hi => ?_
  obtain ⟨w, hw, rfl⟩ := Finset.mem_image.mp hi
  have hlt : w / 1024 < 1024 := by
    have := (Finset.mem_Ico.mp hw).2
    rw [userVpns_eq] at hn
    omega
  rw [h.dirWord _ hlt]
  cases hd : pt.dir (w / 1024) with
  | none => simp [dirEntry]
  | some t =>
    have hvalid : (tableLeaf t (pt.dir_lt _ t hd).2).pte &&& pteV ≠ 0 := leafEntry_some_valid _
    rw [dirEntry_some (pt.dir_lt _ t hd).2]
    simpa using hvalid

theorem PageTable.missing_succ {pt pt' : PageTable} {n : ℕ}
    (hdir : ∀ i, pt'.dir i = none → pt.dir i = none) (hfirst : pt'.dir (v / 1024) ≠ none) :
    (pt'.missing (v + 1) n).card + (pt.missing v 1).card ≤ (pt.missing v (n + 1)).card := by
  rw [← Finset.card_union_of_disjoint]
  · refine Finset.card_le_card fun i hi => ?_
    simp only [missing, Finset.mem_union, Finset.mem_filter, Finset.mem_image, Finset.mem_Ico] at hi ⊢
    rcases hi with ⟨⟨w, hw, rfl⟩, hi⟩ | ⟨⟨w, hw, rfl⟩, hi⟩
    · exact ⟨⟨w, by omega, rfl⟩, hdir _ hi⟩
    · exact ⟨⟨w, by omega, rfl⟩, hi⟩
  · refine Finset.disjoint_left.mpr fun i hi hi' => ?_
    simp only [missing, Finset.mem_filter, Finset.mem_image, Finset.mem_Ico] at hi hi'
    obtain ⟨⟨w, hw, rfl⟩, -⟩ := hi'
    obtain rfl : w = v := by omega
    exact hfirst hi.2

theorem walk_served {n : ℕ} (h : VmInv img m G e) (hG : G id = some pt) (hva : va < maxva)
    (hn : m.hasPages (n + (pt.missing (va / pgsize) 1).card)) :
    ∃ a m', walk (idx2pa pt.root) va true m = .ok (some a, m') ∧ m'.hasPages n := by
  have hone : (pt.missing (va / pgsize) 1).card =
      if pt.dir (va / pgsize / 1024) = none then 1 else 0 := by
    unfold PageTable.missing
    rw [Nat.Ico_succ_singleton, Finset.image_singleton, Finset.filter_singleton]
    split_ifs <;> rfl
  rw [hone] at hn
  cases ht : pt.dir (va / pgsize / 1024) with
  | some t =>
    rw [ht, if_neg (Option.some_ne_none t)] at hn
    exact ⟨_, m, walk_find (h.represents id pt hG) hva ht true, hn⟩
  | none =>
    rw [if_pos ht] at hn
    obtain ⟨r, m', hk, hn'⟩ := Machine.hasPages_succ hn
    rw [walk_alloc (h.represents id pt hG) hva ht, hk]
    exact ⟨_, _, rfl, (Machine.hasPages_withMem n m' _).trans hn'⟩

theorem mappages_served {pa perm n : ℕ} {r : Bool × Machine} (h : VmInv img m G e)
    (hG : G id = some pt) (hva : va < maxva) (halign : va % pgsize = 0)
    (hn : m.hasPages (n + (pt.missing (va / pgsize) 1).card))
    (hm : mappages (idx2pa pt.root) va pgsize pa perm m = .ok r) :
    r.1 = true ∧ r.2.hasPages n := by
  obtain ⟨a, m', hw, hn'⟩ := walk_served h hG hva hn
  rw [mappages_page _ _ _ halign, hw, Except.ok_bind] at hm
  dsimp only at hm
  split_ifs at hm
  obtain rfl := Except.ok.inj hm
  exact ⟨rfl, (Machine.hasPages_withMem n m' _).trans hn'⟩

/-! ## Growing the heap -/

/-- The loop of `uvmalloc` runs to its end if there is memory for its pages and tables. -/
theorem uvmallocLoop_served (n : ℕ) {oldsz xperm : ℕ} {r : Bool × Machine} (h : VmInv img m G e)
    (hG : G id = some pt) (has : as.pagetable = idx2pa pt.root) (hn : v + n ≤ userVpns)
    (hperm : FreshPerm (pteR ||| pteU ||| xperm))
    (hpages : m.hasPages (n + (pt.missing v n).card))
    (hloop : uvmallocLoop img as oldsz xperm n (v * pgsize) m = .ok r) : r.1 = true := by
  induction n generalizing v m G pt with
  | zero =>
    obtain rfl := Except.ok.inj hloop
    rfl
  | succ n ih =>
    have hv : v * pgsize / pgsize = v := mul_pgsize_div v
    have hva : v * pgsize < maxva := by
      rw [userVpns_eq] at hn
      rw [maxva_eq, pgsize_eq]
      omega
    unfold uvmallocLoop at hloop
    rcases h.kalloc with ⟨m1, hk, -⟩ | ⟨p, m1, hk, hinv, hc, he, hlt, hsame⟩
    · obtain ⟨r, m1, hk', -⟩ := Machine.hasPages_succ
        (Machine.hasPages_mono (by omega : 1 ≤ n + 1 + (pt.missing v (n + 1)).card) hpages)
      rw [hk] at hk'
      cases hk'
    · have hpages1 : m1.hasPages (n + (pt.missing v (n + 1)).card) := by
        obtain ⟨r, m2, hk', hpages2⟩ := Machine.hasPages_succ
          (by rwa [Nat.add_right_comm] at hpages : m.hasPages (_ + 1))
        obtain ⟨-, rfl⟩ := Prod.mk.inj (hk.symm.trans hk')
        exact hpages2
      rw [hk] at hloop
      obtain ⟨⟨b, m2⟩, hmap, hloop⟩ := Except.bind_eq_ok.mp hloop
      rw [has] at hmap
      -- the page is zeroed and mapped
      have hhand : 1 ≤ Function.update e p 1 p := by rw [Function.update_self]
      have hinv1 : VmInv img (m1.memset (idx2pa p) 0) G (Function.update e p 1) :=
        hinv.withMem (SameOutside.memset m1.mem p 0) fun q hq heq =>
          hinv.not_table_of_hand hhand (heq ▸ hq)
      have hpost := (mapFresh_spec hinv he hc hlt hG (mul_pgsize_mod v) (hv.symm ▸ by omega)
        hperm).of_eq_ok hmap
      obtain ⟨rest, hrest⟩ := Nat.exists_eq_add_of_le
        (show (pt.missing v 1).card ≤ (pt.missing v (n + 1)).card from
          Finset.card_le_card (Finset.filter_subset_filter _ (Finset.image_subset_image
            (Finset.Ico_subset_Ico_right (by omega)))))
      have hserved := mappages_served (n := n + rest) hinv1 hG hva (mul_pgsize_mod v)
        (by
          rw [hv, Machine.memset, Machine.hasPages_withMem]
          rwa [hrest, show n + ((pt.missing v 1).card + rest) = n + rest + (pt.missing v 1).card by
            omega] at hpages1) hmap
      obtain ⟨rfl, hpages2⟩ : b = true ∧ m2.hasPages (n + rest) := hserved
      obtain ⟨pt', hnext, -, -, hleaves⟩ := hpost
      rw [hv] at hleaves
      obtain ⟨pt'', hG', hroot, -, hdir⟩ := hnext.table pt hG
      obtain rfl : pt' = pt'' := by simpa using hG'
      have hfirst : pt'.dir (v / 1024) ≠ none := by
        have hleaf := userLeaves_iff.mp ((congrFun hleaves _).trans (Function.update_self ..))
        obtain ⟨-, pt1, hpt1, hl⟩ := hleaf
        obtain rfl : pt' = pt1 := by simpa using hpt1
        obtain ⟨t, ht⟩ := pt'.leaf_dir v _ hl
        rw [ht]
        exact Option.some_ne_none t
      have hmissing := PageTable.missing_succ (n := n) hdir hfirst
      dsimp only at hloop
      rw [next_page (by omega)] at hloop
      exact ih hnext.inv (Function.update_self ..) (has.trans (congrArg idx2pa hroot).symm) (by omega)
        (Machine.hasPages_mono (by omega) hpages2) hloop

theorem uvmalloc_served {oldsz newsz xperm : ℕ} {r : ℕ × Machine} (h : VmInv img m G e)
    (hr : Rooted G id as) (hpos : 0 < newsz) (hle : oldsz ≤ newsz) (hnew : newsz ≤ trapframe)
    (hperm : FreshPerm (pteR ||| pteU ||| xperm))
    (hpages : m.hasPages (upVpn newsz - upVpn oldsz +
      missingTables m.mem as.pagetable (upVpn oldsz) (upVpn newsz - upVpn oldsz)))
    (hu : uvmalloc img as oldsz newsz xperm m = .ok r) : r.1 ≠ 0 := by
  have hold : oldsz ≤ trapframe := by omega
  have hbound : upVpn oldsz + (upVpn newsz - upVpn oldsz) ≤ userVpns := by
    rw [Nat.add_sub_cancel' (upVpn_mono hle)]
    exact upVpn_le hnew
  obtain ⟨pt, hG, has⟩ := hr
  rw [has, (h.represents id pt hG).missingTables_eq hbound] at hpages
  unfold uvmalloc at hu
  rw [if_neg (Rooted.ne_zero ⟨pt, hG, has⟩), if_neg (Nat.not_lt.mpr hle)] at hu
  dsimp only at hu
  rw [uvmalloc_count hold hle, pgroundup_eq hold] at hu
  obtain ⟨⟨b, m'⟩, hloop, hu⟩ := Except.bind_eq_ok.mp hu
  obtain rfl : b = true := uvmallocLoop_served _ h hG has hbound hperm hpages hloop
  obtain rfl := Except.ok.inj hu
  exact hpos.ne'

end

end YHsys.Kernel
