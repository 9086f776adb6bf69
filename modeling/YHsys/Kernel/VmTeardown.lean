import YHsys.Kernel.VmOps

/-!
# Tearing an address space down

`as_destroy` never panics and gives back exactly the references the address space
held: after the kernel's two entries are gone and the regions are unmapped, the
table is taken out of the invariant (`VmInv.detach`) with all its references in
hand, and `freewalkall` drops them one slot at a time. `Detached` is the invariant
of that walk, and `g` the slots that are still to be freed.
-/

namespace YHsys.Kernel

open Except (ok_bind)

open Function (update update_eq_self update_idem update_of_ne update_self)

section

variable {img : KernelImage} {id v p : ℕ} {m m' : Machine} {G : Tables} {e : ℕ → ℕ}
  {pt : PageTable} {as : AddrSpace} {g : Slot → Option ℕ} {s : Slot}

/-! ## The kernel's entries -/

theorem KeepsPrivate.of_owned_eq {G' : Tables} (howned : owned G' = owned G)
    (hleaf : ∀ id v l, UserLeaf G' id v l → UserLeaf G id v l) : KeepsPrivate e G G' :=
  fun id v l' hl' => .inl ⟨l', hleaf id v l' hl', rfl, by rw [howned], fun hc => hc⟩

theorem setTop_keeps {t : ℕ} {x : Option Leaf} (h : VmInv img m G e) (hG : G id = some pt)
    (ht : pt.dir (v / 1024) = some t) (hv : ¬ v < userVpns) :
    KeepsPrivate e G (update G id (some (pt.setLeaf v x ⟨t, ht⟩))) ∧
      view (m.wr32 (idx2pa t + 4 * (v % 1024)) (leafEntry x)).mem
        (update G id (some (pt.setLeaf v x ⟨t, ht⟩))) = view m.mem G := by
  have hslot : owned G (id, .leaf v) = none := by simp [owned, hG, PageTable.page, hv]
  constructor
  · refine KeepsPrivate.of_owned_eq ?_ fun id' v' l hl => ?_
    · rw [owned_setLeaf hG, if_neg hv, ← hslot, update_eq_self]
    · rcases userLeaf_setLeaf hG hl with ⟨-, rfl, -⟩ | ⟨-, hold⟩
      · exact absurd hl.1 hv
      · exact hold
  · have hset := view_setLeaf m.mem hG v x ⟨t, ht⟩
    have hnone : view m.mem G (id, v) = none := if_neg hv
    rw [if_neg hv, ← hnone, update_eq_self] at hset
    rw [← hset]
    refine view_of_same (SameOutside.wr32 m.mem t _ (Nat.mod_lt v (by decide)))
      fun id' v' l' hl' heq => ?_
    rcases userLeaf_setLeaf hG hl' with ⟨-, rfl, -⟩ | ⟨-, hold⟩
    · exact absurd hl'.1 hv
    · refine h.leaf_not_table hold ?_
      rw [show pa2idx l'.pa = t from heq]
      exact ⟨id, pt, hG, .inr ⟨_, ht⟩⟩

theorem uvmunmapTop_spec (va : ℕ) (h : VmInv img m G e) (hG : G id = some pt)
    (has : as.pagetable = idx2pa pt.root) (hva : va < maxva) (halign : va % pgsize = 0)
    (hv : ¬ va / pgsize < userVpns) :
    ∃ m' pt', uvmunmap img as va 1 false m = .ok m' ∧
      VmInv img m' (update G id (some pt')) e ∧ pt'.root = pt.root ∧
      pt'.leaf = update pt.leaf (va / pgsize) none ∧
      KeepsPrivate e G (update G id (some pt')) ∧
      view m'.mem (update G id (some pt')) = view m.mem G := by
  have hpage : uvmunmap img as va 1 false m = uvmunmapPage img (idx2pa pt.root) false va m := by
    rw [uvmunmap, if_neg (has ▸ idx2pa_ne_zero _), if_neg (not_not.mpr halign), has, uvmunmapLoop]
    cases uvmunmapPage img (idx2pa pt.root) false va m <;> rfl
  have hG' : update G id (some pt) = G := by rw [← hG, update_eq_self]
  have hnoop : pt.leaf (va / pgsize) = none →
      VmInv img m (update G id (some pt)) e ∧ pt.root = pt.root ∧
      pt.leaf = update pt.leaf (va / pgsize) none ∧
      KeepsPrivate e G (update G id (some pt)) ∧
      view m.mem (update G id (some pt)) = view m.mem G := fun hnone => by
    rw [hG', ← hnone, update_eq_self]
    exact ⟨h, rfl, rfl, .refl e G, rfl⟩
  rw [hpage]
  rcases walk_false_cases h hG hva with ⟨hnone, hwalk⟩ | ⟨t, ht, hwalk, hword⟩
  · refine ⟨m, pt, ?_, hnoop hnone⟩
    rw [uvmunmapPage, hwalk]
    rfl
  · cases hl : pt.leaf (va / pgsize) with
    | none =>
      refine ⟨m, pt, ?_, hnoop hl⟩
      rw [uvmunmapPage, hwalk, ok_bind]
      dsimp only
      rw [hword, hl]
      rfl
    | some l =>
      obtain ⟨hpriv, hview⟩ := setTop_keeps (x := none) h hG ht hv
      refine ⟨_, _, ?_, h.setTop hG ht hv none (by intros; contradiction), rfl, rfl, hpriv, hview⟩
      rw [uvmunmapPage, hwalk, ok_bind]
      dsimp only
      rw [hword, hl, if_neg (leafEntry_some_valid l), if_neg (by decide)]
      rfl

/-! ## Regions -/

/-- The pages of a region. -/
def regionPages (r : MemRegion) : ℕ := upVpn r.vaEnd - r.vaStart / pgsize

/-- The view without the pages of the regions. -/
def clearRegions (V : ℕ × ℕ → Option UserPage) (id : ℕ) (rs : List MemRegion) :
    ℕ × ℕ → Option UserPage :=
  rs.foldl (fun V r => clearPages V id (r.vaStart / pgsize) (regionPages r)) V

theorem clearRegions_of_ne (V : ℕ × ℕ → Option UserPage) (rs : List MemRegion) {x : ℕ × ℕ}
    (hx : x.1 ≠ id) : clearRegions V id rs x = V x := by
  unfold clearRegions
  induction rs generalizing V with
  | nil => rfl
  | cons r rs ih =>
    rw [List.foldl_cons, ih]
    exact if_neg fun h => hx h.1

theorem RegionOk.pages {r : MemRegion} (h : RegionOk r) :
    asRegionMapStart r = r.vaStart / pgsize * pgsize ∧ asRegionMapNpages r = regionPages r ∧
      r.vaStart / pgsize + regionPages r ≤ userVpns ∧
      (pgroundup r.vaEnd - pgrounddown r.vaStart) / pgsize = regionPages r := by
  have h1 := h.start_le
  have h2 := h.end_le
  have h3 := h.aligned
  simp only [asRegionMapStart, asRegionMapNpages, regionPages, pgrounddown, pgroundup, upVpn,
    trapframe_eq, userVpns_eq, pgsize_eq] at *
  refine ⟨trivial, ?_, by omega, by omega⟩
  split_ifs <;> omega

theorem unmapRegion_spec {r : MemRegion} (h : VmInv img m G e) (hr : Rooted G id as)
    (hok : RegionOk r) :
    ∃ m' G', (if 0 < asRegionMapNpages r then
        uvmunmap img as (asRegionMapStart r) (asRegionMapNpages r) (asRegionDoFree r.type) m
      else .ok m) = .ok m' ∧ Next img id G m' G' e ∧
      view m'.mem G' = clearPages (view m.mem G) id (r.vaStart / pgsize) (regionPages r) := by
  obtain ⟨hstart, hnpages, hle, -⟩ := hok.pages
  rw [hstart, hnpages, hok.freed]
  split_ifs with hpos
  · obtain ⟨m', G', hk, hnext, hview, -⟩ := uvmunmap_spec _ h hr hle
    exact ⟨m', G', hk, hnext, hview⟩
  · refine ⟨m, G, rfl, Next.refl h id, ?_⟩
    rw [Nat.eq_zero_of_not_pos hpos, clearPages_zero]

theorem unmapRegions_loop (rs : List MemRegion) (h : VmInv img m G e) (hr : Rooted G id as)
    (hok : ∀ r ∈ rs, RegionOk r) :
    ∃ m' G', rs.foldlM (fun m r =>
        if 0 < asRegionMapNpages r then
          uvmunmap img as (asRegionMapStart r) (asRegionMapNpages r) (asRegionDoFree r.type) m
        else .ok m) m = .ok m' ∧ Next img id G m' G' e ∧
      view m'.mem G' = clearRegions (view m.mem G) id rs := by
  induction rs generalizing m G with
  | nil => exact ⟨m, G, rfl, Next.refl h id, rfl⟩
  | cons r rs ih =>
    obtain ⟨m1, G1, hk1, hnext1, hview1⟩ := unmapRegion_spec h hr (hok r List.mem_cons_self)
    obtain ⟨m2, G2, hk2, hnext2, hview2⟩ := ih hnext1.inv (hr.next hnext1)
      fun r' hr' => hok r' (List.mem_cons_of_mem r hr')
    refine ⟨m2, G2, ?_, hnext1.trans hnext2, ?_⟩
    · rw [List.foldlM_cons, hk1, ok_bind]
      exact hk2
    · rw [hview2, hview1]
      rfl

theorem unmapRegions_spec (h : VmInv img m G e) (hr : Rooted G id as) (hok : RegionsOk as) :
    ∃ m' G', unmapRegions img as m = .ok m' ∧ Next img id G m' G' e ∧
      view m'.mem G' = clearRegions (view m.mem G) id as.regions :=
  unmapRegions_loop as.regions h hr hok

/-! ## Dropping the references of a detached table -/

/-- A slot of the tree of tables. -/
def Slot.IsNode (s : Slot) : Prop := ∀ v, s ≠ .leaf v

theorem Slot.isNode_root : Slot.root.IsNode := nofun

theorem Slot.isNode_table (i : ℕ) : (Slot.table i).IsNode := nofun

/-- The slots `g` of a detached table are in hand; its tables are held once. -/
structure Detached (img : KernelImage) (G : Tables) (e : ℕ → ℕ) (g : Slot → Option ℕ)
    (m : Machine) : Prop where
  inv : VmInv img m G fun q => e q + Holders.count g q
  bounded : Holders.Bounded g
  sole : ∀ s p, s.IsNode → g s = some p → m.kmem.refcnt p = 1

namespace Detached

theorem hand (h : Detached img G e g m) (hs : g s = some p) : 1 ≤ e p + Holders.count g p :=
  Nat.le_trans (Holders.count_pos h.bounded hs) (Nat.le_add_left _ _)

theorem node_only (h : Detached img G e g m) (hs : g s = some p) (hn : s.IsNode) :
    Holders.count (owned G) p = 0 ∧ ∀ s', g s' = some p → s' = s := by
  have h1 := h.sole s p hn hs
  have h2 := h.inv.count p
  have h3 := Holders.count_pos h.bounded hs
  exact ⟨by omega, fun s' hs' => Holders.eq_of_count_le_one h.bounded (by omega) hs' hs⟩

theorem free (h : Detached img G e g m) (hs : g s = some p) :
    ∃ m', m.kfree img (idx2pa p) = .ok m' ∧ Detached img G e (update g s none) m' ∧
      SameOutside {p} m.mem m'.mem ∧ view m'.mem G = view m.mem G := by
  obtain ⟨m', hk, hinv, hsame⟩ := h.inv.kfree (h.hand hs)
  have hcount : update (fun q => e q + Holders.count g q) p
      (e p + Holders.count g p - 1) =
        fun q => e q + Holders.count (update g s none) q := by
    funext q
    have hd := Holders.count_drop h.bounded hs q
    by_cases hqp : q = p
    · subst hqp
      rw [if_pos rfl] at hd
      rw [update_self]
      omega
    · rw [if_neg hqp, Nat.add_zero] at hd
      rw [update_of_ne hqp, hd]
  rw [hcount] at hinv
  refine ⟨m', hk, ⟨hinv, h.bounded.update s none, fun s' p' hn hs' => ?_⟩,
    hsame.mono fun q hq => hq.1, view_of_same hsame fun _ _ _ hl heq => ?_⟩
  · have hss : s' ≠ s := fun heq => by
      rw [heq, update_self] at hs'
      cases hs'
    rw [update_of_ne hss] at hs'
    -- the table of another slot is not the page being freed
    have hpp : p' ≠ p := fun heq => hss ((h.node_only hs' hn).2 s (heq ▸ hs)).symm
    have hd := Holders.count_drop h.bounded hs p'
    rw [if_neg hpp, Nat.add_zero] at hd
    have h1 := h.sole s' p' hn hs'
    have h2 := h.inv.count p'
    have h3 := hinv.count p'
    omega
  · exact h.inv.leaf_ne heq.2 hl heq.1

theorem write (h : Detached img G e g m) (hs : g s = some p) (hn : s.IsNode) {j : ℕ}
    (hj : j < 1024) (w : ℕ) :
    Detached img G e g (m.wr32 (idx2pa p + 4 * j) w) ∧
      view (m.wr32 (idx2pa p + 4 * j) w).mem G = view m.mem G := by
  have hsame := SameOutside.wr32 m.mem p w hj
  refine ⟨⟨h.inv.withMem hsame fun q hq heq => ?_, h.bounded, h.sole⟩,
    view_of_same hsame fun _ _ _ hl heq => ?_⟩
  · exact h.inv.not_table_of_hand (h.hand hs) (heq ▸ hq)
  · exact h.inv.leaf_ne (h.node_only hs hn).1 hl heq

end Detached

/-- What freeing pages and clearing entries of the table `t` leaves alone: the
tables of the other slots. -/
def OtherTables (g : Slot → Option ℕ) (t : ℕ) (m m' : Machine) : Prop :=
  ∀ s q, s.IsNode → g s = some q → q ≠ t → pageBytes m.mem q = pageBytes m'.mem q

theorem freewalkEntry_leaf (free : ℕ → Machine → Except Panic Machine) {i t j : ℕ} {x : Option Leaf}
    (h : Detached img G e g m) (ht : g (.table i) = some t) (hj : j < 1024)
    (hword : rd32 m.mem (idx2pa t + 4 * j) = leafEntry x)
    (hslot : g (.leaf (1024 * i + j)) = x.map fun l => pa2idx l.pa)
    (hx : ∀ l, x = some l → idx2pa (pa2idx l.pa) = l.pa ∧
      l.flags.testBit 1 = true) :
    ∃ m', freewalkEntry img free (idx2pa t) m j = .ok m' ∧
      Detached img G e (update g (.leaf (1024 * i + j)) none) m' ∧
      view m'.mem G = view m.mem G ∧ OtherTables g t m m' ∧
      ∀ k < 1024, k ≠ j → rd32 m'.mem (idx2pa t + 4 * k) = rd32 m.mem (idx2pa t + 4 * k) := by
  have hnode := Slot.isNode_table i
  unfold freewalkEntry
  dsimp only
  rw [hword]
  cases x with
  | none =>
    refine ⟨m, rfl, ?_, rfl, fun _ _ _ _ _ => rfl, fun _ _ _ => rfl⟩
    rw [show (none : Option ℕ) = g (.leaf (1024 * i + j)) from hslot.symm, update_eq_self]
    exact h
  | some l =>
    obtain ⟨hpa, hread⟩ := hx l rfl
    have hnz : ¬ leafEntry (some l) &&& (pteR ||| pteW ||| pteX) = 0 := by
      rw [and_rwx_eq_zero, show leafEntry (some l) = l.pte from rfl, l.testBit_pte (by decide), hread]
      exact fun hz => Bool.noConfusion hz.1
    obtain ⟨m1, hk, hd, hsame, hview⟩ := h.free hslot
    have ht' : update g (.leaf (1024 * i + j)) none (.table i) = some t := by
      rw [update_of_ne (by simp)]
      exact ht
    obtain ⟨hd2, hview2⟩ := hd.write ht' hnode hj 0
    -- the page of the entry is not a table
    have hne : ∀ s q, s.IsNode → g s = some q → q ≠ pa2idx l.pa := fun s q hn hs heq =>
      hn _ ((h.node_only hs hn).2 (.leaf (1024 * i + j)) (heq ▸ hslot)).symm
    refine ⟨m1.wr32 (idx2pa t + 4 * j) 0, ?_, hd2, hview2.trans hview, fun s q hn hs hqt => ?_,
      fun k hk' hkj => ?_⟩
    · rw [if_neg (leafEntry_some_valid l), if_neg hnz,
        show pte2pa (leafEntry (some l)) = l.pa from l.pte2pa_pte, ← hpa, hk]
      rfl
    · exact (hsame q (hne s q hn hs)).trans (SameOutside.wr32 m1.mem t 0 hj q hqt)
    · rw [show (m1.wr32 (idx2pa t + 4 * j) 0).mem = wr32 m1.mem (idx2pa t + 4 * j) 0 from rfl,
        rd32_wr32_same_page _ _ _ (Ne.symm hkj)]
      exact (hsame.rd32_eq (hne _ t hnode ht) hk').symm

theorem freewalkLeaves_spec (free : ℕ → Machine → Except Panic Machine) {i t : ℕ}
    {leaf : ℕ → Option Leaf} (n : ℕ) (hn : n ≤ 1024) (h : Detached img G e g m)
    (ht : g (.table i) = some t)
    (hword : ∀ j < 1024, rd32 m.mem (idx2pa t + 4 * j) = leafEntry (leaf (1024 * i + j)))
    (hslot : ∀ j < 1024, g (.leaf (1024 * i + j)) = (leaf (1024 * i + j)).map fun l => pa2idx l.pa)
    (hx : ∀ v l, leaf v = some l → idx2pa (pa2idx l.pa) = l.pa ∧
      l.flags.testBit 1 = true) :
    ∃ m' g', (List.range n).foldlM (freewalkEntry img free (idx2pa t)) m = .ok m' ∧
      Detached img G e g' m' ∧ view m'.mem G = view m.mem G ∧ OtherTables g t m m' ∧
      (∀ s, s.IsNode → g' s = g s) ∧
      (∀ v, g' (.leaf v) = if 1024 * i ≤ v ∧ v < 1024 * i + n then none else g (.leaf v)) ∧
      ∀ k < 1024, n ≤ k → rd32 m'.mem (idx2pa t + 4 * k) = rd32 m.mem (idx2pa t + 4 * k) := by
  induction n with
  | zero =>
    refine ⟨m, g, rfl, h, rfl, fun _ _ _ _ _ => rfl, fun _ _ => rfl, fun v => ?_, fun _ _ _ => rfl⟩
    rw [if_neg (by omega)]
  | succ n ih =>
    obtain ⟨m1, g1, hk1, hd1, hview1, hother1, hnode1, hleaf1, hword1⟩ := ih (by omega)
    have hv : g1 (.leaf (1024 * i + n)) = (leaf (1024 * i + n)).map fun l => pa2idx l.pa := by
      rw [hleaf1, if_neg (by omega), hslot n (by omega)]
    obtain ⟨m2, hk2, hd2, hview2, hother2, hword2⟩ := freewalkEntry_leaf free hd1
      (by rw [hnode1 _ (Slot.isNode_table i), ht]) (j := n) (by omega)
      (by rw [hword1 n (by omega) (Nat.le_refl n), hword n (by omega)]) hv (hx _)
    refine ⟨m2, _, ?_, hd2, hview2.trans hview1, fun s q hs hq hqt => ?_, fun s hs => ?_,
      fun v => ?_, fun k hk hnk => ?_⟩
    · rw [List.range_succ, List.foldlM_append, hk1, ok_bind, List.foldlM_cons, hk2]
      rfl
    · exact (hother1 s q hs hq hqt).trans (hother2 s q hs (by rw [hnode1 s hs, hq]) hqt)
    · rw [update_of_ne (hs _), hnode1 s hs]
    · by_cases hvn : v = 1024 * i + n
      · rw [hvn, update_self, if_pos (by omega)]
      · rw [update_of_ne (fun heq => hvn (Slot.leaf.inj heq)), hleaf1]
        by_cases hin : 1024 * i ≤ v ∧ v < 1024 * i + n
        · rw [if_pos hin, if_pos (by omega)]
        · rw [if_neg hin, if_neg (by omega)]
    · rw [hword2 k hk (by omega), hword1 k hk (by omega)]

/-- The slots that are left when the tables below the root entries `< n` are gone. -/
structure FreedBelow (g : Slot → Option ℕ) (n : ℕ) (g' : Slot → Option ℕ) : Prop where
  root : g' .root = g .root
  table : ∀ i, g' (.table i) = if i < n then none else g (.table i)
  leaf : ∀ v, g' (.leaf v) = if v / 1024 < n then none else g (.leaf v)

theorem freewalkTable_spec (depth : ℕ) {i t : ℕ} (leaf : ℕ → Option Leaf) (h : Detached img G e g m)
    (ht : g (.table i) = some t)
    (hword : ∀ j < 1024, rd32 m.mem (idx2pa t + 4 * j) = leafEntry (leaf (1024 * i + j)))
    (hslot : ∀ j < 1024, g (.leaf (1024 * i + j)) = (leaf (1024 * i + j)).map fun l => pa2idx l.pa)
    (hx : ∀ v l, leaf v = some l → idx2pa (pa2idx l.pa) = l.pa ∧
      l.flags.testBit 1 = true) :
    ∃ m' g', freewalkall img (depth + 1) (idx2pa t) m = .ok m' ∧ Detached img G e g' m' ∧
      view m'.mem G = view m.mem G ∧ OtherTables g t m m' ∧ g' (.table i) = none ∧
      (∀ s, s.IsNode → s ≠ .table i → g' s = g s) ∧
      ∀ v, g' (.leaf v) = if v / 1024 = i then none else g (.leaf v) := by
  obtain ⟨m1, g1, hk1, hd1, hview1, hother1, hnode1, hleaf1, -⟩ :=
    freewalkLeaves_spec (freewalkall img depth) 1024 (Nat.le_refl _) h ht hword hslot hx
  have ht1 : g1 (.table i) = some t := by rw [hnode1 _ (Slot.isNode_table i), ht]
  obtain ⟨m2, hk2, hd2, hsame2, hview2⟩ := hd1.free ht1
  refine ⟨m2, _, ?_, hd2, hview2.trans hview1, fun s q hs hq hqt => ?_, update_self ..,
    fun s hs hsi => ?_, fun v => ?_⟩
  · rw [freewalkall, hk1, ok_bind, hk2]
  · exact (hother1 s q hs hq hqt).trans (hsame2 q hqt)
  · rw [update_of_ne hsi, hnode1 s hs]
  · rw [update_of_ne (by simp), hleaf1]
    by_cases hvi : v / 1024 = i
    · rw [if_pos hvi, if_pos (by omega)]
    · rw [if_neg hvi, if_neg (by omega)]

/-- The first `n` entries of the root. -/
theorem freewalkRoot_spec (depth : ℕ) {r : ℕ} (n : ℕ) (hn : n ≤ 1024) (h : Detached img G e pt.page m)
    (hrep : Represents m.mem pt) (hr : pt.root = r)
    (htop : ∀ v, ¬ v < userVpns → pt.leaf v = none)
    (hx : ∀ v l, pt.leaf v = some l → idx2pa (pa2idx l.pa) = l.pa ∧
      l.flags.testBit 1 = true) :
    ∃ m' g', (List.range n).foldlM (freewalkEntry img (freewalkall img (depth + 1)) (idx2pa r)) m =
        .ok m' ∧
      Detached img G e g' m' ∧ view m'.mem G = view m.mem G ∧ FreedBelow pt.page n g' ∧
      (∀ k < 1024, n ≤ k → rd32 m'.mem (idx2pa r + 4 * k) = rd32 m.mem (idx2pa r + 4 * k)) ∧
      ∀ i t, n ≤ i → pt.dir i = some t → pageBytes m.mem t = pageBytes m'.mem t := by
  induction n with
  | zero =>
    refine ⟨m, pt.page, rfl, h, rfl, ⟨rfl, fun i => ?_, fun v => ?_⟩, fun _ _ _ => rfl,
      fun _ _ _ _ => rfl⟩
    · rw [if_neg (by omega)]
    · rw [if_neg (by omega)]
  | succ n ih =>
    obtain ⟨m1, g1, hk1, hd1, hview1, hfreed, hroot1, htab1⟩ := ih (by omega)
    have hgroot : g1 .root = some r := by rw [hfreed.root, ← hr]; rfl
    have hword : rd32 m1.mem (idx2pa r + 4 * n) = dirEntry (pt.dir n) := by
      rw [hroot1 n (by omega) (Nat.le_refl n), ← hr, hrep.dirWord n (by omega)]
    have hgn : g1 (.table n) = pt.dir n := by rw [hfreed.table, if_neg (by omega)]; rfl
    have hfold : (List.range (n + 1)).foldlM
        (freewalkEntry img (freewalkall img (depth + 1)) (idx2pa r)) m =
          freewalkEntry img (freewalkall img (depth + 1)) (idx2pa r) m1 n := by
      rw [List.range_succ, List.foldlM_append, hk1, ok_bind, List.foldlM_cons]
      cases freewalkEntry img (freewalkall img (depth + 1)) (idx2pa r) m1 n <;> rfl
    rw [hfold, freewalkEntry]
    dsimp only
    rw [hword]
    cases hdir : pt.dir n with
    | none =>
      refine ⟨m1, g1, rfl, hd1, hview1, ⟨hfreed.root, fun i => ?_, fun v => ?_⟩,
        fun k hk hnk => hroot1 k hk (by omega), fun i t hi ht => htab1 i t (by omega) ht⟩
      · rw [hfreed.table]
        by_cases hin : i = n
        · rw [hin, if_neg (by omega), if_pos (by omega)]
          exact hdir
        · by_cases hlt : i < n
          · rw [if_pos hlt, if_pos (by omega)]
          · rw [if_neg hlt, if_neg (by omega)]
      · rw [hfreed.leaf]
        by_cases hin : v / 1024 = n
        · rw [if_neg (by omega), if_pos (by omega)]
          have hl : pt.leaf v = none := PageTable.leaf_eq_none (hin ▸ hdir)
          simp [PageTable.page, hl]
        · by_cases hlt : v / 1024 < n
          · rw [if_pos hlt, if_pos (by omega)]
          · rw [if_neg hlt, if_neg (by omega)]
    | some t =>
      have hlt := (pt.dir_lt n t hdir).2
      have htr : t ≠ r := fun heq => by
        have := (hd1.node_only hgroot Slot.isNode_root).2 (.table n) (by rw [hgn, hdir, heq])
        cases this
      have hbytes := htab1 n t (Nat.le_refl n) hdir
      have hsame : SameOutside {q | pageBytes m.mem q ≠ pageBytes m1.mem q} m.mem m1.mem :=
        fun q hq => not_not.mp hq
      obtain ⟨m2, g2, hk2, hd2, hview2, hother2, htn2, hnode2, hleaf2⟩ :=
        freewalkTable_spec depth pt.leaf hd1 (hgn.trans hdir)
          (fun j hj => by
            rw [← hsame.rd32_eq (p := t) (fun hne => hne hbytes) hj, hrep.leafWord n t hdir j hj])
          (fun j hj => by
            rw [hfreed.leaf, if_neg (by omega)]
            by_cases hv : 1024 * n + j < userVpns
            · simp [PageTable.page, hv]
            · simp [PageTable.page, hv, htop _ hv]) hx
      have hr2 : g2 .root = some r := by
        rw [hnode2 _ Slot.isNode_root (by simp), hgroot]
      obtain ⟨hd3, hview3⟩ := hd2.write hr2 Slot.isNode_root (j := n) (by omega) 0
      have hv1 : ¬ dirEntry (some t) &&& pteV = 0 := by
        rw [dirEntry_some hlt, pteV, ← Ne, and_shift_ne_zero, Leaf.testBit_pte _ (by decide)]
        exact (tableLeaf t hlt).valid
      have hrwx : dirEntry (some t) &&& (pteR ||| pteW ||| pteX) = 0 := by
        rw [dirEntry_some hlt, and_rwx_eq_zero, Leaf.testBit_pte _ (by decide),
          Leaf.testBit_pte _ (by decide), Leaf.testBit_pte _ (by decide)]
        show pteV.testBit 1 = false ∧ pteV.testBit 2 = false ∧ pteV.testBit 3 = false
        decide
      refine ⟨_, g2, ?_, hd3, (hview3.trans hview2).trans hview1, ⟨?_, fun i => ?_, fun v => ?_⟩,
        fun k hk hnk => ?_, fun i t' hi ht' => ?_⟩
      · rw [if_neg hv1, if_pos hrwx, dirEntry_some hlt, Leaf.pte2pa_pte]
        show (freewalkall img (depth + 1) (idx2pa t) m1 >>= _) = _
        rw [hk2]
        rfl
      · rw [hr2, ← hr]
        rfl
      · by_cases hin : i = n
        · rw [hin, htn2, if_pos (by omega)]
        · rw [hnode2 _ (Slot.isNode_table i) (fun heq => hin (Slot.table.inj heq)), hfreed.table]
          by_cases hlt' : i < n
          · rw [if_pos hlt', if_pos (by omega)]
          · rw [if_neg hlt', if_neg (by omega)]
      · rw [hleaf2, hfreed.leaf]
        by_cases hin : v / 1024 = n
        · rw [if_pos hin, if_pos (by omega)]
        · by_cases hlt' : v / 1024 < n
          · rw [if_neg hin, if_pos hlt', if_pos (by omega)]
          · rw [if_neg hin, if_neg hlt', if_neg (by omega)]
      · rw [show (m2.wr32 (idx2pa r + 4 * n) 0).mem = wr32 m2.mem (idx2pa r + 4 * n) 0 from rfl,
          rd32_wr32_same_page _ _ _ (by omega), ← hroot1 k hk (by omega)]
        have hs : SameOutside {q | q ≠ r} m1.mem m2.mem := fun q hq => by
          rw [show q = r from not_not.mp hq]
          exact hother2 _ r Slot.isNode_root hgroot (Ne.symm htr)
        exact (hs.rd32_eq (p := r) (fun hne => hne rfl) hk).symm
      · have hg' : g1 (.table i) = some t' := by
          rw [hfreed.table, if_neg (by omega)]
          exact ht'
        have htt : t' ≠ t := fun heq => by
          have := (hd1.node_only hg' (Slot.isNode_table i)).2 (.table n) (by rw [hgn, hdir, heq])
          have := Slot.table.inj this
          omega
        have htr' : t' ≠ r := fun heq => by
          have := (hd1.node_only hgroot Slot.isNode_root).2 (.table i) (heq ▸ hg')
          cases this
        exact ((htab1 i t' (by omega) ht').trans
          (hother2 _ t' (Slot.isNode_table i) hg' htt)).trans
            (SameOutside.wr32 m2.mem r 0 (by omega) t' htr')

theorem freewalkall_spec (h : VmInv img m G e) (hG : G id = some pt)
    (htop : ∀ v, ¬ v < userVpns → pt.leaf v = none) :
    ∃ m', freewalkall img freewalkDepth (idx2pa pt.root) m = .ok m' ∧
      VmInv img m' (update G id none) e ∧
      view m'.mem (update G id none) = view m.mem (update G id none) := by
  have huser : ∀ v l, pt.leaf v = some l → UserLeaf G id v l := fun v l hl =>
    ⟨not_not.mp fun hv => Option.some_ne_none l (hl.symm.trans (htop v hv)), pt, hG, hl⟩
  have hd : Detached img (update G id none) e pt.page m := by
    refine ⟨h.detach hG, ?_, fun s p hs hp => h.tables p ?_⟩
    · -- the slots of one table inject into all slots
      refine Set.Finite.of_finite_image (f := fun s => (id, s)) (h.bounded.subset ?_)
        (fun _ _ _ _ heq => (Prod.mk.inj heq).2)
      rintro _ ⟨s, hs, rfl⟩
      show owned G (id, s) ≠ none
      simpa [owned, hG] using hs
    · cases s with
      | root => exact ⟨id, pt, hG, .inl (Option.some.inj hp)⟩
      | table i => exact ⟨id, pt, hG, .inr ⟨i, hp⟩⟩
      | leaf v => exact absurd rfl (hs v)
  obtain ⟨m1, g1, hk1, hd1, hview1, hfreed, -⟩ := freewalkRoot_spec 6 1024
    (Nat.le_refl _) hd (h.represents id pt hG) rfl htop
    fun v l hl => ⟨h.leaf_pa (huser v l hl), (h.leaves id v l (huser v l hl)).readable⟩
  have hroot : g1 .root = some pt.root := hfreed.root
  obtain ⟨m2, hk2, hd2, -, hview2⟩ := hd1.free hroot
  have hnone : ∀ s, update g1 .root none s = none := fun s => by
    cases s with
    | root => exact update_self ..
    | table i =>
      rw [update_of_ne (by simp), hfreed.table]
      split_ifs with hi
      · rfl
      · cases hdir : pt.dir i with
        | none => exact hdir
        | some t => exact absurd (pt.dir_lt i t hdir).1 hi
    | leaf v =>
      rw [update_of_ne (by simp), hfreed.leaf]
      split_ifs with hv
      · rfl
      · have hl : pt.leaf v = none := PageTable.leaf_eq_none (by
          cases hdir : pt.dir (v / 1024) with
          | none => rfl
          | some t => exact absurd (pt.dir_lt _ t hdir).1 hv)
        simp [PageTable.page, hl]
  refine ⟨m2, ?_, ?_, hview2.trans hview1⟩
  · show freewalkall img (7 + 1) _ m = _
    rw [freewalkall, hk1, ok_bind, hk2]
  · have hzero : (fun q => e q + Holders.count (update g1 .root none) q) = e := by
      funext q
      rw [Holders.count_eq_zero fun s hs => by rw [hnone s] at hs; cases hs]
      rfl
    rw [← hzero]
    exact hd2.inv

/-- The view without an address space. -/
def dropSpace (V : ℕ × ℕ → Option UserPage) (id : ℕ) : ℕ × ℕ → Option UserPage := fun x =>
  if x.1 = id then none else V x

theorem view_detach (mem : Mem) (G : Tables) (id : ℕ) :
    view mem (update G id none) = dropSpace (view mem G) id := by
  funext ⟨id', v⟩
  unfold dropSpace view
  by_cases hid : id' = id
  · subst hid
    simp
  · rw [if_neg hid, update_of_ne hid]

theorem keepsPrivate_detach (h : VmInv img m G e) (hG : G id = some pt) :
    KeepsPrivate e G (update G id none) := by
  intro id' v l' hl'
  have hid : id' ≠ id := fun heq => by
    obtain ⟨-, pt', hpt', -⟩ := hl'
    rw [heq, update_self] at hpt'
    cases hpt'
  have hold : UserLeaf G id' v l' := by
    obtain ⟨hv, pt', hpt', hl⟩ := hl'
    rw [update_of_ne hid] at hpt'
    exact ⟨hv, pt', hpt', hl⟩
  refine .inl ⟨l', hold, rfl, ?_, fun hc => hc⟩
  have h1 := (h.detach hG).count (pa2idx l'.pa)
  have h2 := h.count (pa2idx l'.pa)
  omega

/-- `as_destroy` does not panic: it frees every page the address space holds. -/
theorem asDestroy_spec (h : VmInv img m G e) (hr : Rooted G id as) (hok : RegionsOk as) :
    ∃ m', asDestroy img as m = .ok (⟨0, []⟩, m') ∧ VmInv img m' (update G id none) e ∧
      KeepsPrivate e G (update G id none) ∧
      view m'.mem (update G id none) = dropSpace (view m.mem G) id := by
  obtain ⟨pt, hG, has⟩ := hr
  obtain ⟨m1, pt1, hk1, hinv1, hroot1, hleaf1, -, hview1⟩ := uvmunmapTop_spec trampoline h hG
    has (by decide) (by decide) (by decide)
  have hG1 : update G id (some pt1) id = some pt1 := update_self ..
  obtain ⟨m2, pt2, hk2, hinv2, hroot2, hleaf2, -, hview2⟩ := uvmunmapTop_spec trapframe hinv1
    hG1 (by rw [has, hroot1]) (by decide) (by decide) (by decide)
  rw [update_idem] at hinv2 hview2
  have hr2 : Rooted (update G id (some pt2)) id as :=
    ⟨pt2, update_self .., by rw [has, hroot2, hroot1]⟩
  obtain ⟨m3, G3, hk3, hnext3, hview3⟩ := unmapRegions_spec hinv2 hr2 hok
  obtain ⟨pt3, hG3, hroot3, htop3, -⟩ := hnext3.table pt2 (update_self ..)
  -- the two entries above the user pages are gone
  have htop : ∀ v, ¬ v < userVpns → pt3.leaf v = none := fun v hv => by
    rw [htop3 v hv, hleaf2, hleaf1]
    by_cases h1 : v = trapframe / pgsize
    · rw [h1, update_self]
    · by_cases h2 : v = trampoline / pgsize
      · rw [update_of_ne h1, h2, update_self]
      · rw [update_of_ne h1, update_of_ne h2]
        refine PageTable.leaf_eq_none ?_
        cases hdir : pt.dir (v / 1024) with
        | none => rfl
        | some t =>
          have := (pt.dir_lt _ t hdir).1
          simp only [userVpns_eq, trapframe_eq, trampoline_eq, pgsize_eq] at *
          omega
  obtain ⟨m4, hk4, hinv4, hview4⟩ := freewalkall_spec hnext3.inv hG3 htop
  have hGG : update G3 id none = update G id none := by
    funext id'
    by_cases hid : id' = id
    · rw [hid, update_self, update_self]
    · rw [update_of_ne hid, update_of_ne hid, hnext3.others id' hid,
        update_of_ne hid]
  rw [hGG] at hinv4
  refine ⟨m4, ?_, hinv4, keepsPrivate_detach h hG, ?_⟩
  · have hne : as.pagetable ≠ 0 := has ▸ idx2pa_ne_zero _
    rw [asDestroy, if_neg hne, hk1, ok_bind, hk2, ok_bind, uvmfree, if_neg hne, hk3,
      ok_bind, has, ← hroot1, ← hroot2, ← hroot3, hk4]
    rfl
  · rw [← hGG, hview4, view_detach, hview3, hview2, hview1]
    -- the regions only clear pages of the space that goes
    have hclear : ∀ (rs : List MemRegion) (V W : ℕ × ℕ → Option UserPage),
        dropSpace V id = dropSpace W id → dropSpace (clearRegions V id rs) id = dropSpace W id := by
      intro rs
      induction rs with
      | nil => exact fun V W hVW => hVW
      | cons r rs ih =>
        intro V W hVW
        refine ih _ W ?_
        rw [← hVW]
        funext x
        unfold dropSpace clearPages
        split_ifs with h1
        · rfl
        · exact if_neg fun hin => h1 hin.1
    exact hclear as.regions _ _ rfl

end

end YHsys.Kernel
