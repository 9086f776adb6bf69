import YHsys.Kernel.CowFork

/-!
# Kernel copies to and from user memory

`copyout`, `copyin` and `copyinstr` seen from user memory: the bytes that a process
sees before and after. The loops split the range at page boundaries, and a page in the
middle may be allocated, made private or refused.

None of it looks at `PTE_U` when a fault is taken: `vmfault` gives out any page that is
copy-on-write. After a `fork` that includes the guard page below the stack, and the
results below hold exactly for ranges without such a page.
-/

namespace YHsys.Kernel

open Function (update_idem update_of_ne update_self)
open Option (any_eq_true bind_eq_some_iff bind_some map_eq_some_iff map_some none_or some_or)

/-! ## The bytes a process sees -/

/-- The byte at `va`; a page of the heap that is not there yet reads as zeros. -/
def byteAt (rs : List MemRegion) (V : Pages) (id va : ℕ) : Option UInt8 :=
  (pageAt rs V id (pgrounddown va)).map fun pg => pg.data (va % pgsize)

/-- The bytes `B` with `bs` put in from `va` on. -/
def putBytes (B : ℕ → Option UInt8) (va : ℕ) (bs : List UInt8) : ℕ → Option UInt8 := fun a =>
  if va ≤ a then (bs[a - va]?).or (B a) else B a

theorem putBytes_nil (B : ℕ → Option UInt8) (va : ℕ) : putBytes B va [] = B := by
  funext a
  simp [putBytes]

theorem putBytes_append (B : ℕ → Option UInt8) (va : ℕ) (xs ys : List UInt8) :
    putBytes (putBytes B va xs) (va + xs.length) ys = putBytes B va (xs ++ ys) := by
  funext a
  unfold putBytes
  by_cases ha : va ≤ a
  · by_cases hx : va + xs.length ≤ a
    · rw [if_pos hx, if_pos ha, if_pos ha, List.getElem?_append_right (by omega),
        List.getElem?_eq_none (l := xs) (by omega), none_or,
        show a - va - xs.length = a - (va + xs.length) by omega]
    · rw [if_neg hx, if_pos ha, if_pos ha, List.getElem?_append_left (by omega)]
  · rw [if_neg (by omega), if_neg ha, if_neg ha]

theorem putBytes_apply (B : ℕ → Option UInt8) (va : ℕ) (bs : List UInt8) (a : ℕ) :
    putBytes B va bs a = if va ≤ a ∧ a < va + bs.length then bs[a - va]? else B a := by
  unfold putBytes
  by_cases ha : va ≤ a
  · by_cases hlt : a < va + bs.length
    · rw [if_pos ha, if_pos ⟨ha, hlt⟩, List.getElem?_eq_getElem (by omega), some_or]
    · rw [if_pos ha, if_neg fun h => hlt h.2, List.getElem?_eq_none (by omega), none_or]
  · rw [if_neg ha, if_neg fun h => ha h.1]

theorem putBytes_take (B : ℕ → Option UInt8) (va : ℕ) {bs : List UInt8} {k : ℕ} (hk : k ≤ bs.length)
    (a : ℕ) : putBytes B va (bs.take k) a =
      if va ≤ a ∧ a < va + k then bs[a - va]? else B a := by
  rw [putBytes_apply, List.length_take, Nat.min_eq_left hk]
  refine if_ctx_congr Iff.rfl (fun hin => ?_) fun _ => rfl
  rw [List.getElem?_take, if_pos (by omega)]

theorem byteAt_congr {rs : List MemRegion} {V V' : Pages} {id va : ℕ}
    (h : V' (id, va / pgsize) = V (id, va / pgsize)) : byteAt rs V' id va = byteAt rs V id va := by
  have hdiv := pgrounddown_div va
  rw [byteAt, byteAt, pageAt, pageAt, hdiv, h]

theorem pgrounddown_congr {a b : ℕ} (h : a / pgsize = b / pgsize) : pgrounddown a = pgrounddown b :=
  congrArg (· * pgsize) h

theorem offset_le_iff {a b : ℕ} (h : a / pgsize = b / pgsize) :
    (b % pgsize ≤ a % pgsize ↔ b ≤ a) ∧ a % pgsize - b % pgsize = a - b := by
  have ha := Nat.div_add_mod' a pgsize
  have hb := Nat.div_add_mod' b pgsize
  rw [h] at ha
  omega

theorem next_start (va : ℕ) : va + (pgsize - va % pgsize) = pgrounddown va + pgsize := by
  have h := Nat.div_add_mod' va pgsize
  have hmod : va % pgsize < pgsize := Nat.mod_lt va (by decide)
  unfold pgrounddown
  omega

theorem next_start_div (va : ℕ) : (pgrounddown va + pgsize) / pgsize = va / pgsize + 1 := by
  rw [pgrounddown, ← Nat.succ_mul, mul_pgsize_div]

theorem next_start_lt {va : ℕ} (hv : va / pgsize < userVpns) :
    (pgrounddown va + pgsize) % 2 ^ 32 = pgrounddown va + pgsize :=
  Nat.mod_eq_of_lt (by
    rw [userVpns_eq] at hv
    rw [pgrounddown, pgsize_eq] at *
    omega)

theorem first_page (va : ℕ) {i : ℕ} (hi : i < pgsize - va % pgsize) :
    (va + i) / pgsize = va / pgsize ∧ (va + i) % pgsize = va % pgsize + i := by
  have hva := Nat.div_add_mod' va pgsize
  rw [← hva, Nat.add_assoc, Nat.mul_comm, Nat.mul_add_div (by decide), Nat.mul_add_mod,
    Nat.div_eq_of_lt (a := va % pgsize + i) (by omega), Nat.mod_eq_of_lt (a := va % pgsize + i) (by omega),
    Nat.mul_add_div (by decide), Nat.mul_add_mod, Nat.mod_mod,
    Nat.div_eq_of_lt (Nat.mod_lt va (by decide))]
  exact ⟨rfl, rfl⟩

section

variable {img : KernelImage} {id v va : ℕ} {m m1 m' : Machine} {G G1 G' : Tables} {e : ℕ → ℕ}
  {as : AddrSpace} {l : Leaf} {bs : List UInt8}

/-! ## Pages that were reached -/

namespace Reached

theorem byteAt_eq (h : Reached img as id (pgrounddown va) m G e l m' G1) :
    byteAt as.regions (Kernel.view m'.mem G1) id = byteAt as.regions (Kernel.view m.mem G) id := by
  have hdiv := pgrounddown_div va
  funext a
  by_cases ha : a / pgsize = va / pgsize
  · rw [byteAt, byteAt, pgrounddown_congr ha, h.page, pageAt, h.view, update_self,
      some_or]
  · refine byteAt_congr ?_
    rw [h.view, hdiv, update_of_ne fun heq => ha (Prod.mk.inj heq).2]

theorem byteAt_page (h : Reached img as id (pgrounddown va) m G e l m' G1) {a : ℕ}
    (ha : a / pgsize = va / pgsize) :
    byteAt as.regions (Kernel.view m.mem G) id a = some (m'.mem (l.pa + a % pgsize)) := by
  rw [byteAt, pgrounddown_congr ha, h.page, map_some]
  show some (pageBytes m'.mem (pa2idx l.pa) (a % pgsize)) = _
  rw [pageBytes_apply _ _ (Nat.mod_lt a (by decide)), h.next.inv.leaf_pa h.leaf]

theorem byteAt_store (h : Reached img as id (pgrounddown va) m G e l m' G1)
    (hw : l.flags.testBit 2 = true) (hlen : va % pgsize + bs.length ≤ pgsize) :
    byteAt as.regions (Kernel.view (m'.storeBytes (l.pa + va % pgsize) bs).mem G1) id =
      putBytes (byteAt as.regions (Kernel.view m.mem G) id) va bs := by
  have hdiv := pgrounddown_div va
  have hview := (storeLeaf_spec h.next.inv h.leaf hw hlen).2
  rw [hdiv] at hview
  funext a
  rw [← h.byteAt_eq]
  by_cases ha : a / pgsize = va / pgsize
  · obtain ⟨hle, hsub⟩ := offset_le_iff ha
    have hold : byteAt as.regions (Kernel.view m'.mem G1) id a =
        some ((l.userPage m'.mem).data (a % pgsize)) := by
      rw [h.byteAt_eq, byteAt, pgrounddown_congr ha, h.page, map_some]
    rw [putBytes, hold, byteAt, pageAt, pgrounddown_div, ha, hview, update_self,
      some_or, map_some]
    show some (storePage _ _ _ _) = _
    rw [storePage, hsub]
    by_cases hva : va ≤ a
    · rw [if_pos hva, if_pos (hle.mpr hva)]
      cases bs[a - va]? <;> rfl
    · rw [if_neg hva, if_neg fun hoff => hva (hle.mp hoff)]
  · have hout : ¬ (va ≤ a ∧ a < va + bs.length) := by
      rintro ⟨h1, h2⟩
      obtain ⟨i, rfl⟩ := Nat.exists_eq_add_of_le h1
      exact ha (first_page va (by omega)).1
    rw [putBytes_apply, if_neg hout]
    refine byteAt_congr ?_
    rw [hview, update_of_ne fun heq => ha (Prod.mk.inj heq).2]

end Reached

/-- The entry of `v`, if there is one, is the user's or copy-on-write. -/
def UserOrCow (G : Tables) (id v : ℕ) : Prop :=
  ∀ l, UserLeaf G id v l → l.flags.testBit 4 = true ∨ l.flags.testBit 8 = true

/-- The entry of `v` is not copy-on-write. -/
def NotCow (G : Tables) (id v : ℕ) : Prop := ∀ l, UserLeaf G id v l → l.flags.testBit 8 = false

theorem NotCow.keeps (h : NotCow G id v) (hk : KeepsPrivate e G G') : NotCow G' id v := by
  intro l' hl'
  rcases hk id v l' hl' with ⟨l, hl, -, -, hcow⟩ | ⟨-, hcow, -⟩
  · refine Bool.eq_false_iff.mpr fun hc => ?_
    rw [h l hl] at hcow
    cases hcow hc
  · exact hcow

theorem UserOrCow.back (h : UserOrCow G' id v) (hk : KeepsPrivate e G G')
    (hview : view m'.mem G' (id, v) = view m.mem G (id, v)) : UserOrCow G id v := by
  intro l hl
  rw [hl.view_eq] at hview
  obtain ⟨l', hl', hpage⟩ := view_eq_some hview
  rcases h l' hl' with huser | hcow
  · exact .inl ((flags_user l m.mem).mp (hpage ▸ (flags_user l' m'.mem).mpr huser))
  · rcases hk id v l' hl' with ⟨l0, hl0, -, -, hcow0⟩ | ⟨-, hcow', -⟩
    · exact .inr (hl.inj hl0 ▸ hcow0 hcow)
    · rw [hcow'] at hcow
      cases hcow

/-! ## `copyout` -/

/-- What `copyout` found and left at a page that it wrote to. -/
structure WrittenPage (as : AddrSpace) (id v : ℕ) (m : Machine) (G : Tables) (m' : Machine)
    (G' : Tables) : Prop where
  page : ∃ pg, pageAt as.regions (view m.mem G) id (v * pgsize) = some pg ∧
    pg.flags &&& pteW ≠ 0 ∧ ∃ data, view m'.mem G' (id, v) = some ⟨data, pg.flags⟩
  before : UserOrCow G id v
  after : NotCow G' id v

/-- The outcome of `copyout`: `k` bytes were written. -/
structure CopiedOut (img : KernelImage) (as : AddrSpace) (id va : ℕ) (bs : List UInt8)
    (m : Machine) (G : Tables) (e : ℕ → ℕ) (ok : Bool) (m' : Machine) (G' : Tables) (k : ℕ) :
    Prop where
  next : Next img id G m' G' e
  others : ∀ x : ℕ × ℕ, x.1 ≠ id ∨ x.2 < va / pgsize → view m'.mem G' x = view m.mem G x
  bytes : byteAt as.regions (view m'.mem G') id =
    putBytes (byteAt as.regions (view m.mem G) id) va (bs.take k)
  done : ok = true → k = bs.length
  stopped : ok = false → k < bs.length ∧ (k = 0 ∨ (va + k) % pgsize = 0)
  pages : ok = true → ∀ i < bs.length, WrittenPage as id ((va + i) / pgsize) m G m' G'

namespace CopiedOut

theorem nil (h : VmInv img m G e) : CopiedOut img as id va [] m G e true m G 0 where
  next := Next.refl h id
  others _ _ := rfl
  bytes := by rw [List.take_nil, putBytes_nil]
  done _ := rfl
  stopped := nofun
  pages _ i hi := absurd hi (Nat.not_lt_zero i)

theorem refused (hbs : bs ≠ []) (hn : Next img id G m' G' e)
    (h : view m'.mem G' = view m.mem G ∨ ∃ l, Reached img as id (pgrounddown va) m G e l m' G') :
    CopiedOut img as id va bs m G e false m' G' 0 where
  next := hn
  others x hx := by
    rcases h with hview | ⟨l, hreach⟩
    · rw [hview]
    · rw [hreach.view, pgrounddown_div]
      refine update_of_ne (fun heq => ?_) _ _
      subst heq
      exact hx.elim (fun hid => hid rfl) (Nat.lt_irrefl _)
  bytes := by
    rw [List.take_zero, putBytes_nil]
    rcases h with hview | ⟨l, hreach⟩
    · rw [hview]
    · exact hreach.byteAt_eq
  done := nofun
  stopped _ := ⟨List.length_pos_of_ne_nil hbs, .inl rfl⟩
  pages := nofun

end CopiedOut

theorem Reached.written (h : Reached img as id (pgrounddown va) m G e l m1 G1)
    (hw : l.flags.testBit 2 = true) (hlen : va % pgsize + bs.length ≤ pgsize)
    (hbefore : UserOrCow G id (va / pgsize)) :
    WrittenPage as id (va / pgsize) m G (m1.storeBytes (l.pa + va % pgsize) bs) G1 := by
  have hdiv := pgrounddown_div va
  have hleaf : UserLeaf G1 id (va / pgsize) l := hdiv ▸ h.leaf
  have hcow := ((h.next.inv.leaves _ _ l hleaf).sole hw).1
  have hfl : (l.userPage m1.mem).flags = l.flags := eagerFlags_of_not_cow hcow
  refine ⟨⟨l.userPage m1.mem, h.page, ?_,
    storePage (l.userPage m1.mem).data (va % pgsize) bs, ?_⟩, hbefore, fun l' hl' => hl'.inj hleaf ▸ hcow⟩
  · rw [hfl, pteW, and_shift_ne_zero, hw]
  · rw [(storeLeaf_spec h.next.inv hleaf hw hlen).2, update_self, hfl]

/-- The first page was written, and then the rest of the range. -/
theorem CopiedOut.cons {ok : Bool} {k : ℕ} {G2 : Tables} (hbs : bs ≠ [])
    (h : Reached img as id (pgrounddown va) m G e l m1 G1) (hw : l.flags.testBit 2 = true)
    (hbefore : UserOrCow G id (va / pgsize))
    (hrest : CopiedOut img as id (pgrounddown va + pgsize) (bs.drop (pgsize - va % pgsize))
      (m1.storeBytes (l.pa + va % pgsize) (bs.take (pgsize - va % pgsize))) G1 e ok m' G2 k) :
    CopiedOut img as id va bs m G e ok m' G2 ((bs.take (pgsize - va % pgsize)).length + k) := by
  have hdiv := pgrounddown_div va
  have hmod : va % pgsize < pgsize := Nat.mod_lt va (by decide)
  have hpos : 0 < bs.length := List.length_pos_of_ne_nil hbs
  generalize hn : pgsize - va % pgsize = n at hrest ⊢
  have hlen : va % pgsize + (bs.take n).length ≤ pgsize := by
    rw [List.length_take]
    omega
  have hfirst := h.written hw hlen hbefore
  have hnext := (store_spec h hw hlen).1
  -- the first round changes no page but the first
  have hframe : ∀ x : ℕ × ℕ, x ≠ (id, va / pgsize) →
      view (m1.storeBytes (l.pa + va % pgsize) (bs.take n)).mem G1 x = view m.mem G x := fun x hx => by
    rw [(storeLeaf_spec h.next.inv h.leaf hw hlen).2, h.view, update_idem, hdiv,
      update_of_ne hx]
  have hstart : va + n = pgrounddown va + pgsize := hn ▸ next_start va
  have hlt := next_start_div va
  refine ⟨hnext.trans hrest.next, fun x hx => ?_, ?_, fun hok => ?_, fun hok => ?_, fun hok i hi => ?_⟩
  · rw [hrest.others x (hx.imp_right fun hlt' => by omega)]
    refine hframe x fun heq => ?_
    subst heq
    exact hx.elim (fun hid => hid rfl) (Nat.lt_irrefl _)
  · rw [hrest.bytes, h.byteAt_store hw hlen]
    by_cases hshort : bs.length ≤ n
    · rw [List.drop_eq_nil_of_le hshort, List.take_nil, putBytes_nil, List.take_of_length_le hshort,
        List.take_of_length_le (by omega)]
    · have htake : (bs.take n).length = n := by
        rw [List.length_take]
        omega
      rw [← hstart, htake, List.take_add]
      nth_rewrite 2 [← htake]
      exact putBytes_append _ _ _ _
  · rw [hrest.done hok, ← List.length_append, List.take_append_drop]
  · obtain ⟨hk, hpage⟩ := hrest.stopped hok
    rw [List.length_drop] at hk
    have htake : (bs.take n).length = n := by
      rw [List.length_take]
      omega
    rw [htake]
    refine ⟨by omega, .inr ?_⟩
    rw [show va + (n + k) = pgrounddown va + pgsize + k by omega]
    rcases hpage with rfl | hpage
    · rw [Nat.add_zero, pgrounddown, ← Nat.succ_mul]
      exact mul_pgsize_mod _
    · exact hpage
  · by_cases hin : i < n
    · rw [(first_page va (i := i) (by omega)).1]
      obtain ⟨pg, hpg, hwr, data, hview⟩ := hfirst.page
      refine ⟨⟨pg, hpg, hwr, data, ?_⟩, hbefore, hfirst.after.keeps hrest.next.priv⟩
      rw [hrest.others _ (.inr (by omega)), hview]
    · have hpage := hrest.pages hok (i - n) (by rw [List.length_drop]; omega)
      rw [show pgrounddown va + pgsize + (i - n) = va + i by omega] at hpage
      have hne : (id, (va + i) / pgsize) ≠ (id, va / pgsize) := fun heq => by
        have := (Prod.mk.inj heq).2
        rw [show va + i = pgrounddown va + pgsize + (i - n) by omega, pgrounddown, ← Nat.succ_mul] at this
        rw [pgsize_eq] at this
        omega
      obtain ⟨pg, hpg, hwr, hview⟩ := hpage.page
      refine ⟨⟨pg, ?_, hwr, hview⟩, hpage.before.back hnext.priv (hframe _ hne), hpage.after⟩
      rw [← hpg, pageAt, pageAt, mul_pgsize_div, hframe _ hne]

theorem copyoutLoop_copied (fuel : ℕ) (hfuel : bs.length ≤ fuel) (h : VmInv img m G e)
    (hr : Rooted G id as) (hok : RegionsOk as) (hva : va < 2 ^ 32) :
    Except.Sat (fun _ => False) (fun r => ∃ G' k, CopiedOut img as id va bs m G e r.1 r.2 G' k)
      (copyoutLoop img as as.pagetable fuel va bs m) := by
  induction fuel generalizing va bs m G with
  | zero =>
    obtain rfl := List.eq_nil_of_length_eq_zero (Nat.le_zero.mp hfuel)
    exact ⟨G, 0, .nil h⟩
  | succ fuel ih =>
    unfold copyoutLoop
    split_ifs with hbs
    · subst hbs
      exact ⟨G, 0, .nil h⟩
    · have hmod : va % pgsize < pgsize := Nat.mod_lt va (by decide)
      have hpos : 0 < bs.length := List.length_pos_of_ne_nil hbs
      refine (copyoutPage_reached h hr hok hva).bind ?_
      rintro ⟨_ | _, m1⟩ ⟨G1, hpost⟩
      · exact ⟨G1, 0, .refused hbs hpost.1 hpost.2⟩
      · obtain ⟨m0, l, hreach, hw, hm1, hbefore⟩ := hpost
        obtain rfl : m1 = _ := hm1
        have hlen : va % pgsize + (bs.take (pgsize - va % pgsize)).length ≤ pgsize := by
          rw [List.length_take]
          omega
        have hnext := (store_spec hreach hw hlen).1
        have hv : va / pgsize < userVpns := by
          have := hreach.leaf.1
          rwa [pgrounddown_div] at this
        have hlt := next_start_lt hv
        dsimp only
        rw [hlt]
        refine (ih (by rw [List.length_drop]; omega) hnext.inv (hr.next hnext)
          (hlt ▸ Nat.mod_lt _ (by decide))).post ?_
        rintro ⟨ok, m2⟩ ⟨G2, k, hrest⟩
        exact ⟨G2, _, .cons hbs hreach hw hbefore hrest⟩

/-! ## `copyin` -/

theorem walkaddr_cases (h : VmInv img m G e) (hr : Rooted G id as) (hva : va < 2 ^ 32) :
    (walkaddr as.pagetable va m = .ok (0, m) ∧
      ∀ l, UserLeaf G id (va / pgsize) l → l.flags.testBit 4 = false) ∨
    ∃ l, UserLeaf G id (va / pgsize) l ∧ l.flags.testBit 4 = true ∧
      walkaddr as.pagetable va m = .ok (l.pa, m) := by
  obtain ⟨pt, hG, has⟩ := hr
  have hleaf : ∀ {l}, UserLeaf G id (va / pgsize) l → pt.leaf (va / pgsize) = some l := by
    rintro l ⟨-, pt', hG', hl⟩
    rwa [Option.some.inj (hG.symm.trans hG')]
  unfold walkaddr
  rw [if_neg (show ¬ maxva ≤ va from Nat.not_le.mpr hva), has]
  rcases walk_false_cases h hG hva with ⟨hnone, hwalk⟩ | ⟨t, ht, hwalk, hword⟩
  · rw [hwalk]
    refine .inl ⟨rfl, fun l hl => ?_⟩
    rw [hleaf hl] at hnone
    cases hnone
  · rw [hwalk, Except.ok_bind]
    dsimp only
    rw [hword]
    cases hl : pt.leaf (va / pgsize) with
    | none =>
      refine .inl ⟨if_pos (not_not.mp leafEntry_none_valid), fun l hl' => ?_⟩
      rw [hleaf hl'] at hl
      cases hl
    | some l =>
      rw [if_neg (leafEntry_some_valid l)]
      have hbit : leafEntry (some l) &&& pteU = 0 ↔ l.flags.testBit 4 = false := by
        rw [← Bool.not_eq_true, ← l.testBit_pte (by decide), ← and_shift_ne_zero, not_not]
        rfl
      by_cases huser : l.flags.testBit 4 = true
      · refine .inr ⟨l, h.userLeaf_of_user hG hl huser, huser, ?_⟩
        rw [if_neg (fun h0 => by rw [hbit.mp h0] at huser; cases huser)]
        exact congrArg (fun pa => Except.ok (pa, m)) l.pte2pa_pte
      · have huser := Bool.not_eq_true _ |>.mp huser
        refine .inl ⟨if_pos (hbit.mpr huser), fun l' hl' => ?_⟩
        obtain rfl := Option.some.inj (hl.symm.trans (hleaf hl'))
        exact huser

theorem copyinAddr_spec (h : VmInv img m G e) (hr : Rooted G id as) (hok : RegionsOk as)
    (hva : va < 2 ^ 32) :
    Except.Sat (fun _ => False) (Fetched img as id va m G e)
      (copyinAddr img as as.pagetable va m) := by
  unfold copyinAddr
  rcases walkaddr_cases h hr hva with ⟨hwalk, -⟩ | ⟨l, hl, huser, hwalk⟩
  · rw [hwalk, Except.ok_bind]
    dsimp only
    rw [if_pos rfl]
    exact (vmfault_spec h hr hok).post fun _ hpost => hpost.fetched
  · rw [hwalk, Except.ok_bind]
    dsimp only
    rw [if_neg (h.leaf_pa_ne_zero hl)]
    exact .of_leaf h hl huser

/-- The outcome of `copyin`: the bytes that the process sees, of pages that are the user's
or were copy-on-write. -/
structure CopiedIn (img : KernelImage) (as : AddrSpace) (id va len : ℕ) (m : Machine) (G : Tables)
    (e : ℕ → ℕ) (bs : List UInt8) (m' : Machine) (G' : Tables) : Prop where
  next : Next img id G m' G' e
  length : bs.length = len
  bytes : ∀ i < len, byteAt as.regions (view m.mem G) id (va + i) = bs[i]?
  pages : ∀ i < len, UserOrCow G id ((va + i) / pgsize)

theorem CopiedIn.nil (h : VmInv img m G e) : CopiedIn img as id va 0 m G e [] m G :=
  ⟨Next.refl h id, rfl, fun i hi => absurd hi (Nat.not_lt_zero i),
    fun i hi => absurd hi (Nat.not_lt_zero i)⟩

theorem loadBytes_length (mem : Mem) (a n : ℕ) : (loadBytes mem a n).length = n := by
  rw [loadBytes, List.length_map, List.length_range]

theorem loadBytes_get (mem : Mem) (a : ℕ) {n i : ℕ} (hi : i < n) :
    (loadBytes mem a n)[i]? = some (mem (a + i)) := by
  rw [loadBytes, List.getElem?_map, List.getElem?_range hi, map_some]

theorem CopiedIn.cons {len : ℕ} {G2 : Tables}
    (h : Reached img as id (pgrounddown va) m G e l m1 G1) (hbefore : UserOrCow G id (va / pgsize))
    (hrest : CopiedIn img as id (pgrounddown va + pgsize) (len - min (pgsize - va % pgsize) len)
      m1 G1 e bs m' G2) :
    CopiedIn img as id va len m G e
      (loadBytes m1.mem (l.pa + va % pgsize) (min (pgsize - va % pgsize) len) ++ bs) m' G2 := by
  have hmod : va % pgsize < pgsize := Nat.mod_lt va (by decide)
  generalize hn : min (pgsize - va % pgsize) len = n at hrest ⊢
  have hstart : n < len → va + n = pgrounddown va + pgsize := fun hlt => by
    rw [← next_start va]
    omega
  refine ⟨h.next.trans hrest.next, ?_, fun i hi => ?_, fun i hi => ?_⟩
  · rw [List.length_append, loadBytes_length, hrest.length]
    omega
  · by_cases hin : i < n
    · have hpage := first_page va (i := i) (by omega)
      rw [List.getElem?_append_left (by rwa [loadBytes_length]), loadBytes_get _ _ hin,
        h.byteAt_page hpage.1, hpage.2, Nat.add_assoc]
    · have hbyte := hrest.bytes (i - n) (by omega)
      have hva := hstart (by omega)
      rw [List.getElem?_append_right (by rw [loadBytes_length]; omega), loadBytes_length, ← hbyte,
        h.byteAt_eq, show pgrounddown va + pgsize + (i - n) = va + i by omega]
  · by_cases hin : i < n
    · rwa [(first_page va (i := i) (by omega)).1]
    · have hpage := hrest.pages (i - n) (by omega)
      have hva := hstart (by omega)
      rw [show pgrounddown va + pgsize + (i - n) = va + i by omega] at hpage
      have hview : view m1.mem G1 (id, (va + i) / pgsize) = view m.mem G (id, (va + i) / pgsize) := by
        rw [h.view, pgrounddown_div]
        refine update_of_ne (fun heq => ?_) _ _
        have heq := (Prod.mk.inj heq).2
        rw [show va + i = pgrounddown va + pgsize + (i - n) by omega, pgrounddown, pgsize_eq] at heq
        omega
      exact hpage.back h.next.priv hview

theorem copyinLoop_copied (fuel : ℕ) {len : ℕ} (h : VmInv img m G e)
    (hr : Rooted G id as) (hok : RegionsOk as) (hva : va < 2 ^ 32) :
    Except.Sat (fun _ => False)
      (fun r => r.1 = true → ∃ G', CopiedIn img as id va len m G e r.2.1 r.2.2 G')
      (copyinLoop img as as.pagetable fuel va len m) := by
  induction fuel generalizing va len m G with
  | zero =>
    intro hzero
    obtain rfl : len = 0 := eq_of_beq hzero
    exact ⟨G, .nil h⟩
  | succ fuel ih =>
    unfold copyinLoop
    split_ifs with hlen
    · subst hlen
      exact fun _ => ⟨G, .nil h⟩
    · have hva0 : pgrounddown va < 2 ^ 32 := Nat.lt_of_le_of_lt (Nat.div_mul_le_self va pgsize) hva
      refine (copyinAddr_spec h hr hok hva0).bind ?_
      rintro ⟨pa, m1⟩ ⟨G1, hn, -, hreach⟩
      dsimp only
      split_ifs with hz
      · exact nofun
      · obtain ⟨l, hreach, rfl, hbefore⟩ := hreach hz
        rw [pgrounddown_div] at hbefore
        have hv : va / pgsize < userVpns := by
          have := hreach.leaf.1
          rwa [pgrounddown_div] at this
        have hlt := next_start_lt hv
        rw [sub_pgrounddown, hlt]
        refine (ih hn.inv (hr.next hn) (hlt ▸ Nat.mod_lt _ (by decide))).bind ?_
        rintro ⟨ok, bs, m2⟩ hrest hok'
        obtain ⟨G2, hrest⟩ := hrest hok'
        exact ⟨G2, .cons hreach hbefore hrest⟩

theorem copyinLoop_mapped (fuel : ℕ) {len : ℕ} (hfuel : len ≤ fuel) (h : VmInv img m G e)
    (hr : Rooted G id as) (hva : va < 2 ^ 32)
    (hpages : ∀ i < len, ∃ l, UserLeaf G id ((va + i) / pgsize) l ∧ l.flags.testBit 4 = true) :
    ∃ bs, copyinLoop img as as.pagetable fuel va len m = .ok (true, bs, m) := by
  induction fuel generalizing va len with
  | zero =>
    obtain rfl := Nat.le_zero.mp hfuel
    exact ⟨[], rfl⟩
  | succ fuel ih =>
    unfold copyinLoop
    split_ifs with hlen
    · exact ⟨[], rfl⟩
    · have hmod : va % pgsize < pgsize := Nat.mod_lt va (by decide)
      have hva0 : pgrounddown va < 2 ^ 32 := Nat.lt_of_le_of_lt (Nat.div_mul_le_self va pgsize) hva
      obtain ⟨l, hl, huser⟩ := hpages 0 (Nat.pos_of_ne_zero hlen)
      rw [Nat.add_zero] at hl
      rcases walkaddr_cases h hr hva0 with ⟨-, hno⟩ | ⟨l', hl', -, hwalk⟩
      · rw [hno l (by rwa [pgrounddown_div])] at huser
        cases huser
      · have hlt := next_start_lt hl.1
        obtain ⟨bs, hrest⟩ : ∃ bs, copyinLoop img as as.pagetable fuel (pgrounddown va + pgsize)
            (len - min (pgsize - va % pgsize) len) m = .ok (true, bs, m) :=
          ih (by omega) (hlt ▸ Nat.mod_lt _ (by decide)) fun i hi => by
            have := hpages (min (pgsize - va % pgsize) len + i) (by omega)
            rwa [show va + (min (pgsize - va % pgsize) len + i) = pgrounddown va + pgsize + i by
              rw [← next_start va]; omega] at this
        have haddr : copyinAddr img as as.pagetable (pgrounddown va) m = .ok (l'.pa, m) := by
          unfold copyinAddr
          rw [hwalk, Except.ok_bind]
          exact if_neg (h.leaf_pa_ne_zero hl')
        refine ⟨loadBytes m.mem (l'.pa + va % pgsize) (min (pgsize - va % pgsize) len) ++ bs, ?_⟩
        dsimp only
        rw [haddr, Except.ok_bind]
        dsimp only
        rw [if_neg (h.leaf_pa_ne_zero hl'), sub_pgrounddown, hlt, hrest]
        rfl

/-! ## `copyinstr` -/

/-- The byte at `a` if its page is there and the user's. -/
def userRead (V : Pages) (id a : ℕ) : Option UInt8 :=
  (V (id, a / pgsize)).bind fun pg =>
    if pg.flags &&& pteU ≠ 0 then some (pg.data (a % pgsize)) else none

/-- The string at `a`: the bytes up to the first NUL, which must come within `max` bytes
that can all be read. -/
def readStr (f : ℕ → Option UInt8) : ℕ → ℕ → Option (List UInt8)
  | 0, _ => none
  | max + 1, a => (f a).bind fun c => if c = 0 then some [0] else (readStr f max (a + 1)).map (c :: ·)

theorem readStr_copyStr (f : ℕ → Option UInt8) (mem : Mem) (n p a k : ℕ)
    (h : ∀ i < n, f (a + i) = some (mem (p + i))) :
    readStr f (n + k) a = if (copyStr mem n p).1 then some (copyStr mem n p).2
      else (readStr f k (a + n)).map ((copyStr mem n p).2 ++ ·) := by
  induction n generalizing p a with
  | zero => simp [copyStr]
  | succ n ih =>
    have hrest := ih (p + 1) (a + 1) fun i hi => by
      have := h (i + 1) (by omega)
      rwa [show a + 1 + i = a + (i + 1) by omega, show p + 1 + i = p + (i + 1) by omega]
    have hfirst : f a = some (mem p) := h 0 (by omega)
    rw [show n + 1 + k = (n + k) + 1 by omega, readStr, hfirst, bind_some, hrest, copyStr,
      show a + (n + 1) = a + 1 + n by omega]
    by_cases hz : mem p = 0
    · rw [if_pos hz, if_pos hz]
      rfl
    · rw [if_neg hz, if_neg hz]
      rcases copyStr mem n (p + 1) with ⟨_ | _, bs⟩
      · cases readStr f k (a + 1 + n) <;> rfl
      · rfl

theorem readStr_get {f : ℕ → Option UInt8} (max : ℕ) {a : ℕ} {str : List UInt8}
    (h : readStr f max a = some str) :
    (∃ n < max, f (a + n) = some 0) ∧ ∀ i < str.length, f (a + i) = str[i]? := by
  induction max generalizing a str with
  | zero => cases h
  | succ max ih =>
    rw [readStr] at h
    obtain ⟨c, hc, h⟩ := bind_eq_some_iff.mp h
    split_ifs at h with hz
    · obtain rfl := Option.some.inj h
      refine ⟨⟨0, by omega, hz ▸ hc⟩, fun i hi => ?_⟩
      obtain rfl : i = 0 := Nat.lt_one_iff.mp hi
      exact hz ▸ hc
    · obtain ⟨rest, hrest, rfl⟩ := map_eq_some_iff.mp h
      obtain ⟨⟨n, hn, hnul⟩, hget⟩ := ih hrest
      refine ⟨⟨n + 1, by omega, by rwa [show a + (n + 1) = a + 1 + n by omega]⟩, fun i hi => ?_⟩
      cases i with
      | zero => exact hc
      | succ i =>
        rw [List.getElem?_cons_succ, ← hget i (Nat.lt_of_succ_lt_succ hi),
          show a + (i + 1) = a + 1 + i by omega]

theorem readStr_eq {f : ℕ → Option UInt8} {max a : ℕ} {str : List UInt8} (hnul : 0 ∉ str)
    (hlen : str.length + 1 ≤ max) (h : ∀ i < str.length + 1, f (a + i) = (str ++ [0])[i]?) :
    readStr f max a = some (str ++ [0]) := by
  induction str generalizing max a with
  | nil =>
    obtain ⟨max, rfl⟩ := Nat.exists_eq_add_of_le' hlen
    have hfirst : f a = some 0 := h 0 (by decide)
    rw [show max + ([].length + 1) = max + 1 from rfl, readStr, hfirst]
    rfl
  | cons c str ih =>
    obtain ⟨hc, hstr⟩ := not_or.mp (List.mem_cons.not.mp hnul)
    obtain ⟨max, rfl⟩ := Nat.exists_eq_add_of_le' (Nat.le_of_add_left_le hlen)
    have hfirst : f a = some c := h 0 (by omega)
    rw [readStr, hfirst, bind_some, if_neg (Ne.symm hc),
      ih hstr (by rw [List.length_cons] at hlen; omega) fun i hi => ?_]
    · rfl
    · have := h (i + 1) (by rw [List.length_cons]; omega)
      rwa [List.cons_append, List.getElem?_cons_succ, show a + (i + 1) = a + 1 + i by omega] at this

theorem userRead_leaf (h : VmInv img m G e) {a : ℕ} (hl : UserLeaf G id (a / pgsize) l)
    (huser : l.flags.testBit 4 = true) :
    userRead (view m.mem G) id a = some (m.mem (l.pa + a % pgsize)) := by
  rw [userRead, hl.view_eq, bind_some, if_pos ((flags_user l m.mem).mpr huser)]
  show some (pageBytes m.mem (pa2idx l.pa) (a % pgsize)) = _
  rw [pageBytes_apply _ _ (Nat.mod_lt a (by decide)), h.leaf_pa hl]

theorem userRead_eq_some {a : ℕ} {c : UInt8} (h : userRead (view m.mem G) id a = some c) :
    ∃ l, UserLeaf G id (a / pgsize) l ∧ l.flags.testBit 4 = true := by
  obtain ⟨pg, hpg, h⟩ := bind_eq_some_iff.mp h
  split_ifs at h with huser
  obtain ⟨l, hl, rfl⟩ := view_eq_some hpg
  exact ⟨l, hl, (flags_user l m.mem).mp huser⟩

/-- `copyinstr` reads the string. -/
theorem copyinstrLoop_spec (fuel : ℕ) {max : ℕ} (hfuel : max ≤ fuel) (h : VmInv img m G e)
    (hr : Rooted G id as) (hva : va < 2 ^ 32) :
    ∃ out, copyinstrLoop as.pagetable fuel va max m =
        .ok ((readStr (userRead (view m.mem G) id) max va).isSome, out, m) ∧
      ∀ str, readStr (userRead (view m.mem G) id) max va = some str → out = str := by
  induction fuel generalizing va max with
  | zero =>
    obtain rfl := Nat.le_zero.mp hfuel
    exact ⟨[], rfl, nofun⟩
  | succ fuel ih =>
    unfold copyinstrLoop
    split_ifs with hmax
    · subst hmax
      exact ⟨[], rfl, nofun⟩
    · have hmod : va % pgsize < pgsize := Nat.mod_lt va (by decide)
      have hva0 : pgrounddown va < 2 ^ 32 := Nat.lt_of_le_of_lt (Nat.div_mul_le_self va pgsize) hva
      rcases walkaddr_cases h hr hva0 with ⟨hwalk, hno⟩ | ⟨l, hl, huser, hwalk⟩
      · have hnone : readStr (userRead (view m.mem G) id) max va = none := by
          obtain ⟨k, rfl⟩ := Nat.exists_eq_succ_of_ne_zero hmax
          rw [readStr]
          cases hread : userRead (view m.mem G) id va with
          | none => rfl
          | some c =>
            obtain ⟨l, hl, huser⟩ := userRead_eq_some hread
            rw [hno l (by rwa [pgrounddown_div])] at huser
            cases huser
        dsimp only
        rw [hwalk, hnone]
        exact ⟨[], rfl, nofun⟩
      · rw [pgrounddown_div] at hl
        have hlt := next_start_lt hl.1
        dsimp only
        rw [hwalk, Except.ok_bind]
        dsimp only
        rw [if_neg (h.leaf_pa_ne_zero hl), sub_pgrounddown, hlt]
        generalize hn : min (pgsize - va % pgsize) max = n
        have hscan := readStr_copyStr (userRead (view m.mem G) id) m.mem n
          (l.pa + va % pgsize) va (max - n) fun i hi => by
            obtain ⟨hpage, hoff⟩ := first_page va (i := i) (by omega)
            rw [userRead_leaf h (hpage ▸ hl) huser, hoff, Nat.add_assoc]
        rw [show n + (max - n) = max by omega] at hscan
        rw [hscan]
        rcases hcopy : copyStr m.mem n (l.pa + va % pgsize) with ⟨_ | _, bs⟩
        · obtain ⟨out, hloop, hout⟩ := @ih (pgrounddown va + pgsize) (max - n) (by omega)
            (hlt ▸ Nat.mod_lt _ (by decide))
          have hsame : readStr (userRead (view m.mem G) id) (max - n) (pgrounddown va + pgsize) =
              readStr (userRead (view m.mem G) id) (max - n) (va + n) := by
            by_cases hend : max = n
            · rw [hend, Nat.sub_self]
              rfl
            · rw [← next_start va, show pgsize - va % pgsize = n by omega]
          rw [hsame] at hloop hout
          refine ⟨bs ++ out, ?_, fun str hstr => ?_⟩
          · simp only [hloop, Except.ok_bind, Bool.false_eq_true, if_false, Option.isSome_map]
          · obtain ⟨rest, hrest, rfl⟩ := map_eq_some_iff.mp hstr
            rw [hout rest hrest]
        · exact ⟨bs, rfl, fun str hstr => Option.some.inj hstr⟩

end

/-! ## Small systems -/

/-- The state after `kinit` with sixteen pages and the operations `ops`. -/
def bootRun (ops : List VmOp) : Option VmState :=
  (bootState sixteenPageImage).bind (runOps sixteenPageImage ops)

/-- A process as `kexec` makes it, and its child. -/
def execForkOps : List VmOp := execOps ++ [.kalloc, .create 32759, .asCopy 1 0]

theorem bootRun_any {ops : List VmOp} {f : VmState → Space → Bool}
    (h : ((bootRun ops).any fun s => (s.spaces 0).any (f s)) = true) :
    ∃ s sp, VmRun sixteenPageImage s ∧ s.spaces 0 = some sp ∧ f s sp = true := by
  obtain ⟨s, hs, h⟩ := (any_eq_true _ _).mp h
  obtain ⟨sp, hsp, hf⟩ := (any_eq_true _ _).mp h
  obtain ⟨s0, hboot, hs⟩ := bind_eq_some_iff.mp hs
  exact ⟨s, sp, (VmRun.bootState hboot).runOps hs, hsp, hf⟩

/-! ## Permissions -/

/-- The page `v` is mapped, copy-on-write, and not the user's: the guard page below the
stack after a `fork`. -/
def SharedGuard (mem : Mem) (as : AddrSpace) (v : ℕ) : Prop :=
  ∃ pte, leafPte mem as.pagetable v = some pte ∧ pte &&& pteU = 0 ∧ pte &&& pteCOW ≠ 0

/-- No page of the `len` bytes from `va` on is such. -/
def NoSharedGuard (mem : Mem) (as : AddrSpace) (va len : ℕ) : Prop :=
  ∀ i < len, ¬ SharedGuard mem as ((va + i) / pgsize)

/-- The page `v` lies in the heap region. -/
def HeapPage (as : AddrSpace) (v : ℕ) : Prop :=
  ∃ r ∈ as.regions, r.type = .heap ∧ r.vaStart ≤ v * pgsize ∧ v * pgsize < r.vaEnd

/-- The user may read the page `v`, or it is a page of the heap that is not there yet. -/
def UserReadable (mem : Mem) (as : AddrSpace) (v : ℕ) : Prop :=
  (∃ pte, leafPte mem as.pagetable v = some pte ∧ pte &&& pteU ≠ 0) ∨
    (leafPte mem as.pagetable v = none ∧ HeapPage as v)

/-- The user may write the page `v`, perhaps after a copy-on-write fault, or it is a page of
the heap that is not there yet. -/
def UserWritable (mem : Mem) (as : AddrSpace) (v : ℕ) : Prop :=
  (∃ pte, leafPte mem as.pagetable v = some pte ∧ pte &&& pteU ≠ 0 ∧
      (pte &&& pteW ≠ 0 ∨ pte &&& pteCOW ≠ 0)) ∨
    (leafPte mem as.pagetable v = none ∧ HeapPage as v)

theorem Leaf.pte_user (l : Leaf) : l.pte &&& pteU ≠ 0 ↔ l.flags.testBit 4 = true := by
  rw [pteU, and_shift_ne_zero, l.testBit_pte (by decide)]

theorem Leaf.pte_cow (l : Leaf) : l.pte &&& pteCOW ≠ 0 ↔ l.flags.testBit 8 = true := by
  rw [pteCOW, and_shift_ne_zero, l.testBit_pte (by decide)]

theorem userPage_writable (l : Leaf) (mem : Mem) (h : (l.userPage mem).flags &&& pteW ≠ 0) :
    l.pte &&& pteW ≠ 0 ∨ l.pte &&& pteCOW ≠ 0 := by
  cases hcow : l.flags.testBit 8 with
  | true => exact .inr (l.pte_cow.mpr hcow)
  | false =>
    refine .inl ?_
    rw [Leaf.userPage, eagerFlags_of_not_cow hcow, pteW, and_shift_ne_zero] at h
    rw [pteW, and_shift_ne_zero, l.testBit_pte (by decide), h]

theorem heapPage_region {rs : List MemRegion} (pagetable : ℕ) {pg : UserPage}
    (h : heapPage rs (v * pgsize) = some pg) : HeapPage ⟨pagetable, rs⟩ v := by
  unfold heapPage at h
  split_ifs at h
  obtain ⟨r, hfind, h⟩ := bind_eq_some_iff.mp h
  split_ifs at h with htype
  have hr := List.find?_some hfind
  rw [show pgrounddown (v * pgsize) = v * pgsize by rw [pgrounddown, mul_pgsize_div]] at hr
  exact ⟨r, List.mem_of_find?_eq_some hfind, htype, of_decide_eq_true hr⟩

section

variable {img : KernelImage} {s : VmState} {G G' : Tables} {id v va : ℕ} {sp : Space}
  {m m' : Machine} {bs : List UInt8}

theorem lt_userVpns_of_pageAt {pg : UserPage} (hok : RegionsOk sp.as)
    (h : pageAt sp.as.regions (view m.mem G) id (v * pgsize) = some pg) : v < userVpns := by
  rw [pageAt, mul_pgsize_div] at h
  cases hview : view m.mem G (id, v) with
  | some pg' =>
    obtain ⟨l, hl, -⟩ := view_eq_some hview
    exact hl.1
  | none =>
    rw [hview, none_or] at h
    obtain ⟨r, hr, -, -, hlt⟩ := heapPage_region sp.as.pagetable h
    have hend := (hok r hr).end_le
    rw [trapframe_eq] at hend
    rw [pgsize_eq] at hlt
    rw [userVpns_eq]
    omega

theorem VmOk.page_cases (h : VmOk img s G) (hsp : s.spaces id = some sp) {pg : UserPage}
    (hpg : pageAt sp.as.regions (view s.machine.mem G) id (v * pgsize) = some pg)
    (hbefore : UserOrCow G id v) :
    (∃ l, UserLeaf G id v l ∧ leafPte s.machine.mem sp.as.pagetable v = some l.pte ∧
        l.userPage s.machine.mem = pg ∧ (l.flags.testBit 4 = true ↔ ¬ SharedGuard s.machine.mem sp.as v)) ∨
      (leafPte s.machine.mem sp.as.pagetable v = none ∧ HeapPage sp.as v ∧ pg.flags &&& pteU ≠ 0 ∧
        ¬ SharedGuard s.machine.mem sp.as v) := by
  have hv := lt_userVpns_of_pageAt (h.space hsp).2.1 hpg
  rw [pageAt, mul_pgsize_div] at hpg
  cases hview : view s.machine.mem G (id, v) with
  | some pg' =>
    obtain ⟨l, hl, hpage⟩ := view_eq_some hview
    have hpte := (h.leafPte_iff hv hsp).mpr ⟨l, hl, rfl⟩
    rw [hview, some_or] at hpg
    refine .inl ⟨l, hl, hpte, hpage.trans (Option.some.inj hpg), fun huser => ?_, fun hno => ?_⟩
    · rintro ⟨pte, hpte', hnot, -⟩
      obtain rfl := Option.some.inj (hpte.symm.trans hpte')
      exact l.pte_user.mpr huser hnot
    · refine (hbefore l hl).elim (fun huser => huser) fun hcow => ?_
      by_contra huser
      exact hno ⟨l.pte, hpte, not_not.mp (l.pte_user.not.mpr huser), l.pte_cow.mpr hcow⟩
  | none =>
    have hnone : leafPte s.machine.mem sp.as.pagetable v = none := by
      cases hpte : leafPte s.machine.mem sp.as.pagetable v with
      | none => rfl
      | some pte =>
        obtain ⟨l, hl, -⟩ := (h.leafPte_iff hv hsp).mp hpte
        rw [hl.view_eq] at hview
        cases hview
    rw [hview, none_or] at hpg
    refine .inr ⟨hnone, heapPage_region _ hpg, heapPage_user hpg, ?_⟩
    rintro ⟨pte, hpte, -⟩
    rw [hnone] at hpte
    cases hpte

theorem VmOk.userWritable_iff (h : VmOk img s G) (hsp : s.spaces id = some sp)
    (hpage : WrittenPage sp.as id v s.machine G m' G') :
    UserWritable s.machine.mem sp.as v ↔ ¬ SharedGuard s.machine.mem sp.as v := by
  obtain ⟨pg, hpg, hw, -⟩ := hpage.page
  rcases h.page_cases hsp hpg hpage.before with ⟨l, hl, hpte, rfl, huser⟩ | ⟨hnone, hheap, -, hno⟩
  · rw [← huser, UserWritable, hpte]
    constructor
    · rintro (⟨pte, hpte', hbit, -⟩ | ⟨hnone, -⟩)
      · rw [← Option.some.inj hpte'] at hbit
        exact l.pte_user.mp hbit
      · cases hnone
    · exact fun hbit => .inl ⟨l.pte, rfl, l.pte_user.mpr hbit, userPage_writable l _ hw⟩
  · exact ⟨fun _ => hno, fun _ => .inr ⟨hnone, hheap⟩⟩

theorem VmOk.userReadable_iff (h : VmOk img s G) (hsp : s.spaces id = some sp) {pg : UserPage}
    (hpg : pageAt sp.as.regions (view s.machine.mem G) id (v * pgsize) = some pg)
    (hbefore : UserOrCow G id v) :
    UserReadable s.machine.mem sp.as v ↔ ¬ SharedGuard s.machine.mem sp.as v := by
  rcases h.page_cases hsp hpg hbefore with ⟨l, hl, hpte, -, huser⟩ | ⟨hnone, hheap, -, hno⟩
  · rw [← huser, UserReadable, hpte]
    constructor
    · rintro (⟨pte, hpte', hbit⟩ | ⟨hnone, -⟩)
      · rw [← Option.some.inj hpte'] at hbit
        exact l.pte_user.mp hbit
      · cases hnone
    · exact fun hbit => .inl ⟨l.pte, rfl, l.pte_user.mpr hbit⟩
  · exact ⟨fun _ => hno, fun _ => .inr ⟨hnone, hheap⟩⟩

theorem CopiedIn.pageAt {e : ℕ → ℕ} {len : ℕ}
    (h : CopiedIn img sp.as id va len m G e bs m' G') {i : ℕ} (hi : i < len) :
    ∃ pg, pageAt sp.as.regions (view m.mem G) id ((va + i) / pgsize * pgsize) = some pg := by
  have hbyte := h.bytes i hi
  rw [List.getElem?_eq_getElem (by rw [h.length]; exact hi), byteAt] at hbyte
  obtain ⟨pg, hpg, -⟩ := map_eq_some_iff.mp hbyte
  exact ⟨pg, hpg⟩

/-- In every state the kernel can be in, the pages of a range that `copyout` wrote to, and
those of a range that `copyin` read, were ones the user may write or read, exactly when
none of them was mapped copy-on-write without `PTE_U`. -/
theorem copies_respect_user (h : VmRun img s) (hsp : s.spaces id = some sp) (hva : va < 2 ^ 32) :
    (∀ bs m, copyout img sp.as sp.as.pagetable va bs s.machine = .ok (true, m) →
      ((∀ i < bs.length, UserWritable s.machine.mem sp.as ((va + i) / pgsize)) ↔
        NoSharedGuard s.machine.mem sp.as va bs.length)) ∧
    ∀ len bs m, copyin img sp.as sp.as.pagetable va len s.machine = .ok (true, bs, m) →
      ((∀ i < len, UserReadable s.machine.mem sp.as ((va + i) / pgsize)) ↔
        NoSharedGuard s.machine.mem sp.as va len) := by
  obtain ⟨G, hok⟩ := h.ok
  obtain ⟨hr, hregs, -⟩ := hok.space hsp
  constructor
  · intro bs m hcopy
    obtain ⟨G', k, hout⟩ := (copyoutLoop_copied bs.length (Nat.le_refl _) hok.inv hr hregs hva).of_eq_ok hcopy
    exact forall₂_congr fun i hi => hok.userWritable_iff hsp (hout.pages rfl i hi)
  · intro len bs m hcopy
    obtain ⟨G', hin⟩ := (copyinLoop_copied len hok.inv hr hregs hva).of_eq_ok hcopy rfl
    refine forall₂_congr fun i hi => ?_
    obtain ⟨pg, hpg⟩ := hin.pageAt hi
    exact hok.userReadable_iff hsp hpg (hin.pages i hi)

theorem SharedGuard.not_user {mem : Mem} {as : AddrSpace} (h : SharedGuard mem as v) :
    ¬ UserWritable mem as v ∧ ¬ UserReadable mem as v := by
  obtain ⟨pte, hpte, huser, -⟩ := h
  unfold UserWritable UserReadable
  rw [hpte]
  refine ⟨?_, ?_⟩
  · rintro (⟨pte', hpte', hbit, -⟩ | ⟨hnone, -⟩)
    · exact hbit (Option.some.inj hpte' ▸ huser)
    · cases hnone
  · rintro (⟨pte', hpte', hbit⟩ | ⟨hnone, -⟩)
    · exact hbit (Option.some.inj hpte' ▸ huser)
    · cases hnone

/-- The page `v` of a process, in a form that can be evaluated. -/
def guardCheck (s : VmState) (sp : Space) (v : ℕ) : Bool :=
  (leafPte s.machine.mem sp.as.pagetable v).any fun pte =>
    decide (pte &&& pteU = 0 ∧ pte &&& pteCOW ≠ 0)

theorem sharedGuard_iff (s : VmState) (sp : Space) (v : ℕ) :
    SharedGuard s.machine.mem sp.as v ↔ guardCheck s sp v = true := by
  rw [guardCheck, any_eq_true]
  simp only [decide_eq_true_eq]
  rfl

/-- After a `fork` both copies go through on the guard page below the parent's stack. -/
theorem guard_page_copied : ∃ s sp m1 m2, VmRun sixteenPageImage s ∧ s.spaces 0 = some sp ∧
    copyout sixteenPageImage sp.as sp.as.pagetable pgsize [1] s.machine = .ok (true, m1) ∧
    ¬ UserWritable s.machine.mem sp.as (pgsize / pgsize) ∧
    copyin sixteenPageImage sp.as sp.as.pagetable pgsize 1 s.machine = .ok (true, [0], m2) ∧
    ¬ UserReadable s.machine.mem sp.as (pgsize / pgsize) := by
  have hrun : ((bootRun execForkOps).any fun s => (s.spaces 0).any fun sp =>
      (guardCheck s sp 1 &&
        (copyout sixteenPageImage sp.as sp.as.pagetable pgsize [1] s.machine).toOption.any fun r => r.1) &&
        (copyin sixteenPageImage sp.as sp.as.pagetable pgsize 1 s.machine).toOption.any fun r =>
          r.1 && r.2.1 == [0]) = true := by
    decide +kernel
  obtain ⟨s, sp, hvm, hsp, hcheck⟩ := bootRun_any hrun
  rw [Bool.and_eq_true, Bool.and_eq_true] at hcheck
  obtain ⟨⟨hguard, hout⟩, hin⟩ := hcheck
  obtain ⟨⟨ok1, m1⟩, hout, rfl⟩ := Except.ok_of_any hout
  obtain ⟨⟨ok2, bs, m2⟩, hin, hbytes⟩ := Except.ok_of_any hin
  rw [Bool.and_eq_true] at hbytes
  obtain ⟨rfl, hbytes⟩ := hbytes
  obtain rfl := eq_of_beq hbytes
  have hno := ((sharedGuard_iff s sp 1).mpr hguard).not_user
  exact ⟨s, sp, m1, m2, hvm, hsp, hout, hno.1, hin, hno.2⟩

/-- A `copyout` to the stack after a `fork`. -/
theorem copies_respect_user_stack : ∃ s sp m, VmRun sixteenPageImage s ∧ s.spaces 0 = some sp ∧
    copyout sixteenPageImage sp.as sp.as.pagetable (2 * pgsize) [7] s.machine = .ok (true, m) ∧
    ∀ i < 1, UserWritable s.machine.mem sp.as ((2 * pgsize + i) / pgsize) := by
  have hrun : ((bootRun execForkOps).any fun s => (s.spaces 0).any fun sp =>
      !guardCheck s sp 2 &&
        (copyout sixteenPageImage sp.as sp.as.pagetable (2 * pgsize) [7] s.machine).toOption.any
          fun r => r.1) = true := by
    decide +kernel
  obtain ⟨s, sp, hvm, hsp, hcheck⟩ := bootRun_any hrun
  rw [Bool.and_eq_true, Bool.not_eq_true'] at hcheck
  obtain ⟨hguard, hout⟩ := hcheck
  obtain ⟨⟨ok, m⟩, hout, rfl⟩ := Except.ok_of_any hout
  refine ⟨s, sp, m, hvm, hsp, hout,
    ((copies_respect_user hvm hsp (by decide)).1 [7] m hout).mpr fun i hi => ?_⟩
  obtain rfl : i = 0 := Nat.lt_one_iff.mp hi
  rw [sharedGuard_iff]
  exact Bool.eq_false_iff.mp hguard

/-! ## Exactness -/

/-- The byte of process `id` at `va`. -/
def userByte (s : VmState) (id va : ℕ) : Option UInt8 :=
  (s.spaces id).bind fun sp => byteAt sp.as.regions (userPages s) id va

theorem VmOk.written_user_iff (h : VmOk img s G) (hsp : s.spaces id = some sp)
    (hpage : WrittenPage sp.as id v s.machine G m' G') :
    (∃ l, UserLeaf G' id v l ∧ l.flags.testBit 4 = true) ↔ ¬ SharedGuard s.machine.mem sp.as v := by
  obtain ⟨pg, hpg, -, data, hview⟩ := hpage.page
  obtain ⟨l', hl', hafter⟩ := view_eq_some hview
  have hleaf : (∃ l, UserLeaf G' id v l ∧ l.flags.testBit 4 = true) ↔ pg.flags &&& pteU ≠ 0 := by
    have hflags := flags_user l' m'.mem
    rw [hafter] at hflags
    rw [hflags]
    exact ⟨fun ⟨l, hl, hbit⟩ => hl.inj hl' ▸ hbit, fun hbit => ⟨l', hl', hbit⟩⟩
  rw [hleaf]
  rcases h.page_cases hsp hpg hpage.before with ⟨l, -, -, rfl, huser⟩ | ⟨-, -, huser, hno⟩
  · rw [flags_user, huser]
  · exact ⟨fun _ => hno, fun _ => huser⟩

/-- `copyout` changes the bytes it is to write and no other byte of any process; where it
fails it has written the bytes up to a page boundary. What it wrote can be read back by
`copyin` exactly when no page of the range was mapped copy-on-write without `PTE_U`. -/
theorem copyout_copyin (h : VmRun img s) (hsp : s.spaces id = some sp) (hva : va < 2 ^ 32)
    {ok : Bool} (hcopy : copyout img sp.as sp.as.pagetable va bs s.machine = .ok (ok, m)) :
    (∀ id' a, id' ≠ id → userByte (s.withMachine m) id' a = userByte s id' a) ∧
    (ok = true →
      (∀ a, userByte (s.withMachine m) id a =
        if va ≤ a ∧ a < va + bs.length then bs[a - va]? else userByte s id a) ∧
      ((∃ m', copyin img sp.as sp.as.pagetable va bs.length m = .ok (true, bs, m')) ↔
        NoSharedGuard s.machine.mem sp.as va bs.length)) ∧
    (ok = false → ∃ k < bs.length, (k = 0 ∨ (va + k) % pgsize = 0) ∧
      ∀ a, userByte (s.withMachine m) id a =
        if va ≤ a ∧ a < va + k then bs[a - va]? else userByte s id a) := by
  obtain ⟨G, hok⟩ := h.ok
  obtain ⟨hr, hregs, -⟩ := hok.space hsp
  obtain ⟨G', k, hout⟩ := (copyoutLoop_copied bs.length (Nat.le_refl _) hok.inv hr hregs hva).of_eq_ok hcopy
  have hok' := hok.of_next hout.next hsp
  have hbyte : ∀ a, userByte s id a = byteAt sp.as.regions (view s.machine.mem G) id a := fun a => by
    rw [userByte, hsp, Option.bind_some, hok.userPages_eq]
  have hbyte' : ∀ a, userByte (s.withMachine m) id a =
      putBytes (byteAt sp.as.regions (view s.machine.mem G) id) va (bs.take k) a := fun a => by
    rw [userByte, show (s.withMachine m).spaces id = some sp from hsp, Option.bind_some,
      hok'.userPages_eq]
    exact congrFun hout.bytes a
  refine ⟨fun id' a hne => ?_, fun hdone => ⟨fun a => ?_, ?_⟩, fun hstop => ?_⟩
  · unfold userByte
    rw [hok.userPages_eq, hok'.userPages_eq]
    refine Option.bind_congr fun sp' _ => byteAt_congr (hout.others _ (.inl hne))
  · rw [hbyte', hbyte, putBytes_take _ _ (hout.done hdone).le, hout.done hdone]
  · subst hdone
    constructor
    · rintro ⟨m', hin⟩ i hi
      obtain ⟨G2, hin⟩ := (copyinLoop_copied bs.length hok'.inv (hr.next hout.next) hregs hva).of_eq_ok hin rfl
      have hpage := hout.pages rfl i hi
      obtain ⟨pg, -, -, data, hview⟩ := hpage.page
      obtain ⟨l, hl, -⟩ := view_eq_some hview
      refine (hok.written_user_iff hsp hpage).mp ⟨l, hl, (hin.pages i hi l hl).resolve_right ?_⟩
      rw [hpage.after l hl]
      decide
    · intro hno
      obtain ⟨bs', hin⟩ : ∃ bs', copyin img sp.as sp.as.pagetable va bs.length m = .ok (true, bs', m) :=
        copyinLoop_mapped _ (Nat.le_refl _) hok'.inv (hr.next hout.next) hva fun i hi => (hok.written_user_iff hsp (hout.pages rfl i hi)).mpr (hno i hi)
      obtain ⟨G2, hread⟩ := (copyinLoop_copied bs.length hok'.inv (hr.next hout.next) hregs hva).of_eq_ok hin rfl
      have hsame : bs' = bs := List.ext_getElem? fun i => by
        by_cases hi : i < bs.length
        · rw [← hread.bytes i hi]
          show byteAt sp.as.regions (view m.mem G') id (va + i) = _
          rw [hout.bytes, putBytes_take _ _ (hout.done rfl).le, if_pos ⟨by omega, by rw [hout.done rfl]; omega⟩,
            Nat.add_sub_cancel_left]
        · rw [List.getElem?_eq_none (by rw [hread.length]; omega), List.getElem?_eq_none (by omega)]
      rw [hsame] at hin
      exact ⟨m, hin⟩
  · obtain ⟨hk, hpage⟩ := hout.stopped hstop
    exact ⟨k, hk, hpage, fun a => by rw [hbyte', hbyte, putBytes_take _ _ hk.le]⟩

/-- What is copied out to the guard page after a `fork` cannot be copied in again. -/
theorem guard_page_unreadable : ∃ s sp m m', VmRun sixteenPageImage s ∧ s.spaces 0 = some sp ∧
    copyout sixteenPageImage sp.as sp.as.pagetable pgsize [1] s.machine = .ok (true, m) ∧
    copyin sixteenPageImage sp.as sp.as.pagetable pgsize 1 m = .ok (false, [], m') := by
  have hrun : ((bootRun execForkOps).any fun s => (s.spaces 0).any fun sp =>
      (copyout sixteenPageImage sp.as sp.as.pagetable pgsize [1] s.machine).toOption.any fun r =>
        r.1 && (copyin sixteenPageImage sp.as sp.as.pagetable pgsize 1 r.2).toOption.any fun r =>
          !r.1 && r.2.1 == []) = true := by
    decide +kernel
  obtain ⟨s, sp, hvm, hsp, hcheck⟩ := bootRun_any hrun
  obtain ⟨⟨ok1, m⟩, hout, hcheck⟩ := Except.ok_of_any hcheck
  rw [Bool.and_eq_true] at hcheck
  obtain ⟨rfl, hin⟩ := hcheck
  obtain ⟨⟨ok2, bs, m'⟩, hin, hbytes⟩ := Except.ok_of_any hin
  rw [Bool.and_eq_true, Bool.not_eq_true'] at hbytes
  obtain ⟨rfl, hbytes⟩ := hbytes
  obtain rfl := eq_of_beq hbytes
  exact ⟨s, sp, m, m', hvm, hsp, hout, hin⟩

/-- Two bytes at the end of the stack after a `fork`, read back. -/
theorem copyout_copyin_stack : ∃ s sp m m', VmRun sixteenPageImage s ∧ s.spaces 0 = some sp ∧
    copyout sixteenPageImage sp.as sp.as.pagetable (3 * pgsize - 2) [7, 8] s.machine = .ok (true, m) ∧
    copyin sixteenPageImage sp.as sp.as.pagetable (3 * pgsize - 2) 2 m = .ok (true, [7, 8], m') := by
  have hrun : ((bootRun execForkOps).any fun s => (s.spaces 0).any fun sp =>
      !guardCheck s sp 2 &&
        (copyout sixteenPageImage sp.as sp.as.pagetable (3 * pgsize - 2) [7, 8] s.machine).toOption.any
          fun r => r.1) = true := by
    decide +kernel
  obtain ⟨s, sp, hvm, hsp, hcheck⟩ := bootRun_any hrun
  rw [Bool.and_eq_true, Bool.not_eq_true'] at hcheck
  obtain ⟨hguard, hout⟩ := hcheck
  obtain ⟨⟨ok, m⟩, hout, rfl⟩ := Except.ok_of_any hout
  obtain ⟨m', hin⟩ := (((copyout_copyin hvm hsp (by decide) hout).2.1 rfl).2).mpr fun i hi => by
    have hpage : (3 * pgsize - 2 + i) / pgsize = 2 := by
      have hi : i < 2 := hi
      rw [pgsize_eq]
      omega
    rw [hpage, sharedGuard_iff]
    exact Bool.eq_false_iff.mp hguard
  exact ⟨s, sp, m, m', hvm, hsp, hout, hin⟩

/-! ## Strings -/

/-- The page `v` is mapped for the user. -/
def UserMapped (mem : Mem) (as : AddrSpace) (v : ℕ) : Prop :=
  ∃ pte, leafPte mem as.pagetable v = some pte ∧ pte &&& pteU ≠ 0

theorem VmOk.userMapped_iff (h : VmOk img s G) (hsp : s.spaces id = some sp) (hv : v < 2 ^ 20) :
    UserMapped s.machine.mem sp.as v ↔ ∃ l, UserLeaf G id v l ∧ l.flags.testBit 4 = true := by
  obtain ⟨pt, hG, has⟩ := (h.space hsp).1
  unfold UserMapped
  rw [has, (h.inv.represents id pt hG).leafPte_eq (by omega)]
  constructor
  · rintro ⟨pte, hpte, hbit⟩
    obtain ⟨l, hl, rfl⟩ := map_eq_some_iff.mp hpte
    have huser := l.pte_user.mp hbit
    exact ⟨l, h.inv.userLeaf_of_user hG hl huser, huser⟩
  · rintro ⟨l, ⟨-, pt', hG', hl⟩, huser⟩
    obtain rfl := Option.some.inj (hG.symm.trans hG')
    exact ⟨l.pte, by rw [hl, map_some], l.pte_user.mpr huser⟩

theorem byteAt_eq_userRead {rs : List MemRegion} {V : Pages} {a : ℕ} {c : UInt8}
    (h : userRead V id a = some c) : byteAt rs V id a = some c := by
  obtain ⟨pg, hpg, h⟩ := bind_eq_some_iff.mp h
  split_ifs at h
  rw [byteAt, pageAt, pgrounddown_div, hpg, some_or, map_some, h]

/-- A string that `copyin` can read is delivered by `copyinstr` exactly when all its pages
are mapped for the user already; and where none of the first `max` bytes that can be read
is NUL, `copyinstr` fails. -/
theorem copyinstr_copyin (h : VmRun img s) (hsp : s.spaces id = some sp) (hva : va < 2 ^ 32)
    (max : ℕ) :
    (∀ str m, 0 ∉ str → str.length + 1 ≤ max →
      copyin img sp.as sp.as.pagetable va (str.length + 1) s.machine = .ok (true, str ++ [0], m) →
      (copyinstr sp.as.pagetable va max s.machine = .ok (true, str ++ [0], s.machine) ↔
        ∀ i ≤ str.length, UserMapped s.machine.mem sp.as ((va + i) / pgsize))) ∧
    ((∀ i < max, va + i < 2 ^ 32 → ∀ pa,
        translate s.machine.mem sp.as.pagetable (va + i) pteR = some pa → s.machine.mem pa ≠ 0) →
      ∃ out, copyinstr sp.as.pagetable va max s.machine = .ok (false, out, s.machine)) := by
  obtain ⟨G, hok⟩ := h.ok
  obtain ⟨hr, hregs, -⟩ := hok.space hsp
  obtain ⟨out, hstr, hout⟩ := copyinstrLoop_spec max (Nat.le_refl _) hok.inv hr hva
  constructor
  · intro str m hnul hlen hcopy
    obtain ⟨G', hin⟩ := (copyinLoop_copied _ hok.inv hr hregs hva).of_eq_ok hcopy rfl
    have hmapped : ∀ i ≤ str.length, (UserMapped s.machine.mem sp.as ((va + i) / pgsize) ↔
        (userRead (view s.machine.mem G) id (va + i)).isSome) := fun i hi => by
      obtain ⟨pg, hpg⟩ := hin.pageAt (i := i) (by omega)
      have hv := lt_userVpns_of_pageAt hregs hpg
      rw [hok.userMapped_iff hsp (by rw [userVpns_eq] at hv; omega)]
      constructor
      · rintro ⟨l, hl, huser⟩
        rw [userRead_leaf hok.inv hl huser]
        rfl
      · intro hsome
        obtain ⟨c, hc⟩ := Option.isSome_iff_exists.mp hsome
        exact userRead_eq_some hc
    unfold copyinstr
    rw [hstr]
    constructor
    · intro heq i hi
      obtain ⟨hsome, heq⟩ := Prod.mk.inj (Except.ok.inj heq)
      obtain ⟨str', hread⟩ := Option.isSome_iff_exists.mp hsome
      obtain rfl := hout str' hread
      obtain rfl := (Prod.mk.inj heq).1
      rw [hmapped i hi, (readStr_get max hread).2 i (by rw [List.length_append]; exact Nat.lt_succ_of_le hi),
        List.getElem?_eq_getElem (by rw [List.length_append]; exact Nat.lt_succ_of_le hi)]
      rfl
    · intro hall
      have hread : readStr (userRead (view s.machine.mem G) id) max va = some (str ++ [0]) := by
        refine readStr_eq hnul hlen fun i hi => ?_
        obtain ⟨c, hc⟩ := Option.isSome_iff_exists.mp
          ((hmapped i (Nat.le_of_lt_succ hi)).mp (hall i (Nat.le_of_lt_succ hi)))
        rw [hc, ← hin.bytes i hi, byteAt_eq_userRead hc]
      rw [hread, hout _ hread]
      rfl
  · intro hnonul
    refine ⟨out, ?_⟩
    cases hread : readStr (userRead (view s.machine.mem G) id) max va with
    | none =>
      rw [hread] at hstr
      exact hstr
    | some str =>
      obtain ⟨n, hn, hnul⟩ := (readStr_get max hread).1
      obtain ⟨l, hl, huser⟩ := userRead_eq_some hnul
      rw [userRead_leaf hok.inv hl huser] at hnul
      have hv := hl.1
      have hlt : va + n < 2 ^ 32 := by
        rw [userVpns_eq, pgsize_eq] at hv
        omega
      refine absurd (Option.some.inj hnul) (hnonul n hn hlt _ ?_)
      rw [translate, (hok.leafPte_iff hv hsp).mpr ⟨l, hl, rfl⟩, Option.bind_some,
        if_pos ⟨l.pte_user.mpr huser, (need_bit l false).mpr (hok.inv.leaves _ _ l hl).readable⟩,
        l.pte2pa_pte]

/-- The empty string in a page of the heap that is not there yet: `copyin` reads its NUL,
`copyinstr` fails. -/
theorem lazy_page_string : ∃ s sp m, VmRun sixteenPageImage s ∧ s.spaces 0 = some sp ∧
    copyin sixteenPageImage sp.as sp.as.pagetable (3 * pgsize) 1 s.machine = .ok (true, [0], m) ∧
    copyinstr sp.as.pagetable (3 * pgsize) 1 s.machine = .ok (false, [], s.machine) := by
  have hrun : ((bootRun (execOps ++ [.resizeHeap 0 (4 * pgsize)])).any fun s => (s.spaces 0).any fun sp =>
      ((copyin sixteenPageImage sp.as sp.as.pagetable (3 * pgsize) 1 s.machine).toOption.any fun r =>
        r.1 && r.2.1 == [0]) && (walkaddr sp.as.pagetable (3 * pgsize) s.machine).toOption.any fun r =>
          r.1 == 0) = true := by
    decide +kernel
  obtain ⟨s, sp, hvm, hsp, hcheck⟩ := bootRun_any hrun
  rw [Bool.and_eq_true] at hcheck
  obtain ⟨⟨⟨ok, bs, m⟩, hin, hbytes⟩, ⟨⟨pa, m'⟩, hwalk, hpa⟩⟩ := hcheck.imp Except.ok_of_any Except.ok_of_any
  rw [Bool.and_eq_true] at hbytes
  obtain ⟨rfl, hbytes⟩ := hbytes
  obtain rfl := eq_of_beq hbytes
  obtain rfl : pa = 0 := eq_of_beq hpa
  refine ⟨s, sp, m, hvm, hsp, hin, ?_⟩
  obtain ⟨G, hok⟩ := hvm.ok
  rcases walkaddr_cases hok.inv (hok.space hsp).1 (show 3 * pgsize < 2 ^ 32 by decide) with
    ⟨hwalk', -⟩ | ⟨l, hl, -, hwalk'⟩
  · show copyinstrLoop sp.as.pagetable 1 (3 * pgsize) 1 s.machine = _
    unfold copyinstrLoop
    rw [if_neg (by decide)]
    dsimp only
    rw [show pgrounddown (3 * pgsize) = 3 * pgsize by decide, hwalk']
    rfl
  · rw [hwalk'] at hwalk
    exact absurd (Prod.mk.inj (Except.ok.inj hwalk)).1 (hok.inv.leaf_pa_ne_zero hl)

/-- The empty string at the bottom of the stack. -/
theorem copyinstr_copyin_stack : ∃ s sp m, VmRun sixteenPageImage s ∧ s.spaces 0 = some sp ∧
    copyin sixteenPageImage sp.as sp.as.pagetable (2 * pgsize) 1 s.machine = .ok (true, [0], m) ∧
    copyinstr sp.as.pagetable (2 * pgsize) 1 s.machine = .ok (true, [0], s.machine) := by
  have hrun : ((bootRun execOps).any fun s => (s.spaces 0).any fun sp =>
      ((copyin sixteenPageImage sp.as sp.as.pagetable (2 * pgsize) 1 s.machine).toOption.any fun r =>
        r.1 && r.2.1 == [0]) && (leafPte s.machine.mem sp.as.pagetable 2).any fun pte =>
          decide (pte &&& pteU ≠ 0)) = true := by
    decide +kernel
  obtain ⟨s, sp, hvm, hsp, hcheck⟩ := bootRun_any hrun
  rw [Bool.and_eq_true] at hcheck
  obtain ⟨hin, hpte⟩ := hcheck
  obtain ⟨⟨ok, bs, m⟩, hin, hbytes⟩ := Except.ok_of_any hin
  rw [Bool.and_eq_true] at hbytes
  obtain ⟨rfl, hbytes⟩ := hbytes
  obtain rfl := eq_of_beq hbytes
  obtain ⟨pte, hpte, huser⟩ := (Option.any_eq_true _ _).mp hpte
  refine ⟨s, sp, m, hvm, hsp, hin,
    ((copyinstr_copyin hvm hsp (by decide) 1).1 [] m List.not_mem_nil (Nat.le_refl _) hin).mpr
      fun i hi => ?_⟩
  obtain rfl : i = 0 := Nat.le_zero.mp hi
  exact ⟨pte, hpte, of_decide_eq_true huser⟩

end

end YHsys.Kernel
