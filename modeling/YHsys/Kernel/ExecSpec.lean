import YHsys.Kernel.ProcLayout
import YHsys.Kernel.UserCopy

/-!
# What `kexec` builds

No part of `kexec` panics, each keeps the invariant of the page tables and leaves the memory
of the other address spaces alone, and an address space that `kexec` hands to a process is
laid out as a program's (`LaidOut`), with an empty heap.
-/

namespace YHsys.Kernel

section

variable {img : KernelImage} {id v va sz : ℕ} {m : Machine} {G : Tables} {e : ℕ → ℕ}
  {as oldAs : AddrSpace} {file : List UInt8}

/-! ## Segments -/

theorem readi_length_le (file : List UInt8) (off n : ℕ) : (readi file off n).length ≤ n := by
  unfold readi
  split_ifs
  · exact Nat.zero_le _
  · rw [List.length_take]
    exact Nat.min_le_left _ _

theorem leNat_lt (bs : List UInt8) : leNat bs < 256 ^ bs.length := by
  induction bs with
  | nil => exact Nat.one_pos
  | cons b bs ih =>
    have hb := b.toNat_lt
    rw [leNat, List.length_cons, Nat.pow_succ]
    omega

theorem structField_lt (bs : List UInt8) (off : ℕ) : structField bs off 4 < 2 ^ 32 := by
  refine (leNat_lt _).trans_le ?_
  rw [show 2 ^ 32 = 256 ^ 4 by norm_num]
  refine Nat.pow_le_pow_right (by decide) ?_
  rw [List.length_take]
  exact Nat.min_le_left _ _

theorem VmInv.storeUser {l : Leaf} (off : ℕ) {bs : List UInt8} (h : VmInv img m G e)
    (hl : UserLeaf G id v l) (hlen : off + bs.length ≤ pgsize) :
    VmInv img (m.storeBytes (l.pa + off) bs) G e := by
  have hsame := SameOutside.storeBytes m.mem (pa2idx l.pa) hlen
  rw [h.leaf_pa hl] at hsame
  exact h.withMem hsame fun p hp heq => h.leaf_not_table hl (heq ▸ hp)

theorem VmInv.storeUser_same {l : Leaf} (off : ℕ) {bs : List UInt8} (h : VmInv img m G e)
    (hun : Unshared G id) (hl : UserLeaf G id v l) (hlen : off + bs.length ≤ pgsize) :
    SameMemory id m G (m.storeBytes (l.pa + off) bs) G := by
  have hsame := SameOutside.storeBytes m.mem (pa2idx l.pa) hlen
  rw [h.leaf_pa hl] at hsame
  refine ⟨fun _ _ _ => rfl, fun ⟨id', v'⟩ hid => ?_⟩
  have hid : id' ≠ id := hid
  unfold view
  split_ifs with hv'
  · cases hl' : (G id').bind fun pt => pt.leaf v' with
    | none => rfl
    | some l' =>
      obtain ⟨pt', hG', hleaf'⟩ := Option.bind_eq_some_iff.mp hl'
      have hul' : UserLeaf G id' v' l' := ⟨hv', pt', hG', hleaf'⟩
      have hne : pa2idx l'.pa ∉ ({pa2idx l.pa} : Set ℕ) := fun heq => by
        have heq : pa2idx l'.pa = pa2idx l.pa := heq
        have hslot := Holders.eq_of_count_le_one h.bounded (hun v l hl).1 (heq ▸ hul'.owned_eq)
          hl.owned_eq
        exact hid (Prod.mk.inj hslot).1
      simp only [Option.map_some, Leaf.userPage]
      exact congrArg (fun data => some (UserPage.mk data _)) (hsame _ hne).symm
  · rfl

/-- `loadseg` writes to pages that are there. -/
theorem loadsegLoop_spec (fuel : ℕ) {offset : ℕ} (h : VmInv img m G e) (hr : Rooted G id as)
    (hun : Unshared G id) (halign : va % pgsize = 0) (hend : va + sz < trapframe)
    (hpages : ∀ x, va / pgsize ≤ x → x < upVpn (va + sz) → UserPageAt G id x) :
    Except.Sat (fun _ => False) (fun r => VmInv img r.2 G e ∧ SameMemory id m G r.2 G)
      (loadsegLoop as.pagetable file fuel va offset sz m) := by
  induction fuel generalizing va offset sz m with
  | zero => exact ⟨h, .refl id m G⟩
  | succ fuel ih =>
    unfold loadsegLoop
    split_ifs with hsz
    · exact ⟨h, .refl id m G⟩
    · have hva : va < 2 ^ 32 := by
        rw [trapframe_eq] at hend
        omega
      have hfirst : va / pgsize < upVpn (va + sz) := by
        rw [upVpn, pgsize_eq] at *
        omega
      obtain ⟨l0, hl0, huser⟩ := hpages _ (Nat.le_refl _) hfirst
      rcases walkaddr_cases h hr hva with ⟨-, hno⟩ | ⟨l, hl, -, hwalk⟩
      · rw [hno l0 (userLeaves_iff.mp hl0)] at huser
        cases huser
      · have hlen : 0 + (readi file offset (min sz pgsize)).length ≤ pgsize := by
          have := readi_length_le file offset (min sz pgsize)
          omega
        have hinv : VmInv img (m.storeBytes l.pa (readi file offset (min sz pgsize))) G e :=
          h.storeUser 0 hl hlen
        have hsame : SameMemory id m G (m.storeBytes l.pa (readi file offset (min sz pgsize))) G :=
          h.storeUser_same 0 hun hl hlen
        rw [hwalk, Except.ok_bind]
        dsimp only
        rw [if_neg (h.leaf_pa_ne_zero hl)]
        split_ifs
        · exact ⟨hinv, hsame⟩
        · -- the last round leaves nothing, the others a whole number of pages less
          have hnext : (va + pgsize) % 2 ^ 32 = va + pgsize := by
            rw [trapframe_eq, pgsize_eq] at *
            omega
          rw [hnext]
          by_cases hlast : sz ≤ pgsize
          · rw [Nat.min_eq_left hlast, Nat.sub_self]
            have hdone : loadsegLoop as.pagetable file fuel (va + pgsize)
                ((offset + pgsize) % 2 ^ 32) 0 (m.storeBytes l.pa (readi file offset sz)) =
                  .ok (true, m.storeBytes l.pa (readi file offset sz)) := by
              cases fuel <;> rfl
            rw [hdone, Nat.min_eq_left hlast] at *
            exact ⟨hinv, hsame⟩
          · rw [Nat.min_eq_right (by omega)] at hinv hsame ⊢
            have hstep : va + pgsize + (sz - pgsize) = va + sz := by omega
            refine (ih hinv (by rw [Nat.add_mod_right, halign]) (by omega) ?_).post
              fun r hr => ⟨hr.1, hsame.trans hr.2⟩
            intro x hx hlt
            rw [hstep] at hlt
            refine hpages x ?_ hlt
            rw [pgsize_eq] at *
            omega

/-- The segments lie below the size that the loop returns. -/
theorem execSegments_spec (n : ℕ) {off : ℕ} (h : VmInv img m G e) (hr : Rooted G id as)
    (hun : Unshared G id) (hsz : sz < trapframe) (hw : Within G id (· < upVpn sz)) :
    Except.Sat (fun _ => False) (fun r => ∃ G', Next img id G r.2 G' e ∧ SameMemory id m G r.2 G' ∧
        ∀ sz', r.1 = some sz' → sz' < trapframe ∧ Within G' id (· < upVpn sz'))
      (execSegments img as.pagetable file n off sz m) := by
  induction n generalizing off sz m G with
  | zero =>
    exact ⟨G, Next.refl h id, .refl id m G, fun sz' heq => Option.some.inj heq ▸ ⟨hsz, hw⟩⟩
  | succ n ih =>
    unfold execSegments
    dsimp only
    generalize hph : progHdr (readi file off progHdrSize) = ph
    have hva : ph.vaddr < 2 ^ 32 := by rw [← hph]; exact structField_lt _ _
    have hmem : ph.memsz < 2 ^ 32 := by rw [← hph]; exact structField_lt _ _
    have hfail : ∃ G', Next img id G m G' e ∧ SameMemory id m G m G' ∧
        ∀ sz', (none : Option ℕ) = some sz' → sz' < trapframe ∧ Within G' id (· < upVpn sz') :=
      ⟨G, Next.refl h id, .refl id m G, nofun⟩
    split_ifs with hlen htype hfile hseg
    · exact hfail
    · exact ih h hr hun hsz hw
    · exact hfail
    · exact hfail
    · have halign : ph.vaddr % pgsize = 0 := by omega
      have hpage : ph.vaddr / pgsize * pgsize = ph.vaddr :=
        Nat.div_mul_cancel (Nat.dvd_of_mod_eq_zero halign)
      have hend : (ph.vaddr + ph.memsz) % 2 ^ 32 = ph.vaddr + ph.memsz := by omega
      have hlt : ph.vaddr / pgsize * pgsize + ph.memsz < trapframe := by omega
      have hseg := allocseg_spec h hr hun hlt (flags2perm_fresh ph.flags)
      rw [hpage] at hseg hlt
      rw [hend]
      refine hseg.bind ?_
      rintro ⟨_ | _, m1⟩ ⟨G1, hn1, hsame1, hpages, hleaves⟩
      · exact ⟨G1, hn1, hsame1, nofun⟩
      · have hw1 : Within G1 id (· < upVpn (max sz (ph.vaddr + ph.memsz))) := by
          refine (hw.mono fun v hv => hv.trans_le (upVpn_mono (Nat.le_max_left _ _))).of_leaves
            fun v l hl => ?_
          by_cases hv : v < upVpn (ph.vaddr + ph.memsz)
          · exact .inr (hv.trans_le (upVpn_mono (Nat.le_max_right _ _)))
          · rw [hleaves (id, v) (.inr (Nat.not_lt.mp hv))] at hl
            exact .inl (by rw [hl]; rfl)
        have hload : Except.Sat (fun _ => False)
            (fun r => VmInv img r.2 G1 e ∧ SameMemory id m1 G1 r.2 G1)
            (loadseg as.pagetable ph.vaddr file ph.off ph.filesz m1) :=
          loadsegLoop_spec _ hn1.inv (hr.next hn1) (hun.keeps hn1.priv) halign (by omega)
            fun x hx hlt => hpages rfl x hx (hlt.trans_le (upVpn_mono (by omega)))
        refine hload.bind ?_
        rintro ⟨_ | _, m2⟩ ⟨hinv2, hsame2⟩
        · exact ⟨G1, ⟨hinv2, hn1.others, hn1.table, hn1.priv⟩, hsame1.trans hsame2, nofun⟩
        · have hn2 : Next img id G m2 G1 e := ⟨hinv2, hn1.others, hn1.table, hn1.priv⟩
          refine (ih hinv2 (hr.next hn1) (hun.keeps hn1.priv) (by omega) hw1).post ?_
          rintro r ⟨G2, hn3, hsame3, hpost⟩
          exact ⟨G2, hn2.trans hn3, (hsame1.trans hsame2).trans hsame3, hpost⟩

/-! ## The arguments -/

/-- The entry of `v` is one of the user that can be written without a fault. -/
def PlainPage (G : Tables) (id v : ℕ) : Prop :=
  ∃ l, UserLeaf G id v l ∧ l.flags.testBit 4 = true ∧ l.flags.testBit 2 = true ∧
    l.flags.testBit 8 = false

theorem copyoutPage_plain {bs : List UInt8} {l : Leaf} (h : VmInv img m G e) (hr : Rooted G id as)
    (hva : va < 2 ^ 32) (hl : UserLeaf G id (va / pgsize) l) (huser : l.flags.testBit 4 = true)
    (hw : l.flags.testBit 2 = true) (hcow : l.flags.testBit 8 = false) :
    copyoutPage img oldAs as.pagetable va bs m =
      .ok (true, m.storeBytes (l.pa + va % pgsize) bs) := by
  have hva0 : pgrounddown va < 2 ^ 32 := Nat.lt_of_le_of_lt (Nat.div_mul_le_self va pgsize) hva
  obtain ⟨pt, hG, has⟩ := hr
  have hleaf : pt.leaf (pgrounddown va / pgsize) = some l := by
    obtain ⟨-, pt', hG', hl⟩ := hl
    rwa [pgrounddown_div, Option.some.inj (hG.symm.trans hG')]
  rcases walk_false_cases h hG hva0 with ⟨hnone, -⟩ | ⟨t, -, hwalk, hword⟩
  · rw [hnone] at hleaf
    cases hleaf
  · have hword : rd32 m.mem (idx2pa t + 4 * (pgrounddown va / pgsize % 1024)) = l.pte := by
      rw [hword, hleaf]
      rfl
    have hvalid : ¬ l.pte &&& pteV = 0 := leafEntry_some_valid l
    have hpte : ¬ l.pte &&& pteW = 0 := (need_bit l true).mpr hw
    have hpcow : ¬ l.pte &&& pteCOW ≠ 0 := fun hc => by
      rw [l.pte_cow.mp hc] at hcow
      cases hcow
    unfold copyoutPage copyoutAddr
    dsimp only
    rw [if_neg (show ¬ maxva ≤ pgrounddown va from Nat.not_le.mpr hva0), has, hwalk, Except.ok_bind]
    dsimp only
    rw [hword, if_neg (not_or.mpr ⟨hvalid, l.pte_user.mpr huser⟩), if_neg hpcow,
      Except.ok_bind]
    dsimp only
    rw [hwalk, Except.ok_bind]
    dsimp only
    rw [hword, if_neg hpte, l.pte2pa_pte, sub_pgrounddown]

theorem copyout_plain (oldAs : AddrSpace) (bs : List UInt8) (h : VmInv img m G e)
    (hr : Rooted G id as) (hun : Unshared G id) (hva : va < 2 ^ 32) (hpage : PlainPage G id (va / pgsize))
    (hlen : va % pgsize + bs.length ≤ pgsize) :
    ∃ m', copyout img oldAs as.pagetable va bs m = .ok (true, m') ∧ VmInv img m' G e ∧
      SameMemory id m G m' G := by
  obtain ⟨l, hl, huser, hw, hcow⟩ := hpage
  unfold copyout
  cases hbs : bs.length with
  | zero =>
    rw [List.eq_nil_of_length_eq_zero hbs]
    exact ⟨m, rfl, h, .refl id m G⟩
  | succ k =>
    have hne : bs ≠ [] := by
      rintro rfl
      cases hbs
    refine ⟨m.storeBytes (l.pa + va % pgsize) bs, ?_, h.storeUser _ hl hlen,
      h.storeUser_same _ hun hl hlen⟩
    unfold copyoutLoop
    rw [if_neg hne]
    dsimp only
    rw [List.take_of_length_le (by omega), List.drop_eq_nil_of_le (by omega),
      copyoutPage_plain h hr hva hl huser hw hcow, Except.ok_bind]
    dsimp only
    cases k with
    | zero => rfl
    | succ k => rfl

theorem execArgs_spec (argv : List (List UInt8)) {sp : ℕ} {ustack : List ℕ} (h : VmInv img m G e)
    (hr : Rooted G id as) (hun : Unshared G id) (hv : 1 ≤ v) (hpage : PlainPage G id v)
    (hargs : ∀ arg ∈ argv, arg.length + 1 ≤ pgsize) (hsp : v * pgsize ≤ sp)
    (hend : sp ≤ (v + 1) * pgsize) :
    Except.Sat (fun _ => False) (fun r => VmInv img r.2 G e ∧ SameMemory id m G r.2 G ∧ ∀ sp' us, r.1 = some (sp', us) →
        v * pgsize ≤ sp' ∧ sp' ≤ (v + 1) * pgsize ∧ us.length = ustack.length + argv.length ∧
        (us.length ≤ maxarg ∨ us.length = ustack.length))
      (execArgs img oldAs as.pagetable (v * pgsize) argv sp ustack m) := by
  induction argv generalizing sp ustack m with
  | nil =>
    refine ⟨h, .refl id m G, fun sp' us heq => ?_⟩
    obtain ⟨rfl, rfl⟩ := Prod.mk.inj (Option.some.inj heq)
    exact ⟨hsp, hend, rfl, .inr rfl⟩
  | cons arg argv ih =>
    have hvlt : v < userVpns := hpage.choose_spec.1.1
    have harg := hargs arg List.mem_cons_self
    unfold execArgs
    split_ifs with hmax
    · exact ⟨h, .refl id m G, nofun⟩
    · have hsub : (sp + 2 ^ 32 - (arg.length + 1)) % 2 ^ 32 = sp - (arg.length + 1) := by
        rw [userVpns_eq] at hvlt
        rw [pgsize_eq] at *
        omega
      dsimp only
      rw [hsub]
      generalize hnew : sp - (arg.length + 1) - (sp - (arg.length + 1)) % 16 = sp1
      split_ifs with hlow
      · exact ⟨h, .refl id m G, nofun⟩
      · have hdiv : sp1 / pgsize = v := by
          rw [pgsize_eq] at *
          omega
        have hlt : sp1 < 2 ^ 32 := by
          rw [userVpns_eq] at hvlt
          rw [pgsize_eq] at *
          omega
        have hfit : sp1 % pgsize + (arg ++ [0]).length ≤ pgsize := by
          rw [List.length_append, List.length_singleton]
          rw [pgsize_eq] at *
          omega
        obtain ⟨m1, hcopy, hinv, hsame⟩ :=
          copyout_plain oldAs (arg ++ [0]) h hr hun hlt (hdiv.symm ▸ hpage) hfit
        rw [hcopy, Except.ok_bind]
        refine (ih hinv (fun a ha => hargs a (List.mem_cons_of_mem _ ha)) (Nat.not_lt.mp hlow)
          (by omega)).post ?_
        rintro r ⟨hinv', hsame', hpost⟩
        refine ⟨hinv', hsame.trans hsame', fun sp' us heq => ?_⟩
        obtain ⟨h1, h2, h3, h4⟩ := hpost sp' us heq
        rw [List.length_append] at h3 h4
        refine ⟨h1, h2, by rw [h3, List.length_cons]; simp; omega, .inl ?_⟩
        rcases h4 with h4 | h4
        · exact h4
        · rw [h4]
          show ustack.length + 1 ≤ maxarg
          omega

theorem sub_mod_word {a b : ℕ} (hb : b ≤ a) (ha : a < 2 ^ 32) :
    (a + 2 ^ 32 - b) % 2 ^ 32 = a - b := by
  rw [Nat.sub_add_comm hb, Nat.add_mod_right, Nat.mod_eq_of_lt (by omega)]

theorem leBytes_length (ws : List ℕ) : (ws.flatMap leBytes).length = ws.length * 4 := by
  induction ws with
  | nil => rfl
  | cons w ws ih =>
    rw [List.flatMap_cons, List.length_append, ih, List.length_cons, leBytes, List.length_map,
      List.length_range]
    omega

theorem execPush_spec (argv : List (List UInt8)) (h : VmInv img m G e) (hr : Rooted G id as)
    (hun : Unshared G id) (hv : 1 ≤ v) (hpage : PlainPage G id v) (hargs : ∀ arg ∈ argv, arg.length + 1 ≤ pgsize) :
    Except.Sat (fun _ => False) (fun r => VmInv img r.2 G e ∧ SameMemory id m G r.2 G)
      (execPush img oldAs as.pagetable ((v + 1) * pgsize) argv m) := by
  have hbase : (v + 1) * pgsize - userstack * pgsize = v * pgsize := by
    rw [← Nat.sub_mul]
    rfl
  have hvlt : v < userVpns := hpage.choose_spec.1.1
  unfold execPush
  dsimp only
  rw [hbase]
  refine (execArgs_spec argv h hr hun hv hpage hargs (Nat.mul_le_mul_right _ (Nat.le_succ v))
    (Nat.le_refl _)).bind ?_
  rintro ⟨_ | ⟨sp, us⟩, m1⟩ ⟨hinv, hsame, hpost⟩
  · exact ⟨hinv, hsame⟩
  · obtain ⟨hlow, hhigh, hlen, hmax⟩ := hpost sp us rfl
    have hcount : (argv.length + 1) * 4 ≤ 132 := by
      rw [List.length_nil] at hlen hmax
      rw [show maxarg = 32 from rfl] at hmax
      omega
    have hfits : v * 4096 + 4096 < 2 ^ 32 := by
      rw [userVpns_eq] at hvlt
      omega
    rw [pgsize_eq] at hlow hhigh
    dsimp only
    rw [sub_mod_word (by omega : (argv.length + 1) * 4 ≤ sp) (by omega)]
    generalize hnew : sp - (argv.length + 1) * 4 - (sp - (argv.length + 1) * 4) % 16 = sp1
    split_ifs with hbad
    · exact ⟨hinv, hsame⟩
    · rw [pgsize_eq] at hbad
      have hdiv : sp1 / pgsize = v := by
        rw [pgsize_eq]
        omega
      have hlt : sp1 < 2 ^ 32 := by omega
      have hfit : sp1 % pgsize + ((us ++ [0]).flatMap leBytes).length ≤ pgsize := by
        rw [leBytes_length, List.length_append, List.length_singleton, hlen, List.length_nil,
          Nat.zero_add, pgsize_eq]
        omega
      obtain ⟨m2, hcopy, hinv2, hsame2⟩ :=
        copyout_plain oldAs _ hinv hr hun hlt (hdiv.symm ▸ hpage) hfit
      rw [hcopy]
      exact ⟨hinv2, hsame.trans hsame2⟩

/-! ## The stack -/

theorem execRegions_eq (L : ProcLayout) (hbrk : L.brk = L.heap * pgsize) {pagetable : ℕ}
    (hpt : pagetable ≠ 0) :
    execRegions ⟨pagetable, []⟩ (L.text * pgsize) (L.guard * pgsize) (L.heap * pgsize)
      (L.heap * pgsize) = (true, ⟨pagetable, L.regions⟩) := by
  have h := L.addRegions_eq hpt
  unfold addRegions ProcLayout.regions at h
  rw [hbrk] at h
  simp only [List.foldlM_cons, List.foldlM_nil, Option.bind_eq_bind] at h
  obtain ⟨as1, h1, h⟩ := Option.bind_eq_some_iff.mp h
  obtain ⟨as2, h2, h⟩ := Option.bind_eq_some_iff.mp h
  obtain ⟨as3, h3, h⟩ := Option.bind_eq_some_iff.mp h
  unfold execRegions ProcLayout.regions
  simp only [h1, h2, h3]
  rw [hbrk, Option.some.inj h]

/-- What the address space under construction looks like at the end of `kexec`. -/
theorem execStack_spec {draw : ℕ → ℕ} {argv : List (List UInt8)} (h : VmInv img m G e)
    (hr : Rooted G id as) (hregs : as.regions = []) (hun : Unshared G id) (hsz : sz < trapframe)
    (hw : Within G id (· < upVpn sz)) (hargs : ∀ arg ∈ argv, arg.length + 1 ≤ pgsize) :
    Except.Sat (fun _ => False) (fun r => ∃ G', Next img id G r.2.2 G' e ∧
        SameMemory id m G r.2.2 G' ∧ r.2.1.pagetable = as.pagetable ∧ RegionsOk r.2.1 ∧ (r.1 = true → LaidOut G' id r.2.1))
      (execStack img oldAs as sz argv draw m) := by
  have hgap : aslrPages (draw 1) aslrStackGapMaxPages ≤ 1 :=
    Nat.le_of_lt_succ (Nat.mod_lt (draw 1) (by decide))
  have hnil : RegionsOk as := fun r hmem => by
    rw [hregs] at hmem
    cases hmem
  have hup := upVpn_le hsz.le
  unfold execStack
  dsimp only
  rw [pgroundup_eq hsz.le]
  generalize aslrPages (draw 1) aslrStackGapMaxPages = g at hgap ⊢
  split_ifs with hbad
  · exact ⟨G, Next.refl h id, .refl id m G, rfl, hnil, nofun⟩
  · -- no sum wraps around
    have hend : (upVpn sz * pgsize + g * pgsize + (userstack + 1) * pgsize) % 2 ^ 32 =
        (upVpn sz + g + 2) * pgsize := by
      rw [userVpns_eq] at hup
      rw [show userstack = 1 from rfl, pgsize_eq] at hbad ⊢
      omega
    rw [hend] at hbad ⊢
    have hbelow : (upVpn sz + g + 2) * pgsize < trapframe := by omega
    have hguard : ((upVpn sz + g + 2) * pgsize + 2 ^ 32 - (userstack + 1) * pgsize) % 2 ^ 32 =
        (upVpn sz + g) * pgsize := by
      rw [sub_mod_word, ← Nat.sub_mul]
      · rfl
      · exact Nat.mul_le_mul_right _ (Nat.le_add_left 2 _)
      · rw [trapframe_eq] at hbelow
        omega
    rw [hguard]
    obtain ⟨L, hL1, hL2, hL3, hL4⟩ : ∃ L : ProcLayout, L.text = upVpn sz ∧ L.guard = upVpn sz + g ∧
        L.heap = upVpn sz + g + 2 ∧ L.brk = L.heap * pgsize :=
      ⟨⟨upVpn sz, upVpn sz + g, upVpn sz + g + 2, (upVpn sz + g + 2) * pgsize, Nat.le_add_right _ _,
        by omega, Nat.le_refl _, by omega⟩, rfl, rfl, rfl, rfl⟩
    have hLpage : ∀ v, L.Page v ↔ v < upVpn sz ∨ upVpn sz + g ≤ v ∧ v < upVpn sz + g + 2 := fun v => by
      rw [ProcLayout.Page, hL4, upVpn_mul, hL1, hL2, hL3]
    refine ((uvmalloc_spec h hr (by omega) heapPerm_fresh).mono ?_ fun _ hq => hq).bind ?_
    · -- the pages of the segments lie below the stack
      rintro err ⟨-, x, hx, -, hleaf⟩
      obtain ⟨l, hl⟩ := Option.ne_none_iff_exists'.mp hleaf
      rw [upVpn_mul] at hx
      have hlow : x < upVpn sz := hw x l (userLeaves_iff.mp hl)
      omega
    rintro ⟨sz1, m1⟩ ⟨G1, hn1, hpost, hnothing⟩
    dsimp only
    by_cases hz : sz1 = 0
    · rw [if_pos hz]
      obtain ⟨hview1, -⟩ := hnothing hz (Nat.mul_pos (Nat.succ_pos _) (by decide))
      exact ⟨G1, hn1, hn1.sameMemory fun x _ => by rw [hview1], rfl, hnil, nofun⟩
    · obtain ⟨hsz1, hview1, -⟩ := hpost hz (Nat.mul_le_mul_right _ (by omega))
      obtain rfl : sz1 = _ := hsz1
      rw [if_neg hz]
      have hup1 : upVpn ((upVpn sz + g + 2) * pgsize) - upVpn ((upVpn sz + g) * pgsize) = 2 := by
        rw [upVpn_mul, upVpn_mul]
        omega
      rw [hup1, upVpn_mul] at hview1
      have hv : (upVpn sz + g) * pgsize / pgsize < userVpns := by
        rw [mul_pgsize_div]
        rw [trapframe_eq, pgsize_eq] at hbelow
        rw [userVpns_eq]
        omega
      have hw1 : Within G1 id L.Page := by
        refine (hw.mono fun v hv => (hLpage v).mpr (.inl hv)).of_view m.mem m1.mem
          fun v pg hpg => ?_
        rw [hview1] at hpg
        unfold fillPages at hpg
        split_ifs at hpg with hin
        · exact .inr ((hLpage v).mpr (.inr hin.2))
        · exact .inl (by rw [hpg]; rfl)
      -- the stack page can be written without a fault
      have hplain : PlainPage G1 id (upVpn sz + g + 1) := by
        have hpg : view m1.mem G1 (id, upVpn sz + g + 1) = some (zeroPage (pteR ||| pteU ||| pteW)) := by
          rw [hview1]
          exact if_pos ⟨rfl, by dsimp only; omega, by dsimp only; omega⟩
        obtain ⟨l, hl, hpage⟩ := view_eq_some hpg
        have hcow := ((hun.keeps hn1.priv) _ l hl).2
        have hfl : l.flags = pteR ||| pteU ||| pteW ||| pteV := by
          have := congrArg UserPage.flags hpage
          rwa [Leaf.userPage, eagerFlags_of_not_cow hcow] at this
        exact ⟨l, hl, by rw [hfl]; decide, by rw [hfl]; decide, hcow⟩
      have hclear := uvmclear_spec hn1.inv (hr.next hn1) hv
      rw [mul_pgsize_div] at hclear
      have hsame1 : SameMemory id m G m1 G1 := hn1.sameMemory fun x hx => by
        rw [hview1]
        exact if_neg fun hin => hx hin.1
      -- the guard page is one of the two that were just mapped
      have hthere : userLeaves G1 (id, upVpn sz + g) ≠ none := fun hnone => by
        have hpg : view m1.mem G1 (id, upVpn sz + g) = some (zeroPage (pteR ||| pteU ||| pteW)) := by
          rw [hview1]
          exact if_pos ⟨rfl, Nat.le_refl _, Nat.lt_add_of_pos_right (by decide)⟩
        obtain ⟨l, hl, -⟩ := view_eq_some hpg
        rw [userLeaves_iff.mpr hl] at hnone
        cases hnone
      refine (hclear.mono (fun _ herr => hthere herr.2) fun _ hq => hq).bind ?_
      intro m2 hcleared
      have hheap : ((upVpn sz + g + 2) * pgsize + aslrPages (draw 2) aslrHeapGapMaxPages * pgsize) %
          2 ^ 32 = (upVpn sz + g + 2) * pgsize := by
        rw [show aslrPages (draw 2) aslrHeapGapMaxPages = 0 from rfl, Nat.zero_mul, Nat.add_zero,
          Nat.mod_eq_of_lt]
        rw [trapframe_eq] at hbelow
        omega
      rw [hheap, if_neg (not_or.mpr ⟨Nat.lt_irrefl _, hbelow.not_ge⟩)]
      obtain ⟨G2, hn2, hsame2, hleaves, hsame⟩ := hcleared
      have hw2 : Within G2 id L.Page := hw1.of_leaves fun v l hl => .inl (by
        by_cases hvg : v = upVpn sz + g
        · rw [hvg, ← hsame, ← hvg, hl]
          rfl
        · rw [← hleaves _ fun heq => hvg (Prod.mk.inj heq).2, hl]
          rfl)
      have hplain2 : PlainPage G2 id (upVpn sz + g + 1) := by
        obtain ⟨l, hl, hbits⟩ := hplain
        refine ⟨l, userLeaves_iff.mp ?_, hbits⟩
        rw [hleaves _ fun heq => absurd (Prod.mk.inj heq).2 (by omega)]
        exact userLeaves_iff.mpr hl
      have hregions := execRegions_eq L hL4 hr.ne_zero
      rw [hL1, hL2, hL3, show (⟨as.pagetable, []⟩ : AddrSpace) = as by rw [← hregs]] at hregions
      rw [hregions]
      dsimp only
      have hr2 : Rooted G2 id ⟨as.pagetable, L.regions⟩ := (hr.next hn1).next hn2
      have hn3 := hn1.trans hn2
      refine (execPush_spec argv hn2.inv hr2 (hun.keeps hn3.priv) (Nat.le_add_left 1 _) hplain2
        hargs).bind ?_
      rintro ⟨ok, m3⟩ ⟨hinv3, hsame3⟩
      exact ⟨G2, ⟨hinv3, hn3.others, hn3.table, hn3.priv⟩, (hsame1.trans hsame2).trans hsame3, rfl,
        L.regionsOk _, fun _ => ⟨L, rfl, hw2⟩⟩

end

end YHsys.Kernel
