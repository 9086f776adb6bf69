import Mathlib
import YHsys.Kernel.VmSpecs

/-!
# Growing, shrinking, faulting

Specifications of `uvmunmap`, `uvmdealloc`, `uvmalloc`, `allocseg`, `uvmclear` and
`vmfault`, by induction over their page loops. Each keeps the invariant; the
effect on the view is `clearPages`, `fillPages`, or one new page.
-/

namespace YHsys.Kernel

open Except (ok_bind)

open Function (update update_eq_self update_idem update_of_ne update_self)

/-- The view, or the entries, with the pages `v .. v + n` of an address space gone. -/
def clearPages {α : Type} (V : ℕ × ℕ → Option α) (id v n : ℕ) : ℕ × ℕ → Option α := fun x =>
  if x.1 = id ∧ v ≤ x.2 ∧ x.2 < v + n then none else V x

/-- The view with the pages `v .. v + n` of an address space all equal to `page`. -/
def fillPages (V : ℕ × ℕ → Option UserPage) (id v n : ℕ) (page : UserPage) :
    ℕ × ℕ → Option UserPage := fun x =>
  if x.1 = id ∧ v ≤ x.2 ∧ x.2 < v + n then some page else V x

theorem clearPages_zero {α : Type} (V : ℕ × ℕ → Option α) (id v : ℕ) : clearPages V id v 0 = V := by
  funext x
  exact if_neg (by omega)

theorem fillPages_zero (V : ℕ × ℕ → Option UserPage) (id v : ℕ) (page : UserPage) :
    fillPages V id v 0 page = V := by
  funext x
  exact if_neg (by omega)

theorem clearPages_succ {α : Type} (V : ℕ × ℕ → Option α) (id v n : ℕ) :
    clearPages (update V (id, v) none) id (v + 1) n = clearPages V id v (n + 1) := by
  funext ⟨id', v'⟩
  unfold clearPages
  by_cases hx : (id', v') = (id, v)
  · obtain ⟨rfl, rfl⟩ := Prod.mk.inj hx
    rw [if_neg (by omega), update_self, if_pos ⟨rfl, by omega⟩]
  · rw [update_of_ne hx]
    have hne : ¬ (id' = id ∧ v' = v) := fun ⟨h1, h2⟩ => hx (by rw [h1, h2])
    by_cases hin : id' = id ∧ v + 1 ≤ v' ∧ v' < v + 1 + n
    · rw [if_pos hin, if_pos (by omega)]
    · rw [if_neg hin, if_neg (by omega)]

theorem clearPages_update {α : Type} {V : ℕ × ℕ → Option α} {id v0 v : ℕ} {y : Option α}
    (hnone : V (id, v) = none) (hle : v0 ≤ v) :
    clearPages (update V (id, v) y) id v0 (v - v0 + 1) = clearPages V id v0 (v - v0) := by
  funext ⟨id', v'⟩
  unfold clearPages
  by_cases hx : (id', v') = (id, v)
  · obtain ⟨rfl, rfl⟩ := Prod.mk.inj hx
    rw [if_pos ⟨rfl, by omega⟩, if_neg (by omega), hnone]
  · rw [update_of_ne hx]
    have hne : ¬ (id' = id ∧ v' = v) := fun ⟨h1, h2⟩ => hx (by rw [h1, h2])
    by_cases hin : id' = id ∧ v0 ≤ v' ∧ v' < v0 + (v - v0)
    · rw [if_pos hin, if_pos (by omega)]
    · rw [if_neg hin, if_neg (by omega)]

theorem fillPages_succ (V : ℕ × ℕ → Option UserPage) (id v n : ℕ) (page : UserPage) :
    fillPages (update V (id, v) (some page)) id (v + 1) n page =
      fillPages V id v (n + 1) page := by
  funext ⟨id', v'⟩
  unfold fillPages
  by_cases hx : (id', v') = (id, v)
  · obtain ⟨rfl, rfl⟩ := Prod.mk.inj hx
    rw [if_neg (by omega), update_self, if_pos ⟨rfl, by omega⟩]
  · rw [update_of_ne hx]
    have hne : ¬ (id' = id ∧ v' = v) := fun ⟨h1, h2⟩ => hx (by rw [h1, h2])
    by_cases hin : id' = id ∧ v + 1 ≤ v' ∧ v' < v + 1 + n
    · rw [if_pos hin, if_pos (by omega)]
    · rw [if_neg hin, if_neg (by omega)]

/-! ## Page arithmetic -/

theorem mul_pgsize_div (v : ℕ) : v * pgsize / pgsize = v := Nat.mul_div_cancel v (by decide)

theorem pgrounddown_div (va : ℕ) : pgrounddown va / pgsize = va / pgsize := mul_pgsize_div _

theorem mul_pgsize_mod (v : ℕ) : v * pgsize % pgsize = 0 := Nat.mul_mod_left v pgsize

theorem next_page {v : ℕ} (hv : v < userVpns) :
    (v * pgsize + pgsize) % 2 ^ 32 = (v + 1) * pgsize := by
  rw [userVpns_eq] at hv
  rw [pgsize_eq]
  omega

/-- The first page at or after a size: the number of `PGROUNDUP`. -/
def upVpn (sz : ℕ) : ℕ := (sz + pgsize - 1) / pgsize

theorem upVpn_mono {a b : ℕ} (h : a ≤ b) : upVpn a ≤ upVpn b := Nat.div_le_div_right (by omega)

theorem pgroundup_eq {sz : ℕ} (h : sz ≤ trapframe) : pgroundup sz = upVpn sz * pgsize := by
  rw [trapframe_eq] at h
  simp only [pgroundup, upVpn, pgsize_eq]
  omega

theorem upVpn_le {sz : ℕ} (h : sz ≤ trapframe) : upVpn sz ≤ userVpns := by
  rw [trapframe_eq] at h
  rw [userVpns_eq, upVpn, pgsize_eq]
  omega

theorem upVpn_mul (v : ℕ) : upVpn (v * pgsize) = v := by
  rw [upVpn, pgsize_eq]
  omega

section

variable {img : KernelImage} {id v : ℕ} {m : Machine} {G : Tables} {e : ℕ → ℕ} {pt : PageTable}
  {as : AddrSpace}

theorem idx2pa_ne_zero (p : ℕ) : idx2pa p ≠ 0 := by
  rw [idx2pa, kernbase_eq]
  omega

/-- The page table of `as` is the one of `id`. -/
def Rooted (G : Tables) (id : ℕ) (as : AddrSpace) : Prop :=
  ∃ pt, G id = some pt ∧ as.pagetable = idx2pa pt.root

theorem Rooted.next {G' : Tables} {m' : Machine} {e' : ℕ → ℕ} (hr : Rooted G id as)
    (h : Next img id G m' G' e') : Rooted G' id as := by
  obtain ⟨pt, hG, has⟩ := hr
  obtain ⟨pt', hG', hroot, -⟩ := h.table pt hG
  exact ⟨pt', hG', by rw [has, hroot]⟩

theorem Rooted.ne_zero (hr : Rooted G id as) : as.pagetable ≠ 0 := by
  obtain ⟨pt, -, has⟩ := hr
  rw [has]
  exact idx2pa_ne_zero _

/-! ## Unmapping -/

theorem uvmunmapLoop_spec (n : ℕ) (h : VmInv img m G e) (hG : G id = some pt)
    (hn : v + n ≤ userVpns) :
    ∃ m' G', uvmunmapLoop img (idx2pa pt.root) true n (v * pgsize) m = .ok m' ∧
      Next img id G m' G' e ∧ view m'.mem G' = clearPages (view m.mem G) id v n ∧
      userLeaves G' = clearPages (userLeaves G) id v n := by
  induction n generalizing v m G pt with
  | zero =>
    exact ⟨m, G, rfl, Next.refl h id, (clearPages_zero _ _ _).symm, (clearPages_zero _ _ _).symm⟩
  | succ n ih =>
    have hv : v * pgsize / pgsize < userVpns := by
      rw [mul_pgsize_div]
      omega
    obtain ⟨m1, pt1, hk1, hnext1, hroot1, hview1, hleaves1⟩ := uvmunmapPage_spec h hG hv
    rw [mul_pgsize_div] at hview1 hleaves1
    obtain ⟨m2, G2, hk2, hnext2, hview2, hleaves2⟩ := ih (v := v + 1) hnext1.inv
      (update_self id (some pt1) G) (by omega)
    refine ⟨m2, G2, ?_, hnext1.trans hnext2, ?_, ?_⟩
    · rw [uvmunmapLoop, hk1, ok_bind, next_page (by omega), ← hroot1]
      exact hk2
    · rw [hview2, hview1, clearPages_succ]
    · rw [hleaves2, hleaves1, clearPages_succ]

theorem uvmunmap_spec (n : ℕ) (h : VmInv img m G e) (hr : Rooted G id as)
    (hn : v + n ≤ userVpns) :
    ∃ m' G', uvmunmap img as (v * pgsize) n true m = .ok m' ∧ Next img id G m' G' e ∧
      view m'.mem G' = clearPages (view m.mem G) id v n ∧
      userLeaves G' = clearPages (userLeaves G) id v n := by
  rw [uvmunmap, if_neg hr.ne_zero, if_neg (not_not.mpr (mul_pgsize_mod v))]
  obtain ⟨pt, hG, has⟩ := hr
  rw [has]
  exact uvmunmapLoop_spec n h hG hn

theorem uvmdealloc_spec {oldsz : ℕ} (newsz : ℕ) (h : VmInv img m G e) (hr : Rooted G id as)
    (hold : oldsz ≤ trapframe) :
    ∃ m' G', uvmdealloc img as oldsz newsz m = .ok (min oldsz newsz, m') ∧
      Next img id G m' G' e ∧ view m'.mem G' =
        clearPages (view m.mem G) id (upVpn newsz) (upVpn oldsz - upVpn newsz) ∧
      userLeaves G' = clearPages (userLeaves G) id (upVpn newsz) (upVpn oldsz - upVpn newsz) := by
  unfold uvmdealloc
  split_ifs with hle hup
  · refine ⟨m, G, by rw [Nat.min_eq_left hle], Next.refl h id, ?_⟩
    have hmono : upVpn oldsz ≤ upVpn newsz := upVpn_mono hle
    rw [Nat.sub_eq_zero_of_le hmono, clearPages_zero, clearPages_zero]
    exact ⟨rfl, rfl⟩
  · have hnew : newsz ≤ trapframe := by omega
    rw [pgroundup_eq hold, pgroundup_eq hnew] at hup ⊢
    have hlt : upVpn newsz < upVpn oldsz := Nat.lt_of_mul_lt_mul_right hup
    rw [← Nat.sub_mul, mul_pgsize_div]
    have hbound : upVpn newsz + (upVpn oldsz - upVpn newsz) ≤ userVpns := by
      rw [Nat.add_sub_cancel' hlt.le]
      exact upVpn_le hold
    obtain ⟨m', G', hk, hpost⟩ := uvmunmap_spec _ h hr hbound
    refine ⟨m', G', ?_, hpost⟩
    rw [hk, Nat.min_eq_right (by omega)]
    rfl
  · have hnew : newsz ≤ trapframe := by omega
    rw [pgroundup_eq hold, pgroundup_eq hnew] at hup
    have hle' : upVpn oldsz ≤ upVpn newsz := by
      rw [pgsize_eq] at hup
      omega
    refine ⟨m, G, by rw [Nat.min_eq_right (by omega)], Next.refl h id, ?_⟩
    rw [Nat.sub_eq_zero_of_le hle', clearPages_zero, clearPages_zero]
    exact ⟨rfl, rfl⟩

/-! ## Growing -/

/-- A page of zeros with the flags `perm`. -/
def zeroPage (perm : ℕ) : UserPage := ⟨fun _ => 0, perm ||| pteV⟩

/-- The loop of `uvmalloc` maps a fresh page at every address, or gives up and takes back
the pages from `v0` on. -/
theorem uvmallocLoop_spec (n : ℕ) {v0 xperm : ℕ} (h : VmInv img m G e) (hr : Rooted G id as)
    (hv0 : v0 ≤ v) (hn : v + n ≤ userVpns) (hperm : FreshPerm (pteR ||| pteU ||| xperm)) :
    Except.Sat (fun err => err = .mappagesRemap ∧
          ∃ x, v ≤ x ∧ x < v + n ∧ userLeaves G (id, x) ≠ none)
      (fun r => ∃ G', Next img id G r.2 G' e ∧
        (r.1 = true → view r.2.mem G' =
          fillPages (view m.mem G) id v n (zeroPage (pteR ||| pteU ||| xperm)) ∧
          ∀ x, v ≤ x → x < v + n → view m.mem G (id, x) = none) ∧
        (r.1 = false → view r.2.mem G' = clearPages (view m.mem G) id v0 (v - v0) ∧
          userLeaves G' = clearPages (userLeaves G) id v0 (v - v0)))
      (uvmallocLoop img as (v0 * pgsize) xperm n (v * pgsize) m) := by
  have hle : v * pgsize ≤ trapframe := by
    rw [userVpns_eq] at hn
    rw [trapframe_eq, pgsize_eq]
    omega
  induction n generalizing v m G with
  | zero =>
    exact ⟨G, Next.refl h id,
      fun _ => ⟨(fillPages_zero _ _ _ _).symm, fun x h1 h2 => by omega⟩, nofun⟩
  | succ n ih =>
    unfold uvmallocLoop
    rcases h.kalloc with ⟨m1, hk, hinv, hmem⟩ | ⟨p, m1, hk, hinv, hc, he, hlt, hsame⟩
    · rw [hk]
      obtain ⟨m2, G2, hk2, hnext, hback⟩ := uvmdealloc_spec (v0 * pgsize) hinv hr hle
      rw [upVpn_mul, upVpn_mul, hmem] at hback
      simp only [hk2, ok_bind]
      exact ⟨G2, hnext, nofun, fun _ => hback⟩
    · rw [hk]
      have hview : view m1.mem G = view m.mem G :=
        view_of_same hsame fun _ _ _ hl heq => h.leaf_ne hc hl heq
      have hv : v * pgsize / pgsize < userVpns := by
        rw [mul_pgsize_div]
        omega
      have ⟨pt, hG, has⟩ := hr
      have hmap := mapFresh_spec hinv he hc hlt hG (mul_pgsize_mod v) hv hperm
      rw [← has] at hmap
      have hremap : pt.leaf (v * pgsize / pgsize) ≠ none → userLeaves G (id, v) ≠ none := by
        rw [mul_pgsize_div] at hv ⊢
        simp [userLeaves, hG, hv]
      refine (hmap.mono (fun _ herr => ⟨herr.1, v, Nat.le_refl v, by omega, hremap herr.2⟩)
        fun _ hq => hq).bind ?_
      rintro ⟨_ | _, m2⟩ hr2
      · obtain ⟨m3, G3, hk3, hnext3, hview3, hleaves3⟩ := hr2
        obtain ⟨m4, G4, hk4, hnext4, hback⟩ :=
          uvmdealloc_spec (v0 * pgsize) hnext3.inv (hr.next hnext3) hle
        rw [upVpn_mul, upVpn_mul, hview3, hview, hleaves3] at hback
        simp only [hk3, hk4, ok_bind]
        exact ⟨G4, hnext3.trans hnext4, nofun, fun _ => hback⟩
      · obtain ⟨pt', hnext, hview2, hempty, hleaves2⟩ := hr2
        rw [mul_pgsize_div] at hview2 hempty hleaves2
        have hnone : view m.mem G (id, v) = none := by
          rw [← hview]
          simp [view, hG, hempty]
        have hnone' : userLeaves G (id, v) = none := by simp [userLeaves, hG, hempty]
        dsimp only
        rw [next_page (by omega)]
        refine (ih hnext.inv (hr.next hnext) (by omega) (by omega) ?_).mono ?_ ?_
        · rw [userVpns_eq] at hn
          rw [trapframe_eq, pgsize_eq]
          omega
        · rintro err ⟨herr, x, hx1, hx2, hx⟩
          rw [hleaves2, update_of_ne fun heq => absurd (Prod.mk.inj heq).2 (by omega)] at hx
          exact ⟨herr, x, by omega, by omega, hx⟩
        · rintro ⟨b, m3⟩ ⟨G3, hnext3, hdone, hback⟩
          refine ⟨G3, hnext.trans hnext3, fun hb => ?_, fun hb => ?_⟩
          · obtain ⟨hview3, hnone3⟩ := hdone hb
            constructor
            · rw [hview3, hview2, hview]
              exact fillPages_succ _ _ _ _ _
            · intro x hx1 hx2
              by_cases hxv : x = v
              · rw [hxv, hnone]
              · have := hnone3 x (by omega) (by omega)
                rw [hview2, hview, update_of_ne (fun heq => hxv (Prod.mk.inj heq).2)] at this
                exact this
          · obtain ⟨hview3, hleaves3⟩ := hback hb
            rw [hview3, hview2, hview, hleaves3, hleaves2,
              show v + 1 - v0 = v - v0 + 1 by omega]
            exact ⟨clearPages_update hnone (by omega), clearPages_update hnone' (by omega)⟩

theorem uvmalloc_count {oldsz newsz : ℕ} (hold : oldsz ≤ trapframe) (hle : oldsz ≤ newsz) :
    (newsz - pgroundup oldsz + pgsize - 1) / pgsize = upVpn newsz - upVpn oldsz := by
  rw [pgroundup_eq hold]
  simp only [upVpn, pgsize_eq]
  omega

theorem uvmalloc_spec {oldsz newsz xperm : ℕ} (h : VmInv img m G e) (hr : Rooted G id as)
    (hnew : newsz ≤ trapframe) (hperm : FreshPerm (pteR ||| pteU ||| xperm)) :
    Except.Sat (fun err => err = .mappagesRemap ∧
          ∃ x, upVpn oldsz ≤ x ∧ x < upVpn newsz ∧ userLeaves G (id, x) ≠ none)
      (fun r => ∃ G', Next img id G r.2 G' e ∧
        (r.1 ≠ 0 → oldsz ≤ newsz → r.1 = newsz ∧
          view r.2.mem G' = fillPages (view m.mem G) id (upVpn oldsz) (upVpn newsz - upVpn oldsz)
            (zeroPage (pteR ||| pteU ||| xperm)) ∧
          ∀ x, upVpn oldsz ≤ x → x < upVpn newsz → view m.mem G (id, x) = none) ∧
        (r.1 = 0 → 0 < newsz → view r.2.mem G' = view m.mem G ∧ userLeaves G' = userLeaves G))
      (uvmalloc img as oldsz newsz xperm m) := by
  unfold uvmalloc
  rw [if_neg hr.ne_zero]
  split_ifs with hlt
  · exact ⟨G, Next.refl h id, fun _ hle => absurd hlt (Nat.not_lt.mpr hle), fun _ _ => ⟨rfl, rfl⟩⟩
  · have hold : oldsz ≤ trapframe := by omega
    have hmono : upVpn oldsz ≤ upVpn newsz := upVpn_mono (Nat.not_lt.mp hlt)
    dsimp only
    rw [uvmalloc_count hold (Nat.not_lt.mp hlt), pgroundup_eq hold]
    have hbound : upVpn oldsz + (upVpn newsz - upVpn oldsz) ≤ userVpns := by
      rw [Nat.add_sub_cancel' hmono]
      exact upVpn_le hnew
    refine ((uvmallocLoop_spec _ h hr (Nat.le_refl _) hbound hperm).mono ?_ fun _ hq => hq).bind ?_
    · rintro err ⟨herr, x, hx1, hx2, hx⟩
      exact ⟨herr, x, hx1, by omega, hx⟩
    rintro ⟨_ | _, m'⟩ ⟨G', hnext, hview, hback⟩
    · have hback := hback rfl
      rw [Nat.sub_self, clearPages_zero, clearPages_zero] at hback
      exact ⟨G', hnext, fun h0 => absurd rfl h0, fun _ _ => hback⟩
    · refine ⟨G', hnext, fun _ _ => ⟨rfl, (hview rfl).1, fun x h1 h2 => (hview rfl).2 x h1 ?_⟩,
        fun hz hpos => absurd hz hpos.ne'⟩
      omega

/-! ## Address spaces under construction -/

/-- Every page of the address space is its own. -/
def Unshared (G : Tables) (id : ℕ) : Prop :=
  ∀ v l, UserLeaf G id v l →
    Holders.count (owned G) (pa2idx l.pa) ≤ 1 ∧ l.flags.testBit 8 = false

theorem Unshared.keeps {G' : Tables} (h : Unshared G id) (hk : KeepsPrivate e G G') :
    Unshared G' id := by
  intro v l' hl'
  rcases hk id v l' hl' with ⟨l, hl, hpg, hle, hcow⟩ | hone
  · obtain ⟨hone, hncow⟩ := h v l hl
    rw [hpg] at hone
    refine ⟨hle.trans hone, Bool.eq_false_iff.mpr fun hc => ?_⟩
    rw [hcow hc] at hncow
    cases hncow
  · exact ⟨hone.1, hone.2.1⟩

/-- No user page is in hand. -/
def Apart (G : Tables) (e : ℕ → ℕ) : Prop := ∀ id v l, UserLeaf G id v l → e (pa2idx l.pa) = 0

theorem Apart.keeps {G' : Tables} (h : Apart G e) (hk : KeepsPrivate e G G') : Apart G' e := by
  intro id v l' hl'
  rcases hk id v l' hl' with ⟨l, hl, hpg, -, -⟩ | ⟨-, -, hhand⟩
  · rw [← hpg]
    exact h id v l hl
  · exact hhand

theorem reflag_next {t : ℕ} {l l' : Leaf} (h : VmInv img m G e) (hG : G id = some pt)
    (ht : pt.dir (v / 1024) = some t) (hv : v < userVpns) (hl : pt.leaf v = some l)
    (hpa : l'.pa = l.pa)
    (hread : l'.flags.testBit 1 = true)
    (hsole : l'.flags.testBit 2 = true →
      l'.flags.testBit 8 = false ∧ Holders.count (owned G) (pa2idx l.pa) = 1)
    (hcow : l'.flags.testBit 8 = true → l.flags.testBit 8 = true) :
    Next img id G (m.wr32 (idx2pa t + 4 * (v % 1024)) l'.pte)
      (update G id (some (pt.setLeaf v (some l') ⟨t, ht⟩))) e := by
  have hul : UserLeaf G id v l := ⟨hv, pt, hG, hl⟩
  have howned : owned (update G id (some (pt.setLeaf v (some l') ⟨t, ht⟩))) = owned G := by
    rw [owned_setLeaf hG, if_pos hv, Option.map_some, hpa, ← hul.owned_eq, update_eq_self]
  refine Next.of_update (h.reflag l' hG ht hv hl hpa hread hsole) hG rfl (fun v' hv' => ?_)
    (fun _ hi => hi) fun id' v' l1 hl1 => ?_
  · exact update_of_ne (fun heq : v' = v => hv' (heq ▸ hv)) _ _
  · rw [howned]
    rcases userLeaf_setLeaf hG hl1 with ⟨rfl, rfl, hx⟩ | ⟨-, hold⟩
    · obtain rfl := Option.some.inj hx
      exact .inl ⟨l, hul, by rw [hpa], Nat.le_refl _, hcow⟩
    · exact .inl ⟨l1, hold, rfl, Nat.le_refl _, fun hc => hc⟩

theorem user_of_perm (perm : ℕ) : (pteR ||| pteU ||| perm).testBit 4 = true := by
  rw [Nat.testBit_or, show (pteR ||| pteU).testBit 4 = true by decide, Bool.true_or]

/-- The page `v` is there, and the user's. -/
def UserPageAt (G : Tables) (id v : ℕ) : Prop :=
  ∃ l, userLeaves G (id, v) = some l ∧ l.flags.testBit 4 = true

/-- One round of `allocseg` on an address space under construction. -/
theorem allocsegPage_spec {perm : ℕ} (h : VmInv img m G e) (hr : Rooted G id as)
    (hun : Unshared G id) (hv : v < userVpns) (hperm : FreshPerm (pteR ||| pteU ||| perm)) :
    Except.Sat (fun _ => False) (fun r => ∃ G', Next img id G r.2 G' e ∧
        SameMemory id m G r.2 G' ∧ (r.1 = true → UserPageAt G' id v) ∧
        ∀ x, x ≠ (id, v) → userLeaves G' x = userLeaves G x)
      (allocsegPage img as.pagetable perm (v * pgsize) m) := by
  have hva : v * pgsize < maxva := by
    rw [userVpns_eq] at hv
    rw [maxva_eq, pgsize_eq]
    omega
  obtain ⟨pt, hG, has⟩ := hr
  obtain ⟨pte, hwalk, hpte⟩ := walk_filter h hG hva
  rw [mul_pgsize_div] at hpte
  rw [allocsegPage, has, hwalk, ok_bind]
  rcases hpte with ⟨hnone, hpte⟩ | ⟨t, l, ht, hl, hpte, hword⟩
  · simp only [hpte]
    rcases h.kalloc with ⟨m1, hk, hinv, hmem⟩ | ⟨p, m1, hk, hinv, hc, he, hlt, hsame⟩
    · rw [hk]
      exact ⟨G, Next.refl hinv id, ⟨fun _ _ _ => rfl, fun _ _ => by rw [hmem]⟩, nofun,
        fun _ _ => rfl⟩
    · rw [hk]
      have hview : view m1.mem G = view m.mem G :=
        view_of_same hsame fun _ _ _ hl heq => h.leaf_ne hc hl heq
      have hmap := mapFresh_spec hinv he hc hlt hG (mul_pgsize_mod v)
        (by rw [mul_pgsize_div]; exact hv) hperm
      refine (hmap.mono (fun _ he => he.2 (by rw [mul_pgsize_div, hnone])) fun _ hq => hq).bind ?_
      rintro ⟨_ | _, m2⟩ hr2
      · obtain ⟨m3, G3, hk3, hnext3, hview3, hleaves3⟩ := hr2
        simp only [hk3, ok_bind]
        exact ⟨G3, hnext3, hnext3.sameMemory fun x _ => by rw [hview3, hview], nofun,
          fun x _ => by rw [hleaves3]⟩
      · obtain ⟨pt', hnext, hview2, -, hleaves⟩ := hr2
        rw [mul_pgsize_div, hview] at hview2
        rw [mul_pgsize_div] at hleaves
        refine ⟨_, hnext, .of_view_update hnext.others hview2, fun _ => ⟨freshLeaf p _ hlt hperm, ?_, ?_⟩,
          fun x hx => by rw [hleaves, update_of_ne hx]⟩
        · rw [hleaves, update_self]
        · show (pteR ||| pteU ||| perm ||| pteV).testBit 4 = true
          rw [Nat.testBit_or, user_of_perm, Bool.true_or]
  · simp only [hpte, hword]
    have hul : UserLeaf G id v l := ⟨hv, pt, hG, hl⟩
    obtain ⟨hone, hncow⟩ := hun v l hul
    have hpos := Holders.count_pos h.bounded hul.owned_eq
    have hcow : (l.flags ||| (pteR ||| pteU ||| perm)).testBit 8 = false := by
      rw [Nat.testBit_or, hncow, hperm.cow]
      rfl
    have hread : (l.flags ||| (pteR ||| pteU ||| perm)).testBit 1 = true := by
      rw [Nat.testBit_or, hperm.readable, Bool.or_true]
    rw [← l.orFlags_pte _ hperm.lt]
    have hpa : (l.orFlags _ hperm.lt).pa = l.pa := rfl
    have hnext := reflag_next h hG ht hv hl hpa hread
      (fun _ => ⟨hcow, by omega⟩) fun hc => absurd (hcow.symm.trans hc) (by decide)
    refine ⟨_, hnext, .of_view_update hnext.others (view_writeLeaf hG ht hv hnext.inv),
      fun _ => ⟨l.orFlags _ hperm.lt, ?_, ?_⟩,
      fun x hx => by rw [userLeaves_update hG rfl hv, update_of_ne hx]⟩
    · rw [userLeaves_update hG rfl hv, update_self]
    · show (l.flags ||| (pteR ||| pteU ||| perm)).testBit 4 = true
      rw [Nat.testBit_or, user_of_perm, Bool.or_true]

theorem allocsegLoop_spec (n : ℕ) {perm : ℕ} (h : VmInv img m G e) (hr : Rooted G id as)
    (hun : Unshared G id) (hn : v + n ≤ userVpns) (hperm : FreshPerm (pteR ||| pteU ||| perm)) :
    Except.Sat (fun _ => False) (fun r => ∃ G', Next img id G r.2 G' e ∧
        SameMemory id m G r.2 G' ∧ (r.1 = true → ∀ x, v ≤ x → x < v + n → UserPageAt G' id x) ∧
        ∀ x : ℕ × ℕ, x.1 ≠ id ∨ x.2 < v ∨ v + n ≤ x.2 → userLeaves G' x = userLeaves G x)
      (allocsegLoop img as.pagetable perm n (v * pgsize) m) := by
  induction n generalizing v m G with
  | zero => exact ⟨G, Next.refl h id, .refl id m G, fun _ x h1 h2 => by omega, fun _ _ => rfl⟩
  | succ n ih =>
    have hv : v < userVpns := by omega
    refine (allocsegPage_spec h hr hun hv hperm).bind ?_
    have hout : ∀ x : ℕ × ℕ, x.1 ≠ id ∨ x.2 < v ∨ v + (n + 1) ≤ x.2 → x ≠ (id, v) := by
      rintro x hx rfl
      rcases hx with hx | hx | hx
      · exact hx rfl
      · exact Nat.lt_irrefl v hx
      · exact absurd hx (by omega)
    rintro ⟨_ | _, m1⟩ ⟨G1, hnext, hsame, hpage, hleaves⟩
    · exact ⟨G1, hnext, hsame, nofun, fun x hx => hleaves x (hout x hx)⟩
    · dsimp only
      rw [next_page hv]
      refine (ih hnext.inv (hr.next hnext) (hun.keeps hnext.priv) (by omega)).post ?_
      rintro r ⟨G2, hnext2, hsame2, hpages2, hleaves2⟩
      refine ⟨G2, hnext.trans hnext2, hsame.trans hsame2, fun hok x h1 h2 => ?_, fun x hx => ?_⟩
      · rcases h1.eq_or_lt with rfl | hlt
        · rw [UserPageAt, hleaves2 (id, v) (.inr (.inl (Nat.lt_succ_self v)))]
          exact hpage rfl
        · exact hpages2 hok x hlt (by omega)
      · rw [hleaves2 x (by omega), hleaves x (hout x hx)]

theorem allocseg_spec {sz perm : ℕ} (h : VmInv img m G e) (hr : Rooted G id as)
    (hun : Unshared G id) (hend : v * pgsize + sz < trapframe)
    (hperm : FreshPerm (pteR ||| pteU ||| perm)) :
    Except.Sat (fun _ => False) (fun r => ∃ G', Next img id G r.2 G' e ∧
        SameMemory id m G r.2 G' ∧
        (r.1 = true → ∀ x, v ≤ x → x < upVpn (v * pgsize + sz) → UserPageAt G' id x) ∧
        ∀ x : ℕ × ℕ, x.1 ≠ id ∨ upVpn (v * pgsize + sz) ≤ x.2 → userLeaves G' x = userLeaves G x)
      (allocseg img as.pagetable (v * pgsize) sz perm m) := by
  unfold allocseg
  split_ifs with hz
  · refine ⟨G, Next.refl h id, .refl id m G, fun _ x h1 h2 => ?_, fun _ _ => rfl⟩
    rw [hz, Nat.add_zero, upVpn_mul] at h2
    omega
  · have hcount : v + ((pgrounddown ((v * pgsize + sz - 1) % 2 ^ 32) + 2 ^ 32 - v * pgsize) % 2 ^ 32 /
        pgsize + 1) = upVpn (v * pgsize + sz) := by
      simp only [pgrounddown, upVpn, trapframe_eq, pgsize_eq] at *
      omega
    refine (allocsegLoop_spec _ h hr hun (hcount.trans_le (upVpn_le hend.le)) hperm).post ?_
    rintro r ⟨G', hnext, hsame, hpages, hleaves⟩
    exact ⟨G', hnext, hsame, fun hok x h1 h2 => hpages hok x h1 (h2.trans_eq hcount.symm),
      fun x hx => hleaves x (hx.imp_right fun hx => .inr (hcount.trans_le hx))⟩

/-- `uvmclear` of a user page. -/
theorem uvmclear_spec {va : ℕ} (h : VmInv img m G e) (hr : Rooted G id as)
    (hv : va / pgsize < userVpns) :
    Except.Sat (fun err => err = .uvmclear ∧ userLeaves G (id, va / pgsize) = none)
      (fun m' => ∃ G', Next img id G m' G' e ∧ SameMemory id m G m' G' ∧
        (∀ x, x ≠ (id, va / pgsize) → userLeaves G' x = userLeaves G x) ∧
        (userLeaves G' (id, va / pgsize)).isSome = (userLeaves G (id, va / pgsize)).isSome)
      (uvmclear as.pagetable va m) := by
  have hva : va < maxva := by
    rw [userVpns_eq, pgsize_eq] at hv
    rw [maxva_eq]
    omega
  obtain ⟨pt, hG, has⟩ := hr
  rw [uvmclear, has]
  rcases walk_false_cases h hG hva with ⟨hnone, hwalk⟩ | ⟨t, ht, hwalk, hword⟩
  · rw [hwalk]
    exact Except.Sat.error ⟨rfl, by simp [userLeaves, hG, hnone]⟩
  · rw [hwalk, ok_bind]
    dsimp only
    rw [hword]
    cases hl : pt.leaf (va / pgsize) with
    | none =>
      -- clearing a bit of an empty entry writes back what is there
      rw [hl] at hword
      have hself : m.wr32 (idx2pa t + 4 * (va / pgsize % 1024)) (leafEntry none &&& not32 pteU) = m := by
        show { m with mem := wr32 m.mem _ (leafEntry none) } = m
        rw [← hword, wr32_rd32]
      rw [hself]
      exact ⟨G, Next.refl h id, .refl id m G, fun _ _ => rfl, rfl⟩
    | some l =>
      have hul : UserLeaf G id (va / pgsize) l := ⟨hv, pt, hG, hl⟩
      have hok := h.leaves id _ l hul
      have hbit : ∀ i < 10, i ≠ 4 → (l.flags &&& not32 pteU).testBit i = l.flags.testBit i :=
        fun i hi hne => by
          have hU : pteU.testBit i = false := by
            rw [pteU, Nat.one_shiftLeft, Nat.testBit_two_pow, decide_eq_false (Ne.symm hne)]
          rw [Nat.testBit_and, testBit_not32 (by decide), hU]
          simp only [Bool.not_false, Bool.and_true]
          rw [decide_eq_true (by omega), Bool.and_true]
      rw [show leafEntry (some l) &&& not32 pteU = (l.clearFlags pteU (by decide) (by decide)).pte
        from (l.clearFlags_pte pteU (by decide) (by decide)).symm]
      have hleaves := userLeaves_update (x := some (l.clearFlags pteU (by decide) (by decide))) hG
        (show (pt.setLeaf (va / pgsize) (some _) ⟨t, ht⟩).leaf = _ from rfl) hv
      have hnext : Next img id G (m.wr32 (idx2pa t + 4 * (va / pgsize % 1024))
          (l.clearFlags pteU (by decide) (by decide)).pte) (update G id (some (pt.setLeaf
            (va / pgsize) (some (l.clearFlags pteU (by decide) (by decide))) ⟨t, ht⟩))) e := by
        refine reflag_next h hG ht hv hl rfl ?_ (fun hw => ?_) (fun hc => ?_)
        · exact (hbit 1 (by decide) (by decide)).trans hok.readable
        · have hw : (l.flags &&& not32 pteU).testBit 2 = true := hw
          show (l.flags &&& not32 pteU).testBit 8 = false ∧ _
          rw [hbit 8 (by decide) (by decide)]
          exact hok.sole (hbit 2 (by decide) (by decide) ▸ hw)
        · have hc : (l.flags &&& not32 pteU).testBit 8 = true := hc
          exact hbit 8 (by decide) (by decide) ▸ hc
      refine ⟨_, hnext, .of_view_update hnext.others (view_writeLeaf hG ht hv hnext.inv),
        fun x hx => by rw [hleaves, update_of_ne hx], ?_⟩
      · rw [hleaves, update_self, userLeaves_iff.mpr hul]
        rfl

/-! ## Page faults -/

theorem pteW_lt : pteW < 2 ^ 10 := by decide

theorem pteCOW_lt : pteCOW < 2 ^ 10 := by decide

theorem pteCOW_testBit : pteCOW.testBit 0 = false := by decide

/-- The entry of the private copy that a write fault makes in the page `p`. -/
def cowLeaf (l : Leaf) (p : ℕ) (hp : p < npages) : Leaf :=
  ((l.orFlags pteW pteW_lt).clearFlags pteCOW pteCOW_lt pteCOW_testBit).withPa (idx2pa p)
    (tableLeaf_aligned p) (tableLeaf_pa_lt hp)

theorem cowLeaf_flags {l : Leaf} {p : ℕ} {hp : p < npages} (hcow : l.flags.testBit 8 = true) :
    (cowLeaf l p hp).flags = eagerFlags l.flags := by
  rw [eagerFlags, if_pos hcow]
  rfl

theorem cowLeaf_bit (l : Leaf) {p : ℕ} {hp : p < npages} :
    (cowLeaf l p hp).flags.testBit 2 = true ∧ (cowLeaf l p hp).flags.testBit 8 = false := by
  show ((l.flags ||| pteW) &&& not32 pteCOW).testBit 2 = true ∧
    ((l.flags ||| pteW) &&& not32 pteCOW).testBit 8 = false
  simp only [Nat.testBit_and, Nat.testBit_or, testBit_not32 (show pteCOW < 2 ^ 32 by decide)]
  rw [show pteW.testBit 2 = true by decide, show pteCOW.testBit 2 = false by decide,
    show pteCOW.testBit 8 = true by decide]
  simp

theorem cowLeaf_readable {l : Leaf} {p : ℕ} {hp : p < npages} (h : l.flags.testBit 1 = true) :
    (cowLeaf l p hp).flags.testBit 1 = true := by
  show ((l.flags ||| pteW) &&& not32 pteCOW).testBit 1 = true
  rw [Nat.testBit_and, Nat.testBit_or, testBit_not32 (by decide), h]
  decide

theorem eagerFlags_of_not_cow {fl : ℕ} (h : fl.testBit 8 = false) : eagerFlags fl = fl := by
  rw [eagerFlags, h]
  rfl

theorem pageBytes_memmove (mem : Mem) (p q : ℕ) :
    pageBytes (memmove mem (idx2pa p) (idx2pa q) pgsize) p = pageBytes mem q := by
  funext off
  unfold pageBytes
  split_ifs with hoff
  · rw [memmove, if_pos ⟨Nat.le_add_right _ _, Nat.add_lt_add_left hoff _⟩, Nat.add_sub_cancel_left]
  · rfl

/-- The private copy: the process sees the same page, now writable and its own. -/
theorem copyLeaf_spec {t p : ℕ} {l : Leaf} {m1 : Machine} (h : VmInv img m G e)
    (hG : G id = some pt) (ht : pt.dir (v / 1024) = some t) (hv : v < userVpns)
    (hl : pt.leaf v = some l) (hcow : l.flags.testBit 8 = true)
    (hinv : VmInv img m1 G (update e p 1)) (hc : Holders.count (owned G) p = 0)
    (he : e p = 0) (hlt : p < npages) (hsame : SameOutside {p} m.mem m1.mem) :
    ∃ m2 G', ((m1.memmove (idx2pa p) l.pa).wr32 (idx2pa t + 4 * (v % 1024))
          (pa2pte (idx2pa p) ||| ((l.flags ||| pteW) &&& not32 pteCOW))).kfree img l.pa = .ok m2 ∧
      Next img id G m2 G' e ∧ view m2.mem G' = view m.mem G ∧
      UserLeaf G' id v (cowLeaf l p hlt) := by
  have hul : UserLeaf G id v l := ⟨hv, pt, hG, hl⟩
  have hhand : 1 ≤ update e p 1 p := by rw [update_self]
  have hne : pa2idx l.pa ≠ p := h.leaf_ne hc hul
  have hmove := SameOutside.memmove m1.mem p l.pa
  have hinv2 : VmInv img (m1.memmove (idx2pa p) l.pa) G (update e p 1) :=
    hinv.withMem hmove fun q hq heq => hinv.not_table_of_hand hhand (heq ▸ hq)
  have hinv3 := hinv2.replaceLeaf (p := p) (cowLeaf l p hlt) hG ht hv hl rfl hhand hc
    (cowLeaf_readable (h.leaves id v l hul).readable) (cowLeaf_bit l).2
  rw [update_of_ne hne, hand_back he] at hinv3
  obtain ⟨m2, hk, hinv4, hsame4⟩ := hinv3.kfree (p := pa2idx l.pa) (by rw [update_self]; omega)
  rw [h.leaf_pa hul] at hk
  rw [update_self, update_idem, Nat.add_sub_cancel, update_eq_self]
    at hinv4
  have hnew : UserLeaf (update G id (some (pt.setLeaf v (some (cowLeaf l p hlt)) ⟨t, ht⟩)))
      id v (cowLeaf l p hlt) := ⟨hv, _, update_self .., update_self ..⟩
  have hfill : ∀ q, Holders.count (owned
      (update G id (some (pt.setLeaf v (some (cowLeaf l p hlt)) ⟨t, ht⟩)))) q ≤
        Holders.count (owned G) q + if q = p then 1 else 0 := fun q => by
    have hb := h.bounded.update (id, Slot.leaf v) none
    have hf := Holders.count_fill hb (update_self ..) p q
    have hd := Holders.count_drop h.bounded hul.owned_eq q
    rw [update_idem] at hf
    rw [owned_setLeaf hG, if_pos hv, Option.map_some,
      show pa2idx (cowLeaf l p hlt).pa = p from pa2idx_idx2pa p, hf]
    omega
  refine ⟨m2, _, hk, Next.of_update hinv4 hG rfl (fun v' hv' => ?_) (fun _ hi => hi)
    fun id' v' l' hl' => ?_, ?_, hnew⟩
  · exact update_of_ne (fun heq : v' = v => hv' (heq ▸ hv)) _ _
  · have hle := hfill (pa2idx l'.pa)
    rcases userLeaf_setLeaf hG hl' with ⟨rfl, rfl, hx⟩ | ⟨-, hold⟩
    · obtain rfl := Option.some.inj hx
      rw [show pa2idx (cowLeaf l p hlt).pa = p from pa2idx_idx2pa p] at hle ⊢
      rw [hc, if_pos rfl] at hle
      exact .inr ⟨hle, (cowLeaf_bit l).2, he⟩
    · rw [if_neg (h.leaf_ne hc hold)] at hle
      exact .inl ⟨l', hold, rfl, hle, fun hcw => hcw⟩
  · -- the copy has the bytes and, copy-on-write hidden, the flags of the original
    have hpage : (cowLeaf l p hlt).userPage (m1.memmove (idx2pa p) l.pa).mem = l.userPage m.mem := by
      have hbytes : pageBytes (memmove m1.mem (idx2pa p) l.pa pgsize) p =
          pageBytes m.mem (pa2idx l.pa) := by
        conv_lhs => rw [← h.leaf_pa hul]
        rw [pageBytes_memmove]
        exact (hsame _ hne).symm
      have hfl : eagerFlags (cowLeaf l p hlt).flags = eagerFlags l.flags := by
        rw [eagerFlags_of_not_cow (cowLeaf_bit l).2, cowLeaf_flags hcow]
      unfold Leaf.userPage
      rw [hfl, show pa2idx (cowLeaf l p hlt).pa = p from pa2idx_idx2pa p]
      exact congrArg (UserPage.mk · _) hbytes
    have hview1 : view (m1.memmove (idx2pa p) l.pa).mem G = view m.mem G :=
      view_of_same (hsame.trans hmove) fun _ _ _ hl' heq => h.leaf_ne hc hl' heq
    have hold : view m.mem G (id, v) = some (l.userPage m.mem) := by
      simp [view, hG, hl, hv]
    have hview2 : update (view (m1.memmove (idx2pa p) l.pa).mem G) (id, v)
        (some ((cowLeaf l p hlt).userPage (m1.memmove (idx2pa p) l.pa).mem)) = view m.mem G := by
      rw [hpage, hview1, ← hold, update_eq_self]
    rw [view_of_same hsame4 fun id' v' l' hl' heq => hinv3.leaf_ne heq.2 hl' heq.1]
    exact (view_writeLeaf hG ht hv hinv3).trans hview2

/-- A region as the kernel makes them: of text, stack or heap, below `TRAPFRAME`. -/
structure RegionOk (r : MemRegion) : Prop where
  start_le : r.vaStart ≤ r.vaEnd
  end_le : r.vaEnd ≤ trapframe
  aligned : r.vaStart % pgsize = 0
  freed : asRegionDoFree r.type = true
  perm : FreshPerm (pteU ||| r.perm)

/-- All regions of an address space are such. -/
def RegionsOk (as : AddrSpace) : Prop := ∀ r ∈ as.regions, RegionOk r

/-- The end of the heap, `0` without one. -/
def heapEnd (as : AddrSpace) : ℕ :=
  match as.regions.find? fun r => r.type = .heap with
  | none => 0
  | some r => r.vaEnd

theorem heapEnd_eq (hok : RegionsOk as) :
    (asRegionStart as .heap + asRegionSize as .heap) % 2 ^ 32 = heapEnd as := by
  unfold asRegionStart asRegionSize heapEnd
  cases hf : as.regions.find? fun r => r.type = .heap with
  | none => rfl
  | some r =>
    have h := hok r (List.mem_of_find?_eq_some hf)
    have h1 := h.start_le
    have h2 := h.end_le
    rw [trapframe_eq] at h2
    dsimp only
    omega

theorem heapEnd_le (hok : RegionsOk as) : heapEnd as ≤ trapframe := by
  unfold heapEnd
  cases hf : as.regions.find? fun r => r.type = .heap with
  | none => exact Nat.zero_le _
  | some r => exact (hok r (List.mem_of_find?_eq_some hf)).end_le

/-- What a resolved fault at `va` did: it made the private copy of a shared page,
or mapped a page of zeros in the heap. -/
structure Resolved (as : AddrSpace) (id va : ℕ) (read : Bool) (m : Machine) (G : Tables)
    (pa : ℕ) (m' : Machine) (G' : Tables) : Prop where
  below : va < heapEnd as
  leaf : ∃ l', UserLeaf G' id (va / pgsize) l' ∧ pa = l'.pa ∧ l'.flags.testBit 8 = false
  view : (read = false ∧ view m'.mem G' = view m.mem G ∧
      ∃ l, UserLeaf G id (va / pgsize) l ∧ l.flags.testBit 8 = true) ∨
    (view m.mem G (id, va / pgsize) = none ∧
      ∃ r, asFindRegion as (pgrounddown va) = some r ∧ r.type = .heap ∧
        view m'.mem G' = update (view m.mem G) (id, va / pgsize)
          (some (zeroPage (pteU ||| r.perm))))

/-- The postcondition of `vmfault`. -/
def FaultPost (img : KernelImage) (as : AddrSpace) (id va : ℕ) (read : Bool) (m : Machine)
    (G : Tables) (e : ℕ → ℕ) (r : ℕ × Machine) : Prop :=
  ∃ G', Next img id G r.2 G' e ∧ (r.1 = 0 → view r.2.mem G' = view m.mem G) ∧
    (r.1 ≠ 0 → Resolved as id va read m G r.1 r.2 G')

theorem FaultPost.refused {va : ℕ} {read : Bool} {m1 : Machine} (h : VmInv img m1 G e)
    (hmem : m1.mem = m.mem) : FaultPost img as id va read m G e (0, m1) :=
  ⟨G, Next.refl h id, fun _ => by rw [hmem], fun h0 => absurd rfl h0⟩

open FaultPost (refused)

theorem vmfaultHeap_spec {va : ℕ} {read : Bool} (h : VmInv img m G e) (hr : Rooted G id as)
    (hok : RegionsOk as) (hlt : va < heapEnd as) (hv : va / pgsize < userVpns)
    (hva : pgrounddown va < maxva) (hnone : ∀ pt, G id = some pt → pt.leaf (va / pgsize) = none) :
    Except.Sat (fun _ => False) (FaultPost img as id va read m G e)
      (vmfaultHeap img as as.pagetable (pgrounddown va) m) := by
  obtain ⟨pt, hG, has⟩ := hr
  have hnone := hnone pt hG
  have hdiv := pgrounddown_div va
  have hmapped : ismapped as.pagetable (pgrounddown va) m = .ok (false, m) := by
    unfold ismapped
    rw [has]
    rcases walk_false_cases h hG hva with ⟨-, hw⟩ | ⟨t, -, hw, hword⟩
    · rw [hw]
      rfl
    · rw [hw, ok_bind]
      dsimp only
      rw [hword, hdiv, hnone]
      rfl
  rw [vmfaultHeap, hmapped, ok_bind]
  dsimp only
  rw [if_neg (by decide)]
  cases hfind : asFindRegion as (pgrounddown va) with
  | none => exact refused h rfl
  | some r =>
    dsimp only
    split_ifs with htype
    · exact refused h rfl
    · have hregion := hok r (List.mem_of_find?_eq_some hfind)
      rcases h.kalloc with ⟨m1, hk, hinv, hmem⟩ | ⟨p, m1, hk, hinv, hc, he, hlt', hsame⟩
      · rw [hk]
        exact refused hinv hmem
      · rw [hk]
        have hview : view m1.mem G = view m.mem G :=
          view_of_same hsame fun _ _ _ hl heq => h.leaf_ne hc hl heq
        have hmap := mapFresh_spec hinv he hc hlt' hG (mul_pgsize_mod _)
          (show pgrounddown va / pgsize < userVpns from hdiv ▸ hv) hregion.perm
        rw [← has] at hmap
        refine (hmap.mono (fun _ he => he.2 (hdiv.symm ▸ hnone)) fun _ hq => hq).bind ?_
        rintro ⟨_ | _, m2⟩ hr2
        · obtain ⟨m3, G3, hk3, hnext3, hview3, -⟩ := hr2
          simp only [hk3, ok_bind]
          exact ⟨G3, hnext3, fun _ => hview3.trans hview, fun h0 => absurd rfl h0⟩
        · obtain ⟨pt', hnext, hview2, -, hleaves⟩ := hr2
          rw [mul_pgsize_div] at hview2 hleaves
          have hleaf := userLeaves_iff.mp ((congrFun hleaves _).trans (update_self ..))
          refine ⟨_, hnext, fun h0 => absurd h0 (idx2pa_ne_zero p), fun _ =>
            ⟨hlt, ⟨_, hleaf, rfl, hregion.perm.flags_cow⟩,
              .inr ⟨?_, r, hfind, not_not.mp htype, ?_⟩⟩⟩
          · simp [view, hG, hnone]
          · rw [hview2, hview]
            rfl

theorem vmfaultCow_spec {va t : ℕ} {read : Bool} {l : Leaf} (h : VmInv img m G e)
    (hG : G id = some pt) (hlt : va < heapEnd as) (hv : va / pgsize < userVpns)
    (ht : pt.dir (va / pgsize / 1024) = some t) (hl : pt.leaf (va / pgsize) = some l)
    (hword : rd32 m.mem (idx2pa t + 4 * (va / pgsize % 1024)) = l.pte) :
    Except.Sat (fun _ => False) (FaultPost img as id va read m G e)
      (vmfaultCow img (idx2pa t + 4 * (va / pgsize % 1024)) read m) := by
  unfold vmfaultCow
  simp only [hword]
  split_ifs with hcow
  · exact refused h rfl
  · rw [not_or, pteCOW, ← Ne, and_shift_ne_zero, l.testBit_pte (by decide)] at hcow
    rw [l.pte2pa_pte, l.pteFlags_pte]
    rcases h.kalloc with ⟨m1, hk, hinv, hmem⟩ | ⟨p, m1, hk, hinv, hc, he, hlt', hsame⟩
    · rw [hk]
      exact refused hinv hmem
    · rw [hk]
      obtain ⟨m2, G2, hk2, hnext, hview, hleaf⟩ :=
        copyLeaf_spec h hG ht hv hl hcow.1 hinv hc he hlt' hsame
      simp only [hk2, ok_bind]
      exact ⟨G2, hnext, fun _ => hview, fun _ => ⟨hlt, ⟨_, hleaf, rfl, (cowLeaf_bit l).2⟩,
        .inl ⟨Bool.eq_false_iff.mpr hcow.2, hview, l, ⟨hv, pt, hG, hl⟩, hcow.1⟩⟩⟩

theorem vmfault_spec {va : ℕ} {read : Bool} (h : VmInv img m G e) (hr : Rooted G id as)
    (hok : RegionsOk as) :
    Except.Sat (fun _ => False) (FaultPost img as id va read m G e)
      (vmfault img as as.pagetable va read m) := by
  unfold vmfault
  dsimp only
  rw [heapEnd_eq hok]
  split_ifs with hheap
  · exact refused h rfl
  have hlt : va < heapEnd as := Nat.not_le.mp hheap
  have hdiv := pgrounddown_div va
  have hv : va / pgsize < userVpns := by
    have := heapEnd_le hok
    rw [trapframe_eq] at this
    rw [userVpns_eq, pgsize_eq]
    omega
  have hva : pgrounddown va < maxva := by
    rw [userVpns_eq, pgsize_eq] at hv
    rw [maxva_eq, pgrounddown, pgsize_eq]
    omega
  have ⟨pt, hG, has⟩ := hr
  obtain ⟨pte, hwalk, hpte⟩ := walk_filter h hG hva
  rw [hdiv] at hpte
  rw [← has] at hwalk
  rw [hwalk, ok_bind]
  rcases hpte with ⟨hnone, hpte⟩ | ⟨t, l, ht, hl, hpte, hword⟩
  · simp only [hpte]
    refine vmfaultHeap_spec h hr hok hlt hv hva fun pt1 hpt1 => ?_
    rwa [← Option.some.inj (hG.symm.trans hpt1)]
  · simp only [hpte]
    exact vmfaultCow_spec h hG hlt hv ht hl hword

end

end YHsys.Kernel
