import YHsys.Kernel.ProcLayout
import YHsys.Kernel.Supply

/-!
# Moving the break

`sys_sbrk` in the address space of a program, in both modes and for every `int`. Its sums
are taken modulo `2 ^ 32`, and it tests them before it uses them; a growth that fails
half-way gives back what it mapped.
-/

namespace YHsys.Kernel

/-- The pages an eager growth of the heap from `b` to `b'` takes. -/
def growthPages (as : AddrSpace) (b b' : ℕ) (mem : Mem) : ℕ :=
  upVpn b' - upVpn b + missingTables mem as.pagetable (upVpn b) (upVpn b' - upVpn b)

/-- `sys_sbrk` failed: it was asked for too much, and nothing has changed. -/
structure SbrkRefused (L : ProcLayout) (as : AddrSpace) (n : ℤ) (eager : Bool) (m : Machine)
    (G : Tables) (m' : Machine) (G' : Tables) : Prop where
  grows : 0 < n
  reason : trapframe < L.brk + n ∨
    eager = true ∧ ¬ m.hasPages (growthPages as L.brk (L.brk + n).toNat m.mem)
  view : view m'.mem G' = view m.mem G
  leaves : userLeaves G' = userLeaves G

/-- `sys_sbrk` moved the break, or left it where a negative argument would have taken it
below the heap. -/
def SbrkMoved (L : ProcLayout) (id : ℕ) (as : AddrSpace) (n : ℤ) (as' : AddrSpace) (G' : Tables) :
    Prop :=
  ∃ L' : ProcLayout, as' = { as with regions := L'.regions } ∧ Within G' id L'.Page ∧
    (L'.brk : ℤ) = if L.brk + n < (L.heap * pgsize : ℕ) then (L.brk : ℤ) else L.brk + n

section

variable {img : KernelImage} {L : ProcLayout} {as : AddrSpace} {n : ℤ} {id : ℕ} {m : Machine}
  {G G' : Tables} {e : ℕ → ℕ}

theorem Within.unmapped (hw : Within G id L.Page) {v : ℕ} (hv : upVpn L.brk ≤ v) :
    userLeaves G (id, v) = none := by
  refine Option.eq_none_iff_forall_not_mem.mpr fun l hl => ?_
  have hpage := hw v l (userLeaves_iff.mp hl)
  have := L.text_le
  have := L.guard_lt
  have := L.heap_le_upVpn
  rcases hpage with hpage | hpage <;> omega

theorem SbrkMoved.of_resize {b : ℕ} (h1 : L.heap * pgsize ≤ b) (h2 : b ≤ trapframe)
    (hw : Within G' id (L.withBrk b h1 h2).Page)
    (hb : (b : ℤ) = if L.brk + n < (L.heap * pgsize : ℕ) then (L.brk : ℤ) else L.brk + n) :
    SbrkMoved L id as n { as with regions := (L.withBrk b h1 h2).regions } G' :=
  ⟨L.withBrk b h1 h2, rfl, hw, hb⟩

/-- The growing branch of `growproc`. -/
theorem growproc_grow (h : VmInv img m G e) (hr : Rooted G id as) (hL : as.regions = L.regions)
    (hw : Within G id L.Page) (hn : 0 < n) (hlt : n < 2 ^ 31) :
    ∃ x m' G', growproc img as n m = .ok (x, m') ∧ Next img id G m' G' e ∧
      (x = none ∧ SbrkRefused L as n true m G m' G' ∨
        ∃ as', x = some as' ∧ SbrkMoved L id as n as' G') := by
  have hbrk := L.brk_le
  have hheap := L.heap_le
  have hfind : as.regions.find? (fun r => decide (r.type = .heap)) =
      some ⟨L.heap * pgsize, L.brk, .heap, pteR ||| pteW⟩ := by rw [hL]; rfl
  unfold growproc
  rw [hfind]
  dsimp only
  rw [if_pos hn]
  by_cases hbad : trapframe < L.brk + n
  · have hguard : (((L.brk : ℤ) + n) % 2 ^ 32).toNat < L.brk ∨
        trapframe < (((L.brk : ℤ) + n) % 2 ^ 32).toNat := by
      rw [trapframe_eq] at *
      omega
    rw [if_pos hguard]
    exact ⟨none, m, G, rfl, Next.refl h id, .inl ⟨rfl, hn, .inl hbad, rfl, rfl⟩⟩
  · have hnew : (((L.brk : ℤ) + n) % 2 ^ 32).toNat = (L.brk + n).toNat := by
      rw [trapframe_eq] at *
      omega
    rw [hnew]
    generalize hb : (L.brk + n).toNat = b
    have hb' : (b : ℤ) = L.brk + n := by omega
    have hle : b ≤ trapframe := by omega
    rw [if_neg (by omega)]
    have hnoremap : ∀ x, upVpn L.brk ≤ x → userLeaves G (id, x) = none := fun x hx =>
      hw.unmapped hx
    cases hu : uvmalloc img as L.brk b pteW m with
    | error err =>
      have hpost := @uvmalloc_spec _ _ _ _ _ _ L.brk b pteW h hr hle heapPerm_fresh
      rw [hu] at hpost
      obtain ⟨-, x, hx, -, hsome⟩ := hpost
      exact absurd (hnoremap x hx) hsome
    | ok r =>
      obtain ⟨G', hnext, hgrown, hback⟩ := (uvmalloc_spec h hr hle heapPerm_fresh).of_eq_ok hu
      rw [Except.ok_bind]
      by_cases hz : r.1 = 0
      · rw [if_pos hz]
        obtain ⟨hview, hleaves⟩ := hback hz (by omega)
        refine ⟨none, r.2, G', rfl, hnext, .inl ⟨rfl, hn, .inr ⟨rfl, fun hpages => ?_⟩, hview, hleaves⟩⟩
        rw [hb] at hpages
        exact uvmalloc_served h hr (by omega) (by omega) hle heapPerm_fresh hpages hu hz
      · rw [if_neg hz]
        obtain ⟨hsz, hview, -⟩ := hgrown hz (by omega)
        rw [hsz, ProcLayout.resize hL (by omega) hle]
        refine ⟨_, r.2, G', rfl, hnext, .inr ⟨_, rfl, .of_resize _ _ ?_ ?_⟩⟩
        · refine (hw.mono fun v hv => ?_).of_view m.mem r.2.mem fun v pg hpg => ?_
          · have := upVpn_mono (show L.brk ≤ b by omega)
            exact hv.imp_right fun hv => ⟨hv.1, by show v < upVpn b; omega⟩
          · rw [hview] at hpg
            unfold fillPages at hpg
            split_ifs at hpg with hin
            · have := L.guard_lt
              have := L.heap_le_upVpn
              have := upVpn_mono (show L.brk ≤ b by omega)
              have hin := hin.2
              dsimp only at hin
              exact .inr (.inr ⟨by show L.guard ≤ v; omega, by show v < upVpn b; omega⟩)
            · exact .inl (by rw [hpg]; rfl)
        · rw [if_neg (by omega), hb']

theorem growproc_shrink (h : VmInv img m G e) (hr : Rooted G id as) (hL : as.regions = L.regions)
    (hw : Within G id L.Page) (hn : n ≤ 0) (hge : -2 ^ 31 ≤ n) :
    ∃ as' m' G', growproc img as n m = .ok (some as', m') ∧ Next img id G m' G' e ∧
      SbrkMoved L id as n as' G' := by
  have hbrk := L.brk_le
  have hheap := L.heap_le
  have hfind : as.regions.find? (fun r => decide (r.type = .heap)) =
      some ⟨L.heap * pgsize, L.brk, .heap, pteR ||| pteW⟩ := by rw [hL]; rfl
  have hstay : ∀ hb : (L.brk : ℤ) = if L.brk + n < (L.heap * pgsize : ℕ) then (L.brk : ℤ)
      else L.brk + n, ∃ as' m' G', Except.ok (ε := Panic) (asResizeRegion as .heap L.brk, m) =
        .ok (some as', m') ∧ Next img id G m' G' e ∧ SbrkMoved L id as n as' G' := fun hb => by
    rw [ProcLayout.resize hL L.heap_le L.brk_le]
    exact ⟨_, m, G, rfl, Next.refl h id, .of_resize _ _ hw hb⟩
  unfold growproc
  rw [hfind]
  dsimp only
  rw [if_neg (by omega)]
  by_cases hneg : n < 0
  · rw [if_pos hneg]
    by_cases hlow : L.brk + n < (L.heap * pgsize : ℕ)
    · have hguard : L.brk < (((L.brk : ℤ) + n) % 2 ^ 32).toNat ∨
          (((L.brk : ℤ) + n) % 2 ^ 32).toNat < L.heap * pgsize := by
        rw [trapframe_eq] at hbrk
        generalize L.heap * pgsize = start at *
        omega
      rw [if_pos hguard]
      exact hstay (by rw [if_pos hlow])
    · have hnew : (((L.brk : ℤ) + n) % 2 ^ 32).toNat = (L.brk + n).toNat := by
        rw [trapframe_eq] at hbrk
        omega
      rw [hnew]
      generalize hb : (L.brk + n).toNat = b
      have hb' : (b : ℤ) = L.brk + n := by omega
      rw [if_neg (by omega)]
      obtain ⟨m', G', hd, hnext, hview, -⟩ := uvmdealloc_spec b h hr hbrk
      rw [hd, Except.ok_bind, Nat.min_eq_right (by omega)]
      dsimp only
      rw [ProcLayout.resize hL (by omega) (by omega)]
      refine ⟨_, m', G', rfl, hnext, .of_resize _ _ ?_ (by rw [if_neg hlow, hb'])⟩
      intro v l hl
      have hpg := (hl.view_eq m'.mem).symm.trans (congrFun hview (id, v))
      unfold clearPages at hpg
      split_ifs at hpg with hin
      obtain ⟨l0, hl0, -⟩ := view_eq_some hpg.symm
      refine (hw v l0 hl0).imp_right fun hv => ⟨hv.1, ?_⟩
      show v < upVpn b
      have := upVpn_mono (show b ≤ L.brk by omega)
      by_contra hge
      exact hin ⟨rfl, by dsimp only; omega, by dsimp only; omega⟩
  · obtain rfl : n = 0 := by omega
    have hsame : (((L.brk : ℤ) + 0) % 2 ^ 32).toNat = L.brk := by
      rw [trapframe_eq] at hbrk
      omega
    rw [if_neg hneg, hsame]
    exact hstay (by split_ifs <;> omega)

theorem sysSbrk_spec {eager : Bool} (h : VmInv img m G e) (hr : Rooted G id as)
    (hL : as.regions = L.regions) (hw : Within G id L.Page) (hge : -2 ^ 31 ≤ n) (hlt : n < 2 ^ 31) :
    ∃ r as' m' G', sysSbrk img as n eager m = .ok (r, as', m') ∧ Next img id G m' G' e ∧
      (r = none ∧ as' = as ∧ SbrkRefused L as n eager m G m' G' ∨
        r = some L.brk ∧ SbrkMoved L id as n as' G') := by
  unfold sysSbrk
  rw [ProcLayout.heap_start_size hL]
  by_cases hmode : eager = true ∨ n < 0
  · rw [if_pos hmode]
    by_cases hn : 0 < n
    · obtain rfl : eager = true := hmode.resolve_right (by omega)
      obtain ⟨x, m', G', hg, hnext, ⟨rfl, href⟩ | ⟨as', rfl, hmoved⟩⟩ :=
        growproc_grow h hr hL hw hn hlt
      · rw [hg, Except.ok_bind]
        exact ⟨none, as, m', G', rfl, hnext, .inl ⟨rfl, rfl, href⟩⟩
      · rw [hg, Except.ok_bind]
        exact ⟨_, as', m', G', rfl, hnext, .inr ⟨rfl, hmoved⟩⟩
    · obtain ⟨as', m', G', hg, hnext, hmoved⟩ := growproc_shrink h hr hL hw (by omega) hge
      rw [hg, Except.ok_bind]
      exact ⟨_, as', m', G', rfl, hnext, .inr ⟨rfl, hmoved⟩⟩
  · rw [if_neg hmode]
    have hn : 0 ≤ n := by
      rw [not_or] at hmode
      omega
    have hheap := L.heap_le
    unfold sbrkLazy
    rw [ProcLayout.heap_start_size hL]
    dsimp only
    by_cases hbad : trapframe < L.brk + n.toNat
    · have hbrk := L.brk_le
      rw [if_pos hbad]
      exact ⟨none, as, m, G, rfl, Next.refl h id, .inl ⟨rfl, rfl, by omega, .inl (by omega), rfl, rfl⟩⟩
    · rw [if_neg hbad, ProcLayout.resize hL (by omega) (by omega)]
      refine ⟨_, _, m, G, rfl, Next.refl h id, .inr ⟨rfl, .of_resize _ _ (hw.mono fun v hv => ?_) ?_⟩⟩
      · have := upVpn_mono (show L.brk ≤ L.brk + n.toNat by omega)
        exact hv.imp_right fun hv => ⟨hv.1, by show v < upVpn (L.brk + n.toNat); omega⟩
      · rw [if_neg (by omega)]
        omega

end

end YHsys.Kernel
