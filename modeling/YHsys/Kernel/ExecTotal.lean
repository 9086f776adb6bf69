import YHsys.Kernel.UserRuns
import YHsys.Lib.Loops

/-!
# `kexec` always returns

Whatever the file holds, `kexec` neither panics (`UserOk.exec`) nor runs forever. The second is
a question about the loops over pages, which stop at an address and not after a number of
rounds: an address that steps over its bound, or a bound that wrapped around to a smaller
address, would keep them going. They are written here with the tests of the source, and each is
shown to end in what the functions of the model, which count the rounds beforehand, return.
The loops over program headers and arguments go through a table whose length is known.
-/

namespace YHsys.Kernel

open Except (bind_eq_ok ok_bind)

open Loop

/-! ## Rounds -/

/-- The body of the loop of `mappages` (`addrspace.c:160`). -/
def mappagesRound (pagetable perm last : ℕ) :
    ℕ × ℕ × Machine → Except Panic (Bool × Machine ⊕ ℕ × ℕ × Machine)
  | (a, pa, m) => do
    match ← walk pagetable a true m with
    | (none, m) => .ok (.inl (false, m))
    | (some pte, m) =>
      if rd32 m.mem pte &&& pteV ≠ 0 then .error .mappagesRemap
      else
        let m := m.wr32 pte (pa2pte pa ||| perm ||| pteV)
        if a = last then .ok (.inl (true, m))
        else .ok (.inr ((a + pgsize) % 2 ^ 32, (pa + pgsize) % 2 ^ 32, m))

/-- The body of the loop of `allocseg` (`loader_exec.c:49`). -/
def allocsegRound (img : KernelImage) (pagetable perm last : ℕ) :
    ℕ × Machine → Except Panic (Bool × Machine ⊕ ℕ × Machine)
  | (a, m) => do
    match ← allocsegPage img pagetable perm a m with
    | (false, m) => .ok (.inl (false, m))
    | (true, m) =>
      if a = last then .ok (.inl (true, m)) else .ok (.inr ((a + pgsize) % 2 ^ 32, m))

/-- The loop of `loadseg` (`loader_exec.c:277`), the test included. -/
def loadsegRound (pagetable va : ℕ) (file : List UInt8) (offset sz : ℕ) :
    ℕ × Machine → Except Panic (Bool × Machine ⊕ ℕ × Machine)
  | (i, m) =>
    if i < sz then do
      let (pa, m) ← walkaddr pagetable ((va + i) % 2 ^ 32) m
      if pa = 0 then .error .loadseg
      else
        let n := if sz - i < pgsize then sz - i else pgsize
        let bs := readi file ((offset + i) % 2 ^ 32) n
        let m := m.storeBytes pa bs
        if bs.length ≠ n then .ok (.inl (false, m)) else .ok (.inr ((i + pgsize) % 2 ^ 32, m))
    else .ok (.inl (true, m))

/-- The loop of `uvmalloc` (`addrspace.c:436`), the test included. -/
def uvmallocRound (img : KernelImage) (as : AddrSpace) (oldsz newsz xperm : ℕ) :
    ℕ × Machine → Except Panic (Bool × Machine ⊕ ℕ × Machine)
  | (a, m) =>
    if a < newsz then
      match m.kalloc with
      | (none, m) => do
        let (_, m) ← uvmdealloc img as a oldsz m
        .ok (.inl (false, m))
      | (some page, m) => do
        match ← mappages as.pagetable a pgsize page (pteR ||| pteU ||| xperm) (m.memset page 0) with
        | (true, m) => .ok (.inr ((a + pgsize) % 2 ^ 32, m))
        | (false, m) =>
          let m ← m.kfree img page
          let (_, m) ← uvmdealloc img as a oldsz m
          .ok (.inl (false, m))
    else .ok (.inl (true, m))

/-- The loop of `copyout` (`addrspace.c:658`), the test included. -/
def copyoutRound (img : KernelImage) (as : AddrSpace) (pagetable : ℕ) :
    ℕ × List UInt8 × Machine → Except Panic (Bool × Machine ⊕ ℕ × List UInt8 × Machine)
  | (dstva, bs, m) =>
    if 0 < bs.length then do
      let n := min (pgsize - (dstva - pgrounddown dstva)) bs.length
      match ← copyoutPage img as pagetable dstva (bs.take n) m with
      | (false, m) => .ok (.inl (false, m))
      | (true, m) => .ok (.inr ((pgrounddown dstva + pgsize) % 2 ^ 32, bs.drop n, m))
    else .ok (.inl (true, m))

/-! ## The loops end -/

/-- The loop over pages that stops at `last` has `n` more rounds to go at `a`. -/
structure RoundsTo (last n a : ℕ) : Prop where
  pos : 0 < n
  within : (n - 1) * pgsize < 2 ^ 32
  lt : a < 2 ^ 32
  last_eq : (a + (n - 1) * pgsize) % 2 ^ 32 = last

section

variable {img : KernelImage} {as : AddrSpace} {pagetable perm a pa last n : ℕ} {m : Machine}
  {file : List UInt8}

theorem RoundsTo.met_iff (h : RoundsTo last (n + 1) a) : a = last ↔ n = 0 := by
  obtain ⟨-, hn, ha, hlast⟩ := h
  rw [pgsize_eq] at hn hlast
  omega

theorem RoundsTo.next (h : RoundsTo last (n + 1) a) (hne : a ≠ last) :
    RoundsTo last n ((a + pgsize) % 2 ^ 32) := by
  have hpos : n ≠ 0 := fun hn => hne (h.met_iff.mpr hn)
  obtain ⟨-, hn, ha, hlast⟩ := h
  rw [Nat.add_sub_cancel, pgsize_eq] at hn hlast
  rw [pgsize_eq]
  have hlt : (a + 4096) % 2 ^ 32 < 2 ^ 32 := Nat.mod_lt _ (by decide)
  have hmul : (n - 1) * 4096 < 2 ^ 32 :=
    Nat.lt_of_le_of_lt (Nat.mul_le_mul_right _ (Nat.sub_le n 1)) hn
  have heq : ((a + 4096) % 2 ^ 32 + (n - 1) * 4096) % 2 ^ 32 = last := by omega
  exact ⟨Nat.pos_of_ne_zero hpos, pgsize_eq ▸ hmul, hlt, pgsize_eq ▸ heq⟩

theorem mappagesLoop_ends (h : RoundsTo last n a) :
    Ends (mappagesRound pagetable perm last) (a, pa, m) (mappagesLoop pagetable perm n a pa m) := by
  induction n generalizing a pa m with
  | zero => exact absurd h.pos (Nat.lt_irrefl 0)
  | succ n ih =>
    have heq : mappagesLoop pagetable perm (n + 1) a pa m =
        mappagesRound pagetable perm last (a, pa, m) >>= Sum.elim .ok fun s =>
          mappagesLoop pagetable perm n s.1 s.2.1 s.2.2 := by
      simp only [mappagesLoop, mappagesRound]
      cases walk pagetable a true m with
      | error e => rfl
      | ok r =>
        obtain ⟨_ | pte, m1⟩ := r
        · rfl
        · simp only [ok_bind]
          by_cases hv : rd32 m1.mem pte &&& pteV ≠ 0
          · simp only [if_pos hv, Except.error_bind]
          · simp only [if_neg hv]
            by_cases hl : a = last
            · simp only [if_pos hl, ok_bind, h.met_iff.mp hl, mappagesLoop, Sum.elim_inl]
            · simp only [if_neg hl, ok_bind, Sum.elim_inr]
    rw [heq]
    refine .of_round fun s' hs' => ?_
    obtain ⟨⟨_ | pte, m1⟩, -, hs'⟩ := bind_eq_ok.mp hs'
    · cases hs'
    · dsimp only at hs'
      split_ifs at hs' with hv hl
      · cases hs'
      · obtain rfl := Sum.inr.inj (Except.ok.inj hs')
        exact ih (h.next hl)

theorem allocsegLoop_ends (h : RoundsTo last n a) :
    Ends (allocsegRound img pagetable perm last) (a, m) (allocsegLoop img pagetable perm n a m) := by
  induction n generalizing a m with
  | zero => exact absurd h.pos (Nat.lt_irrefl 0)
  | succ n ih =>
    have heq : allocsegLoop img pagetable perm (n + 1) a m =
        allocsegRound img pagetable perm last (a, m) >>= Sum.elim .ok fun s =>
          allocsegLoop img pagetable perm n s.1 s.2 := by
      simp only [allocsegLoop, allocsegRound]
      cases allocsegPage img pagetable perm a m with
      | error e => rfl
      | ok r =>
        obtain ⟨_ | _, m1⟩ := r
        · rfl
        · simp only [ok_bind]
          by_cases hl : a = last
          · simp only [if_pos hl, ok_bind, h.met_iff.mp hl, allocsegLoop, Sum.elim_inl]
          · simp only [if_neg hl, ok_bind, Sum.elim_inr]
    rw [heq]
    refine .of_round fun s' hs' => ?_
    obtain ⟨⟨_ | _, m1⟩, -, hs'⟩ := bind_eq_ok.mp hs'
    · cases hs'
    · dsimp only at hs'
      split_ifs at hs' with hl
      · cases hs'
      · obtain rfl := Sum.inr.inj (Except.ok.inj hs')
        exact ih (h.next hl)

theorem loadsegLoop_ends {va offset sz i : ℕ} (hsz : sz + pgsize ≤ 2 ^ 32) (hi : sz ≤ i + n) :
    Ends (loadsegRound pagetable va file offset sz) (i, m)
      (loadsegLoop pagetable file n ((va + i) % 2 ^ 32) ((offset + i) % 2 ^ 32) (sz - i) m) := by
  induction n generalizing i m with
  | zero =>
    have hle : ¬ i < sz := by omega
    have hzero : sz - i = 0 := by omega
    simp only [loadsegLoop, hzero]
    exact .leave (if_neg hle)
  | succ n ih =>
    by_cases hlt : i < sz
    · have hne : sz - i ≠ 0 := by omega
      have hwrap : (i + pgsize) % 2 ^ 32 = i + pgsize := Nat.mod_eq_of_lt (by omega)
      have hmin : (if sz - i < pgsize then sz - i else pgsize) = min (sz - i) pgsize := by
        split_ifs <;> omega
      have heq : loadsegLoop pagetable file (n + 1) ((va + i) % 2 ^ 32) ((offset + i) % 2 ^ 32)
            (sz - i) m =
          loadsegRound pagetable va file offset sz (i, m) >>= Sum.elim .ok fun s =>
            loadsegLoop pagetable file n ((va + s.1) % 2 ^ 32) ((offset + s.1) % 2 ^ 32)
              (sz - s.1) s.2 := by
        simp only [loadsegLoop, loadsegRound, if_pos hlt, if_neg hne, hmin, hwrap]
        cases walkaddr pagetable ((va + i) % 2 ^ 32) m with
        | error e => rfl
        | ok r =>
          simp only [ok_bind]
          split_ifs with hpa hlen
          · rfl
          · rfl
          · have hleft : sz - i - min (sz - i) pgsize = sz - (i + pgsize) := by omega
            simp only [ok_bind, Sum.elim_inr, hleft, Nat.mod_add_mod, Nat.add_assoc]
      rw [heq]
      refine .of_round fun s' hs' => ?_
      simp only [loadsegRound, if_pos hlt, hmin] at hs'
      obtain ⟨r, -, hs'⟩ := bind_eq_ok.mp hs'
      split_ifs at hs' with hpa hlen
      · cases hs'
      · obtain rfl := Sum.inr.inj (Except.ok.inj hs')
        rw [hwrap]
        exact ih (by rw [pgsize_eq]; omega)
    · have hzero : sz - i = 0 := by omega
      simp only [loadsegLoop, hzero, if_true]
      exact .leave (if_neg hlt)

theorem uvmallocLoop_ends {oldsz newsz xperm : ℕ} (hsz : newsz + pgsize ≤ 2 ^ 32)
    (hn : n = (newsz - a + pgsize - 1) / pgsize) :
    Ends (uvmallocRound img as oldsz newsz xperm) (a, m)
      (uvmallocLoop img as oldsz xperm n a m) := by
  have hpos : 0 < n ↔ a < newsz := by
    rw [hn, Nat.div_pos_iff, pgsize_eq]
    omega
  induction n generalizing a m with
  | zero => exact .leave (if_neg fun hlt => absurd (hpos.mpr hlt) (Nat.lt_irrefl 0))
  | succ n ih =>
    have hlt : a < newsz := hpos.mp n.succ_pos
    have hwrap : (a + pgsize) % 2 ^ 32 = a + pgsize := Nat.mod_eq_of_lt (by omega)
    have hn' : n = (newsz - (a + pgsize) + pgsize - 1) / pgsize := by
      rw [pgsize_eq] at hn ⊢
      omega
    have heq : uvmallocLoop img as oldsz xperm (n + 1) a m =
        uvmallocRound img as oldsz newsz xperm (a, m) >>= Sum.elim .ok fun s =>
          uvmallocLoop img as oldsz xperm n s.1 s.2 := by
      simp only [uvmallocLoop, uvmallocRound, if_pos hlt]
      obtain ⟨_ | page, m1⟩ := m.kalloc
      · simp only [bind_assoc, ok_bind, Sum.elim_inl]
      · dsimp only
        rw [bind_assoc]
        refine congrArg _ (funext fun r => ?_)
        obtain ⟨_ | _, m2⟩ := r
        · simp only [bind_assoc, ok_bind, Sum.elim_inl]
        · simp only [ok_bind, Sum.elim_inr]
    rw [heq]
    refine .of_round fun s' hs' => ?_
    have hs'1 : s'.1 = a + pgsize := by
      simp only [uvmallocRound, if_pos hlt] at hs'
      rcases hk : m.kalloc with ⟨_ | page, m1⟩ <;> rw [hk] at hs'
      · obtain ⟨r, -, hs'⟩ := bind_eq_ok.mp hs'
        cases hs'
      · obtain ⟨⟨_ | _, m2⟩, -, hs'⟩ := bind_eq_ok.mp hs'
        · obtain ⟨m3, -, hs'⟩ := bind_eq_ok.mp hs'
          obtain ⟨r, -, hs'⟩ := bind_eq_ok.mp hs'
          cases hs'
        · rw [← Sum.inr.inj (Except.ok.inj hs')]
          exact hwrap
    refine ih (hs'1 ▸ hn') ?_
    rw [hn', hs'1, Nat.div_pos_iff, pgsize_eq]
    omega

theorem copyoutLoop_ends {dstva : ℕ} {bs : List UInt8} (hn : bs.length ≤ n) :
    Ends (copyoutRound img as pagetable) (dstva, bs, m)
      (copyoutLoop img as pagetable n dstva bs m) := by
  induction n generalizing dstva bs m with
  | zero =>
    obtain rfl := List.length_eq_zero_iff.mp (Nat.le_zero.mp hn)
    exact .leave rfl
  | succ n ih =>
    by_cases hbs : bs = []
    · subst hbs
      exact .leave rfl
    · have hlen : 0 < bs.length := List.length_pos_iff.mpr hbs
      have hoff : dstva - pgrounddown dstva = dstva % pgsize := by
        have := Nat.div_add_mod' dstva pgsize
        unfold pgrounddown
        omega
      have hroom : 0 < pgsize - dstva % pgsize := Nat.sub_pos_of_lt (Nat.mod_lt _ (by decide))
      have htake : bs.take (min (pgsize - dstva % pgsize) bs.length) =
          bs.take (pgsize - dstva % pgsize) := by
        rw [List.take_eq_take_iff]
        omega
      have hdrop : bs.drop (min (pgsize - dstva % pgsize) bs.length) =
          bs.drop (pgsize - dstva % pgsize) := by
        rcases Nat.le_total (pgsize - dstva % pgsize) bs.length with hle | hle
        · rw [Nat.min_eq_left hle]
        · rw [Nat.min_eq_right hle, List.drop_of_length_le hle, List.drop_length]
      have heq : copyoutLoop img as pagetable (n + 1) dstva bs m =
          copyoutRound img as pagetable (dstva, bs, m) >>= Sum.elim .ok fun s =>
            copyoutLoop img as pagetable n s.1 s.2.1 s.2.2 := by
        simp only [copyoutLoop, copyoutRound, if_pos hlen, if_neg hbs, hoff, htake, hdrop, bind_assoc]
        congr 1
        funext r
        obtain ⟨_ | _, m1⟩ := r <;> rfl
      rw [heq]
      refine .of_round fun s' hs' => ?_
      simp only [copyoutRound, if_pos hlen, hoff] at hs'
      obtain ⟨⟨_ | _, m1⟩, -, hs'⟩ := bind_eq_ok.mp hs'
      · cases hs'
      · obtain rfl := Sum.inr.inj (Except.ok.inj hs')
        refine ih ?_
        rw [List.length_drop]
        omega

/-- What `kexec` has checked of a program header when it comes to `allocseg`
(`loader_exec.c:146`). -/
structure SegmentChecked (ph : ProgHdr) : Prop where
  filesz_le : ph.filesz ≤ ph.memsz
  le_segend : ph.vaddr ≤ (ph.vaddr + ph.memsz) % 2 ^ 32
  segend_lt : (ph.vaddr + ph.memsz) % 2 ^ 32 < trapframe
  aligned : ph.vaddr % pgsize = 0

theorem SegmentChecked.end_lt {bs : List UInt8} (h : SegmentChecked (progHdr bs)) :
    (progHdr bs).vaddr + (progHdr bs).memsz < trapframe := by
  have hva : (progHdr bs).vaddr < 2 ^ 32 := structField_lt _ _
  have hmem : (progHdr bs).memsz < 2 ^ 32 := structField_lt _ _
  have hle := h.le_segend
  have hlt := h.segend_lt
  omega

/-- Each loop over pages that `kexec` runs, with the bounds it is called with, ends in what
the model's function returns. In `uvmalloc` both bounds are multiples of the page size. -/
structure PageLoopsEnd (img : KernelImage) : Prop where
  allocseg : ∀ bs pagetable perm m, SegmentChecked (progHdr bs) → (progHdr bs).memsz ≠ 0 →
    Ends (allocsegRound img pagetable perm
        (pgrounddown (((progHdr bs).vaddr + (progHdr bs).memsz - 1) % 2 ^ 32)))
      ((progHdr bs).vaddr, m)
      (allocseg img pagetable (progHdr bs).vaddr (progHdr bs).memsz perm m)
  loadseg : ∀ bs pagetable file m, SegmentChecked (progHdr bs) →
    Ends (loadsegRound pagetable (progHdr bs).vaddr file (progHdr bs).off (progHdr bs).filesz)
      (0, m) (loadseg pagetable (progHdr bs).vaddr file (progHdr bs).off (progHdr bs).filesz m)
  mappages : ∀ pagetable va pa perm m, va % pgsize = 0 → va < 2 ^ 32 →
    Ends (mappagesRound pagetable perm ((va + pgsize - pgsize) % 2 ^ 32)) (va, pa, m)
      (mappages pagetable va pgsize pa perm m)
  uvmalloc : ∀ (as : AddrSpace) stackGuard stackEnd xperm m, as.pagetable ≠ 0 →
    stackGuard % pgsize = 0 → stackGuard ≤ stackEnd → stackEnd < trapframe →
    ∃ r, Ends (uvmallocRound img as stackGuard stackEnd xperm) (stackGuard, m) r ∧
      uvmalloc img as stackGuard stackEnd xperm m =
        r.map fun r => (if r.1 then stackEnd else 0, r.2)
  copyout : ∀ as pagetable dstva bs m,
    Ends (copyoutRound img as pagetable) (dstva, bs, m) (copyout img as pagetable dstva bs m)

theorem allocseg_ends {bs : List UInt8} (h : SegmentChecked (progHdr bs))
    (hne : (progHdr bs).memsz ≠ 0) :
    Ends (allocsegRound img pagetable perm
        (pgrounddown (((progHdr bs).vaddr + (progHdr bs).memsz - 1) % 2 ^ 32)))
      ((progHdr bs).vaddr, m)
      (allocseg img pagetable (progHdr bs).vaddr (progHdr bs).memsz perm m) := by
  have hend := h.end_lt
  have halign := h.aligned
  rw [trapframe_eq] at hend
  rw [allocseg, if_neg hne]
  generalize (progHdr bs).vaddr = va at *
  generalize (progHdr bs).memsz = sz at *
  have hlast : pgrounddown ((va + sz - 1) % 2 ^ 32) = (va + sz - 1) / pgsize * pgsize := by
    rw [pgrounddown, Nat.mod_eq_of_lt (by omega)]
  rw [hlast]
  rw [pgsize_eq] at halign ⊢
  refine allocsegLoop_ends ⟨Nat.succ_pos _, ?_, by omega, ?_⟩
  all_goals
    rw [pgsize_eq]
    omega

theorem loadseg_ends {bs : List UInt8} (h : SegmentChecked (progHdr bs)) :
    Ends (loadsegRound pagetable (progHdr bs).vaddr file (progHdr bs).off (progHdr bs).filesz)
      (0, m) (loadseg pagetable (progHdr bs).vaddr file (progHdr bs).off (progHdr bs).filesz m) := by
  have hva : (progHdr bs).vaddr < 2 ^ 32 := structField_lt _ _
  have hoff : (progHdr bs).off < 2 ^ 32 := structField_lt _ _
  have hsz : (progHdr bs).filesz + pgsize ≤ 2 ^ 32 := by
    have hend := h.end_lt
    have hle := h.filesz_le
    rw [trapframe_eq] at hend
    rw [pgsize_eq]
    omega
  have hloop : Ends
      (loadsegRound pagetable (progHdr bs).vaddr file (progHdr bs).off (progHdr bs).filesz) (0, m)
      (loadsegLoop pagetable file (progHdr bs).filesz (((progHdr bs).vaddr + 0) % 2 ^ 32)
        (((progHdr bs).off + 0) % 2 ^ 32) ((progHdr bs).filesz - 0) m) :=
    loadsegLoop_ends hsz (Nat.le_add_left _ 0)
  rwa [Nat.add_zero, Nat.add_zero, Nat.mod_eq_of_lt hva, Nat.mod_eq_of_lt hoff] at hloop

theorem mappages_ends (halign : a % pgsize = 0) (ha : a < 2 ^ 32) :
    Ends (mappagesRound pagetable perm ((a + pgsize - pgsize) % 2 ^ 32)) (a, pa, m)
      (mappages pagetable a pgsize pa perm m) := by
  rw [mappages, if_neg (not_not.mpr halign), if_neg (by decide), if_neg (by decide)]
  refine mappagesLoop_ends ⟨by decide, by decide, ha, ?_⟩
  rw [show pgsize / pgsize = 1 from rfl, Nat.add_sub_cancel, Nat.sub_self, Nat.zero_mul, Nat.add_zero]

theorem uvmalloc_ends {stackGuard stackEnd xperm : ℕ} (has : as.pagetable ≠ 0)
    (halign : stackGuard % pgsize = 0) (hle : stackGuard ≤ stackEnd) (hlt : stackEnd < trapframe) :
    ∃ r, Ends (uvmallocRound img as stackGuard stackEnd xperm) (stackGuard, m) r ∧
      uvmalloc img as stackGuard stackEnd xperm m =
        r.map fun r => (if r.1 then stackEnd else 0, r.2) := by
  rw [trapframe_eq] at hlt
  have hup : pgroundup stackGuard = stackGuard := by
    rw [pgroundup, pgsize_eq] at *
    omega
  refine ⟨_, uvmallocLoop_ends (by rw [pgsize_eq]; omega) rfl, ?_⟩
  rw [uvmalloc, if_neg has, if_neg (Nat.not_lt.mpr hle), hup]
  dsimp only
  cases uvmallocLoop img as stackGuard xperm ((stackEnd - stackGuard + pgsize - 1) / pgsize)
    stackGuard m with
  | error e => rfl
  | ok r => rcases r with ⟨_ | _, m1⟩ <;> rfl

theorem pageLoopsEnd (img : KernelImage) : PageLoopsEnd img where
  allocseg _ _ _ _ h hne := allocseg_ends h hne
  loadseg _ _ _ _ h := loadseg_ends h
  mappages _ _ _ _ _ halign ha := mappages_ends halign ha
  uvmalloc _ _ _ _ _ has halign hle hlt := uvmalloc_ends has halign hle hlt
  copyout _ _ _ _ _ := copyoutLoop_ends (Nat.le_refl _)

end

/-- `kexec` returns for every file, all arguments that `sys_exec` accepts, all gaps and
every failure of the allocator: no panic is reached, and the loops over pages end. -/
theorem kexec_returns {img : KernelImage} {s : VmState} {id tf : ℕ} (hr : UserRun img s)
    (htf : tf ∈ s.held) (file : List UInt8) {argv : List (List UInt8)}
    (hargs : ∀ arg ∈ argv, arg.length + 1 ≤ pgsize) (draw : ℕ → ℕ) :
    (∃ r, kexec img s id tf file argv draw = .ok r) ∧ PageLoopsEnd img := by
  obtain ⟨G, h⟩ := hr.ok
  obtain ⟨r, hexec, -⟩ := (h.exec htf hargs).exists_ok
  exact ⟨⟨r, hexec⟩, pageLoopsEnd img⟩

/-- The first process with its trap frame and an empty address space. -/
def firstSpaceOps : List UserOp := [.vm .kalloc, .vm (.create 32752)]

/-- It executes an empty program with one argument. -/
theorem kexec_returns_first : ∃ s r, UserRun sixteenPageImage s ∧ (s.spaces 0).isSome = true ∧
    kexec sixteenPageImage s 0 32752 emptyElf [[0x61]] (fun _ => 0) = .ok r := by
  have hrun : (((bootState sixteenPageImage).bind (applyOps sixteenPageImage firstSpaceOps)).any
      fun s => decide (32752 ∈ s.held) && (s.spaces 0).isSome) = true := by
    decide +kernel
  obtain ⟨s, hs, hcheck⟩ := (Option.any_eq_true _ _).mp hrun
  obtain ⟨s0, hboot, hs⟩ := Option.bind_eq_some_iff.mp hs
  simp only [Bool.and_eq_true, decide_eq_true_eq] at hcheck
  have hr : UserRun sixteenPageImage s := (UserRun.bootState hboot).applyOps hs
  obtain ⟨⟨r, hexec⟩, -⟩ : (∃ r, kexec sixteenPageImage s 0 32752 emptyElf [[0x61]] (fun _ => 0) =
      .ok r) ∧ PageLoopsEnd sixteenPageImage := kexec_returns hr hcheck.1 emptyElf (by decide) _
  exact ⟨s, r, hr, hcheck.2, hexec⟩

end YHsys.Kernel
