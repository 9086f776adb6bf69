import Mathlib
import YHsys.Kernel.KallocInv

/-!
# Physical memory and page-table entries

The bytes of RAM, the word and block accesses the kernel makes to them, and the
Sv32 page-table entry macros of `riscv.h`. `Machine` is what the address-space
code works on: the allocator's globals, the bytes of RAM, and which calls of
`kalloc` are made to fail.

A free page's bytes carry no information here: the free lists, which the source
threads through the first word of each free page, are part of `Kmem`.
-/

namespace YHsys.Kernel

/-! ## Bytes -/

/-- The bytes of physical memory. -/
abbrev Mem := ℕ → UInt8

/-- The little-endian word at `a`. -/
def rd32 (mem : Mem) (a : ℕ) : ℕ :=
  (mem a).toNat + 2 ^ 8 * ((mem (a + 1)).toNat + 2 ^ 8 * ((mem (a + 2)).toNat
    + 2 ^ 8 * (mem (a + 3)).toNat))

/-- Store the word `w` at `a`, low byte first. -/
def wr32 (mem : Mem) (a w : ℕ) : Mem := fun x =>
  if x = a then UInt8.ofNat w
  else if x = a + 1 then UInt8.ofNat (w / 2 ^ 8)
  else if x = a + 2 then UInt8.ofNat (w / 2 ^ 16)
  else if x = a + 3 then UInt8.ofNat (w / 2 ^ 24)
  else mem x

/-- Fill `n` bytes from `dst` on with `c`. -/
def memset (mem : Mem) (dst : ℕ) (c : UInt8) (n : ℕ) : Mem := fun x =>
  if dst ≤ x ∧ x < dst + n then c else mem x

/-- Copy `n` bytes from `src` to `dst`. -/
def memmove (mem : Mem) (dst src n : ℕ) : Mem := fun x =>
  if dst ≤ x ∧ x < dst + n then mem (src + (x - dst)) else mem x

/-- Copy the bytes `bs` of a kernel buffer to `dst`. -/
def storeBytes (mem : Mem) (dst : ℕ) (bs : List UInt8) : Mem := fun x =>
  if dst ≤ x then (bs[x - dst]?).getD (mem x) else mem x

theorem rd32_congr {mem mem' : Mem} {a : ℕ}
    (h : ∀ x, a ≤ x → x < a + 4 → mem x = mem' x) : rd32 mem a = rd32 mem' a := by
  unfold rd32
  rw [h a (by omega) (by omega), h (a + 1) (by omega) (by omega), h (a + 2) (by omega) (by omega),
    h (a + 3) (by omega) (by omega)]

theorem rd32_wr32 (mem : Mem) (a : ℕ) {w : ℕ} (hw : w < 2 ^ 32) :
    rd32 (wr32 mem a w) a = w := by
  simp [rd32, wr32]
  omega

theorem wr32_of_disjoint (mem : Mem) (w : ℕ) {a x : ℕ} (h : x < a ∨ a + 4 ≤ x) :
    wr32 mem a w x = mem x := by
  simp only [wr32]
  rw [if_neg (by omega), if_neg (by omega), if_neg (by omega), if_neg (by omega)]

theorem wr32_wr32 (mem : Mem) (a w w' : ℕ) : wr32 (wr32 mem a w) a w' = wr32 mem a w' := by
  funext x
  unfold wr32
  split_ifs <;> rfl

theorem wr32_rd32 (mem : Mem) (a : ℕ) : wr32 mem a (rd32 mem a) = mem := by
  have h0 := (mem a).toNat_lt
  have h1 := (mem (a + 1)).toNat_lt
  have h2 := (mem (a + 2)).toNat_lt
  have h3 := (mem (a + 3)).toNat_lt
  funext x
  unfold wr32 rd32
  split_ifs with e0 e1 e2 e3
  · subst e0
    refine UInt8.toNat_inj.mp ?_
    rw [UInt8.toNat_ofNat']
    omega
  · subst e1
    refine UInt8.toNat_inj.mp ?_
    rw [UInt8.toNat_ofNat']
    omega
  · subst e2
    refine UInt8.toNat_inj.mp ?_
    rw [UInt8.toNat_ofNat']
    omega
  · subst e3
    refine UInt8.toNat_inj.mp ?_
    rw [UInt8.toNat_ofNat']
    omega
  · rfl

theorem rd32_memset_zero (mem : Mem) {dst a n : ℕ} (h : dst ≤ a) (h' : a + 4 ≤ dst + n) :
    rd32 (memset mem dst 0 n) a = 0 := by
  simp only [rd32, memset]
  rw [if_pos ⟨h, by omega⟩, if_pos ⟨by omega, by omega⟩, if_pos ⟨by omega, by omega⟩,
    if_pos ⟨by omega, by omega⟩]
  rfl

/-! ## Pages -/

/-- The contents of the page with index `p`. -/
def pageBytes (mem : Mem) (p : ℕ) : ℕ → UInt8 := fun off =>
  if off < pgsize then mem (idx2pa p + off) else 0

theorem pageBytes_apply (mem : Mem) (p : ℕ) {off : ℕ} (h : off < pgsize) :
    pageBytes mem p off = mem (idx2pa p + off) := if_pos h

/-- Every page outside `S` has the same bytes in both memories. -/
def SameOutside (S : Set ℕ) (mem mem' : Mem) : Prop :=
  ∀ p, p ∉ S → pageBytes mem p = pageBytes mem' p

namespace SameOutside

variable {S T : Set ℕ} {mem mem' mem'' : Mem}

theorem refl (S : Set ℕ) (mem : Mem) : SameOutside S mem mem := fun _ _ => rfl

theorem mono (h : SameOutside S mem mem') (hST : S ⊆ T) : SameOutside T mem mem' :=
  fun p hp => h p fun hS => hp (hST hS)

theorem trans (h : SameOutside S mem mem') (h' : SameOutside S mem' mem'') :
    SameOutside S mem mem'' := fun p hp => (h p hp).trans (h' p hp)

theorem of_range {p : ℕ} (lo hi : ℕ) (hlo : idx2pa p ≤ lo) (hhi : hi ≤ idx2pa p + pgsize)
    (h : ∀ x, x < lo ∨ hi ≤ x → mem' x = mem x) : SameOutside {p} mem mem' := by
  intro q hq
  have hqp : q ≠ p := fun h => hq h
  funext off
  unfold pageBytes
  split_ifs with hoff
  · refine (h _ ?_).symm
    simp only [idx2pa, pgsize_eq] at hlo hhi hoff ⊢
    omega
  · rfl

theorem memset (mem : Mem) (p : ℕ) (c : UInt8) :
    SameOutside {p} mem (memset mem (idx2pa p) c pgsize) :=
  of_range _ _ (Nat.le_refl _) (Nat.le_refl _) fun x hx => if_neg (by omega)

theorem memmove (mem : Mem) (p src : ℕ) :
    SameOutside {p} mem (memmove mem (idx2pa p) src pgsize) :=
  of_range _ _ (Nat.le_refl _) (Nat.le_refl _) fun x hx => if_neg (by omega)

theorem wr32 (mem : Mem) (p w : ℕ) {i : ℕ} (hi : i < 1024) :
    SameOutside {p} mem (wr32 mem (idx2pa p + 4 * i) w) :=
  of_range (idx2pa p + 4 * i) (idx2pa p + 4 * i + 4) (Nat.le_add_right _ _)
    (by rw [pgsize_eq]; omega) fun x hx => wr32_of_disjoint mem w hx

theorem storeBytes (mem : Mem) (p : ℕ) {off : ℕ} {bs : List UInt8}
    (h : off + bs.length ≤ pgsize) :
    SameOutside {p} mem (storeBytes mem (idx2pa p + off) bs) := by
  refine of_range (idx2pa p + off) (idx2pa p + off + bs.length)
    (Nat.le_add_right _ _) (by omega) fun x hx => ?_
  unfold Kernel.storeBytes
  split_ifs with hle
  · rw [List.getElem?_eq_none (by omega)]
    rfl
  · rfl

theorem rd32_eq (h : SameOutside S mem mem') {p i : ℕ} (hp : p ∉ S) (hi : i < 1024) :
    rd32 mem (idx2pa p + 4 * i) = rd32 mem' (idx2pa p + 4 * i) := by
  refine rd32_congr fun x hlo hhi => ?_
  have hoff : x - idx2pa p < pgsize := by rw [pgsize_eq]; omega
  have := congrFun (h p hp) (x - idx2pa p)
  rwa [pageBytes_apply _ _ hoff, pageBytes_apply _ _ hoff,
    Nat.add_sub_cancel' (by omega)] at this

end SameOutside

/-! ## Page-table entries -/

/-- `PTE_V`, `PTE_R`, `PTE_W`, `PTE_X`, `PTE_U`, `PTE_COW` (`riscv.h:333`). -/
def pteV : ℕ := 1 <<< 0
def pteR : ℕ := 1 <<< 1
def pteW : ℕ := 1 <<< 2
def pteX : ℕ := 1 <<< 3
def pteU : ℕ := 1 <<< 4
def pteCOW : ℕ := 1 <<< 8

/-- `PA2PTE`. -/
def pa2pte (pa : ℕ) : ℕ := (pa >>> 12) <<< 10

/-- `PTE2PA`; the shift to the left drops what leaves 32 bits. -/
def pte2pa (pte : ℕ) : ℕ := ((pte >>> 10) <<< 12) % 2 ^ 32

/-- `PTE_FLAGS`. -/
def pteFlags (pte : ℕ) : ℕ := pte &&& 0x3FF

/-- `PX`: the index of `va` in the table of a level. -/
def px (level va : ℕ) : ℕ := (va >>> (12 + 10 * level)) &&& 0x3FF

/-- Complement of a 32-bit word. -/
def not32 (x : ℕ) : ℕ := 2 ^ 32 - (x + 1)

theorem px_zero (va : ℕ) : px 0 va = va / 4096 % 1024 := by
  simp only [px, Nat.shiftRight_eq_div_pow, show 0x3FF = 2 ^ 10 - 1 from rfl,
    Nat.and_two_pow_sub_one_eq_mod]

theorem px_one {va : ℕ} (h : va < maxva) : px 1 va = va / 4096 / 1024 := by
  rw [maxva_eq] at h
  simp only [px, Nat.shiftRight_eq_div_pow, show 0x3FF = 2 ^ 10 - 1 from rfl,
    Nat.and_two_pow_sub_one_eq_mod]
  norm_num
  omega

theorem testBit_not32 {x : ℕ} (hx : x < 2 ^ 32) (i : ℕ) :
    (not32 x).testBit i = (decide (i < 32) && !x.testBit i) :=
  Nat.testBit_two_pow_sub_succ hx i

theorem and_shift_eq_zero (x i : ℕ) : x &&& (1 <<< i) = 0 ↔ x.testBit i = false := by
  rw [Nat.one_shiftLeft, Nat.and_two_pow]
  cases x.testBit i <;> simp

theorem and_shift_ne_zero (x i : ℕ) : x &&& (1 <<< i) ≠ 0 ↔ x.testBit i = true := by
  rw [Ne, and_shift_eq_zero, Bool.not_eq_false]

theorem and_rwx_eq_zero (x : ℕ) :
    x &&& (pteR ||| pteW ||| pteX) = 0 ↔
      x.testBit 1 = false ∧ x.testBit 2 = false ∧ x.testBit 3 = false := by
  rw [Nat.and_or_distrib_left, Nat.and_or_distrib_left, Nat.or_eq_zero_iff, Nat.or_eq_zero_iff,
    pteR, pteW, pteX, and_shift_eq_zero, and_shift_eq_zero, and_shift_eq_zero, and_assoc]

/-- A valid leaf entry: the page it maps and its flag bits. -/
structure Leaf where
  pa : ℕ
  flags : ℕ
  aligned : pa % pgsize = 0
  pa_lt : pa < 2 ^ 32
  flags_lt : flags < 2 ^ 10
  valid : flags.testBit 0 = true

namespace Leaf

variable (l : Leaf)

/-- The word that stands for the entry in a table. -/
def pte : ℕ := pa2pte l.pa ||| l.flags

theorem pa2pte_eq (pa : ℕ) : pa2pte pa = (pa / 4096) * 1024 := by
  simp only [pa2pte, Nat.shiftRight_eq_div_pow, Nat.shiftLeft_eq]

theorem pa2pte_or {pa fl : ℕ} (hfl : fl < 2 ^ 10) :
    pa2pte pa ||| fl = (pa / 4096) * 1024 + fl := by
  rw [pa2pte, ← Nat.shiftLeft_add_eq_or_of_lt hfl, ← pa2pte, pa2pte_eq]

theorem pte_eq : l.pte = (l.pa / 4096) * 1024 + l.flags := pa2pte_or l.flags_lt

theorem pte_lt : l.pte < 2 ^ 32 := by
  have := l.pa_lt
  have := l.flags_lt
  rw [pte_eq]
  omega

@[simp] theorem pte2pa_pte : pte2pa l.pte = l.pa := by
  have h1 := l.pa_lt
  have h2 := l.flags_lt
  have h3 := l.aligned
  rw [pgsize_eq] at h3
  rw [pte_eq, pte2pa, Nat.shiftRight_eq_div_pow, Nat.shiftLeft_eq]
  omega

@[simp] theorem pteFlags_pte : pteFlags l.pte = l.flags := by
  have h2 := l.flags_lt
  rw [pte_eq, pteFlags, show 0x3FF = 2 ^ 10 - 1 from rfl, Nat.and_two_pow_sub_one_eq_mod]
  omega

@[simp] theorem testBit_pte {i : ℕ} (hi : i < 10) : l.pte.testBit i = l.flags.testBit i := by
  have := congrArg (Nat.testBit · i) l.pteFlags_pte
  rw [← this, pteFlags]
  simp only [Nat.testBit_and, show 0x3FF = 2 ^ 10 - 1 from rfl, Nat.testBit_two_pow_sub_one]
  simp [hi]

/-- The entry with more flags set. -/
def orFlags (x : ℕ) (hx : x < 2 ^ 10) : Leaf where
  pa := l.pa
  flags := l.flags ||| x
  aligned := l.aligned
  pa_lt := l.pa_lt
  flags_lt := Nat.or_lt_two_pow l.flags_lt hx
  valid := by rw [Nat.testBit_or, l.valid, Bool.true_or]

/-- The entry with some flags other than `PTE_V` cleared. -/
def clearFlags (x : ℕ) (hx : x < 2 ^ 10) (hv : x.testBit 0 = false) : Leaf where
  pa := l.pa
  flags := l.flags &&& not32 x
  aligned := l.aligned
  pa_lt := l.pa_lt
  flags_lt := Nat.lt_of_le_of_lt Nat.and_le_left l.flags_lt
  valid := by
    rw [Nat.testBit_and, l.valid, testBit_not32 (hx.trans (by decide)), hv]
    decide

/-- The same flags for another page. -/
def withPa (pa : ℕ) (ha : pa % pgsize = 0) (hlt : pa < 2 ^ 32) : Leaf where
  pa := pa
  flags := l.flags
  aligned := ha
  pa_lt := hlt
  flags_lt := l.flags_lt
  valid := l.valid

theorem orFlags_pte (x : ℕ) (hx : x < 2 ^ 10) : (l.orFlags x hx).pte = l.pte ||| x :=
  (Nat.or_assoc _ _ _).symm

theorem clearFlags_pte (x : ℕ) (hx : x < 2 ^ 10) (hv : x.testBit 0 = false) :
    (l.clearFlags x hx hv).pte = l.pte &&& not32 x := by
  have hkeep : pa2pte l.pa &&& not32 x = pa2pte l.pa := by
    refine Nat.eq_of_testBit_eq fun i => ?_
    rw [Nat.testBit_and, testBit_not32 (hx.trans (by decide))]
    by_cases hi : i < 10
    · rw [show (pa2pte l.pa).testBit i = false by simp [pa2pte, hi]]
      rfl
    · rw [Nat.testBit_lt_two_pow (hx.trans_le (Nat.pow_le_pow_right (by decide) (by omega)))]
      by_cases hi' : i < 32
      · simp [hi']
      · have hlt : pa2pte l.pa < 2 ^ i := by
          have h1 := l.pa_lt
          rw [pa2pte_eq]
          exact Nat.lt_of_lt_of_le (by omega) (Nat.pow_le_pow_right (by decide) (by omega : 32 ≤ i))
        rw [Nat.testBit_lt_two_pow hlt]
        rfl
  rw [pte, pte, Nat.and_or_distrib_right, hkeep]
  rfl

end Leaf

/-! ## The machine -/

/-- What the address-space code works on. `failing n` says whether the `n`-th
call of `kalloc` since boot is made to fail, for whatever reason the rest of the
kernel has; `calls` counts them. -/
structure Machine where
  kmem : Kmem
  mem : Mem
  failing : ℕ → Bool
  calls : ℕ

namespace Machine

/-- `kalloc` with the junk bytes it leaves in the page (`kalloc.c:231`). -/
def kalloc (m : Machine) : Option ℕ × Machine :=
  if m.failing m.calls then (none, { m with calls := m.calls + 1 })
  else
    match Kernel.kalloc m.kmem with
    | (none, k) => (none, { m with kmem := k, calls := m.calls + 1 })
    | (some r, k) =>
      (some r, { m with
        kmem := k
        mem := Kernel.memset m.mem r 5 pgsize
        calls := m.calls + 1 })

/-- `kfree` with the junk bytes it leaves in a page whose last reference is
dropped (`kalloc.c:202`). -/
def kfree (img : KernelImage) (pa : ℕ) (m : Machine) : Except Panic Machine := do
  let k ← Kernel.kfree img pa m.kmem
  if k.refcnt (pa2idx pa) = 0 then
    .ok { m with kmem := k, mem := Kernel.memset m.mem pa 1 pgsize }
  else .ok { m with kmem := k }

/-- `kaddref`. -/
def kaddref (pa : ℕ) (m : Machine) : Except Panic Machine := do
  let k ← Kernel.kaddref pa m.kmem
  .ok { m with kmem := k }

/-- Store a word. -/
def wr32 (a w : ℕ) (m : Machine) : Machine := { m with mem := Kernel.wr32 m.mem a w }

/-- Fill a page. -/
def memset (pa : ℕ) (c : UInt8) (m : Machine) : Machine :=
  { m with mem := Kernel.memset m.mem pa c pgsize }

/-- Copy a page. -/
def memmove (dst src : ℕ) (m : Machine) : Machine :=
  { m with mem := Kernel.memmove m.mem dst src pgsize }

/-- Copy a kernel buffer. -/
def storeBytes (dst : ℕ) (bs : List UInt8) (m : Machine) : Machine :=
  { m with mem := Kernel.storeBytes m.mem dst bs }

theorem kfree_wr32 {img : KernelImage} {m : Machine} {p t i w : ℕ} (hpt : p ≠ t) (hi : i < 1024) :
    (m.wr32 (idx2pa t + 4 * i) w).kfree img (idx2pa p) =
      (m.kfree img (idx2pa p) >>= fun m => .ok (m.wr32 (idx2pa t + 4 * i) w)) := by
  have hcomm : Kernel.memset (Kernel.wr32 m.mem (idx2pa t + 4 * i) w) (idx2pa p) 1 pgsize =
      Kernel.wr32 (Kernel.memset m.mem (idx2pa p) 1 pgsize) (idx2pa t + 4 * i) w := by
    funext x
    by_cases hx : idx2pa p ≤ x ∧ x < idx2pa p + pgsize
    · have hout : x < idx2pa t + 4 * i ∨ idx2pa t + 4 * i + 4 ≤ x := by
        simp only [idx2pa, pgsize_eq] at *
        omega
      rw [wr32_of_disjoint _ _ hout, Kernel.memset, Kernel.memset, if_pos hx, if_pos hx]
    · simp only [Kernel.memset, if_neg hx, Kernel.wr32]
  unfold kfree
  show (Kernel.kfree img (idx2pa p) m.kmem >>= _) = _
  cases Kernel.kfree img (idx2pa p) m.kmem with
  | error e => rfl
  | ok k =>
    simp only [Except.ok_bind]
    split_ifs
    · simp only [Except.ok_bind, Machine.wr32, hcomm]
    · rfl

end Machine

end YHsys.Kernel
