import YHsys.Cpu.MmuHistory
import YHsys.Kernel.VmRuns

/-!
# The MMU under the kernel's page tables

`MAKE_SATP` sets bit 31 of `satp`; `mmu.v` takes bits 31 and 30 for the mode and turns
paging on at `01`. With the value the kernel writes it is off: the tables are not read, and
the last cycle of a request judges it by what is left in `pte0`.
-/

namespace YHsys.Cpu

open Kernel (Machine Mem rd32 pgsize pgrounddown walk walkaddr pte2pa)

/-- `MAKE_SATP` (`riscv.h:215`). -/
def makeSatp (pagetable : ℕ) : BitVec 32 := (1#32 <<< 31) ||| (BitVec.ofNat 32 pagetable >>> 12)

/-- The memory at the port of the page tables. -/
def ptPort (mem : Mem) (a : BitVec 32) : BitVec 32 := BitVec.ofNat 32 (rd32 mem a.toNat)

/-- A U-mode request while the table at `pagetable` is in `satp`. -/
def userRequest (pagetable : ℕ) (va : BitVec 32) (a : Access) (m : Machine) : Request :=
  ⟨va, a, privU, makeSatp pagetable, ptPort m.mem⟩

/-! ## What the kernel's tables grant -/

/-- The flag an access needs. -/
def Access.flag : Access → ℕ
  | .fetch => Kernel.pteX
  | .load => Kernel.pteR
  | .store => Kernel.pteW

/-- The leaf entry that grants a U-mode access. -/
def granted (pagetable va : ℕ) (a : Access) (m : Machine) : Option ℕ :=
  match walk pagetable va false m with
  | .ok (some pte, _) =>
    let e := rd32 m.mem pte
    if e &&& Kernel.pteV ≠ 0 ∧ e &&& Kernel.pteU ≠ 0 ∧ e &&& a.flag ≠ 0 then some e else none
  | _ => none

/-- Where the kernel's tables map a U-mode access. -/
def kernelAddr (pagetable va : ℕ) (a : Access) (m : Machine) : Option ℕ :=
  (granted pagetable va a m).map fun e => pte2pa e + va % pgsize

/-- The address of a result without fault. -/
def Outcome.addr (o : Outcome) : Option ℕ := if o.fault then none else some o.pa.toNat

/-- The outputs are those the kernel's tables ask for. -/
def Agrees (pagetable : ℕ) (va : BitVec 32) (a : Access) (m : Machine) (out : Mmu) : Prop :=
  out.ready = true ∧
    match granted pagetable va.toNat a m with
    | some _ => out.fault = false ∧ ∃ page,
      walkaddr pagetable (pgrounddown va.toNat) m = .ok (page, m) ∧
        out.pa.toNat = page + va.toNat % pgsize
    | none => out.fault = true

theorem walk_pgrounddown (pagetable : ℕ) {va : ℕ} (hva : va < Kernel.maxva) (m : Machine) :
    walk pagetable (pgrounddown va) false m = walk pagetable va false m := by
  have hle : pgrounddown va ≤ va := Nat.div_mul_le_self va pgsize
  have hdiv : pgrounddown va / 4096 = va / 4096 := Nat.mul_div_cancel _ (by decide)
  have hpx0 : Kernel.px 0 (pgrounddown va) = Kernel.px 0 va := by
    rw [Kernel.px_zero, Kernel.px_zero, hdiv]
  have hpx1 : Kernel.px 1 (pgrounddown va) = Kernel.px 1 va := by
    rw [Kernel.px_one hva, Kernel.px_one (hle.trans_lt hva), hdiv]
  unfold walk
  rw [if_neg (Nat.not_le.mpr hva), if_neg (Nat.not_le.mpr (hle.trans_lt hva)), hpx0, hpx1]

theorem toNat_lt_maxva (va : BitVec 32) : va.toNat < Kernel.maxva := va.isLt

theorem walk_false_machine {pagetable va : ℕ} {m m' : Machine} {pte : Option ℕ}
    (h : walk pagetable va false m = .ok (pte, m')) : m' = m := by
  unfold walk at h
  split at h
  · cases h
  · simp only at h
    split at h
    · cases h
      rfl
    · cases h
      rfl

theorem walkaddr_of_granted {pagetable e : ℕ} {va : BitVec 32} {a : Access} {m : Machine}
    (h : granted pagetable va.toNat a m = some e) :
    walkaddr pagetable (pgrounddown va.toNat) m = .ok (pte2pa e, m) := by
  have hva := toNat_lt_maxva va
  have hpage : pgrounddown va.toNat < Kernel.maxva :=
    (Nat.div_mul_le_self va.toNat pgsize).trans_lt hva
  unfold granted at h
  split at h
  · rename_i pte m' hwalk
    obtain rfl := walk_false_machine hwalk
    simp only [Option.ite_none_right_eq_some, Option.some.injEq] at h
    obtain ⟨⟨hv, hu, -⟩, rfl⟩ := h
    rw [walkaddr, if_neg (Nat.not_le.mpr hpage), walk_pgrounddown _ hva, hwalk]
    simp [hv, hu]
  · cases h

theorem agrees_iff {pagetable : ℕ} {va : BitVec 32} {a : Access} {m : Machine} {out : Mmu}
    (hready : out.ready = true) :
    Agrees pagetable va a m out ↔ out.outcome.addr = kernelAddr pagetable va.toNat a m := by
  unfold Agrees kernelAddr Outcome.addr Mmu.outcome
  cases hg : granted pagetable va.toNat a m with
  | none => simp [hready]
  | some e =>
    have hwalk := walkaddr_of_granted hg
    simp [hready, hwalk]

/-! ## What the MMU does -/

theorem makeSatp_disabled {r : Request} {pagetable : ℕ} (h : r.satp = makeSatp pagetable) :
    r.enabled = false := by
  refine Bool.eq_false_iff.mpr fun hen => ?_
  have hmode : r.satp.extractLsb' 30 2 = 0b01#2 := eq_of_beq hen
  have hbit := congrArg (fun x => x.getLsbD 1) hmode
  simp [h, makeSatp] at hbit

/-- Where a leftover entry maps a U-mode access. -/
def leftoverAddr (pte0 va : BitVec 32) (a : Access) : Option ℕ :=
  let allowed := match a with
    | .fetch => pteX pte0
    | .load => pteR pte0
    | .store => pteW pte0
  if pteV pte0 && allowed && pteU pte0 then some (leafAddr pte0 va).toNat else none

theorem translated_addr (pagetable : ℕ) (va : BitVec 32) (a : Access) (m : Machine)
    (pte0 pa : BitVec 32) :
    ((userRequest pagetable va a m).translated pte0 pa).addr = leftoverAddr pte0 va a := by
  unfold leftoverAddr Request.translated Outcome.addr
  cases hv : pteV pte0 with
  | false => simp
  | true =>
    cases a <;> cases hx : pteX pte0 <;> cases hr : pteR pte0 <;> cases hw : pteW pte0 <;>
      cases hu : pteU pte0 <;> simp [MmuIn.denied, Request.wires, userRequest, hx, hr, hw, hu]

theorem userRequest_cycles {M : Mmu} (hM : M.state = .idle) (pagetable : ℕ) (va : BitVec 32)
    (a : Access) (m : Machine) (b1 b2 : Bool) :
    let r := userRequest pagetable va a m
    (M.cycle r b1).ready = true ∧ (M.cycle r b1).outcome = ⟨va, false, 0⟩ ∧
      ((M.cycle r b1).cycle r b2).state = .idle ∧ ((M.cycle r b1).cycle r b2).ready = true ∧
      ((M.cycle r b1).cycle r b2).outcome = r.translated M.pte0 va := by
  intro r
  rw [Mmu.cycle_idle_off b1 hM (makeSatp_disabled rfl)]
  obtain ⟨hidle, hready, hout, -⟩ := Mmu.cycle_translate (r := r) b2
    (m := { M with state := .translate, ready := true, fault := false, cause := 0, pa := va })
    rfl rfl rfl
  exact ⟨rfl, rfl, hidle, hready, hout⟩

/-- A table that maps one page, readable in U-mode, at `0x1000`. -/
def onePageTable : Option (ℕ × Machine) :=
  (Kernel.bootState Kernel.sixteenPageImage).bind fun s =>
    let (pagetable, m) := Kernel.uvmcreate s.machine
    match Kernel.mappages pagetable 0x1000 pgsize (Kernel.idx2pa 32760)
      (Kernel.pteR ||| Kernel.pteU) m with
    | .ok (true, m) => some (pagetable, m)
    | _ => none

theorem leftoverAddr_zero (va : BitVec 32) (a : Access) : leftoverAddr 0 va a = none := by
  simp [leftoverAddr, pteV]

end YHsys.Cpu
