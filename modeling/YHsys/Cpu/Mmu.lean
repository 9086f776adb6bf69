import Mathlib.Data.BitVec

/-!
# The MMU of the core (`mmu.v`)

The module as its two clocked blocks and its next-state logic compute it: registers change
together at a clock edge, from the registers and wires before it. A word that is wider than
the register it is assigned to loses its high bits.

A request holds its wires from an idle state until the module is idle again. The memory
answers `pt_raddr` with the word stored there; how long `pt_ready` stays low is left open.
-/

namespace YHsys.Cpu

/-- `current_state`. -/
inductive MmuState where
  | idle
  | readPte1
  | checkPte1
  | readPte0
  | checkPte0
  | translate
  | fault
deriving DecidableEq, Repr

/-- The input wires. -/
structure MmuIn where
  va : BitVec 32
  instEn : Bool
  loadEn : Bool
  storeEn : Bool
  privMode : BitVec 2
  ptRdata : BitVec 32
  ptReady : Bool
  satp : BitVec 32
deriving DecidableEq, Repr

/-- The registers, `pa`, `mmu_ready`, `mmu_fault` and `fault_cause` being outputs. -/
structure Mmu where
  state : MmuState
  pa : BitVec 32
  ptRaddr : BitVec 32
  ready : Bool
  fault : Bool
  cause : BitVec 4
  pte1 : BitVec 32
  pte0 : BitVec 32
deriving DecidableEq, Repr

/-! ## Fields of words -/

/-- `PTE_V`, `PTE_R`, `PTE_W`, `PTE_X`, `PTE_U` (`mmu.v:41`). -/
def pteV (e : BitVec 32) : Bool := e.getLsbD 0
def pteR (e : BitVec 32) : Bool := e.getLsbD 1
def pteW (e : BitVec 32) : Bool := e.getLsbD 2
def pteX (e : BitVec 32) : Bool := e.getLsbD 3
def pteU (e : BitVec 32) : Bool := e.getLsbD 4

/-- `{ppn, 12'b0} + {vpn, 2'b0}`. -/
def pteAddr (ppn : BitVec 22) (vpn : BitVec 10) : BitVec 32 :=
  ((ppn ++ 0#12 : BitVec 34) + (vpn ++ 0#2 : BitVec 12).setWidth 34).setWidth 32

/-- `{pte0[31:10], va_offset}`. -/
def leafAddr (pte va : BitVec 32) : BitVec 32 :=
  (pte.extractLsb' 10 22 ++ va.extractLsb' 0 12 : BitVec 34).setWidth 32

/-- The causes of `mmu.v:49`. -/
def causeInstrPageFault : BitVec 4 := 1
def causeLoadPageFault : BitVec 4 := 2
def causeStorePageFault : BitVec 4 := 3
def causePermFault : BitVec 4 := 4

def privU : BitVec 2 := 0

namespace MmuIn

variable (i : MmuIn)

def vpn1 : BitVec 10 := i.va.extractLsb' 22 10

def vpn0 : BitVec 10 := i.va.extractLsb' 12 10

/-- `mmu_enable` (`mmu.v:93`). -/
def mmuEnable : Bool := i.satp.extractLsb' 30 2 == 0b01#2

def satpPpn : BitVec 22 := i.satp.extractLsb' 0 22

/-- A request is there. -/
def active : Bool := i.instEn || i.loadEn || i.storeEn

/-- The permission check on a valid entry. -/
def denied (pte : BitVec 32) : Bool :=
  if i.instEn && !pteX pte then true
  else if i.loadEn && !pteR pte then true
  else if i.storeEn && !pteW pte then true
  else if i.privMode == privU && !pteU pte then true
  else false

def pageFaultCause : BitVec 4 :=
  if i.instEn then causeInstrPageFault
  else if i.loadEn then causeLoadPageFault
  else causeStorePageFault

end MmuIn

/-! ## A clock edge -/

namespace Mmu

variable (m : Mmu)

/-- The values under `rst_n`. -/
def reset : Mmu where
  state := .idle
  pa := 0
  ptRaddr := 0
  ready := false
  fault := false
  cause := 0
  pte1 := 0
  pte0 := 0

/-- The next-state logic (`mmu.v:105`). -/
def nextState (i : MmuIn) : MmuState :=
  match m.state with
  | .idle =>
    if i.active && i.mmuEnable then .readPte1
    else if i.active && !i.mmuEnable then .translate
    else .idle
  | .readPte1 => if i.ptReady then .checkPte1 else .readPte1
  | .checkPte1 =>
    if !pteV i.ptRdata then .fault
    else if pteR i.ptRdata || pteX i.ptRdata then .translate
    else .readPte0
  | .readPte0 => if i.ptReady then .checkPte0 else .readPte0
  | .checkPte0 => if !pteV i.ptRdata then .fault else .translate
  | .translate => .idle
  | .fault => .idle

/-- The registers of the second clocked block (`mmu.v:147`). -/
def data (i : MmuIn) : Mmu :=
  match m.state with
  | .idle =>
    let m := { m with ready := false, fault := false, cause := 0 }
    if !i.mmuEnable && i.active then { m with pa := i.va, ready := true } else m
  | .readPte1 => { m with ptRaddr := pteAddr i.satpPpn i.vpn1 }
  | .checkPte1 => { m with pte1 := i.ptRdata }
  | .readPte0 => { m with ptRaddr := pteAddr (m.pte1.extractLsb' 10 22) i.vpn0 }
  | .checkPte0 => { m with pte0 := i.ptRdata }
  | .translate =>
    let m := { m with ready := true }
    if pteV m.pte0 then
      let m := { m with pa := leafAddr m.pte0 i.va }
      if i.denied m.pte0 then { m with fault := true, cause := causePermFault } else m
    else { m with fault := true, cause := i.pageFaultCause }
  | .fault => { m with ready := true, fault := true }

/-- One cycle. -/
def clock (i : MmuIn) : Mmu := { m.data i with state := m.nextState i }

end Mmu

/-! ## Requests -/

inductive Access where
  | fetch
  | load
  | store
deriving DecidableEq, Repr

/-- A request, and the memory that holds the page table. -/
structure Request where
  va : BitVec 32
  access : Access
  priv : BitVec 2
  satp : BitVec 32
  mem : BitVec 32 → BitVec 32

namespace Request

variable (r : Request)

/-- The wires during the request. -/
def wires (ptRaddr : BitVec 32) (ptReady : Bool) : MmuIn where
  va := r.va
  instEn := r.access = .fetch
  loadEn := r.access = .load
  storeEn := r.access = .store
  privMode := r.priv
  ptRdata := r.mem ptRaddr
  ptReady := ptReady
  satp := r.satp

@[simp] theorem wires_active (a : BitVec 32) (b : Bool) : (r.wires a b).active = true := by
  unfold wires MmuIn.active
  cases r.access <;> rfl

end Request

/-- One cycle of the request. -/
def Mmu.cycle (m : Mmu) (r : Request) (ptReady : Bool) : Mmu :=
  m.clock (r.wires m.ptRaddr ptReady)

/-- The cycles until the module is idle again. -/
inductive Busy (r : Request) : Mmu → Mmu → Prop where
  | done {m : Mmu} (h : m.state = .idle) : Busy r m m
  | cycle {m m' : Mmu} (h : m.state ≠ .idle) (ptReady : Bool)
      (hb : Busy r (m.cycle r ptReady) m') : Busy r m m'

/-- The request is made in `m`, which is idle, and ends in `m'`. -/
def Serves (r : Request) (m m' : Mmu) : Prop :=
  m.state = .idle ∧ ∃ ptReady, Busy r (m.cycle r ptReady) m'

/-! ## What a request returns -/

/-- What the core sees of a translation. -/
structure Outcome where
  pa : BitVec 32
  fault : Bool
  cause : BitVec 4
deriving DecidableEq, Repr

def Mmu.outcome (m : Mmu) : Outcome := ⟨m.pa, m.fault, m.cause⟩

namespace Request

variable (r : Request)

/-- The first-level entry of the request. -/
def pte1 : BitVec 32 := r.mem (pteAddr (r.satp.extractLsb' 0 22) (r.va.extractLsb' 22 10))

/-- The second-level entry, where the first-level entry points to a table. -/
def pte0 : BitVec 32 := r.mem (pteAddr (r.pte1.extractLsb' 10 22) (r.va.extractLsb' 12 10))

def enabled : Bool := r.satp.extractLsb' 30 2 == 0b01#2

/-- The first-level entry points to a table. -/
def pointer : Bool := pteV r.pte1 && !(pteR r.pte1 || pteX r.pte1)

/-- The state `TRANSLATE` with `pte` in `pte0` and `pa` in `pa`. -/
def translated (pte pa : BitVec 32) : Outcome :=
  let i := r.wires 0 false
  if pteV pte then
    if i.denied pte then ⟨leafAddr pte r.va, true, causePermFault⟩
    else ⟨leafAddr pte r.va, false, 0⟩
  else ⟨pa, true, i.pageFaultCause⟩

/-- The result of the request from the registers in `m`. -/
def outcome (m : Mmu) : Outcome :=
  if !r.enabled then r.translated m.pte0 r.va
  else if !pteV r.pte1 then ⟨m.pa, true, 0⟩
  else if pteR r.pte1 || pteX r.pte1 then r.translated m.pte0 m.pa
  else if !pteV r.pte0 then ⟨m.pa, true, 0⟩
  else r.translated r.pte0 m.pa

/-- What the request leaves in `pte0`. -/
def pte0After (m : Mmu) : BitVec 32 := if r.enabled && r.pointer then r.pte0 else m.pte0

end Request

open Request (outcome pointer pte0After)

/-! ## The cycles of a request, state by state -/

namespace Mmu

variable {m : Mmu} {r : Request} (b : Bool)

theorem cycle_idle_off (h : m.state = .idle) (hr : r.enabled = false) : m.cycle r b =
    { m with state := .translate, ready := true, fault := false, cause := 0, pa := r.va } := by
  have hen : (r.wires m.ptRaddr b).mmuEnable = false := hr
  simp only [cycle, clock, data, nextState, h, hen, r.wires_active, Bool.and_false, Bool.not_false,
    Bool.and_self, Bool.false_eq_true, if_false, if_true]
  rfl

theorem cycle_idle_on (h : m.state = .idle) (hr : r.enabled = true) : m.cycle r b =
    { m with state := .readPte1, ready := false, fault := false, cause := 0 } := by
  have hen : (r.wires m.ptRaddr b).mmuEnable = true := hr
  simp only [cycle, clock, data, nextState, h, hen, r.wires_active, Bool.and_self, Bool.not_true,
    Bool.false_and, Bool.false_eq_true, if_false, if_true]

theorem cycle_readPte1 (h : m.state = .readPte1) : m.cycle r b = { m with
    state := if b then .checkPte1 else .readPte1
    ptRaddr := pteAddr (r.satp.extractLsb' 0 22) (r.va.extractLsb' 22 10) } := by
  simp only [cycle, clock, data, nextState, h]
  rfl

theorem cycle_checkPte1 (h : m.state = .checkPte1) : m.cycle r b = { m with
    state := if !pteV (r.mem m.ptRaddr) then .fault
      else if pteR (r.mem m.ptRaddr) || pteX (r.mem m.ptRaddr) then .translate else .readPte0
    pte1 := r.mem m.ptRaddr } := by
  simp only [cycle, clock, data, nextState, h]
  rfl

theorem cycle_readPte0 (h : m.state = .readPte0) : m.cycle r b = { m with
    state := if b then .checkPte0 else .readPte0
    ptRaddr := pteAddr (m.pte1.extractLsb' 10 22) (r.va.extractLsb' 12 10) } := by
  simp only [cycle, clock, data, nextState, h]
  rfl

theorem cycle_checkPte0 (h : m.state = .checkPte0) : m.cycle r b = { m with
    state := if !pteV (r.mem m.ptRaddr) then .fault else .translate
    pte0 := r.mem m.ptRaddr } := by
  simp only [cycle, clock, data, nextState, h]
  rfl

theorem cycle_fault (h : m.state = .fault) :
    m.cycle r b = { m with state := .idle, ready := true, fault := true } := by
  simp only [cycle, clock, data, nextState, h]

theorem cycle_translate (h : m.state = .translate) (hfault : m.fault = false) (hcause : m.cause = 0) :
    (m.cycle r b).state = .idle ∧ (m.cycle r b).ready = true ∧
      (m.cycle r b).outcome = r.translated m.pte0 m.pa ∧ (m.cycle r b).pte0 = m.pte0 := by
  simp only [cycle, clock, data, nextState, h, outcome, Request.translated]
  have hdenied : (r.wires m.ptRaddr b).denied m.pte0 = (r.wires 0 false).denied m.pte0 := rfl
  rw [hdenied]
  split
  · split
    · exact ⟨trivial, rfl, rfl, rfl⟩
    · refine ⟨trivial, rfl, ?_, rfl⟩
      rw [hfault, hcause]
      rfl
  · exact ⟨trivial, rfl, rfl, rfl⟩

end Mmu

/-- The outputs and `pte0` while the tables are read. -/
structure Walking (r : Request) (m0 m : Mmu) : Prop where
  enabled : r.enabled = true
  pa : m.pa = m0.pa
  fault : m.fault = false
  cause : m.cause = 0
  pte0 : m.pte0 = m0.pte0

/-- What holds in each state while a request that began in `m0` is served. -/
inductive Serving (r : Request) (m0 m : Mmu) : Prop where
  | readPte1 (hs : m.state = .readPte1) (hw : Walking r m0 m)
  | checkPte1 (hs : m.state = .checkPte1) (hw : Walking r m0 m) (hmem : r.mem m.ptRaddr = r.pte1)
  | readPte0 (hs : m.state = .readPte0) (hw : Walking r m0 m) (hptr : r.pointer = true)
      (hpte : m.pte1 = r.pte1)
  | checkPte0 (hs : m.state = .checkPte0) (hw : Walking r m0 m) (hptr : r.pointer = true)
      (hmem : r.mem m.ptRaddr = r.pte0)
  | translate (hs : m.state = .translate) (hfault : m.fault = false) (hcause : m.cause = 0)
      (hout : r.outcome m0 = r.translated m.pte0 m.pa) (hafter : m.pte0 = r.pte0After m0)
  | fault (hs : m.state = .fault) (hcause : m.cause = 0)
      (hout : r.outcome m0 = ⟨m.pa, true, 0⟩) (hafter : m.pte0 = r.pte0After m0)
  | idle (hs : m.state = .idle) (hready : m.ready = true) (hout : r.outcome m0 = m.outcome)
      (hafter : m.pte0 = r.pte0After m0)

namespace Serving

variable {r : Request} {m0 m : Mmu}

theorem start (h : m.state = .idle) (b : Bool) : Serving r m (m.cycle r b) := by
  cases hr : r.enabled with
  | false =>
    rw [Mmu.cycle_idle_off b h hr]
    exact .translate rfl rfl rfl (by simp [outcome, hr]) (by simp [pte0After, hr])
  | true =>
    rw [Mmu.cycle_idle_on b h hr]
    exact .readPte1 rfl ⟨hr, rfl, rfl, rfl, rfl⟩

theorem cycle_checkPte1 (hs : m.state = .checkPte1) (hw : Walking r m0 m)
    (hmem : r.mem m.ptRaddr = r.pte1) (b : Bool) : Serving r m0 (m.cycle r b) := by
  obtain ⟨hen, hpa, hfault, hcause, hpte0⟩ := hw
  rw [Mmu.cycle_checkPte1 b hs, hmem]
  cases hv : pteV r.pte1 with
  | false =>
    refine .fault rfl hcause ?_ ?_
    · simp [outcome, hen, hv, hpa]
    · simp [pte0After, pointer, hv, hpte0]
  | true =>
    cases hleaf : pteR r.pte1 || pteX r.pte1 with
    | true =>
      refine .translate rfl hfault hcause ?_ ?_
      · simp [outcome, hen, hv, hleaf, hpa, hpte0]
      · simp [pte0After, pointer, hleaf, hpte0]
    | false =>
      exact .readPte0 rfl ⟨hen, hpa, hfault, hcause, hpte0⟩ (by simp [pointer, hv, hleaf]) rfl

theorem cycle_checkPte0 (hs : m.state = .checkPte0) (hw : Walking r m0 m) (hptr : r.pointer = true)
    (hmem : r.mem m.ptRaddr = r.pte0) (b : Bool) : Serving r m0 (m.cycle r b) := by
  obtain ⟨hen, hpa, hfault, hcause, hpte0⟩ := hw
  have hafter : r.pte0 = r.pte0After m0 := by simp [pte0After, hen, hptr]
  obtain ⟨hv1, hleaf⟩ : pteV r.pte1 = true ∧ (pteR r.pte1 || pteX r.pte1) = false := by
    simpa [pointer] using hptr
  rw [Mmu.cycle_checkPte0 b hs, hmem]
  cases hv : pteV r.pte0 with
  | false =>
    refine .fault rfl hcause ?_ hafter
    simp [outcome, hen, hv1, hleaf, hv, hpa]
  | true =>
    refine .translate rfl hfault hcause ?_ hafter
    simp [outcome, hen, hv1, hleaf, hv, hpa]

theorem cycle (h : Serving r m0 m) (hm : m.state ≠ .idle) (b : Bool) :
    Serving r m0 (m.cycle r b) := by
  cases h with
  | readPte1 hs hw =>
    obtain ⟨hen, hpa, hfault, hcause, hpte0⟩ := hw
    rw [Mmu.cycle_readPte1 b hs]
    cases b with
    | false => exact .readPte1 rfl ⟨hen, hpa, hfault, hcause, hpte0⟩
    | true => exact .checkPte1 rfl ⟨hen, hpa, hfault, hcause, hpte0⟩ rfl
  | checkPte1 hs hw hmem => exact cycle_checkPte1 hs hw hmem b
  | readPte0 hs hw hptr hpte =>
    obtain ⟨hen, hpa, hfault, hcause, hpte0⟩ := hw
    rw [Mmu.cycle_readPte0 b hs, hpte]
    cases b with
    | false => exact .readPte0 rfl ⟨hen, hpa, hfault, hcause, hpte0⟩ hptr rfl
    | true => exact .checkPte0 rfl ⟨hen, hpa, hfault, hcause, hpte0⟩ hptr rfl
  | checkPte0 hs hw hptr hmem => exact cycle_checkPte0 hs hw hptr hmem b
  | translate hs hfault hcause hout hafter =>
    obtain ⟨hstate, hready, hres, hpte0⟩ := Mmu.cycle_translate b hs hfault hcause (r := r)
    exact .idle hstate hready (hout.trans hres.symm) (hpte0.trans hafter)
  | fault hs hcause hout hafter =>
    rw [Mmu.cycle_fault b hs]
    exact .idle rfl rfl (by rw [hout, Mmu.outcome, hcause]) hafter
  | idle hs => exact absurd hs hm

theorem busy {m' : Mmu} (h : Serving r m0 m) (hb : Busy r m m') :
    Serving r m0 m' ∧ m'.state = .idle := by
  induction hb with
  | done hs => exact ⟨h, hs⟩
  | cycle hs b hb ih => exact ih (h.cycle hs b)

end Serving

theorem Serves.result {r : Request} {m m' : Mmu} (h : Serves r m m') :
    m'.state = .idle ∧ m'.ready = true ∧ m'.outcome = r.outcome m ∧ m'.pte0 = r.pte0After m := by
  obtain ⟨hm, b, hb⟩ := h
  obtain ⟨hserving, hidle⟩ := (Serving.start hm b).busy hb
  cases hserving with
  | idle hs hready hout hafter => exact ⟨hidle, hready, hout.symm, hafter⟩
  | readPte1 hs | checkPte1 hs | readPte0 hs | checkPte0 hs | translate hs | fault hs =>
    cases hs.symm.trans hidle

/-! ## Every request ends -/

theorem busy_exists (r : Request) (m : Mmu) : ∃ m', Busy r m m' := by
  have idle : ∀ m : Mmu, m.state = .idle → ∃ m', Busy r m m' := fun m h => ⟨m, .done h⟩
  have next : ∀ m : Mmu, m.state ≠ .idle → (∃ m', Busy r (m.cycle r true) m') →
      ∃ m', Busy r m m' := fun m h ⟨m', hb⟩ => ⟨m', .cycle h true hb⟩
  have fault : ∀ m : Mmu, m.state = .fault → ∃ m', Busy r m m' := fun m h =>
    next m (by simp [h]) (idle _ (by rw [Mmu.cycle_fault true h]))
  have translate : ∀ m : Mmu, m.state = .translate → ∃ m', Busy r m m' := fun m h =>
    next m (by simp [h]) (idle _ (by simp [Mmu.cycle, Mmu.clock, Mmu.nextState, h]))
  have checkPte0 : ∀ m : Mmu, m.state = .checkPte0 → ∃ m', Busy r m m' := by
    intro m h
    refine next m (by simp [h]) ?_
    rw [Mmu.cycle_checkPte0 true h]
    split
    · exact fault _ rfl
    · exact translate _ rfl
  have readPte0 : ∀ m : Mmu, m.state = .readPte0 → ∃ m', Busy r m m' := fun m h =>
    next m (by simp [h]) (checkPte0 _ (by rw [Mmu.cycle_readPte0 true h]; rfl))
  have checkPte1 : ∀ m : Mmu, m.state = .checkPte1 → ∃ m', Busy r m m' := by
    intro m h
    refine next m (by simp [h]) ?_
    rw [Mmu.cycle_checkPte1 true h]
    split
    · exact fault _ rfl
    · split
      · exact translate _ rfl
      · exact readPte0 _ rfl
  cases h : m.state with
  | idle => exact idle m h
  | readPte1 => exact next m (by simp [h]) (checkPte1 _ (by rw [Mmu.cycle_readPte1 true h]; rfl))
  | checkPte1 => exact checkPte1 m h
  | readPte0 => exact readPte0 m h
  | checkPte0 => exact checkPte0 m h
  | translate => exact translate m h
  | fault => exact fault m h

theorem serves_exists (r : Request) {m : Mmu} (h : m.state = .idle) : ∃ m', Serves r m m' := by
  obtain ⟨m', hb⟩ := busy_exists r (m.cycle r true)
  exact ⟨m', h, true, hb⟩

end YHsys.Cpu
