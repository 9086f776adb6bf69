import YHsys.Cpu.CacheLine

/-!
# The instruction cache (`icache.v`)

Two ways of 256 lines, filled from memory by bursts of four beats. A fetch is accepted in
`IDLE`, compared with the tags in `LOOKUP` once the translation is there, and on a miss
served by a burst in `REFILL`.

The last beat of a burst goes into `refill_buffer` at the same edge at which the line takes
the buffer's value from before it, so that the fourth word of a line is never the one just
read. The address of a burst is the one on the wires when the fetch was accepted, the tag
of the line the one on the wires at the last beat, whether or not the translation is ready,
and a flush leaves the rest of a burst to come. `fetch_transparent` says that nothing else
goes wrong.
-/

namespace YHsys.Cpu

open Function (update update_of_ne)

/-- `icache_state`. -/
inductive IcacheState where
  | idle
  | lookup
  | refill
deriving DecidableEq, Repr

/-- The input wires; `beat` is `axi_rdata` with `axi_rlast` while `axi_rvalid` is up. -/
structure IcacheIn where
  req : Bool
  va : BitVec 32
  pa : BitVec 32
  immuReady : Bool
  coreStall : Bool
  excpFlush : Bool
  arready : Bool
  beat : Option Beat

/-- The arrays of one way. -/
structure IcacheWay where
  data : BitVec 8 → Line
  tag : BitVec 8 → BitVec 20
  valid : BitVec 8 → Bool

namespace IcacheWay

/-- A line is written with its tag and becomes valid. -/
def fill (w : IcacheWay) (i : BitVec 8) (l : Line) (t : BitVec 20) : IcacheWay where
  data := update w.data i l
  tag := update w.tag i t
  valid := update w.valid i true

/-- The way holds the line with this index and tag. -/
def holds (w : IcacheWay) (i : BitVec 8) (t : BitVec 20) : Bool := w.valid i && w.tag i == t

end IcacheWay

/-- The registers. -/
structure Icache where
  state : IcacheState
  way0 : IcacheWay
  way1 : IcacheWay
  lruBit : BitVec 8 → Bool
  tag0 : BitVec 20
  tag1 : BitVec 20
  valid0 : Bool
  valid1 : Bool
  ack : Bool
  rdata : BitVec 32
  miss : Bool
  unbusy : Bool
  arvalid : Bool
  missCntEn : Bool
  reqPa : BitVec 32
  refillCnt : BitVec 2
  refillBuffer : Line

/-- A request that is neither stalled nor flushed. -/
def IcacheIn.accepts (i : IcacheIn) : Bool := i.req && !i.coreStall && !i.excpFlush

/-! ## A clock edge -/

namespace Icache

variable (s : Icache) (i : IcacheIn)

/-- The values under `reset`. The registers of the tag read have none. -/
def reset : Icache :=
  let way : IcacheWay := ⟨fun _ _ => 0, fun _ => 0, fun _ => false⟩
  { s with
    state := .idle, way0 := way, way1 := way, lruBit := fun _ => false
    ack := false, rdata := 0, miss := false, unbusy := true, arvalid := false
    missCntEn := false, reqPa := 0x80000000, refillCnt := 0, refillBuffer := fun _ => 0 }

/-- `way_hit[0]` and `way_hit[1]` (`icache.v:95`). -/
def wayHit0 : Bool := s.valid0 && s.tag0 == tagOf i.pa && i.immuReady
def wayHit1 : Bool := s.valid1 && s.tag1 == tagOf i.pa && i.immuReady

def cacheHit : Bool := s.wayHit0 i || s.wayHit1 i

/-- `replace_way` (`icache.v:108`), true for the second way. -/
def replaceWay : Bool :=
  if !s.way0.valid (indexOf i.va) then false
  else if !s.way1.valid (indexOf i.va) then true
  else s.lruBit (indexOf i.va)

/-- The line of `axi_araddr`. -/
def araddrLine : BitVec 28 := lineOf s.reqPa

/-- `axi_rvalid && axi_rlast`. -/
def lastBeat : Bool := i.beat.any (·.last)

/-- The next-state logic (`icache.v:155`). -/
def nextState : IcacheState :=
  match s.state with
  | .idle => if i.accepts then .lookup else .idle
  | .lookup =>
    if i.excpFlush then .idle
    else if s.cacheHit i then .idle
    else if i.immuReady then .refill
    else .lookup
  | .refill => if i.excpFlush || lastBeat i then .idle else .refill

/-- The update of `lru_bit` (`icache.v:120`). -/
def nextLru : BitVec 8 → Bool :=
  if s.state = .lookup && s.cacheHit i then
    if s.wayHit0 i then update s.lruBit (indexOf i.va) true
    else if s.wayHit1 i then update s.lruBit (indexOf i.va) false
    else s.lruBit
  else s.lruBit

/-- The write of a line and the answer to the fetch at the last beat (`icache.v:261`). All
values are those before the edge. -/
def install : Icache :=
  let line := s.refillBuffer
  let s := { s with ack := true, rdata := line (wordOf i.va) }
  if s.replaceWay i then { s with way1 := s.way1.fill (indexOf i.va) line (tagOf i.pa) }
  else { s with way0 := s.way0.fill (indexOf i.va) line (tagOf i.pa) }

/-- A beat is received (`icache.v:252`). -/
def receive : Icache :=
  match i.beat with
  | none => s
  | some b =>
    let t := if b.last then s.install i else s
    { t with
      refillCnt := if b.last then 0 else s.refillCnt + 1
      refillBuffer := update s.refillBuffer s.refillCnt b.data }

/-- The default values of the output block (`icache.v:212`). -/
def quiet : Icache :=
  { s with ack := false, miss := false, missCntEn := false, arvalid := false }

/-- The registers of the output block (`icache.v:188`). -/
def data : Icache :=
  let s' := s.quiet
  match s.state with
  | .idle =>
    let s' := { s' with unbusy := true }
    if i.accepts then { s' with reqPa := i.pa } else s'
  | .lookup =>
    let s' := { s' with unbusy := false }
    if i.excpFlush then s'
    else if s.cacheHit i then
      let way := if s.wayHit1 i then s.way1 else s.way0
      { s' with ack := true, rdata := way.data (indexOf i.va) (wordOf i.va) }
    else if i.immuReady then { s' with arvalid := true, miss := true, missCntEn := true }
    else s'
  | .refill =>
    let s' := { s'.receive i with unbusy := false }
    if i.excpFlush then { s' with refillCnt := 0 } else s'

/-- One cycle: the tag read, the state, the replacement bits and the output block. -/
def clock : Icache :=
  let d := s.data i
  { d with
    state := s.nextState i
    lruBit := s.nextLru i
    tag0 := if i.accepts then s.way0.tag (indexOf i.va) else s.tag0
    tag1 := if i.accepts then s.way1.tag (indexOf i.va) else s.tag1
    valid0 := if i.accepts then s.way0.valid (indexOf i.va) else s.valid0
    valid1 := if i.accepts then s.way1.valid (indexOf i.va) else s.valid1 }

/-! What the output block does in each case. -/

section Data

variable {s i}

theorem data_accept (hst : s.state = .idle) (hacc : i.accepts = true) :
    s.data i = { s.quiet with unbusy := true, reqPa := i.pa } := by
  simp [data, hst, hacc]

theorem data_idle (hst : s.state = .idle) (hacc : i.accepts ≠ true) :
    s.data i = { s.quiet with unbusy := true } := by
  simp [data, hst, hacc]

theorem data_drop (hst : s.state = .lookup) (hflush : i.excpFlush = true) :
    s.data i = { s.quiet with unbusy := false } := by
  simp [data, hst, hflush]

theorem data_hit (hst : s.state = .lookup) (hflush : i.excpFlush ≠ true)
    (hhit : s.cacheHit i = true) :
    s.data i =
      { s.quiet with
        unbusy := false, ack := true
        rdata := (if s.wayHit1 i then s.way1 else s.way0).data (indexOf i.va) (wordOf i.va) } := by
  simp [data, hst, hflush, hhit]

theorem data_miss (hst : s.state = .lookup) (hflush : i.excpFlush ≠ true)
    (hhit : s.cacheHit i ≠ true) (hready : i.immuReady = true) :
    s.data i =
      { s.quiet with unbusy := false, arvalid := true, miss := true, missCntEn := true } := by
  simp [data, hst, hflush, hhit, hready]

theorem data_wait (hst : s.state = .lookup) (hflush : i.excpFlush ≠ true)
    (hhit : s.cacheHit i ≠ true) (hready : i.immuReady ≠ true) :
    s.data i = { s.quiet with unbusy := false } := by
  simp [data, hst, hflush, hhit, hready]

theorem data_no_beat (hst : s.state = .refill) (hbeat : i.beat = none) :
    s.data i =
      { s.quiet with unbusy := false, refillCnt := if i.excpFlush then 0 else s.refillCnt } := by
  cases hf : i.excpFlush <;> simp [data, hst, hbeat, hf, receive, quiet]

theorem data_beat (hst : s.state = .refill) {w : BitVec 32} (hbeat : i.beat = some ⟨w, false⟩) :
    s.data i =
      { s.quiet with
        unbusy := false
        refillCnt := if i.excpFlush then 0 else s.refillCnt + 1
        refillBuffer := update s.refillBuffer s.refillCnt w } := by
  cases hf : i.excpFlush <;> simp [data, hst, hbeat, hf, receive, quiet]

theorem data_last (hst : s.state = .refill) {w : BitVec 32} (hbeat : i.beat = some ⟨w, true⟩) :
    s.data i =
      { s.quiet with
        unbusy := false, ack := true, rdata := s.refillBuffer (wordOf i.va), refillCnt := 0
        refillBuffer := update s.refillBuffer s.refillCnt w
        way0 := if s.replaceWay i then s.way0
          else s.way0.fill (indexOf i.va) s.refillBuffer (tagOf i.pa)
        way1 := if s.replaceWay i then s.way1.fill (indexOf i.va) s.refillBuffer (tagOf i.pa)
          else s.way1 } := by
  have hrep : ({ s.quiet with ack := true, rdata := s.refillBuffer (wordOf i.va) } :
      Icache).replaceWay i = s.replaceWay i := rfl
  cases hf : i.excpFlush <;> cases hr : s.replaceWay i <;>
    simp_all [data, receive, install, quiet]

end Data

/-- The line at an address is in the cache. -/
def resident (va xlat : BitVec 32) : Bool :=
  s.way0.holds (indexOf va) (tagOf xlat) || s.way1.holds (indexOf va) (tagOf xlat)

end Icache

open Icache (cacheHit lastBeat nextState)

/-! ## The cache with its surroundings -/

/-- What the surroundings do in a cycle. `xlat` is the physical address that the fetch at
`va` translates to, `deliver` says that memory sends a beat if it owes one. -/
structure FetchCycle where
  req : Bool
  va : BitVec 32
  xlat : BitVec 32
  pa : BitVec 32
  immuReady : Bool
  coreStall : Bool
  excpFlush : Bool
  arready : Bool
  deliver : Bool

/-- The cache and the beats that memory owes it. -/
structure IcacheSys where
  cache : Icache
  pending : List Beat

namespace IcacheSys

variable (mem : LineMem) (s : IcacheSys) (e : FetchCycle)

def offers : List Beat := offered mem s.pending s.cache.arvalid e.arready s.cache.araddrLine

def wires : IcacheIn where
  req := e.req
  va := e.va
  pa := e.pa
  immuReady := e.immuReady
  coreStall := e.coreStall
  excpFlush := e.excpFlush
  arready := e.arready
  beat := if e.deliver then (s.offers mem e).head? else none

/-- The beats that are owed after the cycle. -/
def owed : List Beat := if e.deliver then (s.offers mem e).tail else s.offers mem e

def step : IcacheSys := ⟨s.cache.clock (s.wires mem e), s.owed mem e⟩

end IcacheSys

/-- The physical address is right while `immu_ready` is up, a translation keeps the offset in
the page, and a fetch holds its address until the cache is idle again. -/
structure FetchEnv (s : IcacheSys) (prev e : FetchCycle) : Prop where
  translated : e.immuReady = true → e.pa = e.xlat
  offset : SameOffset e.va e.xlat
  held : s.cache.state ≠ .idle → e.va = prev.va ∧ e.xlat = prev.xlat

/-- The runs from reset in which every cycle meets `ok`, with the last cycle. -/
inductive FetchRun (mem : LineMem) (ok : IcacheSys → FetchCycle → Prop) :
    IcacheSys → FetchCycle → Prop where
  | reset (c : Icache) (e : FetchCycle) : FetchRun mem ok ⟨c.reset, []⟩ e
  | step {s : IcacheSys} {prev e : FetchCycle} (h : FetchRun mem ok s prev)
      (henv : FetchEnv s prev e) (hok : ok s e) : FetchRun mem ok (s.step mem e) e

/-! ## What keeps a fetch right -/

/-- The conditions on a cycle under which the cache is transparent. -/
structure FetchAllowed (mem : LineMem) (s : IcacheSys) (e : FetchCycle) : Prop where
  /-- A fetch is not of the fourth word of a line, and comes with the address of its line
  already translated unless the cache has the line. -/
  fetch : s.cache.state = .idle → (s.wires mem e).accepts = true →
    wordOf e.va ≠ 3 ∧ (lineOf e.pa = lineOf e.xlat ∨ s.cache.resident e.va e.xlat = true)
  /-- No beat of a flushed burst is left when the next refill begins. -/
  drained : s.cache.state = .lookup → s.cache.nextState (s.wires mem e) = .refill →
    s.owed mem e = []
  /-- The translation is there at the last beat. -/
  tagged : s.cache.state = .refill → Icache.lastBeat (s.wires mem e) = true →
    tagOf e.pa = tagOf e.xlat

/-- The valid lines are those of memory, but for their last words. -/
def LinesOk (mem : LineMem) (w : IcacheWay) : Prop :=
  ∀ i, w.valid i = true → ∀ k, k ≠ 3 → w.data i k = mem (w.tag i ++ i) k

theorem LinesOk.fill {mem : LineMem} {w : IcacheWay} (h : LinesOk mem w) {i : BitVec 8}
    {l : Line} {t : BitVec 20} (hl : ∀ k, k ≠ 3 → l k = mem (t ++ i) k) :
    LinesOk mem (w.fill i l t) := by
  intro j hj k hk
  by_cases hji : j = i
  · subst hji
    simpa [IcacheWay.fill] using hl k hk
  · simp only [IcacheWay.fill, update_of_ne hji] at hj ⊢
    exact h j hj k hk

theorem LinesOk.read {mem : LineMem} {w : IcacheWay} (h : LinesOk mem w) {va xlat : BitVec 32}
    (hoff : SameOffset va xlat) (hword : wordOf va ≠ 3)
    (hheld : w.holds (indexOf va) (tagOf xlat) = true) :
    w.data (indexOf va) (wordOf va) = mem.read xlat := by
  simp only [IcacheWay.holds, Bool.and_eq_true, beq_iff_eq] at hheld
  rw [h _ hheld.1 _ hword, hheld.2, LineMem.read, lineOf_eq, hoff.index, hoff.word]

/-- A fetch waits for its translation: the tags read are those of the arrays. -/
structure Looking (c : Icache) (e : FetchCycle) : Prop where
  arvalid : c.arvalid = false
  cnt : c.refillCnt = 0
  tag0 : c.tag0 = c.way0.tag (indexOf e.va)
  tag1 : c.tag1 = c.way1.tag (indexOf e.va)
  valid0 : c.valid0 = c.way0.valid (indexOf e.va)
  valid1 : c.valid1 = c.way1.valid (indexOf e.va)
  word : wordOf e.va ≠ 3
  line : lineOf c.reqPa = lineOf e.xlat ∨ c.resident e.va e.xlat = true

/-- A fetch waits for its burst, or has part of it. -/
structure Filling (mem : LineMem) (s : IcacheSys) (e : FetchCycle) : Prop where
  word : wordOf e.va ≠ 3
  line : lineOf s.cache.reqPa = lineOf e.xlat
  burst : s.pending = [] ∧ s.cache.refillCnt = 0 ∨
    s.cache.arvalid = false ∧
      Refilling (mem (lineOf e.xlat)) s.cache.refillCnt s.cache.refillBuffer s.pending

/-- The invariant of the runs. -/
structure IcacheOk (mem : LineMem) (s : IcacheSys) (e : FetchCycle) : Prop where
  lines0 : LinesOk mem s.cache.way0
  lines1 : LinesOk mem s.cache.way1
  answer : s.cache.ack = true → s.cache.rdata = mem.read e.xlat
  idle : s.cache.state = .idle → s.cache.arvalid = false ∧ s.cache.refillCnt = 0
  lookup : s.cache.state = .lookup → Looking s.cache e
  refill : s.cache.state = .refill → Filling mem s e

theorem Icache.reset_ok (mem : LineMem) (c : Icache) (e : FetchCycle) :
    IcacheOk mem ⟨c.reset, []⟩ e where
  lines0 _ h := by cases h
  lines1 _ h := by cases h
  answer h := by cases h
  idle _ := ⟨rfl, rfl⟩
  lookup h := by cases h
  refill h := by cases h

section Steps

variable {mem : LineMem} {s : IcacheSys} {prev e : FetchCycle}

theorem Looking.held {c : Icache} (h : Looking c prev) (hva : e.va = prev.va)
    (hx : e.xlat = prev.xlat) : Looking c e := by
  obtain ⟨h1, h2, h3, h4, h5, h6, h7, h8⟩ := h
  rw [← hva] at h3 h4 h5 h6 h7 h8
  rw [← hx] at h8
  exact ⟨h1, h2, h3, h4, h5, h6, h7, h8⟩

theorem Filling.held (h : Filling mem s prev) (hva : e.va = prev.va) (hx : e.xlat = prev.xlat) :
    Filling mem s e := by
  obtain ⟨h1, h2, h3⟩ := h
  rw [← hva] at h1
  rw [← hx] at h2 h3
  exact ⟨h1, h2, h3⟩

theorem Filling.offers (h : Filling mem s e) :
    s.offers mem e = [] ∧ s.cache.refillCnt = 0 ∨
      Refilling (mem (lineOf e.xlat)) s.cache.refillCnt s.cache.refillBuffer
        (s.offers mem e) := by
  unfold IcacheSys.offers offered Icache.araddrLine
  rcases h.burst with ⟨hnil, hcnt⟩ | ⟨harv, hrest⟩
  · rw [hnil, hcnt, h.line, List.nil_append]
    split
    · exact .inr (.start _ _)
    · exact .inl ⟨rfl, rfl⟩
  · rw [harv, Bool.false_and, if_neg (by simp)]
    exact .inr hrest

theorem IcacheOk.of_data {d : Icache} (hd : s.cache.data (s.wires mem e) = d)
    (lines0 : LinesOk mem d.way0) (lines1 : LinesOk mem d.way1)
    (answer : d.ack = true → d.rdata = mem.read e.xlat)
    (idle : s.cache.nextState (s.wires mem e) = .idle → d.arvalid = false ∧ d.refillCnt = 0)
    (lookup : s.cache.nextState (s.wires mem e) = .lookup → Looking (s.step mem e).cache e)
    (refill : s.cache.nextState (s.wires mem e) = .refill → Filling mem ⟨d, s.owed mem e⟩ e) :
    IcacheOk mem (s.step mem e) e := by
  subst hd
  refine ⟨lines0, lines1, answer, idle, lookup, fun h => ?_⟩
  obtain ⟨hword, hline, hburst⟩ := refill h
  exact ⟨hword, hline, hburst⟩

theorem IcacheOk.step_idle (h : IcacheOk mem s prev) (hok : FetchAllowed mem s e)
    (hst : s.cache.state = .idle) : IcacheOk mem (s.step mem e) e := by
  obtain ⟨-, hcnt⟩ := h.idle hst
  by_cases hacc : (s.wires mem e).accepts = true
  · obtain ⟨hword, hline⟩ := hok.fetch hst hacc
    have hdata := Icache.data_accept hst hacc
    have hnext : s.cache.nextState (s.wires mem e) = .lookup := by
      simp [nextState, hst, hacc]
    refine .of_data hdata h.lines0 h.lines1 nofun (by simp [hnext]) (fun _ => ?_) (by simp [hnext])
    simp only [IcacheSys.step, Icache.clock, hdata, hacc, if_true]
    exact ⟨rfl, hcnt, rfl, rfl, rfl, rfl, hword, hline⟩
  · have hnext : s.cache.nextState (s.wires mem e) = .idle := by
      simp [nextState, hst, hacc]
    exact .of_data (Icache.data_idle hst hacc) h.lines0 h.lines1 nofun
      (fun _ => ⟨rfl, hcnt⟩) (by simp [hnext]) (by simp [hnext])

theorem Looking.hit0 {c : Icache} (h : Looking c e) {i : IcacheIn} (hpa : i.pa = e.xlat)
    (hr : i.immuReady = true) : c.wayHit0 i = c.way0.holds (indexOf e.va) (tagOf e.xlat) := by
  simp [Icache.wayHit0, IcacheWay.holds, h.tag0, h.valid0, hpa, hr]

theorem Looking.hit1 {c : Icache} (h : Looking c e) {i : IcacheIn} (hpa : i.pa = e.xlat)
    (hr : i.immuReady = true) : c.wayHit1 i = c.way1.holds (indexOf e.va) (tagOf e.xlat) := by
  simp [Icache.wayHit1, IcacheWay.holds, h.tag1, h.valid1, hpa, hr]

theorem Icache.immuReady_of_cacheHit {c : Icache} {i : IcacheIn} (h : c.cacheHit i = true) :
    i.immuReady = true := by
  simp only [cacheHit, Icache.wayHit0, Icache.wayHit1, Bool.or_eq_true,
    Bool.and_eq_true] at h
  rcases h with h | h <;> exact h.2

/-- `LOOKUP`: the fetch is dropped, answered, sent to memory or kept waiting. -/
theorem IcacheOk.step_lookup (h : IcacheOk mem s prev) (henv : FetchEnv s prev e)
    (hok : FetchAllowed mem s e) (hst : s.cache.state = .lookup) :
    IcacheOk mem (s.step mem e) e := by
  obtain ⟨hva, hx⟩ := henv.held (by simp [hst])
  have hlook : Looking s.cache e := (h.lookup hst).held hva hx
  by_cases hflush : (s.wires mem e).excpFlush = true
  · have hnext : s.cache.nextState (s.wires mem e) = .idle := by
      simp [nextState, hst, hflush]
    exact .of_data (Icache.data_drop hst hflush) h.lines0 h.lines1 nofun
      (fun _ => ⟨rfl, hlook.cnt⟩) (by simp [hnext]) (by simp [hnext])
  by_cases hhit : s.cache.cacheHit (s.wires mem e) = true
  · have hnext : s.cache.nextState (s.wires mem e) = .idle := by
      simp [nextState, hst, hflush, hhit]
    have hready := Icache.immuReady_of_cacheHit hhit
    have hpa : (s.wires mem e).pa = e.xlat := henv.translated hready
    refine .of_data (Icache.data_hit hst hflush hhit) h.lines0 h.lines1 (fun _ => ?_)
      (fun _ => ⟨rfl, hlook.cnt⟩) (by simp [hnext]) (by simp [hnext])
    -- the second way wins when both hit
    change (if s.cache.wayHit1 (s.wires mem e) = true then s.cache.way1
      else s.cache.way0).data (indexOf e.va) (wordOf e.va) = _
    split
    · rename_i h1
      exact h.lines1.read henv.offset hlook.word (by rwa [← hlook.hit1 hpa hready])
    · rename_i h1
      have h0 : s.cache.wayHit0 (s.wires mem e) = true := by
        simpa [cacheHit, h1] using hhit
      exact h.lines0.read henv.offset hlook.word (by rwa [← hlook.hit0 hpa hready])
  by_cases hready : (s.wires mem e).immuReady = true
  · have hnext : s.cache.nextState (s.wires mem e) = .refill := by
      simp [nextState, hst, hflush, hhit, hready]
    have hpa : (s.wires mem e).pa = e.xlat := henv.translated hready
    have hline : lineOf s.cache.reqPa = lineOf e.xlat := by
      -- a resident line would have hit
      refine hlook.line.resolve_right fun hres => hhit ?_
      rw [cacheHit, hlook.hit0 hpa hready, hlook.hit1 hpa hready]
      exact hres
    exact .of_data (Icache.data_miss hst hflush hhit hready) h.lines0 h.lines1 nofun
      (by simp [hnext]) (by simp [hnext])
      (fun _ => ⟨hlook.word, hline, .inl ⟨hok.drained hst hnext, hlook.cnt⟩⟩)
  · have hnext : s.cache.nextState (s.wires mem e) = .lookup := by
      simp [nextState, hst, hflush, hhit, hready]
    have hdata := Icache.data_wait hst hflush hhit hready
    refine .of_data hdata h.lines0 h.lines1 nofun (by simp [hnext]) (fun _ => ?_)
      (by simp [hnext])
    simp only [IcacheSys.step, Icache.clock, hdata]
    -- a request on the wires reads the same tags again
    refine ⟨rfl, hlook.cnt, ?_, ?_, ?_, ?_, hlook.word, hlook.line⟩ <;> dsimp only <;> split
    exacts [rfl, hlook.tag0, rfl, hlook.tag1, rfl, hlook.valid0, rfl, hlook.valid1]

theorem IcacheOk.step_no_beat (h : IcacheOk mem s prev) (hfill : Filling mem s e)
    (hst : s.cache.state = .refill) (hbeat : (s.wires mem e).beat = none)
    (hburst : s.owed mem e = [] ∧ s.cache.refillCnt = 0 ∨
      Refilling (mem (lineOf e.xlat)) s.cache.refillCnt s.cache.refillBuffer (s.owed mem e)) :
    IcacheOk mem (s.step mem e) e := by
  have hdata := Icache.data_no_beat hst hbeat
  by_cases hflush : (s.wires mem e).excpFlush = true
  · have hnext : s.cache.nextState (s.wires mem e) = .idle := by
      simp [nextState, hst, hflush]
    rw [if_pos hflush] at hdata
    exact .of_data hdata h.lines0 h.lines1 nofun (fun _ => ⟨rfl, rfl⟩)
      (by simp [hnext]) (by simp [hnext])
  · have hnext : s.cache.nextState (s.wires mem e) = .refill := by
      simp [nextState, lastBeat, hst, hflush, hbeat]
    rw [if_neg hflush] at hdata
    refine .of_data hdata h.lines0 h.lines1 nofun (by simp [hnext]) (by simp [hnext])
      (fun _ => ⟨hfill.word, hfill.line, ?_⟩)
    exact hburst.imp id fun hrest => ⟨rfl, hrest⟩

/-- `REFILL`: the words of the line come in order, and the last one completes it. -/
theorem IcacheOk.step_refill (h : IcacheOk mem s prev) (henv : FetchEnv s prev e)
    (hok : FetchAllowed mem s e) (hst : s.cache.state = .refill) :
    IcacheOk mem (s.step mem e) e := by
  obtain ⟨hva, hx⟩ := henv.held (by simp [hst])
  have hfill : Filling mem s e := (h.refill hst).held hva hx
  by_cases hdel : e.deliver = true
  case neg =>
    refine h.step_no_beat hfill hst (by simp [IcacheSys.wires, hdel]) ?_
    simpa [IcacheSys.owed, hdel] using hfill.offers
  rcases hfill.offers with ⟨hnil, hcnt⟩ | hrest
  · refine h.step_no_beat hfill hst (by simp [IcacheSys.wires, hdel, hnil]) (.inl ⟨?_, hcnt⟩)
    simp [IcacheSys.owed, hdel, hnil]
  obtain ⟨rest, hoff, -, hmore⟩ := hrest.cons
  have hbeat : (s.wires mem e).beat =
      some ⟨mem (lineOf e.xlat) s.cache.refillCnt, decide (s.cache.refillCnt = 3)⟩ := by
    simp [IcacheSys.wires, hdel, hoff]
  have howed : s.owed mem e = rest := by simp [IcacheSys.owed, hdel, hoff]
  by_cases hcnt : s.cache.refillCnt = 3
  · -- the buffer has all words but the last, which the fetch does not want
    simp only [hcnt, decide_true] at hbeat
    have hlast : lastBeat (s.wires mem e) = true := by simp [lastBeat, hbeat]
    have hnext : s.cache.nextState (s.wires mem e) = .idle := by
      simp [nextState, hst, hlast]
    rw [hcnt] at hrest
    have hline : ∀ k, k ≠ 3 → s.cache.refillBuffer k =
        mem (tagOf (s.wires mem e).pa ++ indexOf (s.wires mem e).va) k := by
      intro k hk
      change _ = mem (tagOf e.pa ++ indexOf e.va) k
      rw [hrest.buffered hk, hok.tagged hst hlast, henv.offset.index, ← lineOf_eq]
    refine .of_data (Icache.data_last hst hbeat) ?_ ?_ (fun _ => ?_) (fun _ => ⟨rfl, rfl⟩)
      (by simp [hnext]) (by simp [hnext])
    · dsimp only
      split
      exacts [h.lines0, h.lines0.fill hline]
    · dsimp only
      split
      exacts [h.lines1.fill hline, h.lines1]
    · change s.cache.refillBuffer (wordOf e.va) = _
      rw [hrest.buffered hfill.word, LineMem.read, henv.offset.word]
  · simp only [hcnt, decide_false] at hbeat
    have hdata := Icache.data_beat hst hbeat
    by_cases hflush : (s.wires mem e).excpFlush = true
    · have hnext : s.cache.nextState (s.wires mem e) = .idle := by
        simp [nextState, hst, hflush]
      rw [if_pos hflush] at hdata
      exact .of_data hdata h.lines0 h.lines1 nofun (fun _ => ⟨rfl, rfl⟩)
        (by simp [hnext]) (by simp [hnext])
    · have hnext : s.cache.nextState (s.wires mem e) = .refill := by
        simp [nextState, lastBeat, hst, hflush, hbeat]
      rw [if_neg hflush] at hdata
      refine .of_data hdata h.lines0 h.lines1 nofun (by simp [hnext]) (by simp [hnext])
        (fun _ => ⟨hfill.word, hfill.line, .inr ⟨rfl, ?_⟩⟩)
      rw [howed]
      exact hmore hcnt

theorem IcacheOk.step (h : IcacheOk mem s prev) (henv : FetchEnv s prev e)
    (hok : FetchAllowed mem s e) : IcacheOk mem (s.step mem e) e := by
  cases hst : s.cache.state with
  | idle => exact h.step_idle hok hst
  | lookup => exact h.step_lookup henv hok hst
  | refill => exact h.step_refill henv hok hst

end Steps

theorem FetchRun.ok {mem : LineMem} {s : IcacheSys} {e : FetchCycle}
    (h : FetchRun mem (FetchAllowed mem) s e) : IcacheOk mem s e := by
  induction h with
  | reset c e => exact Icache.reset_ok mem c e
  | step _ henv hok ih => exact ih.step henv hok

/-! ## Runs by cycle lists -/

instance (s : IcacheSys) (prev e : FetchCycle) : Decidable (FetchEnv s prev e) :=
  decidable_of_iff ((e.immuReady = true → e.pa = e.xlat) ∧ SameOffset e.va e.xlat ∧
      (s.cache.state ≠ .idle → e.va = prev.va ∧ e.xlat = prev.xlat))
    ⟨fun h => ⟨h.1, h.2.1, h.2.2⟩, fun h => ⟨h.1, h.2, h.3⟩⟩

instance (mem : LineMem) (s : IcacheSys) (e : FetchCycle) : Decidable (FetchAllowed mem s e) :=
  decidable_of_iff
    ((s.cache.state = .idle → (s.wires mem e).accepts = true →
        wordOf e.va ≠ 3 ∧ (lineOf e.pa = lineOf e.xlat ∨ s.cache.resident e.va e.xlat = true)) ∧
      (s.cache.state = .lookup → s.cache.nextState (s.wires mem e) = .refill →
        s.owed mem e = []) ∧
      (s.cache.state = .refill → Icache.lastBeat (s.wires mem e) = true →
        tagOf e.pa = tagOf e.xlat))
    ⟨fun h => ⟨h.1, h.2.1, h.2.2⟩, fun h => ⟨h.1, h.2, h.3⟩⟩

/-- The system after the cycles, with the last of them. -/
def fetchAll (mem : LineMem) : IcacheSys × FetchCycle → List FetchCycle → IcacheSys × FetchCycle
  | p, [] => p
  | p, e :: es => fetchAll mem (p.1.step mem e, e) es

/-- The surroundings keep their part in every cycle, and every cycle meets `ok`. -/
def FetchesOk (mem : LineMem) (ok : IcacheSys → FetchCycle → Prop) :
    IcacheSys × FetchCycle → List FetchCycle → Prop
  | _, [] => True
  | p, e :: es => FetchEnv p.1 p.2 e ∧ ok p.1 e ∧ FetchesOk mem ok (p.1.step mem e, e) es

instance decFetchesOk (mem : LineMem) (ok : IcacheSys → FetchCycle → Prop)
    [∀ s e, Decidable (ok s e)] :
    (p : IcacheSys × FetchCycle) → (es : List FetchCycle) → Decidable (FetchesOk mem ok p es)
  | _, [] => .isTrue trivial
  | p, e :: es =>
    have := decFetchesOk mem ok (p.1.step mem e, e) es
    inferInstanceAs (Decidable (_ ∧ _ ∧ _))

theorem FetchRun.fetchAll {mem : LineMem} {ok : IcacheSys → FetchCycle → Prop} :
    ∀ {p : IcacheSys × FetchCycle} (es : List FetchCycle), FetchRun mem ok p.1 p.2 →
      FetchesOk mem ok p es → FetchRun mem ok (fetchAll mem p es).1 (fetchAll mem p es).2
  | _, [], h, _ => h
  | _, _ :: es, h, ⟨henv, hok, hes⟩ => FetchRun.fetchAll es (h.step henv hok) hes

/-- A cycle of a fetch at an address that is its own translation, with nothing in its way. -/
def fetchAt (a : BitVec 32) : FetchCycle where
  req := true
  va := a
  xlat := a
  pa := a
  immuReady := true
  coreStall := false
  excpFlush := false
  arready := true
  deliver := true

/-- The cycle with another address on the wires, while the translation is not ready. -/
def FetchCycle.untranslated (e : FetchCycle) (pa : BitVec 32) : FetchCycle :=
  { e with pa := pa, immuReady := false }

/-- The system after reset, with all registers zero that reset does not set. -/
def icacheStart : IcacheSys × FetchCycle :=
  let way : IcacheWay := ⟨fun _ _ => 0, fun _ => 0, fun _ => false⟩
  let c : Icache := ⟨.idle, way, way, fun _ => false, 0, 0, false, false, false, 0, false, false,
    false, false, 0, 0, fun _ => 0⟩
  (⟨c.reset, []⟩, fetchAt 0)

/-- In every run whose cycles are all allowed, an answer is the word of memory at the
translated address of the fetch. -/
theorem fetch_transparent {mem : LineMem} {s : IcacheSys} {e : FetchCycle}
    (h : FetchRun mem (FetchAllowed mem) s e) (hack : s.cache.ack = true) :
    s.cache.rdata = mem.read e.xlat :=
  h.ok.answer hack

/-- A miss in six cycles, and a hit on another word of the line. -/
theorem fetch_transparent_hit :
    let p := fetchAll addressMem icacheStart
      (List.replicate 6 (fetchAt 0x80000000) ++ List.replicate 2 (fetchAt 0x80000004))
    p.1.cache.ack = true ∧ p.1.cache.rdata = addressMem.read p.2.xlat :=
  have hack : (fetchAll addressMem icacheStart (List.replicate 6 (fetchAt 0x80000000) ++
      List.replicate 2 (fetchAt 0x80000004))).1.cache.ack = true := by decide +kernel
  ⟨hack, fetch_transparent
    (FetchRun.fetchAll _ (FetchRun.reset _ _) (by decide +kernel)) hack⟩

/-- The fourth word of a line is fetched. -/
def fetchFourthWord : List FetchCycle := List.replicate 6 (fetchAt 0x8000000c)

/-- The fetch is accepted before its translation is there. -/
def fetchEarly : List FetchCycle :=
  (fetchAt 0x80000000).untranslated 0x80001000 :: List.replicate 5 (fetchAt 0x80000000)

/-- The translation is gone at the last beat, and the line is then found under the address
that was on the wires. -/
def fetchMistagged : List FetchCycle :=
  List.replicate 5 (fetchAt 0x80000000) ++
    (fetchAt 0x80000000).untranslated 0x80001000 :: List.replicate 2 (fetchAt 0x80001000)

/-- A flush comes with the first beat, and the other three with the next fetch. -/
def fetchFlushed : List FetchCycle :=
  List.replicate 2 (fetchAt 0x80000000) ++ { fetchAt 0x80000000 with excpFlush := true } ::
    (List.replicate 2 { fetchAt 0x80000010 with deliver := false } ++
      List.replicate 3 (fetchAt 0x80000010))

/-- The cycles are a run from reset that ends with an answer which is not the word of memory. -/
def FetchFails (es : List FetchCycle) : Prop :=
  let p := fetchAll addressMem icacheStart es
  FetchRun addressMem (fun _ _ => True) p.1 p.2 ∧ p.1.cache.ack = true ∧
    p.1.cache.rdata ≠ addressMem.read p.2.xlat

theorem FetchFails.of_cycles {es : List FetchCycle}
    (hes : FetchesOk addressMem (fun _ _ => True) icacheStart es)
    (h : (fetchAll addressMem icacheStart es).1.cache.ack = true ∧
      (fetchAll addressMem icacheStart es).1.cache.rdata ≠
        addressMem.read (fetchAll addressMem icacheStart es).2.xlat) : FetchFails es :=
  ⟨FetchRun.fetchAll es (FetchRun.reset _ _) hes, h⟩

theorem fetch_wrong_word :
    FetchFails fetchFourthWord ∧ FetchFails fetchEarly ∧ FetchFails fetchMistagged ∧
      FetchFails fetchFlushed :=
  ⟨.of_cycles (by decide +kernel) (by decide +kernel),
    .of_cycles (by decide +kernel) (by decide +kernel),
    .of_cycles (by decide +kernel) (by decide +kernel),
    .of_cycles (by decide +kernel) (by decide +kernel)⟩

end YHsys.Cpu
