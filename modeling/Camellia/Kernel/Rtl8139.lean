import Camellia.Kernel.Postqueue

namespace Camellia

-- The network card and its driver.
structure Rtl8139 where
  kernel    : State
  -- What the processes see of their memory. Where a process has no memory is not our concern.
  user      : Pid → Mem
  rxbuf     : Mem
  rxpos     : ℕ
  -- Bit 0 of the register CMD, and the registers CAPR and INTRMASK.
  rxEmpty   : Bool
  capr      : ℕ
  rxIrq     : Bool
  blockedOn : List Rid
  -- The next descriptor, whether it is free, and the packets which were sent.
  desc      : ℕ
  txReady   : Bool
  sent      : List (List UInt8)

instance : Driver Rtl8139 where
  kernel         := Rtl8139.kernel
  withKernel d s := { d with kernel := s }
  copyTo d p dst src := { d with user := Function.update d.user p ((d.user p).write dst src) }

namespace Rtl8139

section Driver

variable {d : Rtl8139} {s : State} {p : Pid} {dst : ℕ} {src : List UInt8}

@[simp]
theorem driver_kernel : Driver.kernel d = d.kernel :=
  rfl

@[simp]
theorem driver_withKernel : Driver.withKernel d s = { d with kernel := s } :=
  rfl

@[simp]
theorem driver_copyTo :
    Driver.copyTo d p dst src = { d with user := Function.update d.user p ((d.user p).write dst src) } :=
  rfl

end Driver

def WAIT : Int := -1000

-- The receive ring without the bytes behind it.
def RXBUF_BASELEN : ℕ := 65536

def TXBUF_LEN : ℕ := 2048

abbrev R := StateT Rtl8139 (Except Fault)

def pcpyFrom (p : Pid) (src len : ℕ) : R (List UInt8) := do
  if (← inKernel (getProc p)).pages ≠ none then
    pure (((← get).user p).slice src len)
  else
    pure []

-- `while (rxpos >= rxbuf_baselen) rxpos -= rxbuf_baselen`
def wrap (rxpos : ℕ) : ℕ :=
  if RXBUF_BASELEN ≤ rxpos then wrap (rxpos - RXBUF_BASELEN) else rxpos
termination_by rxpos
decreasing_by
  simp only [RXBUF_BASELEN] at *
  omega

-- The copies in `try_rx`. The data at `rxpos` may go on at the start of the ring.
def rxCopy (p : Pid) (dest rxpos dlen : ℕ) : R Unit := do
  let rxbuf := (← get).rxbuf
  if rxpos + dlen ≤ RXBUF_BASELEN then
    Driver.pcpyTo p dest (rxbuf.slice rxpos dlen)
  else
    let chunk := RXBUF_BASELEN - rxpos
    Driver.pcpyTo p dest (rxbuf.slice rxpos chunk)
    Driver.pcpyTo p (dest + chunk) (rxbuf.slice 0 (dlen - chunk))

def tryRx (p : Pid) (dest dlen : ℕ) : R Int := do
  let d ← get
  if d.rxEmpty then
    pure WAIT
  else
    -- The flags in the first two bytes of the header are ignored.
    let rxpos := d.rxpos + 2
    let size := d.rxbuf.load rxpos 2
    let rxpos := rxpos + 2
    if size = 0 then
      throw (.panic .tryRx)
    rxCopy p dest rxpos (min dlen size)
    let rxpos := wrap ((rxpos + size + 3) / 4 * 4)
    modify ({ · with rxpos := rxpos, capr := (rxpos + 2 ^ 16 - 16) % 2 ^ 16 })
    pure size

def tryTx (p : Pid) (src slen : ℕ) : R Int := do
  if 0xFFF < slen ∨ TXBUF_LEN < slen then
    pure (-1)
  else
    let d ← get
    if ¬d.txReady then
      throw (.panic .tryTx)
    let bytes ← pcpyFrom p src slen
    if bytes.length < slen then
      pure (-1)
    else
      modify ({ · with desc := (d.desc + 1) % 4, sent := d.sent ++ [bytes] })
      pure slen

-- The backend of /dev/eth, where `inputLen` is the length of the input.
def accept (env : Env) (inputLen : ℕ) (r : Rid) : R Unit := do
  let req ← inKernel (getReq r)
  match req.caller with
  | none   => inKernel (vfsreqFinishShort env r (-1))
  | some p =>
    match req.type with
    | .OPEN  => inKernel (vfsreqFinishShort env r (if inputLen = 0 then 0 else -1))
    | .READ  =>
      let ret ← tryRx p req.outputBuf req.outputLen
      if ret = WAIT then
        modify fun d => { d with blockedOn := d.blockedOn ++ [r], rxIrq := true }
      else
        inKernel (vfsreqFinishShort env r ret)
    | .WRITE =>
      match req.input with
      | .user buf _ =>
        let ret ← tryTx p buf inputLen
        inKernel (vfsreqFinishShort env r ret)
      | .kern _     => throw (.assert .rtl8139Accept)
    | _      => inKernel (vfsreqFinishShort env r (-1))

-- The size in the header of the next packet.
def size (d : Rtl8139) : ℕ :=
  d.rxbuf.load (d.rxpos + 2) 2

-- The next packet, which may go on at the start of the ring.
def packet (d : Rtl8139) : List UInt8 :=
  (List.range d.size).map fun i => d.rxbuf ((d.rxpos + 4 + i) % RXBUF_BASELEN)

-- Where the packet behind it starts.
def next (d : Rtl8139) : ℕ :=
  (d.rxpos + 4 + (d.size + 3) / 4 * 4) % RXBUF_BASELEN

-- A read of a process is answered: it gets as much of the packet as it asked for, returns no more than that,
-- and the driver is at the next packet.
structure Received (d : Rtl8139) (r : Rid) (p : Pid) (req : VfsReq) (t : Rtl8139) : Prop where
  user     : t.user = Function.update d.user p
               ((d.user p).write req.outputBuf (d.packet.take (min req.outputLen d.size)))
  finished : ∃ ret ≤ req.outputLen, FinishedRead d.kernel r p ret t.kernel
  rxpos    : t.rxpos = d.next
  aligned  : 4 ∣ t.rxpos ∧ t.rxpos < RXBUF_BASELEN

section Read

variable {d t : Rtl8139} {env : Env} {r : Rid} {p : Pid} {b : Bid} {req : VfsReq} {v : Proc} {dest len rxpos : ℕ}
variable {E : Fault → Prop}

theorem wp_pcpyTo {Q : Unit → Rtl8139 → Prop} {src : List UInt8} (hv : d.kernel.procs.get p = some v)
    (hpages : v.pages ≠ none) (hq : Q () { d with user := Function.update d.user p ((d.user p).write dest src) }) :
    wp (Driver.pcpyTo p dest src) Q E d := by
  simpa [Driver.pcpyTo, hv, wp_ite, hpages] using hq

theorem wrap_eq (rxpos : ℕ) : wrap rxpos = rxpos % RXBUF_BASELEN := by
  fun_induction wrap rxpos
  case case1 rxpos h hi => rw [hi, ← Nat.mod_eq_sub_mod h]
  case case2 rxpos h => exact (Nat.mod_eq_of_lt (not_le.mp h)).symm

@[simp]
theorem length_packet : d.packet.length = d.size := by
  simp [packet]

-- The part of the packet up to the end of the ring.
theorem take_packet_of_le (hlen : len ≤ d.size) (hfit : d.rxpos + 4 + len ≤ RXBUF_BASELEN) :
    d.packet.take len = d.rxbuf.slice (d.rxpos + 4) len := by
  refine List.ext_getElem (by simp [hlen]) fun i h₁ h₂ => ?_
  simp only [Mem.length_slice] at h₂
  simp only [packet, Mem.slice, List.getElem_take, List.getElem_map, List.getElem_range]
  rw [Nat.mod_eq_of_lt (by omega)]

-- The packet goes on at the start of the ring.
theorem take_packet_of_lt (hpos : d.rxpos + 4 ≤ RXBUF_BASELEN) (hlen : len ≤ d.size) (hlt : len < RXBUF_BASELEN)
    (hwrap : RXBUF_BASELEN < d.rxpos + 4 + len) :
    d.packet.take len = d.rxbuf.slice (d.rxpos + 4) (RXBUF_BASELEN - (d.rxpos + 4)) ++
      d.rxbuf.slice 0 (len - (RXBUF_BASELEN - (d.rxpos + 4))) := by
  refine List.ext_getElem (by simp; omega) fun i h₁ h₂ => ?_
  simp only [List.length_take, length_packet] at h₁
  simp only [packet, List.getElem_take, List.getElem_map, List.getElem_range]
  rw [List.getElem_append]
  split_ifs with h <;> rw [Mem.length_slice] at h <;> simp only [Mem.slice, List.getElem_map, List.getElem_range]
  · rw [Nat.mod_eq_of_lt (by omega)]
  · rw [Nat.mod_eq_sub_mod (by omega), Nat.mod_eq_of_lt (by omega), List.length_map, List.length_range]
    exact congrArg d.rxbuf (by omega)

theorem size_lt : d.size < 2 ^ 16 := by
  have := (d.rxbuf (d.rxpos + 2)).toNat_lt
  have := (d.rxbuf (d.rxpos + 2 + 1)).toNat_lt
  simp only [size, Mem.load]
  omega

-- Both ways to copy the packet write its first bytes to the memory of the reader.
theorem wp_rxCopy {Q : Unit → Rtl8139 → Prop} (hpos : d.rxpos + 4 ≤ RXBUF_BASELEN) (hlen : len ≤ d.size)
    (hv : d.kernel.procs.get p = some v) (hpages : v.pages ≠ none)
    (hq : Q () { d with user := Function.update d.user p ((d.user p).write dest (d.packet.take len)) }) :
    wp (rxCopy p dest (d.rxpos + 4) len) Q E d := by
  simp only [rxCopy, wp_bind, wp_get, wp_ite]
  refine ⟨fun hfit => ?_, fun hwrap => ?_⟩
  · rw [take_packet_of_le hlen hfit] at hq
    exact wp_pcpyTo hv hpages hq
  · have hlt := @size_lt d
    rw [take_packet_of_lt hpos hlen (hlen.trans_lt hlt) (not_le.mp hwrap), ← Mem.write_append, Mem.length_slice] at hq
    refine wp_pcpyTo hv hpages (wp_pcpyTo hv hpages ?_)
    simpa using hq

theorem tryRx_spec (hpos : d.rxpos + 4 ≤ RXBUF_BASELEN) (he : d.rxEmpty = false)
    (hv : d.kernel.procs.get p = some v) (hpages : v.pages ≠ none) :
    wp (tryRx p dest len) (fun ret t => d.size ≠ 0 ∧ ret = d.size ∧
      t.user = Function.update d.user p ((d.user p).write dest (d.packet.take (min len d.size))) ∧
      t.kernel = d.kernel ∧ t.rxpos = wrap ((d.rxpos + 4 + d.size + 3) / 4 * 4))
      (fun _ => d.size = 0) d := by
  simp only [tryRx, wp_bind, wp_get, he, Bool.false_eq_true, if_false]
  change wp (if d.size = 0 then _ else _) _ _ _
  rw [wp_ite]
  refine ⟨fun h => ?_, fun h => ?_⟩
  · simpa using h
  · rw [wp_bind]
    refine wp_rxCopy hpos (Nat.min_le_right _ _) hv hpages ?_
    simp only [wp_bind, wp_modify, wp_pure]
    exact ⟨h, rfl, rfl, trivial, rfl⟩

-- A read is completed if and only if the packet fits into the buffer of the reader.
theorem accept_spec {inputLen : ℕ} (hal : 4 ∣ d.rxpos) (hlt : d.rxpos < RXBUF_BASELEN) (he : d.rxEmpty = false)
    (ha : Awaiting d.kernel b [(r, req)]) (hp : req.caller = some p) :
    wp (accept env inputLen r) (fun _ t => (0 < d.size ∧ d.size ≤ req.outputLen) ∧ Received d r p req t)
      (fun _ => ¬(0 < d.size ∧ d.size ≤ req.outputLen)) d := by
  obtain ⟨hreq, htype, -, -⟩ : d.kernel.reqs.get r = some req ∧ req.type = .READ ∧ _ ∧ _ :=
    ha.req (r, req) (List.mem_singleton_self _)
  obtain ⟨v, hv, _, _, hpages⟩ := ha.caller (r, req) (List.mem_singleton_self _) p hp
  have hpos : d.rxpos + 4 ≤ RXBUF_BASELEN := by
    simp only [RXBUF_BASELEN] at hlt ⊢
    omega
  simp only [accept, wp_bind, wp_inKernel, driver_kernel, driver_withKernel, wp_getReq, hreq, Option.elim_some, hp, htype]
  refine wp_mono (tryRx_spec (d := d) hpos he hv hpages) (fun ret t hx => ?_) fun e hz => ?_
  case refine_2 => omega
  obtain ⟨hz, hret, huser, hk, hrx⟩ := hx
  rw [if_neg (by rw [hret, WAIT]; omega), wp_inKernel, driver_kernel, hret, hk]
  by_cases hle : d.size ≤ req.outputLen
  case neg =>
    refine wp_mono (wp_vfsreqFinishShort_long ha (not_le.mp hle)) (fun _ _ => False.elim) fun e _ => ?_
    exact fun h => hle h.2
  case pos =>
    refine wp_mono (wp_vfsreqFinishShort_alive ha hp hle (E := fun _ => False)) (fun _ s hx => ?_) fun _ => False.elim
    obtain ⟨hf, _⟩ := hx
    have hnext : t.rxpos = d.next := by
      rw [hrx, wrap_eq, next, show (d.rxpos + 4 + d.size + 3) / 4 * 4 = d.rxpos + 4 + (d.size + 3) / 4 * 4 by omega]
    refine ⟨⟨Nat.pos_of_ne_zero hz, hle⟩, huser, ⟨d.size, hle, hf⟩, hnext, ?_⟩
    show 4 ∣ t.rxpos ∧ t.rxpos < RXBUF_BASELEN
    rw [hnext, next, RXBUF_BASELEN]
    omega

theorem accept_read_iff {inputLen : ℕ} (hal : 4 ∣ d.rxpos) (hlt : d.rxpos < RXBUF_BASELEN) (he : d.rxEmpty = false)
    (ha : Awaiting d.kernel b [(r, req)]) (hp : req.caller = some p) :
    (∃ t, accept env inputLen r d = .ok ((), t) ∧ Received d r p req t) ↔
      0 < d.size ∧ d.size ≤ req.outputLen := by
  have h := @accept_spec d env r p b req inputLen hal hlt he ha hp
  constructor
  case mp =>
    rintro ⟨t, ht, _⟩
    exact ((wp_iff_of_ok ht).mp h).1
  case mpr =>
    intro hc
    obtain ⟨_, t, ht, hr⟩ := wp_false_iff.mp (wp_mono h (fun _ _ hq => hq.2) fun _ hn => absurd hc hn)
    exact ⟨t, ht, hr⟩

end Read

-- Somebody reads `len` bytes, and a packet of 60 bytes with its checksum has arrived.
def reading (len : ℕ) : Rtl8139 where
  kernel := { bootState [] with
    procs    := ⟨[some { state := .waits4fs, reqslot := some 0, pages := some 0 }]⟩
    backends := ⟨[some { usehcnt := 1, provhcnt := 1, access := .kern none }]⟩
    reqs     := ⟨[some (readOf (some 0) len)]⟩
    held     := [0] }
  user _    := fun _ => 0
  rxbuf     := .ofList ([1, 0, 64, 0] ++ List.replicate 64 0xFF)
  rxpos     := 0
  rxEmpty   := false
  capr      := 0
  rxIrq     := false
  blockedOn := []
  desc      := 0
  txReady   := true
  sent      := []

theorem reading_awaiting (len : ℕ) : Awaiting (reading len).kernel 0 [(0, readOf (some 0) len)] := by
  refine ⟨by simp, ⟨_, rfl, rfl, by decide, by simp⟩, ?_, ?_⟩ <;>
    simp [reading, readOf, Heap.get]

theorem accept_read_iff_long :
    (∃ t, accept quietEnv 0 0 (reading 100) = .ok ((), t) ∧ Received (reading 100) 0 0 (readOf (some 0) 100) t) ↔
      0 < (reading 100).size ∧ (reading 100).size ≤ 100 :=
  accept_read_iff (by decide) (by decide) rfl (reading_awaiting 100) rfl

-- The buffer is shorter than the packet, and the kernel stops.
theorem not_accept_read_short :
    ¬∃ t, accept quietEnv 0 0 (reading 60) = .ok ((), t) ∧ Received (reading 60) 0 0 (readOf (some 0) 60) t := by
  rintro ⟨t, ht, _⟩
  have h := @accept_spec (reading 60) quietEnv 0 0 0 _ 0 (by decide) (by decide) rfl (reading_awaiting 60) rfl
  exact absurd ((wp_iff_of_ok ht).mp h).1 (by decide)

end Rtl8139
end Camellia
