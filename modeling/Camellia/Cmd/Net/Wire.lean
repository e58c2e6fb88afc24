import Camellia.Cmd.Net.Fragments

namespace Camellia.Net

-- The header which all fragments of a datagram have in common.
structure Sender where
  src   : UInt32
  dst   : UInt32
  proto : UInt8
  id    : UInt16

namespace Sender

def key (h : Sender) : Key where
  src   := h.src.toNat
  dst   := h.dst.toNat
  proto := h.proto.toNat
  id    := h.id.toNat

-- A fragment as it is sent, and as it arrives: behind the header of its frame, with the padding of the frame.
def packet (h : Sender) (f : Fragment) : List UInt8 :=
  ipv4Packet h.src h.dst h.proto h.id (f.offset / 2 ^ 3 ||| if f.last then 0 else 0x2000) f.buf

def wire (h : Sender) (f : Fragment) : List UInt8 :=
  h.packet f ++ List.replicate (60 - 14 - (h.packet f).length) 0

end Sender

-- The header which `ipv4_send` writes.
def Stack.sender (s : Stack) (ip : Outgoing) : Sender where
  src   := if ip.src = 0 then s.ip else ip.src
  dst   := ip.dst
  proto := ip.proto
  id    := s.nextId

-- The fragments of a payload from an offset on.
def pieces (payload : List UInt8) : (fuel off : ℕ) → List Fragment
  | 0, _          => []
  | fuel + 1, off =>
    if off < payload.length then
      ⟨off, payload.length ≤ off + 1480, (payload.drop off).take 1480⟩ :: pieces payload fuel (off + 1480)
    else
      []

-- A header can describe the fragment.
structure Fragment.Small (f : Fragment) : Prop where
  dvd    : 8 ∣ f.offset
  offset : f.offset < 2 ^ 16
  length : f.buf.length ≤ 1480

-- The fragments follow each other without gaps, and only the last one is marked as such.
def Tiles : List Fragment → Prop
  | []           => False
  | [f]          => f.last = true
  | f :: g :: fs => f.last = false ∧ f.offset < g.offset ∧ f.iterend = g.offset ∧ Tiles (g :: fs)

section Pieces

variable {payload : List UInt8} {fuel off fraglen : ℕ} {h : Sender} {f : Fragment}

theorem pieces_of_length_le (hl : payload.length ≤ off) : pieces payload fuel off = [] := by
  cases fuel
  case zero => rfl
  case succ => exact if_neg (by omega)

theorem ipv4Packets_of_length_le {src dst : UInt32} {proto : UInt8} {id : UInt16} (hl : payload.length ≤ off) :
    ipv4Packets src dst proto id payload fuel off fraglen = [] := by
  cases fuel
  case zero => rfl
  case succ => exact if_neg (by omega)

theorem ipv4Packets_eq :
    ipv4Packets h.src h.dst h.proto h.id payload fuel off 1480 = (pieces payload fuel off).map h.packet := by
  induction fuel generalizing off
  case zero => rfl
  case succ fuel hi =>
    simp only [ipv4Packets, pieces]
    by_cases hl : off < payload.length
    case neg => rw [if_neg hl, if_neg hl, List.map_nil]
    rw [if_pos hl, if_pos hl, List.map_cons]
    have hlast : payload.length ≤ off + min 1480 (payload.length - off) ↔ payload.length ≤ off + 1480 := by omega
    congr 1
    · simp only [Sender.packet, decide_eq_true_eq, hlast]
      rw [List.take_eq_take_min (i := 1480), List.length_drop]
    · by_cases hle : payload.length ≤ off + 1480
      case pos =>
        rw [ipv4Packets_of_length_le (by omega), pieces_of_length_le hle, List.map_nil]
      case neg =>
        rw [min_eq_left (by omega), hi]

theorem tiles_pieces (hl : off < payload.length) (hf : payload.length - off ≤ fuel) : Tiles (pieces payload fuel off) := by
  induction fuel generalizing off
  case zero => omega
  case succ fuel hi =>
    rw [pieces, if_pos hl]
    by_cases hle : payload.length ≤ off + 1480
    case pos =>
      rw [pieces_of_length_le hle]
      exact decide_eq_true hle
    case neg =>
      have ht : Tiles (pieces payload fuel (off + 1480)) := hi (by omega) (by omega)
      cases fuel
      case zero => omega
      case succ fuel =>
        rw [pieces, if_pos (by omega)] at ht ⊢
        refine ⟨decide_eq_false hle, by dsimp only; omega, ?_, ht⟩
        simp only [Fragment.iterend, List.length_take, List.length_drop]
        omega

theorem whole_pieces (hf : payload.length - off ≤ fuel) : whole (pieces payload fuel off) = payload.drop off := by
  induction fuel generalizing off
  case zero => exact (List.drop_eq_nil_of_le (by omega)).symm
  case succ fuel hi =>
    rw [pieces]
    split
    case isTrue hl =>
      have hw (f : Fragment) (fs : List Fragment) : whole (f :: fs) = f.buf ++ whole fs := rfl
      rw [hw, hi (by omega), ← List.drop_drop]
      exact List.take_append_drop 1480 _
    case isFalse hl => exact (List.drop_eq_nil_of_le (by omega)).symm

theorem small_of_mem_pieces (hl : payload.length < 2 ^ 16) (hd : 8 ∣ off) (h : f ∈ pieces payload fuel off) : f.Small := by
  induction fuel generalizing off
  case zero => simp [pieces] at h
  case succ fuel hi =>
    rw [pieces] at h
    split at h
    case isTrue hlt =>
      obtain rfl | h := List.mem_cons.mp h
      · exact ⟨hd, hlt.trans hl, List.length_take_le _ _⟩
      · exact hi (Nat.dvd_add hd (by decide)) h
    case isFalse => simp at h

theorem head_pieces (hl : off < payload.length) (hf : 0 < fuel) :
    ∃ f, (pieces payload fuel off).head? = some f ∧ f.offset = off := by
  obtain ⟨fuel, rfl⟩ := Nat.exists_eq_succ_of_ne_zero hf.ne'
  exact ⟨_, by rw [pieces, if_pos hl, List.head?_cons], rfl⟩

end Pieces

section Tiles

variable {f g : Fragment} {fs : List Fragment}

theorem Tiles.sorted (h : Tiles fs) : fs.Pairwise (·.offset < ·.offset) := by
  induction fs
  case nil => exact .nil
  case cons f fs hi =>
    cases fs
    case nil => simp
    case cons g fs =>
      have ⟨_, hlt, _, ht⟩ := h
      refine List.pairwise_cons.mpr ⟨fun x hx => ?_, hi ht⟩
      obtain rfl | hx := List.mem_cons.mp hx
      · exact hlt
      · exact hlt.trans ((List.pairwise_cons.mp (hi ht)).left x hx)

theorem Tiles.progress (h : Tiles fs) : progress fs = .finish := by
  induction fs
  case nil => exact h.elim
  case cons f fs hi =>
    cases fs
    case nil => exact if_pos h
    case cons g fs =>
      have ⟨_, _, he, ht⟩ := h
      rw [Net.progress, if_neg (by omega), if_neg (by omega), hi ht]

-- While a fragment is missing behind the first one, there is a gap or no end.
theorem Tiles.progress_filter {p : Fragment → Bool} (h : Tiles (f :: fs)) (hm : ∃ g ∈ fs, p g = false) :
    Net.progress (f :: fs.filter p) = .wait := by
  induction fs generalizing f
  case nil => simp at hm
  case cons g fs hi =>
    obtain ⟨hl, _, he, ht⟩ := h
    by_cases hp : p g = true
    case pos =>
      rw [List.filter_cons_of_pos hp, Net.progress, if_neg (by omega), if_neg (by omega)]
      refine hi ht ?_
      obtain ⟨x, hx, hpx⟩ := hm
      obtain rfl | hx := List.mem_cons.mp hx
      · exact absurd hp (by simp [hpx])
      · exact ⟨x, hx, hpx⟩
    case neg =>
      rw [List.filter_cons_of_neg hp]
      cases hfs : fs.filter p
      case nil => exact if_neg (by simp [hl])
      case cons x xs =>
        have hx : x ∈ fs := List.mem_of_mem_filter (hfs ▸ List.mem_cons_self ..)
        have := (List.pairwise_cons.mp ht.sorted).left x hx
        rw [Net.progress, if_pos (by omega)]

-- The last fragment is behind all others.
theorem Tiles.last (h : Tiles fs) (hf : f ∈ fs) (hl : f.last = true) (hg : g ∈ fs) : g.offset ≤ f.offset := by
  induction fs
  case nil => exact h.elim
  case cons x fs hi =>
    cases fs
    case nil =>
      simp only [List.mem_singleton] at hf hg
      rw [hf, hg]
    case cons y fs =>
      have ⟨hx, hlt, _, ht⟩ := h
      obtain rfl | hf' := List.mem_cons.mp hf
      · exact absurd hl (by simp [hx])
      obtain rfl | hg' := List.mem_cons.mp hg
      · exact ((List.pairwise_cons.mp (Tiles.sorted h)).left f hf').le
      · exact hi ht hf' hg'

end Tiles

section Wire

variable {h : Sender} {f : Fragment} {e : Ethernet}

theorem toNat_nput16 {n : ℕ} (hn : n < 2 ^ 16) : 2 ^ 8 * (UInt8.ofNat (n / 2 ^ 8)).toNat + (UInt8.ofNat n).toNat = n := by
  simp only [UInt8.toNat_ofNat']
  omega

theorem fraginfo_eq (hf : f.Small) : (f.offset / 2 ^ 3 ||| if f.last then 0 else 0x2000) =
    f.offset / 2 ^ 3 + if f.last then 0 else 2 ^ 13 := by
  have := hf.offset
  cases f.last
  case true => simp
  case false =>
    have := Nat.two_pow_add_eq_or_of_lt (i := 13) (b := f.offset / 2 ^ 3) (by omega) 1
    simp only [Bool.false_eq_true, if_false]
    rw [Nat.or_comm, show (0x2000 : ℕ) = 2 ^ 13 * 1 from rfl, ← this]
    omega

theorem wire_eq : ∃ a b rest, h.wire f = [0x45, 0] ++ nput16 (20 + f.buf.length) ++ nput16 h.id.toNat ++
    nput16 (f.offset / 2 ^ 3 ||| if f.last then 0 else 0x2000) ++ [0xFF, h.proto] ++ [a, b] ++ nput32 h.src.toNat ++
    nput32 h.dst.toNat ++ f.buf ++ rest :=
  ⟨_, _, _, rfl⟩

-- The fields of the header, where the receiver looks for them.
structure Reads (h : Sender) (f : Fragment) (buf : List UInt8) : Prop where
  first    : (buf.getD 0 0).toNat = 0x45
  totallen : nget16 buf 2 = 20 + f.buf.length
  id       : nget16 buf 4 = h.id.toNat
  fraginfo : nget16 buf 6 = f.offset / 2 ^ 3 + if f.last then 0 else 2 ^ 13
  proto    : (buf.getD 9 0).toNat = h.proto.toNat
  src      : nget32 buf 12 = h.src.toNat
  dst      : nget32 buf 16 = h.dst.toNat
  length   : 20 + f.buf.length ≤ buf.length
  payload  : (buf.drop 20).take f.buf.length = f.buf

theorem toNat_nput32 {n : ℕ} (hn : n < 2 ^ 32) :
    2 ^ 16 * (2 ^ 8 * (UInt8.ofNat (n / 2 ^ 16 / 2 ^ 8)).toNat + (UInt8.ofNat (n / 2 ^ 16)).toNat) +
      (2 ^ 8 * (UInt8.ofNat (n / 2 ^ 8)).toNat + (UInt8.ofNat n).toNat) = n := by
  simp only [UInt8.toNat_ofNat']
  omega

theorem reads_wire (hf : f.Small) : Reads h f (h.wire f) := by
  have := hf.offset
  have := hf.length
  obtain ⟨a, b, rest, hw⟩ := wire_eq (h := h) (f := f)
  rw [hw, List.append_assoc]
  exact {
    first    := rfl
    totallen := toNat_nput16 (by omega)
    id       := toNat_nput16 h.id.toNat_lt
    fraginfo := by
      refine Eq.trans (toNat_nput16 ?_) (fraginfo_eq hf)
      rw [fraginfo_eq hf]
      split <;> omega
    proto    := rfl
    src      := toNat_nput32 h.src.toNat_lt
    dst      := toNat_nput32 h.dst.toNat_lt
    length   := by simp [nput16, nput32]; omega
    payload  := List.take_left' rfl }

theorem Reads.version {buf : List UInt8} (r : Reads h f buf) : version buf = 4 := by
  simp only [Net.version, r.first]
  rfl

theorem Reads.headerlen {buf : List UInt8} (r : Reads h f buf) : headerlen buf = 20 := by
  simp only [Net.headerlen, r.first]
  rfl

theorem Reads.key {buf : List UInt8} (r : Reads h f buf) : (Net.packet buf e).key = h.key := by
  simp only [Net.packet, Packet.key, Sender.key, r.src, r.dst, r.proto, r.id]

theorem Reads.off {buf : List UInt8} (r : Reads h f buf) (hf : f.Small) : (Net.packet buf e).off = f.offset := by
  have := hf.offset
  have := hf.dvd
  simp only [Net.packet, Packet.off, r.fraginfo]
  split <;> omega

theorem Reads.last {buf : List UInt8} (r : Reads h f buf) (hf : f.Small) : (Net.packet buf e).last = f.last := by
  have := hf.offset
  simp only [Net.packet, Packet.last, r.fraginfo, Nat.testBit_eq_decide_div_mod_eq]
  cases f.last
  case true  =>
    have hz : ¬(f.offset / 2 ^ 3 + 0) / 2 ^ 13 % 2 = 1 := by omega
    simp only [if_true, hz, decide_false, Bool.not_false]
  case false =>
    have ho : (f.offset / 2 ^ 3 + 2 ^ 13) / 2 ^ 13 % 2 = 1 := by omega
    simp only [Bool.false_eq_true, if_false, ho, decide_true, Bool.not_true]

theorem Reads.fragmented {buf : List UInt8} (r : Reads h f buf) (hf : f.Small) :
    (Net.packet buf e).Fragmented ↔ ¬(f.offset = 0 ∧ f.last = true) := by
  have := hf.offset
  have := hf.dvd
  simp only [Net.packet, Packet.Fragmented, r.fraginfo]
  cases f.last
  case true  => simp only [if_true, and_true]; omega
  case false => simp only [Bool.false_eq_true, if_false, and_false, not_false_iff, iff_true]; omega

-- A fragment is recognized by its bytes.
theorem wire_inj {g : Fragment} (hf : f.Small) (hg : g.Small) (he : h.wire f = h.wire g) : f.offset = g.offset := by
  have hf' := (reads_wire (h := h) hf).off (e := ⟨[], [], 0⟩) hf
  have hg' := (reads_wire (h := h) hg).off (e := ⟨[], [], 0⟩) hg
  rw [← hf', he, hg']

end Wire

section Send

variable {s t : Stack} {payload : List UInt8} {ip : Outgoing}

theorem drop_etherFrame (mac dst : Mac) (type : ℕ) (pkt : List UInt8) :
    (etherFrame mac dst type pkt).drop 14 = pkt ++ List.replicate (60 - 14 - pkt.length) 0 := by
  unfold etherFrame
  rw [List.append_assoc]
  exact List.drop_left' (by simp [nput16])

-- All that is sent are the fragments of the payload.
theorem ipv4Send_log (hl : payload ≠ []) : wlp (ipv4Send payload ip) (fun _ t => ∃ mac, t.log = s.log ++
    (pieces payload payload.length 0).map fun f => .frame (etherFrame s.mac mac ET_IPv4 ((s.sender ip).packet f))) s := by
  simp only [ipv4Send, wlp_bind, wlp_get, wlp_modify]
  rw [show 1500 - 20 = 1480 from rfl,
    show ipv4Packets (if ip.src = 0 then s.ip else ip.src) ip.dst ip.proto s.nextId payload payload.length 0 1480 =
      (pieces payload payload.length 0).map (s.sender ip).packet from ipv4Packets_eq (h := s.sender ip)]
  generalize hmac : (if ip.mac = none ∧ ip.dst = 0xFFFFFFFF then some MAC_BROADCAST else ip.mac) = mac
  cases mac
  case none =>
    -- The first packet does not get beyond `ether_start`.
    obtain ⟨f, hf, _⟩ := head_pieces (List.length_pos_iff.mpr hl) (List.length_pos_iff.mpr hl)
    obtain ⟨fs, hfs⟩ := List.head?_eq_some_iff.mp hf
    rw [hfs, List.map_cons]
    exact wlp_bind.mpr (wlp_throw.mpr trivial)
  case some mac =>
    let rest (l : List (List UInt8)) : List NetEvent := l.map fun pkt => .frame (etherFrame s.mac mac ET_IPv4 pkt)
    refine wlp_post (wlp_forM (fun l t => t.mac = s.mac ∧
      t.log ++ rest l = s.log ++ rest ((pieces payload payload.length 0).map (s.sender ip).packet)) ?_ ⟨rfl, rfl⟩) ?_
    · rintro pkt l t ⟨hm, ht⟩
      simp only [etherFinish, emit, wlp_bind, wlp_get, wlp_modify]
      refine ⟨hm, ?_⟩
      rw [← ht, hm, List.append_assoc]
      rfl
    · rintro _ t ⟨_, ht⟩
      refine ⟨mac, ?_⟩
      simpa [rest, Function.comp_def] using ht

-- The fragments as they are received.
theorem wires_of_send {frames : List (List UInt8)} (hl : payload ≠ []) (h : ipv4Send payload ip s = .ok (⟨⟩, t))
    (hlog : t.log = s.log ++ frames.map .frame) :
    frames.map (·.drop 14) = (pieces payload payload.length 0).map (s.sender ip).wire := by
  have ⟨mac, hm⟩ := wlp_of_ok h (ipv4Send_log hl)
  have hf := List.append_cancel_left (hlog.symm.trans hm)
  have hinj : frames = (pieces payload payload.length 0).map fun f => etherFrame s.mac mac ET_IPv4 ((s.sender ip).packet f) := by
    refine List.map_injective_iff.mpr (fun _ _ he => NetEvent.frame.inj he) ?_
    rw [hf, List.map_map]
    rfl
  rw [hinj, List.map_map]
  exact List.map_congr_left fun f _ => drop_etherFrame s.mac mac ET_IPv4 ((s.sender ip).packet f)

end Send
end Camellia.Net
