import Camellia.Cmd.Net.Fragments

namespace Camellia.Net

open Udp

-- The connection takes the datagram, and is established by it if it is listening.
def UdpConn.Takes (v : UdpConn) (d : Datagram) : Prop :=
  v.lport = d.dstport ∧ (v.onConn = true ∨ v.rip = d.src ∧ v.rport = d.srcport)

instance (v : UdpConn) (d : Datagram) : Decidable (v.Takes d) :=
  inferInstanceAs <| Decidable (_ ∧ _)

def Udp.Takes (s : Udp) (d : Datagram) : Prop :=
  ∃ c ∈ s.list, (s.conns.get c).any (decide <| ·.Takes d)

instance (s : Udp) (d : Datagram) : Decidable (s.Takes d) :=
  inferInstanceAs <| Decidable (∃ c ∈ s.list, _)

section Takes

variable {s : Udp} {d : Datagram} {c h : ℕ} {b : Bool} {l : List ℕ}

theorem udpDeliver_snd_of_takes (h : (s.conns.get c).any (decide <| ·.Takes d)) : (udpDeliver d (s, b) c).2 = true := by
  obtain ⟨v, hv, ht⟩ := (Option.any_eq_true _ _).mp h
  have ⟨hport, ht⟩ := of_decide_eq_true ht
  have hm : ((udpAccept s c d).conns.get c).any (decide <| ·.Matches d) := by
    simp only [udpAccept, withConn, hv, Option.elim_some]
    split
    case isTrue =>
      have hl : (udpListenCallback s c v.carg).conns.get c = some v := by
        rw [udpListenCallback_conns, hv]
      simp [setConn, Heap.get_set_self hl, UdpConn.Matches, hport]
    case isFalse ho =>
      have := ht.resolve_left fun ho' => ho ⟨ho', hport.symm⟩
      simp [hv, UdpConn.Matches, this, hport]
  simp only [udpDeliver]
  rw [if_pos hm]

theorem udpDeliver_of_not_takes (h : ¬(s.conns.get c).any (decide <| ·.Takes d)) :
    (udpDeliver d (s, b) c).2 = b ∧ (udpDeliver d (s, b) c).1.conns = s.conns := by
  cases hv : s.conns.get c
  case none => simp [udpDeliver, udpAccept, withConn, hv, crash]
  case some v =>
    have ht : ¬v.Takes d := by simpa [hv] using h
    have ha : udpAccept s c d = s := by
      simp only [udpAccept, withConn, hv, Option.elim_some]
      exact if_neg fun hc => ht ⟨hc.right.symm, .inl hc.left⟩
    have hm : ¬v.Matches d := fun hm => ht ⟨hm.right.right, .inr ⟨hm.left, hm.right.left⟩⟩
    simp [udpDeliver, ha, hv, hm]

theorem foldl_udpDeliver_of_active : (l.foldl (udpDeliver d) (s, true)).2 = true := by
  induction l generalizing s
  case nil => rfl
  case cons c l hi =>
    rw [List.foldl_cons]
    have ht : (udpDeliver d (s, true) c).2 = true := by
      by_cases h : (s.conns.get c).any (decide <| ·.Takes d)
      · exact udpDeliver_snd_of_takes h
      · exact (udpDeliver_of_not_takes h).left
    rw [← Prod.mk.eta (p := udpDeliver d (s, true) c), ht]
    exact hi

theorem foldl_udpDeliver :
    (l.foldl (udpDeliver d) (s, false)).2 = true ↔ ∃ c ∈ l, (s.conns.get c).any (decide <| ·.Takes d) := by
  induction l generalizing s
  case nil => simp
  case cons c l hi =>
    rw [List.foldl_cons, ← Prod.mk.eta (p := udpDeliver d (s, false) c)]
    by_cases h : (s.conns.get c).any (decide <| ·.Takes d)
    case pos =>
      rw [udpDeliver_snd_of_takes h]
      exact iff_of_true foldl_udpDeliver_of_active ⟨c, List.mem_cons_self .., h⟩
    case neg =>
      have ⟨hb, hc⟩ := udpDeliver_of_not_takes (b := false) h
      rw [hb, hi, hc]
      simp [h]

-- Whether the loop finds a connection is known beforehand.
theorem active_iff : s.active d = true ↔ s.Takes d :=
  foldl_udpDeliver

end Takes

-- A datagram can be parsed within `buf`, which may be longer than the datagram.
def DatagramFits (s : Udp) (buf : List UInt8) (len : ℕ) (ip : Packet) : Prop :=
  4 ≤ buf.length ∧
    if s.Takes (udpReceived buf len (nget16 buf 0) (nget16 buf 2) ip) then 8 ≤ len
    else ip.hlen + 8 ≤ ip.header.length

section Protocols

variable {s : Stack} {buf payload : List UInt8} {len : ℕ} {ip : Packet} {E : NetFault → Prop}

theorem wp_etherFinish {dst : Mac} {type : ℕ} {pkt : List UInt8} {Q : PUnit → Stack → Prop} :
    wp (etherFinish dst type pkt) Q E s ↔
      Q ⟨⟩ { s with log := s.log ++ [.frame (etherFrame s.mac dst type pkt)] } := by
  simp [etherFinish]

theorem wp_ipv4Send {ip : Outgoing} (h : ip.mac ≠ none) : wp (ipv4Send payload ip) (fun _ _ => True) E s := by
  obtain ⟨mac, hm⟩ := Option.ne_none_iff_exists'.mp h
  simp only [ipv4Send, wp_bind, wp_get, wp_modify, hm, reduceCtorEq, false_and, if_false]
  exact wp_forM (fun _ _ => True) (fun _ _ _ _ => wp_etherFinish.mpr trivial) trivial

theorem wp_icmpSend {type code : UInt8} : wp (icmpSend type code payload ip) (fun _ _ => True) E s :=
  wp_ipv4Send (Option.some_ne_none _)

theorem wp_icmpParse (h : len ≤ buf.length) : wp (icmpParse buf len ip) (fun _ _ => True) E s := by
  rw [icmpParse, wp_ite]
  refine ⟨fun _ => wp_pure.mpr trivial, fun hl => ?_⟩
  simp only [wp_bind, wp_load8, wp_get]
  rw [if_pos (by omega), wp_ite]
  refine ⟨fun _ => ?_, fun _ => wp_pure.mpr trivial⟩
  rw [wp_bind, wp_copy, if_pos (by omega)]
  exact wp_icmpSend

theorem wp_tcpReceived (h : len ≤ buf.length) : wp (tcpReceived buf len ip) (fun _ _ => True) E s := by
  rw [tcpReceived, wp_ite]
  refine ⟨fun _ => wp_pure.mpr trivial, fun hl => ?_⟩
  simp only [wp_bind, wp_load16, wp_load32]
  repeat rw [if_pos (by omega)]
  rw [wp_ite]
  refine ⟨fun _ => wp_pure.mpr trivial, fun hh => ?_⟩
  have := Nat.mod_le (len - nget16 buf 12 / 2 ^ 12 * 4) (2 ^ 16)
  rw [wp_bind, wp_copy, if_pos (by omega)]
  exact wp_modify.mpr trivial

variable (ho : ¬E .overread) (hu : ¬E .underflow)
include ho hu

theorem wp_udpArrived (h : len ≤ buf.length) :
    wp (udpArrived buf len ip) (fun _ _ => True) E s ↔ DatagramFits s.udp buf len ip := by
  simp only [udpArrived, wp_bind, wp_load16, wp_get, DatagramFits]
  by_cases h4 : 4 ≤ buf.length
  case neg =>
    simp only [h4, false_and, iff_false]
    by_cases h2 : 0 + 2 ≤ buf.length
    case pos => rwa [if_pos h2, if_neg not_false]
    case neg => rwa [if_neg h2]
  case pos =>
    rw [if_pos (by omega), if_pos (by omega), wp_ite, active_iff]
    simp only [h4, true_and, wp_bind, wp_modify, wp_lengthSub, wp_copy, wp_icmpSend, Nat.zero_add]
    split
    case isTrue ht =>
      split_ifs with h8 hc <;> simp_all
    case isFalse ht =>
      split_ifs with h8 <;> simp_all

theorem wp_ipv4Dispatch (h : len ≤ buf.length) : wp (ipv4Dispatch buf len ip) (fun _ _ => True) E s ↔
    (ip.proto = 0x11 → DatagramFits s.udp buf len ip) := by
  simp only [ipv4Dispatch, wp_bind, wp_emit]
  split
  case h_1 hp => simp [hp, wp_icmpParse h]
  case h_2 hp => simp [hp, wp_tcpReceived h]
  case h_3 hp => simp [hp, wp_udpArrived ho hu h]
  case h_4 hp => simpa using fun hp' => absurd hp' hp

end Protocols

-- The fragments of a datagram once a packet was inserted, unless it is dropped.
def Stack.inserted (s : Stack) (payload : List UInt8) (plen : ℕ) (ip : Packet) : Option (List Fragment) :=
  (insertAt ip.off (s.fragments ip.key)).bind fun p =>
    if ip.last ∧ p.2 ≠ [] then none else some (p.1 ++ ⟨ip.off, ip.last, payload.take plen⟩ :: p.2)

-- The datagram `buf` has a header, and some connection takes it.
def Taken (s : Udp) (buf : List UInt8) (ip : Packet) : Prop :=
  8 ≤ buf.length ∧ s.Takes (udpReceived buf buf.length (nget16 buf 0) (nget16 buf 2) ip)

def FragmentFits (s : Stack) (payload : List UInt8) (plen : ℕ) (ip : Packet) : Prop :=
  ∀ fs, s.inserted payload plen ip = some fs →
    plen ≤ payload.length ∧ (ip.off = 0 → ip.hlen ≤ ip.header.length) ∧
      (verdict fs = .finish → ip.proto = 0x11 → Taken s.udp (whole fs) ip)

-- The packet is the last missing fragment of a datagram.
def Finishes (s : Stack) (payload : List UInt8) (plen : ℕ) (ip : Packet) : Prop :=
  ∃ fs, s.inserted payload plen ip = some fs ∧ verdict fs = .finish

section Tryinsert

variable {s t : Stack} {payload : List UInt8} {plen i : ℕ} {inc : Fragmented} {ip : Packet} {e : Ethernet}
variable {E : NetFault → Prop} (ho : ¬E .overread) (hu : ¬E .underflow)

-- There is nothing behind the saved header.
theorem datagramFits_iff_taken {s : Udp} {buf : List UInt8} {h : Packet} (ip : Packet) (hh : h.header.length ≤ h.hlen)
    (hk : h.key = ip.key) : DatagramFits s buf buf.length { h with e := e } ↔ Taken s buf ip := by
  have hsrc : h.src = ip.src := congrArg Key.src hk
  have ht : s.Takes (udpReceived buf buf.length (nget16 buf 0) (nget16 buf 2) { h with e := e }) ↔
      s.Takes (udpReceived buf buf.length (nget16 buf 0) (nget16 buf 2) ip) := by
    have hv (v : UdpConn) : v.Takes (udpReceived buf buf.length (nget16 buf 0) (nget16 buf 2) { h with e := e }) ↔
        v.Takes (udpReceived buf buf.length (nget16 buf 0) (nget16 buf 2) ip) := by
      simp only [UdpConn.Takes, udpReceived, hsrc]
    simp only [Udp.Takes, hv]
  unfold DatagramFits Taken
  split
  case isTrue h => exact ⟨fun h' => ⟨h'.right, ht.mp h⟩, fun h' => ⟨by omega, h'.left⟩⟩
  case isFalse h =>
    refine ⟨fun h' => ?_, fun h' => absurd (ht.mpr h'.right) h⟩
    have := h'.right
    dsimp only at this
    omega

theorem fragmentFits_iff {fs : List Fragment} (hi : s.inserted payload plen ip = some fs) : FragmentFits s payload plen ip ↔
    plen ≤ payload.length ∧ (ip.off = 0 → ip.hlen ≤ ip.header.length) ∧
      (verdict fs = .finish → ip.proto = 0x11 → Taken s.udp (whole fs) ip) := by
  simp [FragmentFits, hi]

theorem finishes_iff {fs : List Fragment} (hi : s.inserted payload plen ip = some fs) :
    Finishes s payload plen ip ↔ verdict fs = .finish := by
  simp [Finishes, hi]

-- The fragment was inserted into the record of its datagram, whose header is `h` now.
structure Inserted (s u : Stack) (ip h : Packet) : Prop where
  live  : ∃ inc, u.incs.get (s.record ip.key) = some inc
  key   : h.key = ip.key
  hlen  : h.header.length ≤ h.hlen
  udp   : u.udp = s.udp
  kept  : u.kept = s.kept
  stale : u.stale = s.stale

theorem Inserted.fits {u : Stack} {h : Packet} {buf : List UInt8} (hu : Inserted s u ip h) :
    (h.proto = 0x11 → DatagramFits u.udp buf buf.length { h with e := e }) ↔ (ip.proto = 0x11 → Taken s.udp buf ip) := by
  have hproto : h.proto = ip.proto := congrArg Key.proto hu.key
  rw [hu.udp]
  exact imp_congr (by rw [hproto]) (datagramFits_iff_taken ip hu.hlen hu.key)

theorem wp_fragmentedTryinsert_of_none (hs : s.Ok) (hi : s.inserted payload plen ip = none) : ∃ t : Stack, t.stale = s.stale ∧
    ∀ {Q E}, wp (fragmentedTryinsert payload plen ip) Q E s ↔ Q ⟨⟩ t := by
  have ⟨t, inc, he, hw⟩ := wp_fragmentedTryinsert payload plen ip hs
  refine ⟨t, by rw [he.rest], fun {Q E} => ?_⟩
  rw [hw]
  rw [Stack.inserted, ← he.first] at hi
  cases ha : insertAt ip.off inc.first
  case none   => rfl
  case some p =>
    obtain ⟨front, back⟩ := p
    have hl : ip.last = true ∧ back ≠ [] := by simpa [ha] using hi
    exact iff_of_eq (if_pos hl)

theorem wp_fragmentedTryinsert_of_some {fs : List Fragment} (hs : s.Ok) (hi : s.inserted payload plen ip = some fs) :
    ∃ u h, Inserted s u ip h ∧ ∀ {Q E}, wp (fragmentedTryinsert payload plen ip) Q E s ↔
      if plen ≤ payload.length then
        if ip.off = 0 → ip.hlen ≤ ip.header.length then
          match verdict fs with
          | .wait    => Q ⟨⟩ u
          | .discard => Q ⟨⟩ (u.remove (s.record ip.key))
          | .finish  => wp (ipv4Dispatch (whole fs) (whole fs).length { h with e := ip.e }) (fun _ =>
              wp (fragmentedFree (s.record ip.key)) (fun _ => wp (follow (s.record ip.key)) Q E) E) E u
        else
          E .overread
      else
        E .overread := by
  have ⟨t, inc, he, hw⟩ := wp_fragmentedTryinsert payload plen ip hs
  have hg := he.has.right.left
  have ⟨x, hx, hok⟩ := he.ok.live _ he.has.left
  obtain rfl := Option.some.inj (hg.symm.trans hx)
  rw [Stack.inserted, ← he.first] at hi
  cases ha : insertAt ip.off inc.first
  case none   => simp [ha] at hi
  case some p =>
    obtain ⟨front, back⟩ := p
    rw [ha, Option.bind_some] at hi
    by_cases hl : ip.last = true ∧ back ≠ []
    case pos => simp [hl] at hi
    rw [if_neg hl, Option.some_inj] at hi
    generalize hinc : inc.insert ip front back (payload.take plen) = inc' at hw
    have hput : (t.put (s.record ip.key) inc').incs.get (s.record ip.key) = some inc' := Heap.get_set_self hg
    have hfirst : inc'.first = fs := by rw [← hinc]; exact hi
    have hnil : inc'.first ≠ [] := by rw [hfirst, ← hi]; simp
    have hrest : t.udp = s.udp ∧ t.kept = s.kept ∧ t.stale = s.stale := by rw [he.rest]; exact ⟨rfl, rfl, rfl⟩
    refine ⟨t.put (s.record ip.key) inc', inc'.h, ⟨⟨inc', hput⟩, ?_, ?_, hrest.left, hrest.right.left, hrest.right.right⟩,
      fun {Q E} => ?_⟩
    · rw [← hinc]
      exact key_insert front back _ he.has.right.right
    · rw [← hinc]
      exact (hok.insert (payload.take plen) ha).hlen
    · rw [hw, ha]
      dsimp only
      rw [if_neg hl, hinc, wp_fragmentedTryfinish hput hnil, hfirst]
      have hp : ¬(plen = 0 ∨ plen ≤ payload.length) ↔ ¬plen ≤ payload.length := by omega
      have hz : ip.off = 0 ∧ ¬(ip.hlen = 0 ∨ ip.hlen ≤ ip.header.length) ↔ ¬(ip.off = 0 → ip.hlen ≤ ip.header.length) := by
        omega
      cases verdict fs <;> simp only [hp, hz, ite_not]

include ho hu

-- The datagram is delivered, and its fragments are freed.
theorem wp_dispatch_freed {buf : List UInt8} (h : s.incs.get i = some inc) :
    wp (ipv4Dispatch buf buf.length ip) (fun _ => wp (fragmentedFree i) (fun _ => wp (follow i) (fun _ _ => True) E) E) E s ↔
      (ip.proto = 0x11 → DatagramFits s.udp buf buf.length ip) ∧ (s.kept i = true ∨ E .stale) := by
  by_cases hf : ip.proto = 0x11 → DatagramFits s.udp buf buf.length ip
  case neg =>
    refine iff_of_false (fun hw => hf ?_) fun hc => hf hc.left
    exact (wp_ipv4Dispatch ho hu le_rfl).mp (wp_mono hw (fun _ _ _ => trivial) fun _ => id)
  case pos =>
    have ⟨_, t, hr, _⟩ := wp_false_iff.mp ((wp_ipv4Dispatch (E := fun _ => False) id id le_rfl).mpr hf)
    have ht := wlp_of_ok hr ipv4Dispatch_dispatched
    rw [wp_iff_of_ok hr, wp_freed (ht.incs ▸ h), ht.kept]
    split
    case isTrue hk  => exact iff_of_true trivial ⟨hf, .inl hk⟩
    case isFalse hk => exact ⟨fun hs => ⟨hf, .inr hs⟩, fun hc => hc.right.resolve_left hk⟩

theorem wp_fragmentedTryinsert_iff (hs : s.Ok) : wp (fragmentedTryinsert payload plen ip) (fun _ _ => True) E s ↔
    FragmentFits s payload plen ip ∧ (Finishes s payload plen ip → s.kept (s.record ip.key) = true ∨ E .stale) := by
  cases hi : s.inserted payload plen ip
  case none =>
    have ⟨t, _, hw⟩ := wp_fragmentedTryinsert_of_none hs hi
    rw [hw, FragmentFits, Finishes]
    exact iff_of_true trivial ⟨by simp [hi], by simp [hi]⟩
  case some fs =>
    have ⟨u, h, hu', hw⟩ := wp_fragmentedTryinsert_of_some hs hi
    rw [hw, fragmentFits_iff hi, finishes_iff hi]
    by_cases hp : plen ≤ payload.length
    case neg =>
      rw [if_neg hp]
      exact iff_of_false ho fun h => hp h.left.left
    rw [if_pos hp]
    by_cases hz : ip.off = 0 → ip.hlen ≤ ip.header.length
    case neg =>
      rw [if_neg hz]
      exact iff_of_false ho fun h => hz h.left.right.left
    rw [if_pos hz]
    cases hv : verdict fs
    case wait    => exact iff_of_true trivial ⟨⟨hp, hz, nofun⟩, nofun⟩
    case discard => exact iff_of_true trivial ⟨⟨hp, hz, nofun⟩, nofun⟩
    case finish  =>
      have ⟨inc, hg⟩ := hu'.live
      dsimp only
      rw [wp_dispatch_freed ho hu hg, hu'.kept, hu'.fits]
      exact ⟨fun h => ⟨⟨hp, hz, fun _ => h.left⟩, fun _ => h.right⟩, fun h => ⟨h.left.right.right rfl, h.right rfl⟩⟩

end Tryinsert

section Frames

-- The headers of a packet are within its bytes, as far as they are read, and so is what they speak of.
def PacketFits (s : Stack) (buf : List UInt8) (e : Ethernet) : Prop :=
  1 ≤ buf.length ∧ (version buf = 4 → 4 ≤ buf.length ∧ (headerlen buf ≤ totallen buf → 20 ≤ buf.length ∧
    if (packet buf e).Fragmented then
      FragmentFits s (buf.drop (headerlen buf)) (totallen buf - headerlen buf) (packet buf e)
    else
      totallen buf ≤ buf.length → (packet buf e).proto = 0x11 →
        DatagramFits s.udp (buf.drop (headerlen buf)) (totallen buf - headerlen buf) (packet buf e)))

def PacketFinishes (s : Stack) (buf : List UInt8) (e : Ethernet) : Prop :=
  version buf = 4 ∧ headerlen buf ≤ totallen buf ∧ (packet buf e).Fragmented ∧
    Finishes s (buf.drop (headerlen buf)) (totallen buf - headerlen buf) (packet buf e)

def FrameFits (s : Stack) (frame : List UInt8) : Prop :=
  14 ≤ frame.length ∧ (nget16 frame 12 = ET_IPv4 →
    PacketFits s (frame.drop 14) ⟨(frame.drop 6).take 6, frame.take 6, nget16 frame 12⟩)

-- No read leaves the bytes it is about, and no length becomes negative.
def Within (x : NetM PUnit) (s : Stack) : Prop :=
  ∀ f, x s = .error f → f ≠ .overread ∧ f ≠ .underflow

variable {s t : Stack} {buf : List UInt8} {len : ℕ} {e : Ethernet} {E : NetFault → Prop}

theorem within_iff {x : NetM PUnit} :
    Within x s ↔ wp x (fun _ _ => True) (fun f => f ≠ .overread ∧ f ≠ .underflow) s :=
  ⟨wp_of_forall fun _ _ _ => trivial, fun h _ hr => by simpa using wp_of_error hr h⟩

theorem wp_arpParse (h : len ≤ buf.length) : wp (arpParse buf len) (fun _ _ => True) E s := by
  rw [arpParse, wp_ite]
  refine ⟨fun _ => wp_pure.mpr trivial, fun h8 => ?_⟩
  simp only [wp_bind, wp_load16]
  repeat rw [if_pos (by omega)]
  rw [wp_ite]
  refine ⟨fun _ => wp_pure.mpr trivial, fun _ => ?_⟩
  rw [wp_ite]
  refine ⟨fun _ => wp_pure.mpr trivial, fun h28 => ?_⟩
  simp only [wp_bind, wp_load32, wp_copy, wp_modify, wp_ite, wp_get, wp_pure, wp_etherFinish]
  split_ifs <;> first | omega | simp

theorem wp_ipv4Parse_iff (hs : s.Ok) (ho : ¬E .overread) (hu : ¬E .underflow) :
    wp (ipv4Parse buf buf.length e) (fun _ _ => True) E s ↔ PacketFits s buf e ∧
      (PacketFinishes s buf e → s.kept (s.record (packet buf e).key) = true ∨ E .stale) := by
  rw [wp_ipv4Parse, PacketFits, PacketFinishes]
  by_cases h1 : buf.length < 1
  case pos =>
    rw [if_pos h1]
    exact iff_of_false ho fun h => by omega
  by_cases hv : version buf = 4
  case neg => simp [h1, hv]; omega
  by_cases h4 : buf.length < 4
  case pos =>
    rw [if_neg h1, if_neg (not_not.mpr hv), if_pos h4]
    refine iff_of_false ho fun h => ?_
    have := (h.left.right hv).left
    omega
  by_cases ht : totallen buf < headerlen buf
  case pos => simp [h1, hv, h4, ht]; omega
  by_cases h20 : buf.length < 20
  case pos =>
    rw [if_neg h1, if_neg (not_not.mpr hv), if_neg h4, if_neg ht, if_pos h20]
    refine iff_of_false ho fun h => ?_
    have := ((h.left.right hv).right (by omega)).left
    omega
  rw [if_neg h1, if_neg (not_not.mpr hv), if_neg h4, if_neg ht, if_neg h20]
  by_cases hf : (packet buf e).Fragmented
  case pos =>
    rw [if_pos hf, if_pos hf, wp_fragmentedTryinsert_iff ho hu hs]
    refine ⟨fun h => ⟨⟨by omega, fun _ => ⟨by omega, fun _ => ⟨by omega, h.left⟩⟩⟩, fun hf => h.right hf.right.right.right⟩,
      fun h => ⟨((h.left.right hv).right (by omega)).right, fun hf' => h.right ⟨hv, by omega, hf, hf'⟩⟩⟩
  case neg =>
    have hnot : ¬(version buf = 4 ∧ headerlen buf ≤ totallen buf ∧ (packet buf e).Fragmented ∧
        Finishes s (buf.drop (headerlen buf)) (totallen buf - headerlen buf) (packet buf e)) := fun h => hf h.right.right.left
    rw [if_neg hf, if_neg hf]
    by_cases hl : buf.length < totallen buf
    case pos =>
      rw [if_pos hl]
      exact iff_of_true trivial
        ⟨⟨by omega, fun _ => ⟨by omega, fun _ => ⟨by omega, fun hl' => by omega⟩⟩⟩, fun h => absurd h hnot⟩
    case neg =>
      rw [if_neg hl, wp_ipv4Dispatch ho hu (by rw [List.length_drop]; omega)]
      exact ⟨fun h => ⟨⟨by omega, fun _ => ⟨by omega, fun _ => ⟨by omega, fun _ => h⟩⟩⟩, fun h => absurd h hnot⟩,
        fun h => ((h.left.right hv).right (by omega)).right (by omega)⟩

-- The frame decides whether it is parsed within its bytes, together with the connections and the
-- fragments which are there before.
theorem etherParse_within_iff {frame : List UInt8} (r : NetRun s) : Within (etherParse frame) s ↔ FrameFits s frame := by
  rw [within_iff, FrameFits]
  simp only [etherParse, wp_bind, wp_load16]
  by_cases h14 : 12 + 2 ≤ frame.length
  case neg =>
    rw [if_neg h14]
    exact iff_of_false (by simp) fun h => h14 h.left
  rw [if_pos h14, wp_modify]
  generalize hu : { s with queue := [], log := s.log ++ s.queue.map (NetEvent.respond · frame) } = u
  have hok : u.Ok := r.ok.congr (hu ▸ rfl) (hu ▸ rfl)
  split
  case h_1 ht =>
    have hlen : frame.length - 14 = (frame.drop 14).length := by rw [List.length_drop]
    rw [wp_bind, wp_lengthSub, if_pos h14, hlen, wp_ipv4Parse_iff hok (by simp) (by simp), ← hu]
    have hw : PacketFits s (frame.drop 14) ⟨(frame.drop 6).take 6, frame.take 6, 0x800⟩ ↔
        14 ≤ frame.length ∧ (nget16 frame 12 = ET_IPv4 →
          PacketFits s (frame.drop 14) ⟨(frame.drop 6).take 6, frame.take 6, nget16 frame 12⟩) := by
      rw [ht]
      exact ⟨fun h => ⟨h14, fun _ => h⟩, fun h => h.right rfl⟩
    exact ⟨fun h => hw.mp h.left, fun h => ⟨hw.mpr h, fun _ => .inr (by simp)⟩⟩
  case h_2 ht =>
    rw [wp_bind, wp_lengthSub, if_pos h14]
    refine iff_of_true (wp_arpParse (by rw [List.length_drop])) ⟨h14, fun h => ?_⟩
    simp [ht, ET_IPv4] at h
  case h_3 ht _ =>
    exact iff_of_true (wp_pure.mpr trivial) ⟨h14, fun h => absurd h ht⟩

-- A datagram which nobody takes is within its frame, since its header and what is behind it are.
theorem etherParse_within_iff_unreachable :
    let frame := etherFrame [] [] ET_IPv4 (ipv4Header 7 9 17 0 28 0 0 ++ nput16 1000 ++ nput16 80 ++ nput32 0)
    FrameFits (.init [] 9 fun _ => true) frame ∧ Within (etherParse frame) (.init [] 9 fun _ => true) := by
  have h : FrameFits (.init [] 9 fun _ => true)
      (etherFrame [] [] ET_IPv4 (ipv4Header 7 9 17 0 28 0 0 ++ nput16 1000 ++ nput16 80 ++ nput32 0)) := by
    refine ⟨by decide, fun _ => ⟨by decide, fun _ => ⟨by decide, fun _ => ⟨by decide, ?_⟩⟩⟩⟩
    rw [if_neg (by decide)]
    exact fun _ _ => ⟨by decide, by decide⟩
  exact ⟨h, (etherParse_within_iff .init).mpr h⟩

-- A fragment is as long as its header says, whatever the length of the frame.
theorem not_within_fragment : ¬∀ s frame, NetRun s → Within (etherParse frame) s := fun h =>
  (h (.init [] 9 fun _ => true) (etherFrame [] [] ET_IPv4 (ipv4Header 7 9 17 0 1500 0x2000 0)) .init .overread rfl).left rfl

end Frames
end Camellia.Net
