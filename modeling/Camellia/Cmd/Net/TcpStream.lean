import Camellia.Cmd.Net.TcpFrame

namespace Camellia.Net

open Tcp

-- The bytes which were put into the ring of a connection, in this order.
def storedBytes (c : ℕ) (log : List TcpEvent) : List UInt8 :=
  log.flatMap fun
    | .stored c' bytes => if c' = c then bytes else []
    | _                => []

-- The byte stream of a remote, where `byte p` has the sequence number `isn + p`. The SYN takes number 0.
structure Remote where
  isn  : UInt32
  byte : ℕ → UInt8

def Remote.bytes (r : Remote) (p len : ℕ) : List UInt8 :=
  (List.range len).map (r.byte <| p + ·)

def Remote.Slice (r : Remote) (p : ℕ) (seg : Segment) : Prop :=
  seg.seq = r.isn + UInt32.ofNat p ∧ seg.payload = r.bytes p seg.payload.length

instance {r : Remote} {p : ℕ} {seg : Segment} : Decidable (r.Slice p seg) :=
  inferInstanceAs <| Decidable (_ ∧ _)

-- The bytes which were put into the ring are those of the stream up to what is acknowledged.
structure Intact (r : Remote) (c : ℕ) (s : Tcp) : Prop where
  stored : storedBytes c s.log = r.bytes 1 (storedBytes c s.log).length
  lack   : ∀ v, s.conns.get c = some v → v.Past →
             v.lack = r.isn + 1 + UInt32.ofNat (storedBytes c s.log).length

-- The segments which a connection gets belong to its remote, where `P` is about those after the handshake.
def Streamed (r : Remote) (c : ℕ) (P : Tcp → TcpConn → Segment → ℕ → Prop) (s : Tcp) (i : TcpInput) : Prop :=
  ∀ buf ip seg v, i = .segment buf ip → tcpSegment buf ip = some seg → receiver s seg = some c →
    s.conns.get c = some v →
    (v.Past → ∃ p, r.Slice p seg ∧ P s v seg p) ∧
    (v.state = .LISTEN → seg.flags &&& FlagAll = FlagSYN ∧ seg.seq = r.isn) ∧
    (v.state = .SYN_SENT → seg.has FlagSYN = true → seg.seq = r.isn)

-- The data of the segment is put into the ring.
def TcpConn.Accepts (v : TcpConn) (seg : Segment) : Prop :=
  ¬(seg.has FlagACK = true ∧ v.state = .LAST_ACK) ∧ v.InSequence seg ∧ seg.payload ≠ []

-- The data starts behind what was stored before, and fits into the ring.
def Timely (c : ℕ) (s : Tcp) (v : TcpConn) (seg : Segment) (p : ℕ) : Prop :=
  v.Accepts seg → p = 1 + (storedBytes c s.log).length ∧ seg.payload.length + v.rx.used < v.rx.capacity

-- What all but the handshake and the data leave as it is.
structure Steady (c : ℕ) (s t : Tcp) : Prop where
  stored : storedBytes c t.log = storedBytes c s.log
  size   : s.conns.size ≤ t.conns.size
  conns  : ∀ v', t.conns.get c = some v' →
             (∃ v, s.conns.get c = some v ∧ v'.lack = v.lack ∧ (v'.Past ↔ v.Past)) ∨
             s.conns.size ≤ c ∧ ¬v'.Past

section Steady

variable {s t u : Tcp} {c c' h : ℕ} {v v' : TcpConn} {w w' : TcpHandle} {e : TcpEvent} {flags : UInt16}
variable {buf : List UInt8} {seg : Segment} {reqh : Int} {log es : List TcpEvent}

theorem storedBytes_append : storedBytes c (log ++ es) = storedBytes c log ++ storedBytes c es := by
  simp [storedBytes]

theorem storedBytes_eq_nil (es : List TcpEvent) (h : ∀ e ∈ es, ∀ bytes, e ≠ .stored c bytes) : storedBytes c es = [] := by
  refine List.flatMap_eq_nil_iff.mpr fun e he => ?_
  have hn := h e he
  cases e
  case stored c' bytes => exact if_neg fun hc => hn bytes (by rw [hc])
  all_goals rfl

theorem Steady.trans (h₁ : Steady c s t) (h₂ : Steady c t u) : Steady c s u where
  stored := h₂.stored.trans h₁.stored
  size   := h₁.size.trans h₂.size
  conns v'' hv'' := by
    obtain ⟨v', hv', hl', hp'⟩ | ⟨hs, hp⟩ := h₂.conns v'' hv''
    case inr => exact .inr ⟨h₁.size.trans hs, hp⟩
    obtain ⟨v, hv, hl, hp⟩ | ⟨hs, hp⟩ := h₁.conns v' hv'
    · exact .inl ⟨v, hv, hl'.trans hl, hp'.trans hp⟩
    · exact .inr ⟨hs, mt hp'.mp hp⟩

theorem Keeps.steady (h : Keeps s t) : Steady c s t where
  stored := by
    have ⟨es, hl, hn⟩ := h.log
    rw [hl, storedBytes_append, storedBytes_eq_nil es ?_, List.append_nil]
    rintro e he bytes rfl
    exact hn _ he
  size := h.size.ge
  conns v' hv' := by
    have ⟨v, hv, ha⟩ := h.conns c v' hv'
    exact .inl ⟨v, hv, ha.lack, ha.past⟩

theorem Steady.refl : Steady c s s :=
  Keeps.refl.steady

-- Neither the handles nor events other than storing matter.
theorem Steady.of_conns (hc : t.conns = s.conns) (hl : storedBytes c t.log = storedBytes c s.log) :
    Steady c s t where
  stored := hl
  size   := hc ▸ le_rfl
  conns v' hv' := .inl ⟨v', hc ▸ hv', rfl, Iff.rfl⟩

theorem Steady.emit (he : ∀ bytes, e ≠ .stored c bytes) : Steady c s (s.emit e) := by
  refine .of_conns rfl ?_
  rw [Tcp.emit, storedBytes_append, storedBytes_eq_nil [e] (by simpa using he), List.append_nil]

theorem Steady.emits (h : Steady c s t) (he : ∀ bytes, e ≠ .stored c bytes) : Steady c s (t.emit e) :=
  h.trans (.emit he)

theorem Steady.setConn (hc : s.conns.get c' = some v)
    (h : c = c' → v'.lack = v.lack ∧ (v'.Past ↔ v.Past)) : Steady c s (s.setConn c' v') := by
  refine ⟨rfl, by simp [Tcp.setConn], fun x hx => .inl ?_⟩
  rw [Tcp.setConn, Heap.get_set hc] at hx
  split at hx
  case isTrue he =>
    obtain rfl := Option.some.inj hx
    exact ⟨v, he ▸ hc, h he⟩
  case isFalse => exact ⟨x, hx, rfl, Iff.rfl⟩

theorem Steady.withConn {f : TcpConn → Tcp} (hf : ∀ v, s.conns.get c' = some v → Steady c s (f v)) :
    Steady c s (s.withConn c' f) := by
  unfold Tcp.withConn
  cases hc : s.conns.get c'
  case none   => exact Keeps.crash.steady
  case some v => exact hf v hc

theorem Steady.withHandle {f : TcpHandle → Tcp} (hf : ∀ w, s.handles.get h = some w → Steady c s (f w)) :
    Steady c s (s.withHandle h f) := by
  unfold Tcp.withHandle
  cases hh : s.handles.get h
  case none   => exact Keeps.crash.steady
  case some w => exact hf w hh

theorem onConn_steady : Steady c s (onConn s c') := by
  refine .withConn fun v _ => ?_
  split
  case isFalse => exact .refl
  case isTrue  => exact .trans (.emit (by simp)) (.withHandle fun w _ => .emits (.of_conns rfl rfl) (by simp))

theorem onRecv_steady : Steady c s (onRecv s c') := by
  refine .withConn fun v _ => ?_
  split
  · exact .trans (.emit (by simp)) tcpRecvCallback_keeps.steady
  · exact .refl

theorem onClose_steady : Steady c s (onClose s c') := by
  refine .withConn fun v _ => ?_
  split
  · exact .trans (.emit (by simp)) tcpCloseCallback_keeps.steady
  · exact .refl

theorem tcpFin_steady (hp : c = c' → ∀ v, s.conns.get c' = some v → v.Past) : Steady c s (tcpFin s c') := by
  refine tcpcSendraw_keeps.steady.trans (.trans (.withConn fun v hv => .emits (.setConn hv fun he => ?_) ?_)
    onClose_steady)
  · have ⟨x, hx, ha⟩ := tcpcSendraw_keeps.conns c' v hv
    exact ⟨rfl, fun _ => ha.past.mpr (hp he x hx), fun _ => by simp [TcpConn.Past]⟩
  · simp

theorem tcpcTryfree_steady : Steady c s (tcpcTryfree s c') := by
  refine .withConn fun v hv => ?_
  split
  case isFalse => exact .refl
  case isTrue =>
    refine ⟨rfl, by simp, fun x hx => ?_⟩
    rw [Heap.get_free] at hx
    split at hx
    · simp at hx
    · exact .inl ⟨x, hx, rfl, Iff.rfl⟩

theorem tcpcClose_steady (hp : ∀ v, s.conns.get c' = some v → v.Past) : Steady c s (tcpcClose s c') := by
  refine .withConn fun v hc => ?_
  split
  case isTrue  => exact Keeps.crash.steady
  case isFalse =>
    have h₁ : Steady c s ((s.setConn c' { v with uclosed := true }).emit (.closed c')) :=
      .emits (.setConn hc fun _ => ⟨rfl, Iff.rfl⟩) (by simp)
    have hp₁ : ∀ x, ((s.setConn c' { v with uclosed := true }).emit (.closed c')).conns.get c' = some x → x.Past :=
      forall_setConn hc (hp v hc)
    dsimp only
    split
    case isFalse => exact h₁.trans tcpcTryfree_steady
    case isTrue =>
      refine h₁.trans (tcpcSendraw_keeps.steady.trans (.trans (.withConn fun x hx => .setConn hx fun _ => ?_)
        tcpcTryfree_steady))
      have ⟨y, hy, ha⟩ := tcpcSendraw_keeps.conns c' x hx
      exact ⟨rfl, fun _ => ha.past.mpr (hp₁ y hy), fun _ => by simp [TcpConn.Past]⟩

theorem connsAppend_steady (hv : ¬v.Past) : Steady c s (connsAppend s v) := by
  refine ⟨rfl, by simp [connsAppend], fun x hx => ?_⟩
  rw [connsAppend, Heap.get_alloc] at hx
  split at hx
  case isTrue hc =>
    obtain rfl := Option.some.inj hx
    exact .inr ⟨hc.ge, hv⟩
  case isFalse => exact .inl ⟨x, hx, rfl, Iff.rfl⟩

theorem fsClose_steady {p : ℕ} (hl : Linked s) : Steady c s (fsClose s p reqh) := by
  refine .withHandle fun w hw => ?_
  cases hc : w.c
  case none => exact Keeps.crash.steady
  case some c' =>
    dsimp only [Option.elim]
    have h₁ := tcpcClose_steady (c := c) fun v hv => ((hl p w c' hw hc).right v hv).right
    exact h₁.trans (.emits (.of_conns rfl rfl) (by simp))

theorem tcpConnect_steady {buf : Mem} {rmac : Option Mac} {dst : UInt32} {port : UInt16} {p : ℕ} :
    Steady c s (tcpConnect s buf rmac dst port p) := by
  unfold tcpConnect
  split
  · exact tcpCloseCallback_keeps.steady
  · refine .trans (connsAppend_steady ?_) (tcpcSendraw_keeps.steady.trans withConn_lseq_keeps.steady)
    simp [TcpConn.Past, tcpConn]

-- The invariant, where connections which are not past their handshake have stored nothing.
structure Streaming (r : Remote) (c : ℕ) (s : Tcp) : Prop extends Intact r c s where
  fresh  : ∀ v, s.conns.get c = some v → ¬v.Past → storedBytes c s.log = []
  unborn : s.conns.size ≤ c → storedBytes c s.log = []

variable {r : Remote}

theorem Streaming.steady (h : Streaming r c s) (hs : Steady c s t) : Streaming r c t where
  stored := by rw [hs.stored]; exact h.stored
  lack v' hv' hp' := by
    obtain ⟨v, hv, hl, hp⟩ | ⟨_, hp⟩ := hs.conns v' hv'
    · rw [hl, hs.stored, h.lack v hv (hp.mp hp')]
    · exact absurd hp' hp
  fresh v' hv' hp' := by
    rw [hs.stored]
    obtain ⟨v, hv, _, hp⟩ | ⟨hsize, _⟩ := hs.conns v' hv'
    · exact h.fresh v hv (mt hp.mpr hp')
    · exact h.unborn hsize
  unborn hsize := by
    rw [hs.stored]
    exact h.unborn (hs.size.trans hsize)

-- The handshake of the connection.
theorem Streaming.shake (h : Streaming r c s) (hc : s.conns.get c' = some v) (hv : ¬v.Past)
    (hl : c = c' → v'.lack = r.isn + 1) (hv' : v'.Past) : Streaming r c (s.setConn c' v') := by
  refine { h with lack := fun x hx hp => ?_, fresh := fun x hx hp => ?_, unborn := fun hs => h.unborn ?_ }
  all_goals try rw [Tcp.setConn, Heap.get_set hc] at hx
  · split at hx
    case isTrue he =>
      obtain rfl := Option.some.inj hx
      have hn : storedBytes c (s.setConn c' v').log = [] := h.fresh v (he ▸ hc) hv
      rw [hl he, hn, List.length_nil]
      simp
    case isFalse => exact h.lack x hx hp
  · split at hx
    case isTrue =>
      obtain rfl := Option.some.inj hx
      exact absurd hv' hp
    case isFalse => exact h.fresh x hx hp
  · simpa [Tcp.setConn] using hs

theorem tcpAccept_streaming (h : Streaming r c s) (hc : s.conns.get c' = some v) (hs : v.state = .LISTEN)
    (hseq : c = c' → seg.seq = r.isn) : Streaming r c (tcpAccept s c' v seg) := by
  refine Streaming.steady (s := s.setConn c' { v with
    state := .SYN_RCVD, rip := seg.src, rport := seg.srcport, lack := seg.seq + 1, rmac := seg.mac }) ?_ ?_
  · exact h.shake hc (by simp [TcpConn.Past, hs]) (fun he => by simp [hseq he]) (by simp [TcpConn.Past])
  · exact tcpcSendraw_keeps.steady.trans (withConn_lseq_keeps.steady.trans onConn_steady)

theorem tcpConnected_streaming (h : Streaming r c s) (hc : s.conns.get c' = some v) (hs : v.state = .SYN_SENT)
    (hseq : c = c' → seg.seq = r.isn) : Streaming r c (tcpConnected s c' v seg) := by
  refine Streaming.steady (s := s.setConn c' { v with state := .ESTABILISHED, lack := seg.seq + 1 }) ?_ ?_
  · exact h.shake hc (by simp [TcpConn.Past, hs]) (fun he => by simp [hseq he]) (by simp [TcpConn.Past])
  · exact tcpcSendraw_keeps.steady.trans onConn_steady

theorem Remote.bytes_add {p m n : ℕ} : r.bytes p (m + n) = r.bytes p m ++ r.bytes (p + m) n := by
  simp [Remote.bytes, List.range_add, Nat.add_assoc]

-- New data comes behind the data which was stored before.
theorem Streaming.store (h : Streaming r c s) (hc : s.conns.get c = some v)
    (hs : r.Slice (1 + (storedBytes c s.log).length) seg) (hp : v'.Past)
    (hl : v'.lack = seg.seq + UInt32.ofNat seg.payload.length) :
    Streaming r c ((s.setConn c v').emit (.stored c seg.payload)) := by
  have hlog : storedBytes c ((s.setConn c v').emit (.stored c seg.payload)).log =
      storedBytes c s.log ++ seg.payload := by
    simp [Tcp.emit, Tcp.setConn, storedBytes]
  refine { stored := ?_, lack := fun x hx _ => ?_, fresh := fun x hx hn => ?_, unborn := fun hsize => ?_ }
  · rw [hlog, List.length_append, Remote.bytes_add, ← h.stored, ← hs.right]
  · obtain rfl := Option.some.inj ((Heap.get_set_self hc).symm.trans hx)
    rw [hl, hlog, hs.left, List.length_append, UInt32.ofNat_add, UInt32.ofNat_add]
    simp only [UInt32.add_assoc]
    rfl
  · obtain rfl := Option.some.inj ((Heap.get_set_self hc).symm.trans hx)
    exact absurd hp hn
  · have := Heap.lt_size hc
    simp only [Tcp.emit, Tcp.setConn, Heap.size_set] at hsize
    omega

theorem tcpPayload_streaming (h : Streaming r c s) (hc : s.conns.get c' = some v) (ha : Alike v v')
    (ht : c = c' → v.Past ∧ r.Slice (1 + (storedBytes c s.log).length) seg ∧
      seg.payload.length + v'.rx.used < v'.rx.capacity) : Streaming r c (tcpPayload s c' v' seg) := by
  unfold tcpPayload
  generalize hx : { v' with
    lack := seg.seq + UInt32.ofNat seg.payload.length, rx := v'.rx.put seg.payload } = x
  refine Streaming.steady (s := (s.setConn c' x).emit (.stored c' (v'.rx.fitting seg.payload))) ?_
    (onRecv_steady.trans tcpcSendraw_keeps.steady)
  by_cases he : c = c'
  case pos =>
    have ⟨hp, hs, hfit⟩ := ht he
    subst he
    rw [Ring.fitting_of_le hfit]
    refine h.store hc hs ?_ (by simp [← hx])
    have hst : x.state = v.state := by rw [← hx, ← ha.state]
    rwa [TcpConn.Past, hst]
  case neg =>
    refine h.steady (.emits (.setConn hc fun h => absurd h he) fun bytes hb => ?_)
    exact he (TcpEvent.stored.inj hb).left.symm

theorem tcpReceive_streaming (h : Streaming r c s) (hc : s.conns.get c' = some v)
    (ht : c = c' → v.Past ∧ (v.Accepts seg → r.Slice (1 + (storedBytes c s.log).length) seg ∧
      seg.payload.length + v.rx.used < v.rx.capacity)) : Streaming r c (tcpReceive s c' v seg) := by
  unfold tcpReceive
  generalize hv' : (if seg.has FlagACK = true ∧ v.rack < seg.acknum then { v with rack := seg.acknum } else v) = v'
  have ha : Alike v v' := by rw [← hv']; split <;> exact ⟨rfl, rfl, rfl, rfl, rfl⟩
  have hrx : v'.rx = v.rx := by rw [← hv']; split <;> rfl
  have hi : v'.InSequence seg ↔ v.InSequence seg := by rw [TcpConn.InSequence, ha.lack]; rfl
  have hk : Keeps s (s.setConn c' v') := .setConn hc ha
  dsimp only
  split
  case isTrue hack =>
    have h₁ : Steady c s (s.setConn c' { v' with state := .CLOSED }) :=
      .setConn hc fun he => ⟨ha.lack, fun _ => (ht he).left, fun _ => by simp [TcpConn.Past]⟩
    exact h.steady (h₁.trans tcpcTryfree_steady)
  case isFalse hack =>
    split
    case isTrue => exact h.steady (hk.steady.trans tcpcSendraw_keeps.steady)
    case isFalse hseq =>
      have hp : Streaming r c (if seg.payload ≠ [] then tcpPayload s c' v' seg else s.setConn c' v') := by
        split
        case isTrue hne =>
          refine tcpPayload_streaming h hc ha fun he => ⟨(ht he).left, ?_⟩
          rw [hrx]
          refine (ht he).right ⟨fun hf => hack ⟨hf.left, ?_⟩, ?_, hne⟩
          · exact ha.state.trans hf.right
          · exact hi.mp (not_not.mp hseq)
        case isFalse => exact h.steady hk.steady
      have hpast : c = c' → ∀ x, (if seg.payload ≠ [] then tcpPayload s c' v' seg
          else s.setConn c' v').conns.get c' = some x → x.Past := fun he => by
        have hf : Forward s (if seg.payload ≠ [] then tcpPayload s c' v' seg else s.setConn c' v') := by
          split
          · exact tcpPayload_forward hc ha
          · exact hk.forward
        exact hf.past hc (ht he).left
      split
      · exact hp.steady (tcpFin_steady hpast)
      · exact hp

theorem tcpParse_streaming {ip : Ipv4} (h : Streaming r c s)
    (hi : Streamed r c (Timely c) s (.segment buf ip)) : Streaming r c (tcpParse s buf ip) := by
  unfold tcpParse
  cases hseg : tcpSegment buf ip
  case none => exact h
  case some seg =>
    simp only [Option.elim, tcpInput]
    split
    case h_2 =>
      split
      · exact h
      · exact h.steady (.emit (by simp))
    case h_1 c' hr =>
      unfold Tcp.withConn
      cases hc : s.conns.get c'
      case none   => exact h.steady Keeps.crash.steady
      case some v =>
        have ht : c = c' → _ := fun he => hi buf ip seg v rfl hseg (he ▸ hr) (he ▸ hc)
        dsimp only [Option.elim]
        unfold tcpDispatch
        split_ifs with hl hs hf
        · exact tcpAccept_streaming h hc hl.left fun he => ((ht he).right.left hl.left).right
        · exact tcpConnected_streaming h hc hs fun he => (ht he).right.right hs hf
        · exact h
        · refine tcpReceive_streaming h hc fun he => ?_
          obtain ⟨hp, hlisten, _⟩ := ht he
          have hv : v.Past := ⟨fun hv => hl ⟨hv, (hlisten hv).left⟩, hs⟩
          refine ⟨hv, fun hacc => ?_⟩
          obtain ⟨p, hslice, htime⟩ := hp hv
          obtain ⟨hp, hfit⟩ := htime hacc
          exact ⟨hp ▸ hslice, hfit⟩

theorem tcpStep_streaming {i : TcpInput} (h : Streaming r c s) (hl : Linked s)
    (hi : Streamed r c (Timely c) s i) : Streaming r c (tcpStep s i) := by
  have ho : ∀ reqh, Steady c s (tcpOpen s reqh) := fun reqh => .of_conns rfl rfl
  cases i
  case segment => exact tcpParse_streaming h hi
  case listen  => exact h.steady ((ho _).trans (connsAppend_steady (by simp [TcpConn.Past, tcpConn])))
  case connect => exact h.steady ((ho _).trans tcpConnect_steady)
  case read    => exact h.steady fsRead_keeps.steady
  case write   => exact h.steady fsWrite_keeps.steady
  case close   => exact h.steady (fsClose_steady hl)

theorem Streaming.init {ip : UInt32} : Streaming r c (.init ip) where
  stored := rfl
  lack   := by simp [Tcp.init]
  fresh  := by simp [Tcp.init]
  unborn := fun _ => rfl

theorem TcpRun.streaming {ip : UInt32} (h : TcpRun (Streamed r c (Timely c)) ip s) : Streaming r c s := by
  induction h
  case init           => exact .init
  case step h _ hi ih => exact tcpStep_streaming ih h.linked hi

end Steady

-- In every run in which the data of a connection comes in order and fits into its ring, none is lost or doubled.
theorem TcpRun.intact {r : Remote} {c : ℕ} {s : Tcp} {ip : UInt32}
    (h : TcpRun (Streamed r c (Timely c)) ip s) : Intact r c s :=
  h.streaming.toIntact

section Overlap

variable {r : Remote} {c : ℕ} {P : Tcp → TcpConn → Segment → ℕ → Prop} {s : Tcp} {buf : List UInt8} {ip : Ipv4}
variable {seg : Segment} {v : TcpConn}

-- The condition for a segment of which the content is known.
theorem Streamed.of_segment (hseg : tcpSegment buf ip = some seg) (hc : s.conns.get c = some v)
    (hpast : v.Past → ∃ p, r.Slice p seg ∧ P s v seg p)
    (hlisten : v.state = .LISTEN → seg.flags &&& FlagAll = FlagSYN ∧ seg.seq = r.isn)
    (hsent : v.state = .SYN_SENT → seg.has FlagSYN = true → seg.seq = r.isn) :
    Streamed r c P s (.segment buf ip) := by
  intro _ _ seg' v' hi hseg' _ hc'
  cases hi
  obtain rfl := Option.some.inj (hseg.symm.trans hseg')
  obtain rfl := Option.some.inj (hc.symm.trans hc')
  exact ⟨hpast, hlisten, hsent⟩

-- A remote of which the byte `p` is `p`.
def counting : Remote :=
  ⟨100, UInt8.ofNat⟩

theorem tcpAccepted_streamed : TcpRun (Streamed counting 0 P) 9 tcpAccepted := by
  refine .step (.step .init rfl (by simp [Streamed])) rfl (.of_segment rfl rfl ?_ ?_ ?_)
  · exact fun h => absurd rfl h.left
  · exact fun _ => by decide
  · exact fun h => by cases h

-- The peer sends the first two bytes.
theorem intact_counting :
    Intact counting 0 (tcpStep tcpAccepted (fromPeer FlagACK 101 1 [1, 2])) := by
  refine TcpRun.intact (.step tcpAccepted_streamed rfl (.of_segment rfl rfl ?_ ?_ ?_))
  · exact fun _ => ⟨1, by decide, fun _ => by decide⟩
  · exact fun h => by cases h
  · exact fun h => by cases h

-- The peer repeats the last byte together with the next one, and the byte is stored twice.
theorem not_intact_overlap : ∃ s, TcpRun (Streamed counting 0 fun _ _ _ _ => True) 9 s ∧ ¬Intact counting 0 s := by
  refine ⟨tcpStep (tcpStep tcpAccepted (fromPeer FlagACK 101 1 [1, 2])) (fromPeer FlagACK 102 1 [2, 3]), ?_,
    fun h => absurd h.stored (by decide)⟩
  refine .step (.step tcpAccepted_streamed rfl (.of_segment rfl rfl ?_ ?_ ?_)) rfl (.of_segment rfl rfl ?_ ?_ ?_)
  · exact fun _ => ⟨1, by decide, trivial⟩
  · exact fun h => by cases h
  · exact fun h => by cases h
  · exact fun _ => ⟨2, by decide, trivial⟩
  · exact fun h => by cases h
  · exact fun h => by cases h

end Overlap
end Camellia.Net
