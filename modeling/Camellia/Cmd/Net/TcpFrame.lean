import Camellia.Cmd.Net.Tcp

namespace Camellia.Net

open Tcp

-- A connection which is past its handshake.
def TcpConn.Past (v : TcpConn) : Prop :=
  v.state ≠ .LISTEN ∧ v.state ≠ .SYN_SENT

-- Events which are not about the life of a connection.
def TcpEvent.Neutral : TcpEvent → Prop
  | callback _ | closed _ | stored .. | fin _ => False
  | _                                         => True

-- What the sends and the reads leave of a connection as it is.
structure Alike (v v' : TcpConn) : Prop where
  uclosed : v'.uclosed = v.uclosed
  state   : v'.state = v.state
  onClose : v'.onClose = v.onClose
  lack    : v'.lack = v.lack
  carg    : v'.carg = v.carg

theorem Alike.refl {v : TcpConn} : Alike v v :=
  ⟨rfl, rfl, rfl, rfl, rfl⟩

theorem Alike.trans {v v' v'' : TcpConn} (h₁ : Alike v v') (h₂ : Alike v' v'') : Alike v v'' where
  uclosed := h₂.uclosed.trans h₁.uclosed
  state   := h₂.state.trans h₁.state
  onClose := h₂.onClose.trans h₁.onClose
  lack    := h₂.lack.trans h₁.lack
  carg    := h₂.carg.trans h₁.carg

theorem Alike.past {v v' : TcpConn} (h : Alike v v') : v'.Past ↔ v.Past := by
  rw [TcpConn.Past, TcpConn.Past, h.state]

-- What the sends and the callbacks leave as it is.
structure Keeps (s t : Tcp) : Prop where
  conns   : ∀ c v', t.conns.get c = some v' → ∃ v, s.conns.get c = some v ∧ Alike v v'
  size    : t.conns.size = s.conns.size
  handles : ∀ h w', t.handles.get h = some w' → ∃ w, s.handles.get h = some w ∧ w'.c = w.c
  log     : ∃ es, t.log = s.log ++ es ∧ ∀ e ∈ es, e.Neutral

section Keeps

variable {s t u : Tcp} {c h : ℕ} {v v' : TcpConn} {w w' : TcpHandle} {e : TcpEvent} {flags : UInt16}
variable {buf : List UInt8}

theorem Keeps.refl : Keeps s s :=
  ⟨fun _ v h => ⟨v, h, .refl⟩, rfl, fun _ w h => ⟨w, h, rfl⟩, [], by simp, by simp⟩

theorem Keeps.trans (h₁ : Keeps s t) (h₂ : Keeps t u) : Keeps s u where
  conns c v'' hc := by
    have ⟨v', hc', ha'⟩ := h₂.conns c v'' hc
    have ⟨v, hc, ha⟩ := h₁.conns c v' hc'
    exact ⟨v, hc, ha.trans ha'⟩
  size := h₂.size.trans h₁.size
  handles h w'' hh := by
    have ⟨w', hh', hc'⟩ := h₂.handles h w'' hh
    have ⟨w, hh, hc⟩ := h₁.handles h w' hh'
    exact ⟨w, hh, hc'.trans hc⟩
  log := by
    have ⟨es₁, hl₁, hn₁⟩ := h₁.log
    have ⟨es₂, hl₂, hn₂⟩ := h₂.log
    refine ⟨es₁ ++ es₂, by rw [hl₂, hl₁, List.append_assoc], fun e he => ?_⟩
    exact (List.mem_append.mp he).elim (hn₁ e) (hn₂ e)

theorem Keeps.crash : Keeps s s.crash :=
  ⟨Keeps.refl.conns, rfl, Keeps.refl.handles, [], by simp [Tcp.crash], by simp⟩

theorem Keeps.emit (he : e.Neutral) : Keeps s (s.emit e) :=
  ⟨Keeps.refl.conns, rfl, Keeps.refl.handles, [e], rfl, by simpa using he⟩

theorem Keeps.setConn (hc : s.conns.get c = some v) (ha : Alike v v') : Keeps s (s.setConn c v') := by
  refine ⟨fun c' x hx => ?_, Heap.size_set, Keeps.refl.handles, [], by simp [Tcp.setConn], by simp⟩
  rw [Tcp.setConn, Heap.get_set hc] at hx
  split at hx
  case isTrue he =>
    obtain rfl := Option.some.inj hx
    exact ⟨v, he ▸ hc, ha⟩
  case isFalse => exact ⟨x, hx, .refl⟩

theorem Keeps.setHandle (hh : s.handles.get h = some w) (hc : w'.c = w.c) : Keeps s (s.setHandle h w') := by
  refine ⟨Keeps.refl.conns, rfl, fun h' x hx => ?_, [], by simp [Tcp.setHandle], by simp⟩
  rw [Tcp.setHandle, Heap.get_set hh] at hx
  split at hx
  case isTrue he =>
    obtain rfl := Option.some.inj hx
    exact ⟨w, he ▸ hh, hc⟩
  case isFalse => exact ⟨x, hx, rfl⟩

theorem Keeps.emits (h : Keeps s t) (he : e.Neutral) : Keeps s (t.emit e) :=
  h.trans (.emit he)

theorem Keeps.withConn {f : TcpConn → Tcp} (hf : ∀ v, s.conns.get c = some v → Keeps s (f v)) :
    Keeps s (s.withConn c f) := by
  unfold Tcp.withConn
  cases hc : s.conns.get c
  case none   => exact .crash
  case some v => exact hf v hc

theorem Keeps.withHandle {f : TcpHandle → Tcp} (hf : ∀ w, s.handles.get h = some w → Keeps s (f w)) :
    Keeps s (s.withHandle h f) := by
  unfold Tcp.withHandle
  cases hh : s.handles.get h
  case none   => exact .crash
  case some w => exact hf w hh

theorem tcpcSendraw_keeps : Keeps s (tcpcSendraw s c flags buf) := by
  refine .withConn fun _ hc => ?_
  exact Keeps.emits (.setConn hc ⟨rfl, rfl, rfl, rfl, rfl⟩) trivial

theorem tcpRecvCallback_keeps : Keeps s (tcpRecvCallback s h) := by
  refine .withHandle fun w hw => ?_
  split
  case isFalse => exact .refl
  case isTrue =>
    cases hc : w.c
    case none   => exact .crash
    case some c =>
      refine .withConn fun v hv => ?_
      have hs := @Keeps.setConn _ _ _ { v with rx := (v.rx.get (min w.readcap 1024)).2 } hv
        ⟨rfl, rfl, rfl, rfl, rfl⟩
      refine hs.trans ?_
      dsimp only
      split
      · exact Keeps.emits (.setHandle hw (by exact hc.symm)) trivial
      · exact .setHandle hw (by exact hc.symm)

theorem tcpCloseCallback_keeps : Keeps s (tcpCloseCallback s h) := by
  refine .withHandle fun w hw => ?_
  split
  · exact Keeps.emits (.setHandle hw (by rfl)) trivial
  · exact .setHandle hw rfl

-- Whatever a connection has in common with the one before is known after the next send as well.
theorem Keeps.forall {P : TcpConn → Prop} (hk : Keeps s t) (hP : ∀ v v', Alike v v' → P v → P v')
    (h : ∀ v, s.conns.get c = some v → P v) (v' : TcpConn) (hv' : t.conns.get c = some v') : P v' :=
  have ⟨v, hv, ha⟩ := hk.conns c v' hv'
  hP v v' ha (h v hv)

theorem forall_setConn {P : TcpConn → Prop} (hc : s.conns.get c = some v) (h : P v') (x : TcpConn)
    (hx : (s.setConn c v').conns.get c = some x) : P x :=
  Option.some.inj ((Heap.get_set_self hc).symm.trans hx) ▸ h

theorem onRecv_forall {P : TcpConn → Prop} (hP : ∀ v v', Alike v v' → P v → P v')
    (h : ∀ v, s.conns.get c = some v → P v) : ∀ v, (onRecv s c).conns.get c = some v → P v := by
  unfold onRecv Tcp.withConn
  cases hv : s.conns.get c
  case none => exact fun v hc => h v (hv ▸ hc)
  case some v =>
    dsimp only [Option.elim]
    split
    · exact tcpRecvCallback_keeps.forall (s := s.emit (.callback c)) hP h
    · exact h

theorem tcpPayload_forall {seg : Segment} {P : TcpConn → Prop} (hc : s.conns.get c = some v)
    (hP : ∀ v v', Alike v v' → P v → P v')
    (h : P { v' with lack := seg.seq + UInt32.ofNat seg.payload.length, rx := v'.rx.put seg.payload }) :
    ∀ x, (tcpPayload s c v' seg).conns.get c = some x → P x := by
  unfold tcpPayload
  refine tcpcSendraw_keeps.forall hP (onRecv_forall hP ?_)
  exact forall_setConn hc h

end Keeps

-- How connections and handles may change at all: a connection keeps its handle and does not go back to its
-- handshake, and only a connection which is past its handshake is given to its handle.
structure Forward (s t : Tcp) : Prop where
  size    : s.conns.size ≤ t.conns.size
  conns   : ∀ c v', c < s.conns.size → t.conns.get c = some v' →
              ∃ v, s.conns.get c = some v ∧ v'.carg = v.carg ∧ (v.Past → v'.Past)
  handles : ∀ h w' c, t.handles.get h = some w' → w'.c = some c →
              (∃ w, s.handles.get h = some w ∧ w.c = some c) ∨
              c < t.conns.size ∧ ∀ v', t.conns.get c = some v' → v'.carg = h ∧ v'.Past

-- The handles belong to connections which are past their handshakes.
def Linked (s : Tcp) : Prop :=
  ∀ h w c, s.handles.get h = some w → w.c = some c →
    c < s.conns.size ∧ ∀ v, s.conns.get c = some v → v.carg = h ∧ v.Past

section Forward

variable {s t u : Tcp} {c h : ℕ} {v v' : TcpConn} {w w' : TcpHandle} {e : TcpEvent} {flags : UInt16}
variable {buf : List UInt8} {seg : Segment} {reqh : Int}

theorem Forward.trans (h₁ : Forward s t) (h₂ : Forward t u) : Forward s u where
  size := h₁.size.trans h₂.size
  conns c v'' hc hv'' := by
    have ⟨v', hv', hcarg', hp'⟩ := h₂.conns c v'' (hc.trans_le h₁.size) hv''
    have ⟨v, hv, hcarg, hp⟩ := h₁.conns c v' hc hv'
    exact ⟨v, hv, hcarg'.trans hcarg, hp' ∘ hp⟩
  handles h w'' c hw'' hc := by
    obtain ⟨w', hw', hc'⟩ | hu := h₂.handles h w'' c hw'' hc
    case inr => exact .inr hu
    obtain hs | ⟨hlt, ht⟩ := h₁.handles h w' c hw' hc'
    case inl => exact .inl hs
    refine .inr ⟨hlt.trans_le h₂.size, fun v'' hv'' => ?_⟩
    have ⟨v', hv', hcarg, hp⟩ := h₂.conns c v'' hlt hv''
    exact ⟨hcarg.trans (ht v' hv').left, hp (ht v' hv').right⟩

theorem Keeps.forward (h : Keeps s t) : Forward s t where
  size := h.size.ge
  conns c v' _ hv' := by
    have ⟨v, hv, ha⟩ := h.conns c v' hv'
    exact ⟨v, hv, ha.carg, ha.past.mpr⟩
  handles p w' _ hw' hc := by
    have ⟨w, hw, hwc⟩ := h.handles p w' hw'
    exact .inl ⟨w, hw, hwc ▸ hc⟩

theorem Forward.refl : Forward s s :=
  Keeps.refl.forward

theorem Forward.emit : Forward s (s.emit e) :=
  ⟨Forward.refl.size, Forward.refl.conns, Forward.refl.handles⟩

theorem Forward.emits (h : Forward s t) : Forward s (t.emit e) :=
  h.trans .emit

theorem Forward.crash : Forward s s.crash :=
  Keeps.crash.forward

theorem Forward.setConn (hc : s.conns.get c = some v) (ha : v'.carg = v.carg) (hp : v.Past → v'.Past) :
    Forward s (s.setConn c v') := by
  refine ⟨by simp [Tcp.setConn], fun c' x _ hx => ?_, Forward.refl.handles⟩
  rw [Tcp.setConn, Heap.get_set hc] at hx
  split at hx
  case isTrue he =>
    obtain rfl := Option.some.inj hx
    exact ⟨v, he ▸ hc, ha, hp⟩
  case isFalse => exact ⟨x, hx, rfl, id⟩

theorem Forward.withConn {f : TcpConn → Tcp} (hf : ∀ v, s.conns.get c = some v → Forward s (f v)) :
    Forward s (s.withConn c f) := by
  unfold Tcp.withConn
  cases hc : s.conns.get c
  case none   => exact .crash
  case some v => exact hf v hc

theorem Forward.withHandle {f : TcpHandle → Tcp} (hf : ∀ w, s.handles.get h = some w → Forward s (f w)) :
    Forward s (s.withHandle h f) := by
  unfold Tcp.withHandle
  cases hh : s.handles.get h
  case none   => exact .crash
  case some w => exact hf w hh

theorem Forward.linked (hf : Forward s t) (hl : Linked s) : Linked t := by
  intro h w' c hw' hc
  obtain ⟨w, hw, hwc⟩ | ht := hf.handles h w' c hw' hc
  case inr => exact ht
  have ⟨hlt, hv⟩ := hl h w c hw hwc
  refine ⟨hlt.trans_le hf.size, fun v' hv' => ?_⟩
  have ⟨v, hvc, hcarg, hp⟩ := hf.conns c v' hlt hv'
  exact ⟨hcarg.trans (hv v hvc).left, hp (hv v hvc).right⟩

theorem onRecv_forward : Forward s (onRecv s c) := by
  refine .withConn fun v _ => ?_
  split
  · exact Forward.emit.trans tcpRecvCallback_keeps.forward
  · exact .refl

theorem onClose_forward : Forward s (onClose s c) := by
  refine .withConn fun v _ => ?_
  split
  · exact Forward.emit.trans tcpCloseCallback_keeps.forward
  · exact .refl

theorem onConn_forward (hp : ∀ v, s.conns.get c = some v → v.Past) : Forward s (onConn s c) := by
  refine .withConn fun v hv => ?_
  split
  case isFalse => exact .refl
  case isTrue =>
    refine .trans (t := s.emit (.callback c)) .emit (.withHandle fun w hw => .trans (t := _) ?_ .emit)
    refine ⟨le_rfl, Forward.refl.conns, fun p w' c' hw' hc' => ?_⟩
    rw [Tcp.setHandle, Heap.get_set hw] at hw'
    split at hw'
    case isFalse => exact .inl ⟨w', hw', hc'⟩
    case isTrue he =>
      obtain rfl := Option.some.inj hw'
      obtain rfl := Option.some.inj hc'
      refine .inr ⟨Heap.lt_size hv, fun x hx => ?_⟩
      obtain rfl := Option.some.inj (hv.symm.trans hx)
      exact ⟨he.symm, hp v hv⟩

theorem tcpcSendraw_forward : Forward s (tcpcSendraw s c flags buf) :=
  tcpcSendraw_keeps.forward

theorem Forward.past (hf : Forward s t) (hc : s.conns.get c = some v) (hv : v.Past) (v' : TcpConn)
    (hv' : t.conns.get c = some v') : v'.Past := by
  have ⟨x, hx, _, hp⟩ := hf.conns c v' (Heap.lt_size hc) hv'
  exact hp (Option.some.inj (hc.symm.trans hx) ▸ hv)

theorem withConn_lseq_keeps : Keeps s (s.withConn c fun v => s.setConn c { v with lseq := v.lseq + 1 }) :=
  .withConn fun _ hv => .setConn hv ⟨rfl, rfl, rfl, rfl, rfl⟩

theorem tcpAccept_forward (hc : s.conns.get c = some v) : Forward s (tcpAccept s c v seg) := by
  unfold tcpAccept
  generalize hv' : { v with
    state := .SYN_RCVD, rip := seg.src, rport := seg.srcport, lack := seg.seq + 1, rmac := seg.mac } = v'
  have hp : v'.carg = v.carg ∧ v'.Past := by simp [← hv', TcpConn.Past]
  have h₁ : Forward s (s.setConn c v') := .setConn hc hp.left fun _ => hp.right
  have h₂ := (@tcpcSendraw_keeps (s.setConn c v') c (FlagSYN ||| FlagACK) []).trans
    (withConn_lseq_keeps (c := c))
  refine h₁.trans (h₂.forward.trans (onConn_forward ?_))
  exact h₂.forward.past (Heap.get_set_self hc) hp.right

theorem tcpConnected_forward (hc : s.conns.get c = some v) : Forward s (tcpConnected s c v seg) := by
  unfold tcpConnected
  generalize hv' : { v with state := .ESTABILISHED, lack := seg.seq + 1 } = v'
  have hp : v'.carg = v.carg ∧ v'.Past := by simp [← hv', TcpConn.Past]
  have h₁ : Forward s (s.setConn c v') := .setConn hc hp.left fun _ => hp.right
  refine h₁.trans (tcpcSendraw_forward.trans (onConn_forward ?_))
  exact tcpcSendraw_forward.past (Heap.get_set_self hc) hp.right

theorem tcpPayload_forward (hc : s.conns.get c = some v) (ha : Alike v v') :
    Forward s (tcpPayload s c v' seg) := by
  refine .trans (t := s.setConn c { v' with
    lack := seg.seq + UInt32.ofNat seg.payload.length, rx := v'.rx.put seg.payload }) ?_ ?_
  · exact .setConn hc ha.carg ha.past.mpr
  · exact Forward.emit.trans (onRecv_forward.trans tcpcSendraw_forward)

theorem tcpFin_forward : Forward s (tcpFin s c) := by
  refine tcpcSendraw_forward.trans (.trans (.withConn fun v hv => .trans (.setConn hv ?_ ?_) .emit) onClose_forward)
  · rfl
  · simp [TcpConn.Past]

theorem tcpcTryfree_forward : Forward s (tcpcTryfree s c) := by
  refine .withConn fun v hv => ?_
  split
  case isFalse => exact .refl
  case isTrue =>
    refine ⟨by simp, fun c' x _ hx => ?_, Forward.refl.handles⟩
    rw [Heap.get_free] at hx
    split at hx
    · simp at hx
    · exact ⟨x, hx, rfl, id⟩

theorem tcpReceive_forward (hc : s.conns.get c = some v) : Forward s (tcpReceive s c v seg) := by
  unfold tcpReceive
  generalize hv' : (if seg.has FlagACK = true ∧ v.rack < seg.acknum then { v with rack := seg.acknum } else v) = v'
  have ha : Alike v v' := by rw [← hv']; split <;> exact ⟨rfl, rfl, rfl, rfl, rfl⟩
  have hk : Keeps s (s.setConn c v') := .setConn hc ha
  dsimp only
  split
  case isTrue =>
    refine .trans (.setConn hc ?_ fun _ => ?_) tcpcTryfree_forward
    · exact ha.carg
    · simp [TcpConn.Past]
  case isFalse =>
    split
    case isTrue => exact hk.forward.trans tcpcSendraw_forward
    case isFalse =>
      have hp : Forward s (if seg.payload ≠ [] then tcpPayload s c v' seg else s.setConn c v') := by
        split
        · exact tcpPayload_forward hc ha
        · exact hk.forward
      split
      · exact hp.trans tcpFin_forward
      · exact hp

theorem tcpParse_forward {ip : Ipv4} : Forward s (tcpParse s buf ip) := by
  unfold tcpParse
  cases tcpSegment buf ip
  case none => exact .refl
  case some seg =>
    simp only [Option.elim, tcpInput]
    split
    case h_2 =>
      split
      · exact .refl
      · exact .emit
    case h_1 =>
      refine .withConn fun v hc => ?_
      unfold tcpDispatch
      split_ifs
      · exact tcpAccept_forward hc
      · exact tcpConnected_forward hc
      · exact .refl
      · exact tcpReceive_forward hc

theorem tcpcClose_forward : Forward s (tcpcClose s c) := by
  refine .withConn fun v hc => ?_
  split
  case isTrue  => exact .crash
  case isFalse =>
    have h₁ : Forward s ((s.setConn c { v with uclosed := true }).emit (.closed c)) :=
      Forward.emits (.setConn hc rfl id)
    dsimp only
    split
    case isFalse => exact h₁.trans tcpcTryfree_forward
    case isTrue =>
      refine h₁.trans (tcpcSendraw_forward.trans (.trans (.withConn fun x hx => ?_) tcpcTryfree_forward))
      exact .setConn hx rfl (by simp [TcpConn.Past])

theorem connsAppend_forward : Forward s (connsAppend s v) := by
  refine ⟨by simp [connsAppend], fun c x hc hx => ?_, Forward.refl.handles⟩
  rw [connsAppend, Heap.get_alloc, if_neg hc.ne] at hx
  exact ⟨x, hx, rfl, id⟩

theorem tcpOpen_forward : Forward s (tcpOpen s reqh) := by
  refine ⟨le_rfl, Forward.refl.conns, fun p w' c hw' hc => ?_⟩
  rw [tcpOpen, Heap.get_alloc] at hw'
  split at hw'
  · obtain rfl := Option.some.inj hw'
    simp at hc
  · exact .inl ⟨w', hw', hc⟩

theorem tcpConnect_forward {buf : Mem} {rmac : Option Mac} {dst : UInt32} {port : UInt16} {p : ℕ} :
    Forward s (tcpConnect s buf rmac dst port p) := by
  unfold tcpConnect
  split
  · exact tcpCloseCallback_keeps.forward
  · exact connsAppend_forward.trans (tcpcSendraw_forward.trans withConn_lseq_keeps.forward)

theorem fsRead_keeps {p : ℕ} {capacity : ℕ} : Keeps s (fsRead s p reqh capacity) := by
  refine .withHandle fun w hw => ?_
  split
  · exact .emit trivial
  · unfold recvEnqueue
    split
    · exact .emit trivial
    · refine .trans (.setHandle hw ?_) tcpRecvCallback_keeps
      rfl

theorem fsWrite_keeps {p : ℕ} : Keeps s (fsWrite s p reqh buf) := by
  refine .withHandle fun w hw => ?_
  split
  · exact .emit trivial
  · cases w.c
    · exact .crash
    · exact Keeps.emits tcpcSendraw_keeps trivial

theorem fsClose_forward {p : ℕ} : Forward s (fsClose s p reqh) := by
  refine .withHandle fun w hw => ?_
  cases w.c
  case none => exact .crash
  case some c =>
    dsimp only [Option.elim]
    refine tcpcClose_forward.trans (Forward.emits ⟨le_rfl, Forward.refl.conns, fun p' w' c' hw' hc' => .inl ?_⟩)
    rw [Heap.get_free] at hw'
    split at hw'
    · simp at hw'
    · exact ⟨w', hw', hc'⟩

theorem tcpStep_forward {i : TcpInput} : Forward s (tcpStep s i) := by
  cases i
  case segment => exact tcpParse_forward
  case listen  => exact tcpOpen_forward.trans connsAppend_forward
  case connect => exact tcpOpen_forward.trans tcpConnect_forward
  case read    => exact fsRead_keeps.forward
  case write   => exact fsWrite_keeps.forward
  case close   => exact fsClose_forward

theorem TcpRun.linked {ok : Tcp → TcpInput → Prop} {ip : UInt32} (r : TcpRun ok ip s) : Linked s := by
  induction r
  case init         => simp [Linked, Tcp.init]
  case step _ _ ih  => exact tcpStep_forward.linked ih

end Forward

-- What the close of a connection does: it is freed, or waits for the last acknowledgement.
structure Closes (c : ℕ) (v : TcpConn) (s t : Tcp) : Prop where
  size    : t.conns.size = s.conns.size
  other   : ∀ c', c' ≠ c → t.conns.get c' = s.conns.get c'
  self    : ∀ x, t.conns.get c = some x → x.uclosed = true ∧ x.state = .LAST_ACK ∧ x.carg = v.carg
  handles : t.handles = s.handles
  log     : ∃ es, t.log = s.log ++ .closed c :: es ∧
              ∀ e ∈ es, ∃ flags seq ack window buf, e = .sent c flags seq ack window buf

section Closes

variable {s : Tcp} {c : ℕ} {v : TcpConn} {flags : UInt16} {buf : List UInt8}

theorem tcpcSendraw_eq (hc : s.conns.get c = some v) :
    tcpcSendraw s c flags buf = (s.setConn c { v with lseq := v.lseq + UInt32.ofNat buf.length }).emit
      (.sent c flags v.lseq v.lack v.rx.avail buf) := by
  simp [tcpcSendraw, Tcp.withConn, hc]

theorem tcpcClose_crash (h : ¬∃ v, s.conns.get c = some v ∧ v.uclosed = false) : tcpcClose s c = s.crash := by
  unfold tcpcClose Tcp.withConn
  cases hc : s.conns.get c
  case none => rfl
  case some v =>
    refine if_pos ?_
    by_contra hu
    exact h ⟨v, hc, Bool.eq_false_iff.mpr hu⟩

theorem tcpcClose_closes (hc : s.conns.get c = some v) (hu : v.uclosed = false) (hl : v.state ≠ .LISTEN) :
    Closes c v s (tcpcClose s c) := by
  simp only [tcpcClose, Tcp.withConn, hc, Option.elim, hu, Bool.false_eq_true, if_false]
  generalize hv' : { v with uclosed := true } = v'
  have hg : ((s.setConn c v').emit (.closed c)).conns.get c = some v' := Heap.get_set_self hc
  have hu' : v'.uclosed = true ∧ v'.state = v.state ∧ v'.carg = v.carg := by simp [← hv']
  split
  case isFalse hst =>
    simp only [tcpcTryfree, Tcp.withConn, hg, Option.elim, hu', and_true]
    split
    case isTrue =>
      exact {
        size    := by simp [Tcp.setConn, Tcp.emit]
        other   := fun c' he => (Heap.get_free_ne he).trans (Heap.get_set_ne he)
        self    := by simp
        handles := rfl
        log     := ⟨[], rfl, by simp⟩ }
    case isFalse hcl =>
      have hla : v'.state = .LAST_ACK := hu'.right.left ▸ not_not.mp fun hla => hst ⟨hcl, hla, hl⟩
      exact {
        size    := Heap.size_set
        other   := fun c' he => Heap.get_set_ne he
        self    := forall_setConn (P := fun x => x.uclosed = true ∧ x.state = .LAST_ACK ∧ x.carg = v.carg) hc
                     ⟨hu'.left, hla, hu'.right.right⟩
        handles := rfl
        log     := ⟨[], rfl, by simp⟩ }
  case isTrue hst =>
    simp only [tcpcSendraw_eq hg]
    generalize hx : { v' with lseq := v'.lseq + UInt32.ofNat ([] : List UInt8).length } = x
    have hgx : ((((s.setConn c v').emit (.closed c)).setConn c x).emit
        (.sent c (FlagFIN ||| FlagACK) v'.lseq v'.lack v'.rx.avail [])).conns.get c = some x :=
      Heap.get_set_self hg
    generalize hy : { x with state := .LAST_ACK, onConn := false, onClose := false } = y
    have hgy : (((((s.setConn c v').emit (.closed c)).setConn c x).emit
        (.sent c (FlagFIN ||| FlagACK) v'.lseq v'.lack v'.rx.avail [])).setConn c y).conns.get c = some y :=
      Heap.get_set_self hgx
    have hst : y.uclosed = true ∧ y.state = .LAST_ACK ∧ y.carg = v.carg := by simp [← hy, ← hx, hu']
    simp only [Tcp.withConn, hgx, Option.elim, hy, tcpcTryfree, hgy, hst, reduceCtorEq, false_and, if_false]
    exact {
      size    := by simp [Tcp.setConn, Tcp.emit]
      other   := fun c' he => by simp [Tcp.setConn, Tcp.emit, Heap.get_set_ne he]
      self    := forall_setConn hgx hst
      handles := rfl
      log     := ⟨[.sent c (FlagFIN ||| FlagACK) v'.lseq v'.lack v'.rx.avail []],
                   by simp [Tcp.setConn, Tcp.emit], by simp⟩ }

end Closes
end Camellia.Net
