import Camellia.Cmd.Net.TcpStream
import Camellia.Libk.RingQueue

namespace Camellia.Net

open Tcp

def rx (s : Tcp) (c : ℕ) : Option Ring :=
  (s.conns.get c).map TcpConn.rx

-- No read of a user waits for data of the connection, so that nothing is taken out of its ring.
def Unread (c : ℕ) (s : Tcp) : Prop :=
  ∀ v w, s.conns.get c = some v → v.onRecv = true → s.handles.get v.carg = some w → w.reqh < 0

-- A connection gets data in one segment after another.
inductive Fills (c : ℕ) : Tcp → List Segment → Tcp → Prop
  | nil {s : Tcp} : Fills c s [] s
  | cons {s t : Tcp} {v : TcpConn} {seg : Segment} {segs : List Segment} (hr : receiver s seg = some c)
    (hc : s.conns.get c = some v) (hp : v.Past) (ha : v.Accepts seg) (hu : Unread c s)
    (hf : Fills c (tcpInput s seg) segs t) : Fills c s (seg :: segs) t

variable {s t : Tcp} {c h : ℕ} {v v' : TcpConn} {flags : UInt16} {buf : List UInt8} {seg : Segment}

theorem rx_of_get (hc : s.conns.get c = some v) : rx s c = some v.rx := by
  rw [rx, hc, Option.map_some]

theorem rx_setConn (hc : s.conns.get c = some v) : rx (s.setConn c v') c = some v'.rx :=
  rx_of_get (Heap.get_set_self hc)

theorem tcpcSendraw_rx (hc : s.conns.get c = some v) : rx (tcpcSendraw s c flags buf) c = some v.rx := by
  rw [tcpcSendraw_eq hc]
  exact rx_setConn hc

theorem onRecv_rx (hu : Unread c s) : rx (onRecv s c) c = rx s c := by
  unfold onRecv withConn
  cases hc : s.conns.get c
  case none => rfl
  case some v =>
    simp only [Option.elim]
    split
    case isFalse => rfl
    case isTrue ho =>
      unfold tcpRecvCallback withHandle
      cases hw : (s.emit (.callback c)).handles.get v.carg
      case none => rfl
      case some w =>
        have := hu v w hc ho hw
        simp only [Option.elim]
        rw [if_neg (by omega)]
        rfl

theorem onClose_rx : rx (onClose s c) c = rx s c := by
  unfold onClose withConn
  cases hc : s.conns.get c
  case none => rfl
  case some v =>
    simp only [Option.elim]
    split
    case isFalse => rfl
    case isTrue =>
      unfold tcpCloseCallback withHandle
      cases hw : (s.emit (.callback c)).handles.get v.carg
      case none   => rfl
      case some w =>
        simp only [Option.elim]
        split <;> rfl

theorem tcpFin_rx : rx (tcpFin s c) c = rx s c := by
  unfold tcpFin
  rw [onClose_rx]
  cases hc : s.conns.get c
  case none => simp [tcpcSendraw, withConn, hc, rx, crash]
  case some v =>
    have hg : (tcpcSendraw s c (FlagFIN ||| FlagACK) []).conns.get c =
        some { v with lseq := v.lseq + UInt32.ofNat ([] : List UInt8).length } := by
      rw [tcpcSendraw_eq hc]
      exact Heap.get_set_self hc
    unfold withConn
    rw [hg, rx_of_get hc]
    exact rx_setConn hg

theorem tcpPayload_fills (hc : s.conns.get c = some v) (ha : Alike v v') (ho : v'.onRecv = v.onRecv)
    (hu : Unread c s) :
    rx (tcpPayload s c v' seg) c = some (v'.rx.put seg.payload) ∧
      storedBytes c (tcpPayload s c v' seg).log = storedBytes c s.log ++ v'.rx.fitting seg.payload := by
  unfold tcpPayload
  generalize hx : { v' with
    lack := seg.seq + UInt32.ofNat seg.payload.length, rx := v'.rx.put seg.payload } = x
  generalize hs : (s.setConn c x).emit (.stored c (v'.rx.fitting seg.payload)) = s₁
  have hg : s₁.conns.get c = some x := by
    rw [← hs]
    exact Heap.get_set_self hc
  have hu₁ : Unread c s₁ := fun y w hy hr hw => by
    obtain rfl := Option.some.inj (hg.symm.trans hy)
    rw [← hx] at hr hw
    refine hu v w hc (ho ▸ hr) ?_
    rw [← ha.carg, ← hw, ← hs]
    rfl
  have hrx : rx (onRecv s₁ c) c = some (v'.rx.put seg.payload) := by
    rw [onRecv_rx hu₁, rx_of_get hg, ← hx]
  constructor
  case left =>
    cases ho : (onRecv s₁ c).conns.get c
    case none   => simp [rx, ho] at hrx
    case some y =>
      rw [tcpcSendraw_rx ho, ← rx_of_get ho]
      exact hrx
  case right =>
    have hst : Steady c s₁ (tcpcSendraw (onRecv s₁ c) c FlagACK []) :=
      onRecv_steady.trans tcpcSendraw_keeps.steady
    rw [hst.stored, ← hs, Tcp.emit, storedBytes_append]
    simp [storedBytes, Tcp.setConn]

-- The data of a segment goes to the end of the ring.
theorem tcpInput_fills (hr : receiver s seg = some c) (hc : s.conns.get c = some v) (hp : v.Past)
    (ha : v.Accepts seg) (hu : Unread c s) :
    rx (tcpInput s seg) c = some (v.rx.put seg.payload) ∧
      storedBytes c (tcpInput s seg).log = storedBytes c s.log ++ v.rx.fitting seg.payload := by
  have ⟨hlast, hseq, hne⟩ := ha
  simp only [tcpInput, hr, withConn, hc, Option.elim, tcpDispatch, hp.left, hp.right, false_and, if_false]
  unfold tcpReceive
  generalize hv' : (if seg.has FlagACK = true ∧ v.rack < seg.acknum then { v with rack := seg.acknum } else v) = v'
  have hal : Alike v v' := by rw [← hv']; split <;> exact ⟨rfl, rfl, rfl, rfl, rfl⟩
  have hrx : v'.rx = v.rx := by rw [← hv']; split <;> rfl
  have ho : v'.onRecv = v.onRecv := by rw [← hv']; split <;> rfl
  have hi : v'.InSequence seg := by rw [TcpConn.InSequence, hal.lack]; exact hseq
  have hl : ¬(seg.has FlagACK = true ∧ v'.state = .LAST_ACK) := by rw [hal.state]; exact hlast
  have hpay := @tcpPayload_fills s c v v' seg hc hal ho hu
  rw [hrx] at hpay
  simp only [hl, hi, hne, not_true_eq_false, if_false, ne_eq, not_false_eq_true, if_true]
  split
  case isFalse => exact hpay
  case isTrue =>
    have hpast : ∀ x, (tcpPayload s c v' seg).conns.get c = some x → x.Past :=
      (tcpPayload_forward hc hal).past hc hp
    rw [tcpFin_rx, (tcpFin_steady fun _ => hpast).stored]
    exact hpay

theorem Fills.stored {segs : List Segment} (hf : Fills c s segs t) (hc : s.conns.get c = some v) :
    rx t c = some (v.rx.put (segs.flatMap Segment.payload)) ∧
      storedBytes c t.log = storedBytes c s.log ++ v.rx.fitting (segs.flatMap Segment.payload) := by
  induction hf generalizing v
  case nil => exact ⟨by simpa [Ring.put] using rx_of_get hc, by simp [Ring.fitting]⟩
  case cons s t v' seg segs hr hc' hp ha hu hf hi =>
    obtain rfl := Option.some.inj (hc.symm.trans hc')
    obtain ⟨hrx, hst⟩ := tcpInput_fills hr hc hp ha hu
    unfold rx at hrx
    obtain ⟨v'', hc'', hv''⟩ := Option.map_eq_some_iff.mp hrx
    have hi := hi hc''
    rw [hv'', Ring.put_put] at hi
    rw [List.flatMap_cons, Ring.fitting_append, hi.left, hi.right, hst, List.append_assoc]
    exact ⟨rfl, rfl⟩

-- No byte of the segments is lost: all were stored, and can be read behind those which were there before.
def Receives (c : ℕ) (s t : Tcp) (bytes : List UInt8) : Prop :=
  storedBytes c t.log = storedBytes c s.log ++ bytes ∧
    ∃ r r', rx s c = some r ∧ rx t c = some r' ∧ r'.contents = r.contents ++ bytes

theorem Fills.receives_iff {segs : List Segment} (hf : Fills c s segs t) (hc : s.conns.get c = some v) :
    Receives c s t (segs.flatMap Segment.payload) ↔
      v.rx.fitting (segs.flatMap Segment.payload) = segs.flatMap Segment.payload := by
  have ⟨hrx, hst⟩ := hf.stored hc
  constructor
  case mp => exact fun h => List.append_cancel_left (hst.symm.trans h.left)
  case mpr =>
    intro h
    refine ⟨by rw [hst, h], v.rx, _, rx_of_get hc, hrx, ?_⟩
    rw [Ring.contents_put, h]

-- A ring stores less than `ring_avail` bytes completely. A peer which fills the window loses the last one.
theorem window_iff {r : Ring} {bytes : List UInt8} {segs : List Segment} {window : ℕ}
    (hr : bytes.length ≤ r.avail) (hc : s.conns.get c = some v)
    (hw : (tcpcSendraw s c flags buf).log = s.log ++ [.sent c flags v.lseq v.lack window buf])
    (hf : Fills c (tcpcSendraw s c flags buf) segs t) (hle : (segs.flatMap Segment.payload).length ≤ window) :
    (r.Stores bytes ↔ bytes.length < r.avail) ∧
      (Receives c (tcpcSendraw s c flags buf) t (segs.flatMap Segment.payload) ↔
        (segs.flatMap Segment.payload).length < window) := by
  refine ⟨Ring.stores_iff hr, ?_⟩
  rw [tcpcSendraw_eq hc] at hw hf ⊢
  obtain rfl : v.rx.avail = window := by simpa [Tcp.emit, Tcp.setConn] using hw
  rw [hf.receives_iff (Heap.get_set_self hc)]
  exact Ring.fitting_eq_iff hle

def twoBytes : Segment :=
  ⟨7, [], 1000, 80, 101, 1, FlagACK, [1, 2]⟩

def ring16 : Ring :=
  .new (fun _ => 0) 16 (by decide)

theorem window_iff_twoBytes :
    (ring16.Stores [1, 2] ↔ 2 < 16) ∧
      (Receives 0 (tcpcSendraw tcpAccepted 0 FlagACK []) (tcpInput (tcpcSendraw tcpAccepted 0 FlagACK []) twoBytes)
        [1, 2] ↔ 2 < 4096) := by
  have hf : Fills 0 (tcpcSendraw tcpAccepted 0 FlagACK []) [twoBytes]
      (tcpInput (tcpcSendraw tcpAccepted 0 FlagACK []) twoBytes) := by
    refine .cons rfl rfl ⟨by decide, by decide⟩ ⟨by decide, by decide, by decide⟩ ?_ .nil
    rintro v w hv - hw
    cases hv
    cases hw
    decide
  have h : [1, 2].length ≤ ring16.avail := by decide
  exact window_iff h rfl rfl hf (by decide)

-- 16 bytes are put into an empty ring for which `ring_avail` is 16, as the tests of the ring require it.
theorem not_window_full :
    (List.replicate 16 0).length ≤ ring16.avail ∧ ¬ring16.Stores (List.replicate 16 0) := by
  refine ⟨by decide, fun h => absurd (Ring.stores_iff (by decide) |>.mp h) (by decide)⟩

end Camellia.Net
