import Camellia.Cmd.Net.TcpFrame

namespace Camellia.Net

open Tcp

-- Once a connection was closed, none of its callbacks is invoked.
def Silent (log : List TcpEvent) : Prop :=
  ∀ pre post c, log = pre ++ .closed c :: post → .callback c ∉ post

-- The condition for this: a segment for a closed connection acknowledges something, or is out of sequence,
-- or carries no data, and no FIN either if the peer had sent one before the connection was closed.
def NotLate (s : Tcp) (i : TcpInput) : Prop :=
  ∀ buf ip seg c v, i = .segment buf ip → tcpSegment buf ip = some seg → receiver s seg = some c →
    s.conns.get c = some v → v.uclosed = true →
    seg.has FlagACK = true ∨ ¬v.InSequence seg ∨
      seg.payload = [] ∧ (seg.has FlagFIN = false ∨ v.onClose = false)

-- The closed connections wait for the last acknowledgement.
structure Closing (s : Tcp) : Prop where
  silent : Silent s.log
  closed : ∀ c, .closed c ∈ s.log → c < s.conns.size ∧ ∀ v, s.conns.get c = some v → v.uclosed = true
  last   : ∀ c v, s.conns.get c = some v → v.uclosed = true → v.state = .LAST_ACK

section Closing

variable {s t : Tcp} {c h : ℕ} {v v' : TcpConn} {w : TcpHandle} {log : List TcpEvent} {e : TcpEvent}
variable {seg : Segment} {flags : UInt16} {buf : List UInt8} {reqh : Int}

theorem silent_snoc : Silent (log ++ [e]) ↔ Silent log ∧ ∀ c, e = .callback c → .closed c ∉ log := by
  constructor
  · refine fun h => ⟨fun pre post c hl hm => ?_, fun c he hm => ?_⟩
    · refine h pre (post ++ [e]) c (by simp [hl]) ?_
      exact List.mem_append_left _ hm
    · obtain ⟨pre, post, rfl⟩ := List.append_of_mem hm
      exact h pre (post ++ [e]) c (by simp) (by simp [he])
  · rintro ⟨h, he⟩ pre post c hl hm
    obtain rfl | ⟨post', e', rfl⟩ := post.eq_nil_or_concat
    case inl => simp at hm
    case inr =>
      rw [List.concat_eq_append, ← List.cons_append, ← List.append_assoc] at hl
      obtain ⟨rfl, he'⟩ := List.append_inj' hl rfl
      obtain rfl := List.singleton_inj.mp he'
      rw [List.concat_eq_append, List.mem_append, List.mem_singleton] at hm
      obtain hm | hm := hm
      · exact h pre post' c rfl hm
      · exact he c hm.symm (by simp)

theorem silent_append {es : List TcpEvent} (h : Silent log) (he : ∀ e ∈ es, ∀ c, e ≠ .callback c) :
    Silent (log ++ es) := by
  induction es generalizing log
  case nil => simpa using h
  case cons e es hi =>
    have hs : Silent (log ++ [e]) := silent_snoc.mpr ⟨h, fun c hc => (he e (by simp) c hc).elim⟩
    rw [show log ++ e :: es = log ++ [e] ++ es by simp]
    exact hi hs fun e' he' => he e' (List.mem_cons_of_mem e he')

theorem TcpEvent.Neutral.ne_callback (h : e.Neutral) (c : ℕ) : e ≠ .callback c := by
  rintro rfl
  exact h

theorem Closing.keeps (h : Closing s) (hk : Keeps s t) : Closing t := by
  have ⟨es, hl, hn⟩ := hk.log
  have hmem : ∀ c, .closed c ∈ t.log → .closed c ∈ s.log := fun c hm => by
    rw [hl, List.mem_append] at hm
    exact hm.elim id fun he => (hn _ he).elim
  refine { silent := hl ▸ silent_append h.silent fun e he => (hn e he).ne_callback, closed := ?_, last := ?_ }
  · intro c hm
    have ⟨hs, hc⟩ := h.closed c (hmem c hm)
    refine ⟨hk.size ▸ hs, fun v' hv' => ?_⟩
    have ⟨v, hv, ha⟩ := hk.conns c v' hv'
    exact ha.uclosed.trans (hc v hv)
  · intro c v' hv' hu'
    have ⟨v, hv, ha⟩ := hk.conns c v' hv'
    exact ha.state.trans (h.last c v hv (ha.uclosed.symm.trans hu'))

theorem Closing.crash (h : Closing s) : Closing s.crash :=
  h.keeps .crash

-- One connection changes its state, or is closed or freed.
theorem Closing.update (h : Closing s) (hc : s.conns.get c = some v) (hsize : t.conns.size = s.conns.size)
    (hother : ∀ c', c' ≠ c → t.conns.get c' = s.conns.get c')
    (hlast : ∀ x, t.conns.get c = some x → x.uclosed = true → x.state = .LAST_ACK)
    (hclosed : ∀ x, t.conns.get c = some x → .closed c ∈ t.log → x.uclosed = true)
    (hlog : ∃ es, t.log = s.log ++ es ∧ ∀ e ∈ es, e.Neutral ∨ e = .closed c) : Closing t := by
  have ⟨es, hl, hn⟩ := hlog
  have hmem : ∀ c', c' ≠ c → .closed c' ∈ t.log → .closed c' ∈ s.log := fun c' hne hm => by
    rw [hl, List.mem_append] at hm
    refine hm.elim id fun he => ?_
    obtain hn | hn := hn _ he
    · exact hn.elim
    · exact absurd (TcpEvent.closed.inj hn) hne
  have hlt := Heap.lt_size hc
  refine { silent := ?_, closed := fun c' hm => ?_, last := fun c' x hx => ?_ }
  · refine hl ▸ silent_append h.silent fun e he c' => ?_
    obtain hn | rfl := hn e he
    · exact hn.ne_callback c'
    · exact TcpEvent.noConfusion
  · by_cases he : c' = c
    · subst he
      exact ⟨hsize ▸ hlt, fun x hx => hclosed x hx hm⟩
    · rw [hsize, hother c' he]
      exact h.closed c' (hmem c' he hm)
  · by_cases he : c' = c
    · subst he
      exact hlast x hx
    · exact h.last c' x (hother c' he ▸ hx)

-- A connection which was not closed may change its state.
theorem Closing.setConn (h : Closing s) (hc : s.conns.get c = some v) (hu : v.uclosed = false)
    (hu' : v'.uclosed = false) : Closing (s.setConn c v') := by
  have hn : .closed c ∉ s.log := fun hm => by simp [(h.closed c hm).right v hc] at hu
  refine h.update hc Heap.size_set (fun c' he => Heap.get_set_ne he) ?_ ?_ ⟨[], by simp [Tcp.setConn]⟩
  all_goals
    intro x hx
    obtain rfl := Option.some.inj ((Heap.get_set_self hc).symm.trans hx)
  · simp [hu']
  · exact fun hm => absurd hm hn

theorem Closing.callback (h : Closing s) (hc : s.conns.get c = some v) (hu : v.uclosed = false) :
    Closing (s.emit (.callback c)) := by
  have hn : .closed c ∉ s.log := fun hm => by simp [(h.closed c hm).right v hc] at hu
  refine { h with silent := silent_snoc.mpr ⟨h.silent, ?_⟩, closed := fun c' hm => h.closed c' ?_ }
  · rintro c' he
    obtain rfl := TcpEvent.callback.inj he
    exact hn
  · simpa [Tcp.emit] using hm

theorem onRecv_closing (h : Closing s) (hc : ∀ v, s.conns.get c = some v → v.onRecv = true → v.uclosed = false) :
    Closing (onRecv s c) := by
  unfold onRecv Tcp.withConn
  cases hv : s.conns.get c
  case none => exact h.crash
  case some v =>
    dsimp only [Option.elim]
    split
    case isTrue ho => exact (h.callback hv (hc v hv ho)).keeps tcpRecvCallback_keeps
    case isFalse   => exact h

theorem onClose_closing (h : Closing s) (hc : ∀ v, s.conns.get c = some v → v.onClose = true → v.uclosed = false) :
    Closing (onClose s c) := by
  unfold onClose Tcp.withConn
  cases hv : s.conns.get c
  case none => exact h.crash
  case some v =>
    dsimp only [Option.elim]
    split
    case isTrue ho => exact (h.callback hv (hc v hv ho)).keeps tcpCloseCallback_keeps
    case isFalse   => exact h

theorem onConn_closing (h : Closing s) (hc : ∀ v, s.conns.get c = some v → v.uclosed = false) :
    Closing (onConn s c) := by
  unfold onConn Tcp.withConn
  cases hv : s.conns.get c
  case none => exact h.crash
  case some v =>
    dsimp only [Option.elim]
    split
    case isFalse => exact h
    case isTrue  =>
      have h' := h.callback hv (hc v hv)
      unfold tcpConnCallback Tcp.withHandle
      cases hw : (s.emit (.callback c)).handles.get v.carg
      case none   => exact h'.crash
      case some w => exact Closing.keeps (s := (s.emit (.callback c)).setHandle v.carg _) { h' with } (.emit trivial)

theorem Closing.open (h : Closing s) (hc : s.conns.get c = some v) (hs : v.state ≠ .LAST_ACK) :
    v.uclosed = false :=
  Bool.eq_false_iff.mpr fun hu => hs (h.last c v hc hu)

theorem tcpcSendraw_closing (h : Closing s) : Closing (tcpcSendraw s c flags buf) :=
  h.keeps tcpcSendraw_keeps

theorem tcpAccept_closing (h : Closing s) (hc : s.conns.get c = some v) (hs : v.state = .LISTEN) :
    Closing (tcpAccept s c v seg) := by
  have hu := h.open hc (by simp [hs])
  unfold tcpAccept
  generalize hv' : { v with
    state := .SYN_RCVD, rip := seg.src, rport := seg.srcport, lack := seg.seq + 1, rmac := seg.mac } = v'
  have hu' : v'.uclosed = false := by simp [← hv', hu]
  have hk := (@tcpcSendraw_keeps (s.setConn c v') c (FlagSYN ||| FlagACK) []).trans
    (withConn_lseq_keeps (c := c))
  exact onConn_closing ((h.setConn hc hu hu').keeps hk)
    (hk.forall (fun x x' ha hx => ha.uclosed.trans hx) (forall_setConn hc hu'))

theorem tcpConnected_closing (h : Closing s) (hc : s.conns.get c = some v) (hs : v.state = .SYN_SENT) :
    Closing (tcpConnected s c v seg) := by
  have hu := h.open hc (by simp [hs])
  unfold tcpConnected
  generalize hv' : { v with state := .ESTABILISHED, lack := seg.seq + 1 } = v'
  have hu' : v'.uclosed = false := by simp [← hv', hu]
  have hk : Keeps (s.setConn c v') (tcpcSendraw (s.setConn c v') c FlagACK []) := tcpcSendraw_keeps
  exact onConn_closing ((h.setConn hc hu hu').keeps hk)
    (hk.forall (fun x x' ha hx => ha.uclosed.trans hx) (forall_setConn hc hu'))

-- An event which is neither about closing nor about a callback.
theorem Closing.emit (h : Closing s) (he : ∀ c, e ≠ .callback c ∧ e ≠ .closed c) : Closing (s.emit e) where
  silent := silent_snoc.mpr ⟨h.silent, fun c hc => ((he c).left hc).elim⟩
  closed c hm := by
    refine h.closed c ((List.mem_append.mp hm).elim id fun hm => ?_)
    exact absurd (List.mem_singleton.mp hm).symm (he c).right
  last := h.last

theorem tcpPayload_closing (seg : Segment) (h : Closing s) (hc : s.conns.get c = some v) (ha : Alike v v')
    (hu : v.uclosed = false) :
    Closing (tcpPayload s c v' seg) ∧ ∀ x, (tcpPayload s c v' seg).conns.get c = some x → x.uclosed = false := by
  refine ⟨?_, tcpPayload_forall hc (fun x x' ha hx => ha.uclosed.trans hx) (ha.uclosed.trans hu)⟩
  unfold tcpPayload
  generalize hx : { v' with
    lack := seg.seq + UInt32.ofNat seg.payload.length, rx := v'.rx.put seg.payload } = x
  have hu' : x.uclosed = false := by rw [← hx, ← hu, ← ha.uclosed]
  have h₁ := (h.setConn hc hu hu').emit (e := .stored c (v'.rx.fitting seg.payload)) (by simp)
  exact tcpcSendraw_closing (onRecv_closing h₁ fun y hy _ =>
    forall_setConn (P := (TcpConn.uclosed · = false)) hc hu' y hy)

theorem Closing.lastAck (h : Closing s) (hc : s.conns.get c = some v) :
    Closing (s.setConn c { v with state := .LAST_ACK }) := by
  refine h.update hc Heap.size_set (fun c' he => Heap.get_set_ne he) ?_ ?_ ⟨[], by simp [Tcp.setConn]⟩
  all_goals
    intro x hx
    obtain rfl := Option.some.inj ((Heap.get_set_self hc).symm.trans hx)
  · simp
  · exact fun hm => (h.closed c hm).right v hc

theorem tcpFin_closing (h : Closing s)
    (hc : ∀ v, s.conns.get c = some v → v.onClose = true → v.uclosed = false) : Closing (tcpFin s c) := by
  unfold tcpFin
  have h₁ : Closing (tcpcSendraw s c (FlagFIN ||| FlagACK) []) := tcpcSendraw_closing h
  have hp : ∀ v, (tcpcSendraw s c (FlagFIN ||| FlagACK) []).conns.get c = some v →
      v.onClose = true → v.uclosed = false :=
    tcpcSendraw_keeps.forall (fun x x' ha hx => by rwa [ha.uclosed, ha.onClose]) hc
  generalize tcpcSendraw s c (FlagFIN ||| FlagACK) [] = s₁ at h₁ hp
  cases hv : s₁.conns.get c
  case none =>
    simp only [Tcp.withConn, hv, Option.elim]
    exact onClose_closing h₁.crash hp
  case some v =>
    simp only [Tcp.withConn, hv, Option.elim]
    refine onClose_closing ((h₁.lastAck hv).emit (by simp)) ?_
    exact forall_setConn (P := fun x => x.onClose = true → x.uclosed = false) hv (hp v hv)

-- The last acknowledgement.
theorem tcpcTryfree_closing (h : Closing s) (hc : s.conns.get c = some v) (hv' : v'.uclosed = v.uclosed)
    (hs : v'.state = .CLOSED) : Closing (tcpcTryfree (s.setConn c v') c) := by
  have hg : (s.setConn c v').conns.get c = some v' := Heap.get_set_self hc
  simp only [tcpcTryfree, Tcp.withConn, hg, Option.elim, hs, true_and]
  split
  case isFalse hu =>
    have hu' := Bool.eq_false_iff.mpr hu
    exact h.setConn hc (hv'.symm.trans hu') hu'
  case isTrue hu =>
    refine h.update hc (by simp [Tcp.setConn]) (fun c' he => ?_) ?_ ?_ ⟨[], by simp [Tcp.setConn]⟩
    · exact (Heap.get_free_ne he).trans (Heap.get_set_ne he)
    all_goals simp

theorem tcpReceive_closing (h : Closing s) (hc : s.conns.get c = some v)
    (hl : v.uclosed = true → seg.has FlagACK = true ∨ ¬v.InSequence seg ∨
      seg.payload = [] ∧ (seg.has FlagFIN = false ∨ v.onClose = false)) :
    Closing (tcpReceive s c v seg) := by
  unfold tcpReceive
  generalize hv' : (if seg.has FlagACK = true ∧ v.rack < seg.acknum then { v with rack := seg.acknum } else v) = v'
  have ha : Alike v v' := by rw [← hv']; split <;> exact ⟨rfl, rfl, rfl, rfl, rfl⟩
  have hi : v'.InSequence seg ↔ v.InSequence seg := by rw [← hv']; split <;> rfl
  have hk : Keeps s (s.setConn c v') := .setConn hc ha
  dsimp only
  split
  case isTrue => exact tcpcTryfree_closing h hc ha.uclosed rfl
  case isFalse hack =>
    split
    case isTrue => exact tcpcSendraw_closing (h.keeps hk)
    case isFalse hseq =>
      -- An acknowledgement for a closed connection is the last one, so this segment is none.
      have hlate : v.uclosed = true → seg.payload = [] ∧ (seg.has FlagFIN = false ∨ v.onClose = false) := by
        intro hu
        obtain hf | hf | hf := hl hu
        · exact absurd ⟨hf, ha.state.trans (h.last c v hc hu)⟩ hack
        · exact absurd (fun hin => hf (hi.mp hin)) hseq
        · exact hf
      generalize hs' : (if seg.payload ≠ [] then tcpPayload s c v' seg else s.setConn c v') = s'
      have h' : Closing s' ∧
          ∀ x, s'.conns.get c = some x → seg.has FlagFIN = true → x.onClose = true → x.uclosed = false := by
        rw [← hs']
        split
        case isTrue hp =>
          have hu : v.uclosed = false := Bool.eq_false_iff.mpr fun hu => hp (hlate hu).left
          have ⟨hc', hu'⟩ := tcpPayload_closing seg h hc ha hu
          exact ⟨hc', fun x hx _ _ => hu' x hx⟩
        case isFalse =>
          refine ⟨h.keeps hk, forall_setConn hc fun hf ho => ?_⟩
          rw [ha.uclosed]
          rw [ha.onClose] at ho
          by_contra hu
          have hn := (hlate (Bool.eq_true_of_not_eq_false hu)).right
          simp [hf, ho] at hn
      split
      case isTrue hf => exact tcpFin_closing h'.left fun x hx => h'.right x hx hf
      case isFalse   => exact h'.left

theorem tcpDispatch_closing (h : Closing s) (hc : s.conns.get c = some v)
    (hl : v.uclosed = true → seg.has FlagACK = true ∨ ¬v.InSequence seg ∨
      seg.payload = [] ∧ (seg.has FlagFIN = false ∨ v.onClose = false)) :
    Closing (tcpDispatch s c v seg) := by
  unfold tcpDispatch
  split
  case isTrue hs => exact tcpAccept_closing h hc hs.left
  case isFalse =>
    split
    case isFalse => exact tcpReceive_closing h hc hl
    case isTrue hs =>
      split
      · exact tcpConnected_closing h hc hs
      · exact h

theorem tcpParse_closing {ip : Ipv4} (h : Closing s) (hl : NotLate s (.segment buf ip)) :
    Closing (tcpParse s buf ip) := by
  unfold tcpParse
  cases hseg : tcpSegment buf ip
  case none => exact h
  case some seg =>
    simp only [Option.elim, tcpInput]
    split
    case h_2 =>
      split
      · exact h
      · exact h.keeps (.emit trivial)
    case h_1 c hr =>
      unfold Tcp.withConn
      cases hc : s.conns.get c
      case none   => exact h.crash
      case some v => exact tcpDispatch_closing h hc (hl buf ip seg c v rfl hseg hr hc)

theorem tcpcClose_closing (h : Closing s) (hl : ∀ v, s.conns.get c = some v → v.state ≠ .LISTEN) :
    Closing (tcpcClose s c) := by
  by_cases ho : ∃ v, s.conns.get c = some v ∧ v.uclosed = false
  case neg => rw [tcpcClose_crash ho]; exact h.crash
  case pos =>
    obtain ⟨v, hc, hu⟩ := ho
    have hs := tcpcClose_closes hc hu (hl v hc)
    refine h.update hc hs.size hs.other (fun x hx _ => (hs.self x hx).right.left) (fun x hx _ => (hs.self x hx).left) ?_
    have ⟨es, hlog, hes⟩ := hs.log
    refine ⟨.closed c :: es, hlog, fun e he => ?_⟩
    obtain rfl | he := List.mem_cons.mp he
    case inl => exact .inr rfl
    case inr =>
      obtain ⟨_, _, _, _, _, rfl⟩ := hes e he
      exact .inl trivial

theorem connsAppend_closing (h : Closing s) (hu : v.uclosed = false) : Closing (connsAppend s v) := by
  refine { silent := h.silent, closed := fun c hm => ?_, last := fun c x hx hu' => ?_ }
  · have ⟨hs, hx⟩ := h.closed c hm
    refine ⟨hs.trans (by simp [connsAppend]), fun x hg => hx x ?_⟩
    rwa [connsAppend, Heap.get_alloc, if_neg hs.ne] at hg
  · rw [connsAppend, Heap.get_alloc] at hx
    split at hx
    · obtain rfl := Option.some.inj hx
      simp [hu] at hu'
    · exact h.last c x hx hu'

theorem tcpOpen_closing (h : Closing s) : Closing (tcpOpen s reqh) :=
  { h with }

theorem tcpConnect_closing {buf : Mem} {rmac : Option Mac} {dst : UInt32} {port : UInt16} {p : ℕ}
    (h : Closing s) : Closing (tcpConnect s buf rmac dst port p) := by
  unfold tcpConnect
  split
  · exact h.keeps tcpCloseCallback_keeps
  · exact (tcpcSendraw_closing (connsAppend_closing h rfl)).keeps withConn_lseq_keeps

theorem fsClose_closing {p : ℕ} (h : Closing s) (hl : Linked s) : Closing (fsClose s p reqh) := by
  unfold fsClose Tcp.withHandle
  cases hw : s.handles.get p
  case none => exact h.crash
  case some w =>
    simp only [Option.elim]
    cases hc : w.c
    case none => exact h.crash
    case some c =>
      have h' := tcpcClose_closing h fun v hv => ((hl p w c hw hc).right v hv).right.left
      exact Closing.keeps (s := { tcpcClose s c with handles := (tcpcClose s c).handles.free p })
        { h' with } (.emit trivial)

theorem tcpStep_closing {i : TcpInput} (h : Closing s) (hl : Linked s) (hi : NotLate s i) :
    Closing (tcpStep s i) := by
  cases i
  case segment => exact tcpParse_closing h hi
  case listen  => exact connsAppend_closing (tcpOpen_closing h) rfl
  case connect => exact tcpConnect_closing (tcpOpen_closing h)
  case read    => exact h.keeps fsRead_keeps
  case write   => exact h.keeps fsWrite_keeps
  case close   => exact fsClose_closing h hl

theorem Closing.init {ip : UInt32} : Closing (.init ip) where
  silent := by simp [Silent, Tcp.init]
  closed := by simp [Tcp.init]
  last   := by simp [Tcp.init]

theorem TcpRun.closing {ip : UInt32} (r : TcpRun NotLate ip s) : Closing s := by
  induction r
  case init           => exact .init
  case step r _ hi ih => exact tcpStep_closing ih r.linked hi

end Closing

-- In every run in which no closed connection gets a late segment, no callback follows a close.
theorem TcpRun.silent {s : Tcp} {ip : UInt32} (r : TcpRun NotLate ip s) : Silent s.log :=
  r.closing.silent

section Late

theorem notLate_of_ack {s : Tcp} {buf : List UInt8} {ip : Ipv4}
    (h : ∀ seg, tcpSegment buf ip = some seg → seg.has FlagACK = true) : NotLate s (.segment buf ip) := by
  intro _ _ seg c v hi hseg _ _ _
  cases hi
  exact .inl (h seg hseg)

theorem notLate_of_open {s : Tcp} {i : TcpInput}
    (h : ∀ c v, s.conns.get c = some v → v.uclosed = false) : NotLate s i := by
  intro _ _ _ c v _ _ _ hc hu
  simp [h c v hc] at hu

-- The peer acknowledges the FIN of a connection which the user closed.
theorem tcpRun_silent_acknowledged :
    Silent (tcpStep (tcpStep tcpAccepted (.close 0 4)) (fromPeer FlagACK 101 2 [])).log := by
  refine @TcpRun.silent _ 9 (.step (.step (.step (.step .init rfl ?_) rfl ?_) (by decide) ?_) (by decide) ?_)
  · simp [NotLate]
  · refine notLate_of_open fun c v hc => ?_
    simp only [tcpListening, tcpStep, fsListen, tcpListen, connsAppend, Heap.get_alloc] at hc
    split at hc
    · obtain rfl := Option.some.inj hc
      rfl
    · simp [tcpOpen, Tcp.init] at hc
  · simp [NotLate]
  · refine notLate_of_ack fun seg hseg => ?_
    obtain rfl := Option.some.inj hseg
    decide

-- The peer sends data without an acknowledgement to a connection which the user closed.
theorem not_silent_late : ∃ s, TcpRun (fun _ _ => True) 9 s ∧ ¬Silent s.log := by
  refine ⟨tcpStep (tcpStep tcpAccepted (.close 0 4)) (fromPeer FlagPSH 101 0 [65]), ?_, fun h => ?_⟩
  · exact .step (.step (.step (.step .init rfl trivial) rfl trivial) (by decide) trivial) (by decide) trivial
  · refine h [.sent 0 18 0 101 4096 [], .callback 0, .opened 0 0 3] [.sent 0 17 1 101 4096 [], .answer 4 (-1),
      .stored 0 [65], .callback 0, .sent 0 16 1 102 4095 []] 0 (by decide) (by decide)

end Late
end Camellia.Net
