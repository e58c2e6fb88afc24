import Camellia.Cmd.Net.Udp
import Camellia.Lib.Chain

namespace Camellia.Net

open Udp

-- The datagrams which a handle got, and those which were returned.
def arrivals (h : ℕ) (log : List UdpEvent) : List (List UInt8) :=
  log.filterMap fun
    | .arrived h' buf => if h' = h then some buf else none
    | _               => none

def returns (h : ℕ) (log : List UdpEvent) : List (List UInt8) :=
  log.filterMap fun
    | .returned h' _ buf => if h' = h then some buf else none
    | _                  => none

-- A read of the handle was not answered with a datagram.
def Unanswered (h : ℕ) (reqh : Int) (log : List UdpEvent) : Prop :=
  ∃ pre post, log = pre ++ .read h reqh :: post ∧ ∀ reqh' buf, .returned h reqh' buf ∉ post

-- Whatever a request is answered with, the request is a read which was not answered before.
def Answered (log : List UdpEvent) : Prop :=
  ∀ pre post h reqh buf, log = pre ++ .returned h reqh buf :: post → Unanswered h reqh pre

namespace Udp

-- The queue of a handle.
def next (s : Udp) (n : ℕ) : Option ℕ :=
  (s.nodes.get n).bind StrQueue.next

def contents (s : Udp) (ns : List ℕ) : List (List UInt8) :=
  ns.filterMap fun n => (s.nodes.get n).map StrQueue.buf

-- What the queue of a handle contains was not returned yet, and exactly its nodes are not freed.
structure Delivers (s : Udp) (h : ℕ) (w : UdpHandle) (ns : List ℕ) : Prop where
  chain : Chain s.next w.rx ns
  live  : ∀ n ∈ ns, s.nodes.get n ≠ none
  order : arrivals h s.log = returns h s.log ++ s.contents ns
  nodes : ∀ n, .queued h n ∈ s.log → (.freed n ∉ s.log ↔ n ∈ ns)

-- Datagrams are returned once and in order, by reads, and their nodes are freed once.
structure Fifo (s : Udp) : Prop where
  stale     : s.stale = false
  delivered : ∀ h w, s.handles.get h = some w → ∃ ns, s.Delivers h w ns
  once      : ∀ n, s.log.count (.freed n) ≤ 1
  answered  : Answered s.log

end Udp

-- The condition: a read does not find a datagram in the queue, and a datagram which answers a request answers
-- a read.
def Prompt (s : Udp) : UdpInput → Prop
  | .datagram buf ip =>
    ∀ d c v w, udpDatagram buf ip = some d → s.conns.get c = some v → v.onConn = false → v.Matches d →
      s.handles.get v.carg = some w → 0 ≤ w.reqh → .read v.carg w.reqh ∈ s.log
  | .read h _        => ∀ w, s.handles.get h = some w → 0 < w.reqh ∨ w.rx = none
  | _                => True

-- The handle which an event is about.
def UdpEvent.handle : UdpEvent → Option ℕ
  | read h _ | arrived h _ | returned h _ _ | queued h _ => some h
  | _                                                    => none

-- The invariant of such runs, in which no node is ever freed.
structure Queueing (s : Udp) : Prop where
  stale    : s.stale = false
  unfreed  : ∀ n, .freed n ∉ s.log
  allotted : ∀ h n, .queued h n ∈ s.log → n < s.nodes.size
  owned    : ∀ h h' n, .queued h n ∈ s.log → .queued h' n ∈ s.log → h = h'
  delivers : ∀ h w, s.handles.get h = some w → ∃ ns, s.Delivers h w ns ∧
               (∀ n ∈ ns, .queued h n ∈ s.log) ∧ (ns ≠ [] → w.rxlast = ns.getLast?)
  idle     : ∀ h w, s.handles.get h = some w → 0 ≤ w.reqh → w.rx = none
  pending  : ∀ h w, s.handles.get h = some w → 0 ≤ w.reqh → .read h w.reqh ∈ s.log → Unanswered h w.reqh s.log
  answered : Answered s.log
  fresh    : ∀ h e, s.handles.size ≤ h → e ∈ s.log → e.handle ≠ some h

section Queueing

variable {s t : Udp} {h c n : ℕ} {w w' : UdpHandle} {v : UdpConn} {e : UdpEvent} {log es : List UdpEvent}
variable {reqh q : Int} {buf : List UInt8} {d : Datagram} {ns : List ℕ}

theorem Queueing.toFifo (hq : Queueing s) : s.Fifo where
  stale := hq.stale
  delivered h w hw := have ⟨ns, hd, _⟩ := hq.delivers h w hw; ⟨ns, hd⟩
  once n := (List.count_eq_zero.mpr (hq.unfreed n)).trans_le zero_le_one
  answered := hq.answered

@[simp]
theorem arrivals_append : arrivals h (log ++ es) = arrivals h log ++ arrivals h es := by
  simp [arrivals]

@[simp]
theorem returns_append : returns h (log ++ es) = returns h log ++ returns h es := by
  simp [returns]

theorem Unanswered.append (es : List UdpEvent) (hu : Unanswered h reqh log) (hn : ∀ q buf, .returned h q buf ∉ es) :
    Unanswered h reqh (log ++ es) := by
  obtain ⟨pre, post, rfl, hp⟩ := hu
  refine ⟨pre, post ++ es, by simp, fun q buf hm => ?_⟩
  exact (List.mem_append.mp hm).elim (hp q buf) (hn q buf)

theorem Unanswered.mem (hu : Unanswered h reqh log) : .read h reqh ∈ log := by
  obtain ⟨pre, post, rfl, _⟩ := hu
  simp

theorem answered_snoc : Answered (log ++ [e]) ↔
    Answered log ∧ ∀ h q buf, e = .returned h q buf → Unanswered h q log := by
  constructor
  · refine fun ha => ⟨fun pre post h q buf hl => ?_, fun h q buf he => ?_⟩
    · exact ha pre (post ++ [e]) h q buf (by simp [hl])
    · exact ha log [] h q buf (by simp [he])
  · rintro ⟨ha, he⟩ pre post h q buf hl
    obtain rfl | ⟨post', e', rfl⟩ := post.eq_nil_or_concat
    · obtain ⟨rfl, he'⟩ := List.append_inj' hl rfl
      exact he h q buf (List.singleton_inj.mp he')
    · rw [List.concat_eq_append, ← List.cons_append, ← List.append_assoc] at hl
      obtain ⟨rfl, _⟩ := List.append_inj' hl rfl
      exact ha pre post' h q buf rfl

theorem Answered.append (es : List UdpEvent) (ha : Answered log) (hn : ∀ h q buf, .returned h q buf ∉ es) :
    Answered (log ++ es) := by
  induction es generalizing log
  case nil => simpa using ha
  case cons e es hi =>
    rw [show log ++ e :: es = log ++ [e] ++ es by simp]
    refine hi (answered_snoc.mpr ⟨ha, fun h q buf he => ?_⟩) fun h q buf hm => hn h q buf (List.mem_cons_of_mem e hm)
    exact absurd (List.mem_cons_self ..) (he ▸ hn h q buf)

theorem arrivals_eq_nil (hn : ∀ e ∈ es, e.handle ≠ some h) : arrivals h es = [] := by
  refine List.filterMap_eq_nil_iff.mpr fun e he => ?_
  have hn := hn e he
  cases e
  case arrived h' buf => exact if_neg fun hh => hn (by rw [hh]; rfl)
  all_goals rfl

theorem returns_eq_nil (hn : ∀ e ∈ es, e.handle ≠ some h) : returns h es = [] := by
  refine List.filterMap_eq_nil_iff.mpr fun e he => ?_
  have hn := hn e he
  cases e
  case returned h' q buf => exact if_neg fun hh => hn (by rw [hh]; rfl)
  all_goals rfl

-- Events which leave the queues as they are.
def UdpEvent.Calm : UdpEvent → Prop
  | queued .. | freed _ => False
  | _                   => True

theorem Udp.Delivers.append (es : List UdpEvent) (hd : s.Delivers h w ns) (hrx : w'.rx = w.rx)
    (hn : ∀ n ∈ ns, t.nodes.get n = s.nodes.get n) (hl : t.log = s.log ++ es)
    (hes : ∀ n, .queued h n ∉ es ∧ .freed n ∉ es)
    (ho : arrivals h es = returns h es ∧ (returns h es = [] ∨ w.rx = none)) : t.Delivers h w' ns where
  chain := by
    rw [hrx]
    refine hd.chain.congr fun n hm => ?_
    rw [Udp.next, Udp.next, hn n hm]
  live n hm := hn n hm ▸ hd.live n hm
  order := by
    have hc : t.contents ns = s.contents ns := List.filterMap_congr fun n hm => by rw [hn n hm]
    rw [hl, arrivals_append, returns_append, hd.order, hc, ho.left]
    obtain hr | hr := ho.right
    · simp [hr]
    · obtain rfl := (hr ▸ hd.chain).of_none
      simp [contents]
  nodes n hm := by
    rw [hl, List.mem_append] at hm
    rw [← hd.nodes n (hm.resolve_right (hes n).left), hl, List.mem_append, not_or]
    exact and_iff_left (hes n).right

-- One handle gets requests or a datagram, without a change of its queue.
theorem Queueing.update (w' : UdpHandle) (es : List UdpEvent) (hq : Queueing s) (hw : s.handles.get h = some w) (hrx : w'.rx = w.rx)
    (hlast : w'.rxlast = w.rxlast) (ht : t.handles = s.handles.set h w') (hn : t.nodes = s.nodes)
    (hs : t.stale = s.stale) (hl : t.log = s.log ++ es)
    (hes : ∀ e ∈ es, e.Calm ∧ (e.handle = some h ∨ e.handle = none))
    (ho : arrivals h es = returns h es ∧ (returns h es = [] ∨ w.rx = none))
    (hidle : 0 ≤ w'.reqh → w.rx = none)
    (hpending : 0 ≤ w'.reqh → .read h w'.reqh ∈ t.log → Unanswered h w'.reqh t.log)
    (ha : Answered t.log) : Queueing t := by
  have hcalm := fun e he => (hes e he).left
  have hsilent : ∀ h n, .queued h n ∉ es ∧ .freed n ∉ es := fun h n => ⟨fun hm => hcalm _ hm, fun hm => hcalm _ hm⟩
  have hnodes : ∀ {ns : List ℕ}, ∀ n ∈ ns, t.nodes.get n = s.nodes.get n := fun n _ => by rw [hn]
  have hlt := Heap.lt_size hw
  have hother : ∀ h', h' ≠ h → ∀ e ∈ es, e.handle ≠ some h' := fun h' hne e he hh => by
    obtain hh' | hh' := (hes e he).right
    · exact hne (Option.some.inj (hh.symm.trans hh'))
    · simp [hh'] at hh
  have hmem : ∀ e, e ∈ t.log → ¬e.Calm → e ∈ s.log := fun e hm hc => by
    rw [hl, List.mem_append] at hm
    exact hm.elim id fun hm => absurd (hcalm e hm) hc
  have hget : ∀ h' x, t.handles.get h' = some x → h' = h ∧ x = w' ∨ h' ≠ h ∧ s.handles.get h' = some x := by
    intro h' x hx
    rw [ht, Heap.get_set hw] at hx
    split at hx
    case isTrue he  => exact .inl ⟨he, (Option.some.inj hx).symm⟩
    case isFalse he => exact .inr ⟨he, hx⟩
  exact {
    stale    := hs.trans hq.stale
    unfreed  := fun n hm => hq.unfreed n (hmem _ hm id)
    allotted := fun h' n hm => hn ▸ hq.allotted h' n (hmem _ hm id)
    owned    := fun h₁ h₂ n hm₁ hm₂ => hq.owned h₁ h₂ n (hmem _ hm₁ id) (hmem _ hm₂ id)
    delivers := fun h' x hx => by
      obtain ⟨rfl, rfl⟩ | ⟨hne, hx⟩ := hget h' x hx
      · have ⟨ns, hd, hm, hlst⟩ := hq.delivers h' w hw
        refine ⟨ns, hd.append _ hrx hnodes hl (hsilent h') ho, fun n hns => ?_, fun hne => hlast.trans (hlst hne)⟩
        exact hl ▸ List.mem_append_left _ (hm n hns)
      · have ⟨ns, hd, hm, hlst⟩ := hq.delivers h' x hx
        refine ⟨ns, hd.append _ rfl hnodes hl (hsilent h') ?_, fun n hns => ?_, hlst⟩
        · rw [arrivals_eq_nil (hother h' hne), returns_eq_nil (hother h' hne)]
          exact ⟨rfl, .inl rfl⟩
        · exact hl ▸ List.mem_append_left _ (hm n hns)
    idle := fun h' x hx hr => by
      obtain ⟨rfl, rfl⟩ | ⟨_, hx⟩ := hget h' x hx
      · exact hrx.trans (hidle hr)
      · exact hq.idle h' x hx hr
    pending := fun h' x hx hr hm => by
      obtain ⟨rfl, rfl⟩ | ⟨hne, hx⟩ := hget h' x hx
      · exact hpending hr hm
      · rw [hl, List.mem_append] at hm
        have hm := hm.resolve_right fun hm => hother h' hne _ hm rfl
        exact hl ▸ (hq.pending h' x hx hr hm).append _ fun q buf hm => hother h' hne _ hm rfl
    answered := ha
    fresh := fun h' e hh he => by
      rw [ht, Heap.size_set] at hh
      rw [hl, List.mem_append] at he
      exact he.elim (hq.fresh h' e hh) (hother h' (hlt.trans_le hh).ne' e) }

-- Nothing happens to any handle.
theorem Queueing.neutral (es : List UdpEvent) (hq : Queueing s) (ht : t.handles = s.handles) (hn : t.nodes = s.nodes)
    (hs : t.stale = s.stale) (hl : t.log = s.log ++ es) (hes : ∀ e ∈ es, e.Calm ∧ e.handle = none) :
    Queueing t := by
  have hcalm := fun e he => (hes e he).left
  have hsilent : ∀ h n, .queued h n ∉ es ∧ .freed n ∉ es := fun h n => ⟨fun hm => hcalm _ hm, fun hm => hcalm _ hm⟩
  have hnodes : ∀ {ns : List ℕ}, ∀ n ∈ ns, t.nodes.get n = s.nodes.get n := fun n _ => by rw [hn]
  have hother : ∀ h, ∀ e ∈ es, e.handle ≠ some h := fun h e he => by simp [(hes e he).right]
  have hmem : ∀ e, e ∈ t.log → ¬e.Calm → e ∈ s.log := fun e hm hc => by
    rw [hl, List.mem_append] at hm
    exact hm.elim id fun hm => absurd (hcalm e hm) hc
  exact {
    stale    := hs.trans hq.stale
    unfreed  := fun n hm => hq.unfreed n (hmem _ hm id)
    allotted := fun h n hm => hn ▸ hq.allotted h n (hmem _ hm id)
    owned    := fun h₁ h₂ n hm₁ hm₂ => hq.owned h₁ h₂ n (hmem _ hm₁ id) (hmem _ hm₂ id)
    delivers := fun h x hx => by
      have ⟨ns, hd, hm, hlst⟩ := hq.delivers h x (ht ▸ hx)
      refine ⟨ns, hd.append _ rfl hnodes hl (hsilent h) ?_, fun n hns => hl ▸ List.mem_append_left _ (hm n hns), hlst⟩
      rw [arrivals_eq_nil (hother h), returns_eq_nil (hother h)]
      exact ⟨rfl, .inl rfl⟩
    idle := fun h x hx => hq.idle h x (ht ▸ hx)
    pending := fun h x hx hr hm => by
      rw [hl, List.mem_append] at hm
      have hm := hm.resolve_right fun hm => hother h _ hm rfl
      exact hl ▸ (hq.pending h x (ht ▸ hx) hr hm).append _ fun q buf hm => hother h _ hm rfl
    answered := hl ▸ hq.answered.append _ fun h q buf hm => hother h _ hm rfl
    fresh := fun h e hh he => by
      rw [hl, List.mem_append] at he
      exact he.elim (hq.fresh h e (ht ▸ hh)) (hother h e) }

theorem Queueing.crash (hq : Queueing s) : Queueing s.crash :=
  hq.neutral [] rfl rfl rfl (by simp [Udp.crash]) (by simp)

theorem udpListenCallback_queueing (hq : Queueing s) : Queueing (udpListenCallback s c h) := by
  unfold udpListenCallback Udp.withHandle
  cases hw : s.handles.get h
  case none => exact hq.crash
  case some w =>
    refine hq.update { w with c := some c, reqh := -1 } _ hw rfl rfl rfl rfl rfl rfl ?_ ?_ ?_ ?_ ?_
    · simp [UdpEvent.Calm, UdpEvent.handle]
    · simp [arrivals, returns]
    · simp
    · simp
    · exact hq.answered.append _ (by simp)

-- A datagram answers the read which waits for it.
theorem Queueing.return (hq : Queueing s) (hw : s.handles.get h = some w) (hr : 0 ≤ w.reqh)
    (hread : .read h w.reqh ∈ s.log) :
    Queueing (((s.emit (.arrived h buf)).setHandle h { w with reqh := -1 }).emit (.returned h w.reqh buf)) := by
  have hu := hq.pending h w hw hr hread
  refine hq.update { w with reqh := -1 } [.arrived h buf, .returned h w.reqh buf]
    hw rfl rfl rfl rfl rfl ?_ ?_ ?_ ?_ ?_ ?_
  · simp [emit, setHandle]
  · simp [UdpEvent.Calm, UdpEvent.handle]
  · exact ⟨by simp [arrivals, returns], .inr (hq.idle h w hw hr)⟩
  · simp
  · simp
  · refine answered_snoc.mpr ⟨hq.answered.append _ (by simp), fun h' q buf' he => ?_⟩
    obtain ⟨rfl, rfl, rfl⟩ := UdpEvent.returned.inj he
    exact hu.append _ (by simp)

theorem udpRecvEnqueue_queueing (hq : Queueing s) (hw : s.handles.get h = some w)
    (hc : 0 < w.reqh ∨ w.rx = none) : Queueing (udpRecvEnqueue (s.emit (.read h reqh)) h w reqh) := by
  unfold udpRecvEnqueue
  split
  case isTrue hr =>
    refine hq.update w [.read h reqh, .answer reqh (-1)] hw rfl rfl ?_ rfl rfl ?_ ?_ ?_ ?_ ?_ ?_
    · rw [Heap.set_get hw]
      rfl
    · simp [emit]
    · simp [UdpEvent.Calm, UdpEvent.handle]
    · simp [arrivals, returns]
    · exact hq.idle h w hw
    · intro _ hm
      by_cases he : w.reqh = reqh
      · exact ⟨s.log, [.answer reqh (-1)], by simp [emit, he], by simp⟩
      · have hm : .read h w.reqh ∈ s.log := by simpa [emit, he] using hm
        have hu := (hq.pending h w hw hr.le hm).append [.read h reqh, .answer reqh (-1)] (by simp)
        simpa [emit] using hu
    · have ha := hq.answered.append [.read h reqh, .answer reqh (-1)] (by simp)
      simpa [emit] using ha
  case isFalse hr =>
    have hrx := hc.resolve_left hr
    simp only [hrx]
    refine hq.update { w with reqh := reqh } [.read h reqh] hw rfl rfl ?_ rfl rfl rfl ?_ ?_ ?_ ?_ ?_
    · simp [setHandle, emit, hrx]
    · simp [UdpEvent.Calm, UdpEvent.handle]
    · simp [arrivals, returns]
    · exact fun _ => hrx
    · exact fun _ _ => ⟨s.log, [], rfl, by simp⟩
    · exact hq.answered.append _ (by simp)

-- A datagram is put into the queue of a handle, as the node with the given address.
theorem Queueing.queue (w' : UdpHandle) (buf : List UInt8) (hq : Queueing s) (hw : s.handles.get h = some w) (hns : n = s.nodes.size)
    (hsize : t.nodes.size = n + 1) (hnew : t.nodes.get n = some { next := none, buf := buf })
    (hold : ∀ m, m < n → w.rxlast ≠ some m ∨ w.rx = none → t.nodes.get m = s.nodes.get m)
    (hlink : ∀ l q, w.rx ≠ none → w.rxlast = some l → s.nodes.get l = some q →
      t.nodes.get l = some { q with next := some n })
    (ht : t.handles = s.handles.set h w') (hr : w'.reqh < 0) (hrx : w'.rx = if w.rx = none then some n else w.rx)
    (hlast : w'.rxlast = some n) (hs : t.stale = s.stale)
    (hl : t.log = s.log ++ [.arrived h buf, .queued h n]) : Queueing t := by
  have ⟨ns, hd, hm, hlst⟩ := hq.delivers h w hw
  have hlt := Heap.lt_size hw
  have hmn : ∀ h' m, .queued h' m ∈ s.log → m < n := fun h' m hm => hns ▸ hq.allotted h' m hm
  have hfreed : ∀ m, .freed m ∉ t.log := fun m hm => hq.unfreed m (by simpa [hl] using hm)
  have hqueued : ∀ h' m, .queued h' m ∈ t.log → .queued h' m ∈ s.log ∨ h' = h ∧ m = n := fun h' m hm => by
    simpa [hl] using hm
  -- A node keeps its contents, also the one to which the new node is linked.
  have hbuf : ∀ m ∈ ns, (t.nodes.get m).map StrQueue.buf = (s.nodes.get m).map StrQueue.buf ∧
      t.nodes.get m ≠ none := by
    intro m hmem
    by_cases hl : w.rxlast ≠ some m ∨ w.rx = none
    case pos =>
      rw [hold m (hmn h m (hm m hmem)) hl]
      exact ⟨rfl, hd.live m hmem⟩
    case neg =>
      obtain ⟨hl, hr⟩ := not_or.mp hl
      obtain ⟨q, hq⟩ := Option.ne_none_iff_exists'.mp (hd.live m hmem)
      rw [hlink m q hr (not_not.mp hl) hq, hq]
      simp
  have hchain : Chain t.next w'.rx (ns ++ [n]) := by
    have hnext : t.next n = none := by simp [Udp.next, hnew]
    by_cases hr : w.rx = none
    case pos =>
      have hd := hd.chain
      rw [hr] at hd
      rw [hrx, if_pos hr, hd.of_none]
      refine .cons ?_
      rw [hnext]
      exact .nil
    case neg =>
      rw [hrx, if_neg hr]
      obtain rfl | ⟨ms, l, rfl⟩ := ns.eq_nil_or_concat
      case inl => exact absurd hd.chain.of_nil hr
      case inr =>
        rw [List.concat_eq_append] at *
        have hlast : w.rxlast = some l := by simpa using hlst (by simp)
        have hnd := List.nodup_append.mp hd.chain.nodup
        obtain ⟨q, hql⟩ := Option.ne_none_iff_exists'.mp (hd.live l (by simp))
        rw [List.append_assoc]
        refine hd.chain.concat (fun b hb => ?_) ?_ hnext
        · have hne : b ≠ l := hnd.right.right b hb l (by simp)
          rw [Udp.next, Udp.next, hold b (hmn h b (hm b (by simp [hb]))) (.inl ?_)]
          rw [hlast]
          exact fun he => hne (Option.some.inj he).symm
        · simp [Udp.next, hlink l q hr hlast hql]
  have hget : ∀ h' x, t.handles.get h' = some x → h' = h ∧ x = w' ∨ h' ≠ h ∧ s.handles.get h' = some x := by
    intro h' x hx
    rw [ht, Heap.get_set hw] at hx
    split at hx
    case isTrue he  => exact .inl ⟨he, (Option.some.inj hx).symm⟩
    case isFalse he => exact .inr ⟨he, hx⟩
  have hother : ∀ h', h' ≠ h → ∀ e ∈ [UdpEvent.arrived h buf, .queued h n], e.handle ≠ some h' := by
    simp [UdpEvent.handle, eq_comm]
  exact {
    stale    := hs.trans hq.stale
    unfreed  := hfreed
    allotted := fun h' m hm => by
      obtain hm | ⟨_, rfl⟩ := hqueued h' m hm
      · have := hmn h' m hm
        omega
      · omega
    owned := fun h₁ h₂ m hm₁ hm₂ => by
      obtain hm₁ | ⟨rfl, rfl⟩ := hqueued h₁ m hm₁ <;> obtain hm₂ | ⟨rfl, he⟩ := hqueued h₂ m hm₂
      · exact hq.owned h₁ h₂ m hm₁ hm₂
      · exact absurd (hmn h₁ m hm₁) (by omega)
      · exact absurd (hmn h₂ m hm₂) (by omega)
      · rfl
    delivers := fun h' x hx => by
      obtain ⟨rfl, rfl⟩ | ⟨hne, hx⟩ := hget h' x hx
      · refine ⟨ns ++ [n], ⟨hchain, fun m hmem => ?_, ?_, fun m hmem => ?_⟩, fun m hmem => ?_, fun _ => ?_⟩
        · obtain hmem | hmem := List.mem_append.mp hmem
          · exact (hbuf m hmem).right
          · simp [List.mem_singleton.mp hmem, hnew]
        · have hc : t.contents ns = s.contents ns := List.filterMap_congr fun m hmem => (hbuf m hmem).left
          have hc' : t.contents (ns ++ [n]) = s.contents ns ++ [buf] := by
            rw [← hc]
            simp [contents, hnew]
          rw [hc', hl, arrivals_append, returns_append, hd.order]
          simp [arrivals, returns]
        · refine iff_of_true (hfreed m) ?_
          obtain hmem | ⟨_, rfl⟩ := hqueued h' m hmem
          · exact List.mem_append_left _ ((hd.nodes m hmem).mp (hq.unfreed m))
          · simp
        · rw [hl]
          obtain hmem | hmem := List.mem_append.mp hmem
          · exact List.mem_append_left _ (hm m hmem)
          · simp [List.mem_singleton.mp hmem]
        · simp [hlast]
      · have ⟨ns', hd', hm', hlst'⟩ := hq.delivers h' x hx
        refine ⟨ns', hd'.append _ rfl (fun m hmem => ?_) hl (fun m => ?_) ?_, fun m hmem => ?_, hlst'⟩
        · -- The node at the end of the queue belongs to one handle only.
          refine hold m (hmn h' m (hm' m hmem)) ?_
          by_contra hc
          obtain ⟨hl', hr'⟩ := not_or.mp hc
          obtain rfl | ⟨ms, l, rfl⟩ := ns.eq_nil_or_concat
          · exact hr' hd.chain.of_nil
          · have hlast' : w.rxlast = some l := by simpa using hlst (by simp)
            obtain rfl := Option.some.inj (hlast'.symm.trans (not_not.mp hl'))
            exact hne (hq.owned h' h l (hm' l hmem) (hm l (by simp)))
        · refine ⟨fun hc => ?_, by simp⟩
          exact hother h' hne _ hc rfl
        · rw [arrivals_eq_nil (hother h' hne), returns_eq_nil (hother h' hne)]
          exact ⟨rfl, .inl rfl⟩
        · exact hl ▸ List.mem_append_left _ (hm' m hmem)
    idle := fun h' x hx hr' => by
      obtain ⟨rfl, rfl⟩ | ⟨_, hx⟩ := hget h' x hx
      · omega
      · exact hq.idle h' x hx hr'
    pending := fun h' x hx hr' hm' => by
      obtain ⟨rfl, rfl⟩ | ⟨hne, hx⟩ := hget h' x hx
      · omega
      · have hm' : .read h' x.reqh ∈ s.log := by simpa [hl] using hm'
        exact hl ▸ (hq.pending h' x hx hr' hm').append _ (by simp)
    answered := hl ▸ hq.answered.append _ (by simp)
    fresh := fun h' e hh he => by
      rw [ht, Heap.size_set] at hh
      rw [hl, List.mem_append] at he
      exact he.elim (hq.fresh h' e hh) (hother h' (hlt.trans_le hh).ne' e) }

theorem udpRecvCallback_queueing (hq : Queueing s)
    (hr : ∀ w, s.handles.get h = some w → 0 ≤ w.reqh → .read h w.reqh ∈ s.log) :
    Queueing (udpRecvCallback s h buf) := by
  unfold udpRecvCallback Udp.withHandle
  cases hw : s.handles.get h
  case none => exact hq.crash
  case some w =>
    dsimp only [Option.elim]
    split
    case isTrue hreqh => exact hq.return hw hreqh (hr w hw hreqh)
    case isFalse hreqh =>
      rw [not_le] at hreqh
      have hget : ∀ m, m < s.nodes.size →
          (s.nodes.alloc { next := none, buf := buf }).get m = s.nodes.get m := fun m hm => by
        rw [Heap.get_alloc, if_neg hm.ne]
      split
      case isFalse hrx =>
        refine hq.queue { w with rx := some s.nodes.size, rxlast := some s.nodes.size } buf hw rfl
          ?_ ?_ (fun m hm _ => hget m hm) ?_ rfl hreqh ?_ rfl rfl ?_
        · simp [setHandle, emit]
        · simp [setHandle, emit]
        · exact fun l q hn => absurd (not_not.mp hrx) hn
        · rw [if_pos (not_not.mp hrx)]
        · simp [setHandle, emit]
      case isTrue hrx =>
        have ⟨ns, hd, hm, hlst⟩ := hq.delivers h w hw
        have hne : ns ≠ [] := fun hn => hrx (hn ▸ hd.chain).of_nil
        obtain rfl | ⟨ms, l, rfl⟩ := ns.eq_nil_or_concat
        case inl => exact absurd rfl hne
        case inr =>
          rw [List.concat_eq_append] at *
          have hlast : w.rxlast = some l := by simpa using hlst hne
          obtain ⟨q, hql⟩ := Option.ne_none_iff_exists'.mp (hd.live l (by simp))
          have hlt := Heap.lt_size hql
          have hql' : (s.nodes.alloc { next := none, buf := buf }).get l = some q := (hget l hlt).trans hql
          simp only [hlast, Option.elim, withNode, emit, hql']
          refine hq.queue { w with rxlast := some s.nodes.size } buf hw rfl ?_ ?_ ?_ ?_ ?_ hreqh ?_
            rfl ?_ ?_
          · simp [setHandle]
          · simp [setHandle, Heap.get_set_ne hlt.ne']
          · intro m hm hne'
            have hml : m ≠ l := by
              rintro rfl
              exact hne'.elim (absurd hlast) hrx
            simp [setHandle, Heap.get_set_ne hml, hget m hm]
          · intro l' q' _ hl' hq'
            obtain rfl := Option.some.inj (hlast.symm.trans hl')
            obtain rfl := Option.some.inj (hql.symm.trans hq')
            exact Heap.get_set_self hql'
          · simp [setHandle]
          · rw [if_neg hrx]
          · rfl
          · simp [setHandle]

-- What holds while a datagram is passed around: a handle which waits for something has done so before, and so
-- has a connection, unless it was just established.
structure Passing (s t : Udp) : Prop where
  handles : ∀ h w, t.handles.get h = some w → w.reqh < 0 ∨ s.handles.get h = some w
  conns   : ∀ c v, t.conns.get c = some v →
              s.conns.get c = some v ∨ ∀ w, t.handles.get v.carg = some w → w.reqh < 0
  log     : s.log <+: t.log

theorem Passing.refl : Passing s s :=
  ⟨fun _ _ => .inr, fun _ _ => .inl, List.prefix_rfl⟩

-- A handle is not waiting afterwards, or has not changed.
theorem Passing.step {u : Udp} (hp : Passing s t)
    (hh : ∀ h w, u.handles.get h = some w → w.reqh < 0 ∨ t.handles.get h = some w)
    (hc : ∀ c v, u.conns.get c = some v → t.conns.get c = some v ∨ ∀ w, u.handles.get v.carg = some w → w.reqh < 0)
    (hl : t.log <+: u.log) : Passing s u where
  handles h w hw := (hh h w hw).elim .inl (hp.handles h w)
  conns c v hv := by
    obtain hv | hv := hc c v hv
    case inr => exact .inr hv
    obtain hv | hv := hp.conns c v hv
    case inl => exact .inl hv
    exact .inr fun w hw => (hh v.carg w hw).elim id (hv w)
  log := hp.log.trans hl

theorem Passing.setHandle {u : Udp} (w' : UdpHandle) (hp : Passing s t) (hw : t.handles.get h = some w)
    (hu : u.handles = t.handles.set h w') (hr : w'.reqh < 0) (hc : u.conns = t.conns) (hl : t.log <+: u.log) :
    Passing s u := by
  refine hp.step (fun h' x hx => ?_) (fun c v hv => .inl (hc ▸ hv)) hl
  rw [hu, Heap.get_set hw] at hx
  split at hx
  · exact .inl (Option.some.inj hx ▸ hr)
  · exact .inr hx

theorem Passing.same {u : Udp} (hp : Passing s t) (hu : u.handles = t.handles) (hc : u.conns = t.conns)
    (hl : t.log <+: u.log) : Passing s u :=
  hp.step (fun _ _ hw => .inr (hu ▸ hw)) (fun _ _ hv => .inl (hc ▸ hv)) hl

theorem udpRecvCallback_passing (hp : Passing s t) : Passing s (udpRecvCallback t h buf) := by
  unfold udpRecvCallback Udp.withHandle
  cases hw : t.handles.get h
  case none => exact hp.same rfl rfl List.prefix_rfl
  case some w =>
    dsimp only [Option.elim]
    split
    case isTrue =>
      refine hp.setHandle { w with reqh := -1 } hw rfl (by simp) rfl ?_
      exact (List.prefix_append t.log [.arrived h buf]).trans (List.prefix_append _ [UdpEvent.returned h w.reqh buf])
    case isFalse hreqh =>
      rw [not_le] at hreqh
      have hl : t.log <+: t.log ++ [.arrived h buf] ++ [.queued h t.nodes.size] :=
        (List.prefix_append t.log [.arrived h buf]).trans (List.prefix_append _ [UdpEvent.queued h t.nodes.size])
      split
      case isFalse => exact hp.setHandle _ hw rfl hreqh rfl hl
      case isTrue  =>
        cases w.rxlast
        case none => exact hp.same rfl rfl hl
        case some l =>
          simp only [Option.elim, withNode]
          split
          · exact hp.setHandle _ hw rfl hreqh rfl hl
          · exact hp.same rfl rfl hl

theorem udpAccept_queueing (hq : Queueing s) : Queueing (udpAccept s c d) := by
  unfold udpAccept Udp.withConn
  cases s.conns.get c
  case none => exact hq.crash
  case some v =>
    dsimp only [Option.elim]
    split
    · exact (udpListenCallback_queueing hq).neutral [] rfl rfl rfl (by simp [setConn]) (by simp)
    · exact hq

-- The callback answers the open, so its handle does not wait for anything.
theorem udpListenCallback_reqh (hw : (udpListenCallback s c h).handles.get h = some w) : w.reqh < 0 := by
  unfold udpListenCallback Udp.withHandle at hw
  cases hw' : s.handles.get h
  case none =>
    rw [hw'] at hw
    simp [Udp.crash, hw'] at hw
  case some w' =>
    simp only [hw', Option.elim] at hw
    rw [← Option.some.inj ((Heap.get_set_self hw').symm.trans hw)]
    simp

theorem udpListenCallback_passing (hp : Passing s t) : Passing s (udpListenCallback t c h) := by
  unfold udpListenCallback Udp.withHandle
  cases hw : t.handles.get h
  case none   => exact hp.same rfl rfl List.prefix_rfl
  case some w =>
    exact hp.setHandle { w with c := some c, reqh := -1 } hw rfl (by simp) rfl (List.prefix_append ..)

theorem udpAccept_passing (hp : Passing s t) : Passing s (udpAccept t c d) := by
  unfold udpAccept Udp.withConn
  cases hv : t.conns.get c
  case none => exact hp.same rfl rfl List.prefix_rfl
  case some v =>
    dsimp only [Option.elim]
    split
    case isFalse => exact hp
    case isTrue =>
      refine (udpListenCallback_passing hp).step (fun _ _ => .inr) (fun c' x hx => ?_) List.prefix_rfl
      have hv' : (udpListenCallback t c v.carg).conns.get c = some v := by rwa [udpListenCallback_conns]
      rw [setConn, Heap.get_set hv'] at hx
      split at hx
      case isTrue =>
        obtain rfl := Option.some.inj hx
        exact .inr fun w hw => udpListenCallback_reqh hw
      case isFalse => exact .inl hx

-- A connection which matches is not listening any more.
theorem udpAccept_disarmed (hv : (udpAccept s c d).conns.get c = some v) (hm : v.Matches d) : v.onConn = false := by
  unfold udpAccept Udp.withConn at hv
  cases hx : s.conns.get c
  case none =>
    rw [hx] at hv
    simp [Udp.crash, hx] at hv
  case some x =>
    simp only [hx, Option.elim] at hv
    split at hv
    case isTrue =>
      have hx' : (udpListenCallback s c x.carg).conns.get c = some x := by rwa [udpListenCallback_conns]
      rw [← Option.some.inj ((Heap.get_set_self hx').symm.trans hv)]
    case isFalse hn =>
      obtain rfl := Option.some.inj (hx.symm.trans hv)
      exact Bool.eq_false_iff.mpr fun ho => hn ⟨ho, hm.right.right.symm⟩

theorem udpDeliver_queueing {b : Bool} (hq : Queueing t) (hp : Passing s t)
    (hc : ∀ c v w, s.conns.get c = some v → v.onConn = false → v.Matches d → s.handles.get v.carg = some w →
      0 ≤ w.reqh → .read v.carg w.reqh ∈ s.log) :
    Queueing (udpDeliver d (t, b) c).1 ∧ Passing s (udpDeliver d (t, b) c).1 := by
  have hq' := udpAccept_queueing (c := c) (d := d) hq
  have hp' := udpAccept_passing (c := c) (d := d) hp
  have hdis := fun v => udpAccept_disarmed (s := t) (c := c) (d := d) (v := v)
  unfold udpDeliver
  generalize udpAccept t c d = u at hq' hp' hdis
  dsimp only
  split
  case isFalse => exact ⟨hq', hp'⟩
  case isTrue hm =>
    cases hv : u.conns.get c
    case none => simp [hv] at hm
    case some v =>
      have hm : v.Matches d := by simpa [hv] using hm
      simp only [Udp.withConn, hv, Option.elim]
      refine ⟨udpRecvCallback_queueing hq' fun w hw hr => ?_, udpRecvCallback_passing hp'⟩
      obtain hw' | hw' := hp'.handles v.carg w hw
      case inl => omega
      obtain hv' | hv' := hp'.conns c v hv
      case inr => exact absurd (hv' w hw) (by omega)
      exact hp'.log.mem (hc c v w hv' (hdis v hv hm) hm hw' hr)

theorem udpInput_queueing (hq : Queueing s)
    (hc : ∀ c v w, s.conns.get c = some v → v.onConn = false → v.Matches d → s.handles.get v.carg = some w →
      0 ≤ w.reqh → .read v.carg w.reqh ∈ s.log) : Queueing (udpInput s d) := by
  have hloop : ∀ (l : List ℕ) (t : Udp) (b : Bool), Queueing t → Passing s t →
      Queueing (l.foldl (udpDeliver d) (t, b)).1 := by
    intro l
    induction l
    case nil => exact fun _ _ h _ => h
    case cons c l hi =>
      intro t b hq hp
      have ⟨hq', hp'⟩ := udpDeliver_queueing (c := c) (b := b) hq hp hc
      exact hi _ _ hq' hp'
  have hq' := hloop s.list s false hq .refl
  unfold udpInput
  dsimp only
  split
  · exact hq'
  · exact hq'.neutral [.unreachable] rfl rfl rfl rfl (by simp [UdpEvent.Calm, UdpEvent.handle])

-- A new handle has neither got a datagram nor a read.
theorem Queueing.open (es : List UdpEvent) (hq : Queueing s) (hrx : w.rx = none) (ht : t.handles = s.handles.alloc w)
    (hn : t.nodes = s.nodes) (hs : t.stale = s.stale) (hl : t.log = s.log ++ es)
    (hes : ∀ e ∈ es, e.Calm ∧ e.handle = none) : Queueing t := by
  have hcalm := fun e he => (hes e he).left
  have hsilent : ∀ h n, .queued h n ∉ es ∧ .freed n ∉ es := fun h n => ⟨fun hm => hcalm _ hm, fun hm => hcalm _ hm⟩
  have hnodes : ∀ {ns : List ℕ}, ∀ n ∈ ns, t.nodes.get n = s.nodes.get n := fun n _ => by rw [hn]
  have hother : ∀ h, ∀ e ∈ es, e.handle ≠ some h := fun h e he => by simp [(hes e he).right]
  have hnew : ∀ e ∈ t.log, e.handle ≠ some s.handles.size := fun e he => by
    rw [hl, List.mem_append] at he
    exact he.elim (hq.fresh _ e le_rfl) (hother _ e)
  have hmem : ∀ e, e ∈ t.log → ¬e.Calm → e ∈ s.log := fun e hm hc => by
    rw [hl, List.mem_append] at hm
    exact hm.elim id fun hm => absurd (hcalm e hm) hc
  have hget : ∀ h x, t.handles.get h = some x → h = s.handles.size ∧ x = w ∨ s.handles.get h = some x := by
    intro h x hx
    rw [ht, Heap.get_alloc] at hx
    split at hx
    case isTrue he  => exact .inl ⟨he, (Option.some.inj hx).symm⟩
    case isFalse he => exact .inr hx
  exact {
    stale    := hs.trans hq.stale
    unfreed  := fun n hm => hq.unfreed n (hmem _ hm id)
    allotted := fun h n hm => hn ▸ hq.allotted h n (hmem _ hm id)
    owned    := fun h₁ h₂ n hm₁ hm₂ => hq.owned h₁ h₂ n (hmem _ hm₁ id) (hmem _ hm₂ id)
    delivers := fun h x hx => by
      obtain ⟨rfl, rfl⟩ | hx := hget h x hx
      · refine ⟨[], ⟨hrx ▸ .nil, by simp, ?_, fun n hm => absurd rfl (hnew _ hm)⟩, by simp, by simp⟩
        rw [arrivals_eq_nil hnew, returns_eq_nil hnew]
        rfl
      · have ⟨ns, hd, hm, hlst⟩ := hq.delivers h x hx
        refine ⟨ns, hd.append _ rfl hnodes hl (hsilent h) ?_, fun n hns => hl ▸ List.mem_append_left _ (hm n hns), hlst⟩
        rw [arrivals_eq_nil (hother h), returns_eq_nil (hother h)]
        exact ⟨rfl, .inl rfl⟩
    idle := fun h x hx hr => by
      obtain ⟨rfl, rfl⟩ | hx := hget h x hx
      · exact hrx
      · exact hq.idle h x hx hr
    pending := fun h x hx hr hm => by
      obtain ⟨rfl, rfl⟩ | hx := hget h x hx
      · exact absurd rfl (hnew _ hm)
      · rw [hl, List.mem_append] at hm
        have hm := hm.resolve_right fun hm => hother h _ hm rfl
        exact hl ▸ (hq.pending h x hx hr hm).append _ fun q buf hm => hother h _ hm rfl
    answered := hl ▸ hq.answered.append _ fun h q buf hm => hother h _ hm rfl
    fresh := fun h e hh he => by
      rw [ht, Heap.size_alloc] at hh
      rw [hl, List.mem_append] at he
      exact he.elim (hq.fresh h e (by omega)) (hother h e) }

-- A handle which is closed does not matter any more.
theorem Queueing.close (hq : Queueing s) (ht : t.handles = s.handles.free h) (hn : t.nodes = s.nodes)
    (hs : t.stale = s.stale) (hl : t.log = s.log) : Queueing t := by
  have hget : ∀ h' x, t.handles.get h' = some x → s.handles.get h' = some x := by
    intro h' x hx
    rw [ht, Heap.get_free] at hx
    split at hx
    · simp at hx
    · exact hx
  exact {
    stale    := hs.trans hq.stale
    unfreed  := hl ▸ hq.unfreed
    allotted := hl ▸ hn ▸ hq.allotted
    owned    := hl ▸ hq.owned
    delivers := fun h' x hx => by
      have ⟨ns, hd, hm, hlst⟩ := hq.delivers h' x (hget h' x hx)
      refine ⟨ns, hd.append [] rfl (fun n _ => by rw [hn]) (by simp [hl]) (by simp) ?_, hl ▸ hm, hlst⟩
      simp [arrivals, returns]
    idle     := fun h' x hx => hq.idle h' x (hget h' x hx)
    pending  := fun h' x hx => hl ▸ hq.pending h' x (hget h' x hx)
    answered := hl ▸ hq.answered
    fresh    := fun h' e hh => hl ▸ hq.fresh h' e (by simpa [ht] using hh) }

theorem fsCloseUdp_queueing (hq : Queueing s) : Queueing (fsCloseUdp s h reqh) := by
  unfold fsCloseUdp Udp.withHandle
  cases s.handles.get h
  case none => exact hq.crash
  case some w =>
    dsimp only [Option.elim]
    cases w.c
    case none => exact hq.crash
    case some c =>
      dsimp only [Option.elim]
      unfold Udp.withConn
      cases s.conns.get c
      case none => exact hq.crash
      case some v =>
        have hc := hq.close (h := h) (t := { s with
          list := s.list.erase c, conns := s.conns.free c, handles := s.handles.free h }) rfl rfl rfl rfl
        exact hc.neutral [.answer reqh (-1)] rfl rfl rfl rfl (by simp [UdpEvent.Calm, UdpEvent.handle])

theorem fsWriteUdp_queueing (hq : Queueing s) : Queueing (fsWriteUdp s h reqh buf) := by
  unfold fsWriteUdp Udp.withHandle
  cases s.handles.get h
  case none => exact hq.crash
  case some w =>
    dsimp only [Option.elim]
    cases w.c
    case none => exact hq.crash
    case some c =>
      dsimp only [Option.elim]
      unfold Udp.withConn
      cases s.conns.get c
      case none => exact hq.crash
      case some v =>
        refine hq.neutral [.sent c buf, .answer reqh buf.length] rfl rfl rfl ?_ ?_
        · simp [emit]
        · simp [UdpEvent.Calm, UdpEvent.handle]

theorem udpStep_queueing {i : UdpInput} (hq : Queueing s) (hp : Prompt s i) : Queueing (udpStep s i) := by
  cases i
  case datagram buf ip =>
    simp only [udpStep, udpParse]
    cases hd : udpDatagram buf ip
    case none   => exact hq.crash
    case some d => exact udpInput_queueing hq fun c v w => hp d c v w hd
  case listen => exact hq.open [] rfl rfl rfl rfl (by simp [udpStep, fsListenUdp, udpConnsAppend]) (by simp)
  case connect rmac reqh dst port =>
    simp only [udpStep, fsConnectUdp]
    split
    · exact hq.neutral [.answer reqh (-1)] rfl rfl rfl rfl (by simp [UdpEvent.Calm, UdpEvent.handle])
    · refine hq.open (w := { c := some s.conns.size, rx := none, rxlast := none, reqh := 0 })
        [.opened s.handles.size reqh] rfl rfl rfl rfl rfl ?_
      simp [UdpEvent.Calm, UdpEvent.handle]
  case read h reqh =>
    simp only [udpStep, fsReadUdp, Udp.withHandle]
    cases hw : s.handles.get h
    case none   => exact hq.crash
    case some w => exact udpRecvEnqueue_queueing hq hw (hp w hw)
  case write => exact fsWriteUdp_queueing hq
  case close => exact fsCloseUdp_queueing hq

theorem Queueing.init {ip : UInt32} : Queueing (.init ip) where
  stale    := rfl
  unfreed  := by simp [Udp.init]
  allotted := by simp [Udp.init]
  owned    := by simp [Udp.init]
  delivers := by simp [Udp.init]
  idle     := by simp [Udp.init]
  pending  := by simp [Udp.init]
  answered := by simp [Answered, Udp.init]
  fresh    := by simp [Udp.init]

theorem UdpRun.queueing {ip : UInt32} (r : UdpRun Prompt ip s) : Queueing s := by
  induction r
  case init             => exact .init
  case step _ _ _ hi ih => exact udpStep_queueing ih hi

end Queueing

-- In every run in which reads come before datagrams, datagrams are returned once and in order.
theorem UdpRun.fifo {s : Udp} {ip : UInt32} (r : UdpRun Prompt ip s) : s.Fifo :=
  r.queueing.toFifo

section Late

-- What the port 1000 of the host 7 sends to a port of the host 9.
def udpFromPeer (port : ℕ) (payload : List UInt8) : UdpInput :=
  .datagram (nput16 1000 ++ nput16 port ++ nput16 (8 + payload.length) ++ nput16 0 ++ payload)
    ⟨⟨[], [], 0x800⟩, 7, 9, 0, 0, 17, []⟩

-- A read waits for the datagram.
theorem fifo_waiting : (udpStep (udpStep (udpStep (.init 9) (.connect (some []) 3 7 1000)) (.read 0 4))
    (udpFromPeer 50000 [1])).Fifo := by
  refine @UdpRun.fifo _ 9 (.step (.step (.step .init rfl rfl trivial) rfl rfl ?_) rfl rfl ?_)
  · intro w hw
    obtain rfl := Option.some.inj hw
    exact .inr rfl
  · intro d c v w _ hc _ _ hw _
    replace hc : (Heap.empty.alloc (UdpConn.mk 0 7 50000 1000 [] false 0)).get c = some v := hc
    rw [Heap.get_alloc] at hc
    split at hc
    case isFalse => simp at hc
    case isTrue =>
      obtain rfl := Option.some.inj hc
      obtain rfl := Option.some.inj hw
      decide

-- Two datagrams are in the queue of a handle when it is read twice.
def udpQueued : Udp :=
  udpStep (udpStep (udpStep (.init 9) (.listen ⟨0, 0, 0, 0, [], false, 0⟩ 3 80)) (udpFromPeer 80 [1]))
    (udpFromPeer 80 [2])

theorem not_fifo_queued : ∃ s, UdpRun (fun _ _ => True) 9 s ∧ ¬s.Fifo := by
  refine ⟨udpStep (udpStep udpQueued (.read 0 4)) (.read 0 5), ?_, fun h => absurd h.stale (by decide)⟩
  exact .step (.step (.step (.step (.step .init rfl rfl trivial) rfl rfl trivial) rfl rfl trivial) (by decide)
    (by decide) trivial) (by decide) (by decide) trivial

end Late
end Camellia.Net
