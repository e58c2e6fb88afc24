import Camellia.Kernel.Invariant

namespace Camellia

-- How the invariant gets along with the requests and the history of what happened to them.

section Log

variable {l l' : List Event} {b : Bid} {h : Hid}

theorem messages_append : messages h (l ++ l') = messages h l ++ messages h l' :=
  List.filterMap_append ..

theorem mem_messages {m : VfsReq} :
    m ∈ messages h l ↔ ∃ c r, Event.enqueued c r m ∈ l ∧ m.origin = some h := by
  simp only [messages, List.mem_filterMap]
  constructor
  · rintro ⟨e, he, hm⟩
    cases e
    case enqueued c r m' =>
      by_cases ho : m'.origin = some h
      case neg => simp [ho] at hm
      case pos =>
        obtain rfl : m' = m := by simpa [ho] using hm
        exact ⟨c, r, he, ho⟩
    all_goals contradiction
  · rintro ⟨c, r, he, ho⟩
    exact ⟨_, he, by simp [ho]⟩

theorem WriteOpened.append (hw : WriteOpened l b) : WriteOpened (l ++ l') b := by
  obtain ⟨r, m, hm, h⟩ := hw
  exact ⟨r, m, List.mem_append_left _ hm, h⟩

theorem ClosedOnce.not_forall {ms : List VfsReq} (hc : ClosedOnce ms) :
    ¬∀ m ∈ ms, m.type ≠ .CLOSE := by
  obtain ⟨l, m, rfl, hm, -⟩ := hc
  exact fun h => h m (by simp) hm

end Log

-- What does not concern the queues or the opened files.
def Event.silent : Event → Bool
  | .created _ _ | .finished _ | .given _ _ _ | .joined _ _ | .reaped _ => true
  | _                                                                   => false

section Event

variable {s : State} {e : Event} {l : List Event} {b r : ℕ} {h : Hid} {m : VfsReq}

theorem enqueuedTo_silent (he : e.silent) : enqueuedTo b (l ++ [e]) = enqueuedTo b l := by
  cases e <;> simp [enqueuedTo, Event.silent] at he ⊢

theorem acceptedBy_silent (he : e.silent) : acceptedBy b (l ++ [e]) = acceptedBy b l := by
  cases e <;> simp [acceptedBy, Event.silent] at he ⊢

theorem messages_silent (he : e.silent) : messages h (l ++ [e]) = messages h l := by
  cases e <;> simp [messages, Event.silent] at he ⊢

theorem enqueued_silent (he : e.silent) (hm : Event.enqueued b r m ∈ l ++ [e]) :
    Event.enqueued b r m ∈ l := by
  obtain hm | hm := List.mem_append.mp hm
  · exact hm
  · rw [← List.mem_singleton.mp hm] at he
    contradiction

theorem opened_silent {id : ℕ} (he : e.silent) (hm : Event.opened h b id ∈ l ++ [e]) :
    Event.opened h b id ∈ l := by
  obtain hm | hm := List.mem_append.mp hm
  · exact hm
  · rw [← List.mem_singleton.mp hm] at he
    contradiction

-- More happens after the processes joined their queues.
theorem Ok.pipes_emit (hs : Ok s) {g : Hid} {x : Handle} (hx : s.handles.get g = some x) :
    PipeEnd (s.withLog (s.log ++ l)) g x :=
  { hs.pipes g x hx with
    past := fun p hp => lt_of_lt_of_le ((hs.pipes g x hx).past p hp) (by simp) }

theorem Ok.req_emit (hs : Ok s) {q : Rid} {w : VfsReq} (hw : s.reqs.get q = some w) :
    ReqOk (s.withLog (s.log ++ l)) q w :=
  { hs.reqs.req q w hw with
    created := fun hp => List.mem_append_left _ ((hs.reqs.req q w hw).created hp) }

theorem ok_emit (hs : Ok s) (he : e.silent) : Ok (s.withLog (s.log ++ [e])) := by
  refine ⟨{ hs.reqs with req := fun _ _ => hs.req_emit, fifo := ?_, accepted := ?_ }, ⟨?_, ?_, ?_⟩,
    fun _ _ => hs.pipes_emit⟩
  · intro c v hv hp
    obtain ⟨waiting, hw, hf⟩ := hs.reqs.fifo c v hv hp
    refine ⟨waiting, ?_, hf⟩
    rwa [State.withLog_log, enqueuedTo_silent he, acceptedBy_silent he]
  · intro c
    rw [State.withLog_log, enqueuedTo_silent he, acceptedBy_silent he]
    exact hs.reqs.accepted c
  · intro c r m hm
    obtain ⟨h₁, h₂, h₃, h₄, h₅⟩ := hs.files.enqueued c r m (enqueued_silent he hm)
    exact ⟨h₁, h₂, h₃, fun ht => (h₄ ht).append, h₅⟩
  · exact fun g v c hv ht hw hb => (hs.files.writers g v c hv ht hw hb).append
  · intro g c id hg
    obtain ⟨h₁, h₂, h₃, h₄, h₅, h₆⟩ := hs.files.opened g c id (opened_silent he hg)
    refine ⟨h₁, h₂, h₃, fun d r m hm => h₄ d r m (enqueued_silent he hm), ?_, ?_⟩
    · rwa [State.withLog_log, messages_silent he]
    · rwa [State.withLog_log, messages_silent he]

-- A file was opened, and nobody could use it so far.
theorem ok_emit_opened {g : Hid} {v : Handle} {id : ℕ} (hs : Ok s) (hv : s.handles.get g = some v)
    (hfile : v.type = .file ∧ v.backend = some b ∧ v.fileId = id) (hb : b < s.backends.size)
    (hnew : ∀ c r m, Event.enqueued c r m ∈ s.log → m.origin ≠ some g) :
    Ok (s.withLog (s.log ++ [.opened g b id])) := by
  have henq {c r m} (hm : Event.enqueued c r m ∈ s.log ++ [.opened g b id]) :
      Event.enqueued c r m ∈ s.log := by simpa using hm
  have hmsg {f : Hid} : messages f (s.log ++ [.opened g b id]) = messages f s.log := by
    simp [messages]
  have hto {c} : enqueuedTo c (s.log ++ [.opened g b id]) = enqueuedTo c s.log := by
    simp [enqueuedTo]
  have hby {c} : acceptedBy c (s.log ++ [.opened g b id]) = acceptedBy c s.log := by
    simp [acceptedBy]
  refine ⟨{ hs.reqs with req := fun _ _ => hs.req_emit, fifo := ?_, accepted := ?_ }, ⟨?_, ?_, ?_⟩,
    fun _ _ => hs.pipes_emit⟩
  · intro c v hv hp
    obtain ⟨waiting, hw, hf⟩ := hs.reqs.fifo c v hv hp
    refine ⟨waiting, ?_, hf⟩
    rwa [State.withLog_log, hto, hby]
  · intro c
    rw [State.withLog_log, hto, hby]
    exact hs.reqs.accepted c
  · intro c r m hm
    obtain ⟨h₁, h₂, h₃, h₄, h₅⟩ := hs.files.enqueued c r m (henq hm)
    exact ⟨h₁, h₂, h₃, fun ht => (h₄ ht).append, h₅⟩
  · exact fun f v c hv ht hw hb => (hs.files.writers f v c hv ht hw hb).append
  · intro f c id' hf
    obtain hf | hf := List.mem_append.mp hf
    · obtain ⟨h₁, h₂, h₃, h₄, h₅, h₆⟩ := hs.files.opened f c id' hf
      refine ⟨h₁, h₂, h₃, fun d r m hm => h₄ d r m (henq hm), ?_, ?_⟩
      · rwa [State.withLog_log, hmsg]
      · rwa [State.withLog_log, hmsg]
    · cases List.mem_singleton.mp hf
      refine ⟨Heap.lt_size hv, hb, ?_, ?_, .inl ?_, ?_⟩
      · intro w hw
        obtain rfl := Option.some_inj.mp (hv.symm.trans hw)
        exact hfile
      · exact fun d r m hm ho => absurd ho (hnew d r m (henq hm))
      · intro m hm
        rw [State.withLog_log, hmsg] at hm
        obtain ⟨d, r, hm, ho⟩ := mem_messages.mp hm
        exact absurd ho (hnew d r m hm)
      · intro hn
        rw [State.withLog_handles, hv] at hn
        contradiction

end Event

-- If this request is in flight, then it was before.
def State.Knows (s : State) (r : Rid) (w : VfsReq) : Prop :=
  w.pending → ∃ v, s.reqs.get r = some v ∧ v.pending ∧ v.message = w.message

section Req

variable {s : State} {r : Rid} {v w : VfsReq} {R : Heap VfsReq} {B : Heap (List UInt8)}

-- The requests which are still in flight are those which are already known.
theorem ok_withReqs (hs : Ok s) (hsize : s.reqs.size ≤ R.size)
    (hreq : ∀ r w, R.get r = some w → ReqOk ((s.withReqs R).withBufs B) r w)
    (hcur : ∀ b x r w, s.backends.get b = some x → r ∈ x.queue → R.get r = some w → s.Knows r w) :
    Ok ((s.withReqs R).withBufs B) := by
  refine ⟨{ hs.reqs with req := hreq, size := ?_, fifo := ?_ },
    { hs.files with opened := fun g b id hg => { hs.files.opened g b id hg with } },
    fun g x hx => { hs.pipes g x hx with }⟩
  · exact fun b x q hx hq => lt_of_lt_of_le (hs.reqs.size b x q hx hq) hsize
  · intro b x hx hp
    obtain ⟨waiting, hw, hf⟩ := hs.reqs.fifo b x hx hp
    refine ⟨waiting, hw, ?_⟩
    refine List.forall₂_iff_get.mpr ⟨(List.forall₂_iff_get.mp hf).1, fun i hi hi' => ?_⟩
    obtain ⟨ha, hc⟩ := (List.forall₂_iff_get.mp hf).2 i hi hi'
    refine ⟨ha, fun y hy hp => ?_⟩
    obtain ⟨v, hv, hp', hm⟩ := hcur b x _ y hx (List.get_mem x.queue ⟨i, hi'⟩) hy hp
    exact hm ▸ hc v hv hp'

-- A request is finished, and its buffer is freed.
theorem ok_finishReq (hs : Ok s) (hv : s.reqs.get r = some v)
    (hsize : B.size = s.bufs.size) (hbufs : ∀ n, s.bufs.get n = none → B.get n = none)
    (hfree : ∀ n, v.input.buf = some n → B.get n = none) :
    Ok ((s.withReqs (s.reqs.set r { v with pending := false })).withBufs B) := by
  refine ok_withReqs hs (by simp) (Heap.forall_set hv ?_ fun q x _ hx => ?_) fun b x q w hx hq => ?_
  · have h := hs.reqs.req r v hv
    exact ⟨fun n hn => ⟨hsize ▸ (h.buf n hn).1, fun _ => hfree n hn⟩, h.opens, fun hp => by contradiction⟩
  · have h := hs.reqs.req q x hx
    exact ⟨fun n hn => ⟨hsize ▸ (h.buf n hn).1, fun hp => hbufs n ((h.buf n hn).2 hp)⟩, h.opens, h.created⟩
  · refine Heap.forall_set hv (P := s.Knows) ?_ (fun q w _ hw hp => ⟨w, hw, hp, rfl⟩) q w
    exact fun hp => by contradiction

theorem ok_freeReq (hs : Ok s) : Ok (s.withReqs (s.reqs.free r)) := by
  refine ok_withReqs (B := s.bufs) hs (by simp) (Heap.forall_free fun q x _ hx => ?_)
    fun b x q w hx hq => ?_
  · exact { hs.reqs.req q x hx with }
  · exact Heap.forall_free (P := s.Knows) (fun q w _ hw hp => ⟨w, hw, hp, rfl⟩) q w

-- The caller of a request dies.
theorem ok_orphanReq (hs : Ok s) (hv : s.reqs.get r = some v) :
    Ok (s.withReqs (s.reqs.set r { v with caller := none })) := by
  refine ok_withReqs (B := s.bufs) hs (by simp) (Heap.forall_set hv ?_ fun q x _ hx => ?_)
    fun b x q w hx hq => ?_
  · exact { hs.reqs.req r v hv with }
  · exact { hs.reqs.req q x hx with }
  · refine Heap.forall_set hv (P := s.Knows) ?_ (fun q w _ hw hp => ⟨w, hw, hp, rfl⟩) q w
    exact fun hp => ⟨v, hv, hp, rfl⟩

-- A new request is in no queue yet.
theorem ok_allocReq (hs : Ok s) (hw : ReqOk (s.withLog (s.log ++ [.created s.reqs.size w.message]))
    s.reqs.size w) :
    Ok ((s.withReqs (s.reqs.alloc w)).withLog (s.log ++ [.created s.reqs.size w.message])) := by
  have h := ok_emit (e := .created s.reqs.size w.message) hs rfl
  refine ok_withReqs (B := s.bufs) h (by simp) (Heap.forall_alloc ?_ fun q x _ hx => ?_)
    fun b x q w' hx hq hw' hp => ?_
  · exact { hw with }
  · exact { h.reqs.req q x hx with }
  · have hlt := hs.reqs.size b x q hx hq
    rw [Heap.get_alloc, if_neg hlt.ne] at hw'
    exact ⟨w', hw', hp, rfl⟩

-- The caller of a request which was finished makes another one.
theorem ok_reuseReq (hs : Ok s) (hv : s.reqs.get r = some v)
    (hw : ReqOk (s.withLog (s.log ++ [.created r w.message])) r w)
    (hnot : ∀ b x, s.backends.get b = some x → r ∉ x.queue) :
    Ok ((s.withReqs (s.reqs.set r w)).withLog (s.log ++ [.created r w.message])) := by
  have h := ok_emit (e := .created r w.message) hs rfl
  refine ok_withReqs (B := s.bufs) h (by simp) (Heap.forall_set hv ?_ fun q x _ hx => ?_)
    fun b x q w' hx hq hw' hp => ?_
  · exact { hw with }
  · exact { h.reqs.req q x hx with }
  · have hne : q ≠ r := fun he => hnot b x hx (he ▸ hq)
    rw [Heap.get_set_ne hne] at hw'
    exact ⟨w', hw', hp, rfl⟩

end Req

-- The handle which a request is for, if there is one. It must be in use, unless it is just being
-- closed.
structure Issues (s : State) (m : VfsReq) (h : Hid) (v : Handle) : Prop where
  handle  : s.handles.get h = some v
  backend : v.backend = m.backend
  fileId  : v.fileId = m.id
  open_ne : m.type ≠ .OPEN
  used    : m.type ≠ .CLOSE → v.refcount ≠ 0
  close   : m.type = .CLOSE → v.refcount = 0 ∧
    ∀ c id, Event.opened h c id ∈ s.log → ∀ m ∈ messages h s.log, m.type ≠ .CLOSE

-- What is demanded of a request before its driver gets it.
structure Sendable (s : State) (b : Bid) (m : VfsReq) : Prop where
  backend : m.backend = some b
  writes  : m.type = .WRITE ∨ m.type = .REMOVE → WriteOpened s.log b
  opens   : m.type = .OPEN → ¬openInvalid m.flags
  issues  : ∀ h, m.origin = some h → ∃ v, Issues s m h v

section Queue

variable {s : State} {b : Bid} {r : Rid} {v : VfsBackend} {w : VfsReq}

theorem opened_enqueue {h : Hid} {c : Bid} {id : ℕ} (hm : Sendable s b w) (hl : Event.opened h c id ∈ s.log)
    (ho : Opened s h c id) : Opened (s.withLog (s.log ++ [.enqueued b r w.message])) h c id := by
  obtain ⟨h₁, h₂, h₃, h₄, h₅, h₆⟩ := ho
  by_cases hw : w.origin = some h
  case neg =>
    have hmsg : messages h (s.log ++ [.enqueued b r w.message]) = messages h s.log := by
      simp [messages, VfsReq.message, hw]
    refine ⟨h₁, h₂, h₃, fun d q m hq hmo => ?_, ?_, ?_⟩
    · obtain hq | hq := List.mem_append.mp hq
      · exact h₄ d q m hq hmo
      · cases List.mem_singleton.mp hq
        exact absurd hmo hw
    · rwa [State.withLog_log, hmsg]
    · rwa [State.withLog_log, hmsg]
  case pos =>
    obtain ⟨x, hx⟩ := hm.issues h hw
    obtain ⟨-, hb, hid⟩ := h₃ x hx.handle
    have hbc : c = b := by
      rw [hx.backend, hm.backend] at hb
      exact (Option.some_inj.mp hb).symm
    have hmsg : messages h (s.log ++ [.enqueued b r w.message]) = messages h s.log ++ [w.message] := by
      simp [messages, VfsReq.message, hw]
    have hopen : ∀ m ∈ messages h s.log, m.type ≠ .CLOSE := by
      by_cases ht : w.type = .CLOSE
      case pos => exact (hx.close ht).2 c id hl
      case neg => exact h₅.resolve_right fun hc => hx.used ht (hc.2 x hx.handle)
    refine ⟨h₁, h₂, h₃, fun d q m hq hmo => ?_, ?_, fun hn => ?_⟩
    · obtain hq | hq := List.mem_append.mp hq
      · exact h₄ d q m hq hmo
      · cases List.mem_singleton.mp hq
        exact ⟨hbc.symm, hx.fileId.symm.trans hid, hx.open_ne⟩
    · rw [State.withLog_log, hmsg]
      by_cases ht : w.type = .CLOSE
      case pos =>
        refine .inr ⟨⟨_, _, rfl, ht, hopen⟩, fun y hy => ?_⟩
        obtain rfl := Option.some_inj.mp (hx.handle.symm.trans hy)
        exact (hx.close ht).1
      case neg =>
        refine .inl fun m hm => ?_
        obtain hm | hm := List.mem_append.mp hm
        · exact hopen m hm
        · rw [List.mem_singleton.mp hm]
          exact ht
    · have := hx.handle
      rw [State.withLog_handles] at hn
      rw [hn] at this
      contradiction

-- A request is put into the queue of its backend, while there is no handler.
theorem ok_enqueue (hs : Ok s) (hv : s.backends.get b = some v) (ha : v.access = .user none)
    (hr : s.reqs.get r = some w) (hm : Sendable s b w) :
    Ok ((s.withBackends (s.backends.set b { v with queue := v.queue ++ [r] })).withLog
      (s.log ++ [.enqueued b r w.message])) := by
  have hto {c} : enqueuedTo c (s.log ++ [.enqueued b r w.message]) =
      enqueuedTo c s.log ++ if b = c then [(r, w.message)] else [] := by
    by_cases hc : b = c <;> simp [enqueuedTo, hc]
  have hby {c} : acceptedBy c (s.log ++ [.enqueued b r w.message]) = acceptedBy c s.log := by
    simp [acceptedBy]
  refine ⟨⟨?_, ?_, ?_, ?_, hs.reqs.reqs, ?_, ?_⟩, ⟨?_, ?_, ?_⟩, ?_⟩
  · exact fun q x hx => { hs.req_emit (q := q) hx with }
  · exact Heap.forall_set hv (fun _ => ha) fun c x _ => hs.reqs.excl c x
  · exact Heap.forall_set hv (hs.reqs.idle b v hv) fun c x _ => hs.reqs.idle c x
  · intro c x q hx
    refine Heap.forall_set hv (P := fun _ x => q ∈ x.queue → q < s.reqs.size) (fun hq => ?_)
      (fun c x _ hx => hs.reqs.size c x q hx) c x hx
    obtain hq | hq := List.mem_append.mp hq
    · exact hs.reqs.size b v q hv hq
    · exact List.mem_singleton.mp hq ▸ Heap.lt_size hr
  · refine Heap.forall_set hv (fun hp => ?_) fun c x hc hx hp => ?_
    · obtain ⟨waiting, hw, hf⟩ := hs.reqs.fifo b v hv hp
      refine ⟨waiting ++ [(r, w.message)], ?_, ?_⟩
      · rw [State.withLog_log, hto, hby, hw, if_pos rfl, List.append_assoc]
      · refine List.rel_append hf (.cons ⟨rfl, fun y hy _ => ?_⟩ .nil)
        obtain rfl := Option.some_inj.mp (hr.symm.trans hy)
        rfl
    · obtain ⟨waiting, hw, hf⟩ := hs.reqs.fifo c x hx hp
      refine ⟨waiting, ?_, hf⟩
      rw [State.withLog_log, hto, hby, hw, if_neg hc.symm, List.append_nil]
  · intro c
    rw [State.withLog_log, hto, hby]
    exact (hs.reqs.accepted c).trans (List.prefix_append _ _)
  · intro c q m hq
    rw [State.withLog_backends, State.withBackends_backends, Heap.size_set]
    obtain hq | hq := List.mem_append.mp hq
    · obtain ⟨h₁, h₂, h₃, h₄, h₅⟩ := hs.files.enqueued c q m hq
      exact ⟨h₁, h₂, h₃, fun ht => (h₄ ht).append, h₅⟩
    · cases List.mem_singleton.mp hq
      refine ⟨Heap.lt_size hv, hm.backend, fun h hh => ?_, fun ht => (hm.writes ht).append, hm.opens⟩
      have ⟨x, hx⟩ := hm.issues h hh
      exact Heap.lt_size hx.handle
  · exact fun g x c hx ht hw hb => (hs.files.writers g x c hx ht hw hb).append
  · intro h c id hh
    have hl : Event.opened h c id ∈ s.log := by simpa using hh
    have ho := opened_enqueue (r := r) hm hl (hs.files.opened h c id hl)
    refine { ho with back := by simpa using ho.back, closed := fun hn => (ho.closed hn).imp_right ?_ }
    intro hp x hx
    exact Heap.forall_set hv (a := { v with queue := v.queue ++ [r] })
      (P := fun d x => d = c → x.provhcnt = 0) (fun hbc => hp v (hbc ▸ hv))
      (fun d x _ hx hdc => hp x (hdc ▸ hx)) c x hx rfl
  · exact fun g x hx => { hs.pipes_emit (l := [.enqueued b r w.message]) hx with }

-- The first request is taken out of the queue.
theorem ok_accept {q : List Rid} (hs : Ok s) (hv : s.backends.get b = some v) (hp : v.provhcnt ≠ 0)
    (hq : v.queue = r :: q) (hr : s.reqs.get r = some w) (hw : w.pending) :
    Ok ((s.withBackends (s.backends.set b { v with queue := q })).withLog
      (s.log ++ [.accepted b r w.message])) := by
  have hto {c} : enqueuedTo c (s.log ++ [.accepted b r w.message]) = enqueuedTo c s.log := by
    simp [enqueuedTo]
  have hby {c} : acceptedBy c (s.log ++ [.accepted b r w.message]) =
      acceptedBy c s.log ++ if b = c then [(r, w.message)] else [] := by
    by_cases hc : b = c <;> simp [acceptedBy, hc]
  have hmsg {h} : messages h (s.log ++ [.accepted b r w.message]) = messages h s.log := by
    simp [messages]
  have henq {c q m} (hm : Event.enqueued c q m ∈ s.log ++ [.accepted b r w.message]) :
      Event.enqueued c q m ∈ s.log := by simpa using hm
  -- The queue begins with what comes next in the history.
  obtain ⟨waiting, hwait, hf⟩ := hs.reqs.fifo b v hv hp
  rw [hq] at hf
  obtain ⟨x, rest, ⟨hx, hcur⟩, hrest, rfl⟩ := List.forall₂_cons_right_iff.mp hf
  obtain rfl : x = (r, w.message) := Prod.ext hx (hcur w hr hw).symm
  have hstart : enqueuedTo b s.log = (acceptedBy b s.log ++ [(r, w.message)]) ++ rest := by
    rw [hwait, List.append_assoc, List.singleton_append]
  refine ⟨⟨?_, ?_, ?_, ?_, hs.reqs.reqs, ?_, ?_⟩, ⟨?_, ?_, ?_⟩, ?_⟩
  · exact fun q x hx => { hs.req_emit (q := q) hx with }
  · refine Heap.forall_set hv (fun _ => hs.reqs.excl b v hv ?_) fun c x _ => hs.reqs.excl c x
    rw [hq]
    exact List.cons_ne_nil _ _
  · exact Heap.forall_set hv (hs.reqs.idle b v hv) fun c x _ => hs.reqs.idle c x
  · intro c x a hx
    refine Heap.forall_set hv (P := fun _ x => a ∈ x.queue → a < s.reqs.size) (fun ha => ?_)
      (fun c x _ hx => hs.reqs.size c x a hx) c x hx
    exact hs.reqs.size b v a hv (hq ▸ List.mem_cons_of_mem _ ha)
  · refine Heap.forall_set hv (fun _ => ⟨rest, ?_, hrest⟩) fun c x hc hx hp => ?_
    · rw [State.withLog_log, hto, hby, if_pos rfl, hstart]
    · obtain ⟨waiting, hw, hf⟩ := hs.reqs.fifo c x hx hp
      refine ⟨waiting, ?_, hf⟩
      rw [State.withLog_log, hto, hby, hw, if_neg hc.symm, List.append_nil]
  · intro c
    rw [State.withLog_log, hto, hby]
    by_cases hc : b = c
    case pos =>
      rw [if_pos hc, ← hc, hstart]
      exact List.prefix_append _ _
    case neg =>
      rw [if_neg hc, List.append_nil]
      exact hs.reqs.accepted c
  · intro c q m hm
    rw [State.withLog_backends, State.withBackends_backends, Heap.size_set]
    obtain ⟨h₁, h₂, h₃, h₄, h₅⟩ := hs.files.enqueued c q m (henq hm)
    exact ⟨h₁, h₂, h₃, fun ht => (h₄ ht).append, h₅⟩
  · exact fun g x c hx ht hw hb => (hs.files.writers g x c hx ht hw hb).append
  · intro h c id hh
    have ho := hs.files.opened h c id (by simpa using hh)
    refine ⟨ho.size, by simpa using ho.back, ho.live, fun d q m hm => ho.target d q m (henq hm), ?_,
      fun hn => ?_⟩
    · rw [State.withLog_log, hmsg]
      exact ho.once
    · rw [State.withLog_log, hmsg]
      refine (ho.closed hn).imp_right fun hp x hx => ?_
      exact Heap.forall_set hv (a := { v with queue := q })
        (P := fun d x => d = c → x.provhcnt = 0) (fun hbc => hp v (hbc ▸ hv))
        (fun d x _ hx hdc => hp x (hdc ▸ hx)) c x hx rfl
  · exact fun g x hx => { hs.pipes_emit (l := [.accepted b r w.message]) hx with }

end Queue
end Camellia
