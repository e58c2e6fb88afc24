import Camellia.Kernel.Frame

namespace Camellia

-- The requests which were put into the queue of a backend, and those which were taken out of it by
-- its driver.
def enqueuedTo (b : Bid) (log : List Event) : List (Rid × VfsReq) :=
  log.filterMap fun e => match e with
    | .enqueued c r m => if c = b then some (r, m) else none
    | _               => none

def acceptedBy (b : Bid) (log : List Event) : List (Rid × VfsReq) :=
  log.filterMap fun e => match e with
    | .accepted c r m => if c = b then some (r, m) else none
    | _               => none

-- The requests for one handle, in the order in which they were enqueued.
def messages (h : Hid) (log : List Event) : List VfsReq :=
  log.filterMap fun e => match e with
    | .enqueued _ _ m => if m.origin = some h then some m else none
    | _               => none

-- Somebody tried to open a file of the backend for writing.
def WriteOpened (log : List Event) (b : Bid) : Prop :=
  ∃ r m, Event.created r m ∈ log ∧ m.type = .OPEN ∧ openWriteable m.flags ∧ m.backend = some b

-- The request is still the one that was sent with this message, unless it was finished.
def State.Current (s : State) (r : Rid) (m : VfsReq) : Prop :=
  ∀ w, s.reqs.get r = some w → w.pending → w.message = m

-- The last message for a handle is the only one that closes it.
def ClosedOnce (ms : List VfsReq) : Prop :=
  ∃ l m, ms = l ++ [m] ∧ m.type = .CLOSE ∧ ∀ m ∈ l, m.type ≠ .CLOSE

-- What is known about a file which was opened: the driver gets no request for it anymore once its
-- handle was closed.
structure Opened (s : State) (h : Hid) (b : Bid) (id : ℕ) : Prop where
  size   : h < s.handles.size
  back   : b < s.backends.size
  live   : ∀ v, s.handles.get h = some v → v.type = .file ∧ v.backend = some b ∧ v.fileId = id
  target : ∀ c r m, Event.enqueued c r m ∈ s.log → m.origin = some h →
    c = b ∧ m.id = id ∧ m.type ≠ .OPEN
  once   : (∀ m ∈ messages h s.log, m.type ≠ .CLOSE) ∨
    ClosedOnce (messages h s.log) ∧ ∀ v, s.handles.get h = some v → v.refcount = 0
  closed : s.handles.get h = none → ClosedOnce (messages h s.log) ∨
    ∀ v, s.backends.get b = some v → v.provhcnt = 0

-- When a process which waits for a pipe joined the queue.
def State.since (s : State) (p : Pid) : ℕ :=
  (s.procs.get p).elim 0 Proc.waitsSince

-- One end of a pipe, as long as it is in use: only one of the two ends has a queue.
structure PipeEnd (s : State) (h : Hid) (v : Handle) : Prop where
  line   : v.queued.Pairwise fun p q => s.since p < s.since q
  past   : ∀ p ∈ v.queued, s.since p < s.log.length
  type   : v.type ≠ .pipe → v.queued = [] ∧ v.sister = none
  lone   : v.sister = none → v.queued = []
  sister : ∀ g, v.sister = some g → 0 < v.refcount → v.type = .pipe ∧ v.readable ≠ v.writeable ∧
    ∃ w, s.handles.get g = some w ∧ w.sister = some h ∧ w.type = .pipe ∧ w.readable = v.writeable ∧
      w.writeable = v.readable ∧ (v.queued = [] ∨ w.queued = [])

structure ReqOk (s : State) (r : Rid) (w : VfsReq) : Prop where
  -- The buffer of a request which was finished is gone.
  buf     : ∀ n, w.input.buf = some n → n < s.bufs.size ∧ (w.pending = false → s.bufs.get n = none)
  opens   : w.type = .OPEN → w.input.buf ≠ none
  created : w.pending → Event.created r w.message ∈ s.log

-- The requests and the queues they wait in.
structure ReqsOk (s : State) : Prop where
  req      : ∀ r w, s.reqs.get r = some w → ReqOk s r w
  -- A request has to wait only if there is no handler.
  excl     : ∀ b v, s.backends.get b = some v → v.queue ≠ [] → v.access = .user none
  idle     : ∀ b v, s.backends.get b = some v → v.usehcnt = 0 → v.access.handler = none
  size     : ∀ b v r, s.backends.get b = some v → r ∈ v.queue → r < s.reqs.size
  reqs     : ∀ h v, s.handles.get h = some v → v.req ≠ none → v.type = .fsReq
  -- Requests are accepted in the order in which they were enqueued.
  fifo     : ∀ b v, s.backends.get b = some v → v.provhcnt ≠ 0 → ∃ waiting,
    enqueuedTo b s.log = acceptedBy b s.log ++ waiting ∧
      List.Forall₂ (fun x r => x.1 = r ∧ s.Current r x.2) waiting v.queue
  accepted : ∀ b, acceptedBy b s.log <+: enqueuedTo b s.log

-- The files and what their drivers get to see.
structure FilesOk (s : State) : Prop where
  enqueued : ∀ b r m, Event.enqueued b r m ∈ s.log → b < s.backends.size ∧ m.backend = some b ∧
    (∀ h, m.origin = some h → h < s.handles.size) ∧
    (m.type = .WRITE ∨ m.type = .REMOVE → WriteOpened s.log b) ∧
    (m.type = .OPEN → ¬openInvalid m.flags)
  writers  : ∀ h v b, s.handles.get h = some v → v.type = .file → v.writeable → v.backend = some b →
    WriteOpened s.log b
  opened   : ∀ h b id, Event.opened h b id ∈ s.log → Opened s h b id

-- The invariant of the kernel's data, apart from what the balance says.
structure Ok (s : State) : Prop where
  reqs  : ReqsOk s
  files : FilesOk s
  pipes : ∀ h v, s.handles.get h = some v → PipeEnd s h v

section Ok

variable {s t : State} {i : ℕ}

-- The invariant is about some of the components only.
theorem Ok.frame (h : Ok s) (hb : t.bufs = s.bufs) (hr : t.reqs = s.reqs)
    (hk : t.backends = s.backends) (hh : t.handles = s.handles) (hl : t.log = s.log)
    (hs : ∀ h v p, s.handles.get h = some v → p ∈ v.queued → t.since p = s.since p) : Ok t := by
  have hcur (r : Rid) (m : VfsReq) : t.Current r m = s.Current r m := by
    simp only [State.Current, hr]
  have hreq (r : Rid) (w : VfsReq) (hw : s.reqs.get r = some w) : ReqOk t r w := by
    have hw := h.reqs.req r w hw
    exact ⟨hb ▸ hw.buf, hw.opens, hl ▸ hw.created⟩
  refine ⟨?_, ⟨?_, ?_, ?_⟩, ?_⟩
  · obtain ⟨h₁, h₂, h₃, h₄, h₅, h₆, h₇⟩ := h.reqs
    constructor <;> simp only [hr, hk, hh, hl, hcur] <;> assumption
  · rw [hl, hk, hh]
    exact h.files.enqueued
  · rw [hl, hh]
    exact h.files.writers
  · intro g b id hg
    obtain ⟨h₁, h₂, h₃, h₄, h₅, h₆⟩ := h.files.opened g b id (hl ▸ hg)
    constructor <;> simp only [hk, hh, hl] <;> assumption
  · intro g v hv
    rw [hh] at hv
    have hp := h.pipes g v hv
    refine ⟨?_, ?_, hp.type, hp.lone, by rw [hh]; exact hp.sister⟩
    · refine hp.line.imp_of_mem fun {p q} hp hq hlt => ?_
      rwa [hs g v p hv hp, hs g v q hv hq]
    · intro p hq
      rw [hs g v p hv hq, hl]
      exact hp.past p hq

theorem ok_setProc {v w : Proc} (h : Ok s) (hv : s.procs.get i = some v)
    (hw : w.waitsSince = v.waitsSince) : Ok (s.withProcs (s.procs.set i w)) := by
  refine h.frame rfl rfl rfl rfl rfl fun _ _ p _ _ => ?_
  simp only [State.since, State.withProcs_procs, Heap.get_set hv]
  by_cases hp : p = i
  case pos => simp [hp, hv, hw]
  case neg => simp [hp]

theorem ok_withTables {h : Heap Table} (hs : Ok s) : Ok (s.withTables h) :=
  hs.frame rfl rfl rfl rfl rfl fun _ _ _ _ _ => rfl

theorem ok_withHeld {l : List Rid} (hs : Ok s) : Ok (s.withHeld l) :=
  hs.frame rfl rfl rfl rfl rfl fun _ _ _ _ _ => rfl

theorem ok_withMounts {h : Heap VfsMount} (hs : Ok s) : Ok (s.withMounts h) :=
  hs.frame rfl rfl rfl rfl rfl fun _ _ _ _ _ => rfl

section Backend

variable {v w : VfsBackend}

theorem ok_setBackend (h : Ok s) (hv : s.backends.get i = some v)
    (hprov : w.provhcnt ≠ 0 → v.provhcnt ≠ 0 ∧ w.queue = v.queue) (hqueue : w.queue ⊆ v.queue)
    (hexcl : w.queue ≠ [] → w.access = .user none)
    (hidle : w.usehcnt = 0 → w.access.handler = none) :
    Ok (s.withBackends (s.backends.set i w)) := by
  refine ⟨{ h.reqs with req := fun r x hx => { h.reqs.req r x hx with }, excl := ?_, idle := ?_, size := ?_, fifo := ?_ },
    ⟨?_, h.files.writers, ?_⟩,
    fun g x hx => { h.pipes g x hx with }⟩
  · exact Heap.forall_set hv hexcl fun b x _ => h.reqs.excl b x
  · exact Heap.forall_set hv hidle fun b x _ => h.reqs.idle b x
  · intro b x r hx hr
    refine Heap.forall_set hv (P := fun _ x => ∀ r ∈ x.queue, r < s.reqs.size) ?_ ?_ b x hx r hr
    · exact fun r hr => h.reqs.size i v r hv (hqueue hr)
    · exact fun b x _ hx r => h.reqs.size b x r hx
  · refine Heap.forall_set hv (fun hp => ?_) fun b x _ => h.reqs.fifo b x
    obtain ⟨hvp, hq⟩ := hprov hp
    rw [hq]
    exact h.reqs.fifo i v hv hvp
  · simpa using h.files.enqueued
  · intro g b id hg
    have ho := h.files.opened g b id hg
    refine { ho with back := by simpa using ho.back, closed := fun hn => (ho.closed hn).imp_right ?_ }
    intro hp x hx
    refine Heap.forall_set hv (P := fun c x => c = b → x.provhcnt = 0) ?_ ?_ b x hx rfl
    · intro hi
      by_contra hw
      exact (hprov hw).1 (hp v (hi ▸ hv))
    · exact fun c x _ hx hc => hp x (hc ▸ hx)

theorem ok_freeBackend (h : Ok s) : Ok (s.withBackends (s.backends.free i)) := by
  refine ⟨{ h.reqs with req := fun r x hx => { h.reqs.req r x hx with }, excl := ?_, idle := ?_, size := ?_, fifo := ?_ },
    ⟨?_, h.files.writers, ?_⟩,
    fun g x hx => { h.pipes g x hx with }⟩
  · exact Heap.forall_free fun b x _ => h.reqs.excl b x
  · exact Heap.forall_free fun b x _ => h.reqs.idle b x
  · intro b x r hx
    exact Heap.forall_free (P := fun _ x => r ∈ x.queue → _) (fun b x _ hx => h.reqs.size b x r hx) b x hx
  · exact Heap.forall_free fun b x _ => h.reqs.fifo b x
  · simpa using h.files.enqueued
  · intro g b id hg
    have ho := h.files.opened g b id hg
    refine { ho with back := by simpa using ho.back, closed := fun hn => (ho.closed hn).imp_right ?_ }
    intro hp x hx
    exact Heap.forall_free (P := fun c x => c = b → x.provhcnt = 0)
      (fun c x _ hx hc => hp x (hc ▸ hx)) b x hx rfl

theorem ok_allocBackend (h : Ok s) (hqueue : v.queue = []) (hidle : v.usehcnt ≠ 0) :
    Ok (s.withBackends (s.backends.alloc v)) := by
  have hnone : enqueuedTo s.backends.size s.log = [] := by
    refine List.filterMap_eq_nil_iff.mpr fun e he => ?_
    cases e
    case enqueued c r m =>
      have := (h.files.enqueued c r m he).1
      simp [this.ne]
    all_goals rfl
  have hlt {c r m} (he : Event.enqueued c r m ∈ s.log) : c < (s.backends.alloc v).size := by
    rw [Heap.size_alloc]
    exact Nat.lt_succ_of_lt (h.files.enqueued c r m he).1
  refine ⟨{ h.reqs with req := fun r x hx => { h.reqs.req r x hx with }, excl := ?_, idle := ?_, size := ?_, fifo := ?_ },
    ⟨fun c r m he => ⟨hlt he, (h.files.enqueued c r m he).2⟩, h.files.writers, ?_⟩,
    fun g x hx => { h.pipes g x hx with }⟩
  · exact Heap.forall_alloc (fun hn => absurd hqueue hn) fun b x _ => h.reqs.excl b x
  · exact Heap.forall_alloc (fun hn => absurd hn hidle) fun b x _ => h.reqs.idle b x
  · intro b x r hx
    refine Heap.forall_alloc (P := fun _ x => r ∈ x.queue → _) ?_ (fun b x _ hx => h.reqs.size b x r hx)
      b x hx
    simp [hqueue]
  · refine Heap.forall_alloc (fun _ => ?_) fun b x _ => h.reqs.fifo b x
    have hacc : acceptedBy s.backends.size s.log = [] := by
      have := h.reqs.accepted s.backends.size
      rwa [hnone, List.prefix_nil] at this
    refine ⟨[], ?_, ?_⟩
    · exact hnone.trans (by rw [State.withBackends_log, hacc, List.append_nil])
    · rw [hqueue]
      exact .nil
  · intro g b id hg
    have ho := h.files.opened g b id hg
    have hback : b < (s.backends.alloc v).size := by
      rw [Heap.size_alloc]
      exact Nat.lt_succ_of_lt ho.back
    refine { ho with back := hback, closed := fun hn => (ho.closed hn).imp_right ?_ }
    intro hp x hx
    refine Heap.forall_alloc (P := fun c x => c = b → x.provhcnt = 0) ?_ ?_ b x hx rfl
    · exact fun hc => absurd hc ho.back.ne'
    · exact fun c x _ hx hc => hp x (hc ▸ hx)

end Backend

section Handle

variable {v w : Handle}

-- What a handle says about a file does not change.
theorem ok_setHandle (h : Ok s) (hv : s.handles.get i = some v) (htype : w.type = v.type)
    (hfile : v.type = .file → w.backend = v.backend ∧ w.fileId = v.fileId ∧
      (w.writeable → v.writeable) ∧ (v.refcount = 0 → w.refcount = 0))
    (hreq : w.req ≠ none → v.type = .fsReq)
    (hpipes : ∀ g x, (s.handles.set i w).get g = some x →
      PipeEnd (s.withHandles (s.handles.set i w)) g x) :
    Ok (s.withHandles (s.handles.set i w)) := by
  refine ⟨{ h.reqs with req := fun r x hx => { h.reqs.req r x hx with }, reqs := ?_ }, ⟨?_, ?_, ?_⟩, hpipes⟩
  · exact Heap.forall_set hv (fun hw => htype.trans (hreq hw)) fun g x _ => h.reqs.reqs g x
  · simpa using h.files.enqueued
  · refine fun g x b hx => Heap.forall_set hv (P := fun _ x => x.type = .file → x.writeable →
      x.backend = some b → WriteOpened s.log b) ?_ (fun g x _ hx => h.files.writers g x b hx) g x hx
    intro ht hw hb
    obtain ⟨hb', -, hw', -⟩ := hfile (htype ▸ ht)
    exact h.files.writers i v b hv (htype ▸ ht) (hw' hw) (hb' ▸ hb)
  · intro g b id hg
    have ho := h.files.opened g b id hg
    have hown (hgi : g = i) : v.type = .file := (ho.live v (hgi ▸ hv)).1
    refine { ho with
      size   := by simpa using ho.size
      live   := ?_
      once   := ho.once.imp_right (.imp_right ?_)
      closed := ?_ }
    · refine fun x hx => Heap.forall_set hv (P := fun j x => j = g → x.type = .file ∧
        x.backend = some b ∧ x.fileId = id) ?_ ?_ g x hx rfl
      · intro hgi
        obtain ⟨ht, hb, hid⟩ := ho.live v (hgi ▸ hv)
        obtain ⟨hb', hid', -⟩ := hfile ht
        exact ⟨htype.trans ht, hb'.trans hb, hid'.trans hid⟩
      · exact fun j x _ hx hj => ho.live x (hj ▸ hx)
    · intro hz x hx
      refine Heap.forall_set hv (P := fun j x => j = g → x.refcount = 0) ?_ ?_ g x hx rfl
      · exact fun hgi => (hfile (hown hgi.symm)).2.2.2 (hz v (hgi ▸ hv))
      · exact fun j x _ hx hj => hz x (hj ▸ hx)
    · intro hn
      refine ho.closed ?_
      by_cases hgi : g = i
      case pos =>
        rw [State.withHandles_handles, hgi, Heap.get_set_self hv] at hn
        contradiction
      case neg => rwa [State.withHandles_handles, Heap.get_set_ne hgi] at hn

-- The ends of pipes, if one of them gets references or loses some.
theorem Ok.pipes_set (h : Ok s) (hv : s.handles.get i = some v) (hq : w.queued = v.queued)
    (hs : w.sister = v.sister) (ht : w.type = v.type) (hr : w.readable = v.readable)
    (hw : w.writeable = v.writeable) (hpos : v.type = .pipe → 0 < w.refcount → 0 < v.refcount) :
    ∀ g x, (s.handles.set i w).get g = some x →
      PipeEnd (s.withHandles (s.handles.set i w)) g x := by
  have hend {g : Hid} {x : Handle} (hp : PipeEnd s g x) (hx : s.handles.get g = some x) (f : Hid)
      (hf : x.sister = some f) (h0 : 0 < x.refcount) : x.type = .pipe ∧ x.readable ≠ x.writeable ∧
      ∃ y, (s.handles.set i w).get f = some y ∧ y.sister = some g ∧ y.type = .pipe ∧
        y.readable = x.writeable ∧ y.writeable = x.readable ∧ (x.queued = [] ∨ y.queued = []) := by
    obtain ⟨ht', hrw, y, hy, hys⟩ := hp.sister f hf h0
    refine ⟨ht', hrw, ?_⟩
    rw [Heap.get_set hv]
    by_cases hfi : f = i
    case pos =>
      rw [hfi, hv, Option.some_inj] at hy
      exact ⟨w, if_pos hfi, by rw [hs, ht, hr, hw, hq, hy]; exact hys⟩
    case neg => exact ⟨y, by rw [if_neg hfi, hy], hys⟩
  refine Heap.forall_set hv ?_ fun g x _ hx => ?_
  · have hp := h.pipes i v hv
    refine ⟨hq ▸ hp.line, hq ▸ hp.past, by rw [hq, hs, ht]; exact hp.type,
      by rw [hq, hs]; exact hp.lone, ?_⟩
    intro f hf h0
    rw [hs] at hf
    have htp : v.type = .pipe := by
      by_contra hn
      rw [(hp.type hn).2] at hf
      contradiction
    rw [ht, hr, hw, hq]
    exact hend hp hv f hf (hpos htp h0)
  · have hp := h.pipes g x hx
    exact ⟨hp.line, hp.past, hp.type, hp.lone, hend hp hx⟩

theorem ok_allocHandle (h : Ok s) (hq : w.queued = []) (hs : w.sister = none) (hr : w.req = none)
    (hw : ∀ b, w.type = .file → w.writeable → w.backend = some b → WriteOpened s.log b) :
    Ok (s.withHandles (s.handles.alloc w)) := by
  have hlt {g : Hid} (hg : g < s.handles.size) : (s.handles.alloc w).get g = s.handles.get g := by
    rw [Heap.get_alloc, if_neg hg.ne]
  refine ⟨{ h.reqs with req := fun r x hx => { h.reqs.req r x hx with }, reqs := ?_ }, ⟨?_, ?_, ?_⟩, ?_⟩
  · exact Heap.forall_alloc (fun hn => absurd hr hn) fun g x _ => h.reqs.reqs g x
  · intro b r m he
    obtain ⟨h₁, h₂, h₃, h₄⟩ := h.files.enqueued b r m he
    refine ⟨h₁, h₂, fun g hg => ?_, h₄⟩
    rw [State.withHandles_handles, Heap.size_alloc]
    exact Nat.lt_succ_of_lt (h₃ g hg)
  · exact fun g x b hx => Heap.forall_alloc (P := fun _ x => x.type = .file → x.writeable →
      x.backend = some b → WriteOpened s.log b) (hw b) (fun g x _ hx => h.files.writers g x b hx) g x hx
  · intro g b id hg
    have ho := h.files.opened g b id hg
    have hget := hlt ho.size
    refine ⟨?_, ho.back, ?_, ho.target, ?_, ?_⟩
    · rw [State.withHandles_handles, Heap.size_alloc]
      exact Nat.lt_succ_of_lt ho.size
    · rw [State.withHandles_handles, hget]
      exact ho.live
    · rw [State.withHandles_handles, hget]
      exact ho.once
    · rw [State.withHandles_handles, hget]
      exact ho.closed
  · refine Heap.forall_alloc ⟨by simp [hq], by simp [hq], by simp [hq, hs], by simp [hq], by simp [hs]⟩ fun g x _ hx => ?_
    have hp := h.pipes g x hx
    refine ⟨hp.line, hp.past, hp.type, hp.lone, fun f hf h0 => ?_⟩
    obtain ⟨h₁, h₂, y, hy, h₃⟩ := hp.sister f hf h0
    exact ⟨h₁, h₂, y, Heap.get_alloc_of_some hy, h₃⟩

theorem ok_freeHandle (h : Ok s) (hv : s.handles.get i = some v)
    (hsis : ∀ g x, g ≠ i → s.handles.get g = some x → x.sister = some i → x.refcount = 0)
    (hcl : ∀ b id, Event.opened i b id ∈ s.log → ClosedOnce (messages i s.log) ∨
      ∀ x, s.backends.get b = some x → x.provhcnt = 0) :
    Ok (s.withHandles (s.handles.free i)) := by
  refine ⟨{ h.reqs with req := fun r x hx => { h.reqs.req r x hx with }, reqs := ?_ }, ⟨?_, ?_, ?_⟩, ?_⟩
  · exact Heap.forall_free fun g x _ => h.reqs.reqs g x
  · simpa using h.files.enqueued
  · exact fun g x b hx => Heap.forall_free (P := fun _ x => x.type = .file → x.writeable →
      x.backend = some b → WriteOpened s.log b) (fun g x _ hx => h.files.writers g x b hx) g x hx
  · intro g b id hg
    have ho := h.files.opened g b id hg
    by_cases hgi : g = i
    case pos =>
      subst hgi
      refine ⟨by simpa using ho.size, ho.back, by simp, ho.target, ?_, fun _ => hcl b id hg⟩
      exact ho.once.imp_right fun hc => ⟨hc.1, by simp⟩
    case neg =>
      have hget : (s.handles.free i).get g = s.handles.get g := Heap.get_free_ne hgi
      refine ⟨by simpa using ho.size, ho.back, ?_, ho.target, ?_, ?_⟩
      · exact fun x hx => ho.live x (hget ▸ hx)
      · exact ho.once.imp_right fun hc => ⟨hc.1, fun x hx => hc.2 x (hget ▸ hx)⟩
      · exact fun hn => ho.closed (hget ▸ hn)
  · refine Heap.forall_free fun g x hgi hx => ?_
    have hp := h.pipes g x hx
    refine ⟨hp.line, hp.past, hp.type, hp.lone, fun f hf h0 => ?_⟩
    obtain ⟨h₁, h₂, y, hy, h₃⟩ := hp.sister f hf h0
    have hfi : f ≠ i := fun he => h0.ne' (hsis g x hgi hx (he ▸ hf))
    exact ⟨h₁, h₂, y, (Heap.get_free_ne hfi).trans hy, h₃⟩

end Handle
end Ok

-- A backend which nothing uses and which nobody provides.
def VfsBackend.Lost (v : VfsBackend) : Prop :=
  v.usehcnt = 0 ∧ v.provhcnt = 0

-- A backend with requests which nobody is going to accept.
def VfsBackend.Stuck (v : VfsBackend) : Prop :=
  v.provhcnt = 0 ∧ v.queue ≠ []

-- A request which is finished and which nobody keeps for later.
def VfsReq.Lost (w : VfsReq) : Prop :=
  w.pending = false ∧ w.caller = none

theorem VfsReq.not_lost {w : VfsReq} (hp : w.pending) : ¬w.Lost := fun hl => by
  rw [hl.1] at hp
  contradiction

-- Nothing stays without a reference, and no request waits in vain, unless it was like this before.
structure Neat (s t : State) : Prop where
  backends : ∀ b w, t.backends.get b = some w → w.Lost → ∃ v, s.backends.get b = some v ∧ v.Lost
  mounts   : ∀ m w, t.mounts.get m = some w → w.refs = 0 → ∃ v, s.mounts.get m = some v ∧ v.refs = 0
  reqs     : ∀ r w, t.reqs.get r = some w → w.Lost → ∃ v, s.reqs.get r = some v ∧ v.Lost
  queues   : ∀ b w, t.backends.get b = some w → w.Stuck → ∃ v, s.backends.get b = some v ∧ v.Stuck

-- Nothing but one object is left without a reference.
structure NeatBut (o : Bid ⊕ Rid) (s t : State) : Prop where
  backends : ∀ b w, .inl b ≠ o → t.backends.get b = some w → w.Lost → ∃ v, s.backends.get b = some v ∧ v.Lost
  mounts   : ∀ m w, t.mounts.get m = some w → w.refs = 0 → ∃ v, s.mounts.get m = some v ∧ v.refs = 0
  reqs     : ∀ r w, .inr r ≠ o → t.reqs.get r = some w → w.Lost → ∃ v, s.reqs.get r = some v ∧ v.Lost
  queues   : ∀ b w, t.backends.get b = some w → w.Stuck → ∃ v, s.backends.get b = some v ∧ v.Stuck

-- The object is not left without a reference either.
def State.Needs (s : State) : Bid ⊕ Rid → Prop
  | .inl b => ∀ v, s.backends.get b = some v → ¬v.Lost
  | .inr r => ∀ w, s.reqs.get r = some w → ¬w.Lost

section Neat

variable {s t u : State} {o : Bid ⊕ Rid}

theorem neat_of_eq (hb : t.backends = s.backends) (hm : t.mounts = s.mounts) (hr : t.reqs = s.reqs) : Neat s t :=
  ⟨fun _ w hw hl => ⟨w, hb ▸ hw, hl⟩, fun _ w hw hl => ⟨w, hm ▸ hw, hl⟩, fun _ w hw hl => ⟨w, hr ▸ hw, hl⟩,
    fun _ w hw hl => ⟨w, hb ▸ hw, hl⟩⟩

theorem Neat.trans (h₁ : Neat s t) (h₂ : Neat t u) : Neat s u where
  backends := fun b x hx hl => by
    obtain ⟨w, hw, hl⟩ := h₂.backends b x hx hl
    exact h₁.backends b w hw hl
  mounts   := fun m x hx hl => by
    obtain ⟨w, hw, hl⟩ := h₂.mounts m x hx hl
    exact h₁.mounts m w hw hl
  reqs     := fun r x hx hl => by
    obtain ⟨w, hw, hl⟩ := h₂.reqs r x hx hl
    exact h₁.reqs r w hw hl
  queues   := fun b x hx hl => by
    obtain ⟨w, hw, hl⟩ := h₂.queues b x hx hl
    exact h₁.queues b w hw hl

theorem Neat.but (h : Neat s t) : NeatBut o s t :=
  ⟨fun b w _ => h.backends b w, h.mounts, fun r w _ => h.reqs r w, h.queues⟩

theorem NeatBut.trans (h₁ : NeatBut o s t) (h₂ : Neat t u) : NeatBut o s u where
  backends := fun b x hb hx hl => by
    obtain ⟨w, hw, hl⟩ := h₂.backends b x hx hl
    exact h₁.backends b w hb hw hl
  mounts   := fun m x hx hl => by
    obtain ⟨w, hw, hl⟩ := h₂.mounts m x hx hl
    exact h₁.mounts m w hw hl
  reqs     := fun r x hr hx hl => by
    obtain ⟨w, hw, hl⟩ := h₂.reqs r x hx hl
    exact h₁.reqs r w hr hw hl
  queues   := fun b x hx hl => by
    obtain ⟨w, hw, hl⟩ := h₂.queues b x hx hl
    exact h₁.queues b w hw hl

theorem NeatBut.neat (h : NeatBut o s t) (ho : t.Needs o) : Neat s t where
  backends := fun b w hw hl => by
    refine h.backends b w ?_ hw hl
    rintro rfl
    exact ho w hw hl
  mounts   := h.mounts
  reqs     := fun r w hw hl => by
    refine h.reqs r w ?_ hw hl
    rintro rfl
    exact ho w hw hl
  queues   := h.queues

theorem neatBut_setBackend {b : Bid} {v w : VfsBackend} (hv : s.backends.get b = some v) (hw : w.Stuck → v.Stuck) :
    NeatBut (.inl b) s (s.withBackends (s.backends.set b w)) :=
  { (neat_of_eq (s := s) rfl rfl rfl).but with
    backends := fun c x hc hx hl => by
      have hne : c ≠ b := fun h => hc (h ▸ rfl)
      exact ⟨x, by rwa [State.withBackends_backends, Heap.get_set_ne hne] at hx, hl⟩
    queues   := Heap.forall_set hv (fun hl => ⟨v, hv, hw hl⟩) fun _ x _ hx hl => ⟨x, hx, hl⟩ }

theorem neat_setBackend {b : Bid} {v w : VfsBackend} (hv : s.backends.get b = some v) (hl : w.Lost → v.Lost)
    (hw : w.Stuck → v.Stuck) : Neat s (s.withBackends (s.backends.set b w)) :=
  { neat_of_eq (s := s) rfl rfl rfl with
    backends := Heap.forall_set hv (fun h => ⟨v, hv, hl h⟩) fun _ x _ hx h => ⟨x, hx, h⟩
    queues   := Heap.forall_set hv (fun h => ⟨v, hv, hw h⟩) fun _ x _ hx h => ⟨x, hx, h⟩ }

theorem neat_freeBackend {b : Bid} : Neat s (s.withBackends (s.backends.free b)) :=
  { neat_of_eq (s := s) rfl rfl rfl with
    backends := Heap.forall_free fun _ x _ hx hl => ⟨x, hx, hl⟩
    queues   := Heap.forall_free fun _ x _ hx hl => ⟨x, hx, hl⟩ }

theorem neatBut_setReq {r : Rid} {w : VfsReq} : NeatBut (.inr r) s (s.withReqs (s.reqs.set r w)) :=
  { (neat_of_eq (s := s) rfl rfl rfl).but with
    reqs := fun q x hq hx hl => by
      have hne : q ≠ r := fun h => hq (h ▸ rfl)
      exact ⟨x, by rwa [State.withReqs_reqs, Heap.get_set_ne hne] at hx, hl⟩ }

theorem neat_freeReq {r : Rid} : Neat s (s.withReqs (s.reqs.free r)) :=
  { neat_of_eq (s := s) rfl rfl rfl with reqs := Heap.forall_free fun _ x _ hx hl => ⟨x, hx, hl⟩ }

end Neat

-- What an operation did, and what it has left in its hands.
structure Did (s : State) (d : Balance) (t : State) : Prop where
  kept    : Kept s t
  ok      : Ok t
  balance : t.balance = s.balance + d
  neat    : Neat s t

-- What an operation did before it frees an object, unless somebody still needs it.
structure Doing (o : Bid ⊕ Rid) (s : State) (d : Balance) (t : State) : Prop where
  kept    : Kept s t
  ok      : Ok t
  balance : t.balance = s.balance + d
  neat    : NeatBut o s t

-- The references which explain where a process waits.
def Ref.waits : Ref → Bool
  | .caller _ _ | .handler _ _ | .pipe _ _ => true
  | _                                      => false

-- Whoever is in a queue, handles requests or has a request in flight waits for it.
def State.Waits (s : State) : Prop :=
  ∀ x, x.waits → 0 ≤ s.balance x

-- Whatever is in a queue, belongs to a handle or is held by a driver is in flight, and it is there
-- only once.
def State.Placed (s : State) : Prop :=
  ∀ r, 0 ≤ s.balance (.place r)

section Did

variable {s t u : State} {d e : Balance} {o : Bid ⊕ Rid}

theorem Did.refl (h : Ok s) : Did s 0 s :=
  ⟨.refl s, h, by rw [add_zero], neat_of_eq rfl rfl rfl⟩

theorem Did.trans (h₁ : Did s d t) (h₂ : Did t e u) : Did s (d + e) u :=
  ⟨h₁.kept.trans h₂.kept, h₂.ok, by rw [h₂.balance, h₁.balance, add_assoc], h₁.neat.trans h₂.neat⟩

theorem Did.congr (h : Did s d t) (he : d = e) : Did s e t :=
  he ▸ h

theorem Doing.trans (h₁ : Doing o s d t) (h₂ : Did t e u) : Doing o s (d + e) u :=
  ⟨h₁.kept.trans h₂.kept, h₂.ok, by rw [h₂.balance, h₁.balance, add_assoc], h₁.neat.trans h₂.neat⟩

theorem Doing.congr (h : Doing o s d t) (he : d = e) : Doing o s e t :=
  he ▸ h

theorem Doing.done (h : Doing o s d t) (ho : t.Needs o) : Did s d t :=
  ⟨h.kept, h.ok, h.balance, h.neat.neat ho⟩

theorem State.Waits.step (hs : s.Waits) (ht : t.balance = s.balance + d) (hd : ∀ x, x.waits → 0 ≤ d x) : t.Waits := by
  intro x hx
  rw [ht, Pi.add_apply]
  exact add_nonneg (hs x hx) (hd x hx)

theorem Did.waits (h : Did s d t) (hs : s.Waits) (hd : ∀ x, x.waits → 0 ≤ d x) : t.Waits :=
  hs.step h.balance hd

theorem Did.placed (h : Did s d t) (hs : s.Placed) (hd : ∀ r, 0 ≤ d (.place r)) : t.Placed := by
  intro r
  rw [h.balance, Pi.add_apply]
  exact add_nonneg (hs r) (hd r)

end Did
end Camellia
