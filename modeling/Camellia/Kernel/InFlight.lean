import Camellia.Kernel.Counters
import Camellia.Kernel.Sleep

namespace Camellia

-- Where the requests and the waiting processes are when the kernel is at rest.

section Place

variable {s : State} {r : Rid} {b : Bid} {p : Pid} {paths : List (List UInt8)}

-- A request waits at some position of a queue, it was given to a process by means of a handle, or a
-- driver of the kernel keeps it.
inductive Place
  | queue (b : Bid) (i : ℕ)
  | handle (h : Hid)
  | driver (i : ℕ)

def State.At (s : State) (r : Rid) : Place → Prop
  | .queue b i => ∃ v, s.backends.get b = some v ∧ v.queue[i]? = some r
  | .handle h  => ∃ v, s.handles.get h = some v ∧ v.req = some r
  | .driver i  => s.held[i]? = some r

theorem finite_positions {l : List Rid} : { i : ℕ | l[i]? = some r }.Finite :=
  (Set.finite_lt_nat l.length).subset fun _ hi => (List.getElem?_eq_some_iff.mp hi).1

def State.queuedAt (s : State) (r : Rid) : Set (Bid × ℕ) :=
  s.backends.collect fun _ v => { i : ℕ | v.queue[i]? = some r }

def State.handedTo (s : State) (r : Rid) : Set Hid :=
  s.handles.those fun _ v => v.req = some r

def State.heldAt (s : State) (r : Rid) : Set ℕ :=
  { i : ℕ | s.held[i]? = some r }

theorem places_eq : { x | s.At r x } =
    Place.handle '' s.handedTo r ∪ (fun x => Place.queue x.1 x.2) '' s.queuedAt r ∪ Place.driver '' s.heldAt r := by
  ext x
  cases x <;> simp [State.At, State.queuedAt, State.handedTo, State.heldAt, Heap.collect, Heap.those]

theorem finite_handedTo : (s.handedTo r).Finite :=
  Heap.finite_those

theorem finite_queuedAt : (s.queuedAt r).Finite :=
  Heap.finite_collect fun _ _ => finite_positions

theorem finite_heldAt : (s.heldAt r).Finite :=
  finite_positions

theorem finite_places : { x | s.At r x }.Finite := by
  rw [places_eq]
  exact ((finite_handedTo.image _).union (finite_queuedAt.image _)).union (finite_heldAt.image _)

-- The number of places is what the balance counts.
theorem ncard_places : ({ x | s.At r x }.ncard : ℤ) =
    s.handles.total (fun _ v => if v.req = some r then 1 else 0) +
      s.backends.total (fun _ v => (v.queue.count r : ℤ)) + s.held.count r := by
  have hqueues : s.backends.total (fun _ v => (v.queue.count r : ℤ)) = ((s.queuedAt r).ncard : ℤ) := by
    rw [State.queuedAt, ← Heap.total_ncard fun _ _ => finite_positions]
    exact Heap.total_congr fun _ _ _ => by rw [List.count_eq_ncard]
  rw [places_eq, Set.ncard_union_eq ?_ ((finite_handedTo.image _).union (finite_queuedAt.image _)) (finite_heldAt.image _),
    Set.ncard_union_eq ?_ (finite_handedTo.image _) (finite_queuedAt.image _),
    Set.ncard_image_of_injective _ fun _ _ h => Place.handle.inj h,
    Set.ncard_image_of_injective _ fun _ _ h => Prod.ext (Place.queue.inj h).1 (Place.queue.inj h).2,
    Set.ncard_image_of_injective _ fun _ _ h => Place.driver.inj h, Heap.total_indicator, hqueues, List.count_eq_ncard]
  · push_cast
    rfl
  · refine Set.disjoint_left.mpr ?_
    rintro _ ⟨_, _, rfl⟩ ⟨_, _, h⟩
    contradiction
  · refine Set.disjoint_left.mpr ?_
    rintro _ (⟨_, _, rfl⟩ | ⟨_, _, rfl⟩) ⟨_, _, h⟩ <;> contradiction

theorem Rest.ncard_places (hs : Rest s) :
    ({ x | s.At r x }.ncard : ℤ) = (s.reqs.get r).elim 0 fun w => if w.pending then 1 else 0 := by
  have h := hs.apply (x := .place r) (by simp)
  rw [balance_place, Pi.zero_apply] at h
  rw [Camellia.ncard_places]
  omega

-- A request in flight is in one place, and nothing else is in any place.
theorem Rest.placed (hs : Rest s) : (s.Pending r → ∃! x, s.At r x) ∧ ∀ x, s.At r x → s.Pending r := by
  have hcard := hs.ncard_places (r := r)
  refine ⟨fun ⟨w, hw, hp⟩ => ?_, fun x hx => ?_⟩
  · simp only [hw, Option.elim_some, hp, if_true] at hcard
    obtain ⟨x, hx⟩ := Set.ncard_eq_one.mp (by exact_mod_cast hcard)
    have hmem (y : Place) : s.At r y ↔ y = x := Set.ext_iff.mp hx y
    exact ⟨x, (hmem x).mpr rfl, fun y => (hmem y).mp⟩
  · refine hs.sane.placed.pending ?_
    have hpos : 0 < { x | s.At r x }.ncard := (Set.ncard_pos finite_places).mpr ⟨x, hx⟩
    rw [← Camellia.ncard_places]
    exact_mod_cast hpos

def State.inFlight (s : State) (r : Rid) : ℕ :=
  (s.reqs.get r).elim 0 fun w => w.pending.toNat

-- What is known about the requests when the kernel is at rest.
structure RequestsPlaced (s : State) : Prop where
  -- Every request in flight is in one place, and nothing which was finished is in any place.
  place    : ∀ r, s.Pending r → ∃! x, s.At r x
  only     : ∀ r x, s.At r x → s.Pending r
  -- Whatever was sent is in flight or was finished, each time once.
  finished : ∀ r, created r s.log = s.log.count (.finished r) + s.inFlight r
  -- The caller of a request in flight waits for it and for nothing else.
  caller   : ∀ p r, (∃ w, s.reqs.get r = some w ∧ w.pending ∧ w.caller = some p) ↔
    ∃ v, s.procs.get p = some v ∧ v.state = .waits4fs ∧ v.reqslot = some r
  -- A request which was finished stays only if its caller may make the next one of it.
  kept     : ∀ r w, s.reqs.get r = some w → w.pending ∨
    ∃ p v, w.caller = some p ∧ s.procs.get p = some v ∧ v.state.active ∧ v.reqslot = some r

theorem Rest.requestsPlaced (hs : Rest s) : RequestsPlaced s where
  place    := fun _ => hs.placed.1
  only     := fun _ => hs.placed.2
  finished := fun r => by
    have h := hs.apply (x := .life r) (by simp)
    rw [balance_life, Pi.zero_apply] at h
    rw [State.inFlight]
    cases hw : s.reqs.get r
    case none =>
      simp only [hw, Option.elim_none] at h ⊢
      omega
    case some w =>
      simp only [hw, Option.elim_some] at h ⊢
      cases hp : w.pending
      case false =>
        simp only [hp, Bool.false_eq_true, if_false, Bool.toNat_false] at h ⊢
        omega
      case true =>
        simp only [hp, if_true, Bool.toNat_true] at h ⊢
        omega
  caller   := fun p r => by
    have h := hs.apply (x := .caller p r) (by simp)
    rw [balance_caller, Pi.zero_apply] at h
    constructor
    · rintro ⟨w, hw, hp, hc⟩
      exact hs.sane.waits.caller hw hp hc
    · rintro ⟨v, hv, hst, hr⟩
      cases hw : s.reqs.get r
      case none => simp [hv, hw, hst, hr] at h
      case some w =>
        refine ⟨w, rfl, ?_⟩
        by_contra hn
        simp [hv, hw, hst, hr, hn] at h
  kept     := fun r w hw => by
    refine or_iff_not_imp_left.mpr fun hp => ?_
    obtain ⟨p, hc⟩ := Option.ne_none_iff_exists'.mp fun hc => hs.tidy.cached r w hw ⟨Bool.eq_false_iff.mpr hp, hc⟩
    have h := hs.apply (x := .slot p r) (by simp)
    rw [balance_slot, hw, Pi.zero_apply] at h
    cases hv : s.procs.get p
    case none => simp [hv, hc] at h
    case some v =>
      refine ⟨p, v, hc, hv, ?_⟩
      by_contra hn
      simp [hv, hc, hn] at h

theorem reachable_requestsPlaced (hr : Reachable paths s) : RequestsPlaced s :=
  hr.rest.requestsPlaced

-- A driver of the kernel keeps a request.
theorem opening_requestsPlaced : ∃ t, Step (bootState [[]]) (.syscall 0 (.open (some [47, 97]) 0)) t ∧
    t.held = [0] ∧ RequestsPlaced t := by
  have hrun : ∃ t, enter quietEnv (.syscall 0 (.open (some [47, 97]) 0)) (bootState [[]]) = .ok ((), t) ∧
      t.held = [0] := ⟨_, rfl, rfl⟩
  have ⟨t, hrun, hheld⟩ := hrun
  have hstep : Step (bootState [[]]) (.syscall 0 (.open (some [47, 97]) 0)) t := ⟨⟨_, rfl, rfl⟩, quietEnv, hrun⟩
  exact ⟨t, hstep, hheld, reachable_requestsPlaced (.step .boot trivial hstep)⟩

end Place

section Queue

variable {s : State} {paths : List (List UInt8)}

-- What is known about the queues of the filesystems.
structure QueuesOk (s : State) : Prop where
  -- A request waits only if nobody waits for a request.
  waiting : ∀ b v, s.backends.get b = some v → v.queue ≠ [] → v.access = .user none
  -- The handler is whoever waits for requests of the filesystem he provides.
  handler : ∀ p b, (∃ v, s.backends.get b = some v ∧ v.access.handler = some p) ↔
    ∃ u, s.procs.get p = some u ∧ u.state = .waits4request ∧ u.controlled = some b
  -- The requests are given to the driver in the order in which they were sent, and the others are
  -- those in the queue.
  order   : ∀ b v, s.backends.get b = some v → v.provhcnt ≠ 0 →
    (enqueuedTo b s.log).map Prod.fst = (acceptedBy b s.log).map Prod.fst ++ v.queue
  -- No driver gets anything else, or in another order, at any time.
  given   : ∀ b, acceptedBy b s.log <+: enqueuedTo b s.log

theorem Rest.queuesOk (hs : Rest s) : QueuesOk s where
  waiting := hs.ok.reqs.excl
  handler := fun p b => by
    have h := hs.apply (x := .handler p b) (by simp)
    rw [balance_handler, Pi.zero_apply] at h
    constructor
    · rintro ⟨v, hv, hh⟩
      exact hs.sane.waits.handler hv hh
    · rintro ⟨u, hu, hst, hc⟩
      cases hv : s.backends.get b
      case none => simp [hv, hu, hst, hc] at h
      case some v =>
        refine ⟨v, rfl, ?_⟩
        by_contra hn
        simp [hv, hu, hst, hc, hn] at h
  order   := fun b v hv hp => by
    obtain ⟨waiting, hw, hf⟩ := hs.ok.reqs.fifo b v hv hp
    have hqueue : waiting.map Prod.fst = v.queue := by
      refine List.ext_get (by simpa using hf.length_eq) fun i hi hi' => ?_
      simpa using ((List.forall₂_iff_get.mp hf).2 i (by simpa using hi) hi').1
    rw [hw, List.map_append, hqueue]
  given   := hs.ok.reqs.accepted

theorem reachable_queuesOk (hr : Reachable paths s) : QueuesOk s :=
  hr.rest.queuesOk

-- The provider of a filesystem waits for requests.
theorem waiting_queuesOk : ∃ t u, Step (bootState [[]]) (.syscall 0 (.fork FORK_NEWFS)) t ∧
    Step t (.syscall 1 (.fsWait 8)) u ∧
    (u.backends.get 1).map VfsBackend.access = some (.user (some 1)) ∧ QueuesOk u := by
  have hrun : ∃ t u, enter quietEnv (.syscall 0 (.fork FORK_NEWFS)) (bootState [[]]) = .ok ((), t) ∧
      (∃ v, t.procs.get 1 = some v ∧ v.state = .running) ∧ enter quietEnv (.syscall 1 (.fsWait 8)) t = .ok ((), u) ∧
      (u.backends.get 1).map VfsBackend.access = some (.user (some 1)) := ⟨_, _, rfl, ⟨_, rfl, rfl⟩, rfl, rfl⟩
  have ⟨t, u, hfork, hready, hwait, haccess⟩ := hrun
  have hst : Step (bootState [[]]) (.syscall 0 (.fork FORK_NEWFS)) t := ⟨⟨_, rfl, rfl⟩, quietEnv, hfork⟩
  have htu : Step t (.syscall 1 (.fsWait 8)) u := ⟨hready, quietEnv, hwait⟩
  exact ⟨t, u, hst, htu, haccess, reachable_queuesOk (.step (.step .boot trivial hst) trivial htu)⟩

end Queue

section Pipe

variable {s : State} {paths : List (List UInt8)}

-- What is known about the pipes.
structure PipesOk (s : State) : Prop where
  -- The two ends know each other, and one is for reading and the other one for writing.
  ends   : ∀ h v g, s.handles.get h = some v → v.sister = some g → v.type = .pipe ∧ ∃ w,
    s.handles.get g = some w ∧ w.sister = some h ∧ w.type = .pipe ∧ v.readable ≠ v.writeable ∧
      w.readable = v.writeable ∧ w.writeable = v.readable
  -- Nobody waits at both ends at once, and nobody waits at an end whose other one is gone.
  apart  : ∀ h v g w, s.handles.get h = some v → v.sister = some g → s.handles.get g = some w →
    v.queued = [] ∨ w.queued = []
  lone   : ∀ h v, s.handles.get h = some v → v.sister = none → v.queued = []
  -- Whoever waits for a pipe is in its queue, once and in no other queue.
  waits  : ∀ p h, (∃ u, s.procs.get p = some u ∧ u.state = .waits4pipe ∧ u.waitsPipe = h) ↔
    ∃ v, s.handles.get h = some v ∧ p ∈ v.queued
  nodup  : ∀ h v, s.handles.get h = some v → v.queued.Nodup
  -- The processes wait in the order in which they came.
  order  : ∀ h v, s.handles.get h = some v → v.queued.Pairwise fun p q => s.since p < s.since q

theorem Rest.pipesOk (hs : Rest s) : PipesOk s := by
  have hsister {h g : Hid} {v : Handle} (hv : s.handles.get h = some v) (hg : v.sister = some g) :=
    (hs.ok.pipes h v hv).sister g hg (Nat.pos_of_ne_zero (hs.tidy.used h v hv))
  refine ⟨fun h v g hv hg => ?_, fun h v g w hv hg hw => ?_, fun h v hv => (hs.ok.pipes h v hv).lone, fun p h => ?_,
    fun h v hv => hs.sane.waits.nodup hv, fun h v hv => (hs.ok.pipes h v hv).line⟩
  · obtain ⟨ht, hrw, w, hw, hback, htw, hr, hwr, _⟩ := hsister hv hg
    exact ⟨ht, w, hw, hback, htw, hrw, hr, hwr⟩
  · obtain ⟨_, _, w', hw', _, _, _, _, hq⟩ := hsister hv hg
    obtain rfl := Option.some_inj.mp (hw.symm.trans hw')
    exact hq
  · have hb := hs.apply (x := .pipe p h) (by simp)
    rw [balance_pipe, Pi.zero_apply] at hb
    constructor
    · rintro ⟨u, hu, hst, rfl⟩
      cases hv : s.handles.get u.waitsPipe
      case none => simp [hu, hv, hst] at hb
      case some v =>
        refine ⟨v, rfl, List.count_pos_iff.mp ?_⟩
        simp only [hu, hv, hst, Option.elim_some, and_self, if_true] at hb
        omega
    · rintro ⟨v, hv, hp⟩
      exact (hs.sane.waits.queued hv hp).2

theorem reachable_pipesOk (hr : Reachable paths s) : PipesOk s :=
  hr.rest.pipesOk

-- A process waits for somebody to read what it writes.
theorem writing_pipesOk : ∃ t u, Step (bootState [[]]) (.syscall 0 (.pipe 0)) t ∧
    Step t (.syscall 0 (.write 2 0 5 0 0)) u ∧ (u.handles.get 2).map Handle.queued = some [0] ∧ PipesOk u := by
  have hrun : ∃ t u, enter quietEnv (.syscall 0 (.pipe 0)) (bootState [[]]) = .ok ((), t) ∧
      (∃ v, t.procs.get 0 = some v ∧ v.state = .running) ∧
      enter quietEnv (.syscall 0 (.write 2 0 5 0 0)) t = .ok ((), u) ∧
      (u.handles.get 2).map Handle.queued = some [0] := ⟨_, _, rfl, ⟨_, rfl, rfl⟩, rfl, rfl⟩
  have ⟨t, u, hpipe, hready, hwrite, hqueued⟩ := hrun
  have hst : Step (bootState [[]]) (.syscall 0 (.pipe 0)) t := ⟨⟨_, rfl, rfl⟩, quietEnv, hpipe⟩
  have htu : Step t (.syscall 0 (.write 2 0 5 0 0)) u := ⟨hready, quietEnv, hwrite⟩
  exact ⟨t, u, hst, htu, hqueued, reachable_pipesOk (.step (.step .boot trivial hst) trivial htu)⟩

end Pipe

section Wait

variable {s : State} {p : Pid} {h : Hid} {r : Rid} {paths : List (List UInt8)}

-- The live processes which have a handle.
def State.keepers (s : State) (h : Hid) : Set Pid :=
  { p | ∃ i j, p ∈ s.sharers (.inr i) ∧ (i, j) ∈ s.slots h }

-- The live processes which provide a backend and which do not wait for a request.
def State.workers (s : State) (b : Bid) : Set Pid :=
  { p | ∃ v, s.procs.get p = some v ∧ v.controlled = some b ∧ v.state.active ∧ v.state ≠ .waits4request }

-- There is somebody who can answer the request, or who can accept it.
def State.Answerable (s : State) (r : Rid) : Prop :=
  r ∈ s.held ∨ (∃ h v, s.handles.get h = some v ∧ v.req = some r ∧ (s.keepers h).Nonempty) ∨
    ∃ b v, s.backends.get b = some v ∧ r ∈ v.queue ∧ (s.workers b).Nonempty

-- Whoever waits can still be woken up.
structure Awaited (s : State) : Prop where
  fs      : ∀ p v r, s.procs.get p = some v → v.state = .waits4fs → v.reqslot = some r → s.Answerable r
  -- Nothing is left to do for a process which waits for requests, but there may be more of them.
  request : ∀ p v b, s.procs.get p = some v → v.state = .waits4request → v.controlled = some b →
    ∃ x, s.backends.get b = some x ∧ x.queue = [] ∧
      ((s.mountsOf b).Nonempty ∨ (s.handlesOf b).Nonempty ∨ (s.reqsOf b).Nonempty)
  -- Somebody may use the other end of the pipe.
  pipe    : ∀ p v, s.procs.get p = some v → v.state = .waits4pipe → ∃ x g, s.handles.get v.waitsPipe = some x ∧
    p ∈ x.queued ∧ x.sister = some g ∧ (s.keepers g).Nonempty
  timer   : ∀ p v, s.procs.get p = some v → v.state = .waits4timer → p ∈ s.scheduled

-- A handle which is in use is in the table of a live process.
theorem Rest.kept (hs : Rest s) (hok : SharesOk s) (hv : ∃ v, s.handles.get h = some v) (hn : h ≠ nullfs) :
    (s.keepers h).Nonempty := by
  obtain ⟨⟨i, j⟩, hslot⟩ := (hs.handlesCounted.held h hn).mpr hv
  have hlive : s.Allocated (.inr i) := by
    obtain ⟨table, htable, -⟩ := hslot
    rw [State.Allocated, htable]
    rfl
  obtain ⟨q, hq⟩ := hok.allocated_iff.mp hlive
  exact ⟨q, i, j, hq, hslot⟩

-- Whoever provides a filesystem with a queue is doing something else.
theorem Rest.worker (hs : Rest s) {b : Bid} {v : VfsBackend} (hv : s.backends.get b = some v) (hq : v.queue ≠ []) :
    (s.workers b).Nonempty := by
  have haccess := hs.ok.reqs.excl b v hv hq
  have hcount := hs.backendsCounted.provhcnt b v hv (by rw [VfsBackend.isUser, haccess])
  have hpos : 0 < (s.providers b).ncard :=
    Nat.pos_of_ne_zero fun hz => hs.tidy.awaited b v hv ⟨hcount.trans hz, hq⟩
  obtain ⟨p, u, hu, hc⟩ := (Set.ncard_pos Heap.finite_those).mp hpos
  refine ⟨p, u, hu, hc, ?_, fun hst => ?_⟩
  · by_contra ha
    obtain ⟨-, hnone⟩ := hs.tidy.buried p u hu (Bool.eq_false_iff.mpr ha)
    rw [hc] at hnone
    contradiction
  · obtain ⟨v', hv', hh⟩ := (hs.queuesOk.handler p b).mpr ⟨u, hu, hst, hc⟩
    obtain rfl := Option.some_inj.mp (hv.symm.trans hv')
    rw [haccess] at hh
    contradiction

theorem Rest.answerable (hs : Rest s) (hok : SharesOk s) (hp : s.Pending r) : s.Answerable r := by
  obtain ⟨x, hx, -⟩ := hs.requestsPlaced.place r hp
  cases x
  case queue b i =>
    obtain ⟨v, hv, hi⟩ := hx
    have hmem := List.mem_of_getElem? hi
    exact .inr (.inr ⟨b, v, hv, hmem, hs.worker hv (List.ne_nil_of_mem hmem)⟩)
  case handle h =>
    obtain ⟨v, hv, hr⟩ := hx
    have hn : h ≠ nullfs := by
      rintro rfl
      have htype := hs.ok.reqs.reqs nullfs v hv (by rw [hr]; exact Option.some_ne_none r)
      rw [hs.tidy.static.2 v hv] at htype
      contradiction
    exact .inr (.inl ⟨h, v, hv, hr, hs.kept hok ⟨v, hv⟩ hn⟩)
  case driver i => exact .inl (List.mem_of_getElem? hx)

theorem Rest.awaited (hs : Rest s) (hok : SharesOk s) (ht : TimerOk s) : Awaited s where
  fs      := fun p v r hv hst hr => by
    obtain ⟨w, hw, hp, -⟩ := (hs.requestsPlaced.caller p r).mpr ⟨v, hv, hst, hr⟩
    exact hs.answerable hok ⟨w, hw, hp⟩
  request := fun p v b hv hst hc => by
    obtain ⟨x, hx, hh⟩ := (hs.queuesOk.handler p b).mpr ⟨v, hv, hst, hc⟩
    refine ⟨x, hx, ?_, ?_⟩
    · by_contra hq
      rw [hs.ok.reqs.excl b x hx hq] at hh
      contradiction
    · have hcount := hs.backendsCounted.usehcnt b x hx
      have huse : x.usehcnt ≠ 0 := fun hz => by
        rw [hs.ok.reqs.idle b x hx hz] at hh
        contradiction
      simp only [← Set.ncard_pos Heap.finite_those, State.mountsOf, State.handlesOf, State.reqsOf] at hcount ⊢
      omega
  pipe    := fun p v hv hst => by
    obtain ⟨x, hx, hp⟩ := (hs.pipesOk.waits p v.waitsPipe).mp ⟨v, hv, hst, rfl⟩
    obtain ⟨g, hg⟩ := Option.ne_none_iff_exists'.mp fun hn =>
      List.ne_nil_of_mem hp (hs.pipesOk.lone v.waitsPipe x hx hn)
    obtain ⟨-, w, hw, -, htype, -⟩ := hs.pipesOk.ends v.waitsPipe x g hx hg
    have hn : g ≠ nullfs := by
      rintro rfl
      rw [hs.tidy.static.2 w hw] at htype
      contradiction
    exact ⟨x, g, hx, hp, hg, hs.kept hok ⟨w, hw⟩ hn⟩
  timer   := fun p v hv hst => ht.mem_iff.mpr ⟨v, hv, hst⟩

end Wait

section File

variable {s : State} {h : Hid} {b : Bid} {id : ℕ} {log : List Event} {paths : List (List UInt8)}

-- The requests for a file which its driver was given.
def received (b : Bid) (h : Hid) (log : List Event) : List VfsReq :=
  (acceptedBy b log).filterMap fun x => if x.2.origin = some h then some x.2 else none

-- Requests for the file go nowhere else.
theorem messages_eq (hb : ∀ c r m, Event.enqueued c r m ∈ log → m.origin = some h → c = b) :
    messages h log = (enqueuedTo b log).filterMap fun x => if x.2.origin = some h then some x.2 else none := by
  rw [messages, enqueuedTo, List.filterMap_filterMap]
  refine List.filterMap_congr fun e he => ?_
  cases e
  case enqueued c r m =>
    by_cases hm : m.origin = some h
    case pos => simp [hm, hb c r m he hm]
    case neg => by_cases hc : c = b <;> simp [hm, hc]
  all_goals rfl

theorem ClosedOnce.dropLast {l : List VfsReq} (hl : ClosedOnce l) :
    (∀ m ∈ l.dropLast, m.type ≠ .CLOSE) ∧ ∃ m, l.getLast? = some m ∧ m.type = .CLOSE := by
  obtain ⟨l, m, rfl, hm, hl⟩ := hl
  exact ⟨by simpa using hl, m, by simp, hm⟩

-- What a driver gets to see of a file.
structure Bracketed (s : State) (h : Hid) (b : Bid) (id : ℕ) : Prop where
  -- Nothing but requests with the id of the file is sent for it, and only to its driver.
  target   : ∀ m ∈ messages h s.log, m.backend = some b ∧ m.id = id ∧ m.type ≠ .OPEN
  received : received b h s.log <+: messages h s.log
  -- Nothing is sent or given to the driver after a request to close the file.
  last     : ∀ m ∈ (messages h s.log).dropLast, m.type ≠ .CLOSE
  lastGot  : ∀ m ∈ (Camellia.received b h s.log).dropLast, m.type ≠ .CLOSE
  -- The file is not closed as long as there is a handle.
  opened   : (∃ v, s.handles.get h = some v) → ∀ m ∈ messages h s.log, m.type ≠ .CLOSE
  -- Afterwards the request was sent, unless there was nobody left to get it.
  closed   : s.handles.get h = none → (∃ m, (messages h s.log).getLast? = some m ∧ m.type = .CLOSE) ∨
    ∀ v, s.backends.get b = some v → v.provhcnt = 0

theorem Rest.bracketed (hs : Rest s) (ho : .opened h b id ∈ s.log) : Bracketed s h b id := by
  have hopen := hs.ok.files.opened h b id ho
  have hprefix : Camellia.received b h s.log <+: messages h s.log := by
    rw [messages_eq fun c r m hm horigin => (hopen.target c r m hm horigin).1]
    exact (hs.ok.reqs.accepted b).filterMap _
  have hlast : ∀ m ∈ (messages h s.log).dropLast, m.type ≠ .CLOSE := by
    obtain hnone | ⟨hclosed, _⟩ := hopen.once
    · exact fun m hm => hnone m (List.dropLast_subset _ hm)
    · exact hclosed.dropLast.1
  refine ⟨fun m hm => ?_, hprefix, hlast, fun m hm => ?_, fun ⟨v, hv⟩ => ?_, fun hn => ?_⟩
  · obtain ⟨c, r, hm, horigin⟩ := mem_messages.mp hm
    obtain ⟨rfl, hid, htype⟩ := hopen.target c r m hm horigin
    exact ⟨(hs.ok.files.enqueued c r m hm).2.1, hid, htype⟩
  · obtain ⟨rest, hrest⟩ := hprefix
    refine hlast m ?_
    rw [← hrest]
    by_cases hnil : rest = []
    case pos => rwa [hnil, List.append_nil]
    case neg =>
      rw [List.dropLast_append_of_ne_nil hnil]
      exact List.mem_append_left _ (List.dropLast_subset _ hm)
  · refine hopen.once.resolve_right fun hx => ?_
    obtain ⟨_, hzero⟩ := hx
    exact hs.tidy.used h v hv (hzero v hv)
  · exact (hopen.closed hn).imp_left fun hc => hc.dropLast.2

theorem reachable_bracketed (hr : Reachable paths s) (ho : .opened h b id ∈ s.log) : Bracketed s h b id :=
  hr.rest.bracketed ho

-- A file which was opened and closed again.
theorem closed_bracketed : ∃ t u, Step (bootState [[]]) (.syscall 0 (.open (some [47, 97]) 0)) t ∧
    Step t (.syscall 0 (.close 1)) u ∧ u.handles.get 1 = none ∧ Bracketed u 1 0 7 := by
  have hrun : ∃ t u, enter promptEnv (.syscall 0 (.open (some [47, 97]) 0)) (bootState [[]]) = .ok ((), t) ∧
      (∃ v, t.procs.get 0 = some v ∧ v.state = .running) ∧ enter promptEnv (.syscall 0 (.close 1)) t = .ok ((), u) ∧
      u.handles.get 1 = none ∧ .opened 1 0 7 ∈ u.log := ⟨_, _, rfl, ⟨_, rfl, rfl⟩, rfl, rfl, by decide⟩
  have ⟨t, u, hopen, hready, hclose, hnone, ho⟩ := hrun
  have hst : Step (bootState [[]]) (.syscall 0 (.open (some [47, 97]) 0)) t := ⟨⟨_, rfl, rfl⟩, promptEnv, hopen⟩
  have htu : Step t (.syscall 0 (.close 1)) u := ⟨hready, promptEnv, hclose⟩
  exact ⟨t, u, hst, htu, hnone, reachable_bracketed (.step (.step .boot trivial hst) trivial htu) ho⟩

-- Only files which somebody opened for writing are written to or removed.
theorem Rest.writeOpened (hs : Rest s) {r : Rid} {m : VfsReq} (hm : .accepted b r m ∈ s.log)
    (hw : m.type = .WRITE ∨ m.type = .REMOVE) : WriteOpened s.log b := by
  have hmem : (r, m) ∈ acceptedBy b s.log := List.mem_filterMap.mpr ⟨_, hm, by simp⟩
  obtain ⟨e, he, hem⟩ := List.mem_filterMap.mp ((hs.ok.reqs.accepted b).subset hmem)
  cases e
  case enqueued c q m' =>
    by_cases hc : c = b
    case neg => simp [hc] at hem
    case pos =>
      obtain ⟨rfl, rfl⟩ : q = r ∧ m' = m := by simpa [hc] using hem
      exact hc ▸ (hs.ok.files.enqueued c q m' he).2.2.2.1 hw
  all_goals contradiction

theorem reachable_writeOpened {r : Rid} {m : VfsReq} (hr : Reachable paths s) (hm : .accepted b r m ∈ s.log)
    (hw : m.type = .WRITE ∨ m.type = .REMOVE) : WriteOpened s.log b :=
  hr.rest.writeOpened hm hw

theorem written_writeOpened : ∃ t u, Step (bootState [[]]) (.syscall 0 (.open (some [47, 97]) OPEN_WRITE)) t ∧
    Step t (.syscall 0 (.write 1 0 0 0 0)) u ∧ WriteOpened u.log 0 := by
  have hrun : ∃ t u, enter promptEnv (.syscall 0 (.open (some [47, 97]) OPEN_WRITE)) (bootState [[]]) = .ok ((), t) ∧
      (∃ v, t.procs.get 0 = some v ∧ v.state = .running) ∧
      enter promptEnv (.syscall 0 (.write 1 0 0 0 0)) t = .ok ((), u) ∧
      ∃ m, u.log[7]? = some (.accepted 0 0 m) ∧ m.type = .WRITE := ⟨_, _, rfl, ⟨_, rfl, rfl⟩, rfl, _, rfl, rfl⟩
  have ⟨t, u, hopen, hready, hwrite, m, hm, htype⟩ := hrun
  have hst : Step (bootState [[]]) (.syscall 0 (.open (some [47, 97]) OPEN_WRITE)) t := ⟨⟨_, rfl, rfl⟩, promptEnv, hopen⟩
  have htu : Step t (.syscall 0 (.write 1 0 0 0 0)) u := ⟨hready, promptEnv, hwrite⟩
  have hr : Reachable [[]] u := .step (.step .boot trivial hst) trivial htu
  exact ⟨t, u, hst, htu, reachable_writeOpened hr (List.mem_of_getElem? hm) (.inl htype)⟩

end File
end Camellia
