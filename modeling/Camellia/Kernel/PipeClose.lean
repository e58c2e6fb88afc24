import Camellia.Kernel.Run

namespace Camellia

-- What reading or writing yields if there is nobody at the other end of a pipe.
def endOfPipe (readable : Bool) : Int :=
  if readable then 0 else -EPIPE

-- The system call by which a process uses its end of a pipe.
def pipeCall (readable : Bool) (hid : Int) (buf len : ℕ) (offset : Int) (flags : Flags) : Syscall :=
  if readable then .read hid buf len offset else .write hid buf len offset flags

-- The process `p` has one end of a pipe. The other end has a single reference, and nobody waits
-- there.
structure PipeRace (s : State) (p : Pid) (hid : Int) (h g : Hid) (u : Proc) (v w : Handle) :
    Prop where
  proc     : s.procs.get p = some u
  running  : u.state = .running
  slot     : ∃ t table i, u.handles = some t ∧ s.tables.get t = some table ∧ slotOf hid = some i ∧
    table i = some h
  hid      : hid ≠ HANDLE_NULLFS
  handle   : s.handles.get h = some v
  type     : v.type = .pipe
  access   : v.readable ≠ v.writeable
  sister   : v.sister = some g
  queued   : v.queued.Nodup
  waits    : ∀ q ∈ v.queued, ∃ x, s.procs.get q = some x ∧ x.state = .waits4pipe
  handle'  : s.handles.get g = some w
  ne       : g ≠ h
  static   : g ≠ nullfs
  type'    : w.type = .pipe
  backend' : w.backend = none
  sister'  : w.sister = some h
  queued'  : w.queued = []
  last     : w.refcount = 1

-- The two orders in which a process may use its end of a pipe and the other end may be closed.
def useThenClose (env : Env) (p : Pid) (call : Syscall) (g : Hid) : K Unit := do
  syscall env p call
  handleClose env (vfsreqFinishShort env) g

def closeThenUse (env : Env) (p : Pid) (call : Syscall) (g : Hid) : K Unit := do
  handleClose env (vfsreqFinishShort env) g
  syscall env p call

-- The process gets the value for the end of the pipe, in both orders.
def EndOfPipeAgrees (env : Env) (s : State) (p : Pid) (call : Syscall) (g : Hid)
    (readable : Bool) : Prop :=
  (∃ t, useThenClose env p call g s = .ok ((), t) ∧ t.returned p = some (endOfPipe readable)) ∧
    ∃ t, closeThenUse env p call g s = .ok ((), t) ∧ t.returned p = some (endOfPipe readable)

section Spec

variable {s : State} {E : Fault → Prop} {p q : Pid} {h g : Hid} {u x : Proc} {v w : Handle}
variable {env : Env} {finish : Rid → Int → K Unit} {ret : Int} {l : List Pid}

theorem procSetstate_running (hq : s.procs.get q = some x) (hx : x.state ≠ .freed) :
    wp (procSetstate q .running)
      (fun _ t => t = { s with procs := s.procs.set q { x with state := .running } }) E s := by
  simp [procSetstate, hq, hx]

theorem procSetstate_waits4pipe (hq : s.procs.get q = some x) (hx : x.state = .running) :
    wp (procSetstate q .waits4pipe)
      (fun _ t => t = { s with procs := s.procs.set q { x with state := .waits4pipe } }) E s := by
  simp [procSetstate, hq, hx]

theorem pipeWake_spec (hq : s.procs.get q = some x) (hx : x.state = .waits4pipe) :
    wp (pipeWake q ret) (fun _ t => t = { s with
      procs := s.procs.set q { x with state := .running, rax := ret } }) E s := by
  simp only [pipeWake, wp_bind, wp_getProc, hq, Option.elim_some, wp_kassert, hx, true_implies,
    not_true_eq_false, false_implies, and_true]
  refine wp_post (procSetstate_running hq (by simp [hx])) ?_
  rintro _ _ rfl
  simp [regsSavereturn, Heap.get_set_self hq]

-- What the processes are after some of them were woken up.
structure Woken (s : State) (l : List Pid) (ret : Int) (t : State) : Prop where
  eq    : ∃ procs, t = { s with procs := procs }
  woken : ∀ q ∈ l, t.returned q = some ret
  other : ∀ q, q ∉ l → t.procs.get q = s.procs.get q

theorem wakeAll_spec (hn : l.Nodup)
    (hl : ∀ q ∈ l, ∃ x, s.procs.get q = some x ∧ x.state = .waits4pipe) :
    wp (l.forM (pipeWake · ret)) (fun _ => Woken s l ret) E s := by
  induction l generalizing s
  case nil => exact wp_pure.mpr ⟨⟨s.procs, rfl⟩, by simp, fun _ _ => rfl⟩
  case cons a l hi =>
    have ⟨ha, hn⟩ := List.nodup_cons.mp hn
    obtain ⟨x, hx, hxs⟩ := hl a (by simp)
    show wp (pipeWake a ret >>= fun _ => l.forM (pipeWake · ret)) _ E s
    rw [wp_bind]
    refine wp_post (pipeWake_spec hx hxs) ?_
    rintro _ _ rfl
    refine wp_post (hi hn fun q hq => ?_) fun _ t ht => ⟨?_, ?_, ?_⟩
    · obtain ⟨y, hy, hys⟩ := hl q (by simp [hq])
      have hqa : q ≠ a := fun h => ha (h ▸ hq)
      exact ⟨y, by simpa [Heap.get_set_ne hqa] using hy, hys⟩
    · obtain ⟨procs, rfl⟩ := ht.eq
      exact ⟨procs, rfl⟩
    · intro q hq
      obtain rfl | hq := List.mem_cons.mp hq
      · simp [State.returned, ht.other q ha, Heap.get_set_self hx]
      · exact ht.woken q hq
    · intro q hq
      simp only [List.mem_cons, not_or] at hq
      rw [ht.other q hq.2]
      exact Heap.get_set_ne hq.1

-- The last reference to one end of a pipe is dropped: everybody at the other end is woken up.
structure PipeClosed (s : State) (h : Hid) (v : Handle) (t : State) : Prop where
  tables : t.tables = s.tables
  handle : t.handles.get h = some { v with queued := [], sister := none }
  woken  : ∀ q ∈ v.queued, t.returned q = some (-1)
  other  : ∀ q, q ∉ v.queued → t.procs.get q = s.procs.get q

theorem pipeInvalidateEnd_spec (hv : s.handles.get h = some v) (hn : v.queued.Nodup)
    (hw : ∀ q ∈ v.queued, ∃ x, s.procs.get q = some x ∧ x.state = .waits4pipe) :
    wp (pipeInvalidateEnd h) (fun _ t => ∃ t', Woken s v.queued (-1) t' ∧
      t = { t' with handles := s.handles.set h { v with queued := [] } }) E s := by
  simp only [pipeInvalidateEnd, wp_bind, wp_getHandle, hv, Option.elim_some]
  refine wp_post (wakeAll_spec hn hw) fun _ t ht => ?_
  obtain ⟨procs, rfl⟩ := ht.eq
  rw [wp_updHandle]
  simp only [hv, Option.elim_some]
  exact ⟨_, ht, rfl⟩

theorem handleClose_pipe (hv : s.handles.get h = some v) (hn : v.queued.Nodup)
    (hw : ∀ q ∈ v.queued, ∃ x, s.procs.get q = some x ∧ x.state = .waits4pipe)
    (hg : s.handles.get g = some w) (hne : g ≠ h) (hst : g ≠ nullfs) (ht : w.type = .pipe)
    (hb : w.backend = none) (hs : w.sister = some h) (hq : w.queued = []) (hr : w.refcount = 1) :
    wp (handleClose env finish g) (fun _ => PipeClosed s h v) E s := by
  obtain ⟨w', hw'⟩ : ∃ w', w' = { w with refcount := w.refcount - 1 } := ⟨_, rfl⟩
  have hv' : (s.handles.set g w').get h = some v := by
    rw [Heap.get_set_ne hne.symm, hv]
  simp only [handleClose, wp_bind, wp_getHandle, hg, Option.elim_some, wp_kassert, wp_setHandle, ← hw']
  simp only [hr, zero_lt_one, true_implies, not_true_eq_false, false_implies, and_true, Nat.sub_self,
    if_true, handleCloseType, ht, hq, hs, hb, vfsreqRefdown, wp_bind, wp_kassert]
  refine wp_post (pipeInvalidateEnd_spec (s := { s with handles := s.handles.set g w' }) hv' hn hw) ?_
  rintro _ _ ⟨t, hwoken, rfl⟩
  obtain ⟨procs, rfl⟩ := hwoken.eq
  simp only [wp_updHandle, Heap.get_set_self hv', Option.elim_some, Heap.set_set]
  rw [wp_bind, wp_pure, wp_freeHandle hst ((Heap.get_set_ne hne).trans (Heap.get_set_self hg))]
  refine ⟨rfl, ?_, hwoken.woken, hwoken.other⟩
  show Heap.get (Heap.free _ _) _ = _
  rw [Heap.get_free_ne hne.symm, Heap.get_set_self hv']

-- Reading from or writing to a pipe whose other end is still there, where nobody waits.
structure PipeJoined (s : State) (p : Pid) (h : Hid) (v : Handle) (t : State) : Prop where
  handles : t.handles = s.handles.set h { v with queued := v.queued ++ [p] }
  waits   : ∃ x, t.procs.get p = some x ∧ x.state = .waits4pipe
  other   : ∀ q, q ≠ p → t.procs.get q = s.procs.get q

theorem pipeCheckQueue_spec (hw : ∀ q ∈ l, ∃ x, s.procs.get q = some x ∧ x.state = .waits4pipe) :
    wp (pipeCheckQueue l) (fun _ t => t = s) E s := by
  induction l
  case nil => exact wp_pure.mpr rfl
  case cons a l hi =>
    obtain ⟨x, hx, hxs⟩ := hw a (by simp)
    show wp ((getProc a >>= fun x => kassert (x.state = .waits4pipe) .pipeQueue) >>= fun _ =>
      pipeCheckQueue l) _ E s
    simpa [hx, hxs] using hi fun q hq => hw q (by simp [hq])

theorem pipeTrytransfer_alone (hv : s.handles.get h = some v) (ht : v.type = .pipe)
    (ha : v.readable ≠ v.writeable) (hs : v.sister = some g) (hg : s.handles.get g = some w)
    (hq : w.queued = []) : wp (pipeTrytransfer env h) (fun _ t => t = s) E s := by
  simp only [pipeTrytransfer, wp_bind, wp_getHandle, hv, Option.elim_some, wp_kassert, ht, ha, ne_eq,
    not_false_eq_true, true_implies, not_true_eq_false, false_implies, and_true, hs, hg]
  by_cases hr : v.readable
  case pos => simp [pipeEnds, hr, hq]
  case neg => simp [pipeEnds, hr, hq]

theorem pipeJoinqueue_alone {len : ℕ} (hr : PipeRace s p hid h g u v w) :
    wp (pipeJoinqueue env h p len) (fun _ => PipeJoined s p h v) E s := by
  obtain ⟨v', hv'⟩ : ∃ v', v' = { v with queued := v.queued ++ [p] } := ⟨_, rfl⟩
  have hjoin : (s.handles.set h v').get h = some v' := Heap.get_set_self hr.handle
  have hsister : (s.handles.set h v').get g = some w := by
    rw [Heap.get_set_ne hr.ne, hr.handle']
  simp only [pipeJoinqueue, wp_bind, wp_getHandle, hr.handle, Option.elim_some, wp_kassert, ← hv']
  simp only [hr.type, hr.access, ne_eq, not_false_eq_true, true_implies, not_true_eq_false,
    false_implies, and_true, hr.sister, wp_bind]
  refine wp_post (pipeCheckQueue_spec hr.waits) ?_
  rintro _ _ rfl
  rw [wp_bind]
  refine wp_post (procSetstate_waits4pipe hr.proc hr.running) ?_
  rintro _ _ rfl
  simp only [wp_bind, wp_setHandle, wp_get, wp_updProc, Heap.get_set_self hr.proc, Option.elim_some,
    wp_emit, Heap.set_set]
  subst hv'
  refine wp_post (pipeTrytransfer_alone hjoin hr.type hr.access hr.sister hsister hr.queued') ?_
  rintro _ _ rfl
  exact ⟨rfl, ⟨_, Heap.get_set_self hr.proc, rfl⟩, fun q hq => Heap.get_set_ne hq⟩

-- The process finds its end of the pipe, in whatever state this end is.
theorem pipeCall_spec {hid : Int} {buf len : ℕ} {offset : Int} {flags : Flags} {t : Tid} {table : Table}
    {i : Fin HANDLE_MAX} {Q : Unit → State → Prop} (hu : s.procs.get p = some u)
    (ht : u.handles = some t) (htable : s.tables.get t = some table) (hi : slotOf hid = some i)
    (hhid : hid ≠ HANDLE_NULLFS) (hslot : table i = some h) (hv : s.handles.get h = some v)
    (htype : v.type = .pipe) (ha : v.readable ≠ v.writeable) (hf : ¬flags.has (~~~WRITE_TRUNCATE))
    (hq : wp (pipeJoinqueue env h p len) Q E s) :
    wp (syscall env p (pipeCall v.readable hid buf len offset flags)) Q E s := by
  by_cases hr : v.readable
  case pos =>
    simpa [pipeCall, hr, syscall, sysRead, simpleVfsop, procHandleGet, procTable, hhid, hi, hu, ht,
      htable, hslot, simpleVfsopHandle, hv, htype] using hq
  case neg =>
    have hw : v.writeable = true := by simpa [hr] using ha
    simpa [pipeCall, hr, syscall, sysWrite, simpleVfsop, procHandleGet, procTable, hhid, hi, hu, ht,
      htable, hslot, simpleVfsopHandle, hv, htype, hw, hf] using hq

theorem pipeJoinqueue_closed {len : ℕ} (hu : s.procs.get p = some u) (hus : u.state = .running)
    (hv : s.handles.get h = some v) (ht : v.type = .pipe) (ha : v.readable ≠ v.writeable)
    (hs : v.sister = none) :
    wp (pipeJoinqueue env h p len) (fun _ t => t.returned p = some (endOfPipe v.readable)) E s := by
  simp only [pipeJoinqueue, wp_bind, wp_getHandle, hv, Option.elim_some, wp_kassert, ht, ha, ne_eq,
    not_false_eq_true, true_implies, not_true_eq_false, false_implies, and_true, hs, regsSavereturn,
    wp_updProc, hu]
  simp [State.returned, Heap.get_set_self hu, hus, endOfPipe]

-- Whoever waits when the other end is closed is told -1, a reader and a writer alike.
theorem useThenClose_returned {hid : Int} {buf len : ℕ} {offset : Int}
    {flags : Flags} (hr : PipeRace s p hid h g u v w) (hf : ¬flags.has (~~~WRITE_TRUNCATE)) :
    wp (useThenClose env p (pipeCall v.readable hid buf len offset flags) g)
      (fun _ t => t.returned p = some (-1)) E s := by
  have ⟨_, _, _, ht, htable, hi, hslot⟩ := hr.slot
  simp only [useThenClose, wp_bind]
  refine pipeCall_spec hr.proc ht htable hi hr.hid hslot hr.handle hr.type hr.access hf ?_
  refine wp_post (pipeJoinqueue_alone hr) fun _ t hj => ?_
  have hp : p ∉ v.queued := fun hp => by
    obtain ⟨x, hx, hxs⟩ := hr.waits p hp
    rw [hr.proc] at hx
    cases hx
    rw [hr.running] at hxs
    contradiction
  have hv' : t.handles.get h = some { v with queued := v.queued ++ [p] } := by
    rw [hj.handles, Heap.get_set_self hr.handle]
  have hg' : t.handles.get g = some w := by
    rw [hj.handles, Heap.get_set_ne hr.ne, hr.handle']
  have hn : (v.queued ++ [p]).Nodup := by
    refine List.nodup_append.mpr ⟨hr.queued, List.nodup_singleton p, fun a ha b hb h => hp ?_⟩
    rwa [← List.mem_singleton.mp hb, ← h]
  have hw (q : Pid) (hq : q ∈ v.queued ++ [p]) :
      ∃ x, t.procs.get q = some x ∧ x.state = .waits4pipe := by
    by_cases hqp : q = p
    case pos => exact hqp ▸ hj.waits
    case neg =>
      obtain ⟨x, hx, hxs⟩ := hr.waits q (by simpa [hqp] using hq)
      exact ⟨x, (hj.other q hqp).trans hx, hxs⟩
  refine wp_post (handleClose_pipe hv' hn hw hg' hr.ne hr.static hr.type' hr.backend' hr.sister'
    hr.queued' hr.last) fun _ t' hc => hc.woken p (by simp)

theorem closeThenUse_returned {hid : Int} {buf len : ℕ} {offset : Int}
    {flags : Flags} (hr : PipeRace s p hid h g u v w) (hf : ¬flags.has (~~~WRITE_TRUNCATE)) :
    wp (closeThenUse env p (pipeCall v.readable hid buf len offset flags) g)
      (fun _ t => t.returned p = some (endOfPipe v.readable)) E s := by
  have ⟨_, _, _, ht, htable, hi, hslot⟩ := hr.slot
  have hp : p ∉ v.queued := fun hp => by
    obtain ⟨x, hx, hxs⟩ := hr.waits p hp
    rw [hr.proc] at hx
    cases hx
    rw [hr.running] at hxs
    contradiction
  simp only [closeThenUse, wp_bind]
  refine wp_post (handleClose_pipe hr.handle hr.queued hr.waits hr.handle' hr.ne hr.static hr.type'
    hr.backend' hr.sister' hr.queued' hr.last) fun _ t hc => ?_
  have hu : t.procs.get p = some u := (hc.other p hp).trans hr.proc
  have htable' := hc.tables ▸ htable
  exact pipeCall_spec (v := { v with queued := [], sister := none }) hu ht htable' hi hr.hid hslot
    hc.handle hr.type hr.access hf <|
    pipeJoinqueue_closed (v := { v with queued := [], sister := none }) hu hr.running hc.handle
      hr.type hr.access rfl

-- The order always matters.
theorem endOfPipe_disagrees {hid : Int} {buf len : ℕ} {offset : Int} {flags : Flags}
    (hr : PipeRace s p hid h g u v w) (hf : ¬flags.has (~~~WRITE_TRUNCATE)) :
    ¬EndOfPipeAgrees env s p (pipeCall v.readable hid buf len offset flags) g v.readable := by
  rintro ⟨⟨t, hok, hret⟩, _⟩
  have hwait := wp_of_ok hok (useThenClose_returned (E := fun _ => False) hr hf)
  rw [hwait] at hret
  cases hread : v.readable <;> simp [endOfPipe, hread, EPIPE] at hret

end Spec

-- Two processes which have one end of a pipe each.
def twoEnds : State where
  procs   := ⟨[some { handles := some 0 }, some { handles := some 1 }]⟩
  tables  := ⟨[some (Function.update (fun _ => none) ⟨1, by decide⟩ (some 1)),
    some (Function.update (fun _ => none) ⟨2, by decide⟩ (some 2))]⟩
  handles := ⟨[some { type := .fsFront, refcount := 2 },
    some { type := .pipe, readable := true, sister := some 2 },
    some { type := .pipe, writeable := true, sister := some 1 }]⟩

theorem twoEnds_race : PipeRace twoEnds 0 1 1 2 { handles := some 0 }
    { type := .pipe, readable := true, sister := some 2 }
    { type := .pipe, writeable := true, sister := some 1 } where
  proc     := rfl
  running  := rfl
  slot     := ⟨0, _, ⟨1, by decide⟩, rfl, rfl, by decide, rfl⟩
  hid      := by decide
  handle   := rfl
  type     := rfl
  access   := by decide
  sister   := rfl
  queued   := List.nodup_nil
  waits    := by simp
  handle'  := rfl
  ne       := by decide
  static   := by decide
  type'    := rfl
  backend' := rfl
  sister'  := rfl
  queued'  := rfl
  last     := rfl

theorem endOfPipe_disagrees_twoEnds :
    ¬EndOfPipeAgrees quietEnv twoEnds 0 (.read 1 0 5 0) 2 true :=
  endOfPipe_disagrees twoEnds_race (show ¬Flags.has 0 (~~~WRITE_TRUNCATE) by decide)

-- The reader is told -1 if it came first, and 0 otherwise.
theorem twoEnds_returned :
    (∃ t, useThenClose quietEnv 0 (.read 1 0 5 0) 2 twoEnds = .ok ((), t) ∧
      t.returned 0 = some (-1)) ∧
    (∃ t, closeThenUse quietEnv 0 (.read 1 0 5 0) 2 twoEnds = .ok ((), t) ∧
      t.returned 0 = some 0) ∧
    ¬EndOfPipeAgrees quietEnv twoEnds 0 (.read 1 0 5 0) 2 true := by
  refine ⟨⟨_, rfl, by decide⟩, ⟨_, rfl, by decide⟩, ?_⟩
  rintro ⟨⟨t, hok, hret⟩, _⟩
  cases hok
  exact absurd hret (by decide)

end Camellia
