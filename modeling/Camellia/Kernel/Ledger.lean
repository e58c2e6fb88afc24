import Camellia.Kernel.Request
import Camellia.Kernel.Update
import Mathlib.Algebra.BigOperators.Fin
import Mathlib.Algebra.Group.Pi.Basic

namespace Camellia

-- What the kernel keeps track of twice: in a counter, a flag or the state of a process on the one
-- hand, and in the pointers which explain it on the other hand.
inductive Ref
  -- The counter of a handle, and the slots which hold it.
  | handle (h : Hid)
  -- The counter of a backend, and the mounts, handles and requests which use it.
  | use (b : Bid)
  -- The counter of a backend, and the processes which provide it.
  | prov (b : Bid)
  -- The counter of a mount, and the processes and mounts which use it.
  | mount (m : Mid)
  -- A request which is in flight, and the place where it is.
  | place (r : Rid)
  -- A buffer, and what owns it.
  | buf (n : ℕ)
  -- A process which waits for its request, and the request.
  | caller (p : Pid) (r : Rid)
  -- A process which has a slot for requests, and what it was used for last.
  | slot (p : Pid) (r : Rid)
  -- A process which waits for requests, and the backend it is the handler of.
  | handler (p : Pid) (b : Bid)
  -- A process which waits for a pipe, and its place in the queue.
  | pipe (p : Pid) (h : Hid)
  -- A process which sleeps, and its place in the list of such processes.
  | timer (p : Pid)
  -- How often a request was created and how often it was finished.
  | life (r : Rid)
  deriving DecidableEq

abbrev Balance := Ref → ℤ

def one (x : Ref) : Balance :=
  Pi.single x 1

-- One reference to what a pointer points to, unless it is NULL.
def optRef (f : ℕ → Ref) (o : Option ℕ) : Balance :=
  o.elim 0 fun i => one (f i)

def VfsInput.buf : VfsInput → Option ℕ
  | .kern buf => some buf
  | .user _ _ => none

def Access.handler : Access → Option Pid
  | .user handler => handler
  | .kern _       => none

-- What the state of a process says about where it waits.
def Proc.waits (p : Pid) (v : Proc) : Balance :=
  match v.state with
  | .waits4fs      => optRef (.caller p) v.reqslot
  | .waits4request => optRef (.handler p) v.controlled
  | .waits4pipe    => one (.pipe p v.waitsPipe)
  | .waits4timer   => one (.timer p)
  | _              => 0

def Proc.weight (p : Pid) (v : Proc) : Balance :=
  v.waits p + (if v.state.active then optRef (.slot p) v.reqslot else 0) -
    optRef .mount v.mount - optRef .prov v.controlled

def Handle.weight (h : Hid) (v : Handle) : Balance :=
  v.refcount • one (.handle h) - optRef .use v.backend - optRef .place v.req -
    (v.queued.map fun p => one (.pipe p h)).sum

def Table.weight (table : Table) : Balance :=
  -((List.finRange HANDLE_MAX).map fun i => optRef .handle (table i)).sum

def VfsBackend.weight (b : Bid) (v : VfsBackend) : Balance :=
  v.usehcnt • one (.use b) + (if v.isUser then v.provhcnt • one (.prov b) else 0) -
    (v.queue.map fun r => one (.place r)).sum - optRef (.handler · b) v.access.handler

def VfsMount.weight (m : Mid) (v : VfsMount) : Balance :=
  v.refs • one (.mount m) - optRef .mount v.prev - optRef .use v.backend - optRef .buf v.owned

def VfsReq.weight (r : Rid) (v : VfsReq) : Balance :=
  (if v.pending then
    one (.place r) - one (.life r) - optRef .use v.backend - optRef .buf v.input.buf -
      optRef (.caller · r) v.caller
  else 0) - optRef (.slot · r) v.caller

def Event.weight : Event → Balance
  | .created r _ => one (.life r)
  | .finished r  => -one (.life r)
  | _            => 0

-- Every counter minus what it counts. At rest this is zero, except for the two references which keep
-- the static handle alive; in the middle of an operation it is what the operation has in its hands.
def State.balance (s : State) : Balance :=
  s.procs.total Proc.weight + s.handles.total Handle.weight + s.tables.total (fun _ => Table.weight) +
    s.backends.total VfsBackend.weight + s.mounts.total VfsMount.weight +
    s.reqs.total VfsReq.weight + s.bufs.total (fun n _ => one (.buf n)) -
    (s.scheduled.map fun p => one (.timer p)).sum - (s.held.map fun r => one (.place r)).sum +
    (s.log.map Event.weight).sum

section Balance

variable {s : State} {i : ℕ}

@[simp]
theorem optRef_none {f : ℕ → Ref} : optRef f none = 0 :=
  rfl

@[simp]
theorem optRef_some {f : ℕ → Ref} : optRef f (some i) = one (f i) :=
  rfl

-- A component contributes to the balance on its own.

theorem balance_withProcs {h : Heap Proc} :
    (s.withProcs h).balance = s.balance + (h.total Proc.weight - s.procs.total Proc.weight) := by
  simp only [State.balance, State.withProcs]
  abel

theorem balance_withBackends {h : Heap VfsBackend} :
    (s.withBackends h).balance = s.balance + (h.total VfsBackend.weight - s.backends.total VfsBackend.weight) := by
  simp only [State.balance, State.withBackends]
  abel

theorem balance_withReqs {h : Heap VfsReq} :
    (s.withReqs h).balance = s.balance + (h.total VfsReq.weight - s.reqs.total VfsReq.weight) := by
  simp only [State.balance, State.withReqs]
  abel

theorem balance_withBufs {h : Heap (List UInt8)} :
    (s.withBufs h).balance = s.balance + (h.total (fun n _ => one (.buf n)) - s.bufs.total (fun n _ => one (.buf n))) := by
  simp only [State.balance, State.withBufs]
  abel

theorem balance_setProc {v w : Proc} (h : s.procs.get i = some v) :
    (s.withProcs (s.procs.set i w)).balance = s.balance + (w.weight i - v.weight i) := by
  rw [balance_withProcs, Heap.total_set h]
  abel

theorem balance_setBackend {v w : VfsBackend} (h : s.backends.get i = some v) :
    (s.withBackends (s.backends.set i w)).balance = s.balance + (w.weight i - v.weight i) := by
  rw [balance_withBackends, Heap.total_set h]
  abel

theorem balance_freeBackend {v : VfsBackend} (h : s.backends.get i = some v) :
    (s.withBackends (s.backends.free i)).balance = s.balance - v.weight i := by
  rw [balance_withBackends, Heap.total_free h]
  abel

theorem balance_setReq {v w : VfsReq} (h : s.reqs.get i = some v) :
    (s.withReqs (s.reqs.set i w)).balance = s.balance + (w.weight i - v.weight i) := by
  rw [balance_withReqs, Heap.total_set h]
  abel

theorem balance_freeReq {v : VfsReq} (h : s.reqs.get i = some v) :
    (s.withReqs (s.reqs.free i)).balance = s.balance - v.weight i := by
  rw [balance_withReqs, Heap.total_free h]
  abel

theorem balance_allocProc {v : Proc} :
    (s.withProcs (s.procs.alloc v)).balance = s.balance + v.weight s.procs.size := by
  rw [balance_withProcs, Heap.total_alloc]
  abel

theorem balance_freeProc {v : Proc} (h : s.procs.get i = some v) :
    (s.withProcs (s.procs.free i)).balance = s.balance - v.weight i := by
  rw [balance_withProcs, Heap.total_free h]
  abel

theorem balance_withHandles {h : Heap Handle} :
    (s.withHandles h).balance = s.balance + (h.total Handle.weight - s.handles.total Handle.weight) := by
  simp only [State.balance, State.withHandles]
  abel

theorem balance_setHandle {v w : Handle} (h : s.handles.get i = some v) :
    (s.withHandles (s.handles.set i w)).balance = s.balance + (w.weight i - v.weight i) := by
  rw [balance_withHandles, Heap.total_set h]
  abel

theorem balance_allocHandle {v : Handle} :
    (s.withHandles (s.handles.alloc v)).balance = s.balance + v.weight s.handles.size := by
  rw [balance_withHandles, Heap.total_alloc]
  abel

theorem balance_freeHandle {v : Handle} (h : s.handles.get i = some v) :
    (s.withHandles (s.handles.free i)).balance = s.balance - v.weight i := by
  rw [balance_withHandles, Heap.total_free h]
  abel

theorem balance_withTables {h : Heap Table} :
    (s.withTables h).balance = s.balance +
      (h.total (fun _ => Table.weight) - s.tables.total fun _ => Table.weight) := by
  simp only [State.balance, State.withTables]
  abel

theorem balance_allocBackend {v : VfsBackend} :
    (s.withBackends (s.backends.alloc v)).balance = s.balance + v.weight s.backends.size := by
  rw [balance_withBackends, Heap.total_alloc]
  abel

theorem balance_withMounts {h : Heap VfsMount} :
    (s.withMounts h).balance = s.balance + (h.total VfsMount.weight - s.mounts.total VfsMount.weight) := by
  simp only [State.balance, State.withMounts]
  abel

theorem balance_setMount {v w : VfsMount} (h : s.mounts.get i = some v) :
    (s.withMounts (s.mounts.set i w)).balance = s.balance + (w.weight i - v.weight i) := by
  rw [balance_withMounts, Heap.total_set h]
  abel

theorem balance_allocMount {v : VfsMount} :
    (s.withMounts (s.mounts.alloc v)).balance = s.balance + v.weight s.mounts.size := by
  rw [balance_withMounts, Heap.total_alloc]
  abel

theorem balance_freeMount {v : VfsMount} (h : s.mounts.get i = some v) :
    (s.withMounts (s.mounts.free i)).balance = s.balance - v.weight i := by
  rw [balance_withMounts, Heap.total_free h]
  abel

theorem balance_allocReq {v : VfsReq} :
    (s.withReqs (s.reqs.alloc v)).balance = s.balance + v.weight s.reqs.size := by
  rw [balance_withReqs, Heap.total_alloc]
  abel

theorem balance_allocBuf {path : List UInt8} :
    (s.withBufs (s.bufs.alloc path)).balance = s.balance + one (.buf s.bufs.size) := by
  rw [balance_withBufs, Heap.total_alloc]
  abel

theorem balance_freeBuf {path : List UInt8} (h : s.bufs.get i = some path) :
    (s.withBufs (s.bufs.free i)).balance = s.balance - one (.buf i) := by
  rw [balance_withBufs, Heap.total_free h]
  abel

theorem balance_withScheduled {l : List Pid} :
    (s.withScheduled l).balance = s.balance +
      ((s.scheduled.map fun p => one (.timer p)).sum - (l.map fun p => one (.timer p)).sum) := by
  simp only [State.balance, State.withScheduled]
  abel

theorem balance_withHeld {l : List Rid} :
    (s.withHeld l).balance = s.balance +
      ((s.held.map fun r => one (.place r)).sum - (l.map fun r => one (.place r)).sum) := by
  simp only [State.balance, State.withHeld]
  abel

-- What is put into a slot replaces what was there.
theorem Table.weight_update {v : Table} {j : Fin HANDLE_MAX} {o : Option Hid} :
    Table.weight (Function.update v j o) = v.weight + (optRef .handle (v j) - optRef .handle o) := by
  have hsum (f : Fin HANDLE_MAX → Balance) : ((List.finRange HANDLE_MAX).map f).sum = ∑ i, f i :=
    (Fin.sum_univ_def f).symm
  have hupd : (fun i => optRef .handle (Function.update v j o i)) =
      Function.update (fun i => optRef .handle (v i)) j (optRef .handle o) := by
    funext i
    by_cases hi : i = j
    case pos => rw [hi, Function.update_self, Function.update_self]
    case neg => rw [Function.update_of_ne hi, Function.update_of_ne hi]
  rw [Table.weight, Table.weight, hsum, hsum, hupd, Finset.sum_update_of_mem (Finset.mem_univ j),
    ← Finset.add_sum_erase _ _ (Finset.mem_univ j), Finset.sdiff_singleton_eq_erase]
  abel

theorem balance_setSlot {v : Table} {j : Fin HANDLE_MAX} {o : Option Hid} (h : s.tables.get i = some v) :
    (s.withTables (s.tables.set i (Function.update v j o))).balance =
      s.balance + (optRef .handle (v j) - optRef .handle o) := by
  rw [balance_withTables, Heap.total_set h, Table.weight_update]
  abel

@[simp]
theorem balance_withCounts {h : Heap ℕ} : (s.withCounts h).balance = s.balance :=
  rfl

@[simp]
theorem balance_withPagedirs {h : Heap Unit} : (s.withPagedirs h).balance = s.balance :=
  rfl

@[simp]
theorem balance_withNextPid {n : ℕ} : (s.withNextPid n).balance = s.balance :=
  rfl

@[simp]
theorem balance_withDeadLeaves {l : List Pid} : (s.withDeadLeaves l).balance = s.balance :=
  rfl

theorem balance_emit {e : Event} :
    (s.withLog (s.log ++ [e])).balance = s.balance + e.weight := by
  simp only [State.balance, State.withLog, List.map_append, List.map_cons, List.map_nil,
    List.sum_append, List.sum_singleton]
  abel

end Balance

section Apply
variable {s : State} {x y : Ref} {f : ℕ → Ref} {o : Option ℕ} {p : Pid} {h b m r n : ℕ}

theorem sum_map_apply {α : Type} {l : List α} {g : α → Balance} :
    (l.map g).sum x = (l.map (g · x)).sum := by
  induction l
  case nil => rfl
  case cons a l hi => simp [hi]

theorem total_apply {α : Type} {h : Heap α} {w : ℕ → α → Balance} :
    h.total w x = h.total fun i a => w i a x := by
  simp only [Heap.total, sum_map_apply]
  congr 1
  refine List.map_congr_left fun c _ => ?_
  obtain ⟨_ | a, i⟩ := c <;> rfl

theorem one_apply : one x y = if y = x then 1 else 0 := by
  simp [one, Pi.single_apply]

open Classical in
theorem optRef_apply : optRef f o x = if ∃ i, o = some i ∧ x = f i then 1 else 0 := by
  cases o <;> simp [one_apply]

theorem sum_one_self {l : List ℕ} (hf : Function.Injective f) :
    (l.map fun a => one (f a)).sum (f n) = (l.count n : ℕ) := by
  induction l
  case nil => simp
  case cons a l hi =>
    rw [List.map_cons, List.sum_cons, Pi.add_apply, hi, one_apply, List.count_cons]
    by_cases h : n = a
    case pos => simp [h, add_comm]
    case neg => simp [hf.ne h, Ne.symm h]

theorem sum_one_ne {l : List ℕ} (hf : ∀ a, x ≠ f a) : (l.map fun a => one (f a)).sum x = 0 := by
  induction l
  case nil => rfl
  case cons a l hi => simp [hi, one_apply, hf a]

theorem Proc.weight_apply {v : Proc} : v.weight p x =
    match x with
    | .mount m     => -if v.mount = some m then 1 else 0
    | .prov b      => -if v.controlled = some b then 1 else 0
    | .caller q r  => if q = p ∧ v.state = .waits4fs ∧ v.reqslot = some r then 1 else 0
    | .slot q r    => if q = p ∧ v.state.active ∧ v.reqslot = some r then 1 else 0
    | .handler q b => if q = p ∧ v.state = .waits4request ∧ v.controlled = some b then 1 else 0
    | .pipe q h    => if q = p ∧ v.state = .waits4pipe ∧ h = v.waitsPipe then 1 else 0
    | .timer q     => if q = p ∧ v.state = .waits4timer then 1 else 0
    | _            => 0 := by
  cases hs : v.state <;> cases x <;>
    simp [Proc.weight, Proc.waits, hs, PState.active, optRef_apply, one_apply, and_comm]

theorem Handle.weight_apply {v : Handle} : v.weight h x =
    match x with
    | .handle g => if g = h then (v.refcount : ℤ) else 0
    | .use b    => -if v.backend = some b then 1 else 0
    | .place r  => -if v.req = some r then 1 else 0
    | .pipe p g => -if g = h then (v.queued.count p : ℤ) else 0
    | _         => 0 := by
  have hq : (v.queued.map fun p => one (.pipe p h)).sum x =
      match x with
      | .pipe p g => if g = h then (v.queued.count p : ℤ) else 0
      | _         => 0 := by
    cases x
    case pipe p g =>
      by_cases hg : g = h
      case pos =>
        subst hg
        simpa using sum_one_self (f := (Ref.pipe · g)) (n := p) fun _ _ h => (Ref.pipe.inj h).1
      case neg => simpa [hg] using sum_one_ne (f := (Ref.pipe · h)) fun _ h => hg (Ref.pipe.inj h).2
    all_goals exact sum_one_ne fun _ => by simp
  cases x <;> simp [Handle.weight, optRef_apply, one_apply, hq]

theorem Table.weight_apply {v : Table} : Table.weight v x =
    match x with
    | .handle h => -((List.finRange HANDLE_MAX).map fun i => if v i = some h then (1 : ℤ) else 0).sum
    | _         => 0 := by
  cases x <;> simp [Table.weight, sum_map_apply, optRef_apply]

theorem VfsBackend.weight_apply {v : VfsBackend} : v.weight b x =
    match x with
    | .use c       => if c = b then (v.usehcnt : ℤ) else 0
    | .prov c      => if v.isUser ∧ c = b then (v.provhcnt : ℤ) else 0
    | .place r     => -(v.queue.count r : ℤ)
    | .handler p c => -if c = b ∧ v.access.handler = some p then 1 else 0
    | _            => 0 := by
  have hq : (v.queue.map fun r => one (.place r)).sum x =
      match x with
      | .place r => (v.queue.count r : ℤ)
      | _        => 0 := by
    cases x
    case place r => exact sum_one_self fun _ _ h => Ref.place.inj h
    all_goals exact sum_one_ne fun _ => by simp
  cases hu : v.isUser <;> cases x <;>
    simp [VfsBackend.weight, hu, optRef_apply, one_apply, hq, and_comm]

theorem VfsMount.weight_apply {v : VfsMount} : v.weight m x =
    match x with
    | .mount n => (if n = m then (v.refs : ℤ) else 0) - if v.prev = some n then 1 else 0
    | .use b   => -if v.backend = some b then 1 else 0
    | .buf n   => -if v.owned = some n then 1 else 0
    | _        => 0 := by
  cases x <;> simp [VfsMount.weight, optRef_apply, one_apply]

theorem VfsReq.weight_apply {v : VfsReq} : v.weight r x =
    match x with
    | .place q    => if v.pending ∧ q = r then 1 else 0
    | .life q     => -if v.pending ∧ q = r then 1 else 0
    | .use b      => -if v.pending ∧ v.backend = some b then 1 else 0
    | .buf n      => -if v.pending ∧ v.input.buf = some n then 1 else 0
    | .caller p q => -if v.pending ∧ q = r ∧ v.caller = some p then 1 else 0
    | .slot p q   => -if q = r ∧ v.caller = some p then 1 else 0
    | _           => 0 := by
  cases hp : v.pending <;> cases x <;>
    simp [VfsReq.weight, hp, optRef_apply, one_apply, and_comm]

theorem balance_apply : s.balance x =
    s.procs.total (fun i v => v.weight i x) + s.handles.total (fun i v => v.weight i x) +
      s.tables.total (fun _ v => Table.weight v x) + s.backends.total (fun i v => v.weight i x) +
      s.mounts.total (fun i v => v.weight i x) + s.reqs.total (fun i v => v.weight i x) +
      s.bufs.total (fun n _ => one (.buf n) x) - (s.scheduled.map fun p => one (.timer p)).sum x -
      (s.held.map fun r => one (.place r)).sum x + (s.log.map (·.weight x)).sum := by
  simp only [State.balance, Pi.add_apply, Pi.sub_apply, total_apply, sum_map_apply]

-- A weight of the object at one address.
theorem total_at {α : Type} {h : Heap α} {i : ℕ} {f : α → ℤ} :
    h.total (fun j a => if i = j then f a else 0) = (h.get i).elim 0 f := by
  simp only [eq_comm (a := i)]
  exact Heap.total_single

theorem total_at_and {α : Type} {h : Heap α} {i : ℕ} {c : α → Prop} [DecidablePred c] :
    h.total (fun j a => if i = j ∧ c a then (1 : ℤ) else 0) =
      (h.get i).elim 0 fun a => if c a then 1 else 0 := by
  rw [← total_at]
  refine Heap.total_congr fun j a _ => ?_
  by_cases hij : i = j <;> simp [hij]

theorem scheduled_apply : (s.scheduled.map fun p => one (.timer p)).sum x =
    match x with
    | .timer p => (s.scheduled.count p : ℤ)
    | _        => 0 := by
  cases x
  case timer p => exact sum_one_self fun _ _ h => Ref.timer.inj h
  all_goals exact sum_one_ne fun _ => by simp

theorem held_apply : (s.held.map fun r => one (.place r)).sum x =
    match x with
    | .place r => (s.held.count r : ℤ)
    | _        => 0 := by
  cases x
  case place r => exact sum_one_self fun _ _ h => Ref.place.inj h
  all_goals exact sum_one_ne fun _ => by simp

-- How often a request was created in the same place.
def created (r : Rid) (l : List Event) : ℕ :=
  l.countP fun e => match e with
    | .created q _ => q = r
    | _            => false

theorem log_apply {l : List Event} : (l.map (·.weight x)).sum =
    match x with
    | .life r => (created r l : ℤ) - l.count (.finished r)
    | _       => 0 := by
  induction l
  case nil => cases x <;> rfl
  case cons e l hi =>
    rw [List.map_cons, List.sum_cons, hi]
    cases x
    case life r =>
      cases e <;>
        simp [created, Event.weight, one_apply, List.count_cons, List.countP_cons, eq_comm (a := r)]
      all_goals split_ifs <;> omega
    all_goals cases e <;> simp [Event.weight, one_apply]

theorem bufs_apply : (s.bufs.total fun n _ => one (.buf n) x) =
    match x with
    | .buf n => (s.bufs.get n).elim 0 fun _ => 1
    | _      => 0 := by
  cases x
  case buf n =>
    simp only [one_apply, Ref.buf.injEq]
    exact total_at
  all_goals simp [one_apply, Heap.total_zero]

theorem balance_handle : s.balance (.handle h) =
    ((s.handles.get h).elim 0 fun v => (v.refcount : ℤ)) -
      s.tables.total fun _ v => ((List.finRange HANDLE_MAX).map fun i =>
        if v i = some h then (1 : ℤ) else 0).sum := by
  simp only [balance_apply, Proc.weight_apply, Handle.weight_apply, Table.weight_apply,
    VfsBackend.weight_apply, VfsMount.weight_apply, VfsReq.weight_apply, scheduled_apply, held_apply,
    log_apply, bufs_apply, Heap.total_zero, Heap.total_neg, total_at]
  omega

theorem balance_use : s.balance (.use b) =
    ((s.backends.get b).elim 0 fun v => (v.usehcnt : ℤ)) -
      s.mounts.total (fun _ v => if v.backend = some b then 1 else 0) -
      s.handles.total (fun _ v => if v.backend = some b then 1 else 0) -
      s.reqs.total (fun _ w => if w.pending ∧ w.backend = some b then 1 else 0) := by
  simp only [balance_apply, Proc.weight_apply, Handle.weight_apply, Table.weight_apply,
    VfsBackend.weight_apply, VfsMount.weight_apply, VfsReq.weight_apply, scheduled_apply, held_apply,
    log_apply, bufs_apply, Heap.total_zero, Heap.total_neg, total_at]
  omega

theorem balance_prov : s.balance (.prov b) =
    ((s.backends.get b).elim 0 fun v => if v.isUser then (v.provhcnt : ℤ) else 0) -
      s.procs.total fun _ v => if v.controlled = some b then 1 else 0 := by
  have hb : (s.backends.total fun i v => if v.isUser ∧ b = i then (v.provhcnt : ℤ) else 0) =
      (s.backends.get b).elim 0 fun v => if v.isUser then (v.provhcnt : ℤ) else 0 := by
    rw [← total_at]
    refine Heap.total_congr fun i v _ => ?_
    by_cases hi : b = i <;> simp [hi]
  simp only [balance_apply, Proc.weight_apply, Handle.weight_apply, Table.weight_apply,
    VfsBackend.weight_apply, VfsMount.weight_apply, VfsReq.weight_apply, scheduled_apply, held_apply,
    log_apply, bufs_apply, Heap.total_zero, Heap.total_neg, hb]
  omega

theorem balance_mount : s.balance (.mount m) =
    ((s.mounts.get m).elim 0 fun v => (v.refs : ℤ)) -
      s.procs.total (fun _ v => if v.mount = some m then 1 else 0) -
      s.mounts.total (fun _ v => if v.prev = some m then 1 else 0) := by
  simp only [balance_apply, Proc.weight_apply, Handle.weight_apply, Table.weight_apply,
    VfsBackend.weight_apply, VfsMount.weight_apply, VfsReq.weight_apply, scheduled_apply, held_apply,
    log_apply, bufs_apply, Heap.total_zero, Heap.total_neg, Heap.total_sub, total_at]
  omega

theorem balance_place : s.balance (.place r) =
    ((s.reqs.get r).elim 0 fun w => if w.pending then 1 else 0) -
      s.handles.total (fun _ v => if v.req = some r then 1 else 0) -
      s.backends.total (fun _ v => (v.queue.count r : ℤ)) - s.held.count r := by
  simp only [balance_apply, Proc.weight_apply, Handle.weight_apply, Table.weight_apply,
    VfsBackend.weight_apply, VfsMount.weight_apply, VfsReq.weight_apply, scheduled_apply, held_apply,
    log_apply, bufs_apply, Heap.total_zero, Heap.total_neg, and_comm (b := r = _), total_at_and]
  omega

theorem balance_buf : s.balance (.buf n) =
    ((s.bufs.get n).elim 0 fun _ => 1) -
      s.reqs.total (fun _ w => if w.pending ∧ w.input.buf = some n then 1 else 0) -
      s.mounts.total (fun _ v => if v.owned = some n then 1 else 0) := by
  simp only [balance_apply, Proc.weight_apply, Handle.weight_apply, Table.weight_apply,
    VfsBackend.weight_apply, VfsMount.weight_apply, VfsReq.weight_apply, scheduled_apply, held_apply,
    log_apply, bufs_apply, Heap.total_zero, Heap.total_neg]
  omega

theorem balance_caller : s.balance (.caller p r) =
    ((s.procs.get p).elim 0 fun v => if v.state = .waits4fs ∧ v.reqslot = some r then 1 else 0) -
      (s.reqs.get r).elim 0 fun w => if w.pending ∧ w.caller = some p then 1 else 0 := by
  simp only [balance_apply, Proc.weight_apply, Handle.weight_apply, Table.weight_apply,
    VfsBackend.weight_apply, VfsMount.weight_apply, VfsReq.weight_apply, scheduled_apply, held_apply,
    log_apply, bufs_apply, Heap.total_zero, Heap.total_neg, and_left_comm (b := r = _), total_at_and]
  omega

theorem balance_slot : s.balance (.slot p r) =
    ((s.procs.get p).elim 0 fun v => if v.state.active ∧ v.reqslot = some r then 1 else 0) -
      (s.reqs.get r).elim 0 fun w => if w.caller = some p then 1 else 0 := by
  simp only [balance_apply, Proc.weight_apply, Handle.weight_apply, Table.weight_apply,
    VfsBackend.weight_apply, VfsMount.weight_apply, VfsReq.weight_apply, scheduled_apply, held_apply,
    log_apply, bufs_apply, Heap.total_zero, Heap.total_neg, total_at_and]
  omega

theorem balance_handler : s.balance (.handler p b) =
    ((s.procs.get p).elim 0 fun v =>
      if v.state = .waits4request ∧ v.controlled = some b then 1 else 0) -
      (s.backends.get b).elim 0 fun v => if v.access.handler = some p then 1 else 0 := by
  simp only [balance_apply, Proc.weight_apply, Handle.weight_apply, Table.weight_apply,
    VfsBackend.weight_apply, VfsMount.weight_apply, VfsReq.weight_apply, scheduled_apply, held_apply,
    log_apply, bufs_apply, Heap.total_zero, Heap.total_neg, total_at_and]
  omega

theorem balance_pipe : s.balance (.pipe p h) =
    ((s.procs.get p).elim 0 fun v => if v.state = .waits4pipe ∧ h = v.waitsPipe then 1 else 0) -
      (s.handles.get h).elim 0 fun v => (v.queued.count p : ℤ) := by
  simp only [balance_apply, Proc.weight_apply, Handle.weight_apply, Table.weight_apply,
    VfsBackend.weight_apply, VfsMount.weight_apply, VfsReq.weight_apply, scheduled_apply, held_apply,
    log_apply, bufs_apply, Heap.total_zero, Heap.total_neg, total_at, total_at_and]
  omega

theorem balance_timer : s.balance (.timer p) =
    ((s.procs.get p).elim 0 fun v => if v.state = .waits4timer then 1 else 0) -
      s.scheduled.count p := by
  simp only [balance_apply, Proc.weight_apply, Handle.weight_apply, Table.weight_apply,
    VfsBackend.weight_apply, VfsMount.weight_apply, VfsReq.weight_apply, scheduled_apply, held_apply,
    log_apply, bufs_apply, Heap.total_zero, total_at_and]
  omega

theorem balance_life : s.balance (.life r) =
    (created r s.log : ℤ) - s.log.count (.finished r) -
      (s.reqs.get r).elim 0 fun w => if w.pending then 1 else 0 := by
  simp only [balance_apply, Proc.weight_apply, Handle.weight_apply, Table.weight_apply,
    VfsBackend.weight_apply, VfsMount.weight_apply, VfsReq.weight_apply, scheduled_apply, held_apply,
    log_apply, bufs_apply, Heap.total_zero, Heap.total_neg, and_comm (b := r = _), total_at_and]
  omega

end Apply
end Camellia
