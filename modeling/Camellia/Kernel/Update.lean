import Camellia.Kernel.Proc

namespace Camellia

-- The updates of a single component of the state.
namespace State

@[simps]
def withProcs (s : State) (h : Heap Proc) : State := { s with procs := h }

@[simps]
def withHandles (s : State) (h : Heap Handle) : State := { s with handles := h }

@[simps]
def withTables (s : State) (h : Heap Table) : State := { s with tables := h }

@[simps]
def withCounts (s : State) (h : Heap ℕ) : State := { s with counts := h }

@[simps]
def withPagedirs (s : State) (h : Heap Unit) : State := { s with pagedirs := h }

@[simps]
def withBackends (s : State) (h : Heap VfsBackend) : State := { s with backends := h }

@[simps]
def withMounts (s : State) (h : Heap VfsMount) : State := { s with mounts := h }

@[simps]
def withReqs (s : State) (h : Heap VfsReq) : State := { s with reqs := h }

@[simps]
def withBufs (s : State) (h : Heap (List UInt8)) : State := { s with bufs := h }

@[simps]
def withNextPid (s : State) (n : ℕ) : State := { s with nextPid := n }

@[simps]
def withDeadLeaves (s : State) (l : List Pid) : State := { s with deadLeaves := l }

@[simps]
def withScheduled (s : State) (l : List Pid) : State := { s with scheduled := l }

@[simps]
def withHeld (s : State) (l : List Rid) : State := { s with held := l }

@[simps]
def withLog (s : State) (l : List Event) : State := { s with log := l }

end State

-- What is left to show after a use of an object, if an execution which fails is of no interest.

section Get

variable {Q : α → State → Prop} {s : State} {i : ℕ}

@[simp]
theorem wlp_kassert {R : Unit → State → Prop} {c : Prop} [Decidable c] {site : Site} :
    wlp (kassert c site) R s ↔ (c → R () s) := by
  by_cases h : c <;> simp [kassert, h]

@[simp]
theorem wlp_nonNull {o : Option α} : wlp (nonNull o) Q s ↔ ∀ a, o = some a → Q a s := by
  cases o <;> simp [nonNull]

theorem wlp_deref {heap : State → Heap α} {obj : Obj} :
    wlp (deref heap obj i) Q s ↔ ∀ a, (heap s).get i = some a → Q a s := by
  simp only [deref, wlp_bind, wlp_get]
  cases (heap s).get i <;> simp

@[simp]
theorem wlp_getProc {Q : Proc → State → Prop} :
    wlp (getProc i) Q s ↔ ∀ v, s.procs.get i = some v → Q v s :=
  wlp_deref

@[simp]
theorem wlp_getHandle {Q : Handle → State → Prop} :
    wlp (getHandle i) Q s ↔ ∀ v, s.handles.get i = some v → Q v s :=
  wlp_deref

@[simp]
theorem wlp_getBackend {Q : VfsBackend → State → Prop} :
    wlp (getBackend i) Q s ↔ ∀ v, s.backends.get i = some v → Q v s :=
  wlp_deref

@[simp]
theorem wlp_getMount {Q : VfsMount → State → Prop} :
    wlp (getMount i) Q s ↔ ∀ v, s.mounts.get i = some v → Q v s :=
  wlp_deref

@[simp]
theorem wlp_getReq {Q : VfsReq → State → Prop} :
    wlp (getReq i) Q s ↔ ∀ v, s.reqs.get i = some v → Q v s :=
  wlp_deref

@[simp]
theorem wlp_getBuf {Q : List UInt8 → State → Prop} :
    wlp (getBuf i) Q s ↔ ∀ v, s.bufs.get i = some v → Q v s :=
  wlp_deref

@[simp]
theorem wlp_getTable {Q : Table → State → Prop} :
    wlp (getTable i) Q s ↔ ∀ v, s.tables.get i = some v → Q v s :=
  wlp_deref

@[simp]
theorem wlp_getCount {Q : ℕ → State → Prop} :
    wlp (getCount i) Q s ↔ ∀ v, s.counts.get i = some v → Q v s :=
  wlp_deref

end Get

-- Accesses do not change anything, so every preorder is respected by them.
section Respects

variable {R : State → State → Prop} [IsPreorder State R] {i : ℕ}

@[grind ←]
theorem kassert_respects {c : Prop} [Decidable c] {site : Site} : Respects R (kassert c site) :=
  .ite respects_pure respects_throw

@[grind ←]
theorem nonNull_respects {o : Option α} : Respects R (nonNull o) := by
  cases o
  case none   => exact respects_throw
  case some a => exact respects_pure

@[grind ←]
theorem deref_respects {heap : State → Heap α} {obj : Obj} : Respects R (deref heap obj i) := by
  intro s
  rw [wlp_deref]
  exact fun _ _ => refl_of R s

@[grind ←]
theorem getProc_respects : Respects R (getProc i) :=
  deref_respects

@[grind ←]
theorem getHandle_respects : Respects R (getHandle i) :=
  deref_respects

@[grind ←]
theorem getBackend_respects : Respects R (getBackend i) :=
  deref_respects

@[grind ←]
theorem getMount_respects : Respects R (getMount i) :=
  deref_respects

@[grind ←]
theorem getReq_respects : Respects R (getReq i) :=
  deref_respects

@[grind ←]
theorem getBuf_respects : Respects R (getBuf i) :=
  deref_respects

@[grind ←]
theorem getTable_respects : Respects R (getTable i) :=
  deref_respects

@[grind ←]
theorem getCount_respects : Respects R (getCount i) :=
  deref_respects

end Respects

section Set

variable {R : Unit → State → Prop} {s : State} {i : ℕ}

@[simp]
theorem wlp_emit {e : Event} : wlp (emit e) R s ↔ R () (s.withLog (s.log ++ [e])) := by
  simp [emit, State.withLog]

@[simp]
theorem wlp_setProc {v : Proc} : wlp (setProc i v) R s ↔ R () (s.withProcs (s.procs.set i v)) := by
  simp [setProc, State.withProcs]

@[simp]
theorem wlp_updProc {f : Proc → Proc} :
    wlp (updProc i f) R s ↔
      ∀ v, s.procs.get i = some v → R () (s.withProcs (s.procs.set i (f v))) := by
  simp [updProc]

@[simp]
theorem wlp_setHandle {v : Handle} :
    wlp (setHandle i v) R s ↔ R () (s.withHandles (s.handles.set i v)) := by
  simp [setHandle, State.withHandles]

@[simp]
theorem wlp_updHandle {f : Handle → Handle} :
    wlp (updHandle i f) R s ↔
      ∀ v, s.handles.get i = some v → R () (s.withHandles (s.handles.set i (f v))) := by
  simp [updHandle]

@[simp]
theorem wlp_setBackend {v : VfsBackend} :
    wlp (setBackend i v) R s ↔ R () (s.withBackends (s.backends.set i v)) := by
  simp [setBackend, State.withBackends]

@[simp]
theorem wlp_updBackend {f : VfsBackend → VfsBackend} :
    wlp (updBackend i f) R s ↔
      ∀ v, s.backends.get i = some v → R () (s.withBackends (s.backends.set i (f v))) := by
  simp [updBackend]

@[simp]
theorem wlp_setMount {v : VfsMount} :
    wlp (setMount i v) R s ↔ R () (s.withMounts (s.mounts.set i v)) := by
  simp [setMount, State.withMounts]

@[simp]
theorem wlp_setReq {v : VfsReq} : wlp (setReq i v) R s ↔ R () (s.withReqs (s.reqs.set i v)) := by
  simp [setReq, State.withReqs]

@[simp]
theorem wlp_setSlot {j : Fin HANDLE_MAX} {h : Option Hid} :
    wlp (setSlot i j h) R s ↔ ∀ v, s.tables.get i = some v →
      R () (s.withTables (s.tables.set i (Function.update v j h))) := by
  simp [setSlot, State.withTables]

@[simp]
theorem wlp_setCount {n : ℕ} :
    wlp (setCount i n) R s ↔ R () (s.withCounts (s.counts.set i n)) := by
  simp [setCount, State.withCounts]

end Set

section Alloc

variable {Q : ℕ → State → Prop} {s : State}

@[simp]
theorem wlp_allocProc {v : Proc} :
    wlp (allocProc v) Q s ↔ Q s.procs.size (s.withProcs (s.procs.alloc v)) := by
  simp [allocProc, State.withProcs]

@[simp]
theorem wlp_allocHandle {v : Handle} :
    wlp (allocHandle v) Q s ↔ Q s.handles.size (s.withHandles (s.handles.alloc v)) := by
  simp [allocHandle, State.withHandles]

@[simp]
theorem wlp_allocTable {v : Table} :
    wlp (allocTable v) Q s ↔ Q s.tables.size (s.withTables (s.tables.alloc v)) := by
  simp [allocTable, State.withTables]

@[simp]
theorem wlp_allocCount {n : ℕ} :
    wlp (allocCount n) Q s ↔ Q s.counts.size (s.withCounts (s.counts.alloc n)) := by
  simp [allocCount, State.withCounts]

@[simp]
theorem wlp_allocPagedir :
    wlp allocPagedir Q s ↔ Q s.pagedirs.size (s.withPagedirs (s.pagedirs.alloc ())) := by
  simp [allocPagedir, State.withPagedirs]

@[simp]
theorem wlp_allocBackend {v : VfsBackend} :
    wlp (allocBackend v) Q s ↔ Q s.backends.size (s.withBackends (s.backends.alloc v)) := by
  simp [allocBackend, State.withBackends]

@[simp]
theorem wlp_allocMount {v : VfsMount} :
    wlp (allocMount v) Q s ↔ Q s.mounts.size (s.withMounts (s.mounts.alloc v)) := by
  simp [allocMount, State.withMounts]

@[simp]
theorem wlp_allocReq {v : VfsReq} :
    wlp (allocReq v) Q s ↔ Q s.reqs.size (s.withReqs (s.reqs.alloc v)) := by
  simp [allocReq, State.withReqs]

@[simp]
theorem wlp_allocBuf {path : List UInt8} :
    wlp (allocBuf path) Q s ↔ Q s.bufs.size (s.withBufs (s.bufs.alloc path)) := by
  simp [allocBuf, State.withBufs]

end Alloc

section Free

variable {R : Unit → State → Prop} {s : State} {i : ℕ}

theorem wlp_kfree {heap : State → Heap α} {put : State → Heap α → State} :
    wlp (kfree heap put i) R s ↔ ∀ a, (heap s).get i = some a → R () (put s ((heap s).free i)) := by
  simp only [kfree, wlp_bind, wlp_get]
  cases (heap s).get i <;> simp

@[simp]
theorem wlp_freeProc :
    wlp (freeProc i) R s ↔ ∀ v, s.procs.get i = some v → R () (s.withProcs (s.procs.free i)) :=
  wlp_kfree

@[simp]
theorem wlp_freeTable :
    wlp (freeTable i) R s ↔ ∀ v, s.tables.get i = some v → R () (s.withTables (s.tables.free i)) :=
  wlp_kfree

@[simp]
theorem wlp_freeCount :
    wlp (freeCount i) R s ↔ ∀ v, s.counts.get i = some v → R () (s.withCounts (s.counts.free i)) :=
  wlp_kfree

@[simp]
theorem wlp_freePagedir :
    wlp (freePagedir i) R s ↔
      ∀ v, s.pagedirs.get i = some v → R () (s.withPagedirs (s.pagedirs.free i)) :=
  wlp_kfree

@[simp]
theorem wlp_freeBackend :
    wlp (freeBackend i) R s ↔
      ∀ v, s.backends.get i = some v → R () (s.withBackends (s.backends.free i)) :=
  wlp_kfree

@[simp]
theorem wlp_freeMount :
    wlp (freeMount i) R s ↔ ∀ v, s.mounts.get i = some v → R () (s.withMounts (s.mounts.free i)) :=
  wlp_kfree

@[simp]
theorem wlp_freeReq :
    wlp (freeReq i) R s ↔ ∀ v, s.reqs.get i = some v → R () (s.withReqs (s.reqs.free i)) :=
  wlp_kfree

@[simp]
theorem wlp_freeBuf :
    wlp (freeBuf i) R s ↔ ∀ v, s.bufs.get i = some v → R () (s.withBufs (s.bufs.free i)) :=
  wlp_kfree

@[simp]
theorem wlp_freeHandle :
    wlp (freeHandle i) R s ↔ i ≠ nullfs → ∀ v, s.handles.get i = some v →
      R () (s.withHandles (s.handles.free i)) := by
  by_cases h : i = nullfs
  case pos => simp [freeHandle, h]
  case neg =>
    simp only [freeHandle, h, if_false, ne_eq, not_false_eq_true, true_implies]
    exact wlp_kfree

end Free

section Setstate

variable {R : Unit → State → Prop} {s : State} {p : Pid} {v : Proc}

@[simp]
theorem wlp_regsSavereturn {ret : Int} :
    wlp (regsSavereturn p ret) R s ↔
      ∀ v, s.procs.get p = some v → R () (s.withProcs (s.procs.set p { v with rax := ret })) :=
  wlp_updProc

-- The states in which a process waits can only be entered by a running process.
def PState.waiting : PState → Bool
  | .waits4childdeath | .waits4fs | .waits4request | .waits4pipe | .waits4timer => true
  | _                                                                          => false

theorem wlp_procSetstate_waiting {state : PState} (hw : state.waiting) :
    wlp (procSetstate p state) R s ↔ ∀ v, s.procs.get p = some v → v.state = .running →
      R () (s.withProcs (s.procs.set p { v with state := state })) := by
  simp only [procSetstate, wlp_bind, wlp_getProc]
  refine forall_congr' fun v => forall_congr' fun hv => ?_
  cases state <;> simp [PState.waiting, hv] at hw ⊢
  all_goals by_cases hf : v.state = .freed <;> simp [hf]

@[simp]
theorem wlp_procSetstate_running :
    wlp (procSetstate p .running) R s ↔ ∀ v, s.procs.get p = some v → v.state ≠ .freed →
      R () (s.withProcs (s.procs.set p { v with state := .running })) := by
  simp only [procSetstate, wlp_bind, wlp_getProc]
  refine forall_congr' fun v => forall_congr' fun hv => ?_
  simp [hv]

@[simp]
theorem wlp_procSetstate_dying :
    wlp (procSetstate p .dying) R s ↔ ∀ v, s.procs.get p = some v → v.state ≠ .freed →
      R () (s.withProcs (s.procs.set p { v with state := .dying })) := by
  simp only [procSetstate, wlp_bind, wlp_getProc]
  refine forall_congr' fun v => forall_congr' fun hv => ?_
  simp [hv]

@[simp]
theorem wlp_procSetstate_tombstone :
    wlp (procSetstate p .tombstone) R s ↔ ∀ v, s.procs.get p = some v →
      v.state = .toreap ∨ v.state = .dying →
      R () (s.withProcs (s.procs.set p { v with state := .tombstone })) := by
  simp only [procSetstate, wlp_bind, wlp_getProc]
  refine forall_congr' fun v => forall_congr' fun hv => ?_
  by_cases hf : v.state = .freed <;> simp [hv, hf]

@[simp]
theorem wlp_procSetstate_deadleaf :
    wlp (procSetstate p .deadleaf) R s ↔ ∀ v, s.procs.get p = some v → v.state = .tombstone →
      R () (s.withProcs (s.procs.set p { v with state := .deadleaf })) := by
  simp only [procSetstate, wlp_bind, wlp_getProc]
  refine forall_congr' fun v => forall_congr' fun hv => ?_
  by_cases hf : v.state = .freed <;> simp [hv, hf]

@[simp]
theorem wlp_procSetstate_freed :
    wlp (procSetstate p .freed) R s ↔ ∀ v, s.procs.get p = some v → v.state = .deadleaf →
      R () (s.withProcs (s.procs.set p { v with state := .freed })) := by
  simp only [procSetstate, wlp_bind, wlp_getProc]
  refine forall_congr' fun v => forall_congr' fun hv => ?_
  by_cases hf : v.state = .freed <;> simp [hv, hf]

theorem wlp_procSetstateLoop {fuel : ℕ} {o : Option Pid} (h : R () s) :
    wlp (procSetstateLoop p fuel o) R s := by
  induction fuel generalizing o
  case zero => cases o <;> simp [procSetstateLoop, h]
  case succ fuel hi =>
    cases o
    case none    => simpa [procSetstateLoop] using h
    case some it =>
      simp only [procSetstateLoop, wlp_bind, wlp_getProc, wlp_kassert]
      exact fun _ _ _ _ _ => hi

-- The checks on the family of the process do not change anything.
theorem wlp_procSetstate_toreap
    (h : ∀ v, s.procs.get p = some v → v.state = .dying →
      (∀ q, v.parent = some q → ∃ w, s.procs.get q = some w ∧ w.state.alive) →
      R () (s.withProcs (s.procs.set p { v with state := .toreap }))) :
    wlp (procSetstate p .toreap) R s := by
  simp only [procSetstate, procSetstateToreap, wlp_bind, wlp_getProc, wlp_kassert]
  intro v hv _ hd
  cases hp : v.parent
  case none =>
    simp only [wlp_bind, wlp_get]
    refine wlp_procSetstateLoop ?_
    simpa [hv] using h v hv hd (by simp [hp])
  case some q =>
    simp only [wlp_bind, wlp_getProc, wlp_kassert, wlp_get]
    intro w hw ha
    refine wlp_procSetstateLoop ?_
    simpa [hv] using h v hv hd fun q' hq' => by
      obtain rfl := Option.some_inj.mp (hp.symm.trans hq')
      exact ⟨w, hw, ha⟩

end Setstate
end Camellia
