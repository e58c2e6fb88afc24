import Camellia.Kernel.State

namespace Camellia

-- The rules for the kernel's accesses to its objects. A use of a freed object is an error, so each
-- rule for a use speaks about the object as it is found in the heap.

variable {Q : α → State → Prop} {R : Unit → State → Prop} {E : Fault → Prop} {s : State}

@[simp]
theorem wp_kassert {c : Prop} [Decidable c] {site : Site} :
    wp (kassert c site) R E s ↔ (c → R () s) ∧ (¬c → E (.assert site)) := by
  by_cases h : c <;> simp [kassert, h]

@[simp]
theorem wp_nonNull {o : Option α} :
    wp (nonNull o) Q E s ↔ o.elim (E .nullPointer) (Q · s) := by
  cases o <;> simp [nonNull]

@[simp]
theorem wp_deref {heap : State → Heap α} {obj : Obj} {i : ℕ} :
    wp (deref heap obj i) Q E s ↔ ((heap s).get i).elim (E (.useAfterFree obj)) (Q · s) := by
  simp only [deref, wp_bind, wp_get]
  cases (heap s).get i <;> simp

section Get

variable {i : ℕ}

@[simp]
theorem wp_getProc {Q : Proc → State → Prop} :
    wp (getProc i) Q E s ↔ (s.procs.get i).elim (E (.useAfterFree .proc)) (Q · s) :=
  wp_deref

@[simp]
theorem wp_getHandle {Q : Handle → State → Prop} :
    wp (getHandle i) Q E s ↔ (s.handles.get i).elim (E (.useAfterFree .handle)) (Q · s) :=
  wp_deref

@[simp]
theorem wp_getBackend {Q : VfsBackend → State → Prop} :
    wp (getBackend i) Q E s ↔ (s.backends.get i).elim (E (.useAfterFree .backend)) (Q · s) :=
  wp_deref

@[simp]
theorem wp_getMount {Q : VfsMount → State → Prop} :
    wp (getMount i) Q E s ↔ (s.mounts.get i).elim (E (.useAfterFree .mount)) (Q · s) :=
  wp_deref

@[simp]
theorem wp_getReq {Q : VfsReq → State → Prop} :
    wp (getReq i) Q E s ↔ (s.reqs.get i).elim (E (.useAfterFree .req)) (Q · s) :=
  wp_deref

@[simp]
theorem wp_getTable {Q : Table → State → Prop} :
    wp (getTable i) Q E s ↔ (s.tables.get i).elim (E (.useAfterFree .table)) (Q · s) :=
  wp_deref

@[simp]
theorem wp_getCount {Q : ℕ → State → Prop} :
    wp (getCount i) Q E s ↔ (s.counts.get i).elim (E (.useAfterFree .count)) (Q · s) :=
  wp_deref

end Get

section Set

variable {i : ℕ}

@[simp]
theorem wp_setProc {v : Proc} :
    wp (setProc i v) R E s ↔ R () { s with procs := s.procs.set i v } := by
  simp [setProc]

@[simp]
theorem wp_updProc {f : Proc → Proc} :
    wp (updProc i f) R E s ↔ (s.procs.get i).elim (E (.useAfterFree .proc)) fun v =>
      R () { s with procs := s.procs.set i (f v) } := by
  simp [updProc]

@[simp]
theorem wp_setHandle {v : Handle} :
    wp (setHandle i v) R E s ↔ R () { s with handles := s.handles.set i v } := by
  simp [setHandle]

@[simp]
theorem wp_updHandle {f : Handle → Handle} :
    wp (updHandle i f) R E s ↔ (s.handles.get i).elim (E (.useAfterFree .handle)) fun v =>
      R () { s with handles := s.handles.set i (f v) } := by
  simp [updHandle]

@[simp]
theorem wp_emit {e : Event} : wp (emit e) R E s ↔ R () { s with log := s.log ++ [e] } := by
  simp [emit]

theorem wp_freeHandle {v : Handle} (hi : i ≠ nullfs) (hv : s.handles.get i = some v) :
    wp (freeHandle i) R E s ↔ R () { s with handles := s.handles.free i } := by
  simp [freeHandle, hi, kfree, hv]

end Set

end Camellia
