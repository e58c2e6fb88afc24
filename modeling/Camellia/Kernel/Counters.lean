import Camellia.Kernel.Accounts
import Camellia.Lib.HeapCount

namespace Camellia

-- The counters of the kernel are the numbers of the pointers which they stand for.

-- An environment in which the drivers of the kernel answer at once.
def promptEnv : Env where
  drv        := fun _ req => some (if req.type = .OPEN then 7 else 0)
  resWritten := fun _ => true
  copied     := id
  mapped     := fun _ => PATH_MAX

section Handles

variable {s : State} {h : Hid} {paths : List (List UInt8)}

-- The slots which hold a handle. A table which is shared by processes counts once.
def State.slots (s : State) (h : Hid) : Set (Tid × Fin HANDLE_MAX) :=
  s.tables.collect fun _ table => { i | table i = some h }

theorem sum_slots {table : Table} :
    ((List.finRange HANDLE_MAX).map fun i => if table i = some h then (1 : ℤ) else 0).sum =
      (({ i | table i = some h } : Set (Fin HANDLE_MAX)).ncard : ℤ) := by
  rw [← Fin.sum_univ_def, Finset.sum_boole, Set.ncard_eq_toFinset_card', Set.toFinset_ofPred]

theorem balance_slots : s.balance (.handle h) =
    ((s.handles.get h).elim 0 fun v => (v.refcount : ℤ)) - ((s.slots h).ncard : ℤ) := by
  rw [balance_handle, State.slots, ← Heap.total_ncard fun _ _ => Set.toFinite _]
  simp only [sum_slots]

-- The handles other than the static one, which is never freed.
structure HandlesCounted (s : State) : Prop where
  refcount : ∀ h v, h ≠ nullfs → s.handles.get h = some v → v.refcount = (s.slots h).ncard
  -- No slot holds a handle which was freed, and no handle is lost.
  held     : ∀ h, h ≠ nullfs → ((s.slots h).Nonempty ↔ ∃ v, s.handles.get h = some v)

theorem Rest.handlesCounted (hs : Rest s) : HandlesCounted s := by
  have hbalance (h : Hid) (hh : h ≠ nullfs) :
      ((s.handles.get h).elim 0 fun v => (v.refcount : ℤ)) = ((s.slots h).ncard : ℤ) := by
    have := hs.apply (x := .handle h) (by simpa using hh)
    rw [balance_slots, Pi.zero_apply] at this
    omega
  have hfinite (h : Hid) : (s.slots h).Finite := Heap.finite_collect fun _ _ => Set.toFinite _
  refine ⟨fun h v hh hv => ?_, fun h hh => ?_⟩
  · have := hbalance h hh
    rw [hv] at this
    exact Int.ofNat_inj.mp this
  · have := hbalance h hh
    rw [← Set.ncard_pos (hfinite h)]
    cases hv : s.handles.get h
    case none =>
      simp only [hv, Option.elim_none] at this
      simp only [reduceCtorEq, exists_false, iff_false]
      omega
    case some v =>
      have hused := hs.tidy.used h v hv
      simp only [hv, Option.elim_some] at this
      exact iff_of_true (by omega) ⟨v, rfl⟩

theorem reachable_handlesCounted (hr : Reachable paths s) : HandlesCounted s :=
  hr.rest.handlesCounted

-- The two ends of a pipe.
theorem piped_handlesCounted : ∃ t, Step (bootState [[]]) (.syscall 0 (.pipe 0)) t ∧
    (t.handles.get 1).map Handle.refcount = some 1 ∧ HandlesCounted t := by
  have hrun : ∃ t, enter quietEnv (.syscall 0 (.pipe 0)) (bootState [[]]) = .ok ((), t) ∧
      (t.handles.get 1).map Handle.refcount = some 1 := ⟨_, rfl, rfl⟩
  have ⟨t, hrun, hcount⟩ := hrun
  have hstep : Step (bootState [[]]) (.syscall 0 (.pipe 0)) t := ⟨⟨_, rfl, rfl⟩, quietEnv, hrun⟩
  exact ⟨t, hstep, hcount, reachable_handlesCounted (.step .boot trivial hstep)⟩

end Handles

section Backends

variable {s : State} {paths : List (List UInt8)}

-- What uses a backend, and which processes provide it.

def State.mountsOf (s : State) (b : Bid) : Set Mid :=
  s.mounts.those fun _ v => v.backend = some b

def State.handlesOf (s : State) (b : Bid) : Set Hid :=
  s.handles.those fun _ v => v.backend = some b

def State.reqsOf (s : State) (b : Bid) : Set Rid :=
  s.reqs.those fun _ w => w.pending ∧ w.backend = some b

def State.providers (s : State) (b : Bid) : Set Pid :=
  s.procs.those fun _ v => v.controlled = some b

-- A request counts until it is finished. The backends of the kernel have no providers, and they are
-- never freed.
structure BackendsCounted (s : State) : Prop where
  usehcnt  : ∀ b v, s.backends.get b = some v →
    v.usehcnt = (s.mountsOf b).ncard + (s.handlesOf b).ncard + (s.reqsOf b).ncard
  provhcnt : ∀ b v, s.backends.get b = some v → v.isUser → v.provhcnt = (s.providers b).ncard
  used     : ∀ b, (s.mountsOf b).Nonempty ∨ (s.handlesOf b).Nonempty ∨ (s.reqsOf b).Nonempty →
    ∃ v, s.backends.get b = some v
  provided : ∀ b, (s.providers b).Nonempty → ∃ v, s.backends.get b = some v ∧ v.isUser
  -- No backend is lost.
  needed   : ∀ b v, s.backends.get b = some v → v.isUser → (s.mountsOf b).Nonempty ∨ (s.handlesOf b).Nonempty ∨
    (s.reqsOf b).Nonempty ∨ (s.providers b).Nonempty

theorem Rest.backendsCounted (hs : Rest s) : BackendsCounted s := by
  have huse (b : Bid) : ((s.backends.get b).elim 0 fun v => (v.usehcnt : ℤ)) =
      ((s.mountsOf b).ncard : ℤ) + ((s.handlesOf b).ncard : ℤ) + ((s.reqsOf b).ncard : ℤ) := by
    have := hs.apply (x := .use b) (by simp)
    rw [balance_use, Heap.total_indicator, Heap.total_indicator, Heap.total_indicator, Pi.zero_apply] at this
    simp only [State.mountsOf, State.handlesOf, State.reqsOf]
    omega
  have hprov (b : Bid) : ((s.backends.get b).elim 0 fun v => if v.isUser then (v.provhcnt : ℤ) else 0) =
      ((s.providers b).ncard : ℤ) := by
    have := hs.apply (x := .prov b) (by simp)
    rw [balance_prov, Heap.total_indicator, Pi.zero_apply] at this
    simp only [State.providers]
    omega
  refine ⟨fun b v hv => ?_, fun b v hv hu => ?_, fun b hb => ?_, fun b hb => ?_, fun b v hv hu => ?_⟩
  · have := huse b
    simp only [hv, Option.elim_some] at this
    omega
  · have := hprov b
    simp only [hv, Option.elim_some, hu, if_true] at this
    omega
  · simp only [← Set.ncard_pos Heap.finite_those, State.mountsOf, State.handlesOf, State.reqsOf] at hb
    have := huse b
    cases hv : s.backends.get b
    case some v => exact ⟨v, rfl⟩
    case none =>
      simp only [hv, Option.elim_none, State.mountsOf, State.handlesOf, State.reqsOf] at this
      omega
  · obtain ⟨p, v, hv, hc⟩ := hb
    obtain ⟨x, hx, hu, _⟩ := hs.provided rfl hv hc
    exact ⟨x, hx, hu⟩
  · have hneeded := hs.tidy.needed b v hv
    have hu' := huse b
    have hp' := hprov b
    simp only [hv, Option.elim_some, hu, if_true, State.mountsOf, State.handlesOf, State.reqsOf, State.providers] at hu' hp'
    simp only [← Set.ncard_pos Heap.finite_those, State.mountsOf, State.handlesOf, State.reqsOf, State.providers]
    rw [VfsBackend.Lost] at hneeded
    omega

theorem reachable_backendsCounted (hr : Reachable paths s) : BackendsCounted s :=
  hr.rest.backendsCounted

-- A filesystem with a process which provides it and a handle to mount it with.
theorem provided_backendsCounted : ∃ t, Step (bootState [[]]) (.syscall 0 (.fork FORK_NEWFS)) t ∧
    (t.backends.get 1).map VfsBackend.provhcnt = some 1 ∧ BackendsCounted t := by
  have hrun : ∃ t, enter quietEnv (.syscall 0 (.fork FORK_NEWFS)) (bootState [[]]) = .ok ((), t) ∧
      (t.backends.get 1).map VfsBackend.provhcnt = some 1 := ⟨_, rfl, rfl⟩
  have ⟨t, hrun, hcount⟩ := hrun
  have hstep : Step (bootState [[]]) (.syscall 0 (.fork FORK_NEWFS)) t := ⟨⟨_, rfl, rfl⟩, quietEnv, hrun⟩
  exact ⟨t, hstep, hcount, reachable_backendsCounted (.step .boot trivial hstep)⟩

end Backends

section Mounts

variable {s : State} {paths : List (List UInt8)}

-- The processes whose mounts start with this one, and the mounts which lie over it.

def State.mounters (s : State) (m : Mid) : Set Pid :=
  s.procs.those fun _ v => v.mount = some m

def State.overlays (s : State) (m : Mid) : Set Mid :=
  s.mounts.those fun _ v => v.prev = some m

structure MountsCounted (s : State) : Prop where
  refs : ∀ m v, s.mounts.get m = some v → v.refs = (s.mounters m).ncard + (s.overlays m).ncard
  -- No mount is used after it was freed, and no mount is lost.
  held : ∀ m, (s.mounters m).Nonempty ∨ (s.overlays m).Nonempty ↔ ∃ v, s.mounts.get m = some v

theorem Rest.mountsCounted (hs : Rest s) : MountsCounted s := by
  have hmount (m : Mid) : ((s.mounts.get m).elim 0 fun v => (v.refs : ℤ)) =
      ((s.mounters m).ncard : ℤ) + ((s.overlays m).ncard : ℤ) := by
    have := hs.apply (x := .mount m) (by simp)
    rw [balance_mount, Heap.total_indicator, Heap.total_indicator, Pi.zero_apply] at this
    simp only [State.mounters, State.overlays]
    omega
  refine ⟨fun m v hv => ?_, fun m => ?_⟩
  · have := hmount m
    simp only [hv, Option.elim_some] at this
    omega
  · have := hmount m
    simp only [← Set.ncard_pos Heap.finite_those, State.mounters, State.overlays] at this ⊢
    cases hv : s.mounts.get m
    case some v =>
      have hshown := hs.tidy.shown m v hv
      simp only [hv, Option.elim_some] at this
      exact iff_of_true (by omega) ⟨v, rfl⟩
    case none =>
      simp only [hv, Option.elim_none] at this
      simp only [reduceCtorEq, exists_false, iff_false]
      omega

theorem reachable_mountsCounted (hr : Reachable paths s) : MountsCounted s :=
  hr.rest.mountsCounted

-- Two processes with the same mounts.
theorem forked_mountsCounted : ∃ t, Step (bootState [[]]) (.syscall 0 (.fork 0)) t ∧
    (t.mounts.get 0).map VfsMount.refs = some 2 ∧ MountsCounted t := by
  have hrun : ∃ t, enter quietEnv (.syscall 0 (.fork 0)) (bootState [[]]) = .ok ((), t) ∧
      (t.mounts.get 0).map VfsMount.refs = some 2 := ⟨_, rfl, rfl⟩
  have ⟨t, hrun, hcount⟩ := hrun
  have hstep : Step (bootState [[]]) (.syscall 0 (.fork 0)) t := ⟨⟨_, rfl, rfl⟩, quietEnv, hrun⟩
  exact ⟨t, hstep, hcount, reachable_mountsCounted (.step .boot trivial hstep)⟩

end Mounts

section Bufs

variable {s : State} {n : ℕ} {paths : List (List UInt8)}

-- What a buffer for a path belongs to: a request in flight or a mount.

def State.reqOwners (s : State) (n : ℕ) : Set Rid :=
  s.reqs.those fun _ w => w.pending ∧ w.input.buf = some n

def State.mountOwners (s : State) (n : ℕ) : Set Mid :=
  s.mounts.those fun _ v => v.owned = some n

def State.owners (s : State) (n : ℕ) : Set (Rid ⊕ Mid) :=
  Sum.inl '' s.reqOwners n ∪ Sum.inr '' s.mountOwners n

theorem finite_reqOwners : (s.reqOwners n).Finite :=
  Heap.finite_those

theorem finite_mountOwners : (s.mountOwners n).Finite :=
  Heap.finite_those

theorem finite_owners : (s.owners n).Finite :=
  (finite_reqOwners.image _).union (finite_mountOwners.image _)

theorem ncard_owners : (s.owners n).ncard = (s.reqOwners n).ncard + (s.mountOwners n).ncard := by
  rw [State.owners, Set.ncard_union_eq ?_ (finite_reqOwners.image _) (finite_mountOwners.image _),
    Set.ncard_image_of_injective _ Sum.inl_injective, Set.ncard_image_of_injective _ Sum.inr_injective]
  refine Set.disjoint_left.mpr ?_
  rintro _ ⟨_, _, rfl⟩ ⟨_, _, h⟩
  contradiction

structure BufsOwned (s : State) : Prop where
  -- A buffer is freed by one owner, and no buffer is lost.
  owner : ∀ n path, s.bufs.get n = some path → ∃! o, o ∈ s.owners n
  -- No buffer is used after it was freed.
  live  : ∀ n o, o ∈ s.owners n → ∃ path, s.bufs.get n = some path

theorem Rest.bufsOwned (hs : Rest s) : BufsOwned s := by
  have hcard (n : ℕ) : ((s.owners n).ncard : ℤ) = (s.bufs.get n).elim 0 fun _ => 1 := by
    have := hs.apply (x := .buf n) (by simp)
    rw [balance_buf, Heap.total_indicator, Heap.total_indicator, Pi.zero_apply] at this
    simp only [ncard_owners, State.reqOwners, State.mountOwners]
    omega
  refine ⟨fun n path hn => ?_, fun n o ho => ?_⟩
  · have := hcard n
    rw [hn, Option.elim_some] at this
    obtain ⟨o, ho⟩ := Set.ncard_eq_one.mp (Int.ofNat_inj.mp this)
    have hmem (x : Rid ⊕ Mid) : x ∈ s.owners n ↔ x = o := Set.ext_iff.mp ho x
    exact ⟨o, (hmem o).mpr rfl, fun x => (hmem x).mp⟩
  · have := hcard n
    have hpos : 0 < (s.owners n).ncard := (Set.ncard_pos finite_owners).mpr ⟨o, ho⟩
    cases hn : s.bufs.get n
    case none =>
      rw [hn, Option.elim_none] at this
      omega
    case some path => exact ⟨path, rfl⟩

theorem reachable_bufsOwned (hr : Reachable paths s) : BufsOwned s :=
  hr.rest.bufsOwned

-- A request to open a file which was not answered yet.
theorem opening_bufsOwned : ∃ t, Step (bootState [[]]) (.syscall 0 (.open (some [47, 97]) 0)) t ∧
    t.bufs.get 0 = some [47, 97] ∧ BufsOwned t := by
  have hrun : ∃ t, enter quietEnv (.syscall 0 (.open (some [47, 97]) 0)) (bootState [[]]) = .ok ((), t) ∧
      t.bufs.get 0 = some [47, 97] := ⟨_, rfl, rfl⟩
  have ⟨t, hrun, hbuf⟩ := hrun
  have hstep : Step (bootState [[]]) (.syscall 0 (.open (some [47, 97]) 0)) t := ⟨⟨_, rfl, rfl⟩, quietEnv, hrun⟩
  exact ⟨t, hstep, hbuf, reachable_bufsOwned (.step .boot trivial hstep)⟩

end Bufs
end Camellia
