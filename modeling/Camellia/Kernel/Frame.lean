import Camellia.Kernel.Ledger

namespace Camellia

-- What the operations on files leave alone. They may wake processes up, and they may close handles
-- and finish requests, but they do not touch anything else of an object which already exists.

structure Proc.Kept (v w : Proc) : Prop where
  eq    : w = { v with state := w.state, rax := w.rax, refcount := w.refcount }
  state : w.state = v.state ∨
    w.state = .running ∧ (v.state = .waits4fs ∨ v.state = .waits4request ∨ v.state = .waits4pipe)

structure Handle.Kept (v w : Handle) : Prop where
  eq       : w = { v with refcount := w.refcount, queued := w.queued, sister := w.sister }
  refcount : w.refcount ≤ v.refcount
  queued   : w.queued = v.queued ∨ w.queued = []
  sister   : w.sister = v.sister ∨ w.sister = none

structure VfsBackend.Kept (v w : VfsBackend) : Prop where
  provhcnt : w.provhcnt = v.provhcnt
  isUser   : w.isUser = v.isUser
  handler  : w.access.handler = v.access.handler ∨ w.access.handler = none

structure VfsReq.Kept (v w : VfsReq) : Prop where
  eq      : w = { v with pending := w.pending }
  pending : w.pending → v.pending

-- The kernel may still give a handle to the process while it serves another one.
def State.Served (s : State) (p : Pid) : Prop :=
  (∃ b v, s.backends.get b = some v ∧ v.access.handler = some p) ∨
    ∃ r w, s.reqs.get r = some w ∧ w.pending ∧ w.caller = some p

structure Kept (s t : State) : Prop where
  procs     : ∀ p v, s.procs.get p = some v → ∃ w, t.procs.get p = some w ∧ v.Kept w
  freeProcs : ∀ p, s.procs.get p = none → t.procs.get p = none
  handles   : s.handles.Grows Handle.Kept t.handles
  -- A handle which nobody uses anymore does not stay.
  zeros     : ∀ h w, t.handles.get h = some w → w.refcount = 0 →
    ∃ v, s.handles.get h = some v ∧ v.refcount = 0
  tables    : ∀ i, (t.tables.get i).isSome = (s.tables.get i).isSome
  slots     : ∀ i v w, s.tables.get i = some v → t.tables.get i = some w →
    (∀ p u, s.procs.get p = some u → u.handles = some i → ¬s.Served p) → ∀ j, w j = v j ∨ w j = none
  backends  : s.backends.Grows VfsBackend.Kept t.backends
  newBacks  : t.backends.size = s.backends.size
  reqs      : s.reqs.Grows VfsReq.Kept t.reqs
  newReqs   : ∀ r w, s.reqs.size ≤ r → t.reqs.get r = some w → w.caller = none
  log       : s.log <+: t.log

section Kept

variable {s t u : State} {p : Pid}

theorem Proc.Kept.refl (v : Proc) : v.Kept v :=
  ⟨rfl, .inl rfl⟩

theorem Proc.Kept.trans {v w x : Proc} (h₁ : v.Kept w) (h₂ : w.Kept x) : v.Kept x := by
  refine ⟨?_, ?_⟩
  · rw [h₂.eq, h₁.eq]
  · have := h₁.state
    have := h₂.state
    grind

theorem Handle.Kept.refl (v : Handle) : v.Kept v :=
  ⟨rfl, le_rfl, .inl rfl, .inl rfl⟩

theorem Handle.Kept.trans {v w x : Handle} (h₁ : v.Kept w) (h₂ : w.Kept x) : v.Kept x := by
  refine ⟨?_, h₂.refcount.trans h₁.refcount, ?_, ?_⟩
  · rw [h₂.eq, h₁.eq]
  · have := h₁.queued
    have := h₂.queued
    grind
  · have := h₁.sister
    have := h₂.sister
    grind

theorem VfsBackend.Kept.refl (v : VfsBackend) : v.Kept v :=
  ⟨rfl, rfl, .inl rfl⟩

theorem VfsBackend.Kept.trans {v w x : VfsBackend} (h₁ : v.Kept w) (h₂ : w.Kept x) : v.Kept x := by
  refine ⟨h₂.provhcnt.trans h₁.provhcnt, h₂.isUser.trans h₁.isUser, ?_⟩
  have := h₁.handler
  have := h₂.handler
  grind

theorem VfsReq.Kept.refl (v : VfsReq) : v.Kept v :=
  ⟨rfl, fun h => h⟩

theorem VfsReq.Kept.trans {v w x : VfsReq} (h₁ : v.Kept w) (h₂ : w.Kept x) : v.Kept x :=
  ⟨by rw [h₂.eq, h₁.eq], h₁.pending ∘ h₂.pending⟩

-- Nobody is served who was not served before.
theorem Kept.served (h : Kept s t) (ht : t.Served p) : s.Served p := by
  obtain ⟨b, w, hw, hp⟩ | ⟨r, w, hw, hpend, hc⟩ := ht
  · have hb : b < s.backends.size := h.newBacks ▸ Heap.lt_size hw
    obtain ⟨v, hv, hk⟩ := h.backends.get b hb w hw
    obtain heq | hnone := hk.handler
    · exact .inl ⟨b, v, hv, heq ▸ hp⟩
    · rw [hnone] at hp
      contradiction
  · by_cases hr : r < s.reqs.size
    case neg =>
      rw [h.newReqs r w (not_lt.mp hr) hw] at hc
      contradiction
    case pos =>
      obtain ⟨v, hv, hk⟩ := h.reqs.get r hr w hw
      refine .inr ⟨r, v, hv, hk.pending hpend, ?_⟩
      rw [hk.eq] at hc
      exact hc

theorem Kept.refl (s : State) : Kept s s where
  procs     := fun _ v hv => ⟨v, hv, .refl v⟩
  freeProcs := fun _ => id
  handles   := .refl .refl
  zeros     := fun _ w hw hz => ⟨w, hw, hz⟩
  tables    := fun _ => rfl
  slots     := fun _ v w hv hw _ _ => .inl (by rw [hv] at hw; cases hw; rfl)
  backends  := .refl .refl
  newBacks  := rfl
  reqs      := .refl .refl
  newReqs   := fun r w hr hw => by rw [Heap.get_of_size_le hr] at hw; contradiction
  log       := List.prefix_rfl

-- The tables of processes which are not served.
theorem Kept.slots_trans (h₁ : Kept s t) (h₂ : Kept t u) {i : ℕ} {v w : Table}
    (hv : s.tables.get i = some v) (hw : u.tables.get i = some w)
    (hp : ∀ p x, s.procs.get p = some x → x.handles = some i → ¬s.Served p) (j : Fin HANDLE_MAX) :
    w j = v j ∨ w j = none := by
  have hsome : (t.tables.get i).isSome := by rw [h₁.tables, hv]; rfl
  obtain ⟨x, hx⟩ := Option.isSome_iff_exists.mp hsome
  have hp' (p : Pid) (y : Proc) (hy : t.procs.get p = some y) (hi : y.handles = some i) :
      ¬t.Served p := by
    cases ho : s.procs.get p
    case none =>
      rw [h₁.freeProcs p ho] at hy
      contradiction
    case some z =>
      obtain ⟨y', hy', hk⟩ := h₁.procs p z ho
      rw [hy] at hy'
      cases hy'
      rw [hk.eq] at hi
      exact fun hs => hp p z ho hi (h₁.served hs)
  obtain h | h := h₂.slots i x w hx hw hp' j
  · rw [h]
    exact h₁.slots i v x hv hx hp j
  · exact .inr h

theorem Kept.trans (h₁ : Kept s t) (h₂ : Kept t u) : Kept s u where
  procs     := fun p v hv => by
    obtain ⟨w, hw, hk⟩ := h₁.procs p v hv
    obtain ⟨x, hx, hk'⟩ := h₂.procs p w hw
    exact ⟨x, hx, hk.trans hk'⟩
  freeProcs := fun p hp => h₂.freeProcs p (h₁.freeProcs p hp)
  handles   := h₁.handles.trans (fun _ _ _ => .trans) h₂.handles
  zeros     := fun h w hw hz => by
    obtain ⟨v, hv, hz'⟩ := h₂.zeros h w hw hz
    exact h₁.zeros h v hv hz'
  tables    := fun i => (h₂.tables i).trans (h₁.tables i)
  slots     := fun _ _ _ hv hw hp => h₁.slots_trans h₂ hv hw hp
  backends  := h₁.backends.trans (fun _ _ _ => .trans) h₂.backends
  newBacks  := h₂.newBacks.trans h₁.newBacks
  reqs      := h₁.reqs.trans (fun _ _ _ => .trans) h₂.reqs
  newReqs   := fun r w hr hw => by
    by_cases ht : r < t.reqs.size
    case neg => exact h₂.newReqs r w (not_lt.mp ht) hw
    case pos =>
      obtain ⟨v, hv, hk⟩ := h₂.reqs.get r ht w hw
      rw [hk.eq]
      exact h₁.newReqs r v hr hv
  log       := h₁.log.trans h₂.log

end Kept

-- The updates of single objects.
section Update

variable {s : State} {i : ℕ}

theorem kept_setProc {v w : Proc} (hv : s.procs.get i = some v) (hk : v.Kept w) :
    Kept s (s.withProcs (s.procs.set i w)) :=
  { Kept.refl s with
    procs     := fun p x hx => by
      rw [State.withProcs_procs, Heap.get_set hv]
      by_cases hp : p = i
      case pos =>
        rw [hp, hv, Option.some_inj] at hx
        exact ⟨w, if_pos hp, hx ▸ hk⟩
      case neg => exact ⟨x, by rw [if_neg hp, hx], .refl x⟩
    freeProcs := fun p hp => by
      have hne : p ≠ i := fun h => by rw [h, hv] at hp; contradiction
      rw [State.withProcs_procs, Heap.get_set_ne hne, hp] }

theorem kept_setBackend {v w : VfsBackend} (hv : s.backends.get i = some v) (hk : v.Kept w) :
    Kept s (s.withBackends (s.backends.set i w)) :=
  { Kept.refl s with
    backends := .set .refl hv hk
    newBacks := Heap.size_set }

theorem kept_freeBackend : Kept s (s.withBackends (s.backends.free i)) :=
  { Kept.refl s with
    backends := .free .refl
    newBacks := Heap.size_free }

theorem kept_setReq {v w : VfsReq} (hv : s.reqs.get i = some v) (hk : v.Kept w) :
    Kept s (s.withReqs (s.reqs.set i w)) :=
  { Kept.refl s with
    reqs    := .set .refl hv hk
    newReqs := fun r x hr hx => by
      rw [State.withReqs_reqs, Heap.get_of_size_le (by rwa [Heap.size_set])] at hx
      contradiction }

theorem kept_freeReq : Kept s (s.withReqs (s.reqs.free i)) :=
  { Kept.refl s with
    reqs    := .free .refl
    newReqs := fun r x hr hx => by
      rw [State.withReqs_reqs, Heap.get_of_size_le (by rwa [Heap.size_free])] at hx
      contradiction }

theorem kept_withBufs {h : Heap (List UInt8)} : Kept s (s.withBufs h) :=
  { Kept.refl s with }

theorem kept_emit {e : Event} : Kept s (s.withLog (s.log ++ [e])) :=
  { Kept.refl s with
    log := List.prefix_append _ _ }

theorem kept_withMounts {h : Heap VfsMount} : Kept s (s.withMounts h) :=
  { Kept.refl s with }

theorem kept_withHeld {l : List Rid} : Kept s (s.withHeld l) :=
  { Kept.refl s with }

theorem kept_allocReq {w : VfsReq} (hw : w.caller = none) : Kept s (s.withReqs (s.reqs.alloc w)) :=
  { Kept.refl s with
    reqs    := .alloc .refl
    newReqs := fun r x hr hx => by
      rw [State.withReqs_reqs, Heap.get_alloc] at hx
      split at hx
      · rw [← Option.some_inj.mp hx, hw]
      · rw [Heap.get_of_size_le hr] at hx
        contradiction }

theorem kept_setHandle {v w : Handle} (hv : s.handles.get i = some v) (hk : v.Kept w)
    (hz : w.refcount = 0 → v.refcount = 0) : Kept s (s.withHandles (s.handles.set i w)) :=
  { Kept.refl s with
    handles := .set .refl hv hk
    zeros   := Heap.forall_set hv (fun h => ⟨v, hv, hz h⟩) fun _ x _ hx h => ⟨x, hx, h⟩ }

theorem kept_allocHandle {w : Handle} (hw : w.refcount ≠ 0) : Kept s (s.withHandles (s.handles.alloc w)) :=
  { Kept.refl s with
    handles := .alloc .refl
    zeros   := Heap.forall_alloc (fun h => absurd h hw) fun _ x _ hx h => ⟨x, hx, h⟩ }

theorem kept_setTable {v w : Table} (hv : s.tables.get i = some v)
    (hw : (∀ j, w j = v j ∨ w j = none) ∨
      ∃ p u, s.procs.get p = some u ∧ u.handles = some i ∧ s.Served p) :
    Kept s (s.withTables (s.tables.set i w)) :=
  { Kept.refl s with
    tables := fun k => by
      rw [State.withTables_tables, Heap.get_set hv]
      by_cases hk : k = i
      case pos => rw [if_pos hk, hk, hv]; rfl
      case neg => rw [if_neg hk]
    slots  := fun k x y hx hy hp j => by
      rw [State.withTables_tables, Heap.get_set hv] at hy
      by_cases hk : k = i
      case neg =>
        rw [if_neg hk, hx, Option.some_inj] at hy
        exact .inl (by rw [hy])
      case pos =>
        rw [if_pos hk, Option.some_inj] at hy
        rw [hk, hv, Option.some_inj] at hx
        obtain hw | ⟨p, u, hu, hi, hs⟩ := hw
        · rw [← hx, ← hy]
          exact hw j
        · exact absurd hs (hp p u hu (hk ▸ hi)) }

-- A handle is closed by the one who has the last reference to it. It is in use until then, and gone
-- afterwards.
theorem Kept.close {t : State} {v : Handle}
    (h : Kept (s.withHandles (s.handles.set i { v with refcount := 0 })) t) :
    Kept s (t.withHandles (t.handles.free i)) := by
  have hget (j : ℕ) (hj : j ≠ i) :
      (s.withHandles (s.handles.set i { v with refcount := 0 })).handles.get j = s.handles.get j :=
    Heap.get_set_ne hj
  refine { h with handles := ⟨?_, ?_⟩, zeros := ?_ }
  · simpa using h.handles.size
  · intro j hj w hw
    rw [State.withHandles_handles, Heap.get_free] at hw
    by_cases hji : j = i
    case pos => simp [hji] at hw
    case neg =>
      rw [if_neg hji] at hw
      rw [← hget j hji]
      exact h.handles.get j (by simpa using hj) w hw
  · intro j w hw hz
    rw [State.withHandles_handles, Heap.get_free] at hw
    by_cases hji : j = i
    case pos => simp [hji] at hw
    case neg =>
      rw [if_neg hji] at hw
      rw [← hget j hji]
      exact h.zeros j w hw hz

end Update
end Camellia
