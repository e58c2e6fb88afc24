import Camellia.Kernel.Traffic

namespace Camellia

section Waits

variable {s : State} {p : Pid} {b : Bid} {r : Rid} {h : Hid}

-- The handler of a backend waits for its requests.
theorem State.Waits.handler {v : VfsBackend} (hw : s.Waits) (hb : s.backends.get b = some v)
    (hh : v.access.handler = some p) :
    ∃ w, s.procs.get p = some w ∧ w.state = .waits4request ∧ w.controlled = some b := by
  have h := hw (.handler p b) rfl
  rw [balance_handler, hb] at h
  cases hp : s.procs.get p
  case none => simp [hp, hh] at h
  case some w =>
    refine ⟨w, rfl, ?_⟩
    by_contra hn
    simp [hp, hh, hn] at h

-- The caller of a request in flight waits for it.
theorem State.Waits.caller {v : VfsReq} (hw : s.Waits) (hr : s.reqs.get r = some v) (hp : v.pending)
    (hc : v.caller = some p) :
    ∃ w, s.procs.get p = some w ∧ w.state = .waits4fs ∧ w.reqslot = some r := by
  have h := hw (.caller p r) rfl
  rw [balance_caller, hr] at h
  cases hq : s.procs.get p
  case none => simp [hq, hp, hc] at h
  case some w =>
    refine ⟨w, rfl, ?_⟩
    by_contra hn
    simp [hq, hp, hc, hn] at h

-- Whoever is in the queue of a pipe waits for it, and is there only once.
theorem State.Waits.queued {v : Handle} (hw : s.Waits) (hh : s.handles.get h = some v)
    (hp : p ∈ v.queued) :
    v.queued.count p = 1 ∧
      ∃ w, s.procs.get p = some w ∧ w.state = .waits4pipe ∧ w.waitsPipe = h := by
  have hpos := List.count_pos_iff.mpr hp
  have hb := hw (.pipe p h) rfl
  rw [balance_pipe, hh] at hb
  cases hq : s.procs.get p
  case none =>
    simp only [hq, Option.elim_none, Option.elim_some] at hb
    omega
  case some w =>
    simp only [hq, Option.elim_some] at hb
    by_cases hn : w.state = .waits4pipe ∧ h = w.waitsPipe
    case pos =>
      rw [if_pos hn] at hb
      exact ⟨by omega, w, rfl, hn.1, hn.2.symm⟩
    case neg =>
      rw [if_neg hn] at hb
      omega

theorem State.Waits.nodup {v : Handle} (hw : s.Waits) (hh : s.handles.get h = some v) :
    v.queued.Nodup :=
  List.nodup_iff_count_le_one.mpr fun p => by
    by_cases hp : p ∈ v.queued
    case pos => exact (hw.queued hh hp).1.le
    case neg => simp [List.count_eq_zero_of_not_mem hp]

end Waits

section Wake

variable {s : State} {p : Pid} {v w : Proc}

theorem did_setProc (hs : Ok s) (hv : s.procs.get p = some v) (hk : v.Kept w) :
    Did s (w.weight p - v.weight p) (s.withProcs (s.procs.set p w)) where
  kept    := kept_setProc hv hk
  ok      := ok_setProc hs hv (by rw [hk.eq])
  balance := balance_setProc hv
  neat    := neat_of_eq rfl rfl rfl

theorem did_rax (ret : Int) (hs : Ok s) (hv : s.procs.get p = some v) :
    Did s 0 (s.withProcs (s.procs.set p { v with rax := ret })) := by
  have h := did_setProc (w := { v with rax := ret }) hs hv ⟨rfl, .inl rfl⟩
  exact h.congr (sub_self _)

theorem did_refcount {n : ℕ} (hs : Ok s) (hv : s.procs.get p = some v) :
    Did s 0 (s.withProcs (s.procs.set p { v with refcount := n })) := by
  have h := did_setProc (w := { v with refcount := n }) hs hv ⟨rfl, .inl rfl⟩
  exact h.congr (sub_self _)

theorem Proc.weight_wake (ha : v.state.active) :
    ({ v with state := .running } : Proc).weight p - v.weight p = -v.waits p := by
  have hr : ({ v with state := .running } : Proc).waits p = 0 := rfl
  simp only [Proc.weight, hr, ha, show PState.running.active = true from rfl, if_true]
  abel

-- The states in which a process waits for others to do something.
def PState.patient : PState → Bool
  | .waits4fs | .waits4request | .waits4pipe => true
  | _                                        => false

theorem did_wake (hs : Ok s) (hv : s.procs.get p = some v) (hw : v.state.patient) :
    Did s (-v.waits p) (s.withProcs (s.procs.set p { v with state := .running })) := by
  have hst : v.state = .waits4fs ∨ v.state = .waits4request ∨ v.state = .waits4pipe := by
    cases h : v.state <;> simp [PState.patient, h] at hw ⊢
  have ha : v.state.active := by
    obtain h | h | h := hst <;> rw [h] <;> rfl
  have h := did_setProc (w := { v with state := .running }) hs hv ⟨rfl, .inr ⟨rfl, hst⟩⟩
  exact h.congr (Proc.weight_wake ha)

-- A process gets its result and continues.
theorem wake_did (ret : Int) (hs : Ok s) (hv : s.procs.get p = some v) (hw : v.state.patient) :
    wlp (do regsSavereturn p ret; procSetstate p .running) (fun _ t => Did s (-v.waits p) t) s := by
  simp only [wlp_bind, wlp_regsSavereturn, wlp_procSetstate_running, State.withProcs_procs]
  intro v' hv' w hw' _
  obtain rfl := Option.some_inj.mp (hv.symm.trans hv')
  rw [Heap.get_set_self hv, Option.some_inj] at hw'
  subst hw'
  have h := did_rax ret hs hv
  have hw := did_wake h.ok (Heap.get_set_self hv) hw
  exact (h.trans hw).congr (zero_add _)

end Wake

section Refdown

variable {s : State} {b : Bid} {v : VfsBackend}

theorem VfsBackend.Kept.stuck {w : VfsBackend} (hk : v.Kept w) (hqueue : w.queue = v.queue ∨ v.provhcnt = 0 ∧ w.queue = [])
    (hw : w.Stuck) : v.Stuck := by
  obtain ⟨hp, hq⟩ := hw
  obtain h | h := hqueue
  · exact ⟨hk.provhcnt ▸ hp, h ▸ hq⟩
  · exact absurd h.2 hq

theorem doing_setBackend {w : VfsBackend} (hs : Ok s) (hv : s.backends.get b = some v) (hk : v.Kept w)
    (hqueue : w.queue = v.queue ∨ v.provhcnt = 0 ∧ w.queue = [])
    (hacc : w.queue ≠ [] → w.access = .user none) (hidle : w.usehcnt = 0 → w.access.handler = none) :
    Doing (.inl b) s (w.weight b - v.weight b) (s.withBackends (s.backends.set b w)) where
  kept    := kept_setBackend hv hk
  ok      := by
    refine ok_setBackend hs hv (fun hp => ?_) ?_ hacc hidle
    · rw [hk.provhcnt] at hp
      exact ⟨hp, hqueue.resolve_right fun h => hp h.1⟩
    · obtain h | ⟨-, h⟩ := hqueue
      · rw [h]
        exact List.Subset.refl _
      · rw [h]
        exact List.nil_subset _
  balance := balance_setBackend hv
  neat    := neatBut_setBackend hv (hk.stuck hqueue)

theorem did_setBackend {w : VfsBackend} (hs : Ok s) (hv : s.backends.get b = some v) (hk : v.Kept w)
    (hqueue : w.queue = v.queue ∨ v.provhcnt = 0 ∧ w.queue = [])
    (hacc : w.queue ≠ [] → w.access = .user none) (hidle : w.usehcnt = 0 → w.access.handler = none)
    (hlost : w.Lost → v.Lost) : Did s (w.weight b - v.weight b) (s.withBackends (s.backends.set b w)) :=
  have h := doing_setBackend hs hv hk hqueue hacc hidle
  ⟨h.kept, h.ok, h.balance, neat_setBackend hv hlost (hk.stuck hqueue)⟩

-- A backend does not stay without a reference.
theorem vfsBackendTryfree_did (hs : Ok s) :
    wlp (vfsBackendTryfree b) (fun _ t => Did s 0 t ∧ t.Needs (.inl b)) s := by
  simp only [vfsBackendTryfree, wlp_bind, wlp_getBackend]
  intro v hv
  rw [wlp_ite]
  refine ⟨fun hc => ?_, fun hc => wlp_pure.mpr ⟨.refl hs, fun w hw => ?_⟩⟩
  · simp only [wlp_bind, wlp_kassert, wlp_freeBackend]
    intro hq w hw
    obtain rfl := Option.some_inj.mp (hv.symm.trans hw)
    refine ⟨⟨kept_freeBackend, ok_freeBackend hs, ?_, neat_freeBackend⟩, fun w hw => ?_⟩
    · rw [balance_freeBackend hv, VfsBackend.weight, hc.1, hc.2, hq, hs.reqs.idle b v hv hc.1]
      simp
    · rw [State.withBackends_backends, Heap.get_free_self] at hw
      contradiction
  · rwa [← Option.some_inj.mp (hv.symm.trans hw)]

-- One use less. If it was the last one, then there is no handler anymore.
theorem doing_useBackend {w : VfsBackend} (hs : Ok s) (hv : s.backends.get b = some v)
    (h0 : 0 < v.usehcnt) (hw : w = { v with usehcnt := v.usehcnt - 1, access := w.access })
    (ha : w.access = v.access ∧ (w.usehcnt = 0 → v.access.handler = none) ∨
      w.access = .user none ∧ v.isUser) :
    Doing (.inl b) s (optRef (.handler · b) v.access.handler - optRef (.handler · b) w.access.handler -
      one (.use b)) (s.withBackends (s.backends.set b w)) := by
  have hprov : w.provhcnt = v.provhcnt := by rw [hw]
  have hqueue : w.queue = v.queue := by rw [hw]
  have huse : w.usehcnt + 1 = v.usehcnt := by rw [hw]; exact Nat.sub_add_cancel h0
  have huser : w.isUser = v.isUser := by
    obtain ⟨ha, -⟩ | ⟨ha, hu⟩ := ha
    · rw [VfsBackend.isUser, ha, VfsBackend.isUser]
    · rw [VfsBackend.isUser, ha, hu]
  have hk : v.Kept w := ⟨hprov, huser, ha.imp (fun h => by rw [h.1]) fun h => by rw [h.1]; rfl⟩
  have hexcl (hn : w.queue ≠ []) : w.access = .user none := by
    have := hs.reqs.excl b v hv (hqueue ▸ hn)
    obtain ⟨ha, -⟩ | ⟨ha, -⟩ := ha
    · rw [ha, this]
    · exact ha
  have hidle (hz : w.usehcnt = 0) : w.access.handler = none := by
    obtain ⟨ha, hh⟩ | ⟨ha, -⟩ := ha
    · rw [ha, hh hz]
    · rw [ha]
      rfl
  refine (doing_setBackend hs hv hk (.inl hqueue) hexcl hidle).congr ?_
  rw [VfsBackend.weight, VfsBackend.weight, hprov, hqueue, huser, ← huse, succ_nsmul]
  abel

theorem vfsBackendRefdownUse_did (hs : Ok s) (hw : s.Waits) :
    wlp (vfsBackendRefdownUse b) (fun _ t => Did s (-one (.use b)) t) s := by
  simp only [vfsBackendRefdownUse, wlp_bind, wlp_getBackend, wlp_kassert, wlp_setBackend]
  intro v hv h0
  have hfree {t : State} (h : Doing (.inl b) s (-one (.use b)) t) :
      wlp (vfsBackendTryfree b) (fun _ t => Did s (-one (.use b)) t) t :=
    wlp_post (vfsBackendTryfree_did h.ok) fun _ _ ht => ((h.trans ht.1).congr (add_zero _)).done ht.2
  obtain ⟨u, hu⟩ : ∃ u : VfsBackend, u = { v with usehcnt := v.usehcnt - 1 } := ⟨_, rfl⟩
  have hua : u.access = v.access := by rw [hu]
  have hset : (s.withBackends (s.backends.set b u)).backends.get b = some u := Heap.get_set_self hv
  -- Without a handler, nobody has to be woken up.
  have hnone (hh : u.usehcnt = 0 → v.access.handler = none) :
      Doing (.inl b) s (-one (.use b)) (s.withBackends (s.backends.set b u)) := by
    refine (doing_useBackend hs hv h0 (by rw [hu]) (.inl ⟨hua, hh⟩)).congr ?_
    rw [hua]
    abel
  rw [← hu, wlp_ite, wlp_bind]
  refine ⟨fun hz => ?_, fun hz => hfree (hnone fun h => absurd (by rwa [hu] at h) hz)⟩
  simp only [vfsBackendUnused, wlp_bind, wlp_getBackend, hset, Option.some_inj]
  rintro _ rfl
  rw [hua]
  cases hacc : v.access
  case kern o =>
    cases o
    case none   => exact wlp_pure.mpr (hfree (hnone fun _ => by rw [hacc]; rfl))
    case some p =>
      have h := hnone fun _ => by rw [hacc]; rfl
      simp only [procfsCleanup, wlp_updProc]
      intro w hw
      exact hfree ((h.trans (did_refcount h.ok hw)).congr (add_zero _))
  case user o =>
    cases o
    case none   => exact wlp_pure.mpr (hfree (hnone fun _ => by rw [hacc]; rfl))
    case some p =>
      obtain ⟨w, hp, hst, hc⟩ := hw.handler hv (by rw [hacc]; rfl)
      have h := doing_useBackend (w := { u with access := .user none }) hs hv h0 (by rw [hu])
        (.inr ⟨rfl, by rw [VfsBackend.isUser, hacc]⟩)
      have hd : -w.waits p = -one (.handler p b) := by rw [Proc.waits, hst, hc]; rfl
      simp only [wlp_bind, wlp_setBackend, wlp_getProc, wlp_kassert, State.withBackends_backends,
        Heap.set_set]
      intro _ _ _
      have hwake := wake_did (-EPIPE) h.ok (v := w) hp (by rw [hst]; rfl)
      simp only [wlp_bind] at hwake
      refine wlp_post hwake fun _ t ht => wlp_post ht fun _ t ht => hfree ((h.trans ht).congr ?_)
      rw [hd, hacc]
      simp only [Access.handler, optRef_some, optRef_none]
      abel

theorem vfsreqRefdown_did {o : Option Bid} (hs : Ok s) (hw : s.Waits) :
    wlp (vfsreqRefdown o) (fun _ t => Did s (-optRef .use o) t) s := by
  cases o
  case none   => exact wlp_pure.mpr ((Did.refl hs).congr neg_zero.symm)
  case some b => exact vfsBackendRefdownUse_did hs hw

end Refdown

-- The queues stay as they are, and the requests and the mounts are not touched.
structure Still (s t : State) : Prop where
  backends : s.backends.Grows (fun v w => w.queue = v.queue) t.backends
  reqs     : t.reqs = s.reqs
  mounts   : t.mounts = s.mounts

instance : IsPreorder State Still where
  refl _            := ⟨.refl fun _ => rfl, rfl, rfl⟩
  trans _ _ _ h₁ h₂ :=
    ⟨h₁.backends.trans (fun _ _ _ h h' => h'.trans h) h₂.backends, h₂.reqs.trans h₁.reqs, h₂.mounts.trans h₁.mounts⟩

section Still

variable {s : State} {b : Bid} {v w : VfsBackend} {p : Pid}

theorem still_setBackend (hv : s.backends.get b = some v) (hq : w.queue = v.queue) :
    Still s (s.withBackends (s.backends.set b w)) :=
  ⟨.set (fun _ => rfl) hv hq, rfl, rfl⟩

theorem updProc_still {f : Proc → Proc} : Respects Still (updProc p f) := by
  intro s
  rw [wlp_updProc]
  exact fun _ _ => ⟨.refl fun _ => rfl, rfl, rfl⟩

theorem procSetstate_running_still : Respects Still (procSetstate p .running) := by
  intro s
  rw [wlp_procSetstate_running]
  exact fun _ _ _ => ⟨.refl fun _ => rfl, rfl, rfl⟩

theorem vfsBackendUnused_still : Respects Still (vfsBackendUnused b) := by
  intro s
  simp only [vfsBackendUnused, wlp_bind, wlp_getBackend]
  intro v hv
  obtain ⟨handler, ha⟩ | ⟨procfs, ha⟩ : (∃ handler, v.access = .user handler) ∨
      ∃ procfs, v.access = .kern procfs := by
    cases v.access
    case user handler => exact .inl ⟨handler, rfl⟩
    case kern procfs  => exact .inr ⟨procfs, rfl⟩
  · rw [ha]
    cases handler
    case none   => exact respects_pure s
    case some p =>
      rw [wlp_bind, wlp_setBackend]
      have h := still_setBackend (w := { v with access := .user none }) hv rfl
      refine wlp_of_respects h ?_
      exact .bind getProc_respects fun _ => .bind kassert_respects fun _ =>
        .bind updProc_still fun _ => procSetstate_running_still
  · rw [ha]
    cases procfs
    case none   => exact respects_pure s
    case some p => exact updProc_still s

theorem vfsBackendTryfree_still : Respects Still (vfsBackendTryfree b) := by
  refine .bind getBackend_respects fun v => .ite (.bind kassert_respects fun _ => ?_) respects_pure
  intro s
  rw [wlp_freeBackend]
  exact fun _ _ => ⟨.free fun _ => rfl, rfl, rfl⟩

theorem vfsBackendRefdownUse_still : Respects Still (vfsBackendRefdownUse b) := by
  intro s
  simp only [vfsBackendRefdownUse, wlp_bind, wlp_getBackend, wlp_kassert, wlp_setBackend]
  intro v hv _
  have h := still_setBackend (w := { v with usehcnt := v.usehcnt - 1 }) hv rfl
  refine wlp_of_respects h (.ite ?_ vfsBackendTryfree_still)
  exact .bind vfsBackendUnused_still fun _ => vfsBackendTryfree_still

theorem vfsreqRefdown_still {o : Option Bid} : Respects Still (vfsreqRefdown o) := by
  cases o
  case none   => exact respects_pure
  case some b => exact vfsBackendRefdownUse_still

end Still

section Release

variable {s : State} {r : Rid} {ret : Int} {w : VfsReq}

-- What remains of a request when it is finished: the use of its backend, and its caller who waits.
def VfsReq.rest (r : Rid) (w : VfsReq) : Balance :=
  optRef .use w.backend + optRef (.caller · r) w.caller

theorem doing_finishReq {B : Heap (List UInt8)} (hs : Ok s) (hr : s.reqs.get r = some w)
    (hp : w.pending) (hsize : B.size = s.bufs.size)
    (hbufs : ∀ n, s.bufs.get n = none → B.get n = none)
    (hfree : ∀ n, w.input.buf = some n → B.get n = none)
    (hB : B.total (fun n _ => one (.buf n)) - s.bufs.total (fun n _ => one (.buf n)) =
      -optRef .buf w.input.buf) :
    Doing (.inr r) s (w.rest r - one (.place r))
      (((s.withReqs (s.reqs.set r { w with pending := false })).withLog
        (s.log ++ [.finished r])).withBufs B) where
  kept    := by
    have h := kept_setReq (w := { w with pending := false }) hr ⟨rfl, fun h => by contradiction⟩
    exact (h.trans kept_emit).trans kept_withBufs
  ok      := by
    have h := ok_finishReq (B := B) hs hr hsize hbufs hfree
    exact ok_emit (e := .finished r) h rfl
  neat    := neatBut_setReq.trans (neat_of_eq rfl rfl rfl)
  balance := by
    have h := balance_setReq (w := { w with pending := false }) hr
    have he := balance_emit (s := s.withReqs (s.reqs.set r { w with pending := false }))
      (e := .finished r)
    simp only [State.withReqs_log] at he
    rw [balance_withBufs, he, h]
    simp only [State.withLog_bufs, State.withReqs_bufs, hB, VfsReq.weight, VfsReq.rest, hp,
      Event.weight, if_true, Bool.false_eq_true, if_false]
    abel

theorem vfsreqFreeInput_did {input : VfsInput} (hs : Ok s) (hr : s.reqs.get r = some w)
    (hp : w.pending) (hi : w.input = input) :
    wlp (vfsreqFreeInput input) (fun _ t => Doing (.inr r) s (w.rest r - one (.place r)) t ∧
        t.reqs.get r = some { w with pending := false })
      ((s.withReqs (s.reqs.set r { w with pending := false })).withLog (s.log ++ [.finished r])) := by
  have hget : (s.reqs.set r { w with pending := false }).get r = some { w with pending := false } :=
    Heap.get_set_self hr
  cases input
  case user buf len =>
    have h := doing_finishReq (B := s.bufs) hs hr hp rfl (fun _ h => h) (by simp [hi, VfsInput.buf])
      (by simp [hi, VfsInput.buf])
    exact wlp_pure.mpr ⟨h, hget⟩
  case kern buf =>
    simp only [vfsreqFreeInput, wlp_freeBuf, State.withLog_bufs, State.withReqs_bufs]
    intro path hb
    refine ⟨doing_finishReq hs hr hp Heap.size_free (fun n hn => ?_) (fun n hn => ?_) ?_, hget⟩
    · rw [Heap.get_free, hn, ite_self]
    · obtain rfl : buf = n := by simpa [hi, VfsInput.buf] using hn
      exact Heap.get_free_self
    · rw [Heap.total_free hb, hi]
      simp only [VfsInput.buf, optRef_some]
      abel

theorem VfsReq.rest_waits {x : Ref} (hx : x.waits) : 0 ≤ (w.rest r - one (.place r)) x := by
  rw [VfsReq.rest, Pi.sub_apply, Pi.add_apply, optRef_apply, optRef_apply, one_apply]
  cases x <;> simp [Ref.waits] at hx ⊢
  all_goals split_ifs <;> decide

-- The request is gone after it was finished, if its caller is not there anymore.
theorem vfsreqReturn_did (hs : Ok s) (hr : ∀ w, s.reqs.get r = some w → w.pending = false ∧ w.caller = none) :
    wlp (vfsreqReturn r ret none) (fun _ t => Did s 0 t ∧ t.Needs (.inr r)) s := by
  simp only [vfsreqReturn, wlp_freeReq]
  intro w hw
  obtain ⟨hp, hc⟩ := hr w hw
  refine ⟨⟨kept_freeReq, ok_freeReq hs, ?_, neat_freeReq⟩, fun x hx => ?_⟩
  · rw [balance_freeReq hw, VfsReq.weight, hp, hc]
    simp
  · rw [State.withReqs_reqs, Heap.get_free_self] at hx
    contradiction

theorem vfsreqReturn_caller {p : Pid} {v : Proc} (hs : Ok s) (hv : s.procs.get p = some v)
    (hr : v.reqslot = some r) :
    wlp (vfsreqReturn r ret (some p)) (fun _ t => Did s (-one (.caller p r)) t) s := by
  simp only [vfsreqReturn, wlp_bind, wlp_getProc, wlp_kassert]
  intro v' hv' hst
  obtain rfl := Option.some_inj.mp (hv.symm.trans hv')
  have h := wake_did ret hs hv (by rw [hst]; rfl)
  rw [wlp_bind] at h
  refine wlp_post h fun _ t ht => wlp_post ht fun _ u hu => hu.congr ?_
  rw [Proc.waits, hst, hr]
  rfl

-- A request which is in flight.
def State.Pending (s : State) (r : Rid) : Prop :=
  ∃ w, s.reqs.get r = some w ∧ w.pending

theorem vfsreqRelease_did (hs : Ok s) (hw : s.Waits) (hp : s.Pending r) :
    wlp (vfsreqRelease r ret) (fun _ t => Did s (-one (.place r)) t) s := by
  simp only [vfsreqRelease, wlp_bind, wlp_getReq, wlp_kassert, wlp_setReq, wlp_emit]
  intro w hr _
  obtain ⟨w', hr', hpend⟩ := hp
  obtain rfl := Option.some_inj.mp (hr.symm.trans hr')
  refine wlp_post (vfsreqFreeInput_did hs hr hpend rfl) fun _ t hx => ?_
  obtain ⟨ht, hget⟩ := hx
  have htw : t.Waits := hw.step ht.balance fun x hx => VfsReq.rest_waits hx
  refine wlp_post (vfsreqRefdown_did ht.ok htw) fun _ u hu => ?_
  have hsu := ht.trans hu
  cases hc : w.caller
  case none =>
    refine wlp_post (vfsreqReturn_did hu.ok fun x hx => ?_) fun _ z hx => ?_
    · obtain ⟨y, hy, hk⟩ := hu.kept.reqs.get r (Heap.lt_size hget) x hx
      obtain rfl := Option.some_inj.mp (hget.symm.trans hy)
      exact ⟨by simpa using hk.pending, by rw [hk.eq]; exact hc⟩
    · obtain ⟨hz, hneeds⟩ := hx
      refine ((hsu.trans hz).done hneeds).congr ?_
      rw [VfsReq.rest, hc, optRef_none]
      abel
  case some p =>
    obtain ⟨v, hv, hst, hslot⟩ := hw.caller hr hpend hc
    obtain ⟨v', hv', hk⟩ := hsu.kept.procs p v hv
    refine wlp_post (vfsreqReturn_caller hu.ok hv' (by rw [hk.eq]; exact hslot)) fun _ z hz => ?_
    -- The request stays in the slot of its caller.
    have hneeds : z.Needs (.inr r) := fun x hx hl => by
      obtain ⟨y, hy, hk⟩ := (hu.kept.trans hz.kept).reqs.get r (Heap.lt_size hget) x hx
      obtain rfl := Option.some_inj.mp (hget.symm.trans hy)
      have hcaller : x.caller = w.caller := by rw [hk.eq]
      rw [VfsReq.Lost, hcaller, hc] at hl
      exact Option.some_ne_none _ hl.2
    refine ((hsu.trans hz).done hneeds).congr ?_
    rw [VfsReq.rest, hc, optRef_some]
    abel

-- The other requests are not affected, and the queues are not either.
structure Alone (r : Rid) (s t : State) : Prop where
  backends : s.backends.Grows (fun v w => w.queue = v.queue) t.backends
  reqs     : ∀ q, q ≠ r → t.reqs.get q = s.reqs.get q

instance (r : Rid) : IsPreorder State (Alone r) where
  refl _            := ⟨.refl fun _ => rfl, fun _ _ => rfl⟩
  trans _ _ _ h₁ h₂ :=
    ⟨h₁.backends.trans (fun _ _ _ h h' => h'.trans h) h₂.backends,
      fun q hq => (h₂.reqs q hq).trans (h₁.reqs q hq)⟩

theorem respects_alone {x : K α} (h : Respects Still x) : Respects (Alone r) x :=
  fun s => wlp_post (h s) fun _ _ ht => ⟨ht.backends, fun _ _ => by rw [ht.reqs]⟩

theorem vfsreqRelease_alone : Respects (Alone r) (vfsreqRelease r ret) := by
  have hset (v : VfsReq) : Respects (Alone r) (setReq r v) := by
    intro s
    rw [wlp_setReq]
    exact ⟨.refl fun _ => rfl, fun q hq => Heap.get_set_ne hq⟩
  have hemit (e : Event) : Respects (Alone r) (emit e) := by
    intro s
    rw [wlp_emit]
    exact ⟨.refl fun _ => rfl, fun q hq => rfl⟩
  have hinput (i : VfsInput) : Respects (Alone r) (vfsreqFreeInput i) := by
    cases i
    case user => exact respects_pure
    case kern =>
      intro s
      rw [vfsreqFreeInput, wlp_freeBuf]
      exact fun _ _ => ⟨.refl fun _ => rfl, fun q hq => rfl⟩
  have hreturn (p : Option Pid) : Respects (Alone r) (vfsreqReturn r ret p) := by
    cases p
    case none =>
      intro s
      rw [vfsreqReturn, wlp_freeReq]
      exact fun _ _ => ⟨.refl fun _ => rfl, fun q hq => Heap.get_free_ne hq⟩
    case some p =>
      exact .bind getProc_respects fun _ => .bind kassert_respects fun _ =>
        .bind (respects_alone updProc_still) fun _ => respects_alone procSetstate_running_still
  exact .bind getReq_respects fun req => .bind kassert_respects fun _ => .bind (hset _) fun _ =>
    .bind (hemit _) fun _ => .bind (hinput _) fun _ =>
    .bind (respects_alone vfsreqRefdown_still) fun _ => hreturn _

end Release

section Orphan

variable {s : State} {b : Bid} {v : VfsBackend}

-- Whatever is in a queue is in flight, and it is there only once.
theorem State.Placed.queued {r : Rid} (hp : s.Placed) (hv : s.backends.get b = some v)
    (hr : r ∈ v.queue) : s.Pending r ∧ v.queue.count r = 1 := by
  have h := hp r
  have hpos := List.count_pos_iff.mpr hr
  have hh : 0 ≤ s.handles.total (fun _ v => if v.req = some r then (1 : ℤ) else 0) :=
    Heap.total_nonneg fun _ _ => by split_ifs <;> decide
  have hb : (v.queue.count r : ℤ) ≤ s.backends.total fun _ v => (v.queue.count r : ℤ) :=
    Heap.le_total (w := fun _ v => (v.queue.count r : ℤ)) (fun _ _ => Int.natCast_nonneg _) hv
  rw [balance_place] at h
  cases hw : s.reqs.get r
  case none =>
    simp only [hw, Option.elim_none] at h
    omega
  case some w =>
    simp only [hw, Option.elim_some] at h
    by_cases hpend : w.pending = true
    case neg =>
      rw [if_neg hpend] at h
      omega
    case pos =>
      rw [if_pos hpend] at h
      exact ⟨⟨w, hw, hpend⟩, by omega⟩

theorem State.Placed.nodup (hp : s.Placed) (hv : s.backends.get b = some v) : v.queue.Nodup :=
  List.nodup_iff_count_le_one.mpr fun r => by
    by_cases hr : r ∈ v.queue
    case pos => exact (hp.queued hv hr).2.le
    case neg => simp [List.count_eq_zero_of_not_mem hr]

def places (l : List Rid) : Balance :=
  (l.map fun r => one (.place r)).sum

@[simp]
theorem places_cons {r : Rid} {l : List Rid} : places (r :: l) = one (.place r) + places l :=
  List.sum_cons

theorem places_waits {l : List Rid} {x : Ref} (hx : x.waits) : places l x = 0 :=
  sum_one_ne fun r h => by
    rw [h] at hx
    contradiction

theorem vfsBackendOrphan_did (hs : Ok s) (hw : s.Waits) (hpl : s.Placed)
    (hv : s.backends.get b = some v) (hp : v.provhcnt = 0) :
    wlp (vfsBackendOrphan b v.queue) (fun _ t => Did s 0 t ∧ ∀ u, t.backends.get b = some u → ¬u.Stuck) s := by
  simp only [vfsBackendOrphan, wlp_bind, wlp_updBackend]
  -- Those which are left were not touched so far.
  let I (l : List Rid) (t : State) : Prop :=
    Did s (places l - places v.queue) t ∧ l.Nodup ∧ (∀ r ∈ l, s.Pending r ∧ t.reqs.get r = s.reqs.get r) ∧
      s.backends.Grows (fun v w => w.queue = v.queue) t.backends
  have hstart : I v.queue s :=
    ⟨(Did.refl hs).congr (sub_self _).symm, hpl.nodup hv, fun r hr => ⟨(hpl.queued hv hr).1, rfl⟩,
      .refl fun _ => rfl⟩
  refine wlp_post (wlp_forM I ?_ hstart) fun _ t hx u hu => ?_
  · rintro r l t ⟨ht, hnd, hl, hback⟩
    obtain ⟨⟨w, hw', hpend⟩, heq⟩ := hl r (List.mem_cons_self ..)
    have htw : t.Waits := ht.waits hw fun x hx => by
      rw [Pi.sub_apply, places_waits hx, places_waits hx, sub_zero]
    refine wlp_post (wlp_and (vfsreqRelease_did ht.ok htw ⟨w, heq ▸ hw', hpend⟩)
      (vfsreqRelease_alone t)) fun _ u hx => ?_
    obtain ⟨hu, ha⟩ := hx
    refine ⟨?_, ?_, ?_, ?_⟩
    · refine (ht.trans hu).congr ?_
      rw [places_cons]
      abel
    · exact (List.nodup_cons.mp hnd).2
    · intro q hq
      have hne : q ≠ r := fun h => (List.nodup_cons.mp hnd).1 (h ▸ hq)
      obtain ⟨hq', heq⟩ := hl q (List.mem_cons_of_mem _ hq)
      exact ⟨hq', (ha.reqs q hne).trans heq⟩
    · exact hback.trans (fun _ _ _ h h' => h'.trans h) ha.backends
  · obtain ⟨ht, _, _, hback⟩ := hx
    obtain ⟨v', hv', hq⟩ := hback.get b (Heap.lt_size hv) u hu
    obtain rfl := Option.some_inj.mp (hv.symm.trans hv')
    obtain ⟨v', hv', hk⟩ := ht.kept.backends.get b (Heap.lt_size hv) u hu
    obtain rfl := Option.some_inj.mp (hv.symm.trans hv')
    have hempty := did_setBackend (w := { u with queue := [] }) ht.ok hu ⟨rfl, rfl, .inl rfl⟩
      (.inr ⟨by rw [hk.provhcnt, hp], rfl⟩) (fun h => absurd rfl h) (ht.ok.reqs.idle b u hu) id
    refine ⟨(ht.trans hempty).congr ?_, fun x hx hstuck => ?_⟩
    case refine_2 =>
      rw [State.withBackends_backends, Heap.get_set_self hu, Option.some_inj] at hx
      exact hstuck.2 (hx ▸ rfl)
    have huser : ({ u with queue := [] } : VfsBackend).isUser = u.isUser := rfl
    simp only [VfsBackend.weight, huser, hq, places, List.map_nil, List.sum_nil]
    abel

-- One provider less.
def State.leave (s : State) (b : Bid) (v : VfsBackend) : State :=
  s.withBackends (s.backends.set b { v with provhcnt := v.provhcnt - 1 })

theorem leave_balance (hv : s.backends.get b = some v) (h0 : 0 < v.provhcnt) (hu : v.isUser) :
    (s.leave b v).balance = s.balance - one (.prov b) := by
  have huser : ({ v with provhcnt := v.provhcnt - 1 } : VfsBackend).isUser = true := hu
  obtain ⟨n, hn⟩ : ∃ n, v.provhcnt = n + 1 := ⟨v.provhcnt - 1, by omega⟩
  rw [State.leave, balance_setBackend hv, VfsBackend.weight, VfsBackend.weight, huser, hu, if_pos rfl,
    if_pos rfl, hn, Nat.add_sub_cancel, succ_nsmul]
  abel

theorem leave_ok (hs : Ok s) (hv : s.backends.get b = some v) (h0 : 0 < v.provhcnt) :
    Ok (s.leave b v) :=
  ok_setBackend hs hv (fun _ => ⟨h0.ne', rfl⟩) (List.Subset.refl _) (hs.reqs.excl b v hv)
    (hs.reqs.idle b v hv)

-- Nothing waits for a backend which lost its last provider.
theorem leave_neat {t : State} (h : Did (s.leave b v) 0 t) (hb : ∀ u, t.backends.get b = some u → ¬u.Stuck) :
    NeatBut (.inl b) s t := by
  have hget {c : Bid} (hc : c ≠ b) : (s.leave b v).backends.get c = s.backends.get c := Heap.get_set_ne hc
  refine ⟨fun c w hc hw hl => ?_, h.neat.mounts, fun r w _ => h.neat.reqs r w, fun c w hw hstuck => ?_⟩
  · obtain ⟨u, hu, hl⟩ := h.neat.backends c w hw hl
    exact ⟨u, hget (fun h => hc (h ▸ rfl)) ▸ hu, hl⟩
  · by_cases hc : c = b
    case pos => exact absurd hstuck (hb w (hc ▸ hw))
    case neg =>
      obtain ⟨u, hu, hstuck⟩ := h.neat.queues c w hw hstuck
      exact ⟨u, hget hc ▸ hu, hstuck⟩

theorem vfsBackendRefdownProv_did (hs : Ok s) (hw : s.Waits) (hpl : s.Placed)
    (hv : s.backends.get b = some v) (hu : v.isUser) :
    wlp (vfsBackendRefdownProv b) (fun _ t => (0 < v.provhcnt ∧ Did (s.leave b v) 0 t) ∧ Neat s t) s := by
  simp only [vfsBackendRefdownProv, wlp_bind, wlp_getBackend, wlp_kassert, wlp_setBackend]
  intro v' hv' h0
  obtain rfl := Option.some_inj.mp (hv.symm.trans hv')
  have hok := leave_ok hs hv h0
  have hbal := leave_balance hv h0 hu
  have hfree {t : State} (h : Did (s.leave b v) 0 t) (hb : ∀ u, t.backends.get b = some u → ¬u.Stuck) :
      wlp (vfsBackendTryfree b) (fun _ t => (0 < v.provhcnt ∧ Did (s.leave b v) 0 t) ∧ Neat s t) t :=
    wlp_post (vfsBackendTryfree_did h.ok) fun _ _ ht => ⟨⟨h0, (h.trans ht.1).congr (add_zero _)⟩,
      ((leave_neat h hb).trans ht.1.neat).neat ht.2⟩
  have hwaits : (s.leave b v).Waits := by
    intro x hx
    have := hw x hx
    rw [hbal, Pi.sub_apply, one_apply]
    cases x <;> simp [Ref.waits] at hx ⊢ <;> exact this
  have hplaced : (s.leave b v).Placed := by
    intro r
    have := hpl r
    rw [hbal, Pi.sub_apply, one_apply]
    simpa using this
  have hget : (s.leave b v).backends.get b = some { v with provhcnt := v.provhcnt - 1 } :=
    Heap.get_set_self hv
  rw [wlp_ite, wlp_bind]
  refine ⟨fun hz => ?_, fun hn => hfree (.refl hok) fun u hu hstuck => ?_⟩
  · have h := vfsBackendOrphan_did hok hwaits hplaced hget hz
    exact wlp_post h fun _ _ ht => hfree ht.1 ht.2
  · obtain rfl := Option.some_inj.mp (hget.symm.trans hu)
    exact hn hstuck.1

end Orphan
end Camellia
