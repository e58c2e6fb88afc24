import Camellia.Kernel.Handles

namespace Camellia

-- What the system calls on files do to the references.

section Store

variable {s : State} {d : Balance} {p : Pid} {r : Rid} {v : Proc} {w x : VfsReq} {env : Env}

theorem Holding.setProc {v w : Proc} (hs : Holding s d) (hv : s.procs.get p = some v)
    (hsince : w.waitsSince = v.waitsSince) (ha : w.state.active = false → w.mount = none ∧ w.controlled = none) :
    Holding (s.withProcs (s.procs.set p w)) (d + (w.weight p - v.weight p)) := by
  obtain ⟨k, hk⟩ := hs.balance
  refine ⟨ok_setProc hs.ok hv hsince, hs.tidy.setProc hv ha, k, ?_⟩
  rw [balance_setProc hv, hk]
  abel

-- The caller of a request waits for it.
def State.await (s : State) (p : Pid) (v : Proc) (r : Rid) : State :=
  s.withProcs (s.procs.set p { v with state := .waits4fs, reqslot := some r })

theorem Holding.await (hs : Holding s d) (hv : s.procs.get p = some v) (hrun : v.state = .running) :
    Holding (s.await p v r)
      (d + one (.caller p r) + one (.slot p r) - optRef (.slot p) v.reqslot) := by
  refine (hs.setProc (w := { v with state := .waits4fs, reqslot := some r }) hv rfl fun h => by contradiction).congr ?_
  have hidle : v.waits p = 0 := Proc.waits_idle (by rw [hrun]; rfl)
  rw [Proc.weight, Proc.weight, hidle, hrun, Proc.waits]
  simp only [PState.active, if_true, optRef_some]
  abel

-- A request which is in flight, and whose caller is there.
theorem VfsReq.weight_sent (hpend : w.pending) (hc : w.caller = some p) :
    w.weight r = one (.place r) - one (.life r) - optRef .use w.backend - optRef .buf w.input.buf -
      one (.caller p r) - one (.slot p r) := by
  rw [VfsReq.weight, if_pos hpend, hc, optRef_some, optRef_some]

-- The process makes its first request.
theorem Holding.store (hs : Holding s (optRef .buf w.input.buf)) (hv : s.procs.get p = some v)
    (hrun : v.state = .running) (hslot : v.reqslot = none) (hc : w.caller = some p) (hpend : w.pending)
    (hbuf : ∀ n, w.input.buf = some n → n < s.bufs.size) (hopen : w.type = .OPEN → w.input.buf ≠ none) :
    Holding (((s.await p v s.reqs.size).withReqs (s.reqs.alloc w)).withLog (s.log ++ [.created s.reqs.size w.message]))
      (one (.place s.reqs.size) - optRef .use w.backend) := by
  have h := hs.await (r := s.reqs.size) hv hrun
  have hcached := Heap.forall_alloc (VfsReq.not_lost hpend) fun q x _ => h.tidy.cached q x
  obtain ⟨k, hk⟩ := h.balance
  refine ⟨?_, { h.tidy with cached := hcached }, k, ?_⟩
  · refine ok_allocReq (s := s.await p v s.reqs.size) h.ok ⟨fun n hn => ⟨hbuf n hn, fun hp => ?_⟩, hopen, fun _ => ?_⟩
    · rw [hp] at hpend
      contradiction
    · exact List.mem_append_right _ (List.mem_singleton_self _)
  · have hreq := balance_allocReq (s := s.await p v s.reqs.size) (v := w)
    refine balance_emit.trans ?_
    change ((s.await p v s.reqs.size).withReqs ((s.await p v s.reqs.size).reqs.alloc w)).balance + _ = _
    rw [hreq, hk, hslot, VfsReq.weight_sent hpend hc, Event.weight, optRef_none]
    change _ + (one (.place s.reqs.size) - one (.life s.reqs.size) - _ - _ - one (.caller p s.reqs.size) -
      one (.slot p s.reqs.size)) + _ = _
    abel

-- What the last request has left behind in the slot of the process.
theorem Holding.slot (hs : Holding s d) (hv : s.procs.get p = some v) (hrun : v.state = .running)
    (hslot : v.reqslot = some r) (hds : d (.slot p r) = 0) (hdc : d (.caller p r) = 0) :
    ∃ x, s.reqs.get r = some x ∧ x.pending = false ∧ x.caller = some p := by
  have hs₁ := hs.apply (x := .slot p r) (by simp)
  have hs₂ := hs.apply (x := .caller p r) (by simp)
  rw [hds, balance_slot, hv] at hs₁
  rw [hdc, balance_caller, hv] at hs₂
  cases hr : s.reqs.get r
  case none => simp [hr, hrun, hslot, PState.active] at hs₁
  case some x =>
    have hcaller : x.caller = some p := by
      by_contra hn
      simp [hr, hrun, hslot, hn, PState.active] at hs₁
    refine ⟨x, rfl, ?_, hcaller⟩
    by_contra hn
    simp [hr, hrun, hcaller, hn] at hs₂

-- The process makes another request.
theorem Holding.reuse (hs : Holding s (optRef .buf w.input.buf)) (hv : s.procs.get p = some v)
    (hrun : v.state = .running) (hslot : v.reqslot = some r) (hc : w.caller = some p) (hpend : w.pending)
    (hbuf : ∀ n, w.input.buf = some n → n < s.bufs.size) (hopen : w.type = .OPEN → w.input.buf ≠ none) :
    Holding (((s.await p v r).withReqs (s.reqs.set r w)).withLog (s.log ++ [.created r w.message]))
      (one (.place r) - optRef .use w.backend) := by
  have hbufs (x : Ref) (hx : ∀ n, x ≠ .buf n) : optRef Ref.buf w.input.buf x = 0 := by
    rw [optRef_apply, if_neg]
    rintro ⟨n, -, h⟩
    exact hx n h
  obtain ⟨x, hr, hx, hxc⟩ := hs.slot hv hrun hslot (hbufs _ (by simp)) (hbufs _ (by simp))
  have hsane := hs.sane fun _ _ => optRef_nonneg
  have h := hs.await (r := r) hv hrun
  have hcached := Heap.forall_set hr (VfsReq.not_lost hpend) fun q x _ => h.tidy.cached q x
  obtain ⟨k, hk⟩ := h.balance
  refine ⟨?_, { h.tidy with cached := hcached }, k, ?_⟩
  · refine ok_reuseReq (s := s.await p v r) h.ok hr ⟨fun n hn => ⟨hbuf n hn, fun hp => ?_⟩, hopen, fun _ => ?_⟩ ?_
    · rw [hp] at hpend
      contradiction
    · exact List.mem_append_right _ (List.mem_singleton_self _)
    · intro b y hy hq
      obtain ⟨⟨z, hz, hzp⟩, -⟩ := hsane.placed.queued hy hq
      obtain rfl := Option.some_inj.mp (hr.symm.trans hz)
      rw [hx] at hzp
      contradiction
  · have hreq := balance_setReq (s := s.await p v r) (w := w) hr
    refine balance_emit.trans ?_
    change ((s.await p v r).withReqs ((s.await p v r).reqs.set r w)).balance + _ = _
    have hold : x.weight r = -one (.slot p r) := by
      rw [VfsReq.weight, hx, hxc]
      simp
    rw [hreq, hk, hslot, VfsReq.weight_sent hpend hc, hold, Event.weight, optRef_some]
    abel

end Store

section Create

variable {s : State} {p : Pid} {w : VfsReq} {env : Env}

-- A request of a process gets to its driver.
theorem vfsreqCreate_rest (hs : Holding s (optRef .buf w.input.buf)) (hc : w.caller = some p) (hpend : w.pending)
    (hbuf : ∀ n, w.input.buf = some n → n < s.bufs.size) (hopen : w.type = .OPEN → w.input.buf ≠ none)
    (hm : ∀ b, w.backend = some b → (w.type = .OPEN → ¬openInvalid w.flags) → Sendable s b w) :
    wlp (vfsreqCreate env (vfsreqFinishShort env) w) (fun _ t => Rest t) s := by
  -- It is sent after it was stored.
  have hsend (r : Rid) (t : State) (ht : Holding t (one (.place r) - optRef .use w.backend)) (hr : t.reqs.get r = some w)
      (hl : t.log = s.log ++ [.created r w.message]) (hh : t.handles = s.handles) :
      wlp (vfsreqSend env (vfsreqFinishShort env) r w) (fun _ t => Rest t) t := by
    have hsane : Sane t := ht.sane fun x hx => by
      rw [Pi.sub_apply, optRef_firm (fun _ => rfl) hx, sub_zero]
      exact one_nonneg
    refine wlp_post (vfsreqSend_did vfsreqFinishShort_finishes hsane hr hpend fun b hb ho => (hm b hb ho).created hl hh)
      fun _ u hu => ht.rest (hu.1.congr (neg_sub ..).symm)
  rw [vfsreqCreate_eq, vfsreqStore, hc]
  simp only [wlp_bind]
  rw [wlp_procSetstate_waiting rfl]
  intro v hv hrun
  simp only [wlp_getProc]
  intro v' hv'
  obtain rfl := Option.some_inj.mp ((Heap.get_set_self hv).symm.trans hv')
  cases hslot : v.reqslot
  case none =>
    simp only [wlp_bind, wlp_allocReq, wlp_updProc, wlp_pure, wlp_emit]
    intro v' hv'
    obtain rfl := Option.some_inj.mp ((Heap.get_set_self hv).symm.trans hv')
    have h := hs.store hv hrun hslot hc hpend hbuf hopen
    simp only [State.withReqs_procs, State.withProcs_procs, Heap.set_set]
    exact hsend _ _ h Heap.get_alloc_self rfl rfl
  case some r =>
    simp only [wlp_bind, wlp_discard, wlp_getReq, wlp_setReq, wlp_pure, wlp_emit]
    intro x hx
    have h := hs.reuse hv hrun hslot hc hpend hbuf hopen
    exact hsend _ _ h (Heap.get_set_self hx) rfl rfl

theorem procHandleClose_rest {hid : Int} (hs : Rest s) : wlp (procHandleClose env p hid) (fun _ t => Rest t) s :=
  wlp_post (procHandleClose_did hs.sane) fun _ _ ht => (hs.did ht).congr (zero_add 0)

theorem sysReturn_rest {ret : Int} (hs : Rest s) : wlp (sysReturn p ret) (fun _ t => Rest t) s :=
  hs.respects firm_zero sysReturn_same

theorem Holding.allocBuf {d : Balance} {path : List UInt8} (hs : Holding s d) :
    Holding (s.withBufs (s.bufs.alloc path)) (d + one (.buf s.bufs.size)) := by
  obtain ⟨k, hk⟩ := hs.balance
  refine ⟨?_, { hs.tidy with }, k, ?_⟩
  · refine ok_withReqs (R := s.reqs) hs.ok le_rfl (fun r w hw => ?_) fun _ _ _ w _ _ hw hp => ⟨w, hw, hp, rfl⟩
    have h := hs.ok.reqs.req r w hw
    refine ⟨fun n hn => ?_, h.opens, h.created⟩
    obtain ⟨hlt, hfree⟩ := h.buf n hn
    rw [State.withBufs_bufs, Heap.size_alloc, Heap.get_alloc, if_neg hlt.ne]
    exact ⟨Nat.lt_succ_of_lt hlt, hfree⟩
  · rw [balance_allocBuf, hk]
    abel

theorem sysOpen_rest {path : Option (List UInt8)} {flags : Flags} (hs : Rest s) :
    wlp (sysOpen env p path flags) (fun _ t => Rest t) s := by
  simp only [sysOpen, wlp_bind, wlp_getProc]
  intro v hv
  refine wlp_of_readonly sysOpenRequest_readonly fun x => ?_
  cases x
  case inl ret => exact sysReturn_rest hs
  case inr x =>
    simp only [wlp_bind, wlp_allocBuf, wlp_getMount]
    intro m _
    refine vfsreqCreate_rest (hs.allocBuf.congr (zero_add _)) rfl rfl (fun n hn => ?_) (fun _ h => by contradiction)
      fun b hb ho => ⟨hb, fun h => by simp at h, ho, fun h hh => by contradiction⟩
    obtain rfl := Option.some_inj.mp hn
    rw [State.withBufs_bufs, Heap.size_alloc]
    exact Nat.lt_succ_self _

-- A request for an opened file.
theorem Rest.sendable {h : Hid} {v : Handle} {b : Bid} (hs : Rest s) (hv : s.handles.get h = some v)
    (ht : v.type = .file) (hb : w.backend = v.backend) (hid : w.id = v.fileId) (ho : w.origin = some h)
    (hopen : w.type ≠ .OPEN) (hclose : w.type ≠ .CLOSE) (hw : w.type = .WRITE ∨ w.type = .REMOVE → v.writeable)
    (hback : w.backend = some b) : Sendable s b w where
  backend := hback
  writes  := fun h' => hs.ok.files.writers h v b hv ht (hw h') (hb ▸ hback)
  opens   := fun h => absurd h hopen
  issues  := fun g hg => by
    obtain rfl := Option.some_inj.mp (ho.symm.trans hg)
    exact ⟨v, hv, hb.symm, hid.symm, hopen, fun _ => hs.tidy.used h v hv, fun h => absurd h hclose⟩

theorem simpleVfsopReq_rest {h : Hid} {v : Handle} {op : VfsOp} {buf len : ℕ} {offset : Int} {flags : Flags}
    (hs : Rest s) (hv : s.handles.get h = some v) (ht : v.type = .file)
    (hop : op = .READ ∨ op = .WRITE ∧ v.writeable ∨ op = .GETSIZE) :
    wlp (vfsreqCreate env (vfsreqFinishShort env) (simpleVfsopReq op p h v buf len offset flags))
      (fun _ t => Rest t) s := by
  have hbuf : (simpleVfsopReq op p h v buf len offset flags).input.buf = none := by
    simp only [simpleVfsopReq]
    split <;> rfl
  have hopen : op ≠ .OPEN := by obtain rfl | ⟨rfl, -⟩ | rfl := hop <;> decide
  have hclose : op ≠ .CLOSE := by obtain rfl | ⟨rfl, -⟩ | rfl := hop <;> decide
  refine vfsreqCreate_rest (hbuf ▸ hs) rfl rfl (fun n hn => ?_) (fun h => absurd h hopen) fun b hb _ =>
    hs.sendable hv ht rfl rfl rfl hopen hclose (fun hw => ?_) hb
  · rw [hbuf] at hn
    contradiction
  · obtain rfl | ⟨-, h⟩ | rfl := hop
    · simp [simpleVfsopReq] at hw
    · exact h
    · simp [simpleVfsopReq] at hw

theorem sysRemove_rest {hid : Int} (hs : Rest s) : wlp (sysRemove env p hid) (fun _ t => Rest t) s := by
  have hfail {ret : Int} : wlp (sysRemoveFail env p hid ret) (fun _ t => Rest t) s := by
    rw [sysRemoveFail, wlp_bind]
    exact wlp_post (procHandleClose_rest hs) fun _ _ => sysReturn_rest
  rw [sysRemove, wlp_bind]
  refine wlp_of_readonly procHandleGet_readonly fun o => ?_
  cases o
  case none   => exact sysReturn_rest hs
  case some h =>
    simp only [wlp_bind, wlp_getHandle, wlp_ite]
    refine fun v hv => ⟨fun _ => hfail, fun ht => ⟨fun _ => hfail, fun hw => ?_⟩⟩
    refine wlp_post ?_ fun _ _ => procHandleClose_rest
    refine vfsreqCreate_rest hs rfl rfl (fun n hn => by contradiction) (fun h => by contradiction) fun b hb _ => ?_
    exact hs.sendable hv (not_not.mp ht) rfl rfl rfl (by simp) (by simp) (fun _ => by simpa using hw) hb

theorem sysDup_rest {src dst : Int} {flags : Flags} (hs : Rest s) :
    wlp (sysDup env p src dst flags) (fun _ t => Rest t) s := by
  rw [sysDup, wlp_bind]
  exact wlp_post (procHandleDup_holding hs firm_zero) fun _ _ => sysReturn_rest

theorem sysClose_rest {hid : Int} (hs : Rest s) : wlp (sysClose env p hid) (fun _ t => Rest t) s := by
  rw [sysClose, wlp_bind]
  refine wlp_of_readonly procHandleGet_readonly fun o => ?_
  rw [wlp_ite, wlp_bind]
  exact ⟨fun _ => sysReturn_rest hs, fun _ => wlp_post (procHandleClose_rest hs) fun _ _ => sysReturn_rest⟩

end Create
end Camellia
