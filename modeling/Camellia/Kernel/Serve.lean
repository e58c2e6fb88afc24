import Camellia.Kernel.Calls

namespace Camellia

-- What a process does which provides a filesystem.

section Wait

variable {s : State} {d : Balance} {p : Pid} {b : Bid} {r : Rid} {v : Proc} {x : VfsBackend} {w : VfsReq} {env : Env}

-- The filesystem of a process is there.
theorem Holding.provided (hs : Holding s d) (hd : d (.prov b) = 0) (hv : s.procs.get p = some v)
    (hc : v.controlled = some b) : ∃ x, s.backends.get b = some x ∧ x.isUser ∧ x.provhcnt ≠ 0 := by
  have h := hs.apply (x := .prov b) (by simp)
  have hone := Heap.le_total (w := fun _ v => if v.controlled = some b then (1 : ℤ) else 0)
    (fun _ _ => by split_ifs <;> decide) hv
  rw [if_pos hc] at hone
  rw [hd, balance_prov] at h
  cases hx : s.backends.get b
  case none =>
    simp only [hx, Option.elim_none] at h
    omega
  case some x =>
    refine ⟨x, rfl, ?_⟩
    simp only [hx, Option.elim_some] at h
    cases hu : x.isUser
    case false =>
      simp only [hu, Bool.false_eq_true, if_false] at h
      omega
    case true =>
      refine ⟨rfl, fun h0 => ?_⟩
      simp only [h0, Nat.cast_zero, ite_self] at h
      omega

-- What waits in a queue is for its backend.
theorem Ok.queued_backend (hs : Ok s) (hx : s.backends.get b = some x) (hp : x.provhcnt ≠ 0) (hr : r ∈ x.queue)
    (hw : s.reqs.get r = some w) (hpend : w.pending) : w.backend = some b := by
  obtain ⟨waiting, hwait, hf⟩ := hs.reqs.fifo b x hx hp
  obtain ⟨i, hi, rfl⟩ := List.getElem_of_mem hr
  obtain ⟨hlen, hget⟩ := List.forall₂_iff_get.mp hf
  have hi' : i < waiting.length := hlen ▸ hi
  obtain ⟨hri, hcur⟩ := hget i hi' hi
  have hmem : waiting[i] ∈ enqueuedTo b s.log := by
    rw [hwait]
    exact List.mem_append_right _ (List.getElem_mem hi')
  obtain ⟨e, he, hm⟩ := List.mem_filterMap.mp hmem
  cases e
  case enqueued c q m =>
    have hc : c = b := by
      by_contra hn
      simp [hn] at hm
    simp only [if_pos hc, Option.some_inj] at hm
    have hback := (hs.files.enqueued c q m he).2.1
    have hmsg : w.message = m := by
      have := hcur w hw hpend
      simp only [List.get_eq_getElem, ← hm] at this
      exact this
    rw [← hmsg, hc] at hback
    exact hback
  all_goals contradiction

-- The process becomes the handler.
def State.handle (s : State) (p : Pid) (v : Proc) (maxLen : ℕ) (b : Bid) (x : VfsBackend) : State :=
  (s.withProcs (s.procs.set p { v with state := .waits4request, awaitedMaxLen := maxLen })).withBackends
    (s.backends.set b { x with access := .user (some p) })

theorem wlp_sysFsWaitHandler {maxLen : ℕ} {Q : Unit → State → Prop}
    (hq : ∀ v x, s.procs.get p = some v → v.state = .running → s.backends.get b = some x → x.access = .user none →
      Q () (s.handle p v maxLen b x)) : wlp (sysFsWaitHandler p b maxLen) Q s := by
  simp only [sysFsWaitHandler, wlp_bind]
  rw [wlp_procSetstate_waiting rfl]
  intro v hv hrun
  simp only [wlp_getBackend, wlp_ite, wlp_bind, wlp_throw, implies_true, true_and, not_not, wlp_setBackend, wlp_updProc]
  intro x hx ha v' hv'
  obtain rfl := Option.some_inj.mp ((Heap.get_set_self hv).symm.trans hv')
  have h := hq v x hv hrun hx ha
  rw [State.handle] at h
  simp only [State.withBackends_procs, State.withProcs_procs, Heap.set_set]
  exact h

theorem handle_balance {maxLen : ℕ} (hv : s.procs.get p = some v) (hrun : v.state = .running)
    (hc : v.controlled = some b) (hx : s.backends.get b = some x) (ha : x.access = .user none) :
    (s.handle p v maxLen b x).balance = s.balance := by
  have hback : (s.handle p v maxLen b x).balance =
      (s.withProcs (s.procs.set p { v with state := .waits4request, awaitedMaxLen := maxLen })).balance + _ :=
    balance_setBackend hx
  have hidle : v.waits p = 0 := Proc.waits_idle (by rw [hrun]; rfl)
  have huser : ({ x with access := .user (some p) } : VfsBackend).isUser = x.isUser := by
    rw [VfsBackend.isUser, VfsBackend.isUser, ha]
  rw [hback, balance_setProc hv, Proc.weight, Proc.weight, hidle, hrun, Proc.waits, VfsBackend.weight, VfsBackend.weight,
    huser, ha, hc]
  simp only [PState.active, Access.handler, optRef_some, optRef_none]
  abel

theorem Rest.handle {maxLen : ℕ} (hs : Rest s) (hv : s.procs.get p = some v) (hrun : v.state = .running)
    (hc : v.controlled = some b) (hx : s.backends.get b = some x) (ha : x.access = .user none) (h0 : x.usehcnt ≠ 0) :
    wlp (vfsBackendTryaccept env (vfsreqFinishShort env) b) (fun _ t => Rest t) (s.handle p v maxLen b x) := by
  let u := s.withProcs (s.procs.set p { v with state := .waits4request, awaitedMaxLen := maxLen })
  have hu : Ok u := ok_setProc hs.ok hv rfl
  have htidy : Tidy (s.handle p v maxLen b x) := by
    have h := hs.tidy.setProc (w := { v with state := .waits4request, awaitedMaxLen := maxLen }) hv fun h => by
      contradiction
    exact h.setBackend (y := { x with access := .user (some p) }) hx id id
  have hbal := @handle_balance _ _ _ _ _ maxLen hv hrun hc hx ha
  have hget : (s.handle p v maxLen b x).backends.get b = some { x with access := .user (some p) } := Heap.get_set_self hx
  cases hqueue : x.queue
  case nil =>
    refine wlp_tryaccept_none hget (.inl hqueue) ⟨?_, htidy, hbal ▸ hs.balance⟩
    have hq : x.queue = [] := hqueue
    exact ok_setBackend hu hx (fun h => ⟨h, rfl⟩) (List.Subset.refl _) (fun h => absurd hq h) fun h => absurd h h0
  case cons r q =>
    obtain ⟨⟨w, hw, hpend⟩, -⟩ := hs.sane.placed.queued (r := r) hx (by rw [hqueue]; exact List.mem_cons_self ..)
    obtain ⟨x', hx', -, hprov⟩ := hs.provided rfl hv hc
    obtain rfl := Option.some_inj.mp (hx.symm.trans hx')
    have hback := hs.ok.queued_backend hx hprov (by rw [hqueue]; exact List.mem_cons_self ..) hw hpend
    refine wlp_tryaccept_user hget hqueue hw rfl ?_
    -- Without the handler, the request may be taken out of the queue.
    let y : VfsBackend := { x with access := .user (some p), queue := q }
    let z := (s.handle p v maxLen b x).accept b { x with access := .user (some p) } r w q
    have hz : z.backends.get b = some y := Heap.get_set_self hget
    have hdismiss : Ok (z.dismiss b y) := by
      have hacc : Ok (u.accept b x r w q) := ok_accept hu hx hprov hqueue hw hpend
      have hset : z.dismiss b y = u.accept b x r w q := by
        change ((s.handle p v maxLen b x).withLog _).withBackends (((s.backends.set b _).set b _).set b _) = _
        rw [Heap.set_set, Heap.set_set]
        change _ = (u.withLog _).withBackends (s.backends.set b { x with queue := q })
        rw [show ({ x with queue := q } : VfsBackend) = { y with access := .user none } by rw [← ha]]
        rfl
      exact hset ▸ hacc
    have hzb : z.balance = s.balance + one (.place r) := (accept_balance hget hqueue).trans (by rw [hbal])
    have hwaits : z.Waits := by
      intro y hy
      rw [hzb, Pi.add_apply, hs.firm (Ref.firm_of_waits hy)]
      exact add_nonneg le_rfl one_nonneg
    refine wlp_post (vfsBackendUserAccept_did hdismiss hwaits hz rfl hw hback) fun _ t ht => ?_
    obtain ⟨k, hk⟩ := hs.balance
    have htidy' := htidy.setBackend (y := y) hget id fun h => ⟨h.1, by rw [hqueue]; exact List.cons_ne_nil _ _⟩
    refine (ht.holding (d := one (.place r)) { htidy' with } ⟨k, ?_⟩).congr
      (add_neg_cancel _)
    rw [hzb, hk]
    abel

theorem sysFsWait_rest {maxLen : ℕ} (hs : Rest s) : wlp (sysFsWait env p maxLen) (fun _ t => Rest t) s := by
  simp only [sysFsWait, wlp_bind, wlp_getProc]
  intro v hv
  cases hc : v.controlled
  case none   => exact sysReturn_rest hs
  case some b =>
    simp only [wlp_bind, wlp_getBackend, wlp_ite]
    refine fun x hx => ⟨fun _ => sysReturn_rest hs, fun h0 => wlp_sysFsWaitHandler fun v' x' hv' hrun hx' ha => ?_⟩
    obtain rfl := Option.some_inj.mp (hv.symm.trans hv')
    obtain rfl := Option.some_inj.mp (hx.symm.trans hx')
    exact hs.handle hv hrun hc hx ha h0

end Wait

section Respond

variable {s : State} {d : Balance} {p : Pid} {h : Hid} {r : Rid} {v : Handle} {env : Env} {buf : ℕ} {ret hid : Int}
variable {flags : Flags}

theorem Holding.nullfs {k : ℤ} (hs : Holding s (d + k • one (.handle nullfs))) : Holding s d := by
  obtain ⟨l, hl⟩ := hs.balance
  refine ⟨hs.ok, hs.tidy, k + l, ?_⟩
  rw [hl, add_zsmul]
  abel

-- The request which a handle was for was answered.
theorem Holding.clearReq (hs : Holding s d) (hv : s.handles.get h = some v) :
    Holding (s.withHandles (s.handles.set h { v with req := none })) (d + optRef .place v.req) := by
  obtain ⟨k, hk⟩ := hs.balance
  refine ⟨?_, hs.tidy.setHandle hv id rfl, k, ?_⟩
  · exact ok_setHandle hs.ok hv rfl (fun _ => ⟨rfl, rfl, id, id⟩) (fun h => by contradiction)
      (hs.ok.pipes_set hv rfl rfl rfl rfl rfl fun _ => id)
  · have hset := balance_setHandle (w := { v with req := none }) hv
    rw [hset, hk, Handle.weight, Handle.weight, optRef_none]
    abel

theorem sysFsRespondFinish_holding (hs : Rest s) (hv : s.handles.get h = some v) :
    wlp (sysFsRespondFinish env p buf ret flags v.req) (fun _ t => Holding t (-optRef .place v.req) ∧
      ∀ w, t.handles.get h = some w → w.req = v.req) s := by
  cases hr : v.req
  case none =>
    refine wlp_pure.mpr ⟨hs.congr neg_zero.symm, fun w hw => ?_⟩
    obtain rfl := Option.some_inj.mp (hv.symm.trans hw)
    exact hr
  case some r =>
    simp only [sysFsRespondFinish, sysFsRespondReq, wlp_bind, wlp_getReq]
    refine fun w _ => wlp_of_readonly sysFsRespondCopy_readonly fun ret => ?_
    have hpend := hs.sane.placed.handed hv hr
    refine wlp_post (vfsreqFinish_did hs.sane hpend) fun _ t hx => ?_
    obtain ⟨k, ht, _⟩ := hx
    refine ⟨?_, fun w hw => ?_⟩
    · refine Holding.nullfs (k := -k) ((hs.did ht).congr ?_)
      rw [optRef_some, neg_zsmul]
      abel
    · obtain ⟨v', hv', hk⟩ := ht.kept.handles.get h (Heap.lt_size hv) w hw
      obtain rfl := Option.some_inj.mp (hv.symm.trans hv')
      rw [hk.eq]
      exact hr

theorem sysFsRespond_rest (hs : Rest s) : wlp (sysFsRespond env p hid buf ret flags) (fun _ t => Rest t) s := by
  rw [sysFsRespond, wlp_bind]
  refine wlp_of_readonly sysFsRespondHandle_readonly fun o => ?_
  cases o
  case none   => exact sysReturn_rest hs
  case some h =>
    simp only [wlp_bind, wlp_getHandle]
    refine fun v hv => wlp_post (sysFsRespondFinish_holding hs hv) fun _ t hx => ?_
    obtain ⟨ht, hreq⟩ := hx
    rw [wlp_updHandle]
    intro w hw
    have hclear : Rest (t.withHandles (t.handles.set h { w with req := none })) := by
      refine (ht.clearReq hw).congr ?_
      rw [hreq w hw, neg_add_cancel]
    exact wlp_post (procHandleClose_rest hclear) fun _ _ => sysReturn_rest

end Respond
end Camellia
