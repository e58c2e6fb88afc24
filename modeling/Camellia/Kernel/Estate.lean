import Camellia.Kernel.Attach
import Camellia.Kernel.Serve

namespace Camellia

-- What a process leaves behind when it is killed.

section Controlled

variable {s t : State} {d : Balance} {p : Pid} {b : Bid} {v w : Proc} {x : VfsBackend}

theorem Proc.Kept.active (h : v.Kept w) (ha : v.state.active) : w.state.active := by
  obtain hs | ⟨hs, -⟩ := h.state
  · rw [hs]
    exact ha
  · rw [hs]
    rfl

-- A process which waits for requests is the handler of its filesystem.
theorem Rest.handler (hs : Rest s) (hv : s.procs.get p = some v) (hc : v.controlled = some b)
    (hx : s.backends.get b = some x) : x.access.handler = some p ↔ v.state = .waits4request := by
  have h := hs.apply (x := .handler p b) (by simp)
  rw [balance_handler, hv, hx] at h
  by_cases hst : v.state = .waits4request <;> by_cases hh : x.access.handler = some p <;>
    simp [hst, hh, hc] at h ⊢

-- The process does not handle requests anymore.
theorem procKillHandler_holding (hs : Rest s) (hv : s.procs.get p = some v) (hc : v.controlled = some b) :
    wlp (procKillHandler p b) (fun _ t => Holding t (if v.state = .waits4request then one (.handler p b) else 0) ∧
      t.procs = s.procs ∧ ∃ x, t.backends.get b = some x ∧ x.isUser ∧ 0 < x.provhcnt) s := by
  obtain ⟨x, hx, hu, hprov⟩ := hs.provided rfl hv hc
  have hhandler := hs.handler hv hc hx
  simp only [procKillHandler, wlp_bind, wlp_getBackend, wlp_kassert]
  intro x' hx' _
  obtain rfl := Option.some_inj.mp (hx.symm.trans hx')
  have hpos := Nat.pos_of_ne_zero hprov
  rw [wlp_ite]
  refine ⟨fun ha => ?_, fun ha => wlp_pure.mpr ⟨hs.congr ?_, rfl, x, hx, hu, hpos⟩⟩
  · have hst : v.state = .waits4request := hhandler.mp (by rw [ha]; rfl)
    simp only [wlp_bind, wlp_getProc, wlp_kassert, wlp_setBackend]
    intro _ _ _
    have hset := did_setBackend (w := { x with access := .user none }) hs.ok hx ⟨rfl, hu.symm, .inr rfl⟩
      (.inl rfl) (fun _ => rfl) (fun _ => rfl) id
    refine ⟨(hs.did hset).congr ?_, rfl, _, Heap.get_set_self hx, rfl, hpos⟩
    have huser : ({ x with access := .user none } : VfsBackend).isUser = x.isUser := by rw [hu]; rfl
    rw [if_pos hst, VfsBackend.weight, VfsBackend.weight, huser, ha]
    simp only [Access.handler, optRef_some, optRef_none]
    abel
  · rw [if_neg]
    intro hst
    have hh := hhandler.mpr hst
    cases hacc : x.access
    case kern o => rw [hacc] at hh; contradiction
    case user o =>
      rw [hacc] at hh
      exact ha (by rw [hacc]; exact congrArg _ hh)

-- What the process provided is provided by one process less.
theorem procKillControlled_rest (hs : Rest s) (hv : s.procs.get p = some v) (ha : v.state.active) :
    wlp (procKillControlled p) (fun _ t => Rest t ∧ ∃ w, t.procs.get p = some w ∧ w.state.active ∧
      w.controlled = none) s := by
  simp only [procKillControlled, wlp_bind, wlp_getProc]
  intro v' hv'
  obtain rfl := Option.some_inj.mp (hv.symm.trans hv')
  cases hc : v.controlled
  case none   => exact wlp_pure.mpr ⟨hs, v, hv, ha, hc⟩
  case some b =>
    rw [wlp_bind]
    refine wlp_post (procKillHandler_holding hs hv hc) fun _ t hx => ?_
    obtain ⟨ht, hprocs, x, hx, hu, h0⟩ := hx
    have hfirm : Firm (if v.state = .waits4request then one (.handler p b) else 0) := fun y _ => by
      split
      · exact one_nonneg
      · exact le_rfl
    have hsane := ht.sane hfirm
    rw [wlp_bind]
    refine wlp_post (vfsBackendRefdownProv_did hsane.ok hsane.waits hsane.placed hx hu) fun _ z hx => ?_
    obtain ⟨⟨_, hz⟩, hneat⟩ := hx
    have hget : (t.leave b x).procs.get p = some v := hprocs.symm ▸ hv
    obtain ⟨w, hw, hk⟩ := hz.kept.procs p v hget
    have hleave : Holding z ((if v.state = .waits4request then one (.handler p b) else 0) - one (.prov b)) := by
      obtain ⟨k, hk⟩ := ht.balance
      refine ⟨hz.ok, ht.tidy.kept (u := t.leave b x) rfl rfl hz.kept hneat, k, ?_⟩
      rw [hz.balance, leave_balance hx h0 hu, hk]
      abel
    have hwc : w.controlled = some b := by
      rw [hk.eq]
      exact hc
    -- Nobody has woken up the process in the meantime.
    have hstate : w.state = .waits4request ↔ v.state = .waits4request := by
      refine ⟨fun hst => hk.state.elim (· ▸ hst) fun h => ?_, fun hst => ?_⟩
      · rw [h.1] at hst
        contradiction
      · have hone := hleave.apply (x := .handler p b) (by simp)
        rw [if_pos hst, balance_handler, hw, Pi.sub_apply, one_apply, one_apply] at hone
        by_contra hn
        simp only [Option.elim_some, hn, false_and, if_false, if_true, reduceCtorEq] at hone
        have : 0 ≤ (z.backends.get b).elim (0 : ℤ) fun v => if v.access.handler = some p then 1 else 0 := by
          cases z.backends.get b
          case none => exact le_rfl
          case some => simp only [Option.elim_some]; split_ifs <;> decide
        omega
    rw [wlp_updProc]
    intro w' hw'
    obtain rfl := Option.some_inj.mp (hw.symm.trans hw')
    have hact := hk.active ha
    have hset := hleave.setProc (w := { w with controlled := none }) hw rfl fun hn => by
      rw [show ({ w with controlled := none } : Proc).state.active = true from hact] at hn
      contradiction
    refine ⟨hset.congr ?_, _, Heap.get_set_self hw, hact, rfl⟩
    have hwaits : ({ w with controlled := none } : Proc).waits p - w.waits p =
        -(if v.state = .waits4request then one (.handler p b) else 0) := by
      rw [Proc.waits, Proc.waits]
      by_cases hst : w.state = .waits4request
      case pos => simp [hst, hstate.mp hst, hwc]
      case neg =>
        rw [if_neg (mt hstate.mpr hst)]
        cases hs : w.state <;> simp_all
    rw [Proc.weight, Proc.weight, hwc, optRef_none, optRef_some, sub_eq_iff_eq_add.mp hwaits]
    abel

end Controlled

-- A process which has left everything it takes part in. What it waits for does not know about it
-- anymore, and its slot for requests is gone.
structure Leaving (p : Pid) (e : Balance) (t : State) (w : Proc) : Prop where
  proc       : t.procs.get p = some w
  active     : w.state.active
  controlled : w.controlled = none
  reqslot    : w.state = .waits4fs → w.reqslot = none
  holding    : Holding t (w.waits p + optRef (.slot p) w.reqslot + e)

section Reqslot

variable {s t : State} {d : Balance} {p : Pid} {r : Rid} {v w : Proc} {x : VfsReq}

-- The request in the slot of a process.
theorem Rest.slot (hs : Rest s) (hv : s.procs.get p = some v) (ha : v.state.active) (hr : v.reqslot = some r) :
    ∃ x, s.reqs.get r = some x ∧ x.caller = some p ∧ (x.pending ↔ v.state = .waits4fs) := by
  have hs₁ := hs.apply (x := .slot p r) (by simp)
  have hs₂ := hs.apply (x := .caller p r) (by simp)
  rw [balance_slot, hv] at hs₁
  rw [balance_caller, hv] at hs₂
  cases hx : s.reqs.get r
  case none => simp [hx, ha, hr] at hs₁
  case some x =>
    have hcaller : x.caller = some p := by
      by_contra hn
      simp [hx, ha, hr, hn] at hs₁
    refine ⟨x, rfl, hcaller, ?_⟩
    by_cases hst : v.state = .waits4fs <;> by_cases hp : x.pending <;> simp [hx, hst, hp, hr, hcaller] at hs₂ ⊢

-- The request which the process waits for is finished without it.
theorem Rest.orphan (hs : Rest s) (hv : s.procs.get p = some v) (hst : v.state = .waits4fs)
    (hr : v.reqslot = some r) (hx : s.reqs.get r = some x) (hpend : x.pending) (hcaller : x.caller = some p) :
    Rest ((s.withReqs (s.reqs.set r { x with caller := none })).withProcs
      (s.procs.set p { v with reqslot := none })) := by
  obtain ⟨k, hk⟩ := hs.balance
  have hreq : Holding (s.withReqs (s.reqs.set r { x with caller := none })) (one (.caller p r) + one (.slot p r)) := by
    have hnot : ¬({ x with caller := none } : VfsReq).Lost := VfsReq.not_lost hpend
    have hcached := Heap.forall_set hx hnot fun q y _ => hs.tidy.cached q y
    refine ⟨ok_orphanReq hs.ok hx, { hs.tidy with cached := hcached }, k, ?_⟩
    have hset := balance_setReq (w := { x with caller := none }) hx
    rw [hset, hk, VfsReq.weight, VfsReq.weight, hpend, hcaller]
    simp only [if_true, optRef_some, optRef_none]
    abel
  refine (hreq.setProc (w := { v with reqslot := none }) hv rfl fun h => ?_).congr ?_
  · rw [show ({ v with reqslot := none } : Proc).state = .waits4fs from hst] at h
    contradiction
  · rw [Proc.weight, Proc.weight, Proc.waits, Proc.waits, hst, hr]
    simp only [PState.active, if_true, optRef_some, optRef_none]
    abel

-- A request which is not in flight is freed together with its caller.
theorem Rest.freeReq (hs : Rest s) (hx : s.reqs.get r = some x) (hp : x.pending = false) (hcaller : x.caller = some p) :
    Holding (s.withReqs (s.reqs.free r)) (one (.slot p r)) := by
  obtain ⟨k, hk⟩ := hs.balance
  have hcached := Heap.forall_free (i := r) fun q y _ => hs.tidy.cached q y
  refine ⟨ok_freeReq hs.ok, { hs.tidy with cached := hcached }, k, ?_⟩
  rw [balance_freeReq hx, hk, VfsReq.weight, hp, hcaller]
  simp only [Bool.false_eq_true, if_false, optRef_some]
  abel

theorem procKillReqslot_holding (hs : Rest s) (hv : s.procs.get p = some v) (ha : v.state.active)
    (hc : v.controlled = none) :
    wlp (procKillReqslot p) (fun _ t => ∃ w, t.procs.get p = some w ∧ w.state.active ∧ w.controlled = none ∧
      (w.state = .waits4fs → w.reqslot = none) ∧ Holding t (optRef (.slot p) w.reqslot)) s := by
  simp only [procKillReqslot, wlp_bind, wlp_getProc]
  intro v' hv'
  obtain rfl := Option.some_inj.mp (hv.symm.trans hv')
  rw [wlp_ite]
  refine ⟨fun hst => ?_, fun hst => ?_⟩
  · cases hr : v.reqslot
    case none   => exact wlp_throw.mpr trivial
    case some r =>
      obtain ⟨x, hx, hcaller, hpend⟩ := hs.slot hv ha hr
      simp only [wlp_bind, wlp_getReq, wlp_setReq, wlp_updProc, State.withReqs_procs]
      intro x' hx' v' hv'
      obtain rfl := Option.some_inj.mp (hx.symm.trans hx')
      obtain rfl := Option.some_inj.mp (hv.symm.trans hv')
      exact ⟨_, Heap.get_set_self hv, ha, hc, fun _ => rfl, hs.orphan hv hst hr hx (hpend.mpr hst) hcaller⟩
  · cases hr : v.reqslot
    case none   => exact wlp_pure.mpr ⟨v, hv, ha, hc, fun _ => hr, by rwa [hr]⟩
    case some r =>
      obtain ⟨x, hx, hcaller, hpend⟩ := hs.slot hv ha hr
      simp only [wlp_freeReq]
      intro x' hx'
      obtain rfl := Option.some_inj.mp (hx.symm.trans hx')
      have hp : x.pending = false := by
        by_contra hn
        exact hst (hpend.mp (eq_true_of_ne_false hn))
      exact ⟨v, hv, ha, hc, fun h => absurd h hst, hr ▸ hs.freeReq hx hp hcaller⟩

-- The process leaves the queue of a pipe or the list of the timer.
theorem procKillQueues_leaving (hv : s.procs.get p = some v) (ha : v.state.active) (hc : v.controlled = none)
    (hr : v.state = .waits4fs → v.reqslot = none) (hs : Holding s (optRef (.slot p) v.reqslot)) :
    wlp (do procKillPipe p; procKillTimer p) (fun _ t => ∃ w, Leaving p 0 t w) s := by
  simp only [procKillPipe, wlp_bind, wlp_getProc]
  intro v' hv'
  obtain rfl := Option.some_inj.mp (hv.symm.trans hv')
  -- What comes after the pipe, if there is nothing to do for the timer.
  have hlast {t : State} (ht : Holding t (v.waits p + optRef (.slot p) v.reqslot)) (hget : t.procs.get p = some v)
      (hst : v.state ≠ .waits4timer) : wlp (procKillTimer p) (fun _ t => ∃ w, Leaving p 0 t w) t := by
    simp only [procKillTimer, wlp_bind, wlp_getProc, hget, Option.some_inj]
    rintro _ rfl
    rw [if_neg hst]
    exact wlp_pure.mpr ⟨v, hget, ha, hc, hr, ht.congr (add_zero _).symm⟩
  rw [wlp_ite]
  refine ⟨fun hst => ?_, fun hst => wlp_pure.mpr ?_⟩
  · simp only [wlp_bind, wlp_getHandle]
    refine fun x hx => wlp_of_readonly pipeCheckQueue_readonly fun _ => ?_
    simp only [wlp_kassert, wlp_setHandle]
    intro hp
    obtain ⟨k, hk⟩ := hs.balance
    refine hlast ⟨?_, hs.tidy.setHandle hx id rfl, k, ?_⟩ hv (by simp [hst])
    · exact ok_setQueue hs.ok hx (List.erase_sublist ..)
    · have hperm : pipes v.waitsPipe x.queued = one (.pipe p v.waitsPipe) + pipes v.waitsPipe (x.queued.erase p) :=
        ((List.perm_cons_erase hp).map _).sum_eq.trans List.sum_cons
      rw [balance_setQueue hx, hk, hperm, Proc.waits, hst]
      abel
  · simp only [procKillTimer, wlp_bind, wlp_getProc]
    intro v' hv'
    obtain rfl := Option.some_inj.mp (hv.symm.trans hv')
    rw [wlp_ite]
    refine ⟨fun htimer => ?_, fun htimer => wlp_pure.mpr ⟨v, hv, ha, hc, hr, hs.congr ?_⟩⟩
    · simp only [timerDeschedule, wlp_bind, wlp_getProc, wlp_kassert, wlp_get, wlp_modify, wlp_procSetstate_running]
      intro v' hv' _ hp w hw _
      obtain rfl := Option.some_inj.mp (hv.symm.trans hv')
      obtain rfl := Option.some_inj.mp (hv.symm.trans hw)
      have h := hs.unschedule hv htimer (List.perm_cons_erase hp)
      exact ⟨_, Heap.get_set_self hv, rfl, hc, fun h => by contradiction, h.congr (by simp [Proc.waits])⟩
    · have hwaits : v.waits p = 0 := by
        rw [Proc.waits]
        cases h : v.state <;> simp_all
      rw [hwaits, zero_add, add_zero]

theorem procKillUntilHandles_leaving (hs : Rest s) (hv : s.procs.get p = some v) (ha : v.state.active) :
    wlp (procKillUntilHandles p) (fun _ t => ∃ w, Leaving p 0 t w) s := by
  rw [procKillUntilHandles, wlp_bind]
  refine wlp_post (procKillControlled_rest hs hv ha) fun _ t hx => ?_
  obtain ⟨ht, w, hw, ha, hc⟩ := hx
  rw [wlp_bind]
  refine wlp_post (procKillReqslot_holding ht hw ha hc) fun _ u hx => ?_
  obtain ⟨x, hx, ha, hc, hr, hu⟩ := hx
  exact procKillQueues_leaving hx ha hc hr hu

end Reqslot

section Leaving

variable {s t : State} {d e : Balance} {p : Pid} {v w : Proc}

-- What happens in the meantime does not bring the process back.
theorem Leaving.did (h : Leaving p e s v) (ht : Did s d t) (hd : ∀ g, 0 ≤ e (.pipe p g) + d (.pipe p g)) :
    ∃ w, Leaving p (e + d) t w ∧ v.Kept w := by
  obtain ⟨w, hw, hk⟩ := ht.kept.procs p v h.proc
  have hdid := h.holding.did ht
  have hslot : w.reqslot = v.reqslot := by rw [hk.eq]
  have hwaits : w.waits p = v.waits p := by
    obtain hs | ⟨hrun, hs | hs | hs⟩ := hk.state
    · rw [Proc.waits, Proc.waits, hs, hk.eq]
    · rw [Proc.waits, Proc.waits, hrun, hs]
      exact (congrArg (optRef (.caller p)) (h.reqslot hs)).symm
    · rw [Proc.waits, Proc.waits, hrun, hs]
      exact (congrArg (optRef (.handler p)) h.controlled).symm
    · -- Nobody else takes the process out of the queue it has already left.
      exfalso
      have hone := hdid.apply (x := .pipe p v.waitsPipe) (by simp)
      have hpipe : v.waits p = one (.pipe p v.waitsPipe) := by rw [Proc.waits, hs]
      have hslot : optRef (.slot p) v.reqslot (.pipe p v.waitsPipe) = 0 := by
        cases v.reqslot
        case none   => rfl
        case some r => simp [one_apply]
      rw [balance_pipe, hw, hpipe] at hone
      simp only [Option.elim_some, hrun, reduceCtorEq, false_and, if_false, Pi.add_apply, one_apply, hslot, if_true] at hone
      have hqueue : 0 ≤ (t.handles.get v.waitsPipe).elim (0 : ℤ) fun x => (x.queued.count p : ℤ) := by
        cases t.handles.get v.waitsPipe
        case none => exact le_rfl
        case some => exact Int.natCast_nonneg _
      have := hd v.waitsPipe
      omega
  refine ⟨w, ⟨hw, hk.active h.active, ?_, fun hs => ?_, ?_⟩, hk⟩
  · rw [hk.eq]
    exact h.controlled
  · refine hslot.trans (h.reqslot (hk.state.elim (· ▸ hs) fun hrun => ?_))
    rw [hrun.1] at hs
    contradiction
  · rw [hwaits, hslot]
    exact hdid.congr (add_assoc ..)

theorem Leaving.firm (h : Firm e) : Firm (v.waits p + optRef (.slot p) v.reqslot + e) := fun x hx => by
  have hwaits : 0 ≤ v.waits p x := by
    rw [Proc.waits]
    cases v.state
    case waits4fs      => exact optRef_nonneg
    case waits4request => exact optRef_nonneg
    case waits4pipe    => exact one_nonneg
    case waits4timer   => exact one_nonneg
    all_goals exact le_rfl
  exact add_nonneg (add_nonneg hwaits optRef_nonneg) (h x hx)

-- Nobody gives a handle to the process anymore.
theorem Leaving.not_served (h : Leaving p e s v) (he : Firm e) : ¬s.Served p := by
  have hw := (h.holding.sane (Leaving.firm he)).waits
  rintro (⟨b, x, hx, hp⟩ | ⟨r, x, hx, hpend, hc⟩)
  · obtain ⟨v', hv', -, hb⟩ := hw.handler hx hp
    obtain rfl := Option.some_inj.mp (h.proc.symm.trans hv')
    rw [h.controlled] at hb
    contradiction
  · obtain ⟨v', hv', hs, hr⟩ := hw.caller hx hpend hc
    obtain rfl := Option.some_inj.mp (h.proc.symm.trans hv')
    rw [h.reqslot hs] at hr
    contradiction


-- Only the process itself uses this table.
def State.Alone (s : State) (p : Pid) (T : Tid) : Prop :=
  ∀ q x, s.procs.get q = some x → x.handles = some T → q = p

theorem State.Alone.kept {T : Tid} (h : s.Alone p T) (hk : Kept s t) : t.Alone p T := fun q y hy hT => by
  cases hx : s.procs.get q
  case none =>
    rw [hk.freeProcs q hx] at hy
    contradiction
  case some x =>
    obtain ⟨y', hy', hxy⟩ := hk.procs q x hx
    obtain rfl := Option.some_inj.mp (hy.symm.trans hy')
    rw [hxy.eq] at hT
    exact h q x hx hT

-- The slots of a table which hold a handle.
def Table.holds (table : Table) (h : Hid) : ℕ :=
  (List.finRange HANDLE_MAX).countP fun i => table i = some h

-- What the loop of `proc_kill` over the slots of the table `x` has done so far. Those in `l` are left.
structure Clearing (p : Pid) (T : Tid) (x : Table) (s : State) (l : List (Fin HANDLE_MAX)) (t : State) : Prop where
  leaving : ∃ w, Leaving p 0 t w ∧ w.handles = some T
  alone   : t.Alone p T
  nodup   : l.Nodup
  cleared : ∃ table, t.tables.get T = some table ∧ ∀ i, table i = if i ∈ l then x i else none
  falls   : ∃ gone, Falls gone s t ∧ ∀ h, gone h + l.countP (fun i => x i = some h) = x.holds h

-- A slot which was cleared stays so.
theorem Clearing.close {env : Env} {T : Tid} {x : Table} {i : Fin HANDLE_MAX} {l : List (Fin HANDLE_MAX)}
    (h : Clearing p T x s (i :: l) t) : wlp (procHandleClose env p (i : ℕ)) (fun _ u => Clearing p T x s l u) t := by
  obtain ⟨v, hv, hT⟩ := h.leaving
  obtain ⟨table, htable, hcleared⟩ := h.cleared
  obtain ⟨gone, hgone, hcount⟩ := h.falls
  obtain ⟨hi, hnodup⟩ := List.nodup_cons.mp h.nodup
  have hhead : table i = x i := (hcleared i).trans (if_pos (List.mem_cons_self ..))
  refine wlp_post (procHandleClose_slot (hv.holding.sane (Leaving.firm firm_zero))) fun _ u hx => ?_
  obtain ⟨hu, hslot⟩ := hx
  obtain ⟨w, hw, hk⟩ := hv.did hu fun _ => le_rfl
  obtain ⟨hfall, table', htable', hnone, hstay⟩ := hslot v T table hv.proc hT htable
  refine ⟨⟨w, ?_, ?_⟩, h.alone.kept hu.kept, hnodup, ⟨table', htable', fun j => ?_⟩, _, hgone.trans hfall, fun g => ?_⟩
  · rwa [add_zero] at hw
  · rw [hk.eq]
    exact hT
  · by_cases hji : j = i
    case pos => rw [hji, hnone, if_neg hi]
    case neg =>
      have hj : table j = if j ∈ l then x j else none := by simpa [hji] using hcleared j
      rw [← hj]
      by_cases hfree : table j = none
      case neg => exact hstay j hji hfree
      case pos =>
        have hserved (q : Pid) (y : Proc) (hy : t.procs.get q = some y) (hq : y.handles = some T) : ¬t.Served q :=
          h.alone q y hy hq ▸ hv.not_served firm_zero
        refine (hu.kept.slots T table table' htable htable' hserved j).elim id fun h => ?_
        rw [h, hfree]
  · rw [← hcount g, List.countP_cons, hhead, Pi.add_apply, slotRef]
    simp only [decide_eq_true_eq]
    omega

-- When the table is about to be freed, all of its slots are empty, and no reference is left of them.
theorem procKillSlots_clearing {env : Env} {T : Tid} {x : Table} (h : Leaving p 0 s v) (hT : v.handles = some T)
    (ha : s.Alone p T) (hx : s.tables.get T = some x) :
    wlp (procKillSlots env p) (fun _ t => Clearing p T x s [] t) s := by
  refine wlp_forM (Clearing p T x s) (fun i l t ht => ht.close) ?_
  refine ⟨⟨v, h, hT⟩, ha, List.nodup_finRange _, ⟨x, hx, fun i => ?_⟩, 0, .refl, fun g => Nat.zero_add _⟩
  rw [if_pos (List.mem_finRange i)]

theorem procKillTable_leaving {env : Env} {T : Tid} (h : Leaving p 0 s v) (hT : v.handles = some T) (ha : s.Alone p T)
    (htable : ∃ table, s.tables.get T = some table) :
    wlp (procKillTable env p) (fun _ t => ∃ w, Leaving p 0 t w) s := by
  obtain ⟨table, htable⟩ := htable
  rw [procKillTable, wlp_bind]
  refine wlp_post (procKillSlots_clearing h hT ha htable) fun _ t ht => ?_
  obtain ⟨w, hw, hT⟩ := ht.leaving
  obtain ⟨table, htable, hcleared⟩ := ht.cleared
  simp only [procTable, wlp_bind, wlp_getProc, wlp_nonNull, wlp_freeTable, hw.proc, Option.some_inj]
  rintro _ rfl T' hT' _ _
  obtain rfl := Option.some_inj.mp (hT.symm.trans hT')
  refine ⟨w, { hw with holding := hw.holding.withTables.congr ?_ }⟩
  have hnone : table = fun _ => none := funext fun i => (hcleared i).trans (if_neg List.not_mem_nil)
  have hweight : table.weight = 0 := by simp [Table.weight, hnone]
  rw [Heap.total_free htable, hweight]
  abel

end Leaving

section Kill

variable {s t : State} {d : Balance} {p q : Pid} {v w : Proc} {b : Bool} {env : Env}
variable {uses : Pid ⊕ Pid → Option (Resource × Option Cid)}

-- If the counter of the users of a table is 1, then there is one user.
theorem KillStage.alone {T : Tid} (h : KillStage p uses b s) (hv : s.procs.get p = some v) (hT : v.handles = some T)
    (hone : s.sharing.value v.handlesRefcount = some 1) : s.Alone p T := by
  have hp : s.sharing.uses (.inr p) = some (.inr T, v.handlesRefcount) := by simp [State.sharing, hv, hT]
  have hcard : (s.sharing.users (.inr T)).ncard = 1 := by
    rw [h.valid.value_eq hp] at hone
    exact Option.some_inj.mp hone
  obtain ⟨i, hi⟩ := Set.ncard_eq_one.mp hcard
  have hmem (q : Pid) (x : Proc) (hx : s.procs.get q = some x) (hq : x.handles = some T) : .inr q = i := by
    have : .inr q ∈ s.sharing.users (.inr T) := ⟨x.handlesRefcount, by simp [State.sharing, hx, hq]⟩
    rwa [hi] at this
  exact fun q x hx hq => Sum.inr.inj ((hmem q x hx hq).trans (hmem p v hv hT).symm)

theorem Leaving.withCounts {counts : Heap ℕ} (h : Leaving p d s v) : Leaving p d (s.withCounts counts) v := by
  obtain ⟨k, hk⟩ := h.holding.balance
  have hok : Ok (s.withCounts counts) := h.holding.ok.frame rfl rfl rfl rfl rfl fun _ _ _ _ _ => rfl
  exact { h with holding := ⟨hok, { h.holding.tidy with }, k, hk⟩ }

-- The process does not use its handles or its mounts anymore.
theorem Leaving.drop {e : Balance} (h : Leaving p d s v) (hs : w.state = v.state) (hr : w.reqslot = v.reqslot)
    (hc : w.controlled = v.controlled) (hp : w.waitsPipe = v.waitsPipe) (ht : w.waitsSince = v.waitsSince)
    (he : d + optRef .mount v.mount = e + optRef .mount w.mount) : Leaving p e (s.withProcs (s.procs.set p w)) w := by
  have hwaits : w.waits p = v.waits p := by rw [Proc.waits, Proc.waits, hs, hr, hc, hp]
  refine ⟨Heap.get_set_self h.proc, hs ▸ h.active, hc.trans h.controlled, fun hst => hr.trans (h.reqslot (hs ▸ hst)), ?_⟩
  refine (h.holding.setProc h.proc ht fun hn => ?_).congr ?_
  · rw [hs, h.active] at hn
    contradiction
  · rw [Proc.weight, Proc.weight, hwaits, hs, hr, hc, eq_sub_of_add_eq he]
    abel

theorem procKillHandles_leaving (h : Leaving p 0 s v) (hk : KillStage p uses b s) (hT : ∃ T, v.handles = some T) :
    wlp (procKillHandles env p) (fun _ t => ∃ w, Leaving p 0 t w) s := by
  obtain ⟨T, hT⟩ := hT
  have hend {t : State} : (∃ w, Leaving p 0 t w) →
      wlp (updProc p ({ · with handles := none })) (fun _ t => ∃ w, Leaving p 0 t w) t := by
    rintro ⟨w, hw⟩
    rw [wlp_updProc]
    intro w' hw'
    obtain rfl := Option.some_inj.mp (hw.proc.symm.trans hw')
    exact ⟨_, hw.drop (w := { w with handles := none }) rfl rfl rfl rfl rfl rfl⟩
  simp only [procKillHandles, wlp_bind, wlp_getProc]
  intro v' hv'
  obtain rfl := Option.some_inj.mp (h.proc.symm.trans hv')
  refine wlp_post unref_spec fun last t ht => ?_
  obtain ⟨counts, rfl⟩ := ht.eq
  rw [wlp_ite]
  refine ⟨fun hlast => ?_, fun _ => hend ⟨v, h.withCounts⟩⟩
  have halone : s.Alone p T := hk.alone h.proc hT (ht.last hlast)
  have hlive : ∃ table, s.tables.get T = some table := by
    have : s.Allocated (.inr T) := (hk.valid.live (.inr T)).mpr ⟨.inr p, v.handlesRefcount, by
      simp [State.sharing, h.proc, hT]⟩
    exact Option.isSome_iff_exists.mp this
  rw [wlp_bind]
  exact wlp_post (procKillTable_leaving h.withCounts hT halone hlive) fun _ _ => hend

theorem procKillMount_leaving (h : Leaving p 0 s v) :
    wlp (procKillMount p) (fun _ t => ∃ w, Leaving p 0 t w ∧ w.mount = none) s := by
  simp only [procKillMount, wlp_bind, wlp_getProc]
  intro v' hv'
  obtain rfl := Option.some_inj.mp (h.proc.symm.trans hv')
  cases hm : v.mount
  case none   => exact wlp_throw.mpr trivial
  case some m =>
    simp only [wlp_bind, wlp_get]
    refine wlp_post (vfsMountRemref_did (h.holding.sane (Leaving.firm firm_zero))) fun _ t ht => ?_
    obtain ⟨w, hw, hk⟩ := h.did ht fun _ => by simp [one_apply]
    rw [wlp_updProc]
    intro w' hw'
    obtain rfl := Option.some_inj.mp (hw.proc.symm.trans hw')
    refine ⟨{ w with mount := none }, hw.drop rfl rfl rfl rfl rfl ?_, rfl⟩
    have hmount : w.mount = some m := by
      rw [hk.eq]
      exact hm
    rw [hmount, optRef_some, optRef_none]
    abel

-- From now on the process has nothing in its hands.
theorem Leaving.die (h : Leaving p 0 s v) (hm : v.mount = none) :
    Rest (s.withProcs (s.procs.set p { v with state := .dying })) := by
  refine (h.holding.setProc (w := { v with state := .dying }) h.proc rfl fun _ => ⟨hm, h.controlled⟩).congr ?_
  have hdead : ({ v with state := .dying } : Proc).weight p = 0 := by
    simp [Proc.weight, Proc.waits, PState.active, hm, h.controlled]
  rw [hdead, Proc.weight, h.active, hm, h.controlled, if_pos rfl]
  simp only [optRef_none]
  abel

theorem SharesOk.active (hok : SharesOk s) (hv : s.procs.get p = some v) (ha : v.state.alive) : v.state.active := by
  have := (hok.homes p v hv id).1
  cases h : v.state <;> simp_all [PState.alive, PState.active]

theorem procKillAlive_rest {ret : Int} (hs : Rest s) (hok : SharesOk s) (hv : s.procs.get p = some v)
    (ha : v.state.alive) : wlp (procKillAlive env p ret) (fun _ t => Rest t) s := by
  have hactive := hok.active hv ha
  obtain ⟨d, T, _, hT, _, huse⟩ := hok.uses_alive hv ha
  rw [procKillAlive_eq]
  simp only [procKillUntilPages, wlp_bind]
  refine wlp_post (wlp_and (procKillUntilHandles_leaving hs hv hactive) (procKillUntilHandles_spec hok hv ha))
    fun _ t hx => ?_
  obtain ⟨⟨w, hw⟩, hk⟩ := hx
  have hTw : ∃ T, w.handles = some T := by
    rw [← hk.uses] at huse
    simp only [State.sharing, hw.proc, Option.bind_some] at huse
    cases hh : w.handles
    case none   => simp [hh] at huse
    case some T => exact ⟨T, rfl⟩
  refine wlp_post (procKillHandles_leaving hw hk hTw) fun _ u hx => ?_
  obtain ⟨x, hx⟩ := hx
  refine wlp_post (procKillMount_leaving hx) fun _ y hx => ?_
  obtain ⟨z, hz, hm⟩ := hx
  rw [wlp_procSetstate_dying]
  intro z' hz' _
  obtain rfl := Option.some_inj.mp (hz.proc.symm.trans hz')
  have hmsg : Respects Same (updProc p ({ · with deathMsg := ret })) :=
    updProc_same fun _ => ⟨.inl rfl, rfl, rfl, rfl, rfl, rfl⟩
  refine wlp_post ((hz.die hm).respects firm_zero hmsg) fun _ _ h => ?_
  simp only [wlp_get, wlp_getProc]
  intro _ _
  refine wlp_post (h.respects firm_zero procKillChildren_same) fun _ _ h => ?_
  exact h.respects firm_zero procKillPages_same

-- Nothing is left of a process which was killed.
theorem procKill_rest {ret : Int} (hs : Rest s) (hok : SharesOk s) :
    wlp (procKill env p ret) (fun _ t => Rest t) s := by
  have hend {t : State} (ht : Rest t) : wlp (do
      procKillDying p
      if p = (← get).first then
        procKillFirst p
      else
        procTryreap p) (fun _ u => Rest u) t := by
    rw [wlp_bind]
    refine wlp_post (ht.respects firm_zero procKillDying_same) fun _ _ h => ?_
    simp only [wlp_bind, wlp_get, wlp_ite]
    exact ⟨fun _ => wlp_procKillFirst, fun _ => h.respects firm_zero procTryreap_same⟩
  simp only [procKill, wlp_bind, wlp_ite, wlp_getProc] at hend ⊢
  intro v hv
  exact ⟨fun ha => wlp_post (procKillAlive_rest hs hok hv ha) fun _ _ => hend, fun _ => hend hs⟩

end Kill
end Camellia
