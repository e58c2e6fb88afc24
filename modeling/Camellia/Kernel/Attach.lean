import Camellia.Kernel.Calls

namespace Camellia

-- What else a process gets: mounts, its view of the other processes, and a place on the list of the timer.

section Mount

variable {s : State} {d : Balance} {p : Pid} {m : Mid} {n : ℕ} {v : Proc} {w : VfsMount}

theorem ok_freeBuf (hs : Ok s) : Ok (s.withBufs (s.bufs.free n)) := by
  refine ok_withReqs (R := s.reqs) hs le_rfl (fun r w hw => ?_) fun _ _ _ w _ _ hw hp => ⟨w, hw, hp, rfl⟩
  have h := hs.reqs.req r w hw
  refine ⟨fun k hk => ?_, h.opens, h.created⟩
  obtain ⟨hlt, hfree⟩ := h.buf k hk
  rw [State.withBufs_bufs, Heap.size_free, Heap.get_free]
  exact ⟨hlt, fun hp => by rw [hfree hp, ite_self]⟩

theorem bufFree_did {o : Option ℕ} (hs : Ok s) :
    wlp (bufFree o) (fun _ t => Did s (-optRef .buf o) t ∧ t.mounts = s.mounts) s := by
  cases o
  case none   => exact wlp_pure.mpr ⟨(Did.refl hs).congr neg_zero.symm, rfl⟩
  case some n =>
    rw [bufFree, wlp_freeBuf]
    intro path hn
    refine ⟨⟨kept_withBufs, ok_freeBuf hs, ?_, neat_of_eq rfl rfl rfl⟩, rfl⟩
    rw [balance_freeBuf hn, optRef_some]
    abel

-- One reference less to a mount, and with the last one also to what it is mounted on.
theorem vfsMountRemref_did {fuel : ℕ} (hs : Sane s) :
    wlp (vfsMountRemref fuel m) (fun _ t => Did s (-one (.mount m)) t) s := by
  induction fuel generalizing s m
  case zero => exact wlp_throw.mpr trivial
  case succ fuel hi =>
    simp only [vfsMountRemref, wlp_bind, wlp_getMount, wlp_kassert, wlp_setMount]
    intro v hv h0
    let x := { v with refs := v.refs - 1 }
    have hbalance : (s.withMounts (s.mounts.set m x)).balance = s.balance + -one (.mount m) := by
      have hrefs : v.refs = x.refs + 1 := (Nat.sub_add_cancel h0).symm
      rw [balance_setMount hv, VfsMount.weight, VfsMount.weight, hrefs, succ_nsmul]
      abel
    have hsane : Sane (s.withMounts (s.mounts.set m x)) := ⟨ok_withMounts hs.ok, fun y hy => by
      rw [hbalance, Pi.add_apply, Pi.neg_apply, one_firm rfl hy, neg_zero, add_zero]
      exact hs.firm y hy⟩
    refine wlp_ite.mpr ⟨fun hz => ?_, fun hz => wlp_pure.mpr ⟨kept_withMounts, hsane.ok, hbalance, ?_⟩⟩
    case refine_2 =>
      exact { neat_of_eq (s := s) rfl rfl rfl with
        mounts := Heap.forall_set hv (fun h => absurd h hz) fun _ w _ hw hl => ⟨w, hw, hl⟩ }
    rw [wlp_bind]
    refine wlp_post (wlp_and (vfsreqRefdown_did hsane.ok hsane.waits) (vfsreqRefdown_still _))
      fun _ t hx => ?_
    obtain ⟨ht, hstill⟩ := hx
    rw [wlp_bind]
    refine wlp_post (bufFree_did ht.ok) fun _ u hx => ?_
    obtain ⟨hu, hmounts⟩ := hx
    have hdid := ht.trans hu
    have hheap : u.mounts = s.mounts.set m x := hmounts.trans hstill.mounts
    have hget : u.mounts.get m = some x := by
      rw [hheap]
      exact Heap.get_set_self hv
    simp only [wlp_bind, wlp_freeMount, hget, Option.some_inj]
    rintro _ rfl
    have hneat : Neat s (u.withMounts (u.mounts.free m)) := by
      refine ⟨hdid.neat.backends, Heap.forall_free fun k w hk hw hl => ⟨w, ?_, hl⟩, hdid.neat.reqs, hdid.neat.queues⟩
      rwa [hheap, Heap.get_set_ne hk] at hw
    have hfree : Did s (-one (.mount m) + optRef .mount v.prev) (u.withMounts (u.mounts.free m)) := by
      have hkept : Kept s (s.withMounts (s.mounts.set m x)) := kept_withMounts
      refine ⟨(hkept.trans hdid.kept).trans kept_withMounts, ok_withMounts hdid.ok, ?_, hneat⟩
      rw [balance_freeMount hget, hdid.balance, hbalance, VfsMount.weight, show x.refs = 0 from hz]
      abel
    cases hprev : v.prev
    case none =>
      refine wlp_pure.mpr (hfree.congr ?_)
      rw [hprev, optRef_none, add_zero]
    case some prev =>
      have hsane := hfree.sane hs fun x hx => by
        rw [Pi.add_apply, Pi.neg_apply, one_firm rfl hx, optRef_firm (fun _ => rfl) hx, neg_zero, add_zero]
      refine wlp_post (hi hsane) fun _ z hz => (hfree.trans hz).congr ?_
      rw [hprev, optRef_some]
      abel

theorem sysMountUse_did {o : Option Bid} (hs : Ok s) :
    wlp (sysMountUse o) (fun _ t => Did s (optRef .use o) t ∧ t.procs = s.procs) s := by
  cases o
  case none   => exact wlp_pure.mpr ⟨.refl hs, rfl⟩
  case some b =>
    simp only [sysMountUse, wlp_bind, wlp_getBackend, wlp_kassert, wlp_setBackend]
    intro v hv _
    have huser : ({ v with usehcnt := v.usehcnt + 1 } : VfsBackend).isUser = v.isUser := rfl
    have h := did_setBackend (w := { v with usehcnt := v.usehcnt + 1 }) hs hv ⟨rfl, rfl, .inl rfl⟩ (.inl rfl)
      (hs.reqs.excl b v hv) (fun h => absurd h (Nat.succ_ne_zero _)) fun h => absurd h.1 (Nat.succ_ne_zero _)
    refine ⟨h.congr ?_, rfl⟩
    rw [VfsBackend.weight, VfsBackend.weight, huser, succ_nsmul, optRef_some]
    abel

-- The new mount takes over the reference to those which were there before.
theorem sysMountAppend_rest {backend : Option Bid} {path : List UInt8} (hs : Rest s) (hv : s.procs.get p = some v)
    (hrun : v.state = .running) : wlp (sysMountAppend p backend path) (fun _ t => Rest t) s := by
  rw [sysMountAppend, wlp_bind]
  refine wlp_post (sysMountUse_did hs.ok) fun _ t hx => ?_
  obtain ⟨ht, hprocs⟩ := hx
  have hget : t.procs.get p = some v := hprocs ▸ hv
  have hbuf := @Holding.allocBuf _ _ path (hs.did ht)
  simp only [wlp_bind, wlp_allocBuf, wlp_getProc, State.withBufs_procs, hget, Option.some_inj, wlp_allocMount]
  rintro _ rfl
  simp only [wlp_updProc, State.withMounts_procs, State.withBufs_procs, hget, Option.some_inj]
  rintro _ rfl
  let x : VfsMount := { prev := v.mount, path := path, owned := some t.bufs.size, backend := backend, refs := 1 }
  let u := (t.withBufs (t.bufs.alloc path)).withMounts (t.mounts.alloc x)
  have hmount : Holding u (one (.mount t.mounts.size) - optRef .mount v.mount) := by
    obtain ⟨k, hk⟩ := hbuf.balance
    have hshown := Heap.forall_alloc (a := x) Nat.one_ne_zero fun m w _ => hbuf.tidy.shown m w
    refine ⟨ok_withMounts hbuf.ok, { hbuf.tidy with shown := hshown }, k, ?_⟩
    have halloc := balance_allocMount (s := t.withBufs (t.bufs.alloc path)) (v := x)
    change ((t.withBufs (t.bufs.alloc path)).withMounts ((t.withBufs (t.bufs.alloc path)).mounts.alloc x)).balance = _
    rw [halloc, hk, VfsMount.weight, one_nsmul, State.withBufs_mounts]
    simp only [x, optRef_some]
    abel
  have hset := hmount.setProc (w := { v with mount := some t.mounts.size }) hget rfl fun h => by
    rw [show ({ v with mount := some t.mounts.size } : Proc).state = .running from hrun] at h
    contradiction
  refine sysReturn_rest (hset.congr ?_)
  rw [Proc.weight, Proc.weight]
  change _ + (v.waits p + _ - one (.mount t.mounts.size) - _ - _) = _
  abel

theorem sysMount_rest {hid : Int} {path : Option (List UInt8)} (hs : Rest s) (hv : s.procs.get p = some v)
    (hrun : v.state = .running) : wlp (sysMount p hid path) (fun _ t => Rest t) s := by
  rw [sysMount, wlp_bind]
  refine wlp_of_readonly sysMountPath_readonly fun path => ?_
  cases path
  case none      => exact sysReturn_rest hs
  case some path =>
    rw [wlp_bind]
    refine wlp_of_readonly sysMountHandle_readonly fun o => ?_
    cases o
    case none   => exact sysReturn_rest hs
    case some x => exact sysMountAppend_rest hs hv hrun

end Mount

section Timer

variable {s : State} {d : Balance} {p : Pid} {v : Proc} {l : List Pid}

theorem sum_timer_perm (hl : l.Perm (p :: s.scheduled)) :
    (l.map fun p => one (.timer p)).sum = one (.timer p) + (s.scheduled.map fun p => one (.timer p)).sum :=
  (hl.map _).sum_eq.trans List.sum_cons

theorem Holding.withScheduled (hs : Holding s d) : Holding (s.withScheduled l)
    (d + ((s.scheduled.map fun p => one (.timer p)).sum - (l.map fun p => one (.timer p)).sum)) := by
  obtain ⟨k, hk⟩ := hs.balance
  refine ⟨hs.ok.frame rfl rfl rfl rfl rfl fun _ _ _ _ _ => rfl, { hs.tidy with }, k, ?_⟩
  rw [balance_withScheduled, hk]
  abel

theorem timerSchedule_holding {goal : ℕ} (hs : Holding s d) :
    wlp (timerSchedule p goal) (fun _ t => Holding t d) s := by
  simp only [timerSchedule, wlp_bind]
  rw [wlp_procSetstate_waiting rfl]
  intro v hv hrun
  simp only [wlp_updProc, wlp_get]
  intro w hw
  obtain rfl := Option.some_inj.mp ((Heap.get_set_self hv).symm.trans hw)
  refine wlp_post timerInsert_perm ?_
  rintro l _ ⟨rfl, hp⟩
  rw [wlp_modify, State.withProcs_procs, State.withProcs_procs, Heap.set_set]
  let y : Proc := { v with state := .waits4timer, goal := goal }
  have hset := (hs.setProc (w := y) hv rfl fun h => by contradiction).withScheduled (l := l)
  refine hset.congr ?_
  have hidle : v.waits p = 0 := Proc.waits_idle (by rw [hrun]; rfl)
  have hp : l.Perm (p :: s.scheduled) := hp
  rw [sum_timer_perm hp, Proc.weight, Proc.weight, hidle, hrun, Proc.waits]
  simp only [PState.active, y, if_true, State.withProcs_scheduled]
  abel

-- A process which sleeps is woken up.
theorem Holding.unschedule (hs : Holding s d) (hv : s.procs.get p = some v) (hst : v.state = .waits4timer)
    (hl : s.scheduled.Perm (p :: l)) :
    Holding ((s.withScheduled l).withProcs (s.procs.set p { v with state := .running })) d := by
  have hset := (hs.withScheduled (l := l)).setProc (w := { v with state := .running }) hv rfl fun h => by contradiction
  refine hset.congr ?_
  have hwaits : v.waits p = one (.timer p) := by rw [Proc.waits, hst]
  rw [sum_timer_perm (s := s.withScheduled l) hl, Proc.weight_wake (by rw [hst]; rfl), hwaits]
  simp only [State.withScheduled_scheduled]
  abel

theorem timerDeschedule_holding (hs : Holding s d) : wlp (timerDeschedule p) (fun _ t => Holding t d) s := by
  simp only [timerDeschedule, wlp_bind, wlp_getProc, wlp_kassert, wlp_get, wlp_modify, wlp_procSetstate_running]
  intro v hv hst hp w hw _
  obtain rfl := Option.some_inj.mp (hv.symm.trans hw)
  exact hs.unschedule hv hst (List.perm_cons_erase hp)

theorem procTryintr_holding (hs : Holding s d) : wlp (procTryintr p) (fun _ t => Holding t d) s := by
  simp only [procTryintr, wlp_bind, wlp_getProc, wlp_ite, wlp_pure]
  exact fun _ _ => ⟨fun _ => timerDeschedule_holding hs, fun _ => hs⟩

theorem hpetIrq_rest {counter : ℕ} (hs : Rest s) : wlp (hpetIrq counter) (fun _ t => Rest t) s := by
  simp only [hpetIrq, wlp_bind, wlp_get]
  cases hl : s.scheduled
  case nil         => exact wlp_pure.mpr hs
  case cons p rest =>
    simp only [wlp_bind, wlp_getProc, wlp_ite, wlp_modify, wlp_procSetstate_running, wlp_pure]
    refine fun v hv => ⟨fun _ w hw _ => ?_, fun _ => hs⟩
    obtain rfl := Option.some_inj.mp (hv.symm.trans hw)
    -- Whoever is on the list sleeps.
    have hst : v.state = .waits4timer := by
      have h := hs.apply (x := .timer p) (by simp)
      rw [balance_timer, hv, hl, List.count_cons_self, Option.elim_some, Pi.zero_apply] at h
      by_contra hn
      rw [if_neg hn] at h
      omega
    exact hs.unschedule hv hst (by rw [hl])

end Timer

section Front

variable {s : State} {d : Balance} {p : Pid} {h : Hid} {b : Bid} {v : Handle}

-- What a handle of a filesystem gives access to.
theorem Holding.setFront (hs : Holding s d) (hv : s.handles.get h = some v) (ht : v.type = .fsFront) :
    Holding (s.withHandles (s.handles.set h { v with backend := some b })) (d + optRef .use v.backend - one (.use b)) := by
  obtain ⟨k, hk⟩ := hs.balance
  refine ⟨?_, hs.tidy.setHandle hv id rfl, k, ?_⟩
  · refine ok_setHandle hs.ok hv rfl (fun hf => ?_) (hs.ok.reqs.reqs h v hv)
      (hs.ok.pipes_set hv rfl rfl rfl rfl rfl fun _ => id)
    rw [ht] at hf
    contradiction
  · have hset := balance_setHandle (w := { v with backend := some b }) hv
    rw [hset, hk, Handle.weight, Handle.weight, optRef_some]
    abel

theorem Holding.allocBackend {w : VfsBackend} (hs : Holding s d) (hq : w.queue = []) (hu : w.usehcnt ≠ 0) :
    Holding (s.withBackends (s.backends.alloc w)) (d + w.weight s.backends.size) := by
  obtain ⟨k, hk⟩ := hs.balance
  have hneeded := Heap.forall_alloc (a := w) (fun hl : w.Lost => hu hl.1) fun b x _ => hs.tidy.needed b x
  have hawaited := Heap.forall_alloc (a := w) (fun hl : w.Stuck => hl.2 hq) fun b x _ => hs.tidy.awaited b x
  refine ⟨ok_allocBackend hs.ok hq hu, { hs.tidy with needed := hneeded, awaited := hawaited }, k, ?_⟩
  rw [balance_allocBackend, hk]
  abel

theorem procfsBackend_holding (hs : Holding s d) :
    wlp (procfsBackend p) (fun b t => Holding t (d + one (.use b)) ∧ t.handles = s.handles) s := by
  simp only [procfsBackend, wlp_bind, wlp_allocBackend, wlp_getProc, wlp_kassert, wlp_setProc, wlp_pure]
  intro v hv _
  have halloc := hs.allocBackend (w := { usehcnt := 1, provhcnt := 1, access := .kern (some p) }) rfl Nat.one_ne_zero
  have hset := halloc.setProc (w := { v with refcount := (v.refcount + 1) % 2 ^ 32 }) hv rfl (hs.tidy.buried p v hv)
  refine ⟨hset.congr ?_, rfl⟩
  change d + (1 • one (.use s.backends.size) + 0 - 0 - 0) + (v.weight p - v.weight p) = _
  rw [one_nsmul]
  abel

theorem sysGetprocfs_rest {flags : Flags} (hs : Rest s) : wlp (sysGetprocfs p flags) (fun _ t => Rest t) s := by
  refine wlp_ite.mpr ⟨fun _ => sysReturn_rest hs, fun _ => ?_⟩
  rw [wlp_bind]
  refine wlp_post (hs.respects firm_zero procNsCreate_same) fun _ t ht => ?_
  rw [wlp_bind]
  refine wlp_post (procHandleInit_holding ht) fun o u hx => ?_
  obtain ⟨hu, _, ho⟩ := hx
  obtain _ | ⟨i, h⟩ := o
  case none => exact sysReturn_rest hu
  case some =>
    obtain ⟨rfl, hh⟩ := ho i h rfl
    rw [wlp_bind]
    refine wlp_post (procfsBackend_holding hu) fun b z hx => ?_
    obtain ⟨hz, hsame⟩ := hx
    have hget : z.handles.get t.handles.size = some { type := .fsFront } := by
      rw [hsame, hh, Heap.get_alloc_self]
    rw [wlp_bind, wlp_updHandle]
    intro v hv
    obtain rfl := Option.some_inj.mp (hget.symm.trans hv)
    exact sysReturn_rest ((hz.setFront hv rfl).congr (by simp))

end Front
end Camellia
