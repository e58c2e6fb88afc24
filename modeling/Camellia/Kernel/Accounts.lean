import Camellia.Kernel.Offspring
import Camellia.Kernel.Pipes

namespace Camellia

-- Whatever enters the kernel, it is at rest when it has left the kernel again.

section Enter

variable {s t : State} {p : Pid} {r : Rid} {e : Entry} {env : Env}

theorem sysWait2_rest {pid : Int} {flags : Flags} {out : ℕ} (hs : Rest s) :
    wlp (sysWait2 p pid flags out) (fun _ t => Rest t) s := by
  by_cases hflags : flags ≠ 0
  case pos =>
    rw [sysWait2, if_pos hflags]
    exact sysReturn_rest hs
  case neg =>
    refine wlp_sysWait2 (fun h => absurd h hflags) fun v hv hrun _ => ?_
    have hidle : v.state.idle := by rw [hrun]; rfl
    have hset {state : PState} (hi : state.idle) (ha : state.active) (rax : Int) :
        Rest (s.withProcs (s.procs.set p
          { v with state := state, awaitedPid := pid.toNat, awaitedOut := out, rax := rax })) :=
      hs.same firm_zero (same_setProc hv ⟨.inr ⟨hidle, hi, ha.trans (by rw [hrun]; rfl)⟩, rfl, rfl, rfl, rfl, rfl⟩)
    refine wlp_post ((hset rfl rfl v.rax).respects firm_zero sysWait2Loop_same) fun found t ht => ?_
    cases found
    case true  => exact ht
    case false => exact hset rfl rfl (-ECHILD)

-- A driver finishes a request which it has kept.
theorem enterFinish_rest {ret : Int} (hs : Rest s) (hr : r ∈ s.held) :
    wlp (enter env (.finish r ret)) (fun _ t => Rest t) s := by
  simp only [enter, wlp_bind, wlp_modify]
  obtain ⟨k, hk⟩ := hs.balance
  have hheld : Holding (s.withHeld (s.held.erase r)) (one (.place r)) := by
    refine ⟨ok_withHeld hs.ok, { hs.tidy with }, k, ?_⟩
    have hperm := ((List.perm_cons_erase hr).map fun r => one (Ref.place r)).sum_eq
    rw [balance_withHeld, hk, hperm, List.map_cons, List.sum_cons]
    abel
  have hpend : s.Pending r := by
    refine hs.sane.placed.pending ?_
    have hhandles : 0 ≤ s.handles.total fun _ v => if v.req = some r then (1 : ℤ) else 0 :=
      Heap.total_nonneg fun _ _ => by split_ifs <;> decide
    have hqueues : 0 ≤ s.backends.total fun _ v => (v.queue.count r : ℤ) :=
      Heap.total_nonneg fun _ _ => Int.natCast_nonneg _
    have hcount := List.count_pos_iff.mpr hr
    omega
  refine wlp_post (vfsreqFinishShort_finishes _ r ret (hheld.sane fun x _ => one_nonneg) hpend) fun _ t ht => ?_
  exact hheld.rest ht

theorem enterSyscall_rest {call : Syscall} (hs : Rest s) (hok : SharesOk s)
    (hp : ∃ v, s.procs.get p = some v ∧ v.state = .running) :
    wlp (enter env (.syscall p call)) (fun _ t => Rest t) s := by
  obtain ⟨v, hv, hrun⟩ := hp
  cases call
  case exit ret            => exact procKill_rest hs hok
  case fork flags          => exact sysFork_rest hs hok
  case «open» path flags   => exact sysOpen_rest hs
  case mount hid path      => exact sysMount_rest hs hv hrun
  case dup src dst flags   => exact sysDup_rest hs
  case read                => exact simpleVfsop_rest hs (.inl rfl)
  case write               => exact sysWrite_rest hs
  case getsize             => exact simpleVfsop_rest hs (.inr (.inr rfl))
  case remove              => exact sysRemove_rest hs
  case close               => exact sysClose_rest hs
  case fsWait              => exact sysFsWait_rest hs
  case fsRespond           => exact sysFsRespond_rest hs
  case pipe                => exact sysPipe_rest hs
  case sleep goal          => exact timerSchedule_holding hs
  case wait2 pid flags out => exact sysWait2_rest hs
  case getprocfs flags     => exact sysGetprocfs_rest hs

theorem Step.rest (h : Step s e t) (hs : Rest s) (hok : SharesOk s) : Rest t := by
  refine h.of_wlp fun env => ?_
  cases e
  case syscall p call => exact enterSyscall_rest hs hok h.enabled
  case kill p ret     => exact procKill_rest hs hok
  case intr p         => exact procTryintr_holding hs
  case prune          => exact hs.respects firm_zero procPruneLeaves_same
  case timer counter  => exact hpetIrq_rest hs
  case finish r ret   => exact enterFinish_rest hs h.enabled

end Enter

section Boot

variable {paths : List (List UInt8)} {boot : State × Option Mid} {path : List UInt8} {s : State}

theorem staticState_handle {h : Hid} {v : Handle} (hv : staticState.handles.get h = some v) :
    v = { type := .fsFront, refcount := 2 } := by
  obtain _ | h := h
  · exact (Option.some_inj.mp hv).symm
  · contradiction

theorem ok_staticState : Ok staticState := by
  have hbacks (b : Bid) : staticState.backends.get b = none := rfl
  have hreqs (r : Rid) : staticState.reqs.get r = none := rfl
  refine ⟨⟨?_, ?_, ?_, ?_, ?_, ?_, fun b => List.prefix_rfl⟩, ⟨?_, ?_, ?_⟩, fun h v hv => ?_⟩
  case refine_7  => exact fun b r m hm => by contradiction
  case refine_9  => exact fun h b id hm => by contradiction
  case refine_5  => exact fun h v hv hr => absurd (by rw [staticState_handle hv]) hr
  case refine_8  => exact fun h v b hv hf => by rw [staticState_handle hv] at hf; contradiction
  case refine_10 =>
    rw [staticState_handle hv]
    exact ⟨.nil, fun p hp => by contradiction, fun _ => ⟨rfl, rfl⟩, fun _ => rfl, fun g hg => by contradiction⟩
  all_goals simp [hbacks, hreqs]

-- The static handle is kept alive by two references which nobody has.
theorem holding_staticState : Holding staticState 0 := by
  refine ⟨ok_staticState, ⟨fun h v hv => ?_, fun p v hv => by contradiction, fun b v hv => by contradiction,
    fun m v hv => by contradiction, fun r w hw => by contradiction, fun b v hv => by contradiction,
    Nat.one_pos, fun v hv => by rw [staticState_handle hv]⟩, 2, ?_⟩
  · rw [staticState_handle hv]
    exact two_ne_zero
  · have hhandles : staticState.handles.total Handle.weight = 2 • one (.handle nullfs) := by
      change (Handle.weight 0 { type := .fsFront, refcount := 2 }) + 0 = _
      simp [Handle.weight, nullfs]
    rw [State.balance, hhandles]
    simp only [staticState, Heap.total, Heap.empty, List.zipIdx_nil, List.map_nil, List.sum_nil, add_zero, zero_add,
      sub_zero]
    exact (natCast_zsmul _ 2).symm

-- The list of mounts is kept alive by the one who got it.
theorem vfsRootRegister_holding (h : Holding boot.1 (optRef .mount boot.2)) :
    Holding (vfsRootRegister boot path).1 (optRef .mount (vfsRootRegister boot path).2) := by
  let x : VfsBackend := { usehcnt := 1, provhcnt := 1, access := .kern none }
  let m : VfsMount := { prev := boot.2, path := path, backend := some boot.1.backends.size, refs := 1 }
  have hback := h.allocBackend (w := x) rfl Nat.one_ne_zero
  obtain ⟨k, hk⟩ := hback.balance
  have hshown := Heap.forall_alloc (a := m) Nat.one_ne_zero fun i w _ => hback.tidy.shown i w
  refine ⟨ok_withMounts hback.ok, { hback.tidy with shown := hshown }, k, ?_⟩
  have halloc := balance_allocMount (s := boot.1.withBackends (boot.1.backends.alloc x)) (v := m)
  refine halloc.trans ?_
  have hx : x.weight boot.1.backends.size = one (.use boot.1.backends.size) := by
    simp only [VfsBackend.weight, VfsBackend.isUser, Access.handler, x, one_nsmul, List.map_nil, List.sum_nil, sub_zero,
      optRef_none, add_zero, Bool.false_eq_true, if_false]
  rw [hk, hx, VfsMount.weight]
  simp only [m, optRef_some, optRef_none, one_nsmul, vfsRootRegister]
  change _ + (one (.mount boot.1.mounts.size) - _ - _ - _) = _
  abel

theorem rest_bootState : Rest (bootState paths) := by
  have hfold : ∀ boot : State × Option Mid, Holding boot.1 (optRef .mount boot.2) →
      Holding (paths.foldl vfsRootRegister boot).1 (optRef .mount (paths.foldl vfsRootRegister boot).2) := by
    induction paths
    case nil                => exact fun _ h => h
    case cons path paths hi => exact fun boot h => hi _ (vfsRootRegister_holding h)
  have hboot := hfold (staticState, none) holding_staticState
  have heq := (@registered_foldl paths (staticState, none)).eq
  generalize hb : paths.foldl vfsRootRegister (staticState, none) = boot at hboot heq
  have hinit : Rest ((boot.1.withProcs (boot.1.procs.alloc (procInit boot.2))).withTables
      (boot.1.tables.alloc fun _ => none)) := by
    refine (hboot.allocProc (w := procInit boot.2) rfl rfl).withTables.congr ?_
    have htable : Table.weight (fun _ => none) = 0 := by simp [Table.weight]
    have hproc : (procInit boot.2).weight boot.1.procs.size = -optRef .mount boot.2 := by
      simp [Proc.weight, Proc.waits, procInit, PState.active]
    rw [Heap.total_alloc, htable, hproc, State.withProcs_tables]
    abel
  have hdirs := hinit.same firm_zero (@same_withPagedirs _ (boot.1.pagedirs.alloc ()))
  have hseed := hdirs.same firm_zero (same_withNextPid (n := 2))
  rw [show boot.1.procs = .empty by rw [heq]; rfl, show boot.1.tables = .empty by rw [heq]; rfl,
    show boot.1.pagedirs = .empty by rw [heq]; rfl] at hseed
  rw [bootState, hb]
  exact hseed

-- The invariant behind all counters, queues and flags of the kernel.
theorem Run.rest {C : State → Entry → Prop} (hr : Run C paths s) : Rest s := by
  induction hr
  case boot             => exact rest_bootState
  case step hr _ hst hi => exact hst.rest hi hr.shares.1

end Boot

section LastUser

-- The calls of `proc_kill`: the kernel was entered for it, or `_sys_fork` has no handle for the child.
inductive Killing (s : State) (env : Env) : Pid → State → State → Prop
  | enter {p : Pid} {ret : Int} {t : State} : procKill env p ret s = .ok ((), t) → Killing s env p s t
  | fork {p c : Pid} {flags : Flags} {x y z u t : State} :
    flags.has FORK_NEWFS → procFork p flags s = .ok (c, x) → regsSavereturn c 0 x = .ok ((), y) →
    sysForkNewfs p c y = .ok (false, z) → updProc c ({ · with noreap := true }) z = .ok ((), u) →
    procKill env c (-EMFILE) u = .ok ((), t) → Killing s env c u t

variable {s t u : State} {env : Env} {p : Pid} {v : Proc} {T : Tid} {ret : Int} {b : Bool}
variable {uses : Pid ⊕ Pid → Option (Resource × Option Cid)}

-- The death of `p` frees the table `T`.
structure TableClosed (env : Env) (p : Pid) (T : Tid) (s : State) : Prop where
  closed : ∃ y v u x, procKillUntilHandles p s = .ok ((), y) ∧
    y.procs.get p = some v ∧ v.handles = some T ∧ unref v.handlesRefcount y = .ok (true, u) ∧
    procKillSlots env p u = .ok ((), x) ∧
    -- After this loop all slots are empty, and the counters fell by the number of the slots.
    x.tables.get T = some (fun _ => none) ∧ ∃ table, u.tables.get T = some table ∧ Falls table.holds u x

theorem Unref.true_of_value {o : Option Cid} (h : Unref s o b t) (hone : s.sharing.value o = some 1) : b = true := by
  by_contra hb
  obtain ⟨c, n, rfl, hc, hn, _⟩ := h.left (eq_false_of_ne_true hb)
  have hvalue : s.counts.get c = some 1 := hone
  rw [hc, Option.some_inj] at hvalue
  omega

theorem get_of_getProc (hr : getProc p s = .ok (v, t)) : s = t ∧ s.procs.get p = some v := by
  have h : wlp (getProc p) (fun w x => s = x ∧ s.procs.get p = some w) s := wlp_getProc.mpr fun _ hv => ⟨rfl, hv⟩
  exact (wlp_of_ok hr h :)

-- The table of the last user is closed.
theorem procKillHandles_closed (h : Leaving p 0 s v) (hk : KillStage p uses b s) (hT : v.handles = some T)
    (hone : s.sharing.value v.handlesRefcount = some 1) (hr : procKillHandles env p s = .ok ((), t)) :
    ∃ u x, unref v.handlesRefcount s = .ok (true, u) ∧ procKillSlots env p u = .ok ((), x) ∧
      x.tables.get T = some (fun _ => none) ∧ ∃ table, u.tables.get T = some table ∧ Falls table.holds u x := by
  have hlive : ∃ table, s.tables.get T = some table := by
    have : s.Allocated (.inr T) := (hk.valid.live (.inr T)).mpr ⟨.inr p, v.handlesRefcount, by
      simp [State.sharing, h.proc, hT]⟩
    exact Option.isSome_iff_exists.mp this
  obtain ⟨table, htable⟩ := hlive
  obtain ⟨v', s', hget, hr⟩ := bind_ok hr
  obtain ⟨rfl, hv⟩ := get_of_getProc hget
  obtain rfl := Option.some_inj.mp (h.proc.symm.trans hv)
  obtain ⟨last, u, hunref, hr⟩ := bind_ok hr
  have hu := wlp_of_ok hunref unref_spec
  obtain rfl := hu.true_of_value hone
  obtain ⟨counts, rfl⟩ := hu.eq
  rw [if_pos rfl] at hr
  obtain ⟨_, y, htab, _⟩ := bind_ok hr
  obtain ⟨_, x, hslots, _⟩ := bind_ok htab
  have hclear := wlp_of_ok hslots (procKillSlots_clearing h.withCounts hT (hk.alone h.proc hT hone) htable)
  obtain ⟨table', htable', hnone⟩ := hclear.cleared
  obtain ⟨gone, hgone, hcount⟩ := hclear.falls
  have hempty : table' = fun _ => none := funext fun i => (hnone i).trans (if_neg List.not_mem_nil)
  have hall : gone = table.holds := funext fun g => by simpa using hcount g
  exact ⟨_, x, hunref, hslots, hempty ▸ htable', table, htable, hall ▸ hgone⟩

-- A table which is freed by a death is closed before.
theorem procKill_closed (hs : Rest s) (hok : SharesOk s) (hr : procKill env p ret s = .ok ((), t))
    (hlive : s.Allocated (.inr T)) (hfree : ¬t.Allocated (.inr T)) : TableClosed env p T s := by
  obtain ⟨ht, husers⟩ := wlp_of_ok hr (procKill_users (e := .kill p ret) hok rfl)
  obtain ⟨q, hq, hsharers⟩ := (husers.freed_iff hok ht hlive).mp hfree
  obtain rfl := Option.some_inj.mp hq
  obtain ⟨v, hv, ha, hT⟩ : p ∈ s.sharers (.inr T) := hsharers ▸ Set.mem_singleton p
  obtain ⟨_, T', _, hT', _, huse⟩ := hok.uses_alive hv ha
  obtain rfl := Option.some_inj.mp (hT.symm.trans hT')
  obtain ⟨v', s', hget, hr⟩ := bind_ok hr
  obtain ⟨rfl, hv'⟩ := get_of_getProc hget
  obtain rfl := Option.some_inj.mp (hv.symm.trans hv')
  rw [if_pos ha, procKillAlive_eq] at hr
  obtain ⟨_, _, halive, _⟩ := bind_ok hr
  obtain ⟨_, _, huntil, _⟩ := bind_ok halive
  obtain ⟨_, y, hy, huntil⟩ := bind_ok huntil
  obtain ⟨_, z, hz, _⟩ := bind_ok huntil
  have hk := wlp_of_ok hy (procKillUntilHandles_spec hok hv ha)
  obtain ⟨w, hw⟩ := wlp_of_ok hy (procKillUntilHandles_leaving hs hv (hok.active hv ha))
  obtain ⟨hwT, hwc⟩ : w.handles = some T ∧ w.handlesRefcount = v.handlesRefcount := by
    rw [← hk.uses] at huse
    simpa [State.sharing, hw.proc] using huse
  have hone : y.sharing.value w.handlesRefcount = some 1 := by
    rw [hwc, hk.valid.value_eq (hk.uses ▸ huse)]
    have hcard : (y.sharing.users (.inr T)).ncard = (s.sharers (.inr T)).ncard := by
      rw [← hok.ncard_users, Sharing.users, Sharing.users, hk.uses]
    rw [hcard, hsharers, Set.ncard_singleton]
  obtain ⟨u, x, hu, hx, hclosed⟩ := procKillHandles_closed hw hk hwT hone hz
  exact ⟨y, w, u, x, hy, hw.proc, hwT, hu, hx, hclosed⟩

theorem Killing.ok (h : Killing s env p u t) (hs : Rest s) (hok : SharesOk s) :
    Rest u ∧ SharesOk u ∧ ∃ ret, procKill env p ret u = .ok ((), t) := by
  cases h
  case enter ret hr => exact ⟨hs, hok, ret, hr⟩
  case fork q flags x y z hflags hx hy hz hu hr =>
    obtain ⟨hrx, w, hw, hrun, hnone⟩ := wlp_of_ok hx (procFork_rest hs hok)
    have hox := (wlp_of_ok hx (procFork_spec hok)).1
    have hret : wlp (regsSavereturn p 0) (fun _ y => Rest y ∧ SharesOk y ∧ y.procs.get p = some { w with rax := 0 }) x := by
      rw [wlp_regsSavereturn]
      intro w' hw'
      obtain rfl := Option.some_inj.mp (hw.symm.trans hw')
      exact ⟨hrx.same firm_zero (same_setProc hw ⟨.inl rfl, rfl, rfl, rfl, rfl, rfl⟩),
        hox.setProc hw rfl rfl (by simp [hrun]), Heap.get_set_self hw⟩
    obtain ⟨hry, hoy, hwy⟩ := wlp_of_ok hy hret
    have hrz := wlp_of_ok hz (sysForkNewfs_rest hry hwy hrun (hnone hflags))
    have hoz := hoy.peace (wlp_of_ok hz (sysForkNewfs_calm _)).peace
    have hset : wlp (updProc p ({ · with noreap := true })) (fun _ u => Rest u ∧ SharesOk u) z := by
      rw [wlp_updProc]
      exact fun v hv => ⟨hrz.noreap hv, hoz.noreap hv⟩
    exact ⟨(wlp_of_ok hu hset).1, (wlp_of_ok hu hset).2, _, hr⟩

-- What is true of address spaces and tables of handles in every state.
structure DiesWithLastUser (s : State) : Prop where
  counted : ∀ p v, s.procs.get p = some v → v.state.alive → ∃ d i,
    v.pages = some d ∧ s.Allocated (.inl d) ∧
      s.refcount v.pagesRefcount = some (s.sharers (.inl d)).ncard ∧
    v.handles = some i ∧ s.Allocated (.inr i) ∧
      s.refcount v.handlesRefcount = some (s.sharers (.inr i)).ncard
  freed   : ∀ e t r, Step s e t → s.Allocated r →
    (¬t.Allocated r ↔ ∃ p, e.kills = some p ∧ s.sharers r = {p})
  once    : ∀ e t r, Step s e t → s.Created r → t.Created r ∧ (¬s.Allocated r → ¬t.Allocated r)
  -- Slot by slot, before the table is freed.
  closed  : ∀ env p u t T, Killing s env p u t → u.Allocated (.inr T) → ¬t.Allocated (.inr T) → TableClosed env p T u
  -- However far `proc_kill` gets, it does not fail because of what it gives up.
  handles : ∀ env p v, s.procs.get p = some v → v.state.alive →
    wlp (procKillUntilHandles p) (fun _ t => ∃ last u, unref v.handlesRefcount t = .ok (last, u) ∧
      wlp (procKillSlots env p)
        (fun _ x => ∃ y, (do freeTable (← procTable p) : K Unit) x = .ok ((), y)) u) s
  pages   : ∀ env p v ret, s.procs.get p = some v → v.state.alive →
    wlp (procKillUntilPages env p ret) (fun _ t => ∃ u, procKillPages p t = .ok ((), u)) s

theorem reachable_diesWithLastUser {paths : List (List UInt8)} (hr : Reachable paths s) :
    DiesWithLastUser s := by
  have ⟨hs, ht⟩ := hr.shares
  refine ⟨fun p v hv ha => ?_, fun e t r hstep hl => ?_, fun e t r hstep hc => ?_,
    fun env p u t T hkill hl hf => ?_, fun env p v hv ha => ?_, fun env p v ret hv ha => ?_⟩
  · have ⟨d, i, hd, hi, huse, huse'⟩ := hs.uses_alive hv ha
    refine ⟨d, i, hd, hs.allocated_iff.mpr ⟨p, v, hv, ha, hd⟩, hs.refcount_eq huse, hi,
      hs.allocated_iff.mpr ⟨p, v, hv, ha, hi⟩, hs.refcount_eq huse'⟩
  · have ⟨hs', _, hu⟩ := hstep.users hs ht
    exact hu.freed_iff hs hs' hl
  · have ⟨_, _, hu⟩ := hstep.users hs ht
    exact ⟨hu.grown.created hc, hu.fresh r hc⟩
  · obtain ⟨hrest, hok, _, hrun⟩ := hkill.ok hr.rest hs
    exact procKill_closed hrest hok hrun hl hf
  · have ⟨d, i, _, _, _, huse⟩ := hs.uses_alive hv ha
    exact wlp_post (procKillUntilHandles_spec hs hv ha) fun _ _ h => procKillHandles_ok h huse
  · have ⟨d, i, _, _, huse, _⟩ := hs.uses_alive hv ha
    exact wlp_post (procKillUntilPages_spec hs hv ha) fun _ _ h =>
      procKillPages_ok h (by simpa using huse)

-- A child has the ends of a pipe in its own table, which dies with it, and the first process keeps them. Both
-- processes share the address space.
theorem forked_diesWithLastUser : ∃ t u,
    enterAll quietEnv [.syscall 0 (.pipe 0), .syscall 0 (.fork FORK_SHAREMEM)] (bootState [[]]) = some t ∧
    t.counts.get 0 = some 2 ∧ (t.handles.get 1).map Handle.refcount = some 2 ∧ t.Allocated (.inr 1) ∧
    DiesWithLastUser t ∧ Step t (.kill 1 0) u ∧
    u.counts.get 0 = some 1 ∧ (u.handles.get 1).map Handle.refcount = some 1 ∧ ¬u.Allocated (.inr 1) := by
  have hrun : ((enterAll quietEnv [.syscall 0 (.pipe 0), .syscall 0 (.fork FORK_SHAREMEM)] (bootState [[]])).any fun t =>
      decide (t.counts.get 0 = some 2 ∧ (t.handles.get 1).map Handle.refcount = some 2 ∧ (t.tables.get 1).isSome) &&
      (enterAll quietEnv [.kill 1 0] t).any fun u =>
        decide (u.counts.get 0 = some 1 ∧ (u.handles.get 1).map Handle.refcount = some 1 ∧ ¬(u.tables.get 1).isSome)) := by
    decide +kernel
  obtain ⟨t, ht, hrun⟩ := (Option.any_eq_true _ _).mp hrun
  obtain ⟨hbefore, hkill⟩ := Bool.and_eq_true_iff.mp hrun
  obtain ⟨u, hu, hafter⟩ := (Option.any_eq_true _ _).mp hkill
  obtain ⟨hcount, hpipe, hlive⟩ := of_decide_eq_true hbefore
  obtain ⟨hcount', hpipe', hfree⟩ := of_decide_eq_true hafter
  exact ⟨t, u, ht, hcount, hpipe, hlive, reachable_diesWithLastUser (.enterAll .boot ht), .of_enterAll hu,
    hcount', hpipe', hfree⟩

end LastUser

end Camellia
