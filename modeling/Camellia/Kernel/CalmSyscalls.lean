import Camellia.Kernel.Calm
import Camellia.Kernel.Syscalls

namespace Camellia

section Life

variable {env : Env} {p b h : ℕ}

@[grind ←]
theorem handleCloseSlot_calm {o : Option Hid} : Respects Calm (handleCloseSlot env o) := by
  cases o
  case none   => exact respects_pure
  case some h => exact handleClose_calm vfsreqFinishShort_calm

@[grind ←]
theorem handleRef_calm {o : Option Hid} : Respects Calm (handleRef o) := by
  cases o <;> grind [handleRef]

@[grind ←]
theorem procHandleSet_calm {i : Fin HANDLE_MAX} {o : Option Hid} :
    Respects Calm (procHandleSet env p i o) := by
  grind [procHandleSet]

@[grind ←]
theorem procHandleDupSlot_calm {dst : Int} {flags : Flags} :
    Respects Calm (procHandleDupSlot p dst flags) := by
  simp only [procHandleDupSlot]
  grind

@[grind ←]
theorem procHandleDup_calm {src dst : Int} {flags : Flags} :
    Respects Calm (procHandleDup env p src dst flags) := by
  refine .bind procHandleDupSlot_calm fun x => ?_
  cases x <;> grind

@[grind ←]
theorem procHandleClose_calm {hid : Int} : Respects Calm (procHandleClose env p hid) := by
  grind [procHandleClose]

@[grind ←]
theorem bufFree_calm {o : Option ℕ} : Respects Calm (bufFree o) := by
  cases o <;> grind [bufFree]

@[grind ←]
theorem vfsMountRemref_calm {fuel m : ℕ} : Respects Calm (vfsMountRemref fuel m) := by
  induction fuel generalizing m
  case zero => exact respects_throw
  case succ fuel hi =>
    refine .bind getMount_respects fun v => .bind kassert_respects fun _ => .bind setMount_calm fun _ => ?_
    refine .ite (.bind vfsreqRefdown_calm fun _ => .bind bufFree_calm fun _ =>
      .bind freeMount_calm fun _ => ?_) respects_pure
    cases v.prev
    case none   => exact respects_pure
    case some _ => exact hi

@[grind ←]
theorem procKillControlled_calm : Respects Calm (procKillControlled p) := by
  have hnone : Respects Calm (updProc p ({ · with controlled := none })) :=
    updProc_calm (fun _ => ⟨rfl, .inl rfl⟩) fun _ => rfl
  have hhandler {b : Bid} : Respects Calm (procKillHandler p b) := by
    grind [procKillHandler]
  refine .bind getProc_respects fun v => ?_
  cases v.controlled
  case none   => exact respects_pure
  case some b => exact .bind hhandler fun _ => .bind vfsBackendRefdownProv_calm fun _ => hnone

@[grind ←]
theorem procKillReqslot_calm : Respects Calm (procKillReqslot p) := by
  have hnone : Respects Calm (updProc p ({ · with reqslot := none })) :=
    updProc_calm (fun _ => ⟨rfl, .inl rfl⟩) fun _ => rfl
  refine .bind getProc_respects fun v => ?_
  cases v.reqslot
  case none   => exact .ite respects_throw respects_pure
  case some r => exact .ite (.bind getReq_respects fun _ => .bind setReq_calm fun _ => hnone) freeReq_calm

@[grind ←]
theorem procKillPipe_calm : Respects Calm (procKillPipe p) := by
  grind [procKillPipe]

@[grind ←]
theorem procKillMount_calm : Respects Calm (procKillMount p) := by
  have hnone : Respects Calm (updProc p ({ · with mount := none })) :=
    updProc_calm (fun _ => ⟨rfl, .inl rfl⟩) fun _ => rfl
  refine .bind getProc_respects fun v => ?_
  cases v.mount
  case none   => exact respects_throw
  case some m => exact .bind respects_get fun _ => .bind vfsMountRemref_calm fun _ => hnone

end Life

section Timer

variable {s : State} {p : Pid} {v : Proc}

-- A process leaves the list of the timer.
theorem calm_wakeTimer {l : List Pid} (hv : s.procs.get p = some v) (hs : v.state = .waits4timer)
    (hl : s.scheduled.Perm (p :: l)) (hsub : l.Sublist s.scheduled) :
    Calm s ((s.withScheduled l).withProcs (s.procs.set p { v with state := .running })) where
  procs      := .set .refl hv ⟨rfl, .inr ⟨by simp [hs, PState.active], by simp [hs], rfl, by simp⟩⟩
  tables     := .refl fun _ => trivial
  counts     := rfl
  pagedirs   := rfl
  first      := rfl
  nextPid    := rfl
  deadLeaves := rfl
  scheduled  := hsub
  timer      := fun h q => by
    have hq := h q
    rw [hl.count_eq, List.count_cons] at hq
    show l.count q = ((s.procs.set p { v with state := .running }).get q).elim 0 _
    rw [Heap.get_set hv]
    by_cases hqp : q = p
    case pos => simpa [hqp, hv, hs] using hq
    case neg => simpa [hqp, Ne.symm hqp] using hq
  reports    := rfl

@[grind ←]
theorem timerDeschedule_calm : Respects Calm (timerDeschedule p) := by
  intro s
  simp only [timerDeschedule, wlp_bind, wlp_getProc, wlp_kassert, wlp_get, wlp_modify,
    wlp_procSetstate_running]
  intro v hv hs hp w hw _
  obtain rfl := Option.some_inj.mp (hv.symm.trans hw)
  exact calm_wakeTimer hv hs (List.perm_cons_erase hp) List.erase_sublist

@[grind ←]
theorem procKillTimer_calm : Respects Calm (procKillTimer p) := by
  grind [procKillTimer]

@[grind ←]
theorem procTryintr_calm : Respects Calm (procTryintr p) := by
  grind [procTryintr]

-- The timer wakes up processes which sleep, and nobody else.
theorem hpetIrq_calm {counter : ℕ} (ht : TimerOk s) :
    wlp (hpetIrq counter) (fun _ t => Calm s t) s := by
  simp only [hpetIrq, wlp_bind, wlp_get]
  cases hl : s.scheduled
  case nil => exact wlp_pure.mpr (refl_of Calm s)
  case cons p rest =>
    simp only [wlp_bind, wlp_getProc, wlp_ite, wlp_modify, wlp_procSetstate_running, wlp_pure]
    refine fun v hv => ⟨fun _ w hw _ => ?_, fun _ => refl_of Calm s⟩
    obtain rfl := Option.some_inj.mp (hv.symm.trans hw)
    have hs : v.state = .waits4timer := by
      have := ht p
      rw [hl, hv, List.count_cons_self, Option.elim_some] at this
      by_contra hn
      rw [if_neg hn] at this
      omega
    exact calm_wakeTimer hv hs (by rw [hl]) (hl ▸ List.sublist_cons_self p rest)

end Timer

section Syscalls

variable {env : Env} {p h : ℕ}

@[grind ←]
theorem sysReturn_calm {ret : Int} : Respects Calm (sysReturn p ret) := by
  grind [sysReturn]

@[grind ←]
theorem pathBufSimplify_calm {path : List UInt8} : Respects Calm (pathBufSimplify path) := by
  simp only [pathBufSimplify]
  split
  · exact respects_pure
  · exact respects_throw

@[grind ←]
theorem vfsMountResolve_calm {path : List UInt8} {fuel : ℕ} {top : Option Mid} :
    Respects Calm (vfsMountResolve path fuel top) := by
  induction fuel generalizing top
  case zero => cases top <;> grind [vfsMountResolve]
  case succ fuel hi =>
    cases top
    case none   => exact respects_pure
    case some m => exact .bind getMount_respects fun v => .ite respects_pure hi

@[grind ←]
theorem sysOpenRequest_calm {top : Option Mid} {path : Option (List UInt8)} {flags : Flags} :
    Respects Calm (sysOpenRequest top path flags) := by
  refine .ite respects_pure ?_
  cases path
  case none      => exact respects_pure
  case some path =>
    refine .ite respects_pure (.bind pathBufSimplify_calm fun path => .ite respects_pure ?_)
    refine .bind respects_get fun s => .bind vfsMountResolve_calm fun m => ?_
    cases m
    case none   => exact respects_pure
    case some m => exact .bind getMount_respects fun _ => respects_pure

theorem sysOpen_calm {path : Option (List UInt8)} {flags : Flags} :
    Respects Calm (sysOpen env p path flags) := by
  refine .bind getProc_respects fun v => .bind sysOpenRequest_calm fun x => ?_
  cases x
  case inl ret => exact sysReturn_calm
  case inr x   =>
    exact .bind allocBuf_calm fun _ => .bind getMount_respects fun _ =>
      vfsreqCreate_calm vfsreqFinishShort_calm

theorem sysMountPath_calm {path : Option (List UInt8)} : Respects Calm (sysMountPath path) := by
  cases path
  case none      => exact respects_pure
  case some path =>
    exact .ite respects_pure (.bind pathBufSimplify_calm fun _ => .ite respects_pure respects_pure)

theorem sysMountHandle_calm {hid : Int} : Respects Calm (sysMountHandle p hid) := by
  refine .bind procHandleGet_calm fun h => ?_
  cases h
  case none   => exact respects_pure
  case some h => exact .bind getHandle_respects fun _ => respects_pure

theorem sysMountAppend_calm {backend : Option Bid} {path : List UInt8} :
    Respects Calm (sysMountAppend p backend path) := by
  have huse : Respects Calm (sysMountUse backend) := by
    cases backend <;> grind [sysMountUse]
  have hmount (m : Mid) : Respects Calm (updProc p ({ · with mount := some m })) :=
    updProc_calm (fun _ => ⟨rfl, .inl rfl⟩) fun _ => rfl
  exact .bind huse fun _ => .bind allocBuf_calm fun _ => .bind getProc_respects fun _ =>
    .bind allocMount_calm fun m => .bind (hmount m) fun _ => sysReturn_calm

theorem sysMount_calm {hid : Int} {path : Option (List UInt8)} :
    Respects Calm (sysMount p hid path) := by
  refine .bind sysMountPath_calm fun path => ?_
  cases path
  case none      => exact sysReturn_calm
  case some path =>
    refine .bind sysMountHandle_calm fun v => ?_
    cases v
    case none   => exact sysReturn_calm
    case some v => exact sysMountAppend_calm

theorem simpleVfsop_calm {op : VfsOp} {hid : Int} {buf len : ℕ} {offset : Int} {flags : Flags} :
    Respects Calm (simpleVfsop env op p hid buf len offset flags) := by
  refine .bind procHandleGet_calm fun h => ?_
  cases h
  case none   => exact sysReturn_calm
  case some h =>
    refine .bind getHandle_respects fun v => .ite sysReturn_calm <| .ite sysReturn_calm <| .ite ?_ <|
      .ite pipeJoinqueue_calm sysReturn_calm
    exact vfsreqCreate_calm vfsreqFinishShort_calm

theorem sysWrite_calm {hid : Int} {buf len : ℕ} {offset : Int} {flags : Flags} :
    Respects Calm (sysWrite env p hid buf len offset flags) :=
  .ite sysReturn_calm simpleVfsop_calm

theorem sysRemove_calm {hid : Int} : Respects Calm (sysRemove env p hid) := by
  have hfail {ret : Int} : Respects Calm (sysRemoveFail env p hid ret) := by
    grind [sysRemoveFail]
  refine .bind procHandleGet_calm fun h => ?_
  cases h
  case none   => exact sysReturn_calm
  case some h =>
    refine .bind getHandle_respects fun v => .ite hfail <| .ite hfail ?_
    exact .bind (vfsreqCreate_calm vfsreqFinishShort_calm) fun _ => procHandleClose_calm

theorem sysClose_calm {hid : Int} : Respects Calm (sysClose env p hid) := by
  grind [sysClose]

theorem sysFsWait_calm {maxLen : ℕ} : Respects Calm (sysFsWait env p maxLen) := by
  have hmax : Respects Calm (updProc p ({ · with awaitedMaxLen := maxLen })) :=
    updProc_calm (fun _ => ⟨rfl, .inl rfl⟩) fun _ => rfl
  have hhandler {b : Bid} : Respects Calm (sysFsWaitHandler p b maxLen) := by
    refine .bind (procSetstate_waiting_calm rfl (by simp) (by simp)) fun _ => ?_
    exact .bind getBackend_respects fun _ => .ite (.bind respects_throw fun _ => .bind setBackend_calm
      fun _ => hmax) (.bind setBackend_calm fun _ => hmax)
  refine .bind getProc_respects fun v => ?_
  cases v.controlled
  case none   => exact sysReturn_calm
  case some b =>
    refine .bind getBackend_respects fun _ => .ite sysReturn_calm ?_
    exact .bind hhandler fun _ => vfsBackendTryaccept_calm vfsreqFinishShort_calm

theorem sysFsRespondReq_calm {r buf : ℕ} {ret : Int} {flags : Flags} :
    Respects Calm (sysFsRespondReq env p r buf ret flags) := by
  have hcopy {req : VfsReq} : Respects Calm (sysFsRespondCopy env p req ret) := by
    grind [sysFsRespondCopy]
  exact .bind getReq_respects fun _ => .bind hcopy fun _ => vfsreqFinish_calm

theorem sysFsRespond_calm {hid : Int} {buf : ℕ} {ret : Int} {flags : Flags} :
    Respects Calm (sysFsRespond env p hid buf ret flags) := by
  have hhandle : Respects Calm (sysFsRespondHandle p hid) := by
    refine .bind procHandleGet_calm fun h => ?_
    cases h
    case none   => exact respects_pure
    case some h => exact .bind getHandle_respects fun _ => respects_pure
  have hfinish {r : Option Rid} : Respects Calm (sysFsRespondFinish env p buf ret flags r) := by
    cases r
    case none   => exact respects_pure
    case some r => exact sysFsRespondReq_calm
  refine .bind hhandle fun h => ?_
  cases h
  case none   => exact sysReturn_calm
  case some h =>
    exact .bind getHandle_respects fun _ => .bind hfinish fun _ => .bind updHandle_calm fun _ =>
      .bind procHandleClose_calm fun _ => sysReturn_calm

theorem sysPipe_calm {flags : Flags} : Respects Calm (sysPipe env p flags) := by
  have hconnect {rend wend : Hid} : Respects Calm (sysPipeConnect rend wend) := by
    grind [sysPipeConnect]
  refine .ite sysReturn_calm <| .bind procHandleInit_calm fun rend =>
    .bind procHandleInit_calm fun wend => ?_
  split
  · exact .bind hconnect fun _ => sysReturn_calm
  · exact .bind procHandleClose_calm fun _ => .bind procHandleClose_calm fun _ => sysReturn_calm

end Syscalls
end Camellia
