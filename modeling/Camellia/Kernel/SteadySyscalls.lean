import Camellia.Kernel.LastUser
import Camellia.Kernel.Steady

namespace Camellia

section Calls

variable {n : ℕ} {o : Option Pid} {s : State} {env : Env} {p h : ℕ} {hid ret : Int} {path : Option (List UInt8)}
variable {flags : Flags}

@[grind ←]
theorem sysReturn_steady : Respects (Steady n o) (sysReturn p ret) := by
  grind [sysReturn]

-- A filesystem of the kernel gets the path itself, and all others get what is left below the mount of a user.
theorem sysOpen_steady : Respects (Steady n o) (sysOpen env p path flags) := by
  intro s
  simp only [sysOpen, wlp_bind, wlp_getProc]
  intro v _
  refine wlp_post sysOpenRequest_spec fun r _ hr => ?_
  obtain ⟨rfl, hr⟩ := hr
  cases r
  case inl ret => exact sysReturn_steady _
  case inr r =>
    obtain ⟨m, d⟩ := r
    obtain ⟨u, path, q, hu, hq, hcov, rfl⟩ := hr m d rfl
    simp only [wlp_bind, wlp_allocBuf, wlp_getMount]
    intro u' hu'
    obtain rfl := Option.some_inj.mp (hu.symm.trans hu')
    refine wlp_post (vfsreqCreate_paths (o := o) vfsreqFinishShort_steady fun hs => ?_) fun _ _ =>
      trans_of (Steady n o) steady_allocBuf
    rintro b hb
    obtain rfl := VfsInput.kern.inj hb
    refine ⟨by simp, fun c d hc hn hd => ?_⟩
    obtain rfl := Option.some_inj.mp (Heap.get_alloc_self.symm.trans hd)
    obtain ⟨b, hlt, hb⟩ | hstem := hs.mounts m u hu
    · obtain rfl := Option.some_inj.mp (hb.symm.trans hc)
      exact absurd hlt (not_lt.mpr hn)
    · exact delivered_strip hstem hq hcov

theorem sysDup_steady {src dst : Int} : Respects (Steady n o) (sysDup env p src dst flags) :=
  .bind procHandleDup_steady fun _ => sysReturn_steady

theorem simpleVfsop_steady {op : VfsOp} {buf len : ℕ} {offset : Int} :
    Respects (Steady n o) (simpleVfsop env op p hid buf len offset flags) := by
  refine .bind procHandleGet_steady fun h => ?_
  cases h
  case none   => exact sysReturn_steady
  case some h =>
    refine .bind getHandle_respects fun v => .ite sysReturn_steady <| .ite sysReturn_steady <| .ite ?_ <|
      .ite pipeJoinqueue_steady sysReturn_steady
    refine vfsreqCreate_steady vfsreqFinishShort_steady fun b => ?_
    simp only [simpleVfsopReq]
    split <;> exact nofun

theorem sysWrite_steady {buf len : ℕ} {offset : Int} :
    Respects (Steady n o) (sysWrite env p hid buf len offset flags) :=
  .ite sysReturn_steady simpleVfsop_steady

theorem sysRemove_steady : Respects (Steady n o) (sysRemove env p hid) := by
  have hfail {ret : Int} : Respects (Steady n o) (sysRemoveFail env p hid ret) :=
    .bind procHandleClose_steady fun _ => sysReturn_steady
  refine .bind procHandleGet_steady fun h => ?_
  cases h
  case none   => exact sysReturn_steady
  case some h =>
    refine .bind getHandle_respects fun v => .ite hfail <| .ite hfail ?_
    exact .bind (vfsreqCreate_steady vfsreqFinishShort_steady nofun) fun _ => procHandleClose_steady

theorem sysClose_steady : Respects (Steady n o) (sysClose env p hid) :=
  .bind procHandleGet_steady fun _ => .ite sysReturn_steady <|
    .bind procHandleClose_steady fun _ => sysReturn_steady

theorem sysFsWait_steady {maxLen : ℕ} : Respects (Steady n o) (sysFsWait env p maxLen) := by
  have hhandler {b : Bid} : Respects (Steady n o) (sysFsWaitHandler p b maxLen) := by
    refine .bind procSetstate_steady fun _ => getBackend_steady fun s v hv => ?_
    refine wlp_ite.mpr ⟨fun _ => wlp_bind.mpr (wlp_throw.mpr trivial), fun ha => ?_⟩
    exact wlp_setBackend_steady hv (fun _ => by rw [VfsBackend.isUser, not_not.mp ha]) (updProc_steady fun _ _ => rfl)
  refine .bind getProc_respects fun v => ?_
  cases v.controlled
  case none   => exact sysReturn_steady
  case some b =>
    refine .bind getBackend_respects fun _ => .ite sysReturn_steady ?_
    exact .bind hhandler fun _ => vfsBackendTryaccept_steady vfsreqFinishShort_steady

theorem sysFsRespond_steady {buf : ℕ} : Respects (Steady n o) (sysFsRespond env p hid buf ret flags) := by
  have hhandle : Respects (Steady n o) (sysFsRespondHandle p hid) := by
    grind [sysFsRespondHandle]
  have hcopy {req : VfsReq} : Respects (Steady n o) (sysFsRespondCopy env p req ret) := by
    grind [sysFsRespondCopy]
  have hfinish {r : Option Rid} : Respects (Steady n o) (sysFsRespondFinish env p buf ret flags r) := by
    cases r
    case none   => exact respects_pure
    case some r => exact .bind getReq_respects fun _ => .bind hcopy fun _ => vfsreqFinish_steady
  refine .bind hhandle fun h => ?_
  cases h
  case none   => exact sysReturn_steady
  case some h =>
    exact .bind getHandle_respects fun _ => .bind hfinish fun _ => .bind updHandle_steady fun _ =>
      .bind procHandleClose_steady fun _ => sysReturn_steady

theorem sysPipe_steady : Respects (Steady n o) (sysPipe env p flags) := by
  have hconnect {rend wend : Hid} : Respects (Steady n o) (sysPipeConnect rend wend) := by
    grind [sysPipeConnect]
  refine .ite sysReturn_steady <| .bind procHandleInit_steady fun rend =>
    .bind procHandleInit_steady fun wend => ?_
  split
  · exact .bind hconnect fun _ => sysReturn_steady
  · exact .bind procHandleClose_steady fun _ => .bind procHandleClose_steady fun _ => sysReturn_steady

theorem sysWait2_steady {pid : Int} {out : ℕ} : Respects (Steady n o) (sysWait2 p pid flags out) := by
  have hfound {found : Bool} : Respects (Steady n o) (if ¬found then do
      procSetstate p .running
      sysReturn p (-ECHILD) else pure ()) :=
    .ite (.bind procSetstate_steady fun _ => sysReturn_steady) respects_pure
  exact .ite sysReturn_steady <| .bind procSetstate_steady fun _ => .bind (updProc_steady fun _ _ => rfl) fun _ =>
    .bind respects_get fun _ => .bind getProc_respects fun _ => .bind sysWait2Loop_steady fun _ => hfound

theorem sysGetprocfs_steady : Respects (Steady n o) (sysGetprocfs p flags) := by
  have hback : Respects (Steady n o) (procfsBackend p) := by
    refine .bind allocBackend_steady fun b => fun s => ?_
    simp only [wlp_bind, wlp_getProc, wlp_kassert, wlp_setProc, wlp_pure]
    exact fun v hv _ => steady_setProc hv fun _ => rfl
  refine .ite sysReturn_steady <| .bind procNsCreate_steady fun _ => .bind procHandleInit_steady fun x => ?_
  cases x
  case none   => exact sysReturn_steady
  case some x => exact .bind hback fun _ => .bind updHandle_steady fun _ => sysReturn_steady

end Calls

section Mount

variable {n : ℕ} {o : Option Pid} {s : State} {p : Pid} {hid : Int} {path : Option (List UInt8)}

theorem steady_allocMount {v : VfsMount} (hv : PathsOk n s → (∃ b < n, v.backend = some b) ∨ IsStem v.path) :
    Steady n o s (s.withMounts (s.mounts.alloc v)) where
  procs _ w _ hw := ⟨w, hw, rfl⟩
  size := by simp
  mounts m w hm hw := by
    rw [State.withMounts_mounts, Heap.get_alloc, if_neg hm.ne] at hw
    exact ⟨w, hw, rfl, rfl, rfl⟩
  paths hs := ⟨hs.users, hs.size, Heap.forall_alloc (hv hs) fun m w _ => hs.mounts m w, hs.reqs, hs.given⟩

-- The caller gets a new mount, and nobody else.
theorem sysMount_steady : Respects (Steady n (some p)) (sysMount p hid path) := by
  have huse {b : Option Bid} : Respects (Steady n (some p)) (sysMountUse b) := by
    cases b
    case none   => exact respects_pure
    case some b =>
      refine getBackend_steady fun s v hv => wlp_bind.mpr (wlp_kassert.mpr fun _ => ?_)
      exact wlp_setBackend.mpr (steady_setBackend hv id)
  have hmount {b : Option Bid} {pre : List UInt8} (hpre : IsStem pre) :
      Respects (Steady n (some p)) (sysMountAppend p b pre) := by
    refine .bind huse fun _ => .bind (fun s => wlp_allocBuf.mpr steady_allocBuf) fun buf =>
      .bind getProc_respects fun v => .bind (fun s => ?_) fun m => ?_
    · exact wlp_allocMount.mpr (steady_allocMount fun _ => .inr hpre)
    · exact .bind (updProc_steady fun hp => absurd rfl hp) fun _ => sysReturn_steady
  intro s
  refine wlp_bind.mpr (wlp_post sysMountPath_spec fun r _ hr => ?_)
  obtain ⟨rfl, hr⟩ := hr
  cases r
  case none     => exact sysReturn_steady _
  case some pre =>
    obtain ⟨_, q, _, hq, rfl⟩ := hr pre rfl
    refine Respects.bind (steady_of_readonly sysMountHandle_readonly) (fun u => ?_) _
    cases u
    case none   => exact sysReturn_steady
    case some u => exact hmount (isStem_stem hq)

end Mount

section Fork

variable {n : ℕ} {o : Option Pid} {s t u : State} {env : Env} {p c : Pid} {e : Entry} {flags : Flags}

theorem procForkCount_steady {count : Option Cid} : Respects (Steady n o) (procForkCount count) := by
  have halloc : Respects (Steady n o) (allocCount 1) := fun s =>
    wlp_allocCount.mpr (steady_of_paths rfl rfl fun h => h.of_eq rfl rfl rfl rfl rfl)
  cases count <;> grind [procForkCount]

theorem procForkPages_steady : Respects (Steady n o) (procForkPages p flags) := by
  have halloc : Respects (Steady n o) allocPagedir := fun s =>
    wlp_allocPagedir.mpr (steady_of_paths rfl rfl fun h => h.of_eq rfl rfl rfl rfl rfl)
  exact .bind getProc_respects fun v => .ite (.bind procForkCount_steady fun _ =>
    .bind (updProc_steady fun _ _ => rfl) fun _ => respects_pure) (.bind halloc fun _ => respects_pure)

theorem procForkGlobalid_steady : Respects (Steady n o) procForkGlobalid := by
  refine .bind respects_get fun s => .ite (.bind respects_throw fun _ => ?_) ?_ <;>
    refine .bind ?_ fun _ => respects_pure <;>
    (apply modify_steady <;> intros <;> rfl)

theorem procForkLocalid_steady : Respects (Steady n o) (procForkLocalid p) := by
  have hset {id : ℕ} : Respects (Steady n o) (do updProc p ({ · with nextlid := (id + 1) % 2 ^ 32 }); pure id) :=
    .bind (updProc_steady fun _ _ => rfl) fun _ => respects_pure
  exact .bind getProc_respects fun v => .ite (.bind respects_throw fun _ => hset) hset

theorem procForkControlled_steady {b : Option Bid} : Respects (Steady n o) (procForkControlled b flags) := by
  refine .ite respects_pure ?_
  cases b
  case none   => exact respects_pure
  case some b =>
    refine getBackend_steady fun s v hv => wlp_bind.mpr (wlp_kassert.mpr fun _ => ?_)
    exact wlp_setBackend_steady hv id respects_pure

theorem procForkHandles_steady : Respects (Steady n o) (procForkHandles p flags) := by
  have halloc : Respects (Steady n o) (allocTable fun _ => none) := fun s =>
    wlp_allocTable.mpr (steady_of_paths rfl rfl fun h => h.of_eq rfl rfl rfl rfl rfl)
  have htable {table : Table} : Respects (Steady n o) (procForkTable table) :=
    .bind halloc fun _ => .bind (.forM fun _ => respects_copySlot setSlot_steady fun _ => updHandle_steady) fun _ =>
      respects_pure
  refine .bind getProc_respects fun v => .ite ?_ ?_
  · exact .bind procForkCount_steady fun _ => .bind (updProc_steady fun _ _ => rfl) fun _ => respects_pure
  · exact .bind procTable_steady fun _ => .bind getTable_respects fun _ => .bind htable fun _ => respects_pure

-- The child gets the mounts of its parent.
theorem procForkMount_steady {m : Option Mid} :
    wlp (procForkMount m) (fun r t => r = m ∧ Steady n o s t) s := by
  cases m
  case none   => exact wlp_throw.mpr trivial
  case some m =>
    simp only [procForkMount, wlp_bind, wlp_getMount, wlp_setMount, wlp_pure]
    exact fun v hv => ⟨trivial, steady_setMount hv ⟨rfl, rfl, rfl⟩⟩

-- A process has a child, and unless it is killed at once, the child has the same mounts.
structure Sired (n : ℕ) (s : State) (p c : Pid) (t : State) : Prop where
  steady : Steady n (some c) s t
  child  : ∀ w, t.procs.get c = some w → w.state.alive → ∃ v, s.procs.get p = some v ∧ w.mount = v.mount

theorem procFork_sired : wlp (procFork p flags) (fun c t => Sired n s p c t) s := by
  have hlink {v w : Proc} {t : State} (hv : s.procs.get p = some v) (hw : w.mount = v.mount)
      (ht : Steady n none s t) : wlp (procForkLink p w) (fun c t => Sired n s p c t) t := by
    simp only [procForkLink, wlp_bind, wlp_getProc, wlp_allocProc, wlp_updProc, wlp_pure]
    intro x hx y hy
    have hne : p ≠ t.procs.size := (Heap.lt_size hx).ne
    obtain rfl := Option.some_inj.mp ((Heap.get_alloc_of_some hx).symm.trans hy)
    refine ⟨.setProc (trans_of (Steady n _) ht.weaken ?_) hy rfl, fun x' hx' _ => ⟨v, hv, ?_⟩⟩
    · refine ⟨fun q z hq hz => ?_, le_rfl, fun _ z _ hz => ⟨z, hz, rfl, rfl, rfl⟩, fun h => h.of_eq rfl rfl rfl rfl rfl⟩
      rw [State.withProcs_procs, Heap.get_alloc, if_neg fun h => hq (congrArg some h)] at hz
      exact ⟨z, hz, rfl⟩
    · rw [State.withProcs_procs, Heap.get_set_ne hne.symm, State.withProcs_procs, Heap.get_alloc_self] at hx'
      obtain rfl := Option.some_inj.mp hx'
      exact hw
  simp only [procFork, wlp_bind, wlp_getProc, wlp_kassert]
  intro v hv _
  have h₀ := refl_of (Steady n none) s
  refine wlp_post (wlp_of_respects h₀ procForkPages_steady) fun _ _ h₁ => ?_
  refine wlp_post (wlp_of_respects h₁ procForkGlobalid_steady) fun _ _ h₂ => ?_
  refine wlp_post (wlp_of_respects h₂ procForkLocalid_steady) fun _ _ h₃ => ?_
  refine wlp_post (wlp_of_respects h₃ procForkControlled_steady) fun _ _ h₄ => ?_
  refine wlp_post (procForkMount_steady (n := n) (o := none)) fun m _ hm => ?_
  obtain ⟨rfl, h₅⟩ := hm
  refine wlp_post (wlp_of_respects (trans_of (Steady n none) h₄ h₅) procForkHandles_steady) fun _ _ h₆ => ?_
  exact hlink hv rfl h₆

theorem Sired.calm (h : Sired n s p c t) (ht : Steady n none t u) (hc : Calm t u) : Sired n s p c u where
  steady := trans_of (Steady n (some c)) h.steady ht.weaken
  child w hw ha := by
    obtain ⟨x, hx, hhome⟩ := ht.procs c w (Option.some_ne_none c) hw
    obtain ⟨x', hx', hk⟩ := hc.procs.of_get' hw
    obtain rfl := Option.some_inj.mp (hx.symm.trans hx')
    obtain ⟨v, hv, heq⟩ := h.child x hx (hk.peace.alive ▸ ha)
    exact ⟨v, hv, (congrArg Prod.fst hhome).trans heq⟩

theorem Sired.respects {x : K α} (h : Sired n s p c t) (hx : Respects (Steady n none) x) (hc : Respects Calm x) :
    wlp x (fun _ u => Sired n s p c u ∧ Calm t u) t :=
  wlp_post (wlp_and (hx t) (hc t)) fun _ _ hu => ⟨h.calm hu.1 hu.2, hu.2⟩

-- Whoever was killed is dead.
theorem UsersStep.dead {w : Proc} (h : UsersStep s e t) (ht : SharesOk t) (hk : e.kills = some p)
    (hw : t.procs.get p = some w) : w.state.alive = false := by
  by_contra ha
  obtain ⟨d, _, _, _, huse, _⟩ := ht.uses_alive hw (by simpa using ha)
  have hmem : Sum.inl p ∈ t.sharing.users (.inl d) := ⟨_, huse⟩
  rw [h.killed p hk] at hmem
  exact hmem.2 rfl

theorem sysForkNewfs_steady : Respects (Steady n o) (sysForkNewfs p c) := by
  refine .bind procHandleInit_steady fun x => ?_
  cases x
  case none   => exact respects_pure
  case some x =>
    exact .bind allocBackend_steady fun _ => .bind updHandle_steady fun _ =>
      .bind (updProc_steady fun _ _ => rfl) fun _ => respects_pure

theorem sysFork_sired (hs : SharesOk s) :
    wlp (sysFork env p flags) (fun _ t => Sired n s p s.procs.size t) s := by
  have hret {c : Pid} {t : State} (h : Sired n s p c t) :
      wlp (do sysReturn p (← procNsId (← getProc p).pns c)) (fun _ t => Sired n s p c t) t := by
    have hsteady : Respects (Steady n none) (do sysReturn p (← procNsId (← getProc p).pns c)) :=
      .bind getProc_respects fun _ => .bind (steady_of_readonly procNsId_readonly) fun _ => sysReturn_steady
    have hcalm : Respects Calm (do sysReturn p (← procNsId (← getProc p).pns c)) :=
      .bind getProc_respects fun _ => .bind procNsId_calm fun _ => sysReturn_calm
    exact wlp_post (h.respects hsteady hcalm) fun _ _ => And.left
  have hfail {c : Pid} {t : State} (h : Sired n s p c t) (ht : SharesOk t) :
      wlp (sysForkFail env p c) (fun _ t => Sired n s p c t) t := by
    simp only [sysForkFail, wlp_bind, wlp_updProc]
    intro v hv
    have hset := ht.setProc (w := { v with noreap := true }) hv rfl rfl (ht.homes c v hv id).1
    have hsteady : Steady n (some c) s (t.withProcs (t.procs.set c { v with noreap := true })) :=
      .setProc h.steady hv rfl
    have hkill : wlp (procKill env c (-EMFILE)) _ _ := procKill_users (e := .kill c (-EMFILE)) hset rfl
    refine wlp_post (wlp_and hkill (procKill_steady (n := n) _)) fun _ u hu => ?_
    obtain ⟨⟨hu, husers⟩, hdies⟩ := hu
    have hsired : Sired n s p c u := ⟨trans_of (Steady n (some c)) hsteady hdies, fun w hw ha => by
      rw [husers.dead hu rfl hw] at ha
      contradiction⟩
    exact wlp_post (hsired.respects sysReturn_steady sysReturn_calm) fun _ _ => And.left
  have hrest {c : Pid} {t : State} (ok : Bool) (h : Sired n s p c t) (ht : SharesOk t) :
      wlp (if ok then do sysReturn p (← procNsId (← getProc p).pns c) else sysForkFail env p c)
        (fun _ t => Sired n s p c t) t := by
    cases ok
    case true  => exact hret h
    case false => exact hfail h ht
  simp only [sysFork, wlp_bind]
  refine wlp_post (wlp_and (procFork_spec hs) (procFork_sired (n := n))) fun c t ht => ?_
  obtain ⟨⟨ht, hborn⟩, h⟩ := ht
  rw [← hborn.fresh]
  refine wlp_post (h.respects regsSavereturn_steady regsSavereturn_calm) fun _ u hu => ?_
  have hshares := ht.peace hu.2.peace
  rw [wlp_ite]
  refine ⟨fun _ => ?_, fun _ => hrest true hu.1 hshares⟩
  rw [wlp_bind]
  refine wlp_post (hu.1.respects sysForkNewfs_steady sysForkNewfs_calm) fun ok _ hx => ?_
  exact hrest ok hx.1 (hshares.peace hx.2.peace)

end Fork

section Enter

variable {n : ℕ} {s t : State} {e : Entry}

-- The process which loses its mounts or gets others.
def Entry.remounts (s : State) : Entry → Option Pid
  | .syscall p (.mount _ _) => some p
  | .syscall _ (.fork _)    => some s.procs.size
  | e                       => e.kills

theorem Step.steady (h : Step s e t) (hs : SharesOk s) : Steady n (e.remounts s) s t := by
  refine h.of_wlp (R := fun t => Steady n (e.remounts s) s t) fun env => ?_
  cases e
  case kill p ret     => exact procKill_steady s
  case intr p         => exact procTryintr_steady s
  case prune          => exact procPruneLeaves_steady s
  case timer counter  => exact hpetIrq_steady s
  case finish r ret   =>
    have hheld : Respects (Steady n none) (modify fun s => { s with held := s.held.erase r } : K Unit) := by
      apply modify_steady <;> intros <;> rfl
    exact Respects.bind hheld (fun _ => vfsreqFinishShort_steady r ret) s
  case syscall p call =>
    cases call
    case exit ret            => exact procKill_steady s
    case fork flags          => exact wlp_post (sysFork_sired hs) fun _ _ => Sired.steady
    case «open» path flags   => exact sysOpen_steady s
    case mount hid path      => exact sysMount_steady s
    case dup                 => exact sysDup_steady s
    case read                => exact simpleVfsop_steady s
    case write               => exact sysWrite_steady s
    case getsize             => exact simpleVfsop_steady s
    case remove              => exact sysRemove_steady s
    case close               => exact sysClose_steady s
    case fsWait              => exact sysFsWait_steady s
    case fsRespond           => exact sysFsRespond_steady s
    case pipe                => exact sysPipe_steady s
    case sleep goal          => exact timerSchedule_steady s
    case wait2 pid flags out => exact sysWait2_steady s
    case getprocfs flags     => exact sysGetprocfs_steady s

-- Who lives afterwards has lived before, as dead processes have no pages and never get some again.
theorem Steady.alive {o : Option Pid} {q : Pid} {w : Proc} (h : Steady n o s t) (hs : SharesOk s) (ht : SharesOk t)
    (hq : some q ≠ o) (hw : t.procs.get q = some w) (ha : w.state.alive) :
    ∃ v, s.procs.get q = some v ∧ v.state.alive ∧ w.mount = v.mount := by
  obtain ⟨v, hv, hhome⟩ := h.procs q w hq hw
  refine ⟨v, hv, ?_, congrArg Prod.fst hhome⟩
  obtain ⟨d, _, hd, _⟩ := ht.uses_alive hw ha
  have hpages : v.pages = some d := (congrArg Prod.snd hhome).symm.trans hd
  by_contra hdead
  rw [(hs.graves q v hv (by simpa using hdead)).1] at hpages
  contradiction

end Enter

end Camellia
