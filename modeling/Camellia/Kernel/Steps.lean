import Camellia.Kernel.Shares

namespace Camellia

section Timer

variable {s t : State} {env : Env} {p c : Pid} {v w : Proc} {flags : Flags}

-- The timer still knows who sleeps, and nobody new does.
structure Wakes (s t : State) : Prop where
  timer     : TimerOk s → TimerOk t
  scheduled : t.scheduled ⊆ s.scheduled

instance : IsPreorder State Wakes where
  refl _ := ⟨id, .refl _⟩
  trans _ _ _ h₁ h₂ := ⟨h₂.timer ∘ h₁.timer, List.Subset.trans h₂.scheduled h₁.scheduled⟩

theorem respects_wakes {x : K α} (h : Respects Calm x) : Respects Wakes x :=
  fun s => wlp_post (h s) fun _ _ ht => ⟨ht.timer, ht.scheduled.subset⟩

theorem wakes_of_eq (hp : t.procs = s.procs) (hs : t.scheduled = s.scheduled) : Wakes s t :=
  ⟨fun h => by simpa [TimerOk, hp, hs] using h, hs ▸ .refl _⟩

theorem updProc_wakes {f : Proc → Proc} (hf : ∀ v, (f v).state = v.state) :
    Respects Wakes (updProc p f) := by
  intro s
  rw [wlp_updProc]
  exact fun v hv => ⟨TimerOk.setProc hv (by rw [hf v]), .refl _⟩

theorem unref_wakes {o : Option Cid} : Respects Wakes (unref o) := by
  intro s
  refine wlp_post unref_spec fun _ t ht => ?_
  obtain ⟨counts, rfl⟩ := ht.eq
  exact wakes_of_eq rfl rfl

theorem procKillHandles_wakes : Respects Wakes (procKillHandles env p) := by
  have htable : Respects Wakes (procKillTable env p) := by
    intro s
    refine wlp_post procKillTable_spec ?_
    rintro _ _ ⟨u, i, w, hu, _, _, rfl⟩
    exact ⟨hu.timer, hu.scheduled.subset⟩
  have hnone : Respects Wakes (updProc p ({ · with handles := none })) := updProc_wakes fun _ => rfl
  exact .bind (respects_wakes getProc_respects) fun _ => .bind unref_wakes fun _ =>
    .ite (.bind htable fun _ => hnone) hnone

theorem procKillPages_wakes : Respects Wakes (procKillPages p) := by
  have hnone : Respects Wakes (updProc p ({ · with pages := none })) := updProc_wakes fun _ => rfl
  have hfree {d : ℕ} : Respects Wakes (freePagedir d) := by
    intro s
    rw [wlp_freePagedir]
    exact fun _ _ => wakes_of_eq rfl rfl
  exact .bind (respects_wakes getProc_respects) fun v => .bind unref_wakes fun _ =>
    .ite (.bind (respects_wakes nonNull_respects) fun _ => .bind hfree fun _ => hnone) hnone

theorem TimerOk.not_mem (h : TimerOk s) (hv : s.procs.get p = some v)
    (hs : v.state ≠ .waits4timer) : p ∉ s.scheduled := by
  have := h p
  rw [hv, Option.elim_some, if_neg hs] at this
  exact List.count_eq_zero.mp this

-- The process which is killed is woken up first.
theorem procKillTimer_spec (h : TimerOk s) :
    wlp (procKillTimer p) (fun _ t => TimerOk t ∧ p ∉ t.scheduled) s := by
  have hawake : wlp (procKillTimer p)
      (fun _ t => ∀ v, t.procs.get p = some v → v.state ≠ .waits4timer) s := by
    simp only [procKillTimer, timerDeschedule, wlp_bind, wlp_getProc, wlp_ite, wlp_kassert, wlp_get,
      wlp_modify, wlp_procSetstate_running, wlp_pure]
    refine fun v hv => ⟨fun _ _ _ _ _ w hw _ x hx => ?_, fun hs w hw => ?_⟩
    · obtain rfl := Option.some_inj.mp ((Heap.get_set_self hw).symm.trans hx)
      simp
    · obtain rfl := Option.some_inj.mp (hv.symm.trans hw)
      exact hs
  have hlive : wlp (procKillTimer p) (fun _ t => ∃ v, t.procs.get p = some v) s := by
    simp only [procKillTimer, timerDeschedule, wlp_bind, wlp_getProc, wlp_ite, wlp_kassert, wlp_get,
      wlp_modify, wlp_procSetstate_running, wlp_pure]
    exact fun v hv => ⟨fun _ _ _ _ _ w hw _ => ⟨_, Heap.get_set_self hw⟩, fun _ => ⟨v, hv⟩⟩
  refine wlp_post (wlp_and (wlp_and hawake hlive) (procKillTimer_calm s)) fun _ t ht => ?_
  obtain ⟨v, hv⟩ := ht.1.2
  exact ⟨ht.2.timer h, (ht.2.timer h).not_mem hv (ht.1.1 v hv)⟩

theorem TimerOk.setAwake (h : TimerOk s) (hv : s.procs.get p = some v) (hp : p ∉ s.scheduled)
    (hw : w.state ≠ .waits4timer) : TimerOk (s.withProcs (s.procs.set p w)) := by
  refine TimerOk.setProc hv ?_ h
  have := h p
  rw [List.count_eq_zero.mpr hp, hv, Option.elim_some] at this
  by_cases hs : v.state = .waits4timer
  case pos => simp [hs] at this
  case neg => simp [hs, hw]

theorem procKillAlive_timer {ret : Int} (h : TimerOk s) :
    wlp (procKillAlive env p ret) (fun _ t => TimerOk t) s := by
  have hmsg : Respects Wakes (updProc p ({ · with deathMsg := ret })) := updProc_wakes fun _ => rfl
  simp only [procKillAlive, wlp_bind]
  refine wlp_post (procKillControlled_calm s) fun _ s₁ h₁ => ?_
  refine wlp_post (procKillReqslot_calm s₁) fun _ s₂ h₂ => ?_
  refine wlp_post (procKillPipe_calm s₂) fun _ s₃ h₃ => ?_
  refine wlp_post (procKillTimer_spec (h₃.timer (h₂.timer (h₁.timer h)))) fun _ s₄ ⟨h₄, hp₄⟩ => ?_
  refine wlp_post (procKillHandles_wakes s₄) fun _ s₅ h₅ => ?_
  refine wlp_post (procKillMount_calm s₅) fun _ s₆ h₆ => ?_
  have hp₆ : p ∉ s₆.scheduled := fun hp => hp₄ (h₅.scheduled (h₆.scheduled.subset hp))
  rw [wlp_procSetstate_dying]
  intro v hv _
  refine wlp_post (hmsg _) fun _ s₇ h₇ => ?_
  have htimer₇ := h₇.timer ((h₆.timer (h₅.timer h₄)).setAwake hv hp₆ (w := { v with state := .dying })
    (by simp))
  simp only [wlp_get, wlp_getProc]
  intro w _
  refine wlp_post (procKillChildren_peace s₇) fun _ s₈ h₈ => ?_
  exact wlp_post (procKillPages_wakes s₈) fun _ _ h₉ => h₉.timer (h₈.timer htimer₇)

theorem procKillDying_timer (h : TimerOk s) : wlp (procKillDying p) (fun _ t => TimerOk t) s := by
  have htomb : wlp (procSetstate p .tombstone) (fun _ t => TimerOk t) s := by
    rw [wlp_procSetstate_tombstone]
    intro v hv hs
    refine TimerOk.setProc hv ?_ h
    obtain hs | hs := hs <;> simp [hs]
  have htoreap : wlp (procSetstate p .toreap) (fun _ t => TimerOk t) s :=
    wlp_procSetstate_toreap fun v hv hs _ => TimerOk.setProc hv (by simp [hs]) h
  simp only [procKillDying, wlp_bind, wlp_getProc, wlp_ite, wlp_pure]
  refine fun v hv => ⟨fun _ => ?_, fun _ => h⟩
  cases v.parent
  case none   => exact htomb
  case some q =>
    simp only [wlp_bind, wlp_getProc, wlp_ite]
    exact fun _ _ => ⟨fun _ => htoreap, fun _ => htomb⟩

theorem procKill_timer {ret : Int} (h : TimerOk s) :
    wlp (procKill env p ret) (fun _ t => TimerOk t) s := by
  have hrest {t : State} (h : TimerOk t) : wlp (do
      procKillDying p
      if p = (← get).first then
        procKillFirst p
      else
        procTryreap p) (fun _ t => TimerOk t) t := by
    rw [wlp_bind]
    refine wlp_post (procKillDying_timer h) fun _ u hu => ?_
    simp only [wlp_bind, wlp_get, wlp_ite]
    refine ⟨fun _ => wlp_procKillFirst, fun _ => ?_⟩
    exact wlp_post (procTryreap_peace u) fun _ _ hp => hp.timer hu
  simp only [procKill, wlp_bind, wlp_getProc, wlp_ite] at hrest ⊢
  refine fun v hv => ⟨fun _ => ?_, fun _ => hrest h⟩
  exact wlp_post (procKillAlive_timer h) fun _ _ => hrest

theorem Born.timer (hb : Born s p flags c t) (h : TimerOk s) : TimerOk t := by
  intro q
  rw [hb.scheduled, h q]
  by_cases hq : q = c
  case pos =>
    obtain ⟨_, w, _, _, hw, hc, _⟩ := hb.child
    have hnone : s.procs.get q = none := by rw [hq, hb.fresh, Heap.get_size]
    rw [hnone, hq, hw]
    simp [hc.state]
  case neg =>
    cases hv : s.procs.get q
    case none   => rw [hb.old q hq hv]
    case some v =>
      obtain ⟨w, x, hw, hx, heq⟩ := hb.procs q v hv
      have hstate : w.state = v.state := by rw [heq, hx.eq]
      rw [hw, Option.elim_some, Option.elim_some, hstate]

end Timer

section Fork

variable {s : State} {env : Env} {p : Pid} {flags : Flags} {R : Unit → State → Prop}

theorem sysForkNewfs_calm {child : Pid} : Respects Calm (sysForkNewfs p child) := by
  have hset {b : Bid} : Respects Calm (updProc child ({ · with controlled := some b })) :=
    updProc_calm (fun _ => ⟨rfl, .inl rfl⟩) fun _ => rfl
  refine .bind procHandleInit_calm fun x => ?_
  cases x
  case none   => exact respects_pure
  case some x =>
    exact .bind allocBackend_calm fun _ => .bind updHandle_calm fun _ => .bind hset fun _ =>
      respects_pure

theorem procNsId_calm {ns : Pid} : Respects Calm (procNsId ns p) := by
  refine .ite respects_pure (.bind getProc_respects fun v => .ite ?_ ?_)
  · exact .bind nonNull_respects fun _ => .bind getProc_respects fun _ => .bind kassert_respects fun _ =>
      respects_pure
  · exact .bind kassert_respects fun _ => respects_pure

-- After the birth, the child lives in peace or it is killed at once.
theorem wlp_sysFork (hs : SharesOk s)
    (hok : ∀ c t u, SharesOk t → Born s p flags c t → Calm t u → R () u)
    (hfail : ∀ c t u v, SharesOk t → Born s p flags c t → Calm t u → u.procs.get c = some v →
      wlp (procKill env c (-EMFILE)) (fun _ x => ∀ y, Calm x y → R () y)
        (u.withProcs (u.procs.set c { v with noreap := true }))) :
    wlp (sysFork env p flags) R s := by
  have hret {c : Pid} : Respects Calm (do sysReturn p (← procNsId (← getProc p).pns c)) :=
    .bind getProc_respects fun _ => .bind procNsId_calm fun _ => sysReturn_calm
  have hrest {c : Pid} {t u : State} (ok : Bool) (ht : SharesOk t) (hborn : Born s p flags c t)
      (hu : Calm t u) : wlp (if ok then do sysReturn p (← procNsId (← getProc p).pns c)
        else sysForkFail env p c) R u := by
    cases ok
    case true  => exact wlp_post (hret u) fun _ x hx => hok c t x ht hborn (trans_of Calm hu hx)
    case false =>
      simp only [sysForkFail, wlp_bind, wlp_updProc, Bool.false_eq_true, if_false]
      intro v hv
      refine wlp_post (hfail c t u v ht hborn hu hv) fun _ x hx => ?_
      exact wlp_post (sysReturn_calm x) fun _ y hy => hx y hy
  simp only [sysFork, wlp_bind]
  refine wlp_post (procFork_spec hs) fun c t hx => ?_
  obtain ⟨ht, hborn⟩ := hx
  refine wlp_post (regsSavereturn_calm t) fun _ u hu => ?_
  rw [wlp_ite]
  refine ⟨fun _ => ?_, fun _ => hrest true ht hborn hu⟩
  rw [wlp_bind]
  exact wlp_post (sysForkNewfs_calm u) fun ok x hx => hrest ok ht hborn (trans_of Calm hu hx)

end Fork

section Wait

variable {s : State} {p : Pid} {pid : Int} {flags : Flags} {out : ℕ} {R : Unit → State → Prop}

-- Nothing happens if there is nobody to wait for.
theorem sysWait2Loop_none {fuel : ℕ} {o : Option Pid} :
    wlp (sysWait2Loop fuel o) (fun found t => found = false → t = s) s := by
  induction fuel generalizing o
  case zero => cases o <;> simp [sysWait2Loop]
  case succ fuel hi =>
    have hrest {it : Pid} {t : State} : wlp (do
        let _ ← sysWait2Loop fuel (← getProc it).sibling
        pure true : K Bool) (fun found u => found = false → u = s) t := by
      simp only [wlp_bind, wlp_getProc, wlp_pure, Bool.true_eq_false, false_implies]
      exact fun _ _ => wlp_true
    cases o
    case none    => simp [sysWait2Loop]
    case some it =>
      simp only [sysWait2Loop, wlp_bind, wlp_getProc, wlp_ite] at hrest ⊢
      refine fun v _ => ⟨fun _ => hi, fun _ => ⟨fun _ => ?_, fun _ => hrest⟩⟩
      exact wlp_post wlp_true fun _ _ _ => hrest

theorem wlp_sysWait2 (hcalm : flags ≠ 0 → ∀ t, Calm s t → R () t)
    (hwait : ∀ v, s.procs.get p = some v → v.state = .running → flags = 0 →
      wlp (sysWait2Loop (s.procs.size + 1) v.child) (fun found u => if found then R () u else
        R () (s.withProcs (s.procs.set p
          { v with state := .running, awaitedPid := pid.toNat, awaitedOut := out, rax := -ECHILD })))
        (s.withProcs (s.procs.set p
          { v with state := .waits4childdeath, awaitedPid := pid.toNat, awaitedOut := out }))) :
    wlp (sysWait2 p pid flags out) R s := by
  rw [sysWait2, wlp_ite]
  refine ⟨fun hflags => wlp_post (sysReturn_calm s) fun _ t => hcalm hflags t, fun hflags => ?_⟩
  rw [wlp_bind, wlp_procSetstate_waiting rfl]
  intro v hv hrun
  simp only [wlp_bind, wlp_updProc, wlp_get, wlp_getProc]
  intro w hw x hx
  obtain rfl := Option.some_inj.mp ((Heap.get_set_self hv).symm.trans hw)
  obtain rfl := Option.some_inj.mp ((Heap.get_set_self hw).symm.trans hx)
  simp only [State.withProcs_procs, Heap.set_set, Heap.size_set]
  refine wlp_post (wlp_and (hwait v hv hrun (not_not.mp hflags)) sysWait2Loop_none) ?_
  rintro found u ⟨hu, hnone⟩
  cases found
  case true  => simpa using hu
  case false =>
    obtain rfl := hnone rfl
    simp only [Bool.false_eq_true, not_false_eq_true, if_true, if_false, sysReturn, wlp_bind,
      wlp_procSetstate_running, wlp_getProc, wlp_kassert, wlp_regsSavereturn] at hu ⊢
    intro w hw hf _ _ _ y hy
    obtain rfl := Option.some_inj.mp ((Heap.get_set_self hv).symm.trans hw)
    obtain rfl := Option.some_inj.mp ((Heap.get_set_self hw).symm.trans hy)
    simp only [State.withProcs_procs, Heap.set_set]
    exact hu

end Wait

section Enter

variable {s : State} {env : Env} {e : Entry} {R : Unit → State → Prop}

-- The process which an entry kills.
def Entry.kills : Entry → Option Pid
  | .kill p _            => some p
  | .syscall p (.exit _) => some p
  | _                    => none

-- The system calls which have nothing to do with the life of processes.
def Syscall.isCalm : Syscall → Bool
  | .exit _ | .fork _ | .wait2 _ _ _ | .getprocfs _ | .sleep _ => false
  | _                                                          => true

theorem enterSyscall_calm {p : Pid} {call : Syscall} (h : call.isCalm) :
    Respects Calm (enter env (.syscall p call)) := by
  cases call
  case «open» path flags => exact sysOpen_calm
  case mount hid path    => exact sysMount_calm
  case dup src dst flags => exact .bind procHandleDup_calm fun _ => sysReturn_calm
  case read              => exact simpleVfsop_calm
  case write             => exact sysWrite_calm
  case getsize           => exact simpleVfsop_calm
  case remove            => exact sysRemove_calm
  case close             => exact sysClose_calm
  case fsWait            => exact sysFsWait_calm
  case fsRespond         => exact sysFsRespond_calm
  case pipe              => exact sysPipe_calm
  all_goals contradiction

theorem enterFinish_calm {r : Rid} {ret : Int} : Respects Calm (enter env (.finish r ret)) :=
  .bind (modify_calm (fun _ => rfl) (fun _ => rfl) (fun _ => rfl) (fun _ => rfl) (fun _ => rfl)
    (fun _ => rfl) (fun _ => rfl) (fun _ => rfl) fun _ => rfl) fun _ =>
    vfsreqFinishShort_calm r ret

-- Most of what the kernel does is peaceful.
theorem wlp_enter (ht : TimerOk s) (hpeace : e.kills = none → ∀ t, Peace s t → R () t)
    (hkill : ∀ p ret, e.kills = some p → wlp (procKill env p ret) R s)
    (hfork : ∀ p flags, e = .syscall p (.fork flags) → wlp (sysFork env p flags) R s)
    (hwait : ∀ p pid flags out, e = .syscall p (.wait2 pid flags out) →
      wlp (sysWait2 p pid flags out) R s) :
    wlp (enter env e) R s := by
  have hp {x : K Unit} (hk : e.kills = none) (hx : Respects Peace x) : wlp x R s :=
    wlp_post (hx s) fun _ t => hpeace hk t
  cases e
  case kill p ret     => exact hkill p ret rfl
  case intr p         => exact hp rfl (respects_peace procTryintr_calm)
  case prune          => exact hp rfl procPruneLeaves_peace
  case timer counter  => exact wlp_post (hpetIrq_calm ht) fun _ t h => hpeace rfl t h.peace
  case finish r ret   => exact hp rfl (respects_peace enterFinish_calm)
  case syscall p call =>
    cases call
    case exit ret        => exact hkill p ret rfl
    case fork flags      => exact hfork p flags rfl
    case wait2 pid flags out => exact hwait p pid flags out rfl
    case getprocfs flags => exact hp rfl sysGetprocfs_peace
    case sleep goal      => exact hp rfl timerSchedule_peace
    all_goals exact hp rfl (respects_peace (enterSyscall_calm rfl))

theorem Step.of_wlp {t : State} {R : State → Prop} (h : Step s e t)
    (hw : ∀ env, wlp (enter env e) (fun _ t => R t) s) : R t := by
  have ⟨env, hrun⟩ := h.run
  exact wlp_of_ok hrun (hw env)

end Enter

end Camellia
