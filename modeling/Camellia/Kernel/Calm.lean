import Camellia.Kernel.Request
import Camellia.Kernel.Update

namespace Camellia

def Event.report : Event → Option Report
  | .reaped report => some report
  | _              => none

-- What the processes were told about their children.
def State.reports (s : State) : List Report :=
  s.log.filterMap Event.report

-- The processes which sleep are those on the list of the timer.
def TimerOk (s : State) : Prop :=
  ∀ p, s.scheduled.count p = (s.procs.get p).elim 0 fun v => if v.state = .waits4timer then 1 else 0

-- A process goes on with its life: it may wake up or wait for something else than the death of a
-- child, but neither its family nor what it shares with other processes changes.
structure Proc.Calm (v w : Proc) : Prop where
  eq    : w = { v with
    state         := w.state
    awaitedMaxLen := w.awaitedMaxLen
    waitsPipe     := w.waitsPipe
    waitsLen      := w.waitsLen
    waitsSince    := w.waitsSince
    mount         := w.mount
    refcount      := w.refcount
    reqslot       := w.reqslot
    controlled    := w.controlled
    rax           := w.rax }
  state : w.state = v.state ∨
    v.state.active ∧ v.state ≠ .waits4childdeath ∧ w.state.active ∧ w.state ≠ .waits4childdeath

-- No process is born, no process dies and no process goes to sleep.
structure Calm (s t : State) : Prop where
  procs      : s.procs.Related Proc.Calm t.procs
  tables     : s.tables.Related (fun _ _ => True) t.tables
  counts     : t.counts = s.counts
  pagedirs   : t.pagedirs = s.pagedirs
  first      : t.first = s.first
  nextPid    : t.nextPid = s.nextPid
  deadLeaves : t.deadLeaves = s.deadLeaves
  scheduled  : t.scheduled.Sublist s.scheduled
  timer      : TimerOk s → TimerOk t
  reports    : t.reports = s.reports

theorem Proc.Calm.refl (v : Proc) : v.Calm v :=
  ⟨rfl, .inl rfl⟩

theorem Proc.Calm.trans {v w x : Proc} (h₁ : v.Calm w) (h₂ : w.Calm x) : v.Calm x := by
  refine ⟨?_, ?_⟩
  · rw [h₂.eq, h₁.eq]
  · have := h₁.state
    have := h₂.state
    grind

instance : IsPreorder State Calm where
  refl _ := ⟨.refl .refl, .refl fun _ => trivial, rfl, rfl, rfl, rfl, rfl, .refl _, id, rfl⟩
  trans _ _ _ h₁ h₂ := {
    procs      := h₁.procs.trans (fun _ _ _ => .trans) h₂.procs
    tables     := h₁.tables.trans (fun _ _ _ _ _ => trivial) h₂.tables
    counts     := h₂.counts.trans h₁.counts
    pagedirs   := h₂.pagedirs.trans h₁.pagedirs
    first      := h₂.first.trans h₁.first
    nextPid    := h₂.nextPid.trans h₁.nextPid
    deadLeaves := h₂.deadLeaves.trans h₁.deadLeaves
    scheduled  := h₂.scheduled.trans h₁.scheduled
    timer      := h₂.timer ∘ h₁.timer
    reports    := h₂.reports.trans h₁.reports }

section Basic

variable {s : State} {p i : ℕ} {v w : Proc}

theorem TimerOk.setProc (hv : s.procs.get p = some v)
    (hw : w.state = .waits4timer ↔ v.state = .waits4timer) (h : TimerOk s) :
    TimerOk (s.withProcs (s.procs.set p w)) := by
  intro q
  show s.scheduled.count q = _
  rw [h q, State.withProcs_procs, Heap.get_set hv]
  by_cases hq : q = p
  case pos => simp [hq, hv, hw]
  case neg => simp [hq]

theorem calm_setProc (hv : s.procs.get p = some v) (hc : v.Calm w)
    (hw : w.state = .waits4timer ↔ v.state = .waits4timer) :
    Calm s (s.withProcs (s.procs.set p w)) :=
  ⟨.set .refl hv hc, .refl fun _ => trivial, rfl, rfl, rfl, rfl, rfl, .refl _, TimerOk.setProc hv hw,
    rfl⟩

-- What the kernel does to other objects is of no interest here.
theorem calm_of_eq {t : State} (hp : t.procs = s.procs)
    (ht : s.tables.Related (fun _ _ => True) t.tables) (hc : t.counts = s.counts)
    (hd : t.pagedirs = s.pagedirs) (hf : t.first = s.first) (hn : t.nextPid = s.nextPid)
    (hl : t.deadLeaves = s.deadLeaves) (hs : t.scheduled = s.scheduled) (hr : t.reports = s.reports) :
    Calm s t :=
  ⟨hp ▸ .refl .refl, ht, hc, hd, hf, hn, hl, hs ▸ .refl _, fun h => by simpa [TimerOk, hp, hs] using h,
    hr⟩

-- An update of the other objects.
theorem modify_calm {f : State → State} (hp : ∀ s, (f s).procs = s.procs)
    (ht : ∀ s, (f s).tables = s.tables) (hc : ∀ s, (f s).counts = s.counts)
    (hd : ∀ s, (f s).pagedirs = s.pagedirs) (hf : ∀ s, (f s).first = s.first)
    (hn : ∀ s, (f s).nextPid = s.nextPid) (hl : ∀ s, (f s).deadLeaves = s.deadLeaves)
    (hs : ∀ s, (f s).scheduled = s.scheduled) (hr : ∀ s, (f s).reports = s.reports) :
    Respects Calm (modify f : K Unit) :=
  respects_modify fun s => calm_of_eq (hp s) (ht s ▸ .refl fun _ => trivial) (hc s) (hd s) (hf s)
    (hn s) (hl s) (hs s) (hr s)

@[grind ←]
theorem emit_calm {e : Event} (he : e.report = none) : Respects Calm (emit e) := by
  apply modify_calm
  case hr => simp [State.reports, he]
  all_goals exact fun _ => rfl

@[grind ←]
theorem setHandle_calm {v : Handle} : Respects Calm (setHandle i v) := by
  apply modify_calm <;> intros <;> rfl

@[grind ←]
theorem updHandle_calm {f : Handle → Handle} : Respects Calm (updHandle i f) :=
  .bind getHandle_respects fun _ => setHandle_calm

@[grind ←]
theorem setBackend_calm {v : VfsBackend} : Respects Calm (setBackend i v) := by
  apply modify_calm <;> intros <;> rfl

@[grind ←]
theorem updBackend_calm {f : VfsBackend → VfsBackend} : Respects Calm (updBackend i f) :=
  .bind getBackend_respects fun _ => setBackend_calm

@[grind ←]
theorem setMount_calm {v : VfsMount} : Respects Calm (setMount i v) := by
  apply modify_calm <;> intros <;> rfl

@[grind ←]
theorem setReq_calm {v : VfsReq} : Respects Calm (setReq i v) := by
  apply modify_calm <;> intros <;> rfl

@[grind ←]
theorem allocHandle_calm {v : Handle} : Respects Calm (allocHandle v) := by
  simp only [allocHandle]
  refine .bind respects_get fun _ => .bind ?_ fun _ => respects_pure
  apply modify_calm <;> intros <;> rfl

@[grind ←]
theorem allocBackend_calm {v : VfsBackend} : Respects Calm (allocBackend v) := by
  simp only [allocBackend]
  refine .bind respects_get fun _ => .bind ?_ fun _ => respects_pure
  apply modify_calm <;> intros <;> rfl

@[grind ←]
theorem allocMount_calm {v : VfsMount} : Respects Calm (allocMount v) := by
  simp only [allocMount]
  refine .bind respects_get fun _ => .bind ?_ fun _ => respects_pure
  apply modify_calm <;> intros <;> rfl

@[grind ←]
theorem allocReq_calm {v : VfsReq} : Respects Calm (allocReq v) := by
  simp only [allocReq]
  refine .bind respects_get fun _ => .bind ?_ fun _ => respects_pure
  apply modify_calm <;> intros <;> rfl

@[grind ←]
theorem allocBuf_calm {path : List UInt8} : Respects Calm (allocBuf path) := by
  simp only [allocBuf]
  refine .bind respects_get fun _ => .bind ?_ fun _ => respects_pure
  apply modify_calm <;> intros <;> rfl

theorem kfree_calm {α : Type} {heap : State → Heap α} {put : State → Heap α → State}
    (h : ∀ s h, Calm s (put s h)) : Respects Calm (kfree heap put i) := by
  intro s
  rw [wlp_kfree]
  exact fun _ _ => h s _

@[grind ←]
theorem freeBackend_calm : Respects Calm (freeBackend i) :=
  kfree_calm fun _ _ => calm_of_eq rfl (.refl fun _ => trivial) rfl rfl rfl rfl rfl rfl rfl

@[grind ←]
theorem freeMount_calm : Respects Calm (freeMount i) :=
  kfree_calm fun _ _ => calm_of_eq rfl (.refl fun _ => trivial) rfl rfl rfl rfl rfl rfl rfl

@[grind ←]
theorem freeReq_calm : Respects Calm (freeReq i) :=
  kfree_calm fun _ _ => calm_of_eq rfl (.refl fun _ => trivial) rfl rfl rfl rfl rfl rfl rfl

@[grind ←]
theorem freeBuf_calm : Respects Calm (freeBuf i) :=
  kfree_calm fun _ _ => calm_of_eq rfl (.refl fun _ => trivial) rfl rfl rfl rfl rfl rfl rfl

@[grind ←]
theorem freeHandle_calm : Respects Calm (freeHandle i) := by
  refine .ite respects_throw (kfree_calm fun _ _ => ?_)
  exact calm_of_eq rfl (.refl fun _ => trivial) rfl rfl rfl rfl rfl rfl rfl

@[grind ←]
theorem setSlot_calm {j : Fin HANDLE_MAX} {h : Option Hid} : Respects Calm (setSlot i j h) := by
  intro s
  rw [wlp_setSlot]
  exact fun v hv => calm_of_eq rfl (.set (fun _ => trivial) hv trivial) rfl rfl rfl rfl rfl rfl rfl

-- Whatever does not change the state of a process and is not among what calm processes keep.
theorem updProc_calm {f : Proc → Proc} (hf : ∀ v : Proc, v.Calm (f v)) (hs : ∀ v, (f v).state = v.state) :
    Respects Calm (updProc p f) := by
  intro s
  rw [wlp_updProc]
  exact fun v hv => calm_setProc hv (hf v) (by rw [hs v])

@[grind ←]
theorem regsSavereturn_calm {ret : Int} : Respects Calm (regsSavereturn p ret) :=
  updProc_calm (fun _ => ⟨rfl, .inl rfl⟩) fun _ => rfl

-- A process is woken up.
theorem calm_wake (hv : s.procs.get p = some v) (ha : v.state.active)
    (hc : v.state ≠ .waits4childdeath) (ht : v.state ≠ .waits4timer) :
    Calm s (s.withProcs (s.procs.set p { v with state := .running })) :=
  calm_setProc hv ⟨rfl, .inr ⟨ha, hc, rfl, by simp⟩⟩ (by simp [ht])

end Basic

section Request

variable {env : Env} {finish : Rid → Int → K Unit} {p b r h : ℕ} {ret : Int}

@[grind ←]
theorem procfsCleanup_calm : Respects Calm (procfsCleanup p) :=
  updProc_calm (fun _ => ⟨rfl, .inl rfl⟩) fun _ => rfl

-- A process which was found to wait for something is told the result.
theorem wakeReturn_calm {st : PState} {site : Site} (ha : st.active) (hc : st ≠ .waits4childdeath)
    (ht : st ≠ .waits4timer) :
    Respects Calm (do
      kassert ((← getProc p).state = st) site
      regsSavereturn p ret
      procSetstate p .running) := by
  intro s
  simp only [wlp_bind, wlp_getProc, wlp_kassert, wlp_regsSavereturn, wlp_procSetstate_running]
  intro v hv hst w hw x hx _
  rw [hv, Option.some_inj] at hw
  subst hw
  rw [State.withProcs_procs, Heap.get_set_self hv, Option.some_inj] at hx
  subst hx
  have hret : Calm s (s.withProcs (s.procs.set p { v with rax := ret })) :=
    calm_setProc hv ⟨rfl, .inl rfl⟩ Iff.rfl
  exact trans_of Calm hret (calm_wake (Heap.get_set_self hv) (hst ▸ ha) (hst ▸ hc) (hst ▸ ht))

@[grind ←]
theorem vfsBackendUnused_calm : Respects Calm (vfsBackendUnused b) := by
  refine .bind getBackend_respects fun v => ?_
  cases v.access
  case kern procfs =>
    cases procfs
    case none   => exact respects_pure
    case some p => exact procfsCleanup_calm
  case user handler =>
    cases handler
    case none   => exact respects_pure
    case some p => exact .bind setBackend_calm fun _ => wakeReturn_calm rfl (by simp) (by simp)

@[grind ←]
theorem vfsBackendTryfree_calm : Respects Calm (vfsBackendTryfree b) := by
  grind [vfsBackendTryfree]

@[grind ←]
theorem vfsBackendRefdownUse_calm : Respects Calm (vfsBackendRefdownUse b) := by
  grind [vfsBackendRefdownUse]

@[grind ←]
theorem vfsreqFreeInput_calm {input : VfsInput} : Respects Calm (vfsreqFreeInput input) := by
  cases input <;> grind [vfsreqFreeInput]

@[grind ←]
theorem vfsreqRefdown_calm {backend : Option Bid} : Respects Calm (vfsreqRefdown backend) := by
  cases backend <;> grind [vfsreqRefdown]

@[grind ←]
theorem vfsreqReturn_calm {caller : Option Pid} : Respects Calm (vfsreqReturn r ret caller) := by
  cases caller
  case none   => exact freeReq_calm
  case some p => exact wakeReturn_calm rfl (by simp) (by simp)

@[grind ←]
theorem vfsreqRelease_calm : Respects Calm (vfsreqRelease r ret) := by
  grind [vfsreqRelease, Event.report]

@[grind ←]
theorem vfsBackendOrphan_calm {queue : List Rid} : Respects Calm (vfsBackendOrphan b queue) := by
  grind [vfsBackendOrphan]

@[grind ←]
theorem vfsBackendRefdownProv_calm : Respects Calm (vfsBackendRefdownProv b) := by
  grind [vfsBackendRefdownProv]

@[grind ←]
theorem procTable_calm : Respects Calm (procTable p) := by
  grind [procTable]

@[grind ←]
theorem procHandleGet_calm {hid : Int} : Respects Calm (procHandleGet p hid) := by
  grind [procHandleGet]

@[grind ←]
theorem procHandleInit_calm {type : HandleType} : Respects Calm (procHandleInit p type) := by
  grind [procHandleInit, handleInit]

@[grind ←]
theorem procHidTake_calm {hid : Int} : Respects Calm (procHidTake p hid) := by
  grind [procHidTake]

-- A copy between two processes does not change the kernel's own data.
theorem wlp_pcpyBi {dstp srcp : Option Pid} {len : ℕ} {Q : ℕ → State → Prop} {s : State}
    (hq : ∀ n, Q n s) : wlp (pcpyBi env dstp srcp len) Q s := by
  cases dstp <;> cases srcp <;> simp [pcpyBi, wlp_ite, hq]

@[grind ←]
theorem pcpyBi_calm {dstp srcp : Option Pid} {len : ℕ} :
    Respects Calm (pcpyBi env dstp srcp len) := by
  cases dstp <;> cases srcp <;> grind [pcpyBi]

@[grind ←]
theorem pipeWake_calm : Respects Calm (pipeWake p ret) := by
  intro s
  simp only [pipeWake, wlp_bind, wlp_getProc, wlp_kassert, wlp_procSetstate_running]
  intro v hv hst w hw _
  rw [hv, Option.some_inj] at hw
  subst hw
  exact wlp_of_respects (calm_wake hv (by simp [hst, PState.active]) (by simp [hst]) (by simp [hst]))
    regsSavereturn_calm

@[grind ←]
theorem pipeInvalidateEnd_calm : Respects Calm (pipeInvalidateEnd h) := by
  grind [pipeInvalidateEnd]

theorem wakeTwo_calm {rdr wtr : Pid} {v w : Proc} {s : State} (ret : Int)
    (hv : s.procs.get rdr = some v) (hw : s.procs.get wtr = some w) (hvs : v.state = .waits4pipe) (hws : w.state = .waits4pipe) :
    wlp (do
      procSetstate rdr .running
      procSetstate wtr .running
      regsSavereturn rdr ret
      regsSavereturn wtr ret) (fun _ t => Calm s t) s := by
  simp only [wlp_bind, wlp_procSetstate_running]
  intro x hx _ y hy _
  rw [hv, Option.some_inj] at hx
  subst hx
  have hrdr : Calm s _ := calm_wake hv (by simp [hvs, PState.active]) (by simp [hvs]) (by simp [hvs])
  have hys : y.state = .running ∨ y.state = .waits4pipe := by
    rw [State.withProcs_procs, Heap.get_set hv] at hy
    by_cases heq : wtr = rdr
    case pos =>
      rw [if_pos heq, Option.some_inj] at hy
      exact .inl (hy ▸ rfl)
    case neg =>
      rw [if_neg heq, hw, Option.some_inj] at hy
      exact .inr (hy ▸ hws)
  have hwtr := trans_of Calm hrdr (calm_wake hy (by cases hys <;> simp [PState.active, *])
    (by cases hys <;> simp [*]) (by cases hys <;> simp [*]))
  exact wlp_post (wlp_of_respects hwtr regsSavereturn_calm) fun _ _ ht =>
    wlp_of_respects ht regsSavereturn_calm

-- Nothing that happens before the two processes are woken up changes their states.
@[grind ←]
theorem pipeTransfer_calm {sister rdr wtr : ℕ} :
    Respects Calm (pipeTransfer env h sister rdr wtr) := by
  intro s
  simp only [pipeTransfer, wlp_bind, wlp_getProc, wlp_kassert]
  intro v hv w hw hvs hws
  refine wlp_pcpyBi fun len => ?_
  simp only [wlp_updHandle]
  intro a _ b _
  have hcalm (h : Heap Handle) : Calm s (s.withHandles h) :=
    calm_of_eq rfl (.refl fun _ => trivial) rfl rfl rfl rfl rfl rfl rfl
  have hwake (g : Heap Handle) := wlp_post
    (wakeTwo_calm (s := s.withHandles g) (toInt32 len) hv hw hvs hws)
    fun _ _ ht => trans_of Calm (hcalm g) ht
  simp only [wlp_bind] at hwake
  exact hwake _

@[grind ←]
theorem pipeTrytransfer_calm : Respects Calm (pipeTrytransfer env h) := by
  refine .bind getHandle_respects fun v => .bind kassert_respects fun _ => .bind kassert_respects fun _ => ?_
  cases v.sister
  case none        => exact kassert_respects
  case some sister =>
    refine .bind getHandle_respects fun w => ?_
    cases pipeEnds v w
    dsimp only
    split
    · exact pipeTransfer_calm
    · exact respects_pure

@[grind ←]
theorem pipeCheckQueue_calm {queued : List Pid} : Respects Calm (pipeCheckQueue queued) := by
  grind [pipeCheckQueue]

@[grind ←]
theorem procSetstate_waiting_calm {state : PState} (hw : state.waiting)
    (hc : state ≠ .waits4childdeath) (ht : state ≠ .waits4timer) :
    Respects Calm (procSetstate p state) := by
  intro s
  rw [wlp_procSetstate_waiting hw]
  intro v hv hr
  refine calm_setProc hv ⟨rfl, .inr ⟨by simp [hr, PState.active], by simp [hr], ?_, hc⟩⟩ (by simp [hr, ht])
  cases state <;> simp [PState.waiting, PState.active] at hw ⊢

@[grind ←]
theorem pipeJoinqueue_calm {len : ℕ} : Respects Calm (pipeJoinqueue env h p len) := by
  have hwait (since : ℕ) : Respects Calm
      (updProc p ({ · with waitsPipe := h, waitsLen := len, waitsSince := since })) :=
    updProc_calm (fun _ => ⟨rfl, .inl rfl⟩) fun _ => rfl
  refine .bind getHandle_respects fun v => .bind kassert_respects fun _ => .bind kassert_respects fun _ => ?_
  cases v.sister
  case none   => exact regsSavereturn_calm
  case some _ =>
    refine .bind pipeCheckQueue_calm fun _ => .bind ?_ fun _ => ?_
    · exact procSetstate_waiting_calm rfl (by simp) (by simp)
    · exact .bind setHandle_calm fun _ => .bind respects_get fun s => .bind (hwait s.log.length)
        fun _ => .bind (emit_calm rfl) fun _ => pipeTrytransfer_calm

-- The slot of a new handle, if there is one.
theorem wlp_procHandleInit {type : HandleType} {s : State}
    {Q : Option (Fin HANDLE_MAX × Hid) → State → Prop} :
    wlp (procHandleInit p type) Q s ↔ ∀ v t table, s.procs.get p = some v → v.handles = some t →
      s.tables.get t = some table → (procFindFreeHandle table 1).elim (Q none s) fun i =>
        Q (some (i, s.handles.size)) ((s.withHandles (s.handles.alloc { type := type })).withTables
          (s.tables.set t (Function.update table i (some s.handles.size)))) := by
  simp only [procHandleInit, procTable, handleInit, wlp_bind, wlp_getProc, wlp_nonNull, wlp_getTable]
  refine forall_congr' fun v => ⟨fun h t table hv ht htable => ?_, fun h hv t ht table htable => ?_⟩
  · have := h hv t ht table htable
    cases hi : procFindFreeHandle table 1 <;> simpa [hi, htable] using this
  · have := h t table hv ht htable
    cases hi : procFindFreeHandle table 1 <;> simpa [hi, htable] using this

section Accept

-- What is in a buffer of the kernel is copied as far as there is room for it.
theorem wlp_userAcceptInput {req : VfsReq} {s : State} {R : Unit → State → Prop} (hr : R () s)
    (hg : ∀ buf input room, req.input = .kern buf → s.bufs.get buf = some input →
      R () (s.withLog (s.log ++ [.given p room (input.take room)]))) :
    wlp (userAcceptInput env req p) R s := by
  cases hi : req.input
  case kern buf =>
    simp only [userAcceptInput, hi, pcpyTo, pcpyRoom, wlp_bind, wlp_getBuf, wlp_getProc, wlp_pure, wlp_emit]
    intro input hinput v _ w hw x hx
    obtain rfl := Option.some_inj.mp (hw.symm.trans hx)
    have hroom (m r : ℕ) : input.take (min (min input.length m) r) = input.take (min m r) :=
      List.take_eq_take_iff.mpr (by omega)
    rw [hroom]
    exact hg buf input _ hi hinput
  case user buf len =>
    simp only [userAcceptInput, hi, wlp_ite, wlp_bind, wlp_getProc, wlp_discard, wlp_pure]
    exact ⟨fun _ _ _ => wlp_pcpyBi fun _ => hr, fun _ => hr⟩

-- The handler waits until it is given the request.
theorem userAcceptHandle_calm {s : State} {v : Proc} (hv : s.procs.get p = some v)
    (hs : v.state = .waits4request) :
    wlp (userAcceptHandle b r p) (fun _ t => Calm s t) s := by
  simp only [userAcceptHandle, wlp_bind]
  refine wlp_procHandleInit.mpr fun _ t table _ _ htable => ?_
  cases procFindFreeHandle table 1
  case none   => exact wlp_throw.mpr trivial
  case some i =>
    simp only [Option.elim_some, wlp_bind, wlp_updHandle, wlp_procSetstate_running]
    intro w _ x hx _
    obtain rfl := Option.some_inj.mp (hv.symm.trans hx)
    refine wlp_post (wlp_of_respects (R := Calm) (s := s) ?_ regsSavereturn_calm) fun _ _ ht =>
      wlp_of_respects ht updBackend_calm
    refine trans_of Calm ?_ (calm_wake hx (by simp [hs, PState.active]) (by simp [hs]) (by simp [hs]))
    exact calm_of_eq rfl (.set (fun _ => trivial) htable trivial) rfl rfl rfl rfl rfl rfl rfl

@[grind ←]
theorem vfsBackendUserAccept_calm : Respects Calm (vfsBackendUserAccept env r) := by
  refine .bind getReq_respects fun req => ?_
  cases req.backend
  case none   => exact respects_throw
  case some b =>
    refine .bind getBackend_respects fun v => ?_
    split
    case h_2 => exact respects_throw
    case h_1 p _ =>
      intro s
      simp only [wlp_bind, wlp_getProc, wlp_kassert]
      intro v hv hs
      have hhandle {t : State} (ht : Calm s t) (hp : t.procs = s.procs) :
          wlp (do
            if ¬env.resWritten p then
              throw (.panic .userAcceptResult)
            userAcceptHandle b r p) (fun _ u => Calm s u) t := by
        simp only [wlp_ite, wlp_bind, wlp_throw, implies_true, true_and]
        exact fun _ => wlp_post (userAcceptHandle_calm (hp ▸ hv) hs) fun _ _ hu => trans_of Calm ht hu
      refine wlp_userAcceptInput (hhandle (refl_of Calm s) rfl) fun buf input room _ _ => hhandle ?_ rfl
      exact wlp_emit.mp (emit_calm (e := .given p room (input.take room)) rfl s)

variable (hf : ∀ r ret, Respects Calm (finish r ret))
include hf

theorem kernAccept_calm : Respects Calm (kernAccept env finish r) := by
  refine .bind getReq_respects fun req => ?_
  cases env.drv r req
  case none     => exact respects_modify fun _ => calm_of_eq rfl (.refl fun _ => trivial) rfl rfl rfl rfl rfl rfl rfl
  case some ret => exact hf r ret

theorem vfsBackendTryaccept_calm : Respects Calm (vfsBackendTryaccept env finish b) := by
  have hkern (r : Rid) : Respects Calm (kernAccept env finish r) := kernAccept_calm hf
  refine .bind getBackend_respects fun v => ?_
  cases v.queue
  case nil => exact respects_pure
  case cons r queue =>
    cases v.access
    case kern _ =>
      exact .bind setBackend_calm fun _ => .bind getReq_respects fun _ => .bind (emit_calm rfl) fun _ => hkern r
    case user handler =>
      cases handler
      case none   => exact respects_pure
      case some _ =>
        exact .bind setBackend_calm fun _ => .bind getReq_respects fun _ => .bind (emit_calm rfl) fun _ =>
          vfsBackendUserAccept_calm

omit hf in
@[grind ←]
theorem vfsreqStore_calm {req : VfsReq} : Respects Calm (vfsreqStore req) := by
  have hslot (p r : ℕ) : Respects Calm (updProc p ({ · with reqslot := some r })) :=
    updProc_calm (fun _ => ⟨rfl, .inl rfl⟩) fun _ => rfl
  simp only [vfsreqStore]
  cases req.caller
  case none   => exact allocReq_calm
  case some p =>
    refine .bind (procSetstate_waiting_calm rfl (by simp) (by simp)) fun _ => ?_
    refine .bind getProc_respects fun v => ?_
    cases v.reqslot
    case none   =>
      exact .bind allocReq_calm fun r => .bind (hslot p r) fun _ => respects_pure
    case some r =>
      exact .bind (.discard getReq_respects) fun _ => .bind setReq_calm fun _ => respects_pure

omit hf in
@[grind ←]
theorem vfsreqUse_calm {backend : Option Bid} : Respects Calm (vfsreqUse backend) := by
  cases backend <;> grind [vfsreqUse]

theorem vfsreqEnqueue_calm {backend : Option Bid} :
    Respects Calm (vfsreqEnqueue env finish r backend) := by
  cases backend
  case none   => exact hf r _
  case some b =>
    refine .bind getBackend_respects fun v => .ite ?_ (hf r _)
    exact .bind setBackend_calm fun _ => .bind getReq_respects fun _ => .bind (emit_calm rfl) fun _ =>
      vfsBackendTryaccept_calm hf

theorem vfsreqCreate_calm {req : VfsReq} : Respects Calm (vfsreqCreate env finish req) :=
  .bind vfsreqStore_calm fun r => .bind (emit_calm rfl) fun _ => .bind vfsreqUse_calm fun _ =>
    .ite (hf r _) (vfsreqEnqueue_calm hf)

theorem handleCloseType_calm {v : Handle} : Respects Calm (handleCloseType env finish h v) := by
  simp only [handleCloseType]
  cases v.type
  case file  => exact vfsreqCreate_calm hf
  case pipe  => cases v.sister <;> grind
  case fsReq =>
    cases v.req
    case none   => exact respects_pure
    case some r => exact hf r _
  all_goals exact respects_pure

theorem handleClose_calm : Respects Calm (handleClose env finish h) := by
  have htype {v : Handle} : Respects Calm (handleCloseType env finish h v) := handleCloseType_calm hf
  grind [handleClose]

theorem procHandlePut_calm : Respects Calm (procHandlePut env finish p h) := by
  have hclose : Respects Calm (handleClose env finish h) := handleClose_calm hf
  grind [procHandlePut]

end Accept

section Finish

@[grind ←]
theorem vfsreqFinishFile_calm {req : VfsReq} {stored : ℕ} :
    Respects Calm (vfsreqFinishFile req stored) := by
  grind [vfsreqFinishFile, Event.report]

@[grind ←]
theorem vfsreqFinishHandle_calm {req : VfsReq} {stored : ℕ} {flags : Flags} {handler : Option Pid} :
    Respects Calm (vfsreqFinishHandle req stored ret flags handler) := by
  cases handler <;> grind [vfsreqFinishHandle]

theorem vfsreqFinishPut_calm (hf : ∀ r ret, Respects Calm (finish r ret)) {caller : Option Pid}
    {o : Option Hid} : Respects Calm (vfsreqFinishPut env finish caller o) := by
  have hput {p h : ℕ} : Respects Calm (procHandlePut env finish p h) := procHandlePut_calm hf
  cases o <;> cases caller <;> grind [vfsreqFinishPut]

theorem vfsreqFinish_calm {depth stored : ℕ} {flags : Flags} {handler : Option Pid} :
    Respects Calm (vfsreqFinish env depth r stored ret flags handler) := by
  induction depth generalizing r stored ret flags handler
  case zero => exact respects_throw
  case succ depth hi =>
    refine .bind getReq_respects fun req => .ite (.bind ?_ fun _ => vfsreqRelease_calm) vfsreqRelease_calm
    exact .bind getReq_respects fun _ => .bind vfsreqFinishHandle_calm fun _ =>
      vfsreqFinishPut_calm fun _ _ => hi

theorem vfsreqFinishShort_calm (r : Rid) (ret : Int) : Respects Calm (vfsreqFinishShort env r ret) :=
  vfsreqFinish_calm

end Finish
end Request
end Camellia
