import Camellia.Kernel.Finish
import Camellia.Kernel.Life

namespace Camellia

-- The counter of a handle, which is 0 if the handle was freed.
def State.handleRefs (s : State) (h : Hid) : ℕ :=
  (s.handles.get h).elim 0 Handle.refcount

-- What is in a slot stays there, and a new handle may only get into a free one. The counters of the
-- first `n` handles stay as they are.
structure Fills (n : ℕ) (s t : State) : Prop where
  slots : ∀ i v, s.tables.get i = some v → ∃ w, t.tables.get i = some w ∧ ∀ j, v j ≠ none → w j = v j
  refs  : n ≤ s.handles.size → n ≤ t.handles.size ∧ ∀ h < n, t.handleRefs h = s.handleRefs h

instance {n : ℕ} : IsPreorder State (Fills n) where
  refl _            := ⟨fun _ v hv => ⟨v, hv, fun _ _ => rfl⟩, fun hn => ⟨hn, fun _ _ => rfl⟩⟩
  trans _ _ _ h₁ h₂ := by
    refine ⟨fun i v hv => ?_, fun hn => ?_⟩
    · obtain ⟨w, hw, hvw⟩ := h₁.slots i v hv
      obtain ⟨x, hx, hwx⟩ := h₂.slots i w hw
      exact ⟨x, hx, fun j hj => (hwx j (by rwa [hvw j hj])).trans (hvw j hj)⟩
    · obtain ⟨hn₁, hr₁⟩ := h₁.refs hn
      obtain ⟨hn₂, hr₂⟩ := h₂.refs hn₁
      exact ⟨hn₂, fun h hh => (hr₂ h hh).trans (hr₁ h hh)⟩

-- Of the references to the handles, some are gone.
structure Falls (gone : Hid → ℕ) (s t : State) : Prop where
  size : s.handles.size ≤ t.handles.size
  refs : ∀ h < s.handles.size, t.handleRefs h + gone h = s.handleRefs h

theorem Falls.refl {s : State} : Falls 0 s s :=
  ⟨le_rfl, fun _ _ => rfl⟩

theorem Falls.trans {s t u : State} {a b : Hid → ℕ} (h₁ : Falls a s t) (h₂ : Falls b t u) : Falls (a + b) s u where
  size      := h₁.size.trans h₂.size
  refs h hh := by
    have ht := h₁.refs h hh
    have hu := h₂.refs h (lt_of_lt_of_le hh h₁.size)
    simp only [Pi.add_apply]
    omega

section Fills

variable {n : ℕ} {s t : State} {p : Pid} {h : Hid} {b : Bid} {r : Rid} {env : Env} {finish : Rid → Int → K Unit}
variable {v : Handle} {ret : Int}

theorem fills_of_eq (ht : t.tables = s.tables) (hh : t.handles = s.handles) : Fills n s t :=
  ⟨fun _ v hv => ⟨v, ht ▸ hv, fun _ _ => rfl⟩, fun hn => ⟨hh ▸ hn, fun _ _ => by rw [State.handleRefs, hh, State.handleRefs]⟩⟩

theorem modify_fills {f : State → State} (hf : ∀ s, (f s).tables = s.tables) (hh : ∀ s, (f s).handles = s.handles) :
    Respects (Fills n) (modify f : K Unit) :=
  respects_modify fun s => fills_of_eq (hf s) (hh s)

theorem handleRefs_set (hv : s.handles.get h = some v) {g : Hid} {w : Handle} :
    (s.withHandles (s.handles.set h w)).handleRefs g = if g = h then w.refcount else s.handleRefs g := by
  rw [State.handleRefs, State.withHandles_handles, Heap.get_set hv]
  split_ifs <;> rfl

theorem fills_setHandle {w : Handle} (hv : s.handles.get h = some v) (hw : h < n → w.refcount = v.refcount) :
    Fills n s (s.withHandles (s.handles.set h w)) := by
  refine ⟨fun _ x hx => ⟨x, hx, fun _ _ => rfl⟩, fun hn => ⟨by simpa using hn, fun g hg => ?_⟩⟩
  rw [handleRefs_set hv]
  by_cases hgh : g = h
  case neg => rw [if_neg hgh]
  case pos => rw [if_pos hgh, hgh, hw (hgh ▸ hg), State.handleRefs, hv, Option.elim_some]

@[grind ←]
theorem emit_fills {e : Event} : Respects (Fills n) (emit e) :=
  modify_fills (fun _ => rfl) fun _ => rfl

@[grind ←]
theorem updProc_fills {f : Proc → Proc} : Respects (Fills n) (updProc p f) :=
  .bind getProc_respects fun _ => modify_fills (fun _ => rfl) fun _ => rfl

theorem updHandle_fills {f : Handle → Handle} (hf : ∀ v, h < n → (f v).refcount = v.refcount) :
    Respects (Fills n) (updHandle h f) := by
  intro s
  rw [wlp_updHandle]
  exact fun v hv => fills_setHandle hv (hf v)

@[grind ←]
theorem setBackend_fills {v : VfsBackend} : Respects (Fills n) (setBackend b v) :=
  modify_fills (fun _ => rfl) fun _ => rfl

@[grind ←]
theorem updBackend_fills {f : VfsBackend → VfsBackend} : Respects (Fills n) (updBackend b f) :=
  .bind getBackend_respects fun _ => setBackend_fills

@[grind ←]
theorem setReq_fills {v : VfsReq} : Respects (Fills n) (setReq r v) :=
  modify_fills (fun _ => rfl) fun _ => rfl

theorem fills_allocHandle : Fills n s (s.withHandles (s.handles.alloc v)) := by
  refine ⟨fun _ x hx => ⟨x, hx, fun _ _ => rfl⟩, fun hn => ⟨by simp; omega, fun g hg => ?_⟩⟩
  rw [State.handleRefs, State.handleRefs, State.withHandles_handles, Heap.get_alloc, if_neg (by omega)]

@[grind ←]
theorem allocHandle_fills : Respects (Fills n) (allocHandle v) := by
  intro s
  rw [wlp_allocHandle]
  exact fills_allocHandle

@[grind ←]
theorem allocReq_fills {v : VfsReq} : Respects (Fills n) (allocReq v) := by
  intro s
  rw [wlp_allocReq]
  exact fills_of_eq rfl rfl

@[grind ←]
theorem freeBackend_fills : Respects (Fills n) (freeBackend b) := by
  intro s
  rw [wlp_freeBackend]
  exact fun _ _ => fills_of_eq rfl rfl

@[grind ←]
theorem freeReq_fills : Respects (Fills n) (freeReq r) := by
  intro s
  rw [wlp_freeReq]
  exact fun _ _ => fills_of_eq rfl rfl

@[grind ←]
theorem freeBuf_fills {buf : ℕ} : Respects (Fills n) (freeBuf buf) := by
  intro s
  rw [wlp_freeBuf]
  exact fun _ _ => fills_of_eq rfl rfl

theorem fills_freeHandle (hv : s.handles.get h = some v) (hw : h < n → v.refcount = 0) :
    Fills n s (s.withHandles (s.handles.free h)) := by
  refine ⟨fun _ x hx => ⟨x, hx, fun _ _ => rfl⟩, fun hn => ⟨by simpa using hn, fun g hg => ?_⟩⟩
  rw [State.handleRefs, State.handleRefs, State.withHandles_handles, Heap.get_free]
  by_cases hgh : g = h
  case neg => rw [if_neg hgh]
  case pos => rw [if_pos hgh, hgh, hv, Option.elim_none, Option.elim_some, hw (hgh ▸ hg)]

@[grind ←]
theorem procSetstate_running_fills : Respects (Fills n) (procSetstate p .running) := by
  intro s
  rw [wlp_procSetstate_running]
  exact fun _ _ _ => fills_of_eq rfl rfl

@[grind ←]
theorem procSetstate_waits4fs_fills : Respects (Fills n) (procSetstate p .waits4fs) := by
  intro s
  rw [wlp_procSetstate_waiting rfl]
  exact fun _ _ _ => fills_of_eq rfl rfl

@[grind ←]
theorem regsSavereturn_fills : Respects (Fills n) (regsSavereturn p ret) :=
  updProc_fills

@[grind ←]
theorem vfsBackendUnused_fills : Respects (Fills n) (vfsBackendUnused b) := by
  refine .bind getBackend_respects fun v => ?_
  cases v.access
  case kern o => cases o <;> grind [procfsCleanup]
  case user o => cases o <;> grind

@[grind ←]
theorem vfsreqRefdown_fills {o : Option Bid} : Respects (Fills n) (vfsreqRefdown o) := by
  have htryfree (b : Bid) : Respects (Fills n) (vfsBackendTryfree b) := by grind [vfsBackendTryfree]
  cases o <;> grind [vfsreqRefdown, vfsBackendRefdownUse]

@[grind ←]
theorem vfsreqRelease_fills : Respects (Fills n) (vfsreqRelease r ret) := by
  have hinput (i : VfsInput) : Respects (Fills n) (vfsreqFreeInput i) := by cases i <;> grind [vfsreqFreeInput]
  have hreturn (p : Option Pid) : Respects (Fills n) (vfsreqReturn r ret p) := by cases p <;> grind [vfsreqReturn]
  grind [vfsreqRelease]

-- A slot is filled which was free.
theorem fills_setSlot {i : Tid} {v : Table} {j : Fin HANDLE_MAX} {o : Option Hid} (hv : s.tables.get i = some v)
    (hj : v j = none) : Fills n s (s.withTables (s.tables.set i (Function.update v j o))) := by
  refine ⟨fun k w hw => ?_, fun hn => ⟨hn, fun _ _ => rfl⟩⟩
  rw [State.withTables_tables, Heap.get_set hv]
  by_cases hk : k = i
  case neg => exact ⟨w, by rw [if_neg hk, hw], fun _ _ => rfl⟩
  case pos =>
    rw [hk, hv, Option.some_inj] at hw
    refine ⟨_, if_pos hk, fun j' hj' => ?_⟩
    have hne : j' ≠ j := fun he => hj' (by rw [← hw, he, hj])
    rw [Function.update_of_ne hne, hw]

@[grind ←]
theorem procHandleInit_fills {type : HandleType} : Respects (Fills n) (procHandleInit p type) := by
  intro s
  refine wlp_procHandleInit.mpr fun v t table _ _ htable => ?_
  cases hslot : procFindFreeHandle table 1
  case none   => exact refl_of (Fills n) s
  case some j => exact trans_of (Fills n) fills_allocHandle (fills_setSlot htable (procFindFreeHandle_free hslot))

theorem userAcceptInput_fills {req : VfsReq} : Respects (Fills n) (userAcceptInput env req p) :=
  fun s => wlp_userAcceptInput (refl_of (Fills n) s) fun _ _ _ _ _ => fills_of_eq rfl rfl

@[grind ←]
theorem userAcceptHandle_fills : Respects (Fills n) (userAcceptHandle b r p) := by
  refine .bind procHandleInit_fills fun o => ?_
  cases o
  case none   => exact respects_throw
  case some x =>
    have hreq (h : Hid) : Respects (Fills n) (updHandle h ({ · with req := some r })) := updHandle_fills fun _ _ => rfl
    grind

@[grind ←]
theorem vfsBackendUserAccept_fills : Respects (Fills n) (vfsBackendUserAccept env r) := by
  refine .bind getReq_respects fun req => ?_
  cases req.backend
  case none   => exact respects_throw
  case some b =>
    refine .bind getBackend_respects fun v => ?_
    split
    case h_2 => exact respects_throw
    case h_1 p _ =>
      have := @userAcceptInput_fills n p env req
      grind

@[grind ←]
theorem pipeInvalidateEnd_fills : Respects (Fills n) (pipeInvalidateEnd h) := by
  have hwake (p : Pid) : Respects (Fills n) (pipeWake p (-1)) := by grind [pipeWake]
  have hqueue : Respects (Fills n) (updHandle h ({ · with queued := [] })) := updHandle_fills fun _ _ => rfl
  grind [pipeInvalidateEnd]

section Request

variable (hf : ∀ r ret, Respects (Fills n) (finish r ret))
include hf

theorem kernAccept_fills : Respects (Fills n) (kernAccept env finish r) := by
  refine .bind getReq_respects fun req => ?_
  cases env.drv r req
  case none     => exact modify_fills (fun _ => rfl) fun _ => rfl
  case some ret => exact hf r ret

theorem vfsBackendTryaccept_fills : Respects (Fills n) (vfsBackendTryaccept env finish b) := by
  have hkern (r : Rid) : Respects (Fills n) (kernAccept env finish r) := kernAccept_fills hf
  refine .bind getBackend_respects fun v => ?_
  cases v.queue
  case nil => exact respects_pure
  case cons r queue =>
    cases v.access
    case kern _       => grind
    case user handler => cases handler <;> grind

theorem vfsreqCreate_fills {req : VfsReq} : Respects (Fills n) (vfsreqCreate env finish req) := by
  have hstore : Respects (Fills n) (vfsreqStore req) := by
    rw [vfsreqStore]
    cases req.caller
    case none   => exact allocReq_fills
    case some p =>
      refine .bind procSetstate_waits4fs_fills fun _ => .bind getProc_respects fun v => ?_
      cases v.reqslot <;> grind
  have huse : Respects (Fills n) (vfsreqUse req.backend) := by cases req.backend <;> grind [vfsreqUse]
  have htry (b : Bid) : Respects (Fills n) (vfsBackendTryaccept env finish b) := vfsBackendTryaccept_fills hf
  have henqueue (r : Rid) : Respects (Fills n) (vfsreqEnqueue env finish r req.backend) := by
    cases req.backend <;> grind [vfsreqEnqueue]
  grind [vfsreqCreate]

theorem handleCloseType_fills : Respects (Fills n) (handleCloseType env finish h v) := by
  have hcreate (req : VfsReq) : Respects (Fills n) (vfsreqCreate env finish req) := vfsreqCreate_fills hf
  have hsister (g : Hid) : Respects (Fills n) (updHandle g ({ · with sister := none })) := updHandle_fills fun _ _ => rfl
  rw [handleCloseType]
  cases v.type
  case file  => exact hcreate _
  case pipe  => cases v.sister <;> grind
  case fsReq => cases v.req <;> grind
  all_goals exact respects_pure

-- Only the counter of the handle itself is changed.
theorem handleClose_fills (hn : n ≤ h) : Respects (Fills n) (handleClose env finish h) := by
  intro s
  simp only [handleClose, wlp_bind, wlp_getHandle, wlp_kassert, wlp_setHandle, wlp_ite, wlp_pure]
  intro v hv _
  have hset : Fills n s (s.withHandles (s.handles.set h { v with refcount := v.refcount - 1 })) :=
    fills_setHandle hv fun hlt => absurd hlt (not_lt.mpr hn)
  refine ⟨fun _ => ?_, fun _ => hset⟩
  refine wlp_post (wlp_of_respects hset (handleCloseType_fills hf)) fun _ t ht => ?_
  refine wlp_post (wlp_of_respects ht vfsreqRefdown_fills) fun _ u hu => ?_
  rw [wlp_freeHandle]
  exact fun _ w hw => trans_of (Fills n) hu (fills_freeHandle hw fun hlt => absurd hlt (not_lt.mpr hn))

theorem procHandlePut_fills (hn : n ≤ h) : Respects (Fills n) (procHandlePut env finish p h) := by
  have hclose : Respects (Fills n) (handleClose env finish h) := handleClose_fills hf hn
  intro s
  simp only [procHandlePut, procTable, wlp_bind, wlp_getProc, wlp_nonNull, wlp_getTable]
  intro v _ i _ table htable
  cases hslot : procFindFreeHandle table 1
  case none   => exact (hclose.bind fun _ => respects_pure) s
  case some j =>
    simp only [wlp_bind, wlp_setSlot]
    intro table' htable'
    obtain rfl := Option.some_inj.mp (htable.symm.trans htable')
    exact wlp_pure.mpr (fills_setSlot htable (procFindFreeHandle_free hslot))

-- A counter falls by one when its handle is closed.
theorem handleClose_falls (hs : s.handles.size = n) :
    wlp (handleClose env finish h) (fun _ t => Fills 0 s t ∧ Falls (fun g => if h = g then 1 else 0) s t) s := by
  subst hs
  simp only [handleClose, wlp_bind, wlp_getHandle, wlp_kassert, wlp_setHandle, wlp_ite, wlp_pure]
  intro v hv h0
  let u := s.withHandles (s.handles.set h { v with refcount := v.refcount - 1 })
  have hu : s.handles.size ≤ u.handles.size := by simp [u]
  have hset : Fills 0 s u := fills_setHandle hv fun hlt => absurd hlt (Nat.not_lt_zero _)
  have hrefs (g : Hid) : u.handleRefs g + (if h = g then 1 else 0) = s.handleRefs g := by
    rw [handleRefs_set hv]
    by_cases hgh : g = h
    case neg => rw [if_neg hgh, if_neg (Ne.symm hgh), Nat.add_zero]
    case pos =>
      rw [if_pos hgh, if_pos hgh.symm, hgh, State.handleRefs, hv, Option.elim_some]
      exact Nat.sub_add_cancel h0
  have hend {t : State} (ht : Fills s.handles.size u t) :
      Fills 0 s t ∧ Falls (fun g => if h = g then 1 else 0) s t := by
    obtain ⟨hsize, hsame⟩ := ht.refs hu
    refine ⟨trans_of (Fills 0) hset ⟨ht.slots, fun _ => ⟨Nat.zero_le _, fun g hg => absurd hg (Nat.not_lt_zero g)⟩⟩,
      hsize, fun g hg => ?_⟩
    rw [hsame g hg, hrefs g]
  refine ⟨fun hz => ?_, fun _ => hend (refl_of (Fills _) u)⟩
  refine wlp_post (handleCloseType_fills hf u) fun _ t ht => ?_
  refine wlp_post (wlp_of_respects ht vfsreqRefdown_fills) fun _ x hx => ?_
  rw [wlp_freeHandle]
  intro _ w hw
  refine hend (trans_of (Fills _) hx (fills_freeHandle hw fun hlt => ?_))
  -- Nobody has changed the counter in the meantime, so it is still 0.
  have hsame := (hx.refs hu).2 h hlt
  rw [State.handleRefs, hw, Option.elim_some, handleRefs_set hv, if_pos rfl] at hsame
  rw [hsame, hz]

end Request

theorem vfsreqFinishFile_fills {req : VfsReq} {stored : ℕ} :
    wlp (vfsreqFinishFile req stored) (fun h t => h = s.handles.size ∧ Fills n s t) s := by
  simp only [vfsreqFinishFile, wlp_bind, wlp_nonNull, wlp_allocHandle, wlp_updBackend, wlp_emit, wlp_pure]
  intro b _ x _
  let v : Handle := {
    type      := .file
    backend   := some b
    fileId    := stored
    readable  := openReadable req.flags
    writeable := openWriteable req.flags }
  have halloc : Fills n s (s.withHandles (s.handles.alloc v)) := fills_allocHandle
  exact ⟨trivial, halloc.slots, halloc.refs⟩

-- A handle which is closed because the caller has no slot for it is a new one.
theorem vfsreqFinishOpen_fills {stored : ℕ} {flags : Flags} {handler : Option Pid}
    (hf : ∀ n r ret, Respects (Fills n) (finish r ret)) (hd : ¬flags.has FSR_DELEGATE) :
    Respects (Fills n) (vfsreqFinishOpen env finish r stored ret flags handler) := by
  intro s
  have hnew (m : ℕ) (hm : m ≤ s.handles.size) :
      wlp (vfsreqFinishOpen env finish r stored ret flags handler) (fun _ t => Fills m s t) s := by
    simp only [vfsreqFinishOpen, wlp_bind, wlp_getReq]
    intro req _
    rw [vfsreqFinishHandle.eq_def, if_pos hd, wlp_bind]
    refine wlp_post (@vfsreqFinishFile_fills m s req stored) fun h t ht => wlp_pure.mpr ?_
    obtain ⟨rfl, ht⟩ := ht
    cases req.caller
    case none   => exact wlp_throw.mpr trivial
    case some p =>
      rw [vfsreqFinishPut]
      refine wlp_bind.mpr (wlp_post (wlp_of_respects ht (procHandlePut_fills (hf m) hm)) fun _ u hu => ?_)
      exact wlp_pure.mpr hu
  by_cases hn : n ≤ s.handles.size
  case pos => exact hnew n hn
  case neg => exact wlp_post (hnew 0 (Nat.zero_le _)) fun _ t ht => ⟨ht.slots, fun h => absurd h hn⟩

theorem vfsreqFinish_fills {depth stored : ℕ} {flags : Flags} {handler : Option Pid} (hd : ¬flags.has FSR_DELEGATE) :
    Respects (Fills n) (vfsreqFinish env depth r stored ret flags handler) := by
  induction depth generalizing n r stored ret flags handler
  case zero => exact respects_throw
  case succ depth hi =>
    refine .bind getReq_respects fun req => .ite (.bind ?_ fun _ => vfsreqRelease_fills) vfsreqRelease_fills
    exact vfsreqFinishOpen_fills (fun _ _ _ => hi (by decide)) hd

theorem vfsreqFinishShort_fills (r : Rid) (ret : Int) : Respects (Fills n) (vfsreqFinishShort env r ret) :=
  vfsreqFinish_fills (by decide)

end Fills
end Camellia
