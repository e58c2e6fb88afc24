import Camellia.Kernel.Resolve

namespace Camellia

open Paths

-- How the paths which processes open get to the drivers, and who changes the mounts.

-- If a request has a path in a buffer of the kernel and does not go to one of the first `n` backends, then this
-- is what drivers should be given.
def Postable (n : ℕ) (s : State) (req : VfsReq) : Prop :=
  ∀ b, req.input = .kern b → b < s.bufs.size ∧
    ∀ c d, req.backend = some c → n ≤ c → s.bufs.get b = some d → Delivered d

-- The first `n` backends are those of the drivers in the kernel.
structure PathsOk (n : ℕ) (s : State) : Prop where
  users  : ∀ b v, s.backends.get b = some v → v.isUser → n ≤ b
  size   : n ≤ s.backends.size
  mounts : ∀ m v, s.mounts.get m = some v → (∃ b < n, v.backend = some b) ∨ IsStem v.path
  reqs   : ∀ r w, s.reqs.get r = some w → Postable n s w
  given  : ∀ p room bytes, .given p room bytes ∈ s.log → ∃ d, Delivered d ∧ bytes = d.take room

-- What a process has all its life.
def Proc.home (v : Proc) : Option Mid × Option ℕ :=
  (v.mount, v.pages)

-- Nobody gets other mounts, except for the process `o` if there is one, and the mounts which are there do not change.
structure Steady (n : ℕ) (o : Option Pid) (s t : State) : Prop where
  procs  : ∀ q w, some q ≠ o → t.procs.get q = some w → ∃ v, s.procs.get q = some v ∧ w.home = v.home
  size   : s.mounts.size ≤ t.mounts.size
  mounts : ∀ m w, m < s.mounts.size → t.mounts.get m = some w → ∃ v, s.mounts.get m = some v ∧ v.Same w
  paths  : PathsOk n s → PathsOk n t

instance {n : ℕ} {o : Option Pid} : IsPreorder State (Steady n o) where
  refl _ := ⟨fun _ w _ hw => ⟨w, hw, rfl⟩, le_rfl, fun _ w _ hw => ⟨w, hw, rfl, rfl, rfl⟩, id⟩
  trans s t u h₁ h₂ := by
    refine ⟨fun q x hq hx => ?_, h₁.size.trans h₂.size, fun m x hm hx => ?_, h₂.paths ∘ h₁.paths⟩
    · obtain ⟨w, hw, hxw⟩ := h₂.procs q x hq hx
      obtain ⟨v, hv, hwv⟩ := h₁.procs q w hq hw
      exact ⟨v, hv, hxw.trans hwv⟩
    · obtain ⟨w, hw, h₁₁, h₁₂, h₁₃⟩ := h₂.mounts m x (hm.trans_le h₁.size) hx
      obtain ⟨v, hv, h₂₁, h₂₂, h₂₃⟩ := h₁.mounts m w hm hw
      exact ⟨v, hv, h₁₁.trans h₂₁, h₁₂.trans h₂₂, h₁₃.trans h₂₃⟩

section Basic

variable {n i : ℕ} {o : Option Pid} {s t : State} {p b r : ℕ}

theorem Steady.weaken (h : Steady n none s t) : Steady n o s t :=
  ⟨fun q w _ hw => h.procs q w (Option.some_ne_none q) hw, h.size, h.mounts, h.paths⟩

theorem Postable.congr {req : VfsReq} (h : Postable n s req) (hs : s.bufs.size ≤ t.bufs.size)
    (hb : ∀ b d, b < s.bufs.size → t.bufs.get b = some d → s.bufs.get b = some d) : Postable n t req := fun b hi =>
  have ⟨hlt, hd⟩ := h b hi
  ⟨hlt.trans_le hs, fun c d hc hn hg => hd c d hc hn (hb b d hlt hg)⟩

theorem steady_of_paths (hp : t.procs = s.procs) (hm : t.mounts = s.mounts) (h : PathsOk n s → PathsOk n t) :
    Steady n o s t where
  procs  := fun _ w _ hw => ⟨w, hp ▸ hw, rfl⟩
  size   := (congrArg Heap.size hm).ge
  mounts := fun _ w _ hw => ⟨w, hm ▸ hw, rfl, rfl, rfl⟩
  paths  := h

-- What is neither on the way of a path nor a mount is of no interest here.
theorem PathsOk.of_eq (h : PathsOk n s) (hb : t.backends = s.backends) (hm : t.mounts = s.mounts)
    (hr : t.reqs = s.reqs) (hf : t.bufs = s.bufs) (hl : t.log = s.log) : PathsOk n t where
  users  := hb ▸ h.users
  size   := hb ▸ h.size
  mounts := hm ▸ h.mounts
  reqs r w hw := (h.reqs r w (hr ▸ hw)).congr (by rw [hf]) fun _ _ _ hd => hf ▸ hd
  given  := hl ▸ h.given

theorem modify_steady {f : State → State} (hp : ∀ s, (f s).procs = s.procs) (hm : ∀ s, (f s).mounts = s.mounts)
    (hb : ∀ s, (f s).backends = s.backends) (hr : ∀ s, (f s).reqs = s.reqs) (hf : ∀ s, (f s).bufs = s.bufs)
    (hl : ∀ s, (f s).log = s.log) : Respects (Steady n o) (modify f : K Unit) :=
  respects_modify fun s => steady_of_paths (hp s) (hm s) fun h => h.of_eq (hb s) (hm s) (hr s) (hf s) (hl s)

theorem steady_emit {e : Event} (he : PathsOk n s → ∀ p room bytes, e = .given p room bytes →
    ∃ d, Delivered d ∧ bytes = d.take room) : Steady n o s (s.withLog (s.log ++ [e])) := by
  refine steady_of_paths rfl rfl fun h => ⟨h.users, h.size, h.mounts, h.reqs, fun p room bytes hg => ?_⟩
  obtain hg | hg := List.mem_append.mp hg
  · exact h.given p room bytes hg
  · exact he h p room bytes (List.mem_singleton.mp hg).symm

@[grind ←]
theorem emit_steady {e : Event} (he : ∀ p room bytes, e ≠ .given p room bytes) :
    Respects (Steady n o) (emit e) := fun _ =>
  wlp_emit.mpr (steady_emit fun _ p room bytes hg => absurd hg (he p room bytes))

theorem steady_setBackend {v w : VfsBackend} (hv : s.backends.get b = some v) (hw : w.isUser → v.isUser) :
    Steady n o s (s.withBackends (s.backends.set b w)) := by
  refine steady_of_paths rfl rfl fun h => ⟨?_, h.size.trans_eq Heap.size_set.symm, h.mounts, h.reqs, h.given⟩
  exact Heap.forall_set hv (fun hu => h.users b v hv (hw hu)) fun c x _ => h.users c x

-- An update of a backend with the rest of the function behind it.
theorem wlp_setBackend_steady {v w : VfsBackend} {x : K α} (hv : s.backends.get b = some v)
    (hw : w.isUser → v.isUser) (hx : Respects (Steady n o) x) :
    wlp (do setBackend b w; x) (fun _ t => Steady n o s t) s := by
  rw [wlp_bind, wlp_setBackend]
  exact wlp_of_respects (steady_setBackend hv hw) hx

theorem getBackend_steady {x : VfsBackend → K α} (h : ∀ s v, s.backends.get b = some v →
    wlp (x v) (fun _ t => Steady n o s t) s) : Respects (Steady n o) (do x (← getBackend b)) := by
  intro s
  rw [wlp_bind, wlp_getBackend]
  exact h s

@[grind ←]
theorem updBackend_steady {f : VfsBackend → VfsBackend} (hf : ∀ v, (f v).isUser → v.isUser) :
    Respects (Steady n o) (updBackend b f) := by
  intro s
  rw [wlp_updBackend]
  exact fun v hv => steady_setBackend hv (hf v)

@[grind ←]
theorem allocBackend_steady {v : VfsBackend} : Respects (Steady n o) (allocBackend v) := by
  intro s
  rw [wlp_allocBackend]
  refine steady_of_paths rfl rfl fun h => ⟨?_, h.size.trans (by simp), h.mounts, h.reqs, h.given⟩
  exact Heap.forall_alloc (fun _ => h.size) fun c x _ => h.users c x

@[grind ←]
theorem freeBackend_steady : Respects (Steady n o) (freeBackend i) := by
  intro s
  rw [wlp_freeBackend]
  intro _ _
  refine steady_of_paths rfl rfl fun h => ⟨?_, h.size.trans_eq Heap.size_free.symm, h.mounts, h.reqs, h.given⟩
  exact Heap.forall_free fun c x _ => h.users c x

@[grind ←]
theorem setHandle_steady {v : Handle} : Respects (Steady n o) (setHandle i v) := by
  apply modify_steady <;> intros <;> rfl

@[grind ←]
theorem updHandle_steady {f : Handle → Handle} : Respects (Steady n o) (updHandle i f) :=
  .bind getHandle_respects fun _ => setHandle_steady

@[grind ←]
theorem allocHandle_steady {v : Handle} : Respects (Steady n o) (allocHandle v) := by
  simp only [allocHandle]
  refine .bind respects_get fun _ => .bind ?_ fun _ => respects_pure
  apply modify_steady <;> intros <;> rfl

theorem kfree_steady {α : Type} {heap : State → Heap α} {put : State → Heap α → State}
    (h : ∀ s h, Steady n o s (put s h)) : Respects (Steady n o) (kfree heap put i) := by
  intro s
  rw [wlp_kfree]
  exact fun _ _ => h s _

@[grind ←]
theorem freeHandle_steady : Respects (Steady n o) (freeHandle i) :=
  .ite respects_throw (kfree_steady fun _ _ => steady_of_paths rfl rfl fun h => h.of_eq rfl rfl rfl rfl rfl)

@[grind ←]
theorem freeTable_steady : Respects (Steady n o) (freeTable i) :=
  kfree_steady fun _ _ => steady_of_paths rfl rfl fun h => h.of_eq rfl rfl rfl rfl rfl

@[grind ←]
theorem freeCount_steady : Respects (Steady n o) (freeCount i) :=
  kfree_steady fun _ _ => steady_of_paths rfl rfl fun h => h.of_eq rfl rfl rfl rfl rfl

@[grind ←]
theorem freePagedir_steady : Respects (Steady n o) (freePagedir i) :=
  kfree_steady fun _ _ => steady_of_paths rfl rfl fun h => h.of_eq rfl rfl rfl rfl rfl

@[grind ←]
theorem setSlot_steady {j : Fin HANDLE_MAX} {h : Option Hid} : Respects (Steady n o) (setSlot i j h) :=
  .bind getTable_respects fun _ => by apply modify_steady <;> intros <;> rfl

@[grind ←]
theorem setCount_steady {c : ℕ} : Respects (Steady n o) (setCount i c) := by
  apply modify_steady <;> intros <;> rfl

theorem steady_setReq {w : VfsReq} (h : PathsOk n s → Postable n s w) :
    Steady n o s (s.withReqs (s.reqs.set r w)) := by
  refine steady_of_paths rfl rfl fun hs => ⟨hs.users, hs.size, hs.mounts, fun q x hx => ?_, hs.given⟩
  rw [State.withReqs_reqs, Heap.get_set_of_size] at hx
  split_ifs at hx
  · exact Option.some_inj.mp hx ▸ h hs
  · exact hs.reqs q x hx

theorem steady_updReq {w x : VfsReq} (hw : s.reqs.get r = some w) (hi : x.input = w.input)
    (hb : x.backend = w.backend) : Steady n o s (s.withReqs (s.reqs.set r x)) :=
  steady_setReq fun hs b hx => by
    obtain ⟨hlt, hd⟩ := hs.reqs r w hw b (hi.symm.trans hx)
    exact ⟨hlt, fun c d hc => hd c d (hb.symm.trans hc)⟩

theorem steady_allocReq {w : VfsReq} (h : PathsOk n s → Postable n s w) :
    Steady n o s (s.withReqs (s.reqs.alloc w)) :=
  steady_of_paths rfl rfl fun hs =>
    ⟨hs.users, hs.size, hs.mounts, Heap.forall_alloc (h hs) fun q x _ => hs.reqs q x, hs.given⟩

@[grind ←]
theorem freeReq_steady : Respects (Steady n o) (freeReq i) := by
  intro s
  rw [wlp_freeReq]
  intro _ _
  exact steady_of_paths rfl rfl fun hs =>
    ⟨hs.users, hs.size, hs.mounts, Heap.forall_free fun q x _ => hs.reqs q x, hs.given⟩

theorem steady_allocBuf {path : List UInt8} : Steady n o s (s.withBufs (s.bufs.alloc path)) := by
  refine steady_of_paths rfl rfl fun hs => ⟨hs.users, hs.size, hs.mounts, fun q x hx => ?_, hs.given⟩
  refine (hs.reqs q x hx).congr (by simp) fun b d hlt hd => ?_
  rwa [State.withBufs_bufs, Heap.get_alloc, if_neg hlt.ne] at hd

@[grind ←]
theorem freeBuf_steady : Respects (Steady n o) (freeBuf i) := by
  intro s
  rw [wlp_freeBuf]
  intro _ _
  refine steady_of_paths rfl rfl fun hs => ⟨hs.users, hs.size, hs.mounts, fun q x hx => ?_, hs.given⟩
  refine (hs.reqs q x hx).congr (by simp) fun b d hlt hd => ?_
  rw [State.withBufs_bufs, Heap.get_free] at hd
  split_ifs at hd
  exact hd

theorem steady_setMount {v w : VfsMount} (hv : s.mounts.get i = some v) (hw : v.Same w) :
    Steady n o s (s.withMounts (s.mounts.set i w)) where
  procs _ x _ hx := ⟨x, hx, rfl⟩
  size := Heap.size_set.ge
  mounts m x _ hx := by
    rw [State.withMounts_mounts, Heap.get_set hv] at hx
    split_ifs at hx with hm
    · exact ⟨v, hm ▸ hv, Option.some_inj.mp hx ▸ hw⟩
    · exact ⟨x, hx, rfl, rfl, rfl⟩
  paths hs := by
    refine ⟨hs.users, hs.size, Heap.forall_set hv ?_ fun m x _ => hs.mounts m x, hs.reqs, hs.given⟩
    obtain ⟨_, hpath, hback⟩ := hw
    rw [hpath, hback]
    exact hs.mounts i v hv

@[grind ←]
theorem freeMount_steady : Respects (Steady n o) (freeMount i) := by
  intro s
  rw [wlp_freeMount]
  intro _ _
  refine ⟨fun _ x _ hx => ⟨x, hx, rfl⟩, Heap.size_free.ge, fun m x _ hx => ?_, fun hs => ?_⟩
  · rw [State.withMounts_mounts, Heap.get_free] at hx
    split_ifs at hx
    exact ⟨x, hx, rfl, rfl, rfl⟩
  · exact ⟨hs.users, hs.size, Heap.forall_free fun m x _ => hs.mounts m x, hs.reqs, hs.given⟩

theorem steady_setProc {v w : Proc} (hv : s.procs.get p = some v) (hw : some p ≠ o → w.home = v.home) :
    Steady n o s (s.withProcs (s.procs.set p w)) where
  procs q x hq hx := by
    rw [State.withProcs_procs, Heap.get_set hv] at hx
    split_ifs at hx with hqp
    · subst hqp
      exact ⟨v, hv, Option.some_inj.mp hx ▸ hw hq⟩
    · exact ⟨x, hx, rfl⟩
  size := le_rfl
  mounts _ x _ hx := ⟨x, hx, rfl, rfl, rfl⟩
  paths hs := hs.of_eq rfl rfl rfl rfl rfl

theorem Steady.setProc {v w : Proc} (h : Steady n o s t) (hv : t.procs.get p = some v) (hw : w.home = v.home) :
    Steady n o s (t.withProcs (t.procs.set p w)) :=
  trans_of (Steady n o) h (steady_setProc hv fun _ => hw)

theorem updProc_steady {f : Proc → Proc} (hf : some p ≠ o → ∀ v, (f v).home = v.home) :
    Respects (Steady n o) (updProc p f) := by
  intro s
  rw [wlp_updProc]
  exact fun v hv => steady_setProc hv fun hp => hf hp v

@[grind ←]
theorem regsSavereturn_steady {ret : Int} : Respects (Steady n o) (regsSavereturn p ret) :=
  updProc_steady fun _ _ => rfl

@[grind ←]
theorem freeProc_steady : Respects (Steady n o) (freeProc i) := by
  intro s
  rw [wlp_freeProc]
  refine fun _ _ => ⟨fun q x _ hx => ?_, le_rfl, fun _ x _ hx => ⟨x, hx, rfl, rfl, rfl⟩,
    fun hs => hs.of_eq rfl rfl rfl rfl rfl⟩
  rw [State.withProcs_procs, Heap.get_free] at hx
  split_ifs at hx
  exact ⟨x, hx, rfl⟩

@[grind ←]
theorem procSetstate_steady {state : PState} : Respects (Steady n o) (procSetstate p state) := by
  intro s
  have hset {v : Proc} (hv : s.procs.get p = some v) :
      Steady n o s (s.withProcs (s.procs.set p { v with state := state })) := steady_setProc hv fun _ => rfl
  cases state
  case running   => exact wlp_procSetstate_running.mpr fun _ hv _ => hset hv
  case dying     => exact wlp_procSetstate_dying.mpr fun _ hv _ => hset hv
  case toreap    => exact wlp_procSetstate_toreap fun _ hv _ _ => hset hv
  case tombstone => exact wlp_procSetstate_tombstone.mpr fun _ hv _ => hset hv
  case deadleaf  => exact wlp_procSetstate_deadleaf.mpr fun _ hv _ => hset hv
  case freed     => exact wlp_procSetstate_freed.mpr fun _ hv _ => hset hv
  all_goals exact (wlp_procSetstate_waiting rfl).mpr fun _ hv _ => hset hv

end Basic

section Request

variable {n : ℕ} {o : Option Pid} {s : State} {env : Env} {finish : Rid → Int → K Unit} {p b r h : ℕ} {ret : Int}

@[grind ←]
theorem procfsCleanup_steady : Respects (Steady n o) (procfsCleanup p) :=
  updProc_steady fun _ _ => by simp only [Proc.home]

-- A process which was found to wait for something is told the result.
theorem wakeReturn_steady {st : PState} {site : Site} : Respects (Steady n o) (do
    kassert ((← getProc p).state = st) site
    regsSavereturn p ret
    procSetstate p .running) := by
  grind

@[grind ←]
theorem vfsBackendUnused_steady : Respects (Steady n o) (vfsBackendUnused b) := by
  refine getBackend_steady fun s v hv => ?_
  cases ha : v.access
  case kern procfs =>
    cases procfs
    case none   => exact respects_pure s
    case some p => exact procfsCleanup_steady s
  case user handler =>
    cases handler
    case none   => exact respects_pure s
    case some p => exact wlp_setBackend_steady hv (fun _ => by rw [VfsBackend.isUser, ha]) wakeReturn_steady

@[grind ←]
theorem vfsBackendTryfree_steady : Respects (Steady n o) (vfsBackendTryfree b) := by
  grind [vfsBackendTryfree]

@[grind ←]
theorem vfsBackendRefdownUse_steady : Respects (Steady n o) (vfsBackendRefdownUse b) := by
  refine getBackend_steady fun s v hv => wlp_bind.mpr (wlp_kassert.mpr fun _ => ?_)
  exact wlp_setBackend_steady hv id (by grind)

@[grind ←]
theorem vfsreqFreeInput_steady {input : VfsInput} : Respects (Steady n o) (vfsreqFreeInput input) := by
  cases input <;> grind [vfsreqFreeInput]

@[grind ←]
theorem vfsreqRefdown_steady {backend : Option Bid} : Respects (Steady n o) (vfsreqRefdown backend) := by
  cases backend <;> grind [vfsreqRefdown]

@[grind ←]
theorem vfsreqReturn_steady {caller : Option Pid} : Respects (Steady n o) (vfsreqReturn r ret caller) := by
  cases caller
  case none   => exact freeReq_steady
  case some p => exact wakeReturn_steady

@[grind ←]
theorem vfsreqRelease_steady : Respects (Steady n o) (vfsreqRelease r ret) := by
  intro s
  simp only [vfsreqRelease, wlp_bind, wlp_getReq, wlp_kassert, wlp_setReq, wlp_emit]
  intro w hw _
  have hset := trans_of (Steady n o) (steady_updReq (x := { w with pending := false }) hw rfl rfl)
    (steady_emit (e := .finished r) fun _ _ _ _ hg => by contradiction)
  refine wlp_post (wlp_of_respects hset vfsreqFreeInput_steady) fun _ _ ht => ?_
  exact wlp_post (wlp_of_respects ht vfsreqRefdown_steady) fun _ _ hu => wlp_of_respects hu vfsreqReturn_steady

@[grind ←]
theorem vfsBackendOrphan_steady {queue : List Rid} : Respects (Steady n o) (vfsBackendOrphan b queue) :=
  .bind (.forM fun _ => vfsreqRelease_steady) fun _ => updBackend_steady fun _ => id

@[grind ←]
theorem vfsBackendRefdownProv_steady : Respects (Steady n o) (vfsBackendRefdownProv b) := by
  refine getBackend_steady fun s v hv => wlp_bind.mpr (wlp_kassert.mpr fun _ => ?_)
  exact wlp_setBackend_steady hv id (by grind)

@[grind ←]
theorem procTable_steady : Respects (Steady n o) (procTable p) := by
  grind [procTable]

@[grind ←]
theorem procHandleGet_steady {hid : Int} : Respects (Steady n o) (procHandleGet p hid) := by
  grind [procHandleGet]

@[grind ←]
theorem procHandleInit_steady {type : HandleType} : Respects (Steady n o) (procHandleInit p type) := by
  grind [procHandleInit, handleInit]

@[grind ←]
theorem procHidTake_steady {hid : Int} : Respects (Steady n o) (procHidTake p hid) := by
  grind [procHidTake]

@[grind ←]
theorem pcpyBi_steady {dstp srcp : Option Pid} {len : ℕ} : Respects (Steady n o) (pcpyBi env dstp srcp len) := by
  cases dstp <;> cases srcp <;> grind [pcpyBi]

@[grind ←]
theorem pipeWake_steady : Respects (Steady n o) (pipeWake p ret) := by
  grind [pipeWake]

@[grind ←]
theorem pipeInvalidateEnd_steady : Respects (Steady n o) (pipeInvalidateEnd h) := by
  grind [pipeInvalidateEnd]

@[grind ←]
theorem pipeTransfer_steady {sister rdr wtr : ℕ} : Respects (Steady n o) (pipeTransfer env h sister rdr wtr) := by
  refine .bind getProc_respects fun v => .bind getProc_respects fun w => .bind kassert_respects fun _ =>
    .bind kassert_respects fun _ => .bind pcpyBi_steady fun _ => .bind updHandle_steady fun _ => ?_
  exact .bind updHandle_steady fun _ => .bind procSetstate_steady fun _ => .bind procSetstate_steady fun _ =>
    .bind regsSavereturn_steady fun _ => regsSavereturn_steady

@[grind ←]
theorem pipeTrytransfer_steady : Respects (Steady n o) (pipeTrytransfer env h) := by
  refine .bind getHandle_respects fun v => .bind kassert_respects fun _ => .bind kassert_respects fun _ => ?_
  cases v.sister
  case none        => exact kassert_respects
  case some sister =>
    refine .bind getHandle_respects fun w => ?_
    cases pipeEnds v w
    dsimp only
    split
    · exact pipeTransfer_steady
    · exact respects_pure

@[grind ←]
theorem pipeCheckQueue_steady {queued : List Pid} : Respects (Steady n o) (pipeCheckQueue queued) := by
  grind [pipeCheckQueue]

@[grind ←]
theorem pipeJoinqueue_steady {len : ℕ} : Respects (Steady n o) (pipeJoinqueue env h p len) := by
  have hwait (since : ℕ) : Respects (Steady n o)
      (updProc p ({ · with waitsPipe := h, waitsLen := len, waitsSince := since })) := updProc_steady fun _ _ => rfl
  refine .bind getHandle_respects fun v => .bind kassert_respects fun _ => .bind kassert_respects fun _ => ?_
  cases v.sister
  case none   => exact regsSavereturn_steady
  case some _ =>
    exact .bind pipeCheckQueue_steady fun _ => .bind procSetstate_steady fun _ => .bind setHandle_steady fun _ =>
      .bind respects_get fun s => .bind (hwait s.log.length) fun _ => .bind (emit_steady nofun) fun _ =>
        pipeTrytransfer_steady

section Accept

variable {v : VfsBackend}

-- A driver which is a process is given the path of the request, as far as its buffer holds it.
theorem userAcceptInput_steady {req : VfsReq} (hreq : s.reqs.get r = some req) (hb : req.backend = some b)
    (hv : s.backends.get b = some v) (hu : v.isUser) :
    wlp (userAcceptInput env req p) (fun _ t => Steady n o s t ∧ t.backends = s.backends) s := by
  refine wlp_userAcceptInput ⟨refl_of (Steady n o) s, rfl⟩ fun buf input room hi hinput => ⟨?_, rfl⟩
  refine steady_emit fun hs q room' bytes he => ?_
  obtain ⟨rfl, rfl, rfl⟩ : p = q ∧ room = room' ∧ input.take room = bytes := by simpa using he
  exact ⟨input, (hs.reqs r req hreq buf hi).2 b input hb (hs.users b v hv hu) hinput, rfl⟩

theorem userAcceptHandle_steady (hv : s.backends.get b = some v) (hu : v.isUser) :
    wlp (userAcceptHandle b r p) (fun _ t => Steady n o s t) s := by
  simp only [userAcceptHandle, wlp_bind]
  refine wlp_procHandleInit.mpr fun _ t table _ _ _ => ?_
  cases procFindFreeHandle table 1
  case none   => exact wlp_throw.mpr trivial
  case some i =>
    simp only [Option.elim_some, wlp_bind, wlp_updHandle, wlp_procSetstate_running, wlp_regsSavereturn, wlp_updBackend]
    intro w _ x hx _ y hy v' hv'
    obtain rfl := Option.some_inj.mp (hv.symm.trans hv')
    have hback {t : State} (ht : Steady n o s t) (heq : t.backends = s.backends) :
        Steady n o s (t.withBackends (t.backends.set b { v with access := .user none })) :=
      trans_of (Steady n o) ht (steady_setBackend (heq ▸ hv) fun _ => hu)
    refine hback (.setProc (.setProc ?_ hx rfl) hy rfl) rfl
    exact steady_of_paths rfl rfl fun h => h.of_eq rfl rfl rfl rfl rfl

@[grind ←]
theorem vfsBackendUserAccept_steady : Respects (Steady n o) (vfsBackendUserAccept env r) := by
  intro s
  rw [vfsBackendUserAccept, wlp_bind, wlp_getReq]
  intro req hreq
  cases hb : req.backend
  case none   => exact respects_throw s
  case some b =>
    simp only [wlp_bind, wlp_getBackend]
    intro v hv
    split
    case h_2 => exact respects_throw s
    case h_1 p ha =>
      have hu : v.isUser := by rw [VfsBackend.isUser, ha]
      simp only [wlp_bind, wlp_getProc, wlp_kassert]
      intro _ _ _
      refine wlp_post (userAcceptInput_steady (n := n) (o := o) hreq hb hv hu) fun _ t ht => ?_
      obtain ⟨ht, hback⟩ := ht
      simp only [wlp_ite, wlp_bind, wlp_throw, implies_true, true_and]
      exact fun _ => wlp_post (userAcceptHandle_steady (hback ▸ hv) hu) fun _ _ hu => trans_of (Steady n o) ht hu

variable (hf : ∀ r ret, Respects (Steady n o) (finish r ret))
include hf

theorem kernAccept_steady : Respects (Steady n o) (kernAccept env finish r) := by
  refine .bind getReq_respects fun req => ?_
  cases env.drv r req
  case none     => apply modify_steady <;> intros <;> rfl
  case some ret => exact hf r ret

theorem vfsBackendTryaccept_steady : Respects (Steady n o) (vfsBackendTryaccept env finish b) := by
  refine getBackend_steady fun s v hv => ?_
  have hset {r : Rid} {queue : List Rid} {x : K Unit} (hx : Respects (Steady n o) x) : wlp (do
      setBackend b { v with queue := queue }
      emit (.accepted b r (← getReq r).message)
      x) (fun _ t => Steady n o s t) s :=
    wlp_setBackend_steady hv id (.bind getReq_respects fun _ => .bind (emit_steady nofun) fun _ => hx)
  split
  case h_1 => exact respects_pure s
  case h_2 => exact respects_pure s
  case h_3 => exact hset vfsBackendUserAccept_steady
  case h_4 => exact hset (kernAccept_steady hf)

omit hf in
theorem vfsreqStore_steady {req : VfsReq} (h : PathsOk n s → Postable n s req) :
    wlp (vfsreqStore req) (fun _ t => Steady n o s t) s := by
  cases hc : req.caller
  case none =>
    simp only [vfsreqStore, hc, wlp_allocReq]
    exact steady_allocReq h
  case some p =>
    simp only [vfsreqStore, hc, wlp_bind]
    refine (wlp_procSetstate_waiting rfl).mpr fun v hv _ => wlp_getProc.mpr fun w hw => ?_
    -- The request is stored after the state of the caller was set.
    have hset : Steady n o s (s.withProcs (s.procs.set p { v with state := .waits4fs })) :=
      steady_setProc hv fun _ => rfl
    have hpaths (ht : PathsOk n (s.withProcs (s.procs.set p { v with state := .waits4fs }))) :
        Postable n (s.withProcs (s.procs.set p { v with state := .waits4fs })) req :=
      (h (ht.of_eq rfl rfl rfl rfl rfl)).congr le_rfl fun _ _ _ => id
    cases w.reqslot
    case none =>
      simp only [wlp_bind, wlp_allocReq, wlp_updProc, wlp_pure]
      intro x hx
      exact .setProc (trans_of (Steady n o) hset (steady_allocReq hpaths)) hx rfl
    case some r =>
      simp only [wlp_bind, wlp_discard, wlp_getReq, wlp_setReq, wlp_pure]
      exact fun _ _ => trans_of (Steady n o) hset (steady_setReq hpaths)

omit hf in
@[grind ←]
theorem vfsreqUse_steady {backend : Option Bid} : Respects (Steady n o) (vfsreqUse backend) := by
  cases backend
  case none   => exact respects_pure
  case some b =>
    refine getBackend_steady fun s v hv => wlp_bind.mpr (wlp_kassert.mpr fun _ => ?_)
    exact wlp_setBackend.mpr (steady_setBackend hv id)

theorem vfsreqEnqueue_steady {backend : Option Bid} :
    Respects (Steady n o) (vfsreqEnqueue env finish r backend) := by
  cases backend
  case none   => exact hf r _
  case some b =>
    refine getBackend_steady fun s v hv => wlp_ite.mpr ⟨fun _ => ?_, fun _ => hf r _ s⟩
    exact wlp_setBackend_steady hv id (.bind getReq_respects fun _ => .bind (emit_steady nofun) fun _ =>
      vfsBackendTryaccept_steady hf)

theorem vfsreqCreate_paths {req : VfsReq} (h : PathsOk n s → Postable n s req) :
    wlp (vfsreqCreate env finish req) (fun _ t => Steady n o s t) s := by
  simp only [vfsreqCreate, wlp_bind]
  refine wlp_post (vfsreqStore_steady (o := o) h) fun r t ht => ?_
  have hend : Respects (Steady n o) (do
      emit (.created r req.message)
      vfsreqUse req.backend
      if req.type = .OPEN ∧ openInvalid req.flags then
        finish r (-EINVAL)
      else
        vfsreqEnqueue env finish r req.backend) :=
    .bind (emit_steady nofun) fun _ => .bind vfsreqUse_steady fun _ => .ite (hf r _) (vfsreqEnqueue_steady hf)
  simpa only [wlp_bind] using wlp_of_respects ht hend

-- A request without a path.
theorem vfsreqCreate_steady {req : VfsReq} (h : ∀ b, req.input ≠ .kern b) :
    Respects (Steady n o) (vfsreqCreate env finish req) :=
  fun _ => vfsreqCreate_paths hf fun _ b hb => absurd hb (h b)

theorem handleCloseType_steady {v : Handle} : Respects (Steady n o) (handleCloseType env finish h v) := by
  simp only [handleCloseType]
  cases v.type
  case file  => exact vfsreqCreate_steady hf (by simp)
  case pipe  => cases v.sister <;> grind
  case fsReq =>
    cases v.req
    case none   => exact respects_pure
    case some r => exact hf r _
  all_goals exact respects_pure

theorem handleClose_steady : Respects (Steady n o) (handleClose env finish h) := by
  have htype {v : Handle} : Respects (Steady n o) (handleCloseType env finish h v) := handleCloseType_steady hf
  grind [handleClose]

theorem procHandlePut_steady : Respects (Steady n o) (procHandlePut env finish p h) := by
  have hclose : Respects (Steady n o) (handleClose env finish h) := handleClose_steady hf
  grind [procHandlePut]

end Accept

section Finish

@[grind ←]
theorem vfsreqFinishFile_steady {req : VfsReq} {stored : ℕ} :
    Respects (Steady n o) (vfsreqFinishFile req stored) := by
  refine .bind nonNull_respects fun b => .bind allocHandle_steady fun h => ?_
  exact .bind (updBackend_steady fun _ => id) fun _ => .bind (emit_steady nofun) fun _ => respects_pure

@[grind ←]
theorem vfsreqFinishHandle_steady {req : VfsReq} {stored : ℕ} {flags : Flags} {handler : Option Pid} :
    Respects (Steady n o) (vfsreqFinishHandle req stored ret flags handler) := by
  cases handler <;> grind [vfsreqFinishHandle]

theorem vfsreqFinishPut_steady (hf : ∀ r ret, Respects (Steady n o) (finish r ret)) {caller : Option Pid}
    {x : Option Hid} : Respects (Steady n o) (vfsreqFinishPut env finish caller x) := by
  have hput {p h : ℕ} : Respects (Steady n o) (procHandlePut env finish p h) := procHandlePut_steady hf
  cases x <;> cases caller <;> grind [vfsreqFinishPut]

theorem vfsreqFinish_steady {depth stored : ℕ} {flags : Flags} {handler : Option Pid} :
    Respects (Steady n o) (vfsreqFinish env depth r stored ret flags handler) := by
  induction depth generalizing r stored ret flags handler
  case zero => exact respects_throw
  case succ depth hi =>
    refine .bind getReq_respects fun req => .ite (.bind ?_ fun _ => vfsreqRelease_steady) vfsreqRelease_steady
    exact .bind getReq_respects fun _ => .bind vfsreqFinishHandle_steady fun _ =>
      vfsreqFinishPut_steady fun _ _ => hi

theorem vfsreqFinishShort_steady (r : Rid) (ret : Int) : Respects (Steady n o) (vfsreqFinishShort env r ret) :=
  vfsreqFinish_steady

end Finish
end Request

section Life

variable {n : ℕ} {o : Option Pid} {s : State} {env : Env} {p b h : ℕ}

@[grind ←]
theorem handleCloseSlot_steady {x : Option Hid} : Respects (Steady n o) (handleCloseSlot env x) := by
  cases x
  case none   => exact respects_pure
  case some h => exact handleClose_steady vfsreqFinishShort_steady

@[grind ←]
theorem handleRef_steady {x : Option Hid} : Respects (Steady n o) (handleRef x) := by
  cases x <;> grind [handleRef]

@[grind ←]
theorem procHandleSet_steady {i : Fin HANDLE_MAX} {x : Option Hid} :
    Respects (Steady n o) (procHandleSet env p i x) := by
  grind [procHandleSet]

@[grind ←]
theorem procHandleDupSlot_steady {dst : Int} {flags : Flags} :
    Respects (Steady n o) (procHandleDupSlot p dst flags) := by
  simp only [procHandleDupSlot]
  grind

@[grind ←]
theorem procHandleDup_steady {src dst : Int} {flags : Flags} :
    Respects (Steady n o) (procHandleDup env p src dst flags) := by
  refine .bind procHandleDupSlot_steady fun x => ?_
  cases x <;> grind

@[grind ←]
theorem procHandleClose_steady {hid : Int} : Respects (Steady n o) (procHandleClose env p hid) := by
  grind [procHandleClose]

@[grind ←]
theorem bufFree_steady {x : Option ℕ} : Respects (Steady n o) (bufFree x) := by
  cases x <;> grind [bufFree]

@[grind ←]
theorem vfsMountRemref_steady {fuel m : ℕ} : Respects (Steady n o) (vfsMountRemref fuel m) := by
  induction fuel generalizing m
  case zero => exact respects_throw
  case succ fuel hi =>
    intro s
    simp only [vfsMountRemref, wlp_bind, wlp_getMount, wlp_kassert, wlp_setMount]
    refine fun v hv _ => wlp_of_respects (steady_setMount hv ⟨rfl, rfl, rfl⟩) ?_
    refine .ite (.bind vfsreqRefdown_steady fun _ => .bind bufFree_steady fun _ =>
      .bind freeMount_steady fun _ => ?_) respects_pure
    cases v.prev
    case none   => exact respects_pure
    case some _ => exact hi

@[grind ←]
theorem procKillHandler_steady : Respects (Steady n o) (procKillHandler p b) := by
  refine getBackend_steady fun s v hv => wlp_bind.mpr (wlp_kassert.mpr fun _ => wlp_ite.mpr ⟨fun ha => ?_, fun _ => ?_⟩)
  · simp only [wlp_bind, wlp_getProc, wlp_kassert, wlp_setBackend]
    exact fun _ _ _ => steady_setBackend hv fun _ => by rw [VfsBackend.isUser, ha]
  · exact respects_pure s

@[grind ←]
theorem procKillControlled_steady : Respects (Steady n o) (procKillControlled p) := by
  refine .bind getProc_respects fun v => ?_
  cases v.controlled
  case none   => exact respects_pure
  case some b =>
    exact .bind procKillHandler_steady fun _ => .bind vfsBackendRefdownProv_steady fun _ => updProc_steady fun _ _ => rfl

@[grind ←]
theorem procKillReqslot_steady : Respects (Steady n o) (procKillReqslot p) := by
  refine .bind getProc_respects fun v => ?_
  cases v.reqslot
  case none   => exact .ite respects_throw respects_pure
  case some r =>
    refine .ite (fun s => ?_) freeReq_steady
    simp only [wlp_bind, wlp_getReq, wlp_setReq]
    exact fun w hw => wlp_of_respects (steady_updReq hw rfl rfl) (updProc_steady fun _ _ => rfl)

@[grind ←]
theorem procKillPipe_steady : Respects (Steady n o) (procKillPipe p) := by
  grind [procKillPipe]

theorem setScheduled_steady {f : State → List Pid} :
    Respects (Steady n o) (modify fun s => { s with scheduled := f s } : K Unit) := by
  apply modify_steady <;> intros <;> rfl

theorem setDeadLeaves_steady {f : State → List Pid} :
    Respects (Steady n o) (modify fun s => { s with deadLeaves := f s } : K Unit) := by
  apply modify_steady <;> intros <;> rfl

@[grind ←]
theorem timerDeschedule_steady : Respects (Steady n o) (timerDeschedule p) :=
  .bind getProc_respects fun _ => .bind kassert_respects fun _ => .bind respects_get fun _ =>
    .bind kassert_respects fun _ => .bind setScheduled_steady fun _ => procSetstate_steady

@[grind ←]
theorem procKillTimer_steady : Respects (Steady n o) (procKillTimer p) := by
  grind [procKillTimer]

@[grind ←]
theorem procTryintr_steady : Respects (Steady n o) (procTryintr p) := by
  grind [procTryintr]

@[grind ←]
theorem hpetIrq_steady {counter : ℕ} : Respects (Steady n o) (hpetIrq counter) := by
  refine .bind respects_get fun s => ?_
  cases s.scheduled
  case nil => exact respects_pure
  case cons p rest =>
    exact .bind getProc_respects fun _ => .ite (.bind setScheduled_steady fun _ => procSetstate_steady) respects_pure

@[grind ←]
theorem timerInsert_steady {goal : ℕ} {l : List Pid} : Respects (Steady n o) (timerInsert p goal l) := by
  induction l
  case nil            => exact respects_pure
  case cons q l hi =>
    exact .bind getProc_respects fun _ => .ite (.bind kassert_respects fun _ => .bind hi fun _ => respects_pure)
      respects_pure

@[grind ←]
theorem timerSchedule_steady {goal : ℕ} : Respects (Steady n o) (timerSchedule p goal) :=
  .bind procSetstate_steady fun _ => .bind (updProc_steady fun _ _ => rfl) fun _ => .bind respects_get fun _ =>
    .bind timerInsert_steady fun _ => setScheduled_steady

end Life

section Reap

variable {n : ℕ} {o : Option Pid} {s : State} {env : Env} {p dead parent proc old it : ℕ} {v : Proc}

theorem steady_of_readonly {x : K α} (hx : Respects Eq x) : Respects (Steady n o) x :=
  fun s => wlp_of_readonly hx fun _ => refl_of (Steady n o) s

theorem procTryreapToreap_steady : Respects (Steady n o) (procTryreapToreap dead) := by
  have hbury : Respects (Steady n o) (do procTryreapBury dead; pure true) :=
    .bind (.bind procSetstate_steady fun _ => updProc_steady fun _ _ => rfl) fun _ => respects_pure
  have hparent {q : Pid} : Respects (Steady n o) (procTryreapParent dead q) := by
    refine .bind getProc_respects fun w => .ite respects_pure (.bind (steady_of_readonly procNsId_readonly) fun pid => ?_)
    exact .ite respects_pure (.bind regsSavereturn_steady fun _ => .bind getProc_respects fun _ =>
      .bind (emit_steady nofun) fun _ => .bind procSetstate_steady fun _ => respects_pure)
  refine .bind getProc_respects fun v => .bind ?_ fun x => ?_
  · simp only [procReapable]
    cases v.parent
    case none   => exact respects_pure
    case some q => exact .bind getProc_respects fun _ => respects_pure
  · cases x
    case none   => exact hbury
    case some q => exact .bind hparent fun _ => .ite hbury respects_pure

theorem procTryreapTombstone_steady : Respects (Steady n o) (procTryreapTombstone dead) := by
  have hleaf {v : Proc} : Respects (Steady n o) (procTryreapLeaf dead v) :=
    .bind kassert_respects fun _ => .ite (.bind procSetstate_steady fun _ => setDeadLeaves_steady) kassert_respects
  refine .bind getProc_respects fun v => ?_
  split
  · exact .bind kassert_respects fun _ => steady_of_readonly procTryreapCheck_readonly
  · exact respects_pure
  · exact hleaf

@[grind ←]
theorem procTryreap_steady : Respects (Steady n o) (procTryreap dead) := by
  refine .bind getProc_respects fun v => .bind (.bind kassert_respects fun _ => ?_) fun _ =>
    .ite (.bind procTryreapToreap_steady fun _ => .ite procTryreapTombstone_steady respects_pure) procTryreapTombstone_steady
  cases v.parent
  case none   => exact respects_pure
  case some _ => exact .bind getProc_respects fun _ => kassert_respects

theorem procUnlinkLoop_steady {next : Option Pid} {fuel : ℕ} {prev : Pid} :
    Respects (Steady n o) (procUnlinkLoop p next fuel prev) := by
  induction fuel generalizing prev
  case zero => exact respects_throw
  case succ fuel hi =>
    refine .bind getProc_respects fun v => ?_
    cases v.sibling
    case none   => exact respects_throw
    case some _ => exact .ite (updProc_steady fun _ _ => rfl) hi

theorem procUnlink_steady {next : Option Pid} {first : Pid} :
    Respects (Steady n o) (procUnlink p next parent first) :=
  .ite (updProc_steady fun _ _ => rfl) (.bind respects_get fun _ => procUnlinkLoop_steady)

theorem procPruneLeaf_steady {leaves : List Pid} : Respects (Steady n o) (procPruneLeaf p leaves) := by
  refine .bind getProc_respects fun v => .bind setDeadLeaves_steady fun _ => .bind kassert_respects fun _ => ?_
  cases v.parent
  case none        => exact respects_throw
  case some parent =>
    refine .bind getProc_respects fun w => ?_
    cases w.child
    case none       => exact respects_throw
    case some first =>
      exact .bind kassert_respects fun _ => .bind procUnlink_steady fun _ => .bind procSetstate_steady fun _ =>
        .bind freeProc_steady fun _ => .bind getProc_respects fun _ => .ite procTryreap_steady respects_pure

theorem procPruneLeavesLoop_steady {fuel : ℕ} : Respects (Steady n o) (procPruneLeavesLoop fuel) := by
  induction fuel
  case zero => exact .bind respects_get fun s => .ite respects_throw respects_pure
  case succ fuel hi =>
    refine .bind respects_get fun s => ?_
    cases s.deadLeaves
    case nil  => exact respects_pure
    case cons => exact .bind procPruneLeaf_steady fun _ => hi

theorem procPruneLeaves_steady : Respects (Steady n o) procPruneLeaves :=
  .bind respects_get fun _ => procPruneLeavesLoop_steady

theorem procKillChildren_steady {fuel : ℕ} {x : Option Pid} :
    Respects (Steady n o) (procKillChildren fuel x) := by
  induction fuel generalizing x
  case zero =>
    cases x
    case none   => exact respects_pure
    case some _ => exact respects_throw
  case succ fuel hi =>
    cases x
    case none    => exact respects_pure
    case some it =>
      exact .bind getProc_respects fun _ => .ite (.bind procTryreap_steady fun _ => hi) hi

theorem sysWait2Loop_steady {fuel : ℕ} {x : Option Pid} : Respects (Steady n o) (sysWait2Loop fuel x) := by
  induction fuel generalizing x
  case zero =>
    cases x
    case none   => exact respects_pure
    case some _ => exact respects_throw
  case succ fuel hi =>
    have hrest {it : Pid} : Respects (Steady n o) (do
        let _ ← sysWait2Loop fuel (← getProc it).sibling
        pure true) :=
      .bind getProc_respects fun _ => .bind hi fun _ => respects_pure
    cases x
    case none    => exact respects_pure
    case some it =>
      exact .bind getProc_respects fun _ => .ite hi (.ite (.bind procTryreap_steady fun _ => hrest) hrest)

theorem procNsCreateLoop_steady {fuel : ℕ} {x : Option Pid} :
    Respects (Steady n o) (procNsCreateLoop proc old fuel x) := by
  have hvisit {it : Pid} : Respects (Steady n o) (procNsCreateVisit proc old it) := by
    refine .ite (.bind ?_ fun _ => ?_) respects_pure
    · exact .bind getProc_respects fun _ => .bind getProc_respects fun _ => .ite (updProc_steady fun _ _ => rfl) respects_pure
    · exact .bind getProc_respects fun _ => .ite (updProc_steady fun _ _ => rfl) kassert_respects
  induction fuel generalizing x
  case zero =>
    cases x
    case none   => exact respects_pure
    case some _ => exact respects_throw
  case succ fuel hi =>
    cases x
    case none   => exact respects_pure
    case some _ => exact .bind hvisit fun _ => .bind (steady_of_readonly procNsCreateNext_readonly) fun _ => hi

theorem procNsCreate_steady : Respects (Steady n o) (procNsCreate proc) := by
  refine .bind getProc_respects fun v => .ite (.bind ?_ fun _ => .bind respects_get fun _ =>
    procNsCreateLoop_steady) respects_pure
  exact .bind (updProc_steady fun _ _ => rfl) fun _ => updProc_steady fun _ _ => rfl

end Reap

section Kill

variable {n : ℕ} {o : Option Pid} {s : State} {env : Env} {p : ℕ} {ret : Int}

theorem unref_steady {c : Option Cid} : Respects (Steady n o) (unref c) := by
  cases c <;> grind [unref]

theorem procKillHandles_steady : Respects (Steady n o) (procKillHandles env p) := by
  have htable : Respects (Steady n o) (procKillTable env p) :=
    .bind (.forM fun _ => procHandleClose_steady) fun _ => .bind procTable_steady fun _ => freeTable_steady
  exact .bind getProc_respects fun _ => .bind unref_steady fun _ =>
    .ite (.bind htable fun _ => updProc_steady fun _ _ => rfl) (updProc_steady fun _ _ => rfl)

-- Only the process which is killed loses its mounts.
theorem procKillMount_steady : Respects (Steady n (some p)) (procKillMount p) := by
  refine .bind getProc_respects fun v => ?_
  cases v.mount
  case none   => exact respects_throw
  case some m =>
    exact .bind respects_get fun _ => .bind vfsMountRemref_steady fun _ => updProc_steady fun hp => absurd rfl hp

theorem procKillPages_steady : Respects (Steady n (some p)) (procKillPages p) :=
  .bind getProc_respects fun _ => .bind unref_steady fun _ => .ite (.bind nonNull_respects fun _ =>
    .bind freePagedir_steady fun _ => updProc_steady fun hp => absurd rfl hp) (updProc_steady fun hp => absurd rfl hp)

theorem procKillAlive_steady : Respects (Steady n (some p)) (procKillAlive env p ret) :=
  .bind procKillControlled_steady fun _ => .bind procKillReqslot_steady fun _ => .bind procKillPipe_steady fun _ =>
    .bind procKillTimer_steady fun _ => .bind procKillHandles_steady fun _ => .bind procKillMount_steady fun _ =>
    .bind procSetstate_steady fun _ => .bind (updProc_steady fun _ _ => rfl) fun _ => .bind respects_get fun _ =>
    .bind getProc_respects fun _ => .bind procKillChildren_steady fun _ => procKillPages_steady

theorem procKill_steady : Respects (Steady n (some p)) (procKill env p ret) := by
  have hdying : Respects (Steady n (some p)) (procKillDying p) := by
    refine .bind getProc_respects fun v => .ite ?_ respects_pure
    cases v.parent
    case none   => exact procSetstate_steady
    case some q => exact .bind getProc_respects fun _ => .ite procSetstate_steady procSetstate_steady
  have hfirst : Respects (Steady n (some p)) (procKillFirst p) :=
    .bind procPruneLeaves_steady fun _ => .bind getProc_respects fun _ => .ite (.bind respects_throw fun _ => respects_throw) respects_throw
  have hend : Respects (Steady n (some p)) (do
      procKillDying p
      if p = (← get).first then
        procKillFirst p
      else
        procTryreap p) :=
    .bind hdying fun _ => .bind respects_get fun _ => .ite hfirst procTryreap_steady
  exact .bind getProc_respects fun _ => .ite (.bind procKillAlive_steady fun _ => hend) hend

end Kill

end Camellia
