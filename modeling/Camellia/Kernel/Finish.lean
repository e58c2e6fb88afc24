import Camellia.Kernel.Close

namespace Camellia

-- What it takes to finish a request.

section Open

variable {s t : State} {r : Rid} {p : Pid} {w : VfsReq} {env : Env} {finish : Rid → Int → K Unit}
variable {stored : ℕ} {ret : Int} {flags : Flags} {handler : Option Pid}

-- The handle of a file which was opened.
theorem vfsreqFinishFile_did (hs : Ok s) (hr : s.reqs.get r = some w) (hpend : w.pending) (ho : w.type = .OPEN) :
    wlp (vfsreqFinishFile w stored) (fun h t => Did s (one (.handle h)) t ∧ t.reqs = s.reqs) s := by
  simp only [vfsreqFinishFile, wlp_bind, wlp_nonNull, wlp_allocHandle, wlp_updBackend, wlp_emit]
  intro b hb v hv
  let x : Handle := { type := .file, backend := some b, fileId := stored, readable := openReadable w.flags,
                      writeable := openWriteable w.flags }
  let H := s.handles.alloc x
  let B := s.backends.set b { v with usehcnt := v.usehcnt + 1 }
  refine wlp_pure.mpr ⟨?_, rfl⟩
  change Did s _ (((s.withHandles H).withBackends B).withLog (s.log ++ [.opened s.handles.size b stored]))
  have hv : s.backends.get b = some v := hv
  have hneat : Neat s (s.withBackends B) := neat_setBackend hv (fun h => absurd h.1 (Nat.succ_ne_zero _)) id
  refine ⟨?_, ?_, ?_, hneat.trans (neat_of_eq rfl rfl rfl)⟩
  · have hhandles : Kept s (s.withHandles H) := kept_allocHandle Nat.one_ne_zero
    have hback : Kept (s.withHandles H) ((s.withHandles H).withBackends B) := kept_setBackend hv ⟨rfl, rfl, .inl rfl⟩
    exact (hhandles.trans hback).trans kept_emit
  · have hhandles : Ok (s.withHandles H) := by
      refine ok_allocHandle hs rfl rfl rfl fun c _ hw hc => ?_
      obtain rfl := Option.some_inj.mp hc
      exact ⟨r, w.message, (hs.reqs.req r w hr).created hpend, ho, hw, hb⟩
    have hback : Ok ((s.withHandles H).withBackends B) := by
      refine ok_setBackend hhandles hv (fun h => ⟨h, rfl⟩) (List.Subset.refl _) (hs.reqs.excl b v hv) fun h => ?_
      exact absurd h (Nat.succ_ne_zero _)
    refine ok_emit_opened hback Heap.get_alloc_self ⟨rfl, rfl, rfl⟩ ?_ fun c q m he horigin => ?_
    · rw [State.withBackends_backends, Heap.size_set]
      exact Heap.lt_size hv
    · exact absurd ((hs.files.enqueued c q m he).2.2.1 _ horigin) (lt_irrefl _)
  · have huser : ({ v with usehcnt := v.usehcnt + 1 } : VfsBackend).isUser = v.isUser := rfl
    have hback : ((s.withHandles H).withBackends B).balance = (s.withHandles H).balance + _ := balance_setBackend hv
    refine balance_emit.trans ?_
    rw [hback, balance_allocHandle, VfsBackend.weight, VfsBackend.weight, huser, succ_nsmul]
    simp only [Handle.weight, Event.weight, x, optRef_some, optRef_none, List.map_nil, List.sum_nil, one_nsmul]
    abel

-- A handle which is taken out of its slot, unless it is the static one.
theorem procHidTake_did {hid : Int} (hs : Ok s) :
    wlp (procHidTake p hid) (fun o t => (∃ k : ℤ, Did s (optRef .handle o - k • one (.handle nullfs)) t) ∧
      t.reqs = s.reqs) s := by
  rw [procHidTake]
  cases hslot : slotOf hid
  case none =>
    simp only [procHandleGet, hslot, wlp_ite, wlp_pure]
    refine ⟨fun _ => ⟨⟨1, ?_⟩, trivial⟩, fun _ => ⟨⟨0, ?_⟩, trivial⟩⟩
    · exact (Did.refl hs).congr (by rw [optRef_some, one_zsmul, sub_self])
    · exact (Did.refl hs).congr (by rw [optRef_none, zero_zsmul, sub_self])
  case some i =>
    simp only [procTable, wlp_bind, wlp_getProc, wlp_nonNull, wlp_getTable, wlp_setSlot]
    intro v _ t _ table htable table' htable'
    obtain rfl := Option.some_inj.mp (htable.symm.trans htable')
    refine wlp_pure.mpr ⟨⟨0, kept_setTable htable (.inl fun j => ?_), ok_withTables hs, ?_, neat_of_eq rfl rfl rfl⟩, rfl⟩
    · by_cases hj : j = i
      case pos => rw [hj, Function.update_self]; exact .inr rfl
      case neg => rw [Function.update_of_ne hj]; exact .inl rfl
    · rw [balance_setSlot htable, optRef_none, zero_zsmul]

theorem vfsreqFinishHandle_did (hs : Ok s) (hr : s.reqs.get r = some w) (hpend : w.pending) (ho : w.type = .OPEN) :
    wlp (vfsreqFinishHandle w stored ret flags handler)
      (fun o t => (∃ k : ℤ, Did s (optRef .handle o - k • one (.handle nullfs)) t ∧
        (¬flags.has FSR_DELEGATE → k = 0)) ∧ t.reqs = s.reqs) s := by
  refine wlp_ite.mpr ⟨fun hflag => ?_, fun hflag => ?_⟩
  · rw [wlp_bind]
    refine wlp_post (vfsreqFinishFile_did hs hr hpend ho) fun h t hx => wlp_pure.mpr ?_
    obtain ⟨ht, hreqs⟩ := hx
    refine ⟨⟨0, ht.congr ?_, fun _ => rfl⟩, hreqs⟩
    rw [optRef_some, zero_zsmul, sub_zero]
  · cases handler
    case none   => exact wlp_throw.mpr trivial
    case some q =>
      refine wlp_post (procHidTake_did hs) fun _ _ hx => ?_
      obtain ⟨⟨k, ht⟩, hreqs⟩ := hx
      exact ⟨⟨k, ht, fun hn => absurd (not_not.mp hflag) hn⟩, hreqs⟩

theorem vfsreqFinishPut_did {caller : Option Pid} {o : Option Hid} (hf : Finishes finish) (hs : Sane s)
    (hp : ∀ p, caller = some p → s.Served p) :
    wlp (vfsreqFinishPut env finish caller o) (fun _ t => Did s (-optRef .handle o) t) s := by
  cases o
  case none   => exact wlp_pure.mpr ((Did.refl hs.ok).congr neg_zero.symm)
  case some h =>
    cases caller
    case none   => exact wlp_throw.mpr trivial
    case some p =>
      rw [vfsreqFinishPut, wlp_bind]
      exact wlp_post (procHandlePut_did hf hs (hp p rfl)) fun _ _ ht => wlp_pure.mpr ht

theorem vfsreqFinishOpen_did (hf : Finishes finish) (hs : Sane s) (hr : s.reqs.get r = some w) (hpend : w.pending)
    (ho : w.type = .OPEN) :
    wlp (vfsreqFinishOpen env finish r stored ret flags handler)
      (fun _ t => ∃ k : ℤ, Did s (-(k • one (.handle nullfs))) t ∧ (¬flags.has FSR_DELEGATE → k = 0)) s := by
  simp only [vfsreqFinishOpen, wlp_bind, wlp_getReq]
  intro w' hr'
  obtain rfl := Option.some_inj.mp (hr.symm.trans hr')
  refine wlp_post (vfsreqFinishHandle_did hs.ok hr hpend ho) fun o t hx => ?_
  obtain ⟨⟨k, ht, hk⟩, hreqs⟩ := hx
  have hsane : Sane t := ht.sane hs fun x hx => by
    rw [Pi.sub_apply, Pi.smul_apply, optRef_firm (fun _ => rfl) hx, one_firm rfl hx, zsmul_zero, sub_zero]
  have hserved (p : Pid) (hp : w.caller = some p) : t.Served p := .inr ⟨r, w, hreqs ▸ hr, hpend, hp⟩
  refine wlp_post (vfsreqFinishPut_did hf hsane hserved) fun _ u hu => ⟨k, (ht.trans hu).congr ?_, hk⟩
  abel

end Open

section Finish

variable {s t : State} {r : Rid} {w : VfsReq} {env : Env} {ret : Int}

-- An open request cannot be finished twice, since it owns its path.
theorem vfsreqRelease_dead {Q : Unit → State → Prop} (hs : Ok s) (hn : ¬s.Pending r)
    (ho : ∀ w, s.reqs.get r = some w → w.type = .OPEN) : wlp (vfsreqRelease r ret) Q s := by
  simp only [vfsreqRelease, wlp_bind, wlp_getReq, wlp_kassert, wlp_setReq, wlp_emit]
  intro w hr _
  have hok := hs.reqs.req r w hr
  have hpend : w.pending = false := by
    by_contra hp
    exact hn ⟨w, hr, eq_true_of_ne_false hp⟩
  cases hi : w.input
  case user buf len => exact absurd (by rw [hi]; rfl) (hok.opens (ho w hr))
  case kern n =>
    have hfree : s.bufs.get n = none := (hok.buf n (by rw [hi]; rfl)).2 hpend
    simp only [vfsreqFreeInput, wlp_freeBuf, State.withLog_bufs, State.withReqs_bufs, hfree]
    exact fun _ h => by contradiction

theorem vfsreqFinish_did {depth : ℕ} {stored : ℕ} {flags : Flags} {handler : Option Pid} (hs : Sane s)
    (hr : s.Pending r) :
    wlp (vfsreqFinish env depth r stored ret flags handler)
      (fun _ t => ∃ k : ℤ, Did s (-one (.place r) - k • one (.handle nullfs)) t ∧ (¬flags.has FSR_DELEGATE → k = 0))
      s := by
  induction depth generalizing s r stored ret flags handler
  case zero => exact wlp_throw.mpr trivial
  case succ depth hi =>
    have hf : Finishes fun r ret => vfsreqFinish env depth r (toPtr ret) ret 0 none := fun s r ret hs hr => by
      refine wlp_post (hi hs hr) fun _ t hx => ?_
      obtain ⟨k, ht, hk⟩ := hx
      exact ht.congr (by rw [hk (by decide), zero_zsmul, sub_zero])
    obtain ⟨w, hget, hpend⟩ := hr
    simp only [vfsreqFinish, wlp_bind, wlp_getReq]
    intro w' hget'
    obtain rfl := Option.some_inj.mp (hget.symm.trans hget')
    refine wlp_ite.mpr ⟨fun hopen => ?_, fun _ => ?_⟩
    case refine_2 =>
      refine wlp_post (vfsreqRelease_did hs.ok hs.waits ⟨w, hget, hpend⟩) fun _ t ht => ⟨0, ht.congr ?_, fun _ => rfl⟩
      rw [zero_zsmul, sub_zero]
    case refine_1 =>
      rw [wlp_bind]
      refine wlp_post (vfsreqFinishOpen_did hf hs hget hpend hopen.1) fun ret t hx => ?_
      obtain ⟨k, ht, hk⟩ := hx
      have hsane : Sane t := ht.sane hs fun x hx => by
        rw [Pi.neg_apply, Pi.smul_apply, one_firm rfl hx, zsmul_zero, neg_zero]
      by_cases hr : t.Pending r
      case pos =>
        refine wlp_post (vfsreqRelease_did hsane.ok hsane.waits hr) fun _ u hu => ⟨k, (ht.trans hu).congr ?_, hk⟩
        abel
      case neg =>
        refine vfsreqRelease_dead hsane.ok hr fun x hx => ?_
        obtain ⟨y, hy, hk⟩ := ht.kept.reqs.get r (Heap.lt_size hget) x hx
        obtain rfl := Option.some_inj.mp (hget.symm.trans hy)
        rw [hk.eq]
        exact hopen.1

theorem vfsreqFinishShort_finishes : Finishes (vfsreqFinishShort env) := fun _ _ _ hs hr => by
  refine wlp_post (vfsreqFinish_did hs hr) fun _ _ hx => ?_
  obtain ⟨_, ht, hk⟩ := hx
  exact ht.congr (by rw [hk (by decide), zero_zsmul, sub_zero])

end Finish
end Camellia
