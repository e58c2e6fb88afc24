import Camellia.Kernel.Accept

namespace Camellia

-- What it takes to close a handle.

def pipes (h : Hid) (l : List Pid) : Balance :=
  (l.map fun p => one (.pipe p h)).sum

@[simp]
theorem pipes_nil {h : Hid} : pipes h [] = 0 :=
  rfl

@[simp]
theorem pipes_cons {h : Hid} {p : Pid} {l : List Pid} : pipes h (p :: l) = one (.pipe p h) + pipes h l :=
  List.sum_cons

section Queue

variable {s : State} {h g : Hid} {p : Pid} {v w : Handle} {ret : Int}

-- Whoever leaves a queue does not change the order of the others.
theorem Ok.pipes_queue {q : List Pid} (hs : Ok s) (hv : s.handles.get h = some v) (hq : q.Sublist v.queued) :
    ∀ g x, (s.handles.set h { v with queued := q }).get g = some x →
      PipeEnd (s.withHandles (s.handles.set h { v with queued := q })) g x := by
  have hempty (hn : v.queued = []) : q = [] := List.sublist_nil.mp (hn ▸ hq)
  -- The other end of a pipe, whichever of the two ends has changed.
  have hend {g : Hid} {x y : Handle} (hp : PipeEnd s g x) (f : Hid) (hf : x.sister = some f) (h0 : 0 < x.refcount)
      (hy : x.queued = [] → y.queued = []) (ht : y.type = x.type) (hr : y.readable = x.readable)
      (hw : y.writeable = x.writeable) : y.type = .pipe ∧ y.readable ≠ y.writeable ∧
      ∃ z, (s.handles.set h { v with queued := q }).get f = some z ∧ z.sister = some g ∧ z.type = .pipe ∧
        z.readable = y.writeable ∧ z.writeable = y.readable ∧ (y.queued = [] ∨ z.queued = []) := by
    obtain ⟨ht', hrw, z, hz, hs₁, hs₂, hs₃, hs₄, hs₅⟩ := hp.sister f hf h0
    refine ⟨ht.trans ht', by rwa [hr, hw], ?_⟩
    rw [Heap.get_set hv, hr, hw]
    by_cases hfh : f = h
    case pos =>
      rw [hfh, hv, Option.some_inj] at hz
      subst hz
      exact ⟨_, if_pos hfh, hs₁, hs₂, hs₃, hs₄, hs₅.imp hy hempty⟩
    case neg => exact ⟨z, by rw [if_neg hfh, hz], hs₁, hs₂, hs₃, hs₄, hs₅.imp_left hy⟩
  refine Heap.forall_set hv ?_ fun g x _ hx => ?_
  · have hp := hs.pipes h v hv
    exact ⟨hp.line.sublist hq, fun p h => hp.past p (hq.subset h), fun h => ⟨hempty (hp.type h).1, (hp.type h).2⟩,
      fun h => hempty (hp.lone h), fun f hf h0 => hend hp f hf h0 hempty rfl rfl rfl⟩
  · have hp := hs.pipes g x hx
    exact ⟨hp.line, hp.past, hp.type, hp.lone, fun f hf h0 => hend hp f hf h0 id rfl rfl rfl⟩

theorem ok_setQueue {q : List Pid} (hs : Ok s) (hv : s.handles.get h = some v) (hq : q.Sublist v.queued) :
    Ok (s.withHandles (s.handles.set h { v with queued := q })) :=
  ok_setHandle hs hv rfl (fun _ => ⟨rfl, rfl, id, id⟩) (hs.reqs.reqs h v hv) (hs.pipes_queue hv hq)

theorem balance_setQueue {q : List Pid} (hv : s.handles.get h = some v) :
    (s.withHandles (s.handles.set h { v with queued := q })).balance =
      s.balance + (pipes h v.queued - pipes h q) := by
  rw [balance_setHandle hv, Handle.weight, Handle.weight, pipes, pipes]
  abel

theorem pipeWake_did (hs : Ok s) (hv : ∀ v, s.procs.get p = some v → v.waitsPipe = h) :
    wlp (pipeWake p ret) (fun _ t => Did s (-one (.pipe p h)) t ∧ t.handles = s.handles) s := by
  simp only [pipeWake, wlp_bind, wlp_getProc, wlp_kassert, wlp_procSetstate_running, wlp_regsSavereturn,
    State.withProcs_procs]
  intro v hp hst v' hp' _ x hx
  obtain rfl := Option.some_inj.mp (hp.symm.trans hp')
  rw [Heap.get_set_self hp, Option.some_inj] at hx
  subst hx
  have hwake := did_wake hs hp (by rw [hst]; rfl)
  have hrax := did_rax ret hwake.ok (Heap.get_set_self hp)
  refine ⟨(hwake.trans hrax).congr ?_, rfl⟩
  rw [Proc.waits, hst, hv v hp, add_zero]

-- The other end of a pipe is told that there is nobody anymore.
theorem pipeInvalidateEnd_did (hs : Ok s) (hw : s.Waits) (hv : s.handles.get h = some v) :
    wlp (pipeInvalidateEnd h)
      (fun _ t => Did s 0 t ∧ t.handles = s.handles.set h { v with queued := [] }) s := by
  simp only [pipeInvalidateEnd, wlp_bind, wlp_getHandle]
  intro v' hv'
  obtain rfl := Option.some_inj.mp (hv.symm.trans hv')
  -- Those which are left still wait for this end.
  let I (l : List Pid) (t : State) : Prop :=
    Did s (pipes h l - pipes h v.queued) t ∧ t.handles = s.handles ∧ l ⊆ v.queued
  have hstart : I v.queued s := ⟨(Did.refl hs).congr (sub_self _).symm, rfl, List.Subset.refl _⟩
  refine wlp_post (wlp_forM I ?_ hstart) fun _ t hx => ?_
  · rintro p l t ⟨ht, hhandles, hl⟩
    obtain ⟨_, u, hu, _, hpipe⟩ := hw.queued hv (hl (List.mem_cons_self ..))
    have hwait (x : Proc) (hx : t.procs.get p = some x) : x.waitsPipe = h := by
      obtain ⟨y, hy, hk⟩ := ht.kept.procs p u hu
      obtain rfl := Option.some_inj.mp (hy.symm.trans hx)
      rw [hk.eq, hpipe]
    refine wlp_post (pipeWake_did ht.ok hwait) fun _ z hx => ?_
    obtain ⟨hz, hsame⟩ := hx
    refine ⟨(ht.trans hz).congr ?_, ?_, ?_⟩
    · rw [pipes_cons]
      abel
    · rw [hsame, hhandles]
    · exact fun q hq => hl (List.mem_cons_of_mem _ hq)
  · obtain ⟨ht, hhandles, _⟩ := hx
    have hget : t.handles.get h = some v := hhandles ▸ hv
    rw [wlp_updHandle]
    intro x hx
    obtain rfl := Option.some_inj.mp (hget.symm.trans hx)
    have hset : Did t (pipes h v.queued) (t.withHandles (t.handles.set h { v with queued := [] })) := by
      refine ⟨kept_setHandle hget ⟨rfl, le_rfl, .inr rfl, .inl rfl⟩ id, ok_setQueue ht.ok hget (List.nil_sublist _), ?_,
        neat_of_eq rfl rfl rfl⟩
      rw [balance_setQueue hget, pipes_nil, sub_zero]
    refine ⟨(ht.trans hset).congr ?_, by rw [State.withHandles_handles, hhandles]⟩
    rw [pipes_nil]
    abel

end Queue

section Close

variable {s t u : State} {h g : Hid} {v w : Handle} {env : Env} {finish : Rid → Int → K Unit}

-- One reference less.
def State.unref (s : State) (h : Hid) (v : Handle) : State :=
  s.withHandles (s.handles.set h { v with refcount := v.refcount - 1 })

theorem ok_unref (hs : Ok s) (hv : s.handles.get h = some v) : Ok (s.unref h v) := by
  refine ok_setHandle hs hv rfl (fun _ => ⟨rfl, rfl, id, fun h0 => ?_⟩) (hs.reqs.reqs h v hv)
    (hs.pipes_set hv rfl rfl rfl rfl rfl fun _ h0 => ?_)
  · simp [h0]
  · exact lt_of_lt_of_le h0 (Nat.sub_le _ _)

theorem balance_unref (hv : s.handles.get h = some v) (h0 : 0 < v.refcount) :
    (s.unref h v).balance = s.balance - one (.handle h) := by
  obtain ⟨n, hn⟩ : ∃ n, v.refcount = n + 1 := ⟨v.refcount - 1, by omega⟩
  rw [State.unref, balance_setHandle hv, Handle.weight, Handle.weight, hn, Nat.add_sub_cancel, succ_nsmul]
  abel

theorem sane_unref (hs : Sane s) (hv : s.handles.get h = some v) (h0 : 0 < v.refcount) : Sane (s.unref h v) := by
  refine ⟨ok_unref hs.ok hv, fun x hx => ?_⟩
  rw [balance_unref hv h0, Pi.sub_apply, one_firm rfl hx, sub_zero]
  exact hs.firm x hx

theorem get_unref (hv : s.handles.get h = some v) :
    (s.unref h v).handles.get h = some { v with refcount := v.refcount - 1 } :=
  Heap.get_set_self hv

-- Nothing relies on the handle anymore.
structure Shut (t : State) (h : Hid) (v : Handle) : Prop where
  queued : v.queued = []
  size   : ∀ g, v.sister = some g → g < t.handles.size
  sister : v.type = .pipe → ∀ g x, v.sister = some g → t.handles.get g = some x → x.sister ≠ some h
  closed : v.type = .file → ∀ b, v.backend = some b →
    (∃ m ∈ messages h t.log, m.type = .CLOSE) ∨ ∀ x, t.backends.get b = some x → x.provhcnt = 0

theorem messages_grows {l l' : List Event} (hl : l <+: l') : messages h l <+: messages h l' := by
  obtain ⟨l, rfl⟩ := hl
  rw [messages_append]
  exact List.prefix_append _ _

theorem Shut.kept (hs : Shut t h v) (hk : Kept t u) : Shut u h v where
  queued := hs.queued
  size   := fun g hg => lt_of_lt_of_le (hs.size g hg) hk.handles.size
  sister := fun ht g x hg hx hn => by
    obtain ⟨y, hy, hyx⟩ := hk.handles.get g (hs.size g hg) x hx
    obtain hsame | hnone := hyx.sister
    · exact hs.sister ht g y hg hy (hsame ▸ hn)
    · rw [hnone] at hn
      contradiction
  closed := fun ht b hback => by
    obtain ⟨m, hm, hc⟩ | hp := hs.closed ht b hback
    · exact .inl ⟨m, (messages_grows hk.log).subset hm, hc⟩
    · refine .inr fun x hx => ?_
      obtain ⟨y, hy, hyx⟩ := hk.backends.get b (hk.newBacks ▸ Heap.lt_size hx) x hx
      exact hyx.provhcnt.trans (hp y hy)

-- Whatever has a place is in flight.
theorem State.Placed.pending {r : Rid} (hp : s.Placed)
    (h0 : 0 < s.handles.total (fun _ v => if v.req = some r then (1 : ℤ) else 0) +
      s.backends.total (fun _ v => (v.queue.count r : ℤ)) + s.held.count r) : s.Pending r := by
  have h := hp r
  rw [balance_place] at h
  cases hw : s.reqs.get r
  case none =>
    simp only [hw, Option.elim_none] at h
    omega
  case some w =>
    refine ⟨w, hw, ?_⟩
    by_contra hn
    simp only [hw, Option.elim_some, if_neg hn] at h
    omega

theorem State.Placed.handed {r : Rid} (hp : s.Placed) (hv : s.handles.get h = some v) (hr : v.req = some r) :
    s.Pending r := by
  refine hp.pending ?_
  have hone := Heap.le_total (w := fun _ v => if v.req = some r then (1 : ℤ) else 0)
    (fun _ _ => by split_ifs <;> decide) hv
  have hqueues : 0 ≤ s.backends.total fun _ v => (v.queue.count r : ℤ) :=
    Heap.total_nonneg fun _ _ => Int.natCast_nonneg _
  simp only [if_pos hr] at hone
  omega

-- One end of a pipe forgets the other one, which is about to go.
theorem ok_unlink (hs : Ok s) (hg : s.handles.get g = some w) (hq : w.queued = []) (hw : w.sister = some h)
    (h0 : ∀ x, s.handles.get h = some x → x.refcount = 0) :
    Ok (s.withHandles (s.handles.set g { w with sister := none })) := by
  refine ok_setHandle hs hg rfl (fun _ => ⟨rfl, rfl, id, id⟩) (hs.reqs.reqs g w hg) (Heap.forall_set hg ?_ ?_)
  · have hp := hs.pipes g w hg
    exact ⟨hp.line, hp.past, fun _ => ⟨hq, rfl⟩, fun _ => hq, fun _ h => by contradiction⟩
  · intro f x _ hx
    have hp := hs.pipes f x hx
    refine ⟨hp.line, hp.past, hp.type, hp.lone, fun f' hf' hpos => ?_⟩
    obtain ⟨ht, hrw, y, hy, hs₁, hs₂⟩ := hp.sister f' hf' hpos
    have hne : f' ≠ g := by
      rintro rfl
      rw [hg, Option.some_inj] at hy
      rw [← hy, hw, Option.some_inj] at hs₁
      exact hpos.ne' (h0 x (hs₁ ▸ hx))
    exact ⟨ht, hrw, y, (Heap.get_set_ne hne).trans hy, hs₁, hs₂⟩

-- The last reference of a file is gone, and its driver is told.
theorem sendable_close {b : Bid} (hs : Ok s) (hv : s.handles.get h = some v) (h1 : v.refcount = 1)
    (hb : v.backend = some b) :
    Sendable (s.unref h v) b { type := .CLOSE, id := v.fileId, backend := v.backend, origin := some h } where
  backend := hb
  writes  := by simp
  opens   := fun h => by contradiction
  issues  := fun g hg => by
    obtain rfl := Option.some_inj.mp hg
    refine ⟨_, get_unref hv, rfl, rfl, by simp, fun h => absurd rfl h, fun _ => ⟨by simp [h1], fun c id hl => ?_⟩⟩
    refine (hs.files.opened h c id hl).once.resolve_right fun hx => ?_
    obtain ⟨_, h0⟩ := hx
    rw [h0 v hv] at h1
    contradiction

theorem handleCloseType_did (hf : Finishes finish) (hs : Sane s) (hv : s.handles.get h = some v)
    (h1 : v.refcount = 1) :
    wlp (handleCloseType env finish h v)
      (fun _ t => Did (s.unref h v) (-optRef .place v.req) t ∧ Shut t h v) (s.unref h v) := by
  have hu := sane_unref hs hv (h1 ▸ Nat.one_pos)
  have hp := hs.ok.pipes h v hv
  have hreq (ht : v.type ≠ .fsReq) : v.req = none :=
    not_not.mp fun hn => ht (hs.ok.reqs.reqs h v hv hn)
  -- Most handles are neither in a queue nor connected with each other.
  have hplain {t : State} (ht : v.type ≠ .pipe) (hfile : v.type ≠ .file) : Shut t h v :=
    ⟨(hp.type ht).1, by simp [(hp.type ht).2], fun h => absurd h ht, fun h => absurd h hfile⟩
  rw [handleCloseType]
  cases htype : v.type
  case invalid =>
    refine wlp_pure.mpr ⟨(Did.refl hu.ok).congr ?_, hplain (by simp [htype]) (by simp [htype])⟩
    rw [hreq (by simp [htype]), optRef_none, neg_zero]
  case fsFront =>
    refine wlp_pure.mpr ⟨(Did.refl hu.ok).congr ?_, hplain (by simp [htype]) (by simp [htype])⟩
    rw [hreq (by simp [htype]), optRef_none, neg_zero]
  case fsReq =>
    cases hr : v.req
    case none   =>
      refine wlp_pure.mpr ⟨(Did.refl hu.ok).congr ?_, hplain (by simp [htype]) (by simp [htype])⟩
      rw [optRef_none, neg_zero]
    case some r =>
      have hpend : (s.unref h v).Pending r := hu.placed.handed (get_unref hv) hr
      exact wlp_post (hf _ r (-1) hu hpend) fun _ t ht => ⟨ht, hplain (by simp [htype]) (by simp [htype])⟩
  case file =>
    refine wlp_post (vfsreqCreate_did hf hu rfl rfl (by simp) rfl fun b hb => sendable_close hs.ok hv h1 hb)
      fun _ t hx => ?_
    obtain ⟨ht, htold⟩ := hx
    refine ⟨ht.congr ?_, (hp.type (by simp [htype])).1, by simp [(hp.type (by simp [htype])).2],
      fun h => by simp [htype] at h, fun _ b hb => ?_⟩
    · rw [hreq (by simp [htype]), optRef_none, neg_zero]
    · obtain ⟨r, hr⟩ | hnone := htold b hb
      · exact .inl ⟨_, mem_messages.mpr ⟨b, r, hr, rfl⟩, rfl⟩
      · exact .inr hnone
  case pipe =>
    rw [hreq (by simp [htype]), optRef_none, neg_zero]
    simp only [wlp_bind, wlp_kassert]
    intro hq
    cases hsis : v.sister
    case none =>
      exact wlp_pure.mpr ⟨.refl hu.ok, hq, by simp [hsis], by simp [hsis], fun h => by simp [htype] at h⟩
    case some g =>
      obtain ⟨_, hrw, w, hg, hw, _, hr, _⟩ := hp.sister g hsis (h1 ▸ Nat.one_pos)
      have hne : g ≠ h := by
        rintro rfl
        rw [hv, Option.some_inj] at hg
        rw [← hg] at hr
        exact hrw hr
      have hget : (s.unref h v).handles.get g = some w := (Heap.get_set_ne hne).trans hg
      simp only [wlp_bind]
      refine wlp_post (pipeInvalidateEnd_did hu.ok hu.waits hget) fun _ t hx => ?_
      obtain ⟨ht, hhandles⟩ := hx
      have hget' : t.handles.get g = some { w with queued := [] } := by
        rw [hhandles, Heap.get_set_self hget]
      rw [wlp_updHandle]
      intro x hx
      obtain rfl := Option.some_inj.mp (hget'.symm.trans hx)
      have hlink : Did t 0 (t.withHandles (t.handles.set g { w with queued := [], sister := none })) := by
        refine ⟨kept_setHandle hget' ⟨rfl, le_rfl, .inl rfl, .inr rfl⟩ id, ?_, ?_, neat_of_eq rfl rfl rfl⟩
        · refine ok_unlink ht.ok hget' rfl hw fun y hy => ?_
          rw [hhandles, Heap.get_set_ne hne.symm, get_unref hv, Option.some_inj] at hy
          rw [← hy, h1]
        · rw [balance_setHandle hget', Handle.weight, Handle.weight, sub_self]
      refine ⟨(ht.trans hlink).congr (add_zero 0), hq, fun f hf => ?_, fun _ f y hf hy => ?_, fun h => by simp [htype] at h⟩
      · rw [← Option.some_inj.mp (hsis.symm.trans hf), State.withHandles_handles, Heap.size_set]
        exact Heap.lt_size hget'
      · rw [← Option.some_inj.mp (hsis.symm.trans hf), State.withHandles_handles, Heap.get_set_self hget',
          Option.some_inj] at hy
        rw [← hy]
        simp

-- After its last reference, a handle is freed.
theorem did_close {d : Balance} (hv : s.handles.get h = some v) (h1 : v.refcount = 1)
    (ht : Did (s.unref h v) d t) (hshut : Shut t h v) (hw : t.handles.get h = some w) :
    Did s (d - one (.handle h) + optRef .use v.backend + optRef .place v.req) (t.withHandles (t.handles.free h)) := by
  obtain ⟨x, hx, hk⟩ := ht.kept.handles.get h (Heap.lt_size (get_unref hv)) w hw
  obtain rfl := Option.some_inj.mp ((get_unref hv).symm.trans hx)
  have h0 : w.refcount = 0 := by
    have := hk.refcount
    rw [h1] at this
    exact Nat.le_zero.mp this
  have hq : w.queued = [] := hk.queued.elim (·.trans hshut.queued) id
  have htype : w.type = v.type := by rw [hk.eq]
  have hback : w.backend = v.backend := by rw [hk.eq]
  have hneat : Neat s (s.unref h v) := neat_of_eq rfl rfl rfl
  refine ⟨?_, ?_, ?_, (hneat.trans ht.neat).trans (neat_of_eq rfl rfl rfl)⟩
  · have hkept := ht.kept
    rw [State.unref, h1] at hkept
    exact hkept.close
  · refine ok_freeHandle ht.ok hw (fun g x hg hx hsis => ?_) fun b id hl => ?_
    · by_contra hpos
      obtain ⟨_, _, y, hy, hback, hpipe, _⟩ := (ht.ok.pipes g x hx).sister h hsis (Nat.pos_of_ne_zero hpos)
      obtain rfl := Option.some_inj.mp (hw.symm.trans hy)
      have hsame : v.sister = some g := by
        obtain hsame | hnone := hk.sister
        · exact hsame.symm.trans hback
        · rw [hnone] at hback
          contradiction
      exact hshut.sister (htype.symm.trans hpipe) g x hsame hx hsis
    · have ho := ht.ok.files.opened h b id hl
      obtain ⟨hfile, hb, _⟩ := ho.live w hw
      refine (hshut.closed (htype.symm.trans hfile) b (hback.symm.trans hb)).imp_left fun hx => ?_
      obtain ⟨m, hm, hc⟩ := hx
      exact (ho.once.resolve_left fun hn => hn m hm hc).1
  · have hweight : w.weight h = -optRef .use v.backend - optRef .place v.req := by
      have hreq : w.req = v.req := by rw [hk.eq]
      rw [Handle.weight, h0, hq, hback, hreq]
      simp
    rw [balance_freeHandle hw, ht.balance, balance_unref hv (h1 ▸ Nat.one_pos), hweight]
    abel

theorem handleClose_did (hf : Finishes finish) (hs : Sane s) :
    wlp (handleClose env finish h) (fun _ t => Did s (-one (.handle h)) t) s := by
  simp only [handleClose, wlp_bind, wlp_getHandle, wlp_kassert, wlp_setHandle]
  intro v hv h0
  change wlp _ _ (s.unref h v)
  rw [wlp_ite]
  refine ⟨fun hz => ?_, fun hz => wlp_pure.mpr ⟨?_, ok_unref hs.ok hv, ?_, neat_of_eq rfl rfl rfl⟩⟩
  · have h1 : v.refcount = 1 := by omega
    rw [wlp_bind]
    refine wlp_post (handleCloseType_did hf hs hv h1) fun _ t hx => ?_
    obtain ⟨ht, hshut⟩ := hx
    have hwaits : t.Waits := ht.waits (sane_unref hs hv h0).waits fun x hx => by
      rw [Pi.neg_apply, optRef_apply, if_neg]
      · rfl
      · rintro ⟨r, _, rfl⟩
        contradiction
    rw [wlp_bind]
    refine wlp_post (vfsreqRefdown_did ht.ok hwaits) fun _ u hu => ?_
    rw [wlp_freeHandle]
    intro _ w hw
    refine (did_close hv h1 (ht.trans hu) (hshut.kept hu.kept) hw).congr ?_
    abel
  · exact kept_setHandle hv ⟨rfl, Nat.sub_le _ _, .inl rfl, .inl rfl⟩ fun hn => absurd hn hz
  · rw [balance_unref hv h0]
    abel

-- A handle is put into a slot, or it is closed if there is none.
theorem procHandlePut_did {p : Pid} (hf : Finishes finish) (hs : Sane s) (hp : s.Served p) :
    wlp (procHandlePut env finish p h) (fun _ t => Did s (-one (.handle h)) t) s := by
  simp only [procHandlePut, procTable, wlp_bind, wlp_getProc, wlp_nonNull, wlp_getTable]
  intro v hv i hi table htable
  cases hslot : procFindFreeHandle table 1
  case none   =>
    rw [wlp_bind]
    exact wlp_post (handleClose_did hf hs) fun _ _ ht => wlp_pure.mpr ht
  case some j =>
    simp only [wlp_bind, wlp_setSlot]
    intro table' htable'
    obtain rfl := Option.some_inj.mp (htable.symm.trans htable')
    refine wlp_pure.mpr ⟨kept_setTable htable (.inr ⟨p, v, hv, hi, hp⟩), ok_withTables hs.ok, ?_, neat_of_eq rfl rfl rfl⟩
    rw [balance_setSlot htable, procFindFreeHandle_free hslot, optRef_none, optRef_some, zero_sub]

end Close
end Camellia
