import Camellia.Kernel.Calls

namespace Camellia

-- What happens to the queues of the pipes.

section Connect

variable {s : State} {rend wend : Hid} {v w v' w' : Handle} {H : Heap Handle}

-- The two ends of a pipe get to know each other.
theorem ok_connect (hs : Ok s) (hv : s.handles.get rend = some v) (hw : s.handles.get wend = some w)
    (hvt : v.type = .pipe) (hvs : v.sister = none) (hwt : w.type = .pipe) (hws : w.sister = none)
    (hsize : H.size = s.handles.size)
    (hother : ∀ g, g ≠ rend → g ≠ wend → H.get g = s.handles.get g)
    (hv' : H.get rend = some { v with sister := some wend, readable := true, writeable := false })
    (hw' : H.get wend = some { w with sister := some rend, readable := false, writeable := true }) :
    Ok (s.withHandles H) := by
  have hvq : v.queued = [] := (hs.pipes rend v hv).lone hvs
  have hwq : w.queued = [] := (hs.pipes wend w hw).lone hws
  -- Whatever holds of the other handles has to be shown for the two ends only.
  have hall {P : Hid → Handle → Prop} (hpv : P rend { v with sister := some wend, readable := true, writeable := false })
      (hpw : P wend { w with sister := some rend, readable := false, writeable := true })
      (hp : ∀ g x, g ≠ rend → g ≠ wend → s.handles.get g = some x → P g x) (g : Hid) (x : Handle)
      (hx : H.get g = some x) : P g x := by
    by_cases hr : g = rend
    case pos =>
      rw [hr, hv', Option.some_inj] at hx
      exact hr ▸ hx ▸ hpv
    case neg =>
      by_cases hw : g = wend
      case pos =>
        rw [hw, hw', Option.some_inj] at hx
        exact hw ▸ hx ▸ hpw
      case neg => exact hp g x hr hw (hother g hr hw ▸ hx)
  refine ⟨{ hs.reqs with req := fun r x hx => { hs.reqs.req r x hx with }, reqs := ?_ }, ⟨?_, ?_, ?_⟩, ?_⟩
  · refine hall (fun hn => ?_) (fun hn => ?_) fun g x _ _ => hs.reqs.reqs g x
    · have := hs.reqs.reqs rend v hv hn
      rw [hvt] at this
      contradiction
    · have := hs.reqs.reqs wend w hw hn
      rw [hwt] at this
      contradiction
  · simpa [hsize] using hs.files.enqueued
  · refine fun g x b hx => hall (P := fun _ x => x.type = .file → x.writeable → x.backend = some b → WriteOpened s.log b)
      (fun ht => ?_) (fun ht => ?_) (fun g x _ _ hx => hs.files.writers g x b hx) g x hx
    · rw [hvt] at ht
      contradiction
    · rw [hwt] at ht
      contradiction
  · intro g b id hg
    have ho := hs.files.opened g b id hg
    have hr : g ≠ rend := by
      rintro rfl
      have := (ho.live v hv).1
      rw [hvt] at this
      contradiction
    have hw : g ≠ wend := by
      rintro rfl
      have := (ho.live w hw).1
      rw [hwt] at this
      contradiction
    have hget := hother g hr hw
    refine ⟨by simpa [hsize] using ho.size, ho.back, ?_, ho.target, ?_, ?_⟩ <;> rw [State.withHandles_handles, hget]
    · exact ho.live
    · exact ho.once
    · exact ho.closed
  · refine hall ?_ ?_ fun g x hr hwe hx => ?_
    · refine ⟨by simp [hvq], by simp [hvq], fun h => absurd hvt h, fun _ => hvq, fun f hf _ => ?_⟩
      obtain rfl := Option.some_inj.mp hf
      exact ⟨hvt, by simp, _, hw', rfl, hwt, rfl, rfl, .inl hvq⟩
    · refine ⟨by simp [hwq], by simp [hwq], fun h => absurd hwt h, fun _ => hwq, fun f hf _ => ?_⟩
      obtain rfl := Option.some_inj.mp hf
      exact ⟨hwt, by simp, _, hv', rfl, hvt, rfl, rfl, .inl hwq⟩
    · have hp := hs.pipes g x hx
      refine ⟨hp.line, hp.past, hp.type, hp.lone, fun f hf h0 => ?_⟩
      obtain ⟨ht, hrw, y, hy, hys⟩ := hp.sister f hf h0
      -- Neither of the two ends was connected before.
      have hfr : f ≠ rend := by
        rintro rfl
        obtain rfl := Option.some_inj.mp (hv.symm.trans hy)
        rw [hvs] at hys
        simp at hys
      have hfw : f ≠ wend := by
        rintro rfl
        obtain rfl := Option.some_inj.mp (hw.symm.trans hy)
        rw [hws] at hys
        simp at hys
      exact ⟨ht, hrw, y, (hother f hfr hfw).trans hy, hys⟩

theorem sysPipeConnect_rest (hs : Rest s) (hne : rend ≠ wend) (hv : s.handles.get rend = some { type := .pipe })
    (hw : s.handles.get wend = some { type := .pipe }) :
    wlp (sysPipeConnect rend wend) (fun _ t => Rest t) s := by
  let w₁ : Handle := { type := .pipe, sister := some rend }
  let v₁ : Handle := { type := .pipe, sister := some wend }
  let w₂ : Handle := { type := .pipe, sister := some rend, writeable := true }
  let v₂ : Handle := { type := .pipe, sister := some wend, readable := true }
  have hv₁ : (s.handles.set wend w₁).get rend = some { type := .pipe } := (Heap.get_set_ne hne).trans hv
  have hw₂ : ((s.handles.set wend w₁).set rend v₁).get wend = some w₁ :=
    (Heap.get_set_ne hne.symm).trans (Heap.get_set_self hw)
  have hv₂ : (((s.handles.set wend w₁).set rend v₁).set wend w₂).get rend = some v₁ :=
    (Heap.get_set_ne hne).trans (Heap.get_set_self hv₁)
  let H := (((s.handles.set wend w₁).set rend v₁).set wend w₂).set rend v₂
  have hH : Rest (s.withHandles H) := by
    have hgw : H.get wend = some w₂ := (Heap.get_set_ne hne.symm).trans (Heap.get_set_self hw₂)
    have hgv : H.get rend = some v₂ := Heap.get_set_self hv₂
    have hother (g : Hid) (hr : g ≠ rend) (hwe : g ≠ wend) : H.get g = s.handles.get g := by
      simp only [H, Heap.get_set_ne hr, Heap.get_set_ne hwe]
    refine ⟨ok_connect hs.ok hv hw rfl rfl rfl rfl (by simp [H]) hother hgv hgw, ?_, ?_⟩
    · have h₁ := hs.tidy.setHandle (y := w₁) hw id rfl
      have h₂ := h₁.setHandle (y := v₁) hv₁ id rfl
      have h₃ := h₂.setHandle (y := w₂) hw₂ id rfl
      exact h₃.setHandle (y := v₂) hv₂ id rfl
    · obtain ⟨k, hk⟩ := hs.balance
      refine ⟨k, ?_⟩
      rw [balance_withHandles, Heap.total_set hv₂, Heap.total_set hw₂, Heap.total_set hv₁, Heap.total_set hw, hk]
      simp only [Handle.weight, w₁, v₁, w₂, v₂]
      abel
  simp only [sysPipeConnect, wlp_bind, wlp_updHandle, State.withHandles_handles]
  intro a ha b hb c hc e he
  obtain rfl := Option.some_inj.mp (hw.symm.trans ha)
  obtain rfl := Option.some_inj.mp (hv₁.symm.trans hb)
  obtain rfl := Option.some_inj.mp (hw₂.symm.trans hc)
  obtain rfl := Option.some_inj.mp (hv₂.symm.trans he)
  exact hH

theorem sysPipe_rest {env : Env} {p : Pid} {flags : Flags} (hs : Rest s) :
    wlp (sysPipe env p flags) (fun _ t => Rest t) s := by
  refine wlp_ite.mpr ⟨fun _ => sysReturn_rest hs, fun _ => ?_⟩
  rw [wlp_bind]
  refine wlp_post (procHandleInit_holding hs) fun r t hx => ?_
  obtain ⟨ht, _, hr⟩ := hx
  rw [wlp_bind]
  refine wlp_post (procHandleInit_holding ht) fun w u hx => ?_
  obtain ⟨hu, hsame, hw⟩ := hx
  have hfail : wlp (do procHandleClose env p (hidOf r); procHandleClose env p (hidOf w); sysReturn p (-EMFILE))
      (fun _ t => Rest t) u := by
    simp only [wlp_bind]
    exact wlp_post (procHandleClose_rest hu) fun _ _ h => wlp_post (procHandleClose_rest h) fun _ _ => sysReturn_rest
  obtain _ | ⟨i, rend⟩ := r <;> obtain _ | ⟨j, wend⟩ := w
  case some.some =>
    obtain ⟨rfl, hrend⟩ := hr i rend rfl
    obtain ⟨rfl, hwend⟩ := hw j wend rfl
    have hlt : s.handles.size < t.handles.size := by rw [hrend, Heap.size_alloc]; exact Nat.lt_succ_self _
    have hgr : u.handles.get s.handles.size = some { type := .pipe } := by
      rw [hwend, Heap.get_alloc, if_neg hlt.ne, hrend, Heap.get_alloc_self]
    have hgw : u.handles.get t.handles.size = some { type := .pipe } := by
      rw [hwend, Heap.get_alloc_self]
    simp only [wlp_bind]
    exact wlp_post (sysPipeConnect_rest hu hlt.ne hgr hgw) fun _ _ => sysReturn_rest
  all_goals exact hfail

end Connect

section Join

variable {s : State} {d : Balance} {p q : Pid} {h g : Hid} {v w : Handle} {u x : Proc}

-- The time at which a process joined a queue does not matter as long as it is in none.
theorem ok_setSince (hs : Ok s) (hp : ∀ g y, s.handles.get g = some y → p ∉ y.queued) :
    Ok (s.withProcs (s.procs.set p x)) := by
  refine hs.frame rfl rfl rfl rfl rfl fun g y q hy hq => ?_
  have hne : q ≠ p := fun h => hp g y hy (h ▸ hq)
  rw [State.since, State.withProcs_procs, Heap.get_set_ne hne, State.since]

theorem ok_joinQueue (hs : Ok s) (hv : s.handles.get h = some v) (hsis : v.sister = some g) (h0 : 0 < v.refcount)
    (hw : s.handles.get g = some w) (hwq : w.queued = []) (hlt : ∀ a ∈ v.queued, s.since a < s.since p)
    (hpast : s.since p < s.log.length) : Ok (s.withHandles (s.handles.set h { v with queued := v.queued ++ [p] })) := by
  have hp := hs.pipes h v hv
  obtain ⟨ht, hrw, w', hw', hws⟩ := hp.sister g hsis h0
  obtain rfl := Option.some_inj.mp (hw.symm.trans hw')
  have hne : g ≠ h := by
    rintro rfl
    obtain rfl := Option.some_inj.mp (hv.symm.trans hw)
    exact hrw hws.2.2.1
  refine ok_setHandle hs hv rfl (fun _ => ⟨rfl, rfl, id, id⟩) (hs.reqs.reqs h v hv) (Heap.forall_set hv ?_ ?_)
  · refine ⟨?_, fun a ha => ?_, fun hn => absurd ht hn, fun hn => ?_, fun f hf _ => ?_⟩
    · exact List.pairwise_append.mpr ⟨hp.line, List.pairwise_singleton _ _, fun a ha b hb =>
        List.mem_singleton.mp hb ▸ hlt a ha⟩
    · obtain ha | ha := List.mem_append.mp ha
      · exact hp.past a ha
      · exact List.mem_singleton.mp ha ▸ hpast
    · rw [hsis] at hn
      contradiction
    · obtain rfl := Option.some_inj.mp (hsis.symm.trans hf)
      exact ⟨ht, hrw, w, (Heap.get_set_ne hne).trans hw, hws.1, hws.2.1, hws.2.2.1, hws.2.2.2.1, .inr hwq⟩
  · intro f y hf hy
    have hp := hs.pipes f y hy
    refine ⟨hp.line, hp.past, hp.type, hp.lone, fun e he h0 => ?_⟩
    obtain ⟨ht', hrw', z, hz, hzs⟩ := hp.sister e he h0
    by_cases heh : e = h
    case neg => exact ⟨ht', hrw', z, (Heap.get_set_ne heh).trans hz, hzs⟩
    case pos =>
      -- The other end is the one whose queue is empty.
      subst heh
      obtain rfl := Option.some_inj.mp (hv.symm.trans hz)
      have hfg : g = f := Option.some_inj.mp (hsis.symm.trans hzs.1)
      obtain rfl := Option.some_inj.mp (hw.symm.trans (hfg ▸ hy))
      exact ⟨ht', hrw', _, Heap.get_set_self hv, hzs.1, hzs.2.1, hzs.2.2.1, hzs.2.2.2.1, .inl hwq⟩

-- A process which runs is in no queue.
theorem Rest.not_queued (hs : Rest s) (hu : s.procs.get p = some u) (hrun : u.state = .running) (g : Hid) (y : Handle)
    (hy : s.handles.get g = some y) : p ∉ y.queued := fun hq => by
  obtain ⟨-, x, hx, hst, -⟩ := hs.sane.waits.queued hy hq
  obtain rfl := Option.some_inj.mp (hu.symm.trans hx)
  rw [hrun] at hst
  contradiction

-- The process waits in the queue of its end.
def State.join (s : State) (p : Pid) (u : Proc) (h : Hid) (v : Handle) (len : ℕ) : State :=
  ((s.withProcs (s.procs.set p
    { u with state := .waits4pipe, waitsPipe := h, waitsLen := len, waitsSince := s.log.length })).withHandles
    (s.handles.set h { v with queued := v.queued ++ [p] })).withLog (s.log ++ [.joined p h])

theorem Rest.join {len : ℕ} (hs : Rest s) (hu : s.procs.get p = some u) (hrun : u.state = .running)
    (hv : s.handles.get h = some v) (hsis : v.sister = some g) (hw : s.handles.get g = some w) (hwq : w.queued = []) :
    Rest (s.join p u h v len) := by
  let y : Proc := { u with state := .waits4pipe, waitsPipe := h, waitsLen := len, waitsSince := s.log.length }
  let s₁ := (s.withProcs (s.procs.set p y)).withLog (s.log ++ [.joined p h])
  have hnot := hs.not_queued hu hrun
  have h0 := Nat.pos_of_ne_zero (hs.tidy.used h v hv)
  have hsince : s₁.since p = s.log.length := by
    simp only [s₁, State.since, State.withLog_procs, State.withProcs_procs, Heap.get_set_self hu, Option.elim_some, y]
  have hs₁ : Ok s₁ := ok_emit (e := .joined p h) (ok_setSince (x := y) hs.ok hnot) rfl
  have htidy := (hs.tidy.setProc (w := y) hu fun h => by contradiction).setHandle
    (y := { v with queued := v.queued ++ [p] }) hv id rfl
  refine ⟨?_, { htidy with }, ?_⟩
  · refine ok_joinQueue hs₁ hv hsis h0 hw hwq (fun a ha => ?_) ?_
    · have hne : a ≠ p := fun hap => hnot h v hv (hap ▸ ha)
      have ha' : s₁.since a = s.since a := by
        simp only [s₁, State.since, State.withLog_procs, State.withProcs_procs, Heap.get_set_ne hne]
      rw [ha', hsince]
      exact (hs.ok.pipes h v hv).past a ha
    · rw [hsince, State.withLog_log, List.length_append]
      exact Nat.lt_succ_self _
  · obtain ⟨k, hk⟩ := hs.balance
    refine ⟨k, ?_⟩
    have hprocs : (s.withProcs (s.procs.set p y)).balance = s.balance + one (.pipe p h) := by
      have hidle : u.waits p = 0 := Proc.waits_idle (by rw [hrun]; rfl)
      rw [balance_setProc hu, Proc.weight, Proc.weight, hidle, hrun, Proc.waits]
      simp only [PState.active, y, if_true]
      abel
    let s₂ := s.withProcs (s.procs.set p y)
    have hevent : (Event.joined p h).weight = 0 := rfl
    have hset := balance_setHandle (s := s₂) (w := { v with queued := v.queued ++ [p] }) hv
    refine balance_emit.trans ?_
    change (s₂.withHandles (s₂.handles.set h { v with queued := v.queued ++ [p] })).balance + _ = _
    rw [hset, hprocs, hk, Handle.weight, Handle.weight, List.map_append, List.sum_append, List.map_singleton,
      List.sum_singleton, hevent]
    abel

-- If the other end has a queue, then the first one of it does not wait any longer, and the process
-- does not have to wait at all.
def State.transfer (s : State) (p : Pid) (u : Proc) (q : Pid) (x : Proc) (h g : Hid) (w : Handle) (len : ℕ) (ret : Int) :
    State :=
  ((s.withProcs ((s.procs.set p
    { u with state := .running, waitsPipe := h, waitsLen := len, waitsSince := s.log.length, rax := ret }).set q
    { x with state := .running, rax := ret })).withHandles
      (s.handles.set g { w with queued := w.queued.tail })).withLog (s.log ++ [.joined p h])

theorem Rest.transfer {len : ℕ} {ret : Int} (hs : Rest s) (hu : s.procs.get p = some u) (hrun : u.state = .running)
    (hw : s.handles.get g = some w) (hq : w.queued.head? = some q) (hx : s.procs.get q = some x) :
    Rest (s.transfer p u q x h g w len ret) := by
  let y : Proc := { u with state := .running, waitsPipe := h, waitsLen := len, waitsSince := s.log.length, rax := ret }
  let z : Proc := { x with state := .running, rax := ret }
  obtain ⟨l, hl⟩ := List.head?_eq_some_iff.mp hq
  have hmem : q ∈ w.queued := hl ▸ List.mem_cons_self ..
  have hnot := hs.not_queued hu hrun
  have hne : q ≠ p := fun he => hnot g w hw (he ▸ hmem)
  obtain ⟨-, x', hx', hst, hpipe⟩ := hs.sane.waits.queued hw hmem
  obtain rfl := Option.some_inj.mp (hx.symm.trans hx')
  have hgetq : (s.procs.set p y).get q = some x := (Heap.get_set_ne hne).trans hx
  have htidy := ((hs.tidy.setProc (w := y) hu fun h => by contradiction).setProc (w := z) hgetq fun h => by
    contradiction).setHandle (y := { w with queued := w.queued.tail }) hw id rfl
  refine ⟨?_, { htidy with }, ?_⟩
  · have h₁ : Ok (s.withProcs (s.procs.set p y)) := ok_setSince hs.ok hnot
    have h₂ : Ok ((s.withProcs (s.procs.set p y)).withProcs ((s.procs.set p y).set q z)) := ok_setProc h₁ hgetq rfl
    exact ok_emit (ok_setQueue h₂ hw (List.tail_sublist _)) rfl
  · obtain ⟨k, hk⟩ := hs.balance
    refine ⟨k, ?_⟩
    let s₁ := (s.withProcs (s.procs.set p y)).withProcs ((s.procs.set p y).set q z)
    have hprocs : s₁.balance = s.balance - one (.pipe q g) := by
      have hset : s₁.balance = (s.withProcs (s.procs.set p y)).balance + (z.weight q - x.weight q) :=
        balance_setProc hgetq
      have hsame : y.weight p = u.weight p := by
        rw [Proc.weight, Proc.weight, Proc.waits, Proc.waits, hrun]
      have hwaits : x.waits q = one (.pipe q g) := by rw [Proc.waits, hst, hpipe]
      have hwake : z.weight q - x.weight q = -one (.pipe q g) := by
        rw [← hwaits]
        exact Proc.weight_wake (by rw [hst]; rfl)
      rw [hset, balance_setProc hu, hsame, hwake]
      abel
    have hset := balance_setQueue (s := s₁) (q := w.queued.tail) hw
    have hevent : (Event.joined p h).weight = 0 := rfl
    refine balance_emit.trans ?_
    change (s₁.withHandles (s₁.handles.set g { w with queued := w.queued.tail })).balance + _ = _
    rw [hset, hprocs, hk, hl, List.tail_cons, pipes_cons, hevent]
    abel

theorem wlp_pipeTransfer {env : Env} {rdr wtr : Pid} {Q : Unit → State → Prop} (hne : rdr ≠ wtr) (hgh : g ≠ h)
    (hq : ∀ ret a b y z, s.procs.get rdr = some a → s.procs.get wtr = some b → s.handles.get h = some y →
      s.handles.get g = some z →
      Q () ((s.withProcs ((s.procs.set rdr { a with state := .running, rax := ret }).set wtr
        { b with state := .running, rax := ret })).withHandles
          ((s.handles.set h { y with queued := y.queued.tail }).set g { z with queued := z.queued.tail }))) :
    wlp (pipeTransfer env h g rdr wtr) Q s := by
  simp only [pipeTransfer, wlp_bind, wlp_getProc, wlp_kassert]
  refine fun a ha b hb _ _ => wlp_of_readonly pcpyBi_readonly fun n => ?_
  simp only [wlp_updHandle, wlp_procSetstate_running, wlp_regsSavereturn, State.withHandles_handles,
    State.withHandles_procs, State.withProcs_procs]
  intro y hy z hz a' ha' _ b' hb' _ a'' ha'' b'' hb''
  obtain rfl := Option.some_inj.mp (ha.symm.trans ha')
  rw [Heap.get_set_ne hne.symm] at hb'
  obtain rfl := Option.some_inj.mp (hb.symm.trans hb')
  rw [Heap.get_set_ne hne, Heap.get_set_self ha, Option.some_inj] at ha''
  subst ha''
  rw [Heap.get_set_ne hne.symm, Heap.get_set_self (by rwa [Heap.get_set_ne hne.symm]), Option.some_inj] at hb''
  subst hb''
  rw [Heap.get_set_ne hgh] at hz
  rw [Heap.set_set_set hne]
  exact hq _ a b y z ha hb hy hz

theorem Handle.queued_tail (hq : v.queued = []) : ({ v with queued := (v.queued ++ [p]).tail } : Handle) = v := by
  obtain ⟨_, _, _, _, _, _, queued, _, _⟩ := v
  obtain rfl : queued = [] := hq
  rfl

-- The process gets into the queue for a moment only.
theorem Rest.transferred {len : ℕ} {ret : Int} {y z : Handle} (hs : Rest s) (hu : s.procs.get p = some u)
    (hrun : u.state = .running) (hv : s.handles.get h = some v) (hvq : v.queued = []) (hgh : g ≠ h)
    (hw : s.handles.get g = some w) (hq : w.queued.head? = some q) (hx : (s.join p u h v len).procs.get q = some x)
    (hy : (s.join p u h v len).handles.get h = some y) (hz : (s.join p u h v len).handles.get g = some z) :
    Rest (((s.join p u h v len).withProcs (((s.join p u h v len).procs.set p
      { u with state := .running, waitsPipe := h, waitsLen := len, waitsSince := s.log.length, rax := ret }).set q
        { x with state := .running, rax := ret })).withHandles
          (((s.join p u h v len).handles.set h { y with queued := y.queued.tail }).set g
            { z with queued := z.queued.tail })) := by
  have hne : q ≠ p := by
    rintro rfl
    obtain ⟨l, hl⟩ := List.head?_eq_some_iff.mp hq
    exact hs.not_queued hu hrun g w hw (hl ▸ List.mem_cons_self ..)
  have hx' : s.procs.get q = some x := (Heap.get_set_ne hne).symm.trans hx
  obtain rfl := Option.some_inj.mp ((Heap.get_set_self hv).symm.trans hy)
  obtain rfl := Option.some_inj.mp (((Heap.get_set_ne hgh).trans hw).symm.trans hz)
  have hback : (s.join p u h v len).handles.set h { v with queued := (v.queued ++ [p]).tail } = s.handles := by
    rw [Handle.queued_tail hvq]
    exact Heap.set_set.trans (Heap.set_get hv)
  rw [hback]
  have hprocs : (s.join p u h v len).procs.set p
      { u with state := .running, waitsPipe := h, waitsLen := len, waitsSince := s.log.length, rax := ret } =
      s.procs.set p { u with state := .running, waitsPipe := h, waitsLen := len, waitsSince := s.log.length, rax := ret } :=
    Heap.set_set
  rw [hprocs]
  exact hs.transfer hu hrun hw hq hx'

theorem pipeTrytransfer_rest {env : Env} {len : ℕ} (hs : Rest s) (hu : s.procs.get p = some u)
    (hrun : u.state = .running) (hv : s.handles.get h = some v)
    (hrw : v.readable ≠ v.writeable) (hsis : v.sister = some g) :
    wlp (pipeTrytransfer env h) (fun _ t => Rest t) (s.join p u h v len) := by
  have h0 := Nat.pos_of_ne_zero (hs.tidy.used h v hv)
  obtain ⟨_, _, w, hw, _, _, hr, _, hempty⟩ := (hs.ok.pipes h v hv).sister g hsis h0
  have hgh : g ≠ h := by
    rintro rfl
    obtain rfl := Option.some_inj.mp (hv.symm.trans hw)
    exact hrw hr
  have hgeth : (s.join p u h v len).handles.get h = some { v with queued := v.queued ++ [p] } := Heap.get_set_self hv
  have hgetg : (s.join p u h v len).handles.get g = some w := (Heap.get_set_ne hgh).trans hw
  simp only [pipeTrytransfer, wlp_bind, wlp_getHandle, hgeth, Option.some_inj, wlp_kassert]
  rintro _ rfl _ _
  simp only [hsis, wlp_bind, wlp_getHandle, hgetg, Option.some_inj]
  rintro _ rfl
  cases hwq : w.queued
  case nil =>
    have hjoin := @Rest.join _ _ _ _ _ _ _ len hs hu hrun hv hsis hw hwq
    obtain ⟨a, l, hal⟩ := List.exists_cons_of_ne_nil (show v.queued ++ [p] ≠ [] by simp)
    cases v.readable
    case true =>
      simp only [pipeEnds, if_true, hal, hwq]
      exact wlp_pure.mpr hjoin
    case false =>
      simp only [pipeEnds, Bool.false_eq_true, if_false, hal, hwq]
      exact wlp_pure.mpr hjoin
  case cons q l =>
    have hvq : v.queued = [] := hempty.resolve_right (by simp [hwq])
    have hne : p ≠ q := fun he => hs.not_queued hu hrun g w hw (by simp [hwq, he])
    have hhead : w.queued.head? = some q := by rw [hwq, List.head?_cons]
    have hgetp : (s.join p u h v len).procs.get p =
        some { u with state := .waits4pipe, waitsPipe := h, waitsLen := len, waitsSince := s.log.length } :=
      Heap.get_set_self hu
    cases v.readable
    case true =>
      simp only [pipeEnds, if_true, hvq, List.nil_append, hwq]
      refine wlp_pipeTransfer hne hgh fun ret a b y z ha hb hy hz => ?_
      obtain rfl := Option.some_inj.mp (hgetp.symm.trans ha)
      exact hs.transferred hu hrun hv hvq hgh hw hhead hb hy hz
    case false =>
      simp only [pipeEnds, Bool.false_eq_true, if_false, hvq, List.nil_append, hwq]
      refine wlp_pipeTransfer hne.symm hgh fun ret b a y z hb ha hy hz => ?_
      obtain rfl := Option.some_inj.mp (hgetp.symm.trans ha)
      rw [Heap.set_comm hne.symm]
      exact hs.transferred hu hrun hv hvq hgh hw hhead hb hy hz

theorem pipeJoinqueue_rest {env : Env} {len : ℕ} (hs : Rest s) :
    wlp (pipeJoinqueue env h p len) (fun _ t => Rest t) s := by
  simp only [pipeJoinqueue, wlp_bind, wlp_getHandle, wlp_kassert]
  intro v hv _ hrw
  cases hsis : v.sister
  case none   => exact hs.respects firm_zero regsSavereturn_same
  case some g =>
    rw [wlp_bind]
    refine wlp_of_readonly pipeCheckQueue_readonly fun _ => ?_
    rw [wlp_bind, wlp_procSetstate_waiting rfl]
    intro u hu hrun
    simp only [wlp_bind, wlp_setHandle, wlp_get, wlp_updProc, wlp_emit, State.withHandles_procs, State.withProcs_procs]
    intro u' hu'
    obtain rfl := Option.some_inj.mp ((Heap.get_set_self hu).symm.trans hu')
    rw [Heap.set_set, ← hsis]
    exact pipeTrytransfer_rest (u := u) hs hu hrun hv hrw hsis

end Join

section Calls

variable {s : State} {p : Pid} {env : Env} {op : VfsOp} {hid offset : Int} {buf len : ℕ} {flags : Flags}

theorem simpleVfsop_rest (hs : Rest s) (hop : op = .READ ∨ op = .WRITE ∨ op = .GETSIZE) :
    wlp (simpleVfsop env op p hid buf len offset flags) (fun _ t => Rest t) s := by
  rw [simpleVfsop, wlp_bind]
  refine wlp_of_readonly procHandleGet_readonly fun o => ?_
  cases o
  case none   => exact sysReturn_rest hs
  case some h =>
    simp only [simpleVfsopHandle, wlp_bind, wlp_getHandle, wlp_ite]
    refine fun v hv => ⟨fun _ => sysReturn_rest hs, fun _ => ⟨fun _ => sysReturn_rest hs, fun hw =>
      ⟨fun ht => ?_, fun _ => ⟨fun _ => pipeJoinqueue_rest hs, fun _ => sysReturn_rest hs⟩⟩⟩⟩
    refine simpleVfsopReq_rest hs hv ht (hop.imp_right (.imp_left fun h => ⟨h, ?_⟩))
    by_contra hn
    exact hw ⟨h, hn⟩

theorem sysWrite_rest (hs : Rest s) : wlp (sysWrite env p hid buf len offset flags) (fun _ t => Rest t) s :=
  wlp_ite.mpr ⟨fun _ => sysReturn_rest hs, fun _ => simpleVfsop_rest hs (.inr (.inl rfl))⟩

end Calls
end Camellia
