import Camellia.Kernel.Calm
import Camellia.Kernel.Refdown

namespace Camellia

-- How a request gets from its caller to its driver.

-- The references which have to be there whatever the kernel is in the middle of.
def Ref.firm : Ref → Bool
  | .caller _ _ | .handler _ _ | .pipe _ _ | .place _ => true
  | _                                                 => false

structure Sane (s : State) : Prop where
  ok   : Ok s
  firm : ∀ x, x.firm → 0 ≤ s.balance x

section Sane

variable {s t : State} {d : Balance}

theorem Ref.firm_of_waits {x : Ref} (hx : x.waits) : x.firm := by
  cases x <;> first | rfl | contradiction

theorem Sane.waits (hs : Sane s) : s.Waits :=
  fun x hx => hs.firm x (Ref.firm_of_waits hx)

theorem Sane.placed (hs : Sane s) : s.Placed :=
  fun r => hs.firm (.place r) rfl

theorem Did.sane (h : Did s d t) (hs : Sane s) (hd : ∀ x, x.firm → 0 ≤ d x) : Sane t := by
  refine ⟨h.ok, fun x hx => ?_⟩
  rw [h.balance, Pi.add_apply]
  exact add_nonneg (hs.firm x hx) (hd x hx)

theorem one_nonneg {x y : Ref} : 0 ≤ one x y := by
  rw [one_apply]
  split_ifs <;> decide

theorem optRef_nonneg {f : ℕ → Ref} {o : Option ℕ} {x : Ref} : 0 ≤ optRef f o x := by
  cases o
  case none   => exact le_rfl
  case some i => exact one_nonneg

-- What is no firm reference does not matter.
theorem one_firm {x y : Ref} (hy : y.firm = false) (hx : x.firm) : one y x = 0 := by
  rw [one_apply, if_neg]
  rintro rfl
  rw [hx] at hy
  contradiction

theorem optRef_firm {f : ℕ → Ref} {o : Option ℕ} {x : Ref} (hf : ∀ i, (f i).firm = false) (hx : x.firm) :
    optRef f o x = 0 := by
  cases o
  case none   => rfl
  case some i => exact one_firm (hf i) hx

end Sane

-- What `vfsreq_finish_short` does to a request which is in flight.
def Finishes (finish : Rid → Int → K Unit) : Prop :=
  ∀ s r ret, Sane s → s.Pending r → wlp (finish r ret) (fun _ t => Did s (-one (.place r)) t) s

section Accept

variable {s : State} {p : Pid} {b : Bid} {r : Rid} {v : VfsBackend} {w : VfsReq} {env : Env}
variable {finish : Rid → Int → K Unit}

-- Nobody handles the requests of the backend anymore.
def State.dismiss (s : State) (b : Bid) (v : VfsBackend) : State :=
  s.withBackends (s.backends.set b { v with access := .user none })

theorem ok_dismiss (hs : Ok s) (hv : s.backends.get b = some v) (hq : v.queue = []) : Ok (s.dismiss b v) :=
  ok_setBackend hs hv (fun h => ⟨h, rfl⟩) (List.Subset.refl _) (fun h => absurd hq h) fun _ => rfl

-- The handle by which a process answers a request.
theorem ok_allocReqHandle (hs : Ok s) :
    Ok (s.withHandles (s.handles.alloc { type := .fsReq, req := some r })) := by
  have halloc : Ok (s.withHandles (s.handles.alloc { type := .fsReq })) :=
    ok_allocHandle hs rfl rfl rfl fun _ h => by contradiction
  have hget : (s.handles.alloc { type := .fsReq }).get s.handles.size = some { type := .fsReq } := Heap.get_alloc_self
  have hset := ok_setHandle (w := { type := .fsReq, req := some r }) halloc hget rfl (fun h => by contradiction)
    (fun _ => rfl) (halloc.pipes_set hget rfl rfl rfl rfl rfl fun h => by contradiction)
  rwa [State.withHandles_handles, Heap.set_alloc] at hset

theorem procFindFreeHandle_free {table : Table} {start : Int} {i : Fin HANDLE_MAX}
    (h : procFindFreeHandle table start = some i) : table i = none := by
  have := List.find?_some (p := fun i : Fin HANDLE_MAX => start ≤ (i : ℕ) ∧ table i = none) h
  exact (of_decide_eq_true this).2

-- What was logged before does not matter.
theorem Did.emitted {t : State} {d : Balance} {e : Event} (he : e.weight = 0)
    (ht : Did (s.withLog (s.log ++ [e])) d t) : Did s d t :=
  have hneat : Neat s (s.withLog (s.log ++ [e])) := neat_of_eq rfl rfl rfl
  ⟨kept_emit.trans ht.kept, ht.ok, by rw [ht.balance, balance_emit, he, add_zero], hneat.trans ht.neat⟩

theorem userAcceptHandle_did (hs : Ok (s.dismiss b v)) (hw : s.Waits) (hv : s.backends.get b = some v)
    (ha : v.access = .user (some p)) :
    wlp (userAcceptHandle b r p) (fun _ t => Did s (-one (.place r)) t) s := by
  have hh : v.access.handler = some p := by rw [ha]; rfl
  obtain ⟨u, hu, hst, hc⟩ := hw.handler hv hh
  simp only [userAcceptHandle, wlp_bind]
  refine wlp_procHandleInit.mpr fun u' i table hu' hi htable => ?_
  obtain rfl := Option.some_inj.mp (hu.symm.trans hu')
  cases hslot : procFindFreeHandle table 1
  case none => exact wlp_throw.mpr trivial
  case some j =>
    have hfree := procFindFreeHandle_free hslot
    simp only [Option.elim_some, wlp_bind, wlp_updHandle, wlp_procSetstate_running, wlp_regsSavereturn,
      wlp_updBackend, State.withTables_handles, State.withHandles_handles, State.withHandles_procs,
      State.withTables_procs, State.withProcs_procs, State.withProcs_backends, State.withHandles_backends,
      State.withTables_backends, Heap.get_alloc_self, Heap.set_alloc, hu, hv, Option.some_inj]
    rintro _ rfl _ rfl _ x hx _ rfl
    rw [Heap.get_set_self hu, Option.some_inj] at hx
    subst hx
    rw [Heap.set_set]
    let T := s.tables.set i (Function.update table j (some s.handles.size))
    let H := s.handles.alloc { type := .fsReq, req := some r }
    let B := s.backends.set b { v with access := .user none }
    let P := s.procs.set p { u with state := .running, rax := (j : ℕ) }
    change Did s _ ((((s.withTables T).withHandles H).withBackends B).withProcs P)
    refine ⟨?_, ?_, ?_, (neat_setBackend (w := { v with access := .user none }) hv id id).trans (neat_of_eq rfl rfl rfl)⟩
    · have hserved : s.Served p := .inl ⟨b, v, hv, hh⟩
      have htables : Kept s (s.withTables T) := kept_setTable htable (.inr ⟨p, u, hu, hi, hserved⟩)
      have hhandles := htables.trans (kept_allocHandle (w := { type := .fsReq, req := some r }) Nat.one_ne_zero)
      have hback := hhandles.trans (kept_setBackend (w := { v with access := .user none }) hv
        ⟨rfl, by simp [VfsBackend.isUser, ha], .inr rfl⟩)
      exact hback.trans (kept_setProc hu ⟨rfl, .inr ⟨rfl, .inr (.inl hst)⟩⟩)
    · have hhandles : Ok ((s.withHandles H).withBackends B) := ok_allocReqHandle hs
      exact ok_setProc (ok_withTables (h := T) hhandles) hu rfl
    · have huser : ({ v with access := .user none } : VfsBackend).isUser = v.isUser := by
        rw [VfsBackend.isUser, VfsBackend.isUser, ha]
      have hwake : ({ u with state := .running, rax := (j : ℕ) } : Proc).weight p - u.weight p = -one (.handler p b) := by
        have hwaits : u.waits p = one (.handler p b) := by rw [Proc.waits, hst, hc]; rfl
        rw [← hwaits]
        exact Proc.weight_wake (by rw [hst]; rfl)
      simp only [balance_withProcs, balance_withBackends, balance_withHandles, balance_withTables,
        State.withBackends_procs, State.withHandles_procs, State.withTables_procs, State.withHandles_backends,
        State.withTables_backends, State.withTables_handles, P, B, H, T, Heap.total_set hv, Heap.total_set hu,
        Heap.total_set htable, Heap.total_alloc, add_sub_cancel_left, hwake, Table.weight_update, hfree]
      simp only [VfsBackend.weight, Handle.weight, huser, ha, Access.handler, optRef_some, optRef_none, List.map_nil,
        List.sum_nil]
      abel

theorem vfsBackendUserAccept_did (hs : Ok (s.dismiss b v)) (hw : s.Waits) (hv : s.backends.get b = some v)
    (ha : v.access = .user (some p)) (hr : s.reqs.get r = some w) (hb : w.backend = some b) :
    wlp (vfsBackendUserAccept env r) (fun _ t => Did s (-one (.place r)) t) s := by
  simp only [vfsBackendUserAccept, wlp_bind, wlp_getReq]
  intro w' hr'
  obtain rfl := Option.some_inj.mp (hr.symm.trans hr')
  simp only [hb, wlp_bind, wlp_getBackend]
  intro v' hv'
  obtain rfl := Option.some_inj.mp (hv.symm.trans hv')
  simp only [ha, wlp_bind, wlp_getProc, wlp_kassert]
  intro u _ _
  have hhandle {t : State} (ht : Ok (t.dismiss b v)) (hw : t.Waits) (hv : t.backends.get b = some v) :
      wlp (do
        if ¬env.resWritten p then
          throw (.panic .userAcceptResult)
        userAcceptHandle b r p) (fun _ u => Did t (-one (.place r)) u) t := by
    simp only [wlp_ite, wlp_bind, wlp_throw, implies_true, true_and]
    exact fun _ => userAcceptHandle_did ht hw hv ha
  refine wlp_userAcceptInput (hhandle hs hw hv) fun buf input room _ _ => ?_
  let e : Event := .given p room (input.take room)
  have he : Ok ((s.withLog (s.log ++ [e])).dismiss b v) := ok_emit hs rfl
  have hwaits : (s.withLog (s.log ++ [e])).Waits := by
    rw [State.Waits, balance_emit, show e.weight = 0 from rfl, add_zero]
    exact hw
  exact wlp_post (hhandle he hwaits hv) fun _ _ ht => ht.emitted rfl

theorem kernAccept_did (hf : Finishes finish) (hs : Sane s) (hr : s.Pending r) :
    wlp (kernAccept env finish r) (fun _ t => Did s (-one (.place r)) t) s := by
  simp only [kernAccept, wlp_bind, wlp_getReq]
  intro w _
  cases env.drv r w
  case some ret => exact hf s r ret hs hr
  case none     =>
    refine wlp_modify.mpr ⟨kept_withHeld (l := s.held ++ [r]), ok_withHeld hs.ok, balance_withHeld.trans ?_,
      neat_of_eq rfl rfl rfl⟩
    rw [List.map_append, List.sum_append, List.map_singleton, List.sum_singleton]
    abel

theorem Sendable.congr {t : State} (hm : Sendable s b w) (hl : t.log = s.log) (hh : t.handles = s.handles) :
    Sendable t b w where
  backend := hm.backend
  writes  := hl ▸ hm.writes
  opens   := hm.opens
  issues  := fun h ho => by
    have ⟨v, hv⟩ := hm.issues h ho
    exact ⟨v, hh ▸ hv.handle, hv.backend, hv.fileId, hv.open_ne, hv.used, hl ▸ hv.close⟩

-- The creation of the request does not matter either.
theorem Sendable.created {t : State} {m : VfsReq} (hm : Sendable s b w)
    (hl : t.log = s.log ++ [.created r m]) (hh : t.handles = s.handles) : Sendable t b w where
  backend := hm.backend
  writes  := fun h => hl ▸ (hm.writes h).append
  opens   := hm.opens
  issues  := fun h ho => by
    have ⟨v, hv⟩ := hm.issues h ho
    refine ⟨v, hh ▸ hv.handle, hv.backend, hv.fileId, hv.open_ne, hv.used, fun hc => ⟨(hv.close hc).1, ?_⟩⟩
    rw [hl]
    intro c id hopen
    rw [messages_silent rfl]
    exact (hv.close hc).2 c id (opened_silent rfl hopen)

-- A request is put into the queue of its backend.
def State.enqueue (s : State) (b : Bid) (v : VfsBackend) (r : Rid) (w : VfsReq) : State :=
  (s.withBackends (s.backends.set b { v with queue := v.queue ++ [r] })).withLog
    (s.log ++ [.enqueued b r w.message])

-- The first request is taken out of the queue.
def State.accept (s : State) (b : Bid) (v : VfsBackend) (r : Rid) (w : VfsReq) (queue : List Rid) : State :=
  (s.withBackends (s.backends.set b { v with queue := queue })).withLog (s.log ++ [.accepted b r w.message])

theorem accept_balance {q : List Rid} (hv : s.backends.get b = some v) (hq : v.queue = r :: q) :
    (s.accept b v r w q).balance = s.balance + one (.place r) := by
  have huser : ({ v with queue := q } : VfsBackend).isUser = v.isUser := rfl
  have hevent : (Event.accepted b r w.message).weight = 0 := rfl
  refine balance_emit.trans ?_
  rw [balance_setBackend hv, VfsBackend.weight, VfsBackend.weight, huser, hq, hevent, List.map_cons, List.sum_cons]
  abel

theorem accept_enqueue (hv : s.backends.get b = some v) (hq : v.queue = []) :
    (s.enqueue b v r w).accept b { v with queue := v.queue ++ [r] } r w [] =
      s.withLog (s.log ++ [.enqueued b r w.message] ++ [.accepted b r w.message]) := by
  have hset : (s.backends.set b { v with queue := v.queue ++ [r] }).set b { v with queue := [] } = s.backends := by
    rw [Heap.set_set, ← hq, Heap.set_get hv]
  change (s.withLog _).withBackends ((s.backends.set b { v with queue := v.queue ++ [r] }).set b { v with queue := [] }) = _
  rw [hset]
  rfl

-- A request goes through the queue at once if somebody is there to handle it.
theorem ok_pass (hs : Ok s) (hv : s.backends.get b = some v) (hq : v.queue = []) (hp : v.provhcnt ≠ 0)
    (hr : s.reqs.get r = some w) (hpend : w.pending) (hm : Sendable s b w) :
    Ok (s.withLog (s.log ++ [.enqueued b r w.message] ++ [.accepted b r w.message])) := by
  have hdismiss := ok_dismiss hs hv hq
  have hget : (s.dismiss b v).backends.get b = some { v with access := .user none } := Heap.get_set_self hv
  have henq : Ok ((s.dismiss b v).enqueue b { v with access := .user none } r w) :=
    ok_enqueue hdismiss hget rfl hr (hm.congr rfl rfl)
  have hacc : Ok (((s.dismiss b v).enqueue b { v with access := .user none } r w).accept b
      { v with access := .user none, queue := v.queue ++ [r] } r w []) :=
    ok_accept henq (Heap.get_set_self hget) hp (congrArg (· ++ [r]) hq) hr hpend
  rw [accept_enqueue hget hq] at hacc
  have hback := ok_setBackend (w := v) hacc hget (fun h => ⟨h, rfl⟩) (List.Subset.refl _)
    (fun h => absurd hq h) (hs.reqs.idle b v hv)
  have hset : (s.backends.set b { v with access := .user none }).set b v = s.backends := by
    rw [Heap.set_set, Heap.set_get hv]
  change Ok ((s.withLog _).withBackends ((s.backends.set b { v with access := .user none }).set b v)) at hback
  rwa [hset] at hback

section Tryaccept

variable {q : List Rid} {Q : Unit → State → Prop} (hv : s.backends.get b = some v)

include hv

theorem wlp_tryaccept_none (ha : v.queue = [] ∨ v.access = .user none) (hq : Q () s) :
    wlp (vfsBackendTryaccept env finish b) Q s := by
  simp only [vfsBackendTryaccept, wlp_bind, wlp_getBackend]
  intro v' hv'
  obtain rfl := Option.some_inj.mp (hv.symm.trans hv')
  obtain ha | ha := ha
  · rw [ha]
    exact wlp_pure.mpr hq
  · rw [ha]
    cases v.queue <;> exact wlp_pure.mpr hq

variable (hq : v.queue = r :: q) (hr : s.reqs.get r = some w)

include hq hr

theorem wlp_tryaccept_user (ha : v.access = .user (some p))
    (h : wlp (vfsBackendUserAccept env r) Q (s.accept b v r w q)) : wlp (vfsBackendTryaccept env finish b) Q s := by
  simp only [vfsBackendTryaccept, wlp_bind, wlp_getBackend]
  intro v' hv'
  obtain rfl := Option.some_inj.mp (hv.symm.trans hv')
  rw [hq, ha]
  simp only [wlp_bind, wlp_setBackend, wlp_getReq, wlp_emit]
  intro w' hr'
  obtain rfl := Option.some_inj.mp (hr.symm.trans hr')
  rw [← ha]
  exact h

theorem wlp_tryaccept_kern {o : Option Pid} (ha : v.access = .kern o)
    (h : wlp (kernAccept env finish r) Q (s.accept b v r w q)) : wlp (vfsBackendTryaccept env finish b) Q s := by
  simp only [vfsBackendTryaccept, wlp_bind, wlp_getBackend]
  intro v' hv'
  obtain rfl := Option.some_inj.mp (hv.symm.trans hv')
  rw [hq, ha]
  simp only [wlp_bind, wlp_setBackend, wlp_getReq, wlp_emit]
  intro w' hr'
  obtain rfl := Option.some_inj.mp (hr.symm.trans hr')
  rw [← ha]
  exact h

end Tryaccept

theorem kept_setQueue {q : List Rid} (hv : s.backends.get b = some v) :
    Kept s (s.withBackends (s.backends.set b { v with queue := q })) :=
  kept_setBackend hv ⟨rfl, rfl, .inl rfl⟩

-- The driver gets to know of a request, unless nobody provides the backend anymore.
def State.Told (t : State) (m : VfsReq) : Prop :=
  ∀ b, m.backend = some b → (∃ r, Event.enqueued b r m.message ∈ t.log) ∨
    ∀ v, t.backends.get b = some v → v.provhcnt = 0

theorem did_pass (hs : Sane s) (hv : s.backends.get b = some v) (hq : v.queue = []) (hp : v.provhcnt ≠ 0)
    (hr : s.reqs.get r = some w) (hpend : w.pending) (hm : Sendable s b w) :
    Did s 0 (s.withLog (s.log ++ [.enqueued b r w.message] ++ [.accepted b r w.message])) where
  kept    := kept_emit.trans kept_emit
  ok      := ok_pass hs.ok hv hq hp hr hpend hm
  neat    := neat_of_eq rfl rfl rfl
  balance := by
    have henq := balance_emit (s := s) (e := .enqueued b r w.message)
    exact balance_emit.trans (congrArg (· + _) (henq.trans (add_zero _)))

theorem did_enqueue (hs : Sane s) (hv : s.backends.get b = some v) (ha : v.access = .user none) (hp : v.provhcnt ≠ 0)
    (hr : s.reqs.get r = some w) (hm : Sendable s b w) :
    Did s (-one (.place r)) (s.enqueue b v r w) where
  kept    := (kept_setQueue hv).trans kept_emit
  ok      := ok_enqueue hs.ok hv ha hr hm
  neat    := (neat_setBackend (w := { v with queue := v.queue ++ [r] }) hv id fun h => absurd h.1 hp).trans
    (neat_of_eq rfl rfl rfl)
  balance := by
    have huser : ({ v with queue := v.queue ++ [r] } : VfsBackend).isUser = v.isUser := rfl
    have hevent : (Event.enqueued b r w.message).weight = 0 := rfl
    refine balance_emit.trans ?_
    rw [balance_setBackend hv, VfsBackend.weight, VfsBackend.weight, huser, List.map_append, List.sum_append,
      List.map_singleton, List.sum_singleton, hevent]
    abel

theorem vfsreqEnqueue_did (hf : Finishes finish) (hs : Sane s) (hr : s.reqs.get r = some w) (hpend : w.pending)
    (hm : ∀ b, w.backend = some b → Sendable s b w) :
    wlp (vfsreqEnqueue env finish r w.backend) (fun _ t => Did s (-one (.place r)) t ∧ t.Told w) s := by
  cases hb : w.backend
  case none =>
    refine wlp_post (hf s r (-1) hs ⟨w, hr, hpend⟩) fun _ t ht => ⟨ht, fun b h => ?_⟩
    rw [hb] at h
    contradiction
  case some b =>
    have htold (t : State) (h : (∃ r, Event.enqueued b r w.message ∈ t.log) ∨
        ∀ v, t.backends.get b = some v → v.provhcnt = 0) : t.Told w := by
      intro c hc
      obtain rfl := Option.some_inj.mp (hb.symm.trans hc)
      exact h
    simp only [vfsreqEnqueue, wlp_bind, wlp_getBackend, wlp_ite]
    refine fun v hv => ⟨fun hp => ?_, fun hp => ?_⟩
    case refine_2 =>
      refine wlp_post (hf s r (-1) hs ⟨w, hr, hpend⟩) fun _ t ht => ⟨ht, htold t (.inr fun x hx => ?_)⟩
      obtain ⟨v', hv', hk⟩ := ht.kept.backends.get b (Heap.lt_size hv) x hx
      obtain rfl := Option.some_inj.mp (hv.symm.trans hv')
      rw [hk.provhcnt]
      exact not_not.mp hp
    case refine_1 =>
      simp only [wlp_setBackend, wlp_getReq, wlp_emit]
      intro w' hr'
      obtain rfl := Option.some_inj.mp (hr.symm.trans hr')
      change wlp _ _ (s.enqueue b v r w)
      have hx : (s.enqueue b v r w).backends.get b = some { v with queue := v.queue ++ [r] } := Heap.get_set_self hv
      by_cases ha : v.access = .user none
      case pos =>
        have henq := did_enqueue hs hv ha hp hr (hm b hb)
        exact wlp_tryaccept_none hx (.inr ha) ⟨henq, htold _ (.inl ⟨r, by simp [State.enqueue]⟩)⟩
      case neg =>
        have hq : v.queue = [] := not_not.mp fun hn => ha (hs.ok.reqs.excl b v hv hn)
        have hqx : v.queue ++ [r] = r :: [] := congrArg (· ++ [r]) hq
        let u := s.withLog (s.log ++ [.enqueued b r w.message] ++ [.accepted b r w.message])
        have hu := accept_enqueue (r := r) (w := w) hv hq
        have hpass : Did s 0 u := did_pass hs hv hq hp hr hpend (hm b hb)
        have hsane := hpass.sane hs fun _ _ => le_rfl
        have hend (t : State) (ht : Did u (-one (.place r)) t) : Did s (-one (.place r)) t ∧ t.Told w :=
          ⟨(hpass.trans ht).congr (zero_add _), htold t (.inl ⟨r, ht.kept.log.subset (by simp [u])⟩)⟩
        obtain ⟨p, hacc⟩ | ⟨o, hacc⟩ : (∃ p, v.access = .user (some p)) ∨ ∃ o, v.access = .kern o := by
          cases hacc : v.access
          case kern o => exact .inr ⟨o, rfl⟩
          case user o =>
            cases o
            case none   => exact absurd hacc ha
            case some p => exact .inl ⟨p, rfl⟩
        · refine wlp_tryaccept_user hx hqx hr hacc ?_
          rw [hu]
          have hdismiss : Ok (u.dismiss b v) := ok_dismiss hsane.ok hv hq
          exact wlp_post (vfsBackendUserAccept_did hdismiss hsane.waits hv hacc hr hb) fun _ => hend
        · refine wlp_tryaccept_kern hx hqx hr hacc ?_
          rw [hu]
          exact wlp_post (kernAccept_did hf hsane ⟨w, hr, hpend⟩) fun _ => hend

end Accept

section Create

variable {s : State} {r : Rid} {v : VfsBackend} {w : VfsReq} {env : Env} {finish : Rid → Int → K Unit}

-- The part of `vfsreq_create` after the request was stored.
def vfsreqSend (env : Env) (finish : Rid → Int → K Unit) (r : Rid) (req : VfsReq) : K Unit := do
  vfsreqUse req.backend
  if req.type = .OPEN ∧ openInvalid req.flags then
    finish r (-EINVAL)
  else
    vfsreqEnqueue env finish r req.backend

theorem vfsreqCreate_eq : vfsreqCreate env finish w = (do
    let r ← vfsreqStore w
    emit (.created r w.message)
    vfsreqSend env finish r w) :=
  rfl

theorem vfsreqUse_did {o : Option Bid} (hs : Ok s) :
    wlp (vfsreqUse o) (fun _ t => Did s (optRef .use o) t ∧ t.reqs = s.reqs ∧ t.log = s.log ∧ t.handles = s.handles)
      s := by
  cases o
  case none   => exact wlp_pure.mpr ⟨.refl hs, rfl, rfl, rfl⟩
  case some b =>
    simp only [vfsreqUse, wlp_bind, wlp_getBackend, wlp_kassert, wlp_setBackend]
    intro v hv _
    have huser : ({ v with usehcnt := v.usehcnt + 1 } : VfsBackend).isUser = v.isUser := rfl
    have h := did_setBackend (w := { v with usehcnt := v.usehcnt + 1 }) hs hv ⟨rfl, rfl, .inl rfl⟩ (.inl rfl)
      (hs.reqs.excl b v hv) (fun h => absurd h (Nat.succ_ne_zero _)) fun h => absurd h.1 (Nat.succ_ne_zero _)
    refine ⟨h.congr ?_, rfl, rfl, rfl⟩
    rw [VfsBackend.weight, VfsBackend.weight, huser, succ_nsmul, optRef_some]
    abel

theorem vfsreqSend_did (hf : Finishes finish) (hs : Sane s) (hr : s.reqs.get r = some w) (hpend : w.pending)
    (hm : ∀ b, w.backend = some b → (w.type = .OPEN → ¬openInvalid w.flags) → Sendable s b w) :
    wlp (vfsreqSend env finish r w)
      (fun _ t => Did s (optRef .use w.backend - one (.place r)) t ∧ (w.type ≠ .OPEN → t.Told w)) s := by
  rw [vfsreqSend, wlp_bind]
  refine wlp_post (vfsreqUse_did hs.ok) fun _ t hx => ?_
  obtain ⟨ht, hreqs, hlog, hhandles⟩ := hx
  have hsane := ht.sane hs fun x hx => (optRef_firm (fun _ => rfl) hx).ge
  have hget : t.reqs.get r = some w := hreqs ▸ hr
  have hsum : optRef Ref.use w.backend + -one (.place r) = optRef .use w.backend - one (.place r) :=
    (sub_eq_add_neg _ _).symm
  refine wlp_ite.mpr ⟨fun hopen => ?_, fun hopen => ?_⟩
  · refine wlp_post (hf t r _ hsane ⟨w, hget, hpend⟩) fun _ u hu => ?_
    exact ⟨(ht.trans hu).congr hsum, fun hn => absurd hopen.1 hn⟩
  · have hsend (b : Bid) (hb : w.backend = some b) : Sendable t b w :=
      (hm b hb fun ho hi => hopen ⟨ho, hi⟩).congr hlog hhandles
    refine wlp_post (vfsreqEnqueue_did hf hsane hget hpend hsend) fun _ u hx => ?_
    obtain ⟨hu, htold⟩ := hx
    exact ⟨(ht.trans hu).congr hsum, fun _ => htold⟩

-- The kernel sends a request on its own behalf.
theorem did_create (hs : Ok s) (hc : w.caller = none) (hpend : w.pending) (ho : w.type ≠ .OPEN)
    (hbuf : w.input.buf = none) :
    Did s (one (.place s.reqs.size) - optRef .use w.backend)
      ((s.withReqs (s.reqs.alloc w)).withLog (s.log ++ [.created s.reqs.size w.message])) where
  kept    := (kept_allocReq hc).trans kept_emit
  neat    := {
    backends := fun _ x hx hl => ⟨x, hx, hl⟩
    mounts   := fun _ x hx hl => ⟨x, hx, hl⟩
    reqs     := Heap.forall_alloc (fun hl => absurd hl (VfsReq.not_lost hpend)) fun _ x _ hx hl => ⟨x, hx, hl⟩
    queues   := fun _ x hx hl => ⟨x, hx, hl⟩ }
  ok      := by
    refine ok_allocReq hs ⟨fun n hn => ?_, fun h => absurd h ho, fun _ => by simp⟩
    rw [hbuf] at hn
    contradiction
  balance := by
    refine balance_emit.trans ?_
    rw [balance_allocReq, VfsReq.weight, if_pos hpend, hbuf, hc, Event.weight]
    simp only [optRef_none]
    abel

theorem vfsreqCreate_did (hf : Finishes finish) (hs : Sane s) (hc : w.caller = none) (hpend : w.pending)
    (ho : w.type ≠ .OPEN) (hbuf : w.input.buf = none) (hm : ∀ b, w.backend = some b → Sendable s b w) :
    wlp (vfsreqCreate env finish w) (fun _ t => Did s 0 t ∧ t.Told w) s := by
  rw [vfsreqCreate_eq, wlp_bind, vfsreqStore, hc]
  simp only [wlp_allocReq, wlp_bind, wlp_emit]
  have h := did_create hs.ok hc hpend ho hbuf
  have hsane := h.sane hs fun x hx => by
    rw [Pi.sub_apply, optRef_firm (fun _ => rfl) hx, sub_zero]
    exact one_nonneg
  refine wlp_post (vfsreqSend_did hf hsane Heap.get_alloc_self hpend fun b hb _ => (hm b hb).created rfl rfl)
    fun _ t hx => ?_
  obtain ⟨ht, htold⟩ := hx
  exact ⟨(h.trans ht).congr (by abel), htold ho⟩

end Create
end Camellia
