import Camellia.Kernel.Byid
import Camellia.Kernel.Telling

namespace Camellia

section Mute

-- What may happen to a process while nobody is told anything about a child.
structure Proc.Mute (v w : Proc) : Prop where
  eq    : w = { v with
    state           := w.state
    awaitedMaxLen   := w.awaitedMaxLen
    waitsPipe       := w.waitsPipe
    waitsLen        := w.waitsLen
    waitsSince      := w.waitsSince
    goal            := w.goal
    child           := w.child
    pagesRefcount   := w.pagesRefcount
    mount           := w.mount
    handles         := w.handles
    handlesRefcount := w.handlesRefcount
    refcount        := w.refcount
    nextlid         := w.nextlid
    reqslot         := w.reqslot
    controlled      := w.controlled
    rax             := w.rax }
  state : w.state = v.state ∨
    v.state.active ∧ v.state ≠ .waits4childdeath ∧ w.state.active ∧ w.state ≠ .waits4childdeath

structure Mute (s t : State) : Prop where
  reports : t.reports = s.reports
  procs   : s.procs.Related Proc.Mute t.procs

variable {s t : State} {p : Pid} {v w x : Proc}

theorem Proc.Mute.refl (v : Proc) : v.Mute v :=
  ⟨rfl, .inl rfl⟩

theorem Proc.Mute.trans (h₁ : v.Mute w) (h₂ : w.Mute x) : v.Mute x := by
  refine ⟨by rw [h₂.eq, h₁.eq], ?_⟩
  have := h₁.state
  have := h₂.state
  grind

theorem Proc.Mute.waits (h : v.Mute w) : w.state = .waits4childdeath ↔ v.state = .waits4childdeath := by
  have := h.state
  grind

theorem Proc.Mute.active (h : v.Mute w) : w.state.active = v.state.active := by
  obtain h | ⟨hv, _, hw, _⟩ := h.state
  · rw [h]
  · rw [hv, hw]

instance : IsPreorder State Mute where
  refl _ := ⟨rfl, .refl .refl⟩
  trans _ _ _ h₁ h₂ := ⟨h₂.reports.trans h₁.reports, h₁.procs.trans (fun _ _ _ => .trans) h₂.procs⟩

theorem Calm.mute (h : Calm s t) : Mute s t := by
  refine ⟨h.reports, h.procs.mono fun v w hk => ⟨?_, hk.state⟩⟩
  rw [hk.eq]

theorem respects_mute {x : K α} (h : Respects Calm x) : Respects Mute x :=
  fun s => wlp_post (h s) fun _ _ => Calm.mute

theorem mute_of_eq (hp : t.procs = s.procs) (hr : t.reports = s.reports) : Mute s t :=
  ⟨hr, hp ▸ .refl .refl⟩

theorem mute_setProc (hv : s.procs.get p = some v) (hk : v.Mute w) :
    Mute s (s.withProcs (s.procs.set p w)) :=
  ⟨rfl, .set .refl hv hk⟩

theorem procKillHandles_mute {env : Env} : Respects Mute (procKillHandles env p) := by
  have hunref {o : Option Cid} : Respects Mute (unref o) := by
    intro s
    refine wlp_post unref_spec fun _ t ht => ?_
    obtain ⟨counts, rfl⟩ := ht.eq
    exact mute_of_eq rfl rfl
  have htable : Respects Mute (procKillTable env p) := by
    intro s
    refine wlp_post procKillTable_spec ?_
    rintro _ _ ⟨u, i, w, hu, _, _, rfl⟩
    have hfree : Mute u (u.withTables (u.tables.free i)) := mute_of_eq rfl rfl
    exact trans_of Mute hu.mute hfree
  have hnone : Respects Mute (updProc p ({ · with handles := none })) := by
    intro s
    rw [wlp_updProc]
    exact fun v hv => mute_setProc hv ⟨rfl, .inl rfl⟩
  exact .bind getProc_respects fun _ => .bind hunref fun _ => .ite (.bind htable fun _ => hnone) hnone

theorem timerSchedule_mute {goal : ℕ} : Respects Mute (timerSchedule p goal) := by
  intro s
  simp only [timerSchedule, wlp_bind]
  rw [wlp_procSetstate_waiting rfl]
  intro v hv hs
  have hset : Mute s (s.withProcs (s.procs.set p { v with state := .waits4timer })) := by
    refine mute_setProc hv ⟨rfl, .inr ?_⟩
    simp [hs, PState.active]
  have hgoal : Respects Mute (updProc p ({ · with goal := goal })) := by
    intro s
    rw [wlp_updProc]
    exact fun v hv => mute_setProc hv ⟨rfl, .inl rfl⟩
  refine wlp_post (wlp_of_respects hset hgoal) fun _ t ht => ?_
  rw [wlp_get]
  refine wlp_post timerInsert_perm ?_
  rintro l u ⟨rfl, _⟩
  rw [wlp_modify]
  have hl : Mute u { u with scheduled := l } := mute_of_eq rfl rfl
  exact trans_of Mute ht hl

-- The others when a process is born.
theorem Born.mute {flags : Flags} {c q : Pid} (hb : Born s p flags c t) (hw : t.procs.get q = some w)
    (hq : q ≠ c) : ∃ v, s.procs.get q = some v ∧ v.Mute w := by
  cases hv : s.procs.get q
  case none =>
    rw [hb.old q hq hv] at hw
    contradiction
  case some v =>
    obtain ⟨w', x, hw', hx, heq⟩ := hb.procs q v hv
    obtain rfl := Option.some_inj.mp (hw.symm.trans hw')
    refine ⟨v, rfl, ?_, .inl ?_⟩ <;> rw [heq, hx.eq]

end Mute

-- The process which an entry kills, and its exit status.
def Entry.dooms : Entry → Option (Pid × Int)
  | .kill p ret            => some (p, ret)
  | .syscall p (.exit ret) => some (p, ret)
  | _                      => none

-- The process is dead with this status, or it lives and is killed with this status.
def Doomed (e : Entry) (p : Pid) (v : Proc) (status : Int) : Prop :=
  v.state.active = false ∧ v.deathMsg = status ∨ v.state.alive ∧ e.dooms = some (p, status)

-- The process waits for a child with the id `n`, or for any child if it is 0.
def Asks (e : Entry) (p : Pid) (v : Proc) (n out : ℕ) : Prop :=
  v.state = .waits4childdeath ∧ v.awaitedPid = n ∧ v.awaitedOut = out ∨
    ∃ pid, e = .syscall p (.wait2 pid 0 out) ∧ n = pid.toNat

-- What may become of a process which exists already.
structure Proc.Fate (e : Entry) (p : Pid) (v w : Proc) : Prop where
  parent : w.parent = v.parent
  noreap : v.noreap → w.noreap
  waits  : w.state = .waits4childdeath → Asks e p v w.awaitedPid w.awaitedOut
  dead   : w.state.active = false → Doomed e p v w.deathMsg

structure Newborn (s : State) (e : Entry) (c : Pid) (w : Proc) : Prop where
  fresh : c = s.procs.size
  entry : ∃ p flags, e = .syscall p (.fork flags) ∧ w.parent = some p ∧
    (w.noreap = false → flags.has FORK_NOREAP = false)
  waits : w.state ≠ .waits4childdeath
  dead  : w.state.active = false → w.noreap

def Fate (s : State) (e : Entry) (p : Pid) (w : Proc) : Prop :=
  (∃ v, s.procs.get p = some v ∧ v.Fate e p w) ∨ Newborn s e p w

section Fate

variable {s t m : State} {e : Entry} {p : Pid} {v w x : Proc}

theorem Proc.Fate.refl : v.Fate e p v :=
  ⟨rfl, id, fun h => .inl ⟨h, rfl, rfl⟩, fun h => .inl ⟨h, rfl⟩⟩

theorem Proc.Fate.mute (h : v.Fate e p w) (hk : w.Mute x) : v.Fate e p x where
  parent := by rw [← h.parent, hk.eq]
  noreap := fun hv => by rw [hk.eq, h.noreap hv]
  waits  := fun hx => by
    rw [hk.eq]
    exact h.waits (hk.waits.mp hx)
  dead   := fun hx => by
    rw [hk.eq]
    exact h.dead (hk.active ▸ hx)

theorem Proc.Fate.tells (h : v.Fate e p w) (hk : w.Tells x) : v.Fate e p x where
  parent := by rw [← h.parent, hk.eq]
  noreap := hk.noreap ∘ h.noreap
  waits  := fun hx => by
    rw [hk.eq]
    exact h.waits (hk.waits hx)
  dead   := fun hx => by
    rw [hk.eq]
    exact h.dead (hk.active ▸ hx)

theorem Newborn.mute (h : Newborn s e p w) (hk : w.Mute x) : Newborn s e p x where
  fresh := h.fresh
  entry := by
    rw [hk.eq]
    exact h.entry
  waits := fun hx => h.waits (hk.waits.mp hx)
  dead  := fun hx => by
    rw [hk.eq]
    exact h.dead (hk.active ▸ hx)

theorem Newborn.tells (h : Newborn s e p w) (hk : w.Tells x) : Newborn s e p x where
  fresh := h.fresh
  entry := by
    obtain ⟨q, flags, he, hp, hn⟩ := h.entry
    refine ⟨q, flags, he, by rw [← hp, hk.eq], fun hx => hn ?_⟩
    by_contra hw
    have := hk.noreap (by simpa using hw)
    rw [hx] at this
    contradiction
  waits := fun hx => h.waits (hk.waits hx)
  dead  := fun hx => hk.noreap (h.dead (hk.active ▸ hx))

theorem Fate.mute (h : Fate s e p w) (hk : w.Mute x) : Fate s e p x :=
  h.imp (fun ⟨v, hv, hf⟩ => ⟨v, hv, hf.mute hk⟩) (·.mute hk)

theorem Fate.tells (h : Fate s e p w) (hk : w.Tells x) : Fate s e p x :=
  h.imp (fun ⟨v, hv, hf⟩ => ⟨v, hv, hf.tells hk⟩) (·.tells hk)

-- What happens before anybody is told about a child.
structure Prelude (s : State) (e : Entry) (m : State) : Prop where
  reports : m.reports = s.reports
  size    : s.procs.size ≤ m.procs.size
  procs   : ∀ p w, m.procs.get p = some w → Fate s e p w
  names   : ∀ p v w, s.procs.get p = some v → m.procs.get p = some w →
    w.localid = v.localid ∧ w.pns = v.pns
  waits   : ∀ p v w, s.procs.get p = some v → v.state = .waits4childdeath →
    m.procs.get p = some w → w.state = .waits4childdeath ∨ w.state.active = false

theorem Prelude.refl (s : State) (e : Entry) : Prelude s e s where
  reports := rfl
  size    := le_rfl
  procs   := fun _ w hw => .inl ⟨w, hw, .refl⟩
  names   := fun _ _ _ hv hw => by
    obtain rfl := Option.some_inj.mp (hv.symm.trans hw)
    exact ⟨rfl, rfl⟩
  waits   := fun _ _ _ hv hs hw => by
    obtain rfl := Option.some_inj.mp (hv.symm.trans hw)
    exact .inl hs

theorem Prelude.mute (h : Prelude s e m) (hm : Mute m t) : Prelude s e t where
  reports := hm.reports.trans h.reports
  size    := h.size.trans hm.procs.size.ge
  procs   := fun p x hx => by
    have ⟨w, hw, hk⟩ := hm.procs.of_get' hx
    exact (h.procs p w hw).mute hk
  names   := fun p v x hv hx => by
    have ⟨w, hw, hk⟩ := hm.procs.of_get' hx
    rw [hk.eq]
    exact h.names p v w hv hw
  waits   := fun p v x hv hs hx => by
    have ⟨w, hw, hk⟩ := hm.procs.of_get' hx
    rw [hk.waits, hk.active]
    exact h.waits p v w hv hs hw

theorem Prelude.setProc (h : Prelude s e m) (hw : m.procs.get p = some w) (hx : Fate s e p x)
    (hn : x.localid = w.localid ∧ x.pns = w.pns)
    (hs : w.state = .waits4childdeath ∨ w.state.active = false → x.state.active = false) :
    Prelude s e (m.withProcs (m.procs.set p x)) where
  reports := h.reports
  size    := h.size.trans Heap.size_set.ge
  procs   := fun q y hy => by
    rw [State.withProcs_procs, Heap.get_set hw] at hy
    by_cases hq : q = p
    case pos =>
      rw [if_pos hq, Option.some_inj] at hy
      exact hq ▸ hy ▸ hx
    case neg => exact h.procs q y (by simpa [hq] using hy)
  names   := fun q v y hv hy => by
    rw [State.withProcs_procs, Heap.get_set hw] at hy
    by_cases hq : q = p
    case pos =>
      rw [if_pos hq, Option.some_inj] at hy
      subst hy
      have := h.names p v w (hq ▸ hv) hw
      exact ⟨hn.1.trans this.1, hn.2.trans this.2⟩
    case neg => exact h.names q v y hv (by simpa [hq] using hy)
  waits   := fun q v y hv hr hy => by
    rw [State.withProcs_procs, Heap.get_set hw] at hy
    by_cases hq : q = p
    case pos =>
      rw [if_pos hq, Option.some_inj] at hy
      subst hy
      exact .inr (hs (h.waits p v w (hq ▸ hv) hr hw))
    case neg => exact h.waits q v y hv hr (by simpa [hq] using hy)

end Fate
-- A process is told about one of its children, which has just died or has died before.
structure Reported (s : State) (e : Entry) (t : State) (r : Report) : Prop where
  child : ∃ w v, s.procs.get r.parent = some w ∧ s.procs.get r.child = some v ∧
    v.parent = some r.parent ∧ v.noreap = false ∧ r.id = nsId w.pns r.child v ∧
    ∃ n out status, Asks e r.parent w n out ∧ (n = 0 ∨ n = r.id) ∧ Doomed e r.child v status ∧
      r.stored = if out = 0 then none else some (out, status)
  told  : t.returned r.parent = some (r.id : Int)
  done  : ∀ v, t.procs.get r.child = some v → v.noreap ∧ v.state.active = false

-- What the processes are told by one entry. The calls of `_sys_wait2` which return are the ones which
-- are told about a child, apart from those which fail.
structure Told (s : State) (e : Entry) (t : State) (rs : List Report) : Prop where
  reports  : t.reports = s.reports ++ rs
  size     : s.procs.size ≤ t.procs.size
  procs    : ∀ p w, t.procs.get p = some w → Fate s e p w
  reported : ∀ r ∈ rs, Reported s e t r
  parents  : (rs.map Report.parent).Nodup
  children : (rs.map Report.child).Nodup
  waits    : ∀ p v n, s.procs.get p = some v → v.state = .waits4childdeath →
    t.returned p = some n → ∃ r ∈ rs, r.parent = p
  answered : ∀ p pid flags out n, e = .syscall p (.wait2 pid flags out) → t.returned p = some n →
    n = -ENOSYS ∨ n = -ECHILD ∨ ∃ r ∈ rs, r.parent = p

section Told

variable {s t m : State} {env : Env} {e : Entry} {p : Pid} {v w : Proc} {rs : List Report} {n : Int}

theorem returned_eq_some : t.returned p = some n ↔
    ∃ w, t.procs.get p = some w ∧ w.state = .running ∧ w.rax = n := by
  cases hw : t.procs.get p <;> simp [State.returned, hw]

def Entry.isWait : Entry → Bool
  | .syscall _ (.wait2 _ _ _) => true
  | _                         => false

theorem answered_of_not_isWait (he : e.isWait = false) : ∀ p pid flags out (n : Int),
    e = .syscall p (.wait2 pid flags out) → t.returned p = some n →
    n = -ENOSYS ∨ n = -ECHILD ∨ ∃ r ∈ rs, r.parent = p := by
  rintro p pid flags out n rfl
  contradiction

theorem Prelude.told (h : Prelude s e m) (ht : Telling m rs t)
    (hans : ∀ p pid flags out n, e = .syscall p (.wait2 pid flags out) → t.returned p = some n →
      n = -ENOSYS ∨ n = -ECHILD ∨ ∃ r ∈ rs, r.parent = p) : Told s e t rs where
  reports  := h.reports ▸ ht.reports
  size     := h.size.trans ht.size.ge
  procs    := fun p x hx => by
    obtain ⟨w, hw, hk⟩ := ht.procs p x hx
    exact (h.procs p w hw).tells hk
  parents  := ht.parents
  children := ht.children
  answered := hans
  waits    := fun p v n hv hs hn => by
    obtain ⟨x, hx, hr, _⟩ := returned_eq_some.mp hn
    obtain ⟨w, hw, hk⟩ := ht.procs p x hx
    cases h.waits p v w hv hs hw
    case inl hwaits =>
      refine (ht.waits p w x hw hwaits hx).resolve_left fun h => ?_
      rw [hr] at h
      contradiction
    case inr hdead =>
      rw [← hk.active, hr] at hdead
      contradiction
  reported := fun r hr => by
    obtain ⟨w, v, hf⟩ := ht.fair r hr
    refine ⟨?_, ?_, fun x hx => ⟨hf.done x hx, ?_⟩⟩
    · -- Neither of the two processes is a new one.
      obtain ⟨w', hw', hfw⟩ | hnew := h.procs _ w hf.parent
      case inr => exact absurd hf.waits hnew.waits
      obtain ⟨v', hv', hfv⟩ | hnew := h.procs _ v hf.child
      case inr =>
        have := hnew.dead hf.dead
        rw [hf.noreap] at this
        contradiction
      have hnw := h.names _ w' w hw' hf.parent
      have hnv := h.names _ v' v hv' hf.child
      refine ⟨w', v', hw', hv', hfv.parent ▸ hf.family, ?_, ?_, _, _, _, hfw.waits hf.waits, hf.awaited,
        hfv.dead hf.dead, hf.stored⟩
      · by_contra hn
        have := hfv.noreap (by simpa using hn)
        rw [hf.noreap] at this
        contradiction
      · rw [hf.id, nsId, nsId, hnw.2, hnv.1]
    · obtain ⟨x, hx, hs, hrax⟩ := hf.told
      exact returned_eq_some.mpr ⟨x, hx, hs, hrax⟩
    · obtain ⟨y, hy, hk⟩ := ht.procs _ x hx
      obtain rfl := Option.some_inj.mp (hy.symm.trans hf.child)
      exact hk.active.trans hf.dead

theorem Mute.told (h : Mute s t) (he : e.isWait = false) : Told s e t [] :=
  ((Prelude.refl s e).mute h).told (.refl t) (answered_of_not_isWait he)

theorem Prelude.told_of_tells {x : K Unit} (hp : Prelude s e m) (h : Respects Tells x) (he : e.isWait = false) :
    wlp x (fun _ t => ∃ rs, Told s e t rs) m :=
  wlp_post (h m) fun _ _ ht => ht.imp fun _ hr => hp.told hr (answered_of_not_isWait he)

end Told

section Kill

variable {s t m : State} {env : Env} {e : Entry} {p : Pid} {v w : Proc} {ret : Int}

-- The process which is killed has the time until its death before anybody is told.
theorem procKill_told {R : Unit → State → Prop} (hm : Prelude s e m)
    (hdoom : ∀ w, m.procs.get p = some w → w.state.alive →
      ∀ a, Mute m a → ∀ x, a.procs.get p = some x → Fate s e p { x with state := .dying, deathMsg := ret })
    (hr : ∀ m' rs t, Prelude s e m' → Telling m' rs t → R () t) :
    wlp (procKill env p ret) R m := by
  have hend : Respects Tells (do
      procKillDying p
      if p = (← get).first then procKillFirst p else procTryreap p) := by
    have hfirst : Respects Tells (procKillFirst p) :=
      .bind procPruneLeaves_tells fun _ => .bind getProc_respects fun _ =>
        .ite (.bind respects_throw fun _ => respects_throw) respects_throw
    exact .bind procKillDying_tells fun _ => .bind respects_get fun _ => .ite hfirst procTryreap_tells
  have hbefore : Respects Mute (do
      procKillControlled p
      procKillReqslot p
      procKillPipe p
      procKillTimer p
      procKillHandles env p
      procKillMount p) :=
    .bind (respects_mute procKillControlled_calm) fun _ =>
    .bind (respects_mute procKillReqslot_calm) fun _ =>
    .bind (respects_mute procKillPipe_calm) fun _ =>
    .bind (respects_mute procKillTimer_calm) fun _ =>
    .bind procKillHandles_mute fun _ => respects_mute procKillMount_calm
  have hafter : Respects Tells (do
      procKillChildren ((← get).procs.size + 1) (← getProc p).child
      procKillPages p
      procKillDying p
      if p = (← get).first then procKillFirst p else procTryreap p) :=
    .bind respects_get fun _ => .bind getProc_respects fun _ => .bind procKillChildren_tells fun _ =>
      .bind procKillPages_tells fun _ => hend
  rw [procKill, wlp_bind, wlp_getProc]
  intro w hw
  by_cases ha : w.state.alive
  case neg =>
    rw [if_neg ha]
    exact wlp_post (hend m) fun _ t ht => hr m _ t hm ht.choose_spec
  case pos =>
    have hsplit : (do
        procKillAlive env p ret
        procKillDying p
        if p = (← get).first then procKillFirst p else procTryreap p : K Unit) = (do
        (do
          procKillControlled p
          procKillReqslot p
          procKillPipe p
          procKillTimer p
          procKillHandles env p
          procKillMount p)
        procSetstate p .dying
        updProc p ({ · with deathMsg := ret })
        procKillChildren ((← get).procs.size + 1) (← getProc p).child
        procKillPages p
        procKillDying p
        if p = (← get).first then procKillFirst p else procTryreap p) := by
      simp [procKillAlive]
    rw [if_pos ha, hsplit, wlp_bind]
    refine wlp_post (hbefore m) fun _ a hma => ?_
    rw [wlp_bind, wlp_procSetstate_dying]
    intro x hx _
    rw [wlp_bind, wlp_updProc]
    intro y hy
    obtain rfl := Option.some_inj.mp ((Heap.get_set_self hx).symm.trans hy)
    rw [State.withProcs_procs, Heap.set_set]
    have hdying : Prelude s e (a.withProcs (a.procs.set p { x with state := .dying, deathMsg := ret })) :=
      (hm.mute hma).setProc hx (hdoom w hw ha a hma x hx) ⟨rfl, rfl⟩ fun _ => rfl
    exact wlp_post (hafter _) fun _ t ht => hr _ _ t hdying ht.choose_spec

theorem procKill_dooms (he : e.dooms = some (p, ret)) (hw : e.isWait = false) :
    wlp (procKill env p ret) (fun _ t => ∃ rs, Told s e t rs) s := by
  refine procKill_told (.refl s e) (fun w hw ha a hma x hx => ?_) fun m rs t hm ht =>
    ⟨rs, hm.told ht (answered_of_not_isWait hw)⟩
  have ⟨w', hw', hk⟩ := hma.procs.of_get' hx
  obtain rfl := Option.some_inj.mp (hw.symm.trans hw')
  refine .inl ⟨w, hw, ?_, fun h => ?_, fun h => absurd h (by simp), fun _ => .inr ⟨ha, he⟩⟩
  · rw [hk.eq]
  · rw [hk.eq, h]

end Kill

section Fork

variable {s t : State} {env : Env} {p c : Pid} {flags : Flags} {rs : List Report} {v w : Proc}

theorem Born.prelude (hb : Born s p flags c t) : Prelude s (.syscall p (.fork flags)) t where
  reports := hb.reports
  size    := by
    rw [hb.size]
    exact Nat.le_succ _
  procs   := fun q w hw => by
    by_cases hq : q = c
    case neg =>
      have ⟨v, hv, hk⟩ := hb.mute hw hq
      exact .inl ⟨v, hv, Proc.Fate.refl.mute hk⟩
    case pos =>
      obtain ⟨_, x, _, _, hx, hc, hp, _⟩ := hb.child
      obtain rfl := Option.some_inj.mp ((hq ▸ hw).symm.trans hx)
      refine .inr ⟨hq.trans hb.fresh, ⟨p, flags, rfl, hp, fun h => hc.noreap ▸ h⟩, ?_, fun h => ?_⟩
      · simp [hc.state]
      · simp [hc.state, PState.active] at h
  names   := fun q v w hv hw => by
    have hq : q ≠ c := fun h => by
      rw [h, hb.fresh, Heap.get_size] at hv
      contradiction
    have ⟨v', hv', hk⟩ := hb.mute hw hq
    obtain rfl := Option.some_inj.mp (hv.symm.trans hv')
    exact ⟨by rw [hk.eq], by rw [hk.eq]⟩
  waits   := fun q v w hv hs hw => by
    have hq : q ≠ c := fun h => by
      rw [h, hb.fresh, Heap.get_size] at hv
      contradiction
    have ⟨v', hv', hk⟩ := hb.mute hw hq
    obtain rfl := Option.some_inj.mp (hv.symm.trans hv')
    exact .inl (hk.waits.mpr hs)

-- A process which was not told anything returns from another system call.
theorem Told.return {n : Int} (h : Told s (.syscall p (.fork flags)) t rs)
    (hp : s.procs.get p = some v) (hs : v.state = .running) :
    wlp (sysReturn p n) (fun _ u => Told s (.syscall p (.fork flags)) u rs) t := by
  simp only [sysReturn, wlp_bind, wlp_getProc, wlp_kassert, wlp_regsSavereturn]
  intro w hw _ w' hw'
  obtain rfl := Option.some_inj.mp (hw.symm.trans hw')
  have hmute : Mute t (t.withProcs (t.procs.set p { w with rax := n })) :=
    mute_setProc hw ⟨rfl, .inl rfl⟩
  refine ⟨h.reports, h.size.trans Heap.size_set.ge, fun q x hx => ?_, fun r hr => ?_, h.parents,
    h.children, fun q x k hx hwaits hk => ?_, answered_of_not_isWait rfl⟩
  · obtain ⟨y, hy, hk⟩ := hmute.procs.of_get' hx
    exact (h.procs q y hy).mute hk
  · have hne : r.parent ≠ p := fun heq => by
      obtain ⟨x, _, hx, _, _, _, _, _, _, _, hasks, _⟩ := (h.reported r hr).child
      obtain rfl := Option.some_inj.mp (hp.symm.trans (heq ▸ hx))
      obtain ⟨hwaits, _⟩ | ⟨_, h, _⟩ := hasks
      · rw [hs] at hwaits
        contradiction
      · cases h
    refine ⟨(h.reported r hr).child, ?_, fun x hx => ?_⟩
    · obtain ⟨x, hx, hr⟩ := returned_eq_some.mp (h.reported r hr).told
      exact returned_eq_some.mpr ⟨x, (Heap.get_set_ne hne).trans hx, hr⟩
    · obtain ⟨y, hy, hk⟩ := hmute.procs.of_get' hx
      have := (h.reported r hr).done y hy
      rw [hk.active, hk.eq]
      exact this
  · have hq : q ≠ p := fun heq => by
      obtain rfl := Option.some_inj.mp (hp.symm.trans (heq ▸ hx))
      rw [hs] at hwaits
      contradiction
    obtain ⟨y, hy, hk⟩ := returned_eq_some.mp hk
    exact h.waits q x k hx hwaits (returned_eq_some.mpr ⟨y, (Heap.get_set_ne hq).symm.trans hy, hk⟩)

-- If the child cannot be given its filesystem, then it is killed and nobody will ask for it.
theorem sysFork_told (hs : SharesOk s) :
    wlp (sysFork env p flags) (fun _ t => ∃ rs, Told s (.syscall p (.fork flags)) t rs) s := by
  have hret {c : Pid} : Respects Mute (do sysReturn p (← procNsId (← getProc p).pns c)) :=
    respects_mute <| .bind getProc_respects fun _ => .bind procNsId_calm fun _ => sysReturn_calm
  have hrest {c : Pid} {t u : State} (ok : Bool) (hb : Born s p flags c t) (hu : Mute t u) :
      wlp (if ok then do sysReturn p (← procNsId (← getProc p).pns c) else sysForkFail env p c)
        (fun _ x => ∃ rs, Told s (.syscall p (.fork flags)) x rs) u := by
    have hpre := hb.prelude.mute hu
    cases ok
    case true  =>
      refine wlp_post (hret u) fun _ x hx => ⟨[], ?_⟩
      exact (hpre.mute hx).told (.refl x) (answered_of_not_isWait rfl)
    case false =>
      simp only [sysForkFail, wlp_bind, wlp_updProc, Bool.false_eq_true, if_false]
      intro x hx
      obtain ⟨v, y, hv, hrun, hy, hc, hp, _⟩ := hb.child
      obtain ⟨y', hy', hk⟩ := hu.procs.of_get' hx
      obtain rfl := Option.some_inj.mp (hy.symm.trans hy')
      have hparent : x.parent = some p := by rw [hk.eq, hp]
      have hactive : x.state.active := by
        rw [hk.active, hc.state]
        rfl
      have hwaits : x.state ≠ .waits4childdeath := fun h => by
        rw [hk.waits, hc.state] at h
        contradiction
      have hset : Prelude s (.syscall p (.fork flags))
          (u.withProcs (u.procs.set c { x with noreap := true })) := by
        refine hpre.setProc hx (.inr ⟨hb.fresh, ⟨p, flags, rfl, hparent, ?_⟩, hwaits, fun _ => rfl⟩) ⟨rfl, rfl⟩ ?_
        all_goals simp [hwaits, hactive]
      refine procKill_told hset (fun w hw ha a hma z hz => ?_) fun m rs t hm ht => ?_
      · obtain ⟨w', hw', hkz⟩ := hma.procs.of_get' hz
        obtain rfl := Option.some_inj.mp ((Heap.get_set_self hx).symm.trans hw')
        have hnoreap : z.noreap := by rw [hkz.eq]
        refine .inr ⟨hb.fresh, ⟨p, flags, rfl, ?_, fun h => ?_⟩, by simp, fun _ => hnoreap⟩
        · rw [← hparent, hkz.eq]
        · rw [hnoreap] at h
          contradiction
      · exact wlp_post ((hm.told ht (answered_of_not_isWait rfl)).return hv hrun) fun _ u hu => ⟨rs, hu⟩
  simp only [sysFork, wlp_bind]
  refine wlp_post (procFork_spec hs) fun c t ⟨_, hb⟩ => ?_
  refine wlp_post (respects_mute regsSavereturn_calm t) fun _ u hu => ?_
  rw [wlp_ite]
  refine ⟨fun _ => ?_, fun _ => hrest true hb hu⟩
  rw [wlp_bind]
  exact wlp_post (respects_mute sysForkNewfs_calm u) fun ok x hx => hrest ok hb (trans_of Mute hu hx)

end Fork
section Namespace

-- A namespace is created.
structure Renames (s t : State) : Prop where
  reports : t.reports = s.reports
  procs   : s.procs.Related (fun v w =>
    w = { v with pns := w.pns, localid := w.localid, nextlid := w.nextlid }) t.procs

instance : IsPreorder State Renames where
  refl _ := ⟨rfl, .refl fun _ => rfl⟩
  trans _ _ _ h₁ h₂ :=
    ⟨h₂.reports.trans h₁.reports, h₁.procs.trans (fun _ _ _ h h' => by rw [h', h]) h₂.procs⟩

variable {s t : State} {p proc old it : Pid} {flags : Flags}

theorem updProc_renames {f : Proc → Proc}
    (hf : ∀ v, f v = { v with pns := (f v).pns, localid := (f v).localid, nextlid := (f v).nextlid }) :
    Respects Renames (updProc p f) := by
  intro s
  rw [wlp_updProc]
  exact fun v hv => ⟨rfl, .set (fun _ => rfl) hv (hf v)⟩

theorem procNsCreateVisit_renames : Respects Renames (procNsCreateVisit proc old it) := by
  have hlid : Respects Renames (procNsCreateLid proc it) :=
    .bind getProc_respects fun _ => .bind getProc_respects fun _ =>
      .ite (updProc_renames fun _ => rfl) respects_pure
  have hmove : Respects Renames (procNsCreateMove proc old it) :=
    .bind getProc_respects fun _ => .ite (updProc_renames fun _ => rfl) kassert_respects
  exact .ite (.bind hlid fun _ => hmove) respects_pure

theorem procNsCreate_renames : Respects Renames (procNsCreate proc) := by
  have hloop {old : Pid} {fuel : ℕ} {o : Option Pid} :
      Respects Renames (procNsCreateLoop proc old fuel o) := by
    induction fuel generalizing o
    case zero =>
      cases o
      case none    => exact respects_pure
      case some it => exact respects_throw
    case succ fuel hi =>
      cases o
      case none    => exact respects_pure
      case some it =>
        exact .bind procNsCreateVisit_renames fun _ =>
          .bind (respects_of_reads procNsCreateNext_reads) fun _ => hi
  have hinit : Respects Renames (procNsCreateInit proc) :=
    .bind (updProc_renames fun _ => rfl) fun _ => updProc_renames fun _ => rfl
  exact .bind getProc_respects fun _ =>
    .ite (.bind hinit fun _ => .bind respects_get fun _ => hloop) respects_pure

theorem Renames.told {u : State} {e : Entry} (h : Renames s t) (hm : Mute t u)
    (he : e.isWait = false) : Told s e u [] where
  reports  := by rw [hm.reports, h.reports, List.append_nil]
  size     := by rw [hm.procs.size, h.procs.size]
  procs    := fun p x hx => by
    have ⟨w, hw, hk⟩ := hm.procs.of_get' hx
    have ⟨v, hv, hk'⟩ := h.procs.of_get' hw
    refine Fate.mute (.inl ⟨v, hv, ?_, fun h => ?_, fun h => .inl ?_, fun h => .inl ?_⟩) hk
    all_goals rw [hk'] at *
    · exact h
    · exact ⟨h, rfl, rfl⟩
    · exact ⟨h, rfl⟩
  reported := fun _ h => absurd h List.not_mem_nil
  parents  := .nil
  children := .nil
  waits    := fun p v n hv hs hn => by
    obtain ⟨x, hx, hr, _⟩ := returned_eq_some.mp hn
    have ⟨w, hw, hk⟩ := hm.procs.of_get' hx
    have ⟨v', hv', hk'⟩ := h.procs.of_get' hw
    obtain rfl := Option.some_inj.mp (hv.symm.trans hv')
    have hwaits : x.state = .waits4childdeath := by rw [hk.waits, hk', hs]
    rw [hr] at hwaits
    contradiction
  answered := answered_of_not_isWait he

theorem sysGetprocfs_told :
    wlp (sysGetprocfs p flags) (fun _ t => Told s (.syscall p (.getprocfs flags)) t []) s := by
  have hret {n : Int} : Respects Calm (sysReturn p n) := sysReturn_calm
  rw [sysGetprocfs, wlp_ite]
  refine ⟨fun _ => wlp_post (hret s) fun _ t ht => ht.mute.told rfl, fun _ => ?_⟩
  rw [wlp_bind]
  refine wlp_post (procNsCreate_renames s) fun _ t ht => ?_
  exact wlp_post (procfsHandle_calm t) fun _ u hu => ht.told hu.mute rfl

end Namespace

section Wait

variable {s t : State} {p : Pid} {pid : Int} {flags : Flags} {out : ℕ} {v : Proc}

theorem waiting_prelude (pid : Int) (out : ℕ) (hv : s.procs.get p = some v) (hs : v.state = .running) :
    Prelude s (.syscall p (.wait2 pid 0 out)) (s.waiting p v pid out) := by
  refine (Prelude.refl s _).setProc hv (.inl ⟨v, hv, rfl, id, fun _ => .inr ⟨pid, rfl, rfl⟩, ?_⟩)
    ⟨rfl, rfl⟩ ?_
  all_goals simp [hs, PState.active]

-- Whoever calls `_sys_wait2` returns with an error or is told about a child.
theorem sysWait2_told :
    wlp (sysWait2 p pid flags out)
      (fun _ t => ∃ rs, Told s (.syscall p (.wait2 pid flags out)) t rs) s := by
  by_cases hflags : flags = 0
  case neg =>
    rw [sysWait2, if_pos hflags]
    simp only [sysReturn, wlp_bind, wlp_getProc, wlp_kassert, wlp_regsSavereturn]
    intro v hv _ w hw
    have hmute : Mute s (s.withProcs (s.procs.set p { w with rax := -ENOSYS })) :=
      mute_setProc hw ⟨rfl, .inl rfl⟩
    refine ⟨[], ((Prelude.refl s _).mute hmute).told (.refl _) ?_⟩
    rintro q pid flags out n he hn
    cases he
    obtain ⟨x, hx, _, rfl⟩ := returned_eq_some.mp hn
    obtain rfl := Option.some_inj.mp ((Heap.get_set_self hw).symm.trans hx)
    exact .inl rfl
  case pos =>
    subst hflags
    refine wlp_sysWait2 (fun h => absurd rfl h) fun v hv hrun _ => ?_
    refine wlp_post (sysWait2Loop_tells _) ?_
    rintro found u ⟨rs, hu⟩
    have hpre := waiting_prelude pid out hv hrun
    cases found
    case true  =>
      refine ⟨rs, hpre.told hu ?_⟩
      rintro q pid flags out n he hn
      cases he
      obtain ⟨x, hx, hr, _⟩ := returned_eq_some.mp hn
      refine .inr (.inr ((hu.waits p _ x (Heap.get_set_self hv) rfl hx).resolve_left fun h => ?_))
      rw [hr] at h
      contradiction
    case false =>
      have hset : Prelude s (.syscall p (.wait2 pid 0 out)) (s.withProcs (s.procs.set p
          { v with state := .running, awaitedPid := pid.toNat, awaitedOut := out, rax := -ECHILD })) := by
        refine (Prelude.refl s _).setProc hv (.inl ⟨v, hv, rfl, id, ?_, ?_⟩) ⟨rfl, rfl⟩ ?_
        all_goals simp [hrun, PState.active]
      refine ⟨[], hset.told (.refl _) ?_⟩
      rintro q pid flags out n he hn
      cases he
      obtain ⟨x, hx, _, rfl⟩ := returned_eq_some.mp hn
      obtain rfl := Option.some_inj.mp ((Heap.get_set_self hv).symm.trans hx)
      exact .inr (.inl rfl)

end Wait

section Step

variable {s t : State} {e : Entry}

theorem Step.told (h : Step s e t) (hs : SharesOk s) (htimer : TimerOk s) : ∃ rs, Told s e t rs := by
  refine h.of_wlp (R := fun t => ∃ rs, Told s e t rs) fun env => ?_
  have hcalm {x : K Unit} (hx : Respects Calm x) (he : e.isWait = false) :
      wlp x (fun _ t => ∃ rs, Told s e t rs) s :=
    wlp_post (hx s) fun _ t ht => ⟨[], ht.mute.told he⟩
  cases e
  case kill p ret     => exact procKill_dooms rfl rfl
  case intr p         => exact hcalm procTryintr_calm rfl
  case prune          => exact (Prelude.refl s _).told_of_tells procPruneLeaves_tells rfl
  case timer counter  => exact wlp_post (hpetIrq_calm htimer) fun _ t ht => ⟨[], ht.mute.told rfl⟩
  case finish r ret   => exact hcalm enterFinish_calm rfl
  case syscall p call =>
    cases call
    case exit ret            => exact procKill_dooms rfl rfl
    case fork flags          => exact sysFork_told hs
    case wait2 pid flags out => exact sysWait2_told
    case getprocfs flags     => exact wlp_post sysGetprocfs_told fun _ t ht => ⟨[], ht⟩
    case sleep goal          =>
      exact wlp_post (timerSchedule_mute s) fun _ t ht => ⟨[], ht.told rfl⟩
    all_goals exact hcalm (enterSyscall_calm rfl) rfl

end Step
-- A run together with its entries and the states in which they began. The last one comes first.
inductive History (paths : List (List UInt8)) : List (State × Entry) → State → Prop
  | boot : History paths [] (bootState paths)
  | step : History paths l s → Step s e t → History paths ((s, e) :: l) t

-- The process lived until it was killed with this status.
def Died (l : List (State × Entry)) (c : Pid) (status : Int) : Prop :=
  ∃ s e v, (s, e) ∈ l ∧ s.procs.get c = some v ∧ v.state.alive ∧ e.dooms = some (c, status)

def Forked (l : List (State × Entry)) (p c : Pid) (flags : Flags) : Prop :=
  ∃ s, (s, .syscall p (.fork flags)) ∈ l ∧ c = s.procs.size

def lastCall (p : Pid) : List (State × Entry) → Option Syscall
  | []                        => none
  | (_, .syscall q call) :: l => if q = p then some call else lastCall p l
  | _ :: l                    => lastCall p l

-- The report which is made in the last step of a run tells the truth: it answers the last call of
-- the parent, and it is about a child which has died by now.
structure Truthful (l : List (State × Entry)) (s t : State) (r : Report) : Prop where
  child  : ∃ v, s.procs.get r.child = some v ∧ v.parent = some r.parent
  forked : ∃ flags, Forked l r.parent r.child flags ∧ flags.has FORK_NOREAP = false
  id     : ∃ w, s.procs.get r.parent = some w ∧ procNsId w.pns r.child s = .ok (r.id, s)
  asked  : ∃ pid out status, lastCall r.parent l = some (.wait2 pid 0 out) ∧ (0 < pid → r.id = pid) ∧
    Died l r.child status ∧ r.stored = if out = 0 then none else some (out, status)
  told   : t.returned r.parent = some (r.id : Int)
  dead   : ∀ v, t.procs.get r.child = some v → ¬v.state.alive

-- What is known about the past of the processes.
structure Known (l : List (State × Entry)) (s : State) : Prop where
  waits  : ∀ p v, s.procs.get p = some v → v.state = .waits4childdeath →
    ∃ pid, lastCall p l = some (.wait2 pid 0 v.awaitedOut) ∧ v.awaitedPid = pid.toNat
  died   : ∀ c v, s.procs.get c = some v → v.state.active = false → v.noreap ∨ Died l c v.deathMsg
  forked : ∀ c v p, s.procs.get c = some v → v.parent = some p → v.noreap = false →
    ∃ flags, Forked l p c flags ∧ flags.has FORK_NOREAP = false
  done   : ∀ r ∈ s.reports, r.child < s.procs.size ∧ ∀ v, s.procs.get r.child = some v → v.noreap
  once   : (s.reports.map Report.child).Nodup

section History

variable {paths : List (List UInt8)} {l : List (State × Entry)} {s t : State} {e : Entry} {p c : Pid}
  {v w : Proc} {r : Report} {rs : List Report}

theorem History.nsRun (h : History paths l s) : NsRun paths s := by
  induction h
  case boot            => exact .boot
  case step hstep hi => exact hi.step hstep

theorem Died.cons {x : State × Entry} {status : Int} (h : Died l c status) : Died (x :: l) c status := by
  obtain ⟨s, e, v, hm, h⟩ := h
  exact ⟨s, e, v, List.mem_cons_of_mem _ hm, h⟩

theorem Forked.cons {x : State × Entry} {flags : Flags} (h : Forked l p c flags) :
    Forked (x :: l) p c flags := by
  obtain ⟨s, hm, h⟩ := h
  exact ⟨s, List.mem_cons_of_mem _ hm, h⟩

-- A process which waits makes no system calls.
theorem lastCall_cons (he : e.Enabled s) (hv : s.procs.get p = some v) (hs : v.state ≠ .running) :
    lastCall p ((s, e) :: l) = lastCall p l := by
  cases e
  case syscall q call =>
    obtain ⟨w, hw, hr⟩ := he
    have hq : q ≠ p := fun h => by
      obtain rfl := Option.some_inj.mp (hv.symm.trans (h ▸ hw))
      exact hs hr
    rw [lastCall, if_neg hq]
  all_goals rfl

theorem Known.asks {n out : ℕ} (h : Known l s) (he : e.Enabled s) (hv : s.procs.get p = some v)
    (ha : Asks e p v n out) :
    ∃ pid, lastCall p ((s, e) :: l) = some (.wait2 pid 0 out) ∧ n = pid.toNat := by
  obtain ⟨hs, rfl, rfl⟩ | ⟨pid, rfl, hn⟩ := ha
  · obtain ⟨pid, hl, hn⟩ := h.waits p v hv hs
    exact ⟨pid, (lastCall_cons he hv (by simp [hs])).trans hl, hn⟩
  · exact ⟨pid, by rw [lastCall, if_pos rfl], hn⟩

theorem Known.doomed {status : Int} (h : Known l s) (hv : s.procs.get c = some v)
    (hd : Doomed e c v status) : v.noreap ∨ Died ((s, e) :: l) c status := by
  obtain ⟨hs, rfl⟩ | ⟨ha, he⟩ := hd
  · exact (h.died c v hv hs).imp_right .cons
  · exact .inr ⟨s, e, v, List.mem_cons_self, hv, ha, he⟩

theorem Known.step (h : Known l s) (he : e.Enabled s) (ht : Told s e t rs) :
    Known ((s, e) :: l) t where
  waits  := fun p w hw hs => by
    obtain ⟨v, hv, hf⟩ | hnew := ht.procs p w hw
    · exact h.asks he hv (hf.waits hs)
    · exact absurd hs hnew.waits
  died   := fun c w hw hs => by
    obtain ⟨v, hv, hf⟩ | hnew := ht.procs c w hw
    · exact (h.doomed hv (hf.dead hs)).imp_left hf.noreap
    · exact .inl (hnew.dead hs)
  forked := fun c w p hw hp hn => by
    obtain ⟨v, hv, hf⟩ | hnew := ht.procs c w hw
    · have hv' : v.noreap = false := by
        by_contra hn'
        have := hf.noreap (by simpa using hn')
        rw [hn] at this
        contradiction
      obtain ⟨flags, hl, hflags⟩ := h.forked c v p hv (hf.parent ▸ hp) hv'
      exact ⟨flags, hl.cons, hflags⟩
    · obtain ⟨q, flags, rfl, hq, hflags⟩ := hnew.entry
      obtain rfl := Option.some_inj.mp (hp.symm.trans hq)
      exact ⟨flags, ⟨s, List.mem_cons_self, hnew.fresh⟩, hflags hn⟩
  done   := fun r hr => by
    rw [ht.reports, List.mem_append] at hr
    cases hr
    case inr hr =>
      obtain ⟨_, v, _, hv, _⟩ := (ht.reported r hr).child
      exact ⟨(Heap.lt_size hv).trans_le ht.size, fun w hw => ((ht.reported r hr).done w hw).1⟩
    case inl hr =>
      have ⟨hlt, hd⟩ := h.done r hr
      refine ⟨hlt.trans_le ht.size, fun w hw => ?_⟩
      obtain ⟨v, hv, hf⟩ | hnew := ht.procs _ w hw
      · exact hf.noreap (hd v hv)
      · exact absurd hnew.fresh hlt.ne
  once   := by
    rw [ht.reports, List.map_append, List.nodup_append]
    refine ⟨h.once, ht.children, fun c hc d hd heq => ?_⟩
    obtain ⟨r, hr, rfl⟩ := List.mem_map.mp hc
    obtain ⟨r', hr', rfl⟩ := List.mem_map.mp hd
    obtain ⟨_, v, _, hv, _, hn, _⟩ := (ht.reported r' hr').child
    have := (h.done r hr).2 v (heq ▸ hv)
    rw [hn] at this
    contradiction

theorem Told.deliver (ht : Told s e t rs) (h : Known l s) (he : e.Enabled s) (hs : PidsOk s)
    (hshares : SharesOk t) (hr : r ∈ rs) : Truthful ((s, e) :: l) s t r := by
  have hrep := ht.reported r hr
  obtain ⟨w, v, hw, hv, hp, hn, hid, n, out, status, hasks, hawaited, hdoomed, hstored⟩ := hrep.child
  refine ⟨⟨v, hv, hp⟩, ?_, ⟨w, hw, ?_⟩, ?_, hrep.told, fun x hx ha => ?_⟩
  · obtain ⟨flags, hl, hflags⟩ := h.forked _ v _ hv hp hn
    exact ⟨flags, hl.cons, hflags⟩
  · have hne : r.child ≠ w.pns :=
      (lt_of_le_of_lt (hs.tree.pns _ w hw) (hs.tree.parent _ v _ hv hp)).ne'
    rw [hid, hs.tree.nsId_child hw hv hp]
    exact ok_of_wp (wp_procNsId hs.names.inherited ⟨hv, _, w, hp, hw, rfl⟩ hne ⟨rfl, rfl⟩)
  · obtain ⟨pid, hl, hpid⟩ := h.asks he hw hasks
    refine ⟨pid, out, status, hl, fun hpos => ?_, (h.doomed hv hdoomed).resolve_left ?_, hstored⟩
    · omega
    · simp [hn]
  · -- Nobody is dying in the end.
    have hactive := (hrep.done x hx).2
    have hdying := (hshares.homes _ x hx id).1
    cases hx : x.state <;> simp [hx, PState.alive, PState.active] at ha hactive hdying

theorem bootState_reports : (bootState paths).reports = [] := by
  show (paths.foldl vfsRootRegister (staticState, none)).1.reports = []
  rw [(registered_foldl (staticState, none)).eq]
  rfl

theorem known_bootState : Known [] (bootState paths) := by
  refine ⟨fun p v hv hs => ?_, fun c v hv hs => ?_, fun c v p hv hp => ?_, ?_, ?_⟩
  case refine_4 => simp [bootState_reports]
  case refine_5 => simp [bootState_reports]
  all_goals obtain ⟨_, _, rfl⟩ := bootState_proc hv
  · contradiction
  · contradiction
  · contradiction

theorem History.known (h : History paths l s) : Known l s := by
  induction h
  case boot => exact known_bootState
  case step hr hstep hi =>
    have hpids := hr.nsRun.pids
    obtain ⟨rs, ht⟩ := hstep.told hpids.shares hpids.timer
    exact hi.step hstep.enabled ht

-- Every status is delivered once. The calls of `_sys_wait2` which return without an error are those
-- whose process is told about a child.
theorem History.delivered (h : History paths ((s, e) :: l) t) : ∃ rs, t.reports = s.reports ++ rs ∧
    (∀ r ∈ rs, Truthful ((s, e) :: l) s t r) ∧
    (t.reports.map Report.child).Nodup ∧ (rs.map Report.parent).Nodup ∧
    (∀ p v n, s.procs.get p = some v → v.state = .waits4childdeath → t.returned p = some n →
      ∃ r ∈ rs, r.parent = p) ∧
    ∀ p pid flags out n, e = .syscall p (.wait2 pid flags out) → t.returned p = some n →
      n = -ENOSYS ∨ n = -ECHILD ∨ ∃ r ∈ rs, r.parent = p := by
  have honce := h.known.once
  have hshares := h.nsRun.pids.shares
  cases h
  case step hr hstep =>
    have hpids := hr.nsRun.pids
    obtain ⟨rs, ht⟩ := hstep.told hpids.shares hpids.timer
    exact ⟨rs, ht.reports, fun r => ht.deliver hr.known hstep.enabled hpids hshares, honce, ht.parents,
      ht.waits, ht.answered⟩

-- A child is killed, and then its parent asks for it.
theorem History.delivered_forked : ∃ l s t r, History [[]] ((s, .syscall 0 (.wait2 2 0 64)) :: l) t ∧
    t.reports = [r] ∧ r.stored = some (64, 7) ∧
    Truthful ((s, .syscall 0 (.wait2 2 0 64)) :: l) s t r := by
  have hrun : ∃ s t r, Step forked (.kill 1 7) s ∧ Step s (.syscall 0 (.wait2 2 0 64)) t ∧
      s.reports = [] ∧ t.reports = [r] ∧ r.stored = some (64, 7) :=
    ⟨_, _, _, ⟨trivial, quietEnv, rfl⟩, ⟨⟨_, rfl, rfl⟩, quietEnv, rfl⟩, rfl, rfl, rfl⟩
  have ⟨s, t, r, hkill, hwait, hs, ht, hr⟩ := hrun
  have h : History [[]] _ t := .step (.step (.step .boot step_forked) hkill) hwait
  obtain ⟨rs, hrs, hall, _⟩ := h.delivered
  refine ⟨_, s, t, r, h, ht, hr, hall r ?_⟩
  have : rs = [r] := by rw [← ht, hrs, hs, List.nil_append]
  exact this ▸ List.mem_singleton_self r

end History
end Camellia
