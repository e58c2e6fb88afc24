import Camellia.Kernel.Sleep

namespace Camellia

-- What may happen to a process while dead children are reported and buried.
structure Proc.Tells (v w : Proc) : Prop where
  eq      : w = { v with
    state   := w.state
    sibling := w.sibling
    child   := w.child
    pages   := w.pages
    noreap  := w.noreap
    rax     := w.rax }
  noreap  : v.noreap → w.noreap
  active  : w.state.active = v.state.active
  waits   : w.state = .waits4childdeath → v.state = .waits4childdeath
  running : v.state = .running → w.state = .running ∧ w.rax = v.rax

-- The parent waited for a dead child. It has returned from `_sys_wait2` with the id of this child,
-- and nobody will ask for the child again.
structure Fair (s : State) (r : Report) (t : State) (w v : Proc) : Prop where
  parent  : s.procs.get r.parent = some w
  child   : s.procs.get r.child = some v
  family  : v.parent = some r.parent
  waits   : w.state = .waits4childdeath
  awaited : w.awaitedPid = 0 ∨ w.awaitedPid = r.id
  dead    : v.state.active = false
  noreap  : v.noreap = false
  id      : r.id = nsId w.pns r.child v
  stored  : r.stored = tryreapStored w v
  told    : ∃ w', t.procs.get r.parent = some w' ∧ w'.state = .running ∧ w'.rax = r.id
  done    : ∀ v', t.procs.get r.child = some v' → v'.noreap

-- The reports in the order in which they were made. Whoever waits is told about one child at most,
-- and goes on waiting if it is not told about any.
structure Telling (s : State) (rs : List Report) (t : State) : Prop where
  reports  : t.reports = s.reports ++ rs
  size     : t.procs.size = s.procs.size
  procs    : ∀ p w, t.procs.get p = some w → ∃ v, s.procs.get p = some v ∧ v.Tells w
  running  : ∀ p v, s.procs.get p = some v → v.state = .running → ∃ w, t.procs.get p = some w
  fair     : ∀ r ∈ rs, ∃ w v, Fair s r t w v
  parents  : (rs.map Report.parent).Nodup
  children : (rs.map Report.child).Nodup
  waits    : ∀ p v w, s.procs.get p = some v → v.state = .waits4childdeath →
    t.procs.get p = some w → w.state = .waits4childdeath ∨ ∃ r ∈ rs, r.parent = p

def Tells (s t : State) : Prop :=
  ∃ rs, Telling s rs t

section Basic

variable {s t u : State} {p : Pid} {v w x : Proc} {r : Report} {rs rs' : List Report}

theorem Proc.Tells.refl (v : Proc) : v.Tells v :=
  ⟨rfl, id, rfl, id, fun h => ⟨h, rfl⟩⟩

theorem Proc.Tells.trans (h₁ : v.Tells w) (h₂ : w.Tells x) : v.Tells x where
  eq      := by rw [h₂.eq, h₁.eq]
  noreap  := h₂.noreap ∘ h₁.noreap
  active  := h₂.active.trans h₁.active
  waits   := h₁.waits ∘ h₂.waits
  running := fun h => ⟨(h₂.running (h₁.running h).1).1,
    (h₂.running (h₁.running h).1).2.trans (h₁.running h).2⟩

theorem Telling.refl (s : State) : Telling s [] s where
  reports  := (List.append_nil _).symm
  size     := rfl
  procs    := fun _ w hw => ⟨w, hw, .refl w⟩
  running  := fun _ v hv _ => ⟨v, hv⟩
  fair     := fun _ h => absurd h List.not_mem_nil
  parents  := .nil
  children := .nil
  waits    := fun _ _ _ hv hs hw => .inl (Option.some_inj.mp (hv.symm.trans hw) ▸ hs)

-- Whoever was told about a child keeps what it was told.
theorem Fair.later (h : Fair s r t w v) (ht : Telling t rs u) : Fair s r u w v := by
  refine { h with told := ?_, done := fun v' hv' => ?_ }
  · obtain ⟨w', hw', hs, hrax⟩ := h.told
    have ⟨x, hx⟩ := ht.running _ w' hw' hs
    have ⟨w'', hw'', hk⟩ := ht.procs _ x hx
    obtain rfl := Option.some_inj.mp (hw'.symm.trans hw'')
    exact ⟨x, hx, (hk.running hs).1, (hk.running hs).2.trans hrax⟩
  · have ⟨y, hy, hk⟩ := ht.procs _ v' hv'
    exact hk.noreap (h.done y hy)

-- Nobody was told about the child before.
theorem Fair.earlier (h : Fair t r u w v) (hs : Telling s rs t) : ∃ w v, Fair s r u w v := by
  have ⟨x, hx, hw⟩ := hs.procs _ w h.parent
  have ⟨y, hy, hv⟩ := hs.procs _ v h.child
  refine ⟨x, y, hx, hy, ?_, hw.waits h.waits, ?_, hv.active ▸ h.dead, ?_, ?_, ?_, h.told, h.done⟩
  · rw [← h.family, hv.eq]
  · rw [hw.eq] at h
    exact h.awaited
  · by_contra hn
    have := hv.noreap (by simpa using hn)
    rw [h.noreap] at this
    contradiction
  · rw [h.id, nsId, nsId, hw.eq, hv.eq]
  · rw [h.stored, tryreapStored, tryreapStored, hw.eq, hv.eq]

theorem Telling.trans (h₁ : Telling s rs t) (h₂ : Telling t rs' u) : Telling s (rs ++ rs') u where
  reports  := by rw [h₂.reports, h₁.reports, List.append_assoc]
  size     := h₂.size.trans h₁.size
  procs    := fun p x hx => by
    obtain ⟨w, hw, hk⟩ := h₂.procs p x hx
    obtain ⟨v, hv, hk'⟩ := h₁.procs p w hw
    exact ⟨v, hv, hk'.trans hk⟩
  running  := fun p v hv hs => by
    obtain ⟨w, hw⟩ := h₁.running p v hv hs
    obtain ⟨v', hv', hk⟩ := h₁.procs p w hw
    obtain rfl := Option.some_inj.mp (hv.symm.trans hv')
    exact h₂.running p w hw (hk.running hs).1
  fair     := fun r hr => by
    obtain hr | hr := List.mem_append.mp hr
    · obtain ⟨w, v, h⟩ := h₁.fair r hr
      exact ⟨w, v, h.later h₂⟩
    · obtain ⟨w, v, h⟩ := h₂.fair r hr
      exact h.earlier h₁
  parents  := by
    rw [List.map_append, List.nodup_append]
    refine ⟨h₁.parents, h₂.parents, fun p hp q hq heq => ?_⟩
    obtain ⟨r, hr, rfl⟩ := List.mem_map.mp hp
    obtain ⟨r', hr', rfl⟩ := List.mem_map.mp hq
    -- The parent in the first report does not wait anymore.
    obtain ⟨_, _, h⟩ := h₁.fair r hr
    obtain ⟨_, _, h'⟩ := h₂.fair r' hr'
    obtain ⟨w, hw, hs, _⟩ := h.told
    obtain rfl := Option.some_inj.mp ((heq ▸ hw).symm.trans h'.parent)
    rw [h'.waits] at hs
    contradiction
  children := by
    rw [List.map_append, List.nodup_append]
    refine ⟨h₁.children, h₂.children, fun p hp q hq heq => ?_⟩
    obtain ⟨r, hr, rfl⟩ := List.mem_map.mp hp
    obtain ⟨r', hr', rfl⟩ := List.mem_map.mp hq
    obtain ⟨_, _, h⟩ := h₁.fair r hr
    obtain ⟨_, v, h'⟩ := h₂.fair r' hr'
    have := h.done v (heq ▸ h'.child)
    rw [h'.noreap] at this
    contradiction
  waits    := fun p v x hv hs hx => by
    obtain ⟨w, hw, hk⟩ := h₂.procs p x hx
    cases h₁.waits p v w hv hs hw
    case inl h =>
      refine (h₂.waits p w x hw h hx).imp_right ?_
      rintro ⟨r, hr, hp⟩
      exact ⟨r, List.mem_append_right _ hr, hp⟩
    case inr h =>
      obtain ⟨r, hr, hp⟩ := h
      exact .inr ⟨r, List.mem_append_left _ hr, hp⟩

instance : IsPreorder State Tells where
  refl s                    := ⟨[], .refl s⟩
  trans _ _ _ := fun ⟨_, h₁⟩ ⟨_, h₂⟩ => ⟨_, h₁.trans h₂⟩

theorem procs_setProc (hv : s.procs.get p = some v) (hk : v.Tells w) {q : Pid}
    (hx : (s.procs.set p w).get q = some x) : ∃ y, s.procs.get q = some y ∧ y.Tells x := by
  rw [Heap.get_set hv] at hx
  by_cases hq : q = p
  case pos =>
    rw [if_pos hq, Option.some_inj] at hx
    exact ⟨v, hq ▸ hv, hx ▸ hk⟩
  case neg => exact ⟨x, by simpa [hq] using hx, .refl x⟩

theorem exists_setProc (hv : s.procs.get p = some v) {q : Pid} (hx : s.procs.get q = some x) :
    ∃ y, (s.procs.set p w).get q = some y := by
  rw [Heap.get_set hv]
  by_cases hq : q = p
  case pos => exact ⟨w, if_pos hq⟩
  case neg => exact ⟨x, (if_neg hq).trans hx⟩

theorem telling_setProc (hv : s.procs.get p = some v) (hk : v.Tells w)
    (hw : v.state = .waits4childdeath → w.state = .waits4childdeath) :
    Telling s [] (s.withProcs (s.procs.set p w)) where
  reports  := (List.append_nil _).symm
  size     := Heap.size_set
  procs    := fun _ _ => procs_setProc hv hk
  running  := fun _ _ hx _ => exists_setProc hv hx
  fair     := fun _ h => absurd h List.not_mem_nil
  parents  := .nil
  children := .nil
  waits    := fun q x y hx hs hy => .inl <| by
    rw [State.withProcs_procs, Heap.get_set hv] at hy
    by_cases hq : q = p
    case pos =>
      rw [if_pos hq, Option.some_inj] at hy
      obtain rfl := Option.some_inj.mp (hv.symm.trans (hq ▸ hx))
      exact hy ▸ hw hs
    case neg =>
      rw [if_neg hq] at hy
      exact Option.some_inj.mp (hx.symm.trans hy) ▸ hs

theorem tells_of_eq (hp : t.procs = s.procs) (hr : t.reports = s.reports) : Tells s t := by
  refine ⟨[], ?_⟩
  have := Telling.refl s
  exact ⟨hr.trans this.reports, hp ▸ rfl, hp ▸ this.procs, hp ▸ this.running,
    fun _ h => absurd h List.not_mem_nil, .nil, .nil, hp ▸ this.waits⟩

theorem updProc_tells {f : Proc → Proc} (hf : ∀ v : Proc, v.Tells (f v))
    (hw : ∀ v, (f v).state = v.state) : Respects Tells (updProc p f) := by
  intro s
  rw [wlp_updProc]
  exact fun v hv => ⟨[], telling_setProc hv (hf v) fun h => (hw v).trans h⟩

theorem modify_tells {f : State → State} (hp : ∀ s, (f s).procs = s.procs)
    (hr : ∀ s, (f s).reports = s.reports) : Respects Tells (modify f : K Unit) :=
  respects_modify fun s => tells_of_eq (hp s) (hr s)

end Basic

section Reap

variable {s t : State} {p q dead parent : Pid} {v : Proc}

theorem procTryreapBury_tells (hv : s.procs.get dead = some v) (hs : v.state = .toreap) :
    wlp (procTryreapBury dead) (fun _ t => Telling s [] t ∧
      ∀ v', t.procs.get dead = some v' → v'.noreap) s := by
  simp only [procTryreapBury, wlp_bind, wlp_procSetstate_tombstone, wlp_updProc]
  intro w hw _ x hx
  obtain rfl := Option.some_inj.mp (hv.symm.trans hw)
  obtain rfl := Option.some_inj.mp ((Heap.get_set_self hv).symm.trans hx)
  rw [State.withProcs_procs, Heap.set_set]
  refine ⟨telling_setProc hv ⟨rfl, fun _ => rfl, ?_, ?_, ?_⟩ ?_, fun v' hv' => ?_⟩
  case refine_5 =>
    obtain rfl := Option.some_inj.mp ((Heap.get_set_self hv).symm.trans hv')
    rfl
  all_goals simp [hs, PState.active]

-- Either nothing happens or the parent returns from `_sys_wait2`.
theorem procTryreapParent_tells (hv : s.procs.get dead = some v) (hs : v.state = .toreap) :
    wlp (procTryreapParent dead parent) (fun b t => if b then ∃ w id, s.procs.get parent = some w ∧
      w.state = .waits4childdeath ∧ (w.awaitedPid = 0 ∨ w.awaitedPid = id) ∧
      id = nsId w.pns dead v ∧ t = (s.withProcs (s.procs.set parent
        { w with state := .running, rax := id })).withLog (s.log ++ [.reaped
          { parent := parent, child := dead, id := id, stored := tryreapStored w v }])
      else t = s) s := by
  simp only [procTryreapParent, wlp_bind, wlp_getProc, wlp_ite, wlp_pure, Bool.false_eq_true, if_false]
  refine fun w hw => ⟨fun _ => trivial, fun hn => ?_⟩
  have hwaits := not_not.mp hn
  have hne : dead ≠ parent := fun h => by
    obtain rfl := Option.some_inj.mp (hv.symm.trans (h ▸ hw))
    rw [hs] at hwaits
    contradiction
  refine wlp_procNsId hv ⟨fun _ => rfl, fun hid => ?_⟩
  simp only [wlp_regsSavereturn, wlp_emit, wlp_procSetstate_running, if_true]
  intro x hx y hy z hz _
  obtain rfl := Option.some_inj.mp (hw.symm.trans hx)
  obtain rfl := Option.some_inj.mp (hv.symm.trans ((Heap.get_set_ne hne).symm.trans hy))
  obtain rfl := Option.some_inj.mp ((Heap.get_set_self hw).symm.trans hz)
  refine ⟨w, _, hw, hwaits, by tauto, rfl, ?_⟩
  simp [State.withProcs, State.withLog, Heap.set_set]

-- The parent is woken up and the child is buried.
theorem telling_report {w : Proc} {n : ℕ} (hv : s.procs.get dead = some v)
    (hs : v.state = .toreap) (hn : v.noreap = false) (hp : v.parent = some parent)
    (hw : s.procs.get parent = some w) (hwaits : w.state = .waits4childdeath)
    (hawaited : w.awaitedPid = 0 ∨ w.awaitedPid = n) (hid : n = nsId w.pns dead v)
    (ht : Telling ((s.withProcs (s.procs.set parent { w with state := .running, rax := n })).withLog
      (s.log ++ [.reaped { parent := parent, child := dead, id := n, stored := tryreapStored w v }]))
      [] t) (hdone : ∀ v', t.procs.get dead = some v' → v'.noreap) :
    Telling s [{ parent := parent, child := dead, id := n, stored := tryreapStored w v }] t := by
  have hk : w.Tells { w with state := .running, rax := n } := by
    refine ⟨rfl, id, ?_, ?_, ?_⟩ <;> simp [hwaits, PState.active]
  refine ⟨?_, ht.size.trans Heap.size_set, fun q x hx => ?_, fun q x hx hr => ?_, fun r hr => ?_,
    List.nodup_singleton _, List.nodup_singleton _, fun q x y hx hr hy => ?_⟩
  · rw [ht.reports]
    simp [State.reports, Event.report]
  · obtain ⟨y, hy, hyx⟩ := ht.procs q x hx
    obtain ⟨z, hz, hzy⟩ := procs_setProc hw hk hy
    exact ⟨z, hz, hzy.trans hyx⟩
  · have hq : q ≠ parent := fun h => by
      obtain rfl := Option.some_inj.mp (hw.symm.trans (h ▸ hx))
      rw [hwaits] at hr
      contradiction
    exact ht.running q x ((Heap.get_set_ne hq).trans hx) hr
  · obtain rfl := List.mem_singleton.mp hr
    have hset := Heap.get_set_self (a := { w with state := .running, rax := n }) hw
    obtain ⟨y, hy⟩ := ht.running parent _ hset rfl
    obtain ⟨z, hz, hzy⟩ := ht.procs parent y hy
    obtain rfl := Option.some_inj.mp (hset.symm.trans hz)
    exact ⟨w, v, hw, hv, hp, hwaits, hawaited, by simp [hs, PState.active], hn, hid, rfl,
      ⟨y, hy, (hzy.running rfl).1, (hzy.running rfl).2⟩, hdone⟩
  · by_cases hq : q = parent
    case pos => exact .inr ⟨_, List.mem_singleton_self _, hq.symm⟩
    case neg =>
      obtain h | ⟨_, hr', _⟩ := ht.waits q x y ((Heap.get_set_ne hq).trans hx) hr hy
      · exact .inl h
      · exact absurd hr' List.not_mem_nil

-- A child for which nobody will ask anymore has been buried, and it is the only one which may have
-- been reported.
theorem procTryreapToreap_tells (hv : s.procs.get dead = some v) (hs : v.state = .toreap) :
    wlp (procTryreapToreap dead) (fun _ t => Tells s t) s := by
  have hbury {t : State} (ht : t.procs.get dead = some v) :
      wlp (do procTryreapBury dead; pure true) (fun _ u => Telling t [] u ∧
        ∀ v', u.procs.get dead = some v' → v'.noreap) t := by
    rw [wlp_bind]
    exact wlp_post (procTryreapBury_tells ht hs) fun _ _ hu => wlp_pure.mpr hu
  simp only [procTryreapToreap, procReapable, wlp_bind, wlp_getProc]
  intro v' hv'
  obtain rfl := Option.some_inj.mp (hv.symm.trans hv')
  cases hp : v.parent
  case none =>
    rw [wlp_pure]
    exact wlp_post (hbury hv) fun _ t ht => ⟨[], ht.1⟩
  case some q =>
    simp only [wlp_bind, wlp_getProc, wlp_pure]
    intro w hw
    by_cases hr : ¬v.noreap ∧ w.state.alive ∧ w.state ≠ .dying
    case neg =>
      rw [if_neg hr]
      exact wlp_post (hbury hv) fun _ t ht => ⟨[], ht.1⟩
    case pos =>
      rw [if_pos hr]
      simp only [wlp_bind]
      refine wlp_post (procTryreapParent_tells hv hs) fun woken t ht => ?_
      rw [wlp_ite]
      cases woken
      case false => simpa [show t = s from ht] using refl_of Tells s
      case true  =>
        refine ⟨fun _ => ?_, fun h => absurd rfl h⟩
        obtain ⟨x, id, hx, hwaits, hawaited, hid, rfl⟩ := ht
        have hne : dead ≠ q := fun h => by
          obtain rfl := Option.some_inj.mp (hv.symm.trans (h ▸ hx))
          rw [hs] at hwaits
          contradiction
        refine wlp_post (hbury ((Heap.get_set_ne hne).trans hv)) fun _ u hx => ?_
        obtain ⟨hu, hdone⟩ := hx
        exact ⟨_, telling_report hv hs (by simpa using hr.1) hp hx hwaits hawaited hid hu hdone⟩

theorem procTryreapLeaf_tells : Respects Tells (procTryreapLeaf dead v) := by
  refine .bind kassert_respects fun _ => .ite (.bind ?_ fun _ => ?_) kassert_respects
  · intro s
    rw [wlp_procSetstate_deadleaf]
    intro v hv hs
    refine ⟨[], telling_setProc hv ⟨rfl, id, ?_, ?_, ?_⟩ ?_⟩
    all_goals simp [hs, PState.active]
  · exact modify_tells (fun _ => rfl) fun _ => rfl

theorem procTryreapTombstone_tells : Respects Tells (procTryreapTombstone dead) := by
  refine .bind getProc_respects fun v => ?_
  cases v.child
  case some c =>
    exact .bind kassert_respects fun _ => respects_of_reads procTryreapCheck_reads
  case none =>
    cases v.parent
    case none   => exact respects_pure
    case some q => exact procTryreapLeaf_tells

theorem procTryreap_tells : Respects Tells (procTryreap dead) := by
  intro s
  simp only [procTryreap, wlp_bind, wlp_getProc]
  intro v hv
  refine wlp_procTryreapStart fun _ => ?_
  rw [wlp_ite]
  refine ⟨fun hs => ?_, fun _ => procTryreapTombstone_tells s⟩
  rw [wlp_bind]
  refine wlp_post (procTryreapToreap_tells hv hs) fun b t ht => ?_
  rw [wlp_ite]
  exact ⟨fun _ => wlp_of_respects ht procTryreapTombstone_tells, fun _ => wlp_pure.mpr ht⟩

theorem procUnlink_tells {next : Option Pid} {first : Pid} :
    Respects Tells (procUnlink p next parent first) := by
  have hloop {fuel : ℕ} {prev : Pid} : Respects Tells (procUnlinkLoop p next fuel prev) := by
    induction fuel generalizing prev
    case zero => exact respects_throw
    case succ fuel hi =>
      refine .bind getProc_respects fun v => ?_
      cases v.sibling
      case none   => exact respects_throw
      case some _ => exact .ite (updProc_tells (fun _ => ⟨rfl, id, rfl, id, fun h => ⟨h, rfl⟩⟩) fun _ => rfl) hi
  exact .ite (updProc_tells (fun _ => ⟨rfl, id, rfl, id, fun h => ⟨h, rfl⟩⟩) fun _ => rfl)
    (.bind respects_get fun _ => hloop)

theorem telling_freeProc (hv : s.procs.get p = some v) (hs : v.state ≠ .running) :
    Telling s [] (s.withProcs (s.procs.free p)) where
  reports  := (List.append_nil _).symm
  size     := Heap.size_free
  procs    := fun q x hx => by
    rw [State.withProcs_procs, Heap.get_free] at hx
    by_cases hq : q = p
    case pos => simp [hq] at hx
    case neg => exact ⟨x, by simpa [hq] using hx, .refl x⟩
  running  := fun q x hx hr => by
    have hq : q ≠ p := fun h => by
      obtain rfl := Option.some_inj.mp (hv.symm.trans (h ▸ hx))
      exact hs hr
    exact ⟨x, (Heap.get_free_ne hq).trans hx⟩
  fair     := fun _ h => absurd h List.not_mem_nil
  parents  := .nil
  children := .nil
  waits    := fun q x y hx hr hy => .inl <| by
    rw [State.withProcs_procs, Heap.get_free] at hy
    by_cases hq : q = p
    case pos => simp [hq] at hy
    case neg =>
      rw [if_neg hq] at hy
      exact Option.some_inj.mp (hx.symm.trans hy) ▸ hr

-- A leaf is dead and does not wait for anybody.
theorem procFree_tells {x : K Unit} (hx : Respects Tells x) :
    Respects Tells (do procSetstate p .freed; freeProc p; x) := by
  intro s
  simp only [wlp_bind, wlp_procSetstate_freed, wlp_freeProc]
  intro v hv hs w hw
  obtain rfl := Option.some_inj.mp ((Heap.get_set_self hv).symm.trans hw)
  have hset : Telling s [] (s.withProcs (s.procs.set p { v with state := .freed })) := by
    refine telling_setProc hv ⟨rfl, id, ?_, ?_, ?_⟩ ?_ <;> simp [hs, PState.active]
  exact wlp_of_respects ⟨_, hset.trans (telling_freeProc hw (by simp))⟩ hx

theorem procPruneLeaf_tells {leaves : List Pid} : Respects Tells (procPruneLeaf p leaves) := by
  refine .bind getProc_respects fun v => .bind (modify_tells (fun _ => rfl) fun _ => rfl) fun _ =>
    .bind kassert_respects fun _ => ?_
  cases v.parent
  case none        => exact respects_throw
  case some parent =>
    refine .bind getProc_respects fun w => ?_
    cases w.child
    case none       => exact respects_throw
    case some first =>
      refine .bind kassert_respects fun _ => .bind procUnlink_tells fun _ => procFree_tells ?_
      exact .bind getProc_respects fun _ => .ite procTryreap_tells respects_pure

theorem procPruneLeaves_tells : Respects Tells procPruneLeaves := by
  have hloop {fuel : ℕ} : Respects Tells (procPruneLeavesLoop fuel) := by
    induction fuel
    case zero => exact .bind respects_get fun s => .ite respects_throw respects_pure
    case succ fuel hi =>
      refine .bind respects_get fun s => ?_
      cases s.deadLeaves
      case nil  => exact respects_pure
      case cons => exact .bind procPruneLeaf_tells fun _ => hi
  exact .bind respects_get fun _ => hloop

theorem procKillChildren_tells {fuel : ℕ} {o : Option Pid} :
    Respects Tells (procKillChildren fuel o) := by
  induction fuel generalizing o
  case zero =>
    cases o
    case none   => exact respects_pure
    case some _ => exact respects_throw
  case succ fuel hi =>
    cases o
    case none    => exact respects_pure
    case some it =>
      exact .bind getProc_respects fun _ => .ite (.bind procTryreap_tells fun _ => hi) hi

theorem sysWait2Loop_tells {fuel : ℕ} {o : Option Pid} : Respects Tells (sysWait2Loop fuel o) := by
  induction fuel generalizing o
  case zero =>
    cases o
    case none   => exact respects_pure
    case some _ => exact respects_throw
  case succ fuel hi =>
    have hrest {it : Pid} : Respects Tells (do
        let _ ← sysWait2Loop fuel (← getProc it).sibling
        pure true) :=
      .bind getProc_respects fun _ => .bind hi fun _ => respects_pure
    cases o
    case none    => exact respects_pure
    case some it =>
      exact .bind getProc_respects fun _ => .ite hi (.ite (.bind procTryreap_tells fun _ => hrest) hrest)

end Reap

section Kill

variable {s : State} {env : Env} {p : Pid}

theorem procKillPages_tells : Respects Tells (procKillPages p) := by
  have hunref {o : Option Cid} : Respects Tells (unref o) := by
    intro s
    refine wlp_post unref_spec fun _ t ht => ?_
    obtain ⟨counts, rfl⟩ := ht.eq
    exact tells_of_eq rfl rfl
  have hfree {d : ℕ} : Respects Tells (freePagedir d) := by
    intro s
    rw [wlp_freePagedir]
    exact fun _ _ => tells_of_eq rfl rfl
  have hnone : Respects Tells (updProc p ({ · with pages := none })) :=
    updProc_tells (fun _ => ⟨rfl, id, rfl, id, fun h => ⟨h, rfl⟩⟩) fun _ => rfl
  exact .bind getProc_respects fun v => .bind hunref fun _ =>
    .ite (.bind nonNull_respects fun _ => .bind hfree fun _ => hnone) hnone

theorem procKillDying_tells : Respects Tells (procKillDying p) := by
  have htomb {s : State} {v : Proc} (hv : s.procs.get p = some v) (hs : v.state = .dying) :
      wlp (procSetstate p .tombstone) (fun _ t => Tells s t) s := by
    rw [wlp_procSetstate_tombstone]
    intro w hw _
    obtain rfl := Option.some_inj.mp (hv.symm.trans hw)
    refine ⟨[], telling_setProc hv ⟨rfl, id, ?_, ?_, ?_⟩ ?_⟩ <;> simp [hs, PState.active]
  intro s
  simp only [procKillDying, wlp_bind, wlp_getProc, wlp_ite, wlp_pure]
  refine fun v hv => ⟨fun hs => ?_, fun _ => refl_of Tells s⟩
  cases v.parent
  case none   => exact htomb hv hs
  case some q =>
    simp only [wlp_bind, wlp_getProc, wlp_ite]
    refine fun _ _ => ⟨fun _ => ?_, fun _ => htomb hv hs⟩
    refine wlp_procSetstate_toreap fun w hw hs _ => ?_
    refine ⟨[], telling_setProc hw ⟨rfl, id, ?_, ?_, ?_⟩ ?_⟩ <;> simp [hs, PState.active]

end Kill
end Camellia
