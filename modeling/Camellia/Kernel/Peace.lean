import Camellia.Kernel.CalmSyscalls
import Camellia.Kernel.Run

namespace Camellia

-- A process neither dies nor comes back to life, and it does not start to wait for a child. If it is
-- dead it may be buried, and then nobody will ask for it.
structure Proc.Peace (v w : Proc) : Prop where
  eq     : w = { v with
    state         := w.state
    awaitedMaxLen := w.awaitedMaxLen
    waitsPipe     := w.waitsPipe
    waitsLen      := w.waitsLen
    waitsSince    := w.waitsSince
    goal          := w.goal
    sibling       := w.sibling
    child         := w.child
    mount         := w.mount
    refcount      := w.refcount
    noreap        := w.noreap
    pns           := w.pns
    nextlid       := w.nextlid
    reqslot       := w.reqslot
    controlled    := w.controlled
    rax           := w.rax }
  alive  : w.state.alive = v.state.alive
  dying  : w.state = .dying ↔ v.state = .dying
  waits  : w.state = .waits4childdeath → v.state = .waits4childdeath
  toreap : w.state = .toreap → v.state = .toreap
  grave  : v.state = .toreap → w.state = .toreap ∨ w.noreap
  noreap : v.noreap → w.noreap
  asked  : v.state.alive → w.noreap = v.noreap

-- Only dead processes disappear.
structure Peace (s t : State) : Prop where
  size     : t.procs.size = s.procs.size
  procs    : ∀ p w, t.procs.get p = some w → ∃ v, s.procs.get p = some v ∧ v.Peace w
  dead     : ∀ p v, s.procs.get p = some v → v.state.alive → ∃ w, t.procs.get p = some w
  tables   : s.tables.Related (fun _ _ => True) t.tables
  counts   : t.counts = s.counts
  pagedirs : t.pagedirs = s.pagedirs
  first    : t.first = s.first
  timer    : TimerOk s → TimerOk t

theorem Proc.Peace.refl (v : Proc) : v.Peace v :=
  ⟨rfl, rfl, Iff.rfl, id, id, .inl, id, fun _ => rfl⟩

theorem Proc.Peace.trans {v w x : Proc} (h₁ : v.Peace w) (h₂ : w.Peace x) : v.Peace x where
  eq     := by rw [h₂.eq, h₁.eq]
  alive  := h₂.alive.trans h₁.alive
  dying  := h₂.dying.trans h₁.dying
  waits  := h₁.waits ∘ h₂.waits
  toreap := h₁.toreap ∘ h₂.toreap
  grave  := fun h => by
    cases h₁.grave h
    case inl h => exact h₂.grave h
    case inr h => exact .inr (h₂.noreap h)
  noreap := h₂.noreap ∘ h₁.noreap
  asked  := fun h => (h₂.asked (h₁.alive.trans h)).trans (h₁.asked h)

theorem Proc.Calm.peace {v w : Proc} (h : v.Calm w) : v.Peace w where
  eq     := by rw [h.eq]
  alive  := by
    obtain h | ⟨hv, _, hw, _⟩ := h.state
    · rw [h]
    · cases hs : v.state <;> cases hs' : w.state <;> simp_all [PState.active, PState.alive]
  dying  := by
    obtain h | ⟨hv, _, hw, _⟩ := h.state
    · rw [h]
    · cases hs : v.state <;> cases hs' : w.state <;> simp_all [PState.active]
  waits  := fun hw => by
    obtain h | ⟨_, _, _, hn⟩ := h.state
    · rw [← h, hw]
    · exact absurd hw hn
  toreap := fun hw => by
    obtain h | ⟨_, _, ha, _⟩ := h.state
    · rw [← h, hw]
    · simp [hw, PState.active] at ha
  grave  := fun hv => by
    obtain h | ⟨ha, _⟩ := h.state
    · exact .inl (h.trans hv)
    · simp [hv, PState.active] at ha
  noreap := fun hv => by rw [h.eq, hv]
  asked  := fun _ => by rw [h.eq]

instance : IsPreorder State Peace where
  refl _ := ⟨rfl, fun _ w hw => ⟨w, hw, .refl w⟩, fun _ v hv _ => ⟨v, hv⟩, .refl fun _ => trivial, rfl,
    rfl, rfl, id⟩
  trans s t u h₁ h₂ := {
    size     := h₂.size.trans h₁.size
    procs    := fun p x hx => by
      have ⟨w, hw, hk⟩ := h₂.procs p x hx
      have ⟨v, hv, hk'⟩ := h₁.procs p w hw
      exact ⟨v, hv, hk'.trans hk⟩
    dead     := fun p v hv ha => by
      have ⟨w, hw⟩ := h₁.dead p v hv ha
      have ⟨v', hv', hk⟩ := h₁.procs p w hw
      obtain rfl := Option.some_inj.mp (hv.symm.trans hv')
      exact h₂.dead p w hw (hk.alive.trans ha)
    tables   := h₁.tables.trans (fun _ _ _ _ _ => trivial) h₂.tables
    counts   := h₂.counts.trans h₁.counts
    pagedirs := h₂.pagedirs.trans h₁.pagedirs
    first    := h₂.first.trans h₁.first
    timer    := h₂.timer ∘ h₁.timer }

theorem Calm.peace {s t : State} (h : Calm s t) : Peace s t where
  size     := h.procs.size
  procs    := fun _ w hw => by
    have ⟨v, hv, hk⟩ := h.procs.of_get' hw
    exact ⟨v, hv, hk.peace⟩
  dead     := fun _ v hv _ => by
    have ⟨w, hw, _⟩ := h.procs.of_get hv
    exact ⟨w, hw⟩
  tables   := h.tables
  counts   := h.counts
  pagedirs := h.pagedirs
  first    := h.first
  timer    := h.timer

-- Everything calm is peaceful.
theorem respects_peace {x : K α} (h : Respects Calm x) : Respects Peace x :=
  fun s => wlp_post (h s) fun _ _ => Calm.peace

section Basic

variable {s : State} {p i : ℕ} {v w : Proc}

theorem peace_of_set {t : State} (hv : s.procs.get p = some v) (hk : v.Peace w)
    (hp : t.procs = s.procs.set p w) (ht : t.tables = s.tables) (hc : t.counts = s.counts)
    (hd : t.pagedirs = s.pagedirs) (hf : t.first = s.first) (htimer : TimerOk s → TimerOk t) :
    Peace s t where
  size     := hp ▸ Heap.size_set
  procs    := fun q x hx => by
    rw [hp, Heap.get_set hv] at hx
    by_cases hq : q = p
    case pos =>
      rw [if_pos hq, Option.some_inj] at hx
      exact ⟨v, hq ▸ hv, hx ▸ hk⟩
    case neg =>
      rw [if_neg hq] at hx
      exact ⟨x, hx, .refl x⟩
  dead     := fun q x hx _ => by
    rw [hp, Heap.get_set hv]
    by_cases hq : q = p
    case pos => exact ⟨w, if_pos hq⟩
    case neg => exact ⟨x, (if_neg hq).trans hx⟩
  tables   := ht ▸ .refl fun _ => trivial
  counts   := hc
  pagedirs := hd
  first    := hf
  timer    := htimer

theorem peace_setProc (hv : s.procs.get p = some v) (hk : v.Peace w)
    (ht : w.state = .waits4timer ↔ v.state = .waits4timer) :
    Peace s (s.withProcs (s.procs.set p w)) :=
  peace_of_set hv hk rfl rfl rfl rfl rfl (TimerOk.setProc hv ht)

theorem updProc_peace {f : Proc → Proc} (hf : ∀ v : Proc, v.Peace (f v))
    (hs : ∀ v, (f v).state = v.state) : Respects Peace (updProc p f) := by
  intro s
  rw [wlp_updProc]
  exact fun v hv => peace_setProc hv (hf v) (by rw [hs v])

-- A dead process is freed.
theorem peace_freeProc (hv : s.procs.get p = some v) (hd : v.state.alive = false) :
    Peace s (s.withProcs (s.procs.free p)) where
  size     := Heap.size_free
  procs    := fun q x hx => by
    rw [State.withProcs_procs, Heap.get_free] at hx
    by_cases hq : q = p
    case pos => simp [hq] at hx
    case neg =>
      rw [if_neg hq] at hx
      exact ⟨x, hx, .refl x⟩
  dead     := fun q x hx ha => by
    rw [State.withProcs_procs, Heap.get_free]
    by_cases hq : q = p
    case pos =>
      obtain rfl := Option.some_inj.mp (hv.symm.trans (hq ▸ hx))
      rw [hd] at ha
      contradiction
    case neg => exact ⟨x, (if_neg hq).trans hx⟩
  tables   := .refl fun _ => trivial
  counts   := rfl
  pagedirs := rfl
  first    := rfl
  timer    := fun h q => by
    have hq := h q
    show s.scheduled.count q = ((s.procs.free p).get q).elim 0 _
    rw [hq, Heap.get_free]
    by_cases hqp : q = p
    case pos =>
      subst hqp
      have : v.state ≠ .waits4timer := fun hs => by simp [hs, PState.alive] at hd
      simp [hv, this]
    case neg => simp [hqp]

end Basic

section Timer

variable {s : State} {p : Pid} {v : Proc}

-- The list of the timer with the new process in it.
theorem timerInsert_perm {goal : ℕ} {l : List Pid} :
    wlp (timerInsert p goal l) (fun l' t => t = s ∧ l'.Perm (p :: l)) s := by
  induction l
  case nil => exact wlp_pure.mpr ⟨rfl, .refl _⟩
  case cons q l hi =>
    simp only [timerInsert, wlp_bind, wlp_getProc, wlp_ite, wlp_kassert, wlp_pure]
    refine fun v _ => ⟨fun _ _ => ?_, fun _ => ⟨trivial, .refl _⟩⟩
    refine wlp_post hi fun l' t hx => ?_
    obtain ⟨ht, hp⟩ := hx
    refine ⟨ht, ?_⟩
    exact (hp.cons q).trans (.swap p q l)

theorem peace_sleep {l : List Pid} {goal : ℕ} (hv : s.procs.get p = some v)
    (hs : v.state = .running) (hl : l.Perm (p :: s.scheduled)) :
    Peace s ((s.withProcs (s.procs.set p { v with state := .waits4timer, goal := goal })).withScheduled
      l) := by
  refine peace_of_set hv ⟨rfl, ?_, ?_, ?_, ?_, ?_, ?_, ?_⟩ rfl rfl rfl rfl rfl fun h q => ?_
  case refine_8 =>
    have hq := h q
    show l.count q = ((s.procs.set p { v with state := .waits4timer, goal := goal }).get q).elim 0 _
    rw [Heap.get_set hv, hl.count_eq, List.count_cons]
    by_cases hqp : q = p
    case pos => simpa [hqp, hv, hs] using hq
    case neg => simpa [hqp, Ne.symm hqp] using hq
  all_goals simp [hs, PState.alive]

theorem timerSchedule_peace {goal : ℕ} : Respects Peace (timerSchedule p goal) := by
  intro s
  simp only [timerSchedule, wlp_bind]
  rw [wlp_procSetstate_waiting rfl]
  intro v hv hr
  simp only [wlp_updProc, wlp_get]
  intro w hw
  obtain rfl := Option.some_inj.mp ((Heap.get_set_self hv).symm.trans hw)
  refine wlp_post timerInsert_perm ?_
  rintro l _ ⟨rfl, hp⟩
  rw [wlp_modify, State.withProcs_procs, State.withProcs_procs, Heap.set_set]
  exact peace_sleep (v := v) hv hr hp

end Timer

section Reap

variable {s : State} {p dead parent : Pid} {v w : Proc}

-- The value of `proc_ns_id`, if its assertions hold.
def nsId (ns proc : Pid) (v : Proc) : ℕ :=
  if proc = ns then 1 else v.localid

theorem wlp_procNsId {ns proc : Pid} {Q : ℕ → State → Prop} (hv : s.procs.get proc = some v)
    (hq : Q (nsId ns proc v) s) : wlp (procNsId ns proc) Q s := by
  simp only [procNsId, wlp_ite, wlp_pure, wlp_bind, wlp_getProc]
  refine ⟨fun h => by simpa [nsId, h] using hq, fun h w hw => ?_⟩
  obtain rfl := Option.some_inj.mp (hv.symm.trans hw)
  simp only [nsId, h, if_false] at hq
  simp only [wlp_nonNull, wlp_kassert]
  exact ⟨fun _ _ _ _ _ _ => hq, fun _ _ => hq⟩

-- The parent waits for a child with this id, or for any child.
def Proc.Awaits (w : Proc) (dead : Pid) (v : Proc) : Prop :=
  w.state = .waits4childdeath ∧ (w.awaitedPid = 0 ∨ w.awaitedPid = nsId w.pns dead v)

theorem procTryreapBury_peace (hv : s.procs.get dead = some v)
    (hs : v.state = .toreap) : wlp (procTryreapBury dead) (fun _ t => Peace s t) s := by
  simp only [procTryreapBury, wlp_bind, wlp_procSetstate_tombstone, wlp_updProc]
  intro w hw _ x hx
  obtain rfl := Option.some_inj.mp (hv.symm.trans hw)
  obtain rfl := Option.some_inj.mp ((Heap.get_set_self hv).symm.trans hx)
  rw [State.withProcs_procs, Heap.set_set]
  refine peace_setProc hv ⟨rfl, ?_, ?_, ?_, ?_, ?_, ?_, ?_⟩ ?_
  all_goals simp [hs, PState.alive]

-- Whoever waits for the dead process does not wait anymore.
def Answered (s : State) (dead : Pid) (v : Proc) (t : State) : Prop :=
  ∀ q w w', v.parent = some q → s.procs.get q = some w → w.Awaits dead v →
    t.procs.get q = some w' → w'.state ≠ .waits4childdeath

theorem Answered.peace {t u : State} (h : Answered s dead v t) (hp : Peace t u) :
    Answered s dead v u := by
  intro q w w' hq hw ha hw' hs
  have ⟨x, hx, hk⟩ := hp.procs q w' hw'
  exact h q w x hq hw ha hx (hk.waits hs)

-- The parent is woken up if it waits for the dead process.
theorem procTryreapParent_spec (hv : s.procs.get dead = some v) (hs : v.state = .toreap)
    (hp : v.parent = some parent) :
    wlp (procTryreapParent dead parent) (fun _ t => Peace s t ∧ t.procs.get dead = some v ∧
      Answered s dead v t) s := by
  simp only [procTryreapParent, wlp_bind, wlp_getProc, wlp_ite, wlp_pure]
  refine fun w hw => ⟨fun hn => ⟨refl_of Peace s, hv, ?_⟩, fun hn => ?_⟩
  · intro q w' _ hq hw' ha _
    obtain rfl := Option.some_inj.mp (hp.symm.trans hq)
    obtain rfl := Option.some_inj.mp (hw.symm.trans hw')
    exact absurd ha.1 hn
  · have hwaits := not_not.mp hn
    refine wlp_procNsId hv ⟨fun hid => ⟨refl_of Peace s, hv, ?_⟩, fun hid => ?_⟩
    · intro q w' _ hq hw' ha _
      obtain rfl := Option.some_inj.mp (hp.symm.trans hq)
      obtain rfl := Option.some_inj.mp (hw.symm.trans hw')
      cases ha.2
      case inl h => exact absurd h hid.1
      case inr h => exact absurd h hid.2
    · simp only [wlp_regsSavereturn, wlp_emit, wlp_procSetstate_running]
      intro w₁ hw₁ _ _ w₂ hw₂ _
      obtain rfl := Option.some_inj.mp (hw.symm.trans hw₁)
      obtain rfl := Option.some_inj.mp ((Heap.get_set_self hw).symm.trans hw₂)
      rw [State.withLog_procs, State.withProcs_procs, Heap.set_set]
      have hne : dead ≠ parent := fun h => by
        subst h
        obtain rfl := Option.some_inj.mp (hv.symm.trans hw)
        rw [hs] at hwaits
        contradiction
      refine ⟨peace_of_set hw ⟨rfl, ?_, ?_, ?_, ?_, ?_, ?_, ?_⟩ rfl rfl rfl rfl rfl (TimerOk.setProc hw ?_),
        (Heap.get_set_ne hne).trans hv, ?_⟩
      case refine_2.refine_9 =>
        intro q _ w' hq _ _ hw'
        obtain rfl := Option.some_inj.mp (hp.symm.trans hq)
        obtain rfl := Option.some_inj.mp ((Heap.get_set_self hw).symm.trans hw')
        simp
      all_goals simp [hwaits, PState.alive]

-- What `proc_tryreap` does to a process which can still be reaped.
theorem procTryreapToreap_spec (hv : s.procs.get dead = some v) (hs : v.state = .toreap) :
    wlp (procTryreapToreap dead) (fun _ t => Peace s t ∧ (¬v.noreap → Answered s dead v t)) s := by
  have hbury {t : State} (ht : t.procs.get dead = some v) :
      wlp (do procTryreapBury dead; pure true) (fun _ u => Peace t u) t := by
    rw [wlp_bind]
    exact wlp_post (procTryreapBury_peace ht hs) fun _ _ hu => wlp_pure.mpr hu
  simp only [procTryreapToreap, procReapable, wlp_bind, wlp_getProc]
  intro v' hv'
  obtain rfl := Option.some_inj.mp (hv.symm.trans hv')
  cases hp : v.parent
  case none =>
    rw [wlp_pure]
    exact wlp_post (hbury hv) fun _ t ht => ⟨ht, fun _ q _ _ hq => by simp [hp] at hq⟩
  case some q =>
    simp only [wlp_bind, wlp_getProc, wlp_pure]
    intro w hw
    by_cases hr : ¬v.noreap ∧ w.state.alive ∧ w.state ≠ .dying
    case neg =>
      rw [if_neg hr]
      refine wlp_post (hbury hv) fun _ t ht => ⟨ht, fun hn q' w' _ hq' hw' ha => ?_⟩
      -- Who is not asked does not wait for a child.
      obtain rfl := Option.some_inj.mp (hp.symm.trans hq')
      obtain rfl := Option.some_inj.mp (hw.symm.trans hw')
      exact absurd ⟨hn, by simp [ha.1, PState.alive], by simp [ha.1]⟩ hr
    case pos =>
      rw [if_pos hr]
      simp only [wlp_bind]
      refine wlp_post (procTryreapParent_spec hv hs hp) fun woken t hx => ?_
      obtain ⟨ht, hdead, hans⟩ := hx
      rw [wlp_ite]
      refine ⟨fun _ => ?_, fun _ => wlp_pure.mpr ⟨ht, fun _ => hans⟩⟩
      exact wlp_post (hbury hdead) fun _ u hu => ⟨trans_of Peace ht hu, fun _ => hans.peace hu⟩

theorem procTryreapChildren_peace {fuel : ℕ} {o : Option Pid} :
    Respects Peace (procTryreapChildren fuel o) := by
  induction fuel generalizing o
  case zero =>
    cases o
    case none   => exact respects_pure
    case some p => exact respects_throw
  case succ fuel hi =>
    cases o
    case none   => exact respects_pure
    case some p => exact .bind getProc_respects fun _ => .bind kassert_respects fun _ => hi

theorem procTryreapDescend_peace {fuel : ℕ} : Respects Peace (procTryreapDescend fuel p) := by
  induction fuel generalizing p
  case zero => exact respects_throw
  case succ fuel hi =>
    refine .bind getProc_respects fun v => ?_
    cases v.child
    case none   => exact respects_pure
    case some c => exact hi

theorem procTryreapCheck_peace {child : Pid} : Respects Peace (procTryreapCheck child) := by
  refine .bind respects_get fun s => .bind procTryreapChildren_peace fun _ =>
    .bind procTryreapDescend_peace fun _ => .bind getProc_respects fun w => .ite ?_ kassert_respects
  exact .bind nonNull_respects fun _ => .bind getProc_respects fun _ => kassert_respects

theorem procTryreapLeaf_peace : Respects Peace (procTryreapLeaf dead v) := by
  refine .bind kassert_respects fun _ => .ite (.bind ?_ fun _ => ?_) kassert_respects
  · intro s
    rw [wlp_procSetstate_deadleaf]
    intro v hv hs
    refine peace_setProc hv ⟨rfl, ?_, ?_, ?_, ?_, ?_, ?_, ?_⟩ ?_
    all_goals simp [hs, PState.alive]
  · exact respects_modify fun s => ⟨rfl, fun _ w hw => ⟨w, hw, .refl w⟩, fun _ v hv _ => ⟨v, hv⟩,
      .refl fun _ => trivial, rfl, rfl, rfl, id⟩

theorem procTryreapTombstone_peace : Respects Peace (procTryreapTombstone dead) := by
  refine .bind getProc_respects fun v => ?_
  split
  · exact .bind kassert_respects fun _ => procTryreapCheck_peace
  · exact respects_pure
  · exact procTryreapLeaf_peace

-- The checks before a process is reaped.
theorem wlp_procTryreapStart {R : Unit → State → Prop} (h : v.state.alive = false → R () s) :
    wlp (procTryreapStart v) R s := by
  simp only [procTryreapStart, wlp_bind, wlp_kassert]
  intro hd
  have hd : v.state.alive = false := by simpa using hd
  cases v.parent
  case none   => exact wlp_pure.mpr (h hd)
  case some q =>
    simp only [wlp_bind, wlp_getProc, wlp_kassert]
    exact fun _ _ _ => h hd

theorem procTryreap_spec (hv : s.procs.get dead = some v) :
    wlp (procTryreap dead) (fun _ t => Peace s t ∧
      (v.state = .toreap → ¬v.noreap → Answered s dead v t)) s := by
  simp only [procTryreap, wlp_bind, wlp_getProc]
  intro v' hv'
  obtain rfl := Option.some_inj.mp (hv.symm.trans hv')
  refine wlp_procTryreapStart fun _ => ?_
  rw [wlp_ite]
  refine ⟨fun hs => ?_, fun hs => ?_⟩
  · rw [wlp_bind]
    refine wlp_post (procTryreapToreap_spec hv hs) fun b t hx => ?_
    obtain ⟨ht, hans⟩ := hx
    rw [wlp_ite]
    refine ⟨fun _ => ?_, fun _ => wlp_pure.mpr ⟨ht, fun _ => hans⟩⟩
    exact wlp_post (procTryreapTombstone_peace t) fun _ u hu =>
      ⟨trans_of Peace ht hu, fun _ hn => (hans hn).peace hu⟩
  · exact wlp_post (procTryreapTombstone_peace s) fun _ t ht => ⟨ht, fun h => absurd h hs⟩

theorem procTryreap_peace : Respects Peace (procTryreap dead) := by
  intro s
  cases hv : s.procs.get dead
  case none =>
    simp only [procTryreap, wlp_bind, wlp_getProc, hv]
    simp
  case some v => exact wlp_post (procTryreap_spec hv) fun _ _ h => h.1

theorem procUnlinkLoop_peace {next : Option Pid} {fuel : ℕ} {prev : Pid} :
    Respects Peace (procUnlinkLoop p next fuel prev) := by
  have hset {prev : Pid} : Respects Peace (updProc prev ({ · with sibling := next })) :=
    updProc_peace (fun _ => ⟨rfl, rfl, Iff.rfl, id, id, .inl, id, fun _ => rfl⟩) fun _ => rfl
  induction fuel generalizing prev
  case zero => exact respects_throw
  case succ fuel hi =>
    refine .bind getProc_respects fun v => ?_
    cases v.sibling
    case none   => exact respects_throw
    case some _ => exact .ite hset hi

theorem procUnlink_peace {next : Option Pid} {first : Pid} :
    Respects Peace (procUnlink p next parent first) := by
  have hset : Respects Peace (updProc parent ({ · with child := next })) :=
    updProc_peace (fun _ => ⟨rfl, rfl, Iff.rfl, id, id, .inl, id, fun _ => rfl⟩) fun _ => rfl
  exact .ite hset (.bind respects_get fun _ => procUnlinkLoop_peace)

-- A leaf is dead, so nothing is lost when it is freed.
theorem procFree_peace {x : K Unit} (hx : Respects Peace x) :
    Respects Peace (do procSetstate p .freed; freeProc p; x) := by
  intro s
  simp only [wlp_bind, wlp_procSetstate_freed, wlp_freeProc]
  intro v hv hs w hw
  obtain rfl := Option.some_inj.mp ((Heap.get_set_self hv).symm.trans hw)
  have hset : Peace s (s.withProcs (s.procs.set p { v with state := .freed })) := by
    refine peace_setProc hv ⟨rfl, ?_, ?_, ?_, ?_, ?_, ?_, ?_⟩ ?_
    all_goals simp [hs, PState.alive]
  exact wlp_of_respects (trans_of Peace hset (peace_freeProc hw rfl)) hx

theorem procPruneLeaf_peace {leaves : List Pid} : Respects Peace (procPruneLeaf p leaves) := by
  have hleaves : Respects Peace (modify fun s : State => { s with deadLeaves := leaves } : K Unit) :=
    respects_modify fun s => ⟨rfl, fun _ w hw => ⟨w, hw, .refl w⟩, fun _ v hv _ => ⟨v, hv⟩,
      .refl fun _ => trivial, rfl, rfl, rfl, id⟩
  refine .bind getProc_respects fun v => .bind hleaves fun _ => .bind kassert_respects fun _ => ?_
  cases v.parent
  case none        => exact respects_throw
  case some parent =>
    refine .bind getProc_respects fun w => ?_
    cases w.child
    case none       => exact respects_throw
    case some first =>
      refine .bind kassert_respects fun _ => .bind procUnlink_peace fun _ => procFree_peace ?_
      exact .bind getProc_respects fun _ => .ite procTryreap_peace respects_pure

theorem procPruneLeavesLoop_peace {fuel : ℕ} : Respects Peace (procPruneLeavesLoop fuel) := by
  induction fuel
  case zero => exact .bind respects_get fun s => .ite respects_throw respects_pure
  case succ fuel hi =>
    refine .bind respects_get fun s => ?_
    cases s.deadLeaves
    case nil  => exact respects_pure
    case cons => exact .bind procPruneLeaf_peace fun _ => hi

theorem procPruneLeaves_peace : Respects Peace procPruneLeaves :=
  .bind respects_get fun _ => procPruneLeavesLoop_peace

theorem procKillChildren_peace {fuel : ℕ} {o : Option Pid} :
    Respects Peace (procKillChildren fuel o) := by
  induction fuel generalizing o
  case zero =>
    cases o
    case none   => exact respects_pure
    case some _ => exact respects_throw
  case succ fuel hi =>
    cases o
    case none    => exact respects_pure
    case some it =>
      exact .bind getProc_respects fun _ => .ite (.bind procTryreap_peace fun _ => hi) hi

theorem sysWait2Loop_peace {fuel : ℕ} {o : Option Pid} : Respects Peace (sysWait2Loop fuel o) := by
  induction fuel generalizing o
  case zero =>
    cases o
    case none   => exact respects_pure
    case some _ => exact respects_throw
  case succ fuel hi =>
    have hrest {it : Pid} : Respects Peace (do
        let _ ← sysWait2Loop fuel (← getProc it).sibling
        pure true) :=
      .bind getProc_respects fun _ => .bind hi fun _ => respects_pure
    cases o
    case none    => exact respects_pure
    case some it =>
      exact .bind getProc_respects fun _ => .ite hi (.ite (.bind procTryreap_peace fun _ => hrest) hrest)

end Reap

section Namespace

variable {proc old it : Pid}

theorem procNsContains_peace {ns : Pid} : Respects Peace (procNsContains ns proc) := by
  refine .ite respects_pure (.bind getProc_respects fun v => ?_)
  cases v.parent
  case none   => exact respects_pure
  case some _ => exact .bind getProc_respects fun _ => respects_pure

theorem setPns_peace {pns : Pid} : Respects Peace (updProc it ({ · with pns := pns })) :=
  updProc_peace (fun _ => ⟨rfl, rfl, Iff.rfl, id, id, .inl, id, fun _ => rfl⟩) fun _ => rfl

theorem setNextlid_peace {lid : ℕ} : Respects Peace (updProc it ({ · with nextlid := lid })) :=
  updProc_peace (fun _ => ⟨rfl, rfl, Iff.rfl, id, id, .inl, id, fun _ => rfl⟩) fun _ => rfl

theorem procNsCreateVisit_peace : Respects Peace (procNsCreateVisit proc old it) := by
  refine .ite (.bind ?_ fun _ => ?_) respects_pure
  · exact .bind getProc_respects fun _ => .bind getProc_respects fun _ => .ite setNextlid_peace respects_pure
  · exact .bind getProc_respects fun _ => .ite setPns_peace kassert_respects

theorem procNsCreateClimb_peace {fuel : ℕ} : Respects Peace (procNsCreateClimb proc fuel it) := by
  induction fuel generalizing it
  case zero => exact respects_throw
  case succ fuel hi =>
    refine .bind getProc_respects fun v => ?_
    split
    · exact respects_pure
    · exact respects_throw
    · exact .ite (.bind getProc_respects fun _ => respects_pure) hi

theorem procNsCreateNext_peace : Respects Peace (procNsCreateNext proc old it) := by
  have hdescends {o : Option Pid} : Respects Peace (procNsCreateDescends proc old o) := by
    cases o
    case none   => exact respects_pure
    case some _ => exact .bind procNsContains_peace fun _ => .ite respects_pure procNsContains_peace
  exact .bind getProc_respects fun _ => .bind hdescends fun _ => .ite respects_pure <|
    .ite respects_pure (.bind respects_get fun _ => procNsCreateClimb_peace)

theorem procNsCreateLoop_peace {fuel : ℕ} {o : Option Pid} :
    Respects Peace (procNsCreateLoop proc old fuel o) := by
  induction fuel generalizing o
  case zero =>
    cases o
    case none   => exact respects_pure
    case some _ => exact respects_throw
  case succ fuel hi =>
    cases o
    case none   => exact respects_pure
    case some _ =>
      exact .bind procNsCreateVisit_peace fun _ => .bind procNsCreateNext_peace fun _ => hi

theorem procNsCreate_peace : Respects Peace (procNsCreate proc) := by
  refine .bind getProc_respects fun v => .ite ?_ respects_pure
  exact .bind (.bind setPns_peace fun _ => setNextlid_peace) fun _ => .bind respects_get fun _ =>
    procNsCreateLoop_peace

theorem procfsBackend_calm : Respects Calm (procfsBackend proc) := by
  refine .bind allocBackend_calm fun b => ?_
  intro s
  simp only [wlp_bind, wlp_getProc, wlp_kassert, wlp_setProc, wlp_pure]
  exact fun v hv _ => calm_setProc hv ⟨rfl, .inl rfl⟩ Iff.rfl

theorem sysGetprocfs_peace {flags : Flags} : Respects Peace (sysGetprocfs proc flags) := by
  refine .ite (respects_peace sysReturn_calm) (.bind procNsCreate_peace fun _ => respects_peace ?_)
  refine .bind procHandleInit_calm fun x => ?_
  cases x
  case none   => exact sysReturn_calm
  case some x =>
    exact .bind procfsBackend_calm fun _ => .bind updHandle_calm fun _ => sysReturn_calm

end Namespace
end Camellia
