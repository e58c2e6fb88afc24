import Camellia.Kernel.Peace
import Camellia.Lib.Sharing

namespace Camellia

-- The resources which processes can share: address spaces and tables of handles.
abbrev Resource := ℕ ⊕ Tid

def State.Allocated (s : State) : Resource → Prop
  | .inl d => (s.pagedirs.get d).isSome
  | .inr t => (s.tables.get t).isSome

-- What the processes use, each in two roles.
def State.sharing (s : State) : Sharing (Pid ⊕ Pid) Resource Cid where
  uses
    | .inl p => (s.procs.get p).bind fun v => v.pages.map fun d => (.inl d, v.pagesRefcount)
    | .inr p => (s.procs.get p).bind fun v => v.handles.map fun t => (.inr t, v.handlesRefcount)
  count := s.counts.get
  live  := s.Allocated

-- The dead do not own anything.
def Graves (s : State) : Prop :=
  ∀ p v, s.procs.get p = some v → v.state.alive = false → v.pages = none ∧ v.handles = none

-- Nobody is dying, and whoever lives has an address space and a table. The process `but` is excepted.
def Homes (s : State) (but : Pid → Prop) : Prop :=
  ∀ p v, s.procs.get p = some v → ¬but p →
    v.state ≠ .dying ∧ (v.state.alive → v.pages.isSome ∧ v.handles.isSome)

structure SharesOk (s : State) : Prop where
  valid  : s.sharing.Valid
  graves : Graves s
  homes  : Homes s fun _ => False

section Peace

variable {s t : State} {but : Pid → Prop}

theorem Peace.sharing_eq (h : Peace s t) (hg : Graves s) : t.sharing = s.sharing := by
  have huses (p : Pid) : t.sharing.uses (.inl p) = s.sharing.uses (.inl p) ∧
      t.sharing.uses (.inr p) = s.sharing.uses (.inr p) := by
    simp only [State.sharing]
    cases hw : t.procs.get p
    case some w =>
      have ⟨v, hv, hk⟩ := h.procs p w hw
      rw [hv, hk.eq]
      exact ⟨rfl, rfl⟩
    case none =>
      cases hv : s.procs.get p
      case none   => exact ⟨rfl, rfl⟩
      case some v =>
        have hd : v.state.alive = false := by
          by_contra ha
          have ⟨w, hw'⟩ := h.dead p v hv (by simpa using ha)
          rw [hw] at hw'
          contradiction
        have ⟨hp, hh⟩ := hg p v hv hd
        simp [hp, hh]
  have hlive : t.Allocated = s.Allocated := by
    funext r
    cases r
    case inl d => simp [State.Allocated, h.pagedirs]
    case inr i =>
      have := h.tables.some_iff (i := i)
      simp only [← Option.isSome_iff_exists] at this
      exact propext this
  have hcount : t.sharing.count = s.sharing.count := by simp [State.sharing, h.counts]
  have huses' : t.sharing.uses = s.sharing.uses := by
    funext i
    cases i
    case inl p => exact (huses p).1
    case inr p => exact (huses p).2
  exact Sharing.ext huses' hcount hlive

theorem Graves.peace (hg : Graves s) (h : Peace s t) : Graves t := by
  intro p w hw hd
  obtain ⟨v, hv, hk⟩ := h.procs p w hw
  rw [hk.eq]
  exact hg p v hv (hk.alive ▸ hd)

theorem Homes.peace (hh : Homes s but) (h : Peace s t) : Homes t but := by
  intro p w hw hb
  obtain ⟨v, hv, hk⟩ := h.procs p w hw
  obtain ⟨hd, ha⟩ := hh p v hv hb
  refine ⟨fun hs => hd (hk.dying.mp hs), fun hs => ?_⟩
  rw [hk.eq]
  exact ha (hk.alive ▸ hs)

theorem SharesOk.peace (hs : SharesOk s) (h : Peace s t) : SharesOk t :=
  ⟨h.sharing_eq hs.graves ▸ hs.valid, hs.graves.peace h, hs.homes.peace h⟩

end Peace

section Kill

variable {s : State} {p : Pid} {v : Proc} {o : Option Cid} {r : Resource} {i : Pid ⊕ Pid}

-- The effect of `unref` on the counters.
structure Unref (s : State) (o : Option Cid) (b : Bool) (t : State) : Prop where
  eq    : ∃ counts, t = s.withCounts counts
  other : ∀ c, o ≠ some c → t.counts.get c = s.counts.get c
  last  : b = true → s.sharing.value o = some 1
  left  : b = false → ∃ c n, o = some c ∧ s.counts.get c = some (n + 1) ∧ n ≠ 0 ∧
    t.counts.get c = some n

theorem unref_spec : wlp (unref o) (fun b t => Unref s o b t) s := by
  cases o
  case none => exact wlp_pure.mpr ⟨⟨s.counts, rfl⟩, fun _ _ => rfl, fun _ => rfl, by simp⟩
  case some c =>
    simp only [unref, wlp_bind, wlp_getCount, wlp_kassert, wlp_setCount, wlp_ite, wlp_freeCount,
      wlp_pure]
    refine fun n hn hn0 => ⟨fun h1 m _ => ?_, fun h1 => ?_⟩
    · refine ⟨⟨_, rfl⟩, fun d hd => ?_, fun _ => ?_, by simp⟩
      · have hdc : d ≠ c := fun h => hd (by rw [h])
        exact (Heap.get_free_ne hdc).trans (Heap.get_set_ne hdc)
      · have : n = 1 := by omega
        simpa [Sharing.value, State.sharing, this] using hn
    · refine ⟨⟨_, rfl⟩, fun d hd => Heap.get_set_ne fun h => hd (by rw [h]), by simp, fun _ => ?_⟩
      exact ⟨c, n - 1, rfl, by rw [hn]; congr 1; omega, h1, Heap.get_set_self hn⟩

-- A process gives up one of its resources.
structure GaveUp (s : State) (i : Pid ⊕ Pid) (t : State) : Prop where
  valid : t.sharing.Valid
  uses  : t.sharing.uses = Function.update s.sharing.uses i none

theorem gaveUp_last {t : State} (hs : s.sharing.Valid) (hi : s.sharing.uses i = some (r, o))
    (hv : s.sharing.value o = some 1) (hc : ∀ c, o ≠ some c → t.counts.get c = s.counts.get c)
    (huses : t.sharing.uses = Function.update s.sharing.uses i none)
    (hlive : ∀ q, t.Allocated q ↔ q ≠ r ∧ s.Allocated q) : GaveUp s i t := by
  refine ⟨?_, huses⟩
  have : t.sharing = s.sharing.release i r t.counts.get :=
    Sharing.ext huses rfl (funext fun q => propext (hlive q))
  rw [this]
  exact hs.release hi hv hc

theorem gaveUp_left {t : State} {c : Cid} {n : ℕ} (hs : s.sharing.Valid)
    (hi : s.sharing.uses i = some (r, some c))
    (huses : t.sharing.uses = Function.update s.sharing.uses i none)
    (hlive : t.Allocated = s.Allocated) (hn : s.counts.get c = some (n + 1)) (h0 : n ≠ 0)
    (hcount : t.counts.get c = some n) (hc : ∀ d, d ≠ c → t.counts.get d = s.counts.get d) :
    GaveUp s i t := by
  refine ⟨?_, huses⟩
  have : t.sharing = s.sharing.leave i c n := by
    refine Sharing.ext huses (funext fun d => ?_) hlive
    by_cases hd : d = c
    case pos => simp [Sharing.leave, State.sharing, hd, hcount]
    case neg => simpa [Sharing.leave, State.sharing, hd] using hc d hd
  rw [this]
  exact hs.leave hi rfl hn h0

-- A process is being killed, and the processes use what `uses` says. From some point on the process
-- is dying.
structure KillStage (p : Pid) (uses : Pid ⊕ Pid → Option (Resource × Option Cid)) (dying : Bool)
    (t : State) : Prop where
  valid  : t.sharing.Valid
  uses   : t.sharing.uses = uses
  graves : Graves t
  homes  : Homes t (· = p)
  alive  : ∃ w, t.procs.get p = some w ∧ w.state.alive ∧ (dying → w.state = .dying)

variable {uses : Pid ⊕ Pid → Option (Resource × Option Cid)} {b : Bool}

theorem KillStage.peace {t : State} (h : KillStage p uses b s) (hp : Peace s t) :
    KillStage p uses b t where
  valid  := hp.sharing_eq h.graves ▸ h.valid
  uses   := hp.sharing_eq h.graves ▸ h.uses
  graves := h.graves.peace hp
  homes  := h.homes.peace hp
  alive  := by
    have ⟨v, hv, ha, hd⟩ := h.alive
    have ⟨w, hw⟩ := hp.dead p v hv ha
    have ⟨v', hv', hk⟩ := hp.procs p w hw
    obtain rfl := Option.some_inj.mp (hv.symm.trans hv')
    exact ⟨w, hw, hk.alive.trans ha, fun hb => hk.dying.mpr (hd hb)⟩

-- Only the process itself was changed, and it is still alive.
theorem killStage_set {t : State} {w : Proc} (hg : Graves s) (hh : Homes s (· = p))
    (hv : s.procs.get p = some v) (hp : t.procs = s.procs.set p w) (hw : w.state.alive)
    (hd : b → w.state = .dying) (hvalid : t.sharing.Valid) (huses : t.sharing.uses = uses) : KillStage p uses b t where
  valid  := hvalid
  uses   := huses
  graves := fun q x hx hd => by
    rw [hp, Heap.get_set hv] at hx
    by_cases hq : q = p
    case pos =>
      rw [if_pos hq, Option.some_inj] at hx
      rw [← hx, hw] at hd
      contradiction
    case neg => exact hg q x (by simpa [hq] using hx) hd
  homes  := fun q x hx hq => by
    rw [hp, Heap.get_set_ne hq] at hx
    exact hh q x hx hq
  alive  := ⟨w, by rw [hp, Heap.get_set_self hv], hw, hd⟩

theorem uses_dropPages (hv : s.procs.get p = some v) :
    (s.withProcs (s.procs.set p { v with pages := none })).sharing.uses = Function.update s.sharing.uses (.inl p) none := by
  funext j
  cases j
  case inl q =>
    by_cases hq : q = p
    case pos => simp [State.sharing, hq, Heap.get_set_self hv]
    case neg => simp [State.sharing, hq, Heap.get_set_ne hq]
  case inr q =>
    by_cases hq : q = p
    case pos => simp [State.sharing, hq, Heap.get_set_self hv, hv]
    case neg => simp [State.sharing, Heap.get_set_ne hq]

theorem uses_dropHandles (hv : s.procs.get p = some v) :
    (s.withProcs (s.procs.set p { v with handles := none })).sharing.uses = Function.update s.sharing.uses (.inr p) none := by
  funext j
  cases j
  case inl q =>
    by_cases hq : q = p
    case pos => simp [State.sharing, hq, Heap.get_set_self hv, hv]
    case neg => simp [State.sharing, Heap.get_set_ne hq]
  case inr q =>
    by_cases hq : q = p
    case pos => simp [State.sharing, hq, Heap.get_set_self hv]
    case neg => simp [State.sharing, hq, Heap.get_set_ne hq]

theorem procKillPages_spec {d : ℕ} {c : Option Cid} (h : KillStage p uses b s)
    (huse : uses (.inl p) = some (.inl d, c)) :
    wlp (procKillPages p) (fun _ t => KillStage p (Function.update uses (.inl p) none) b t) s := by
  have ⟨v, hv, ha, hd⟩ := h.alive
  have hpages : v.pages = some d ∧ v.pagesRefcount = c := by
    rw [← h.uses] at huse
    simpa [State.sharing, hv] using huse
  simp only [procKillPages, wlp_bind, wlp_getProc]
  intro v' hv'
  obtain rfl := Option.some_inj.mp (hv.symm.trans hv')
  refine wlp_post unref_spec fun last t ht => ?_
  obtain ⟨counts, rfl⟩ := ht.eq
  have hstage {t : State} (hp : t.procs = s.procs.set p { v with pages := none })
      (hg : GaveUp s (.inl p) t) : KillStage p (Function.update uses (.inl p) none) b t :=
    killStage_set (w := { v with pages := none }) h.graves h.homes hv hp ha hd hg.valid
      (h.uses ▸ hg.uses)
  rw [← h.uses, ← hpages.2] at huse
  rw [wlp_ite]
  refine ⟨fun hb => ?_, fun hb => ?_⟩
  · simp only [wlp_bind, wlp_nonNull, wlp_freePagedir, wlp_updProc]
    intro d' hd' _ _ w hw
    obtain rfl := Option.some_inj.mp (hpages.1.symm.trans hd')
    obtain rfl := Option.some_inj.mp (hv.symm.trans hw)
    refine hstage rfl (gaveUp_last h.valid huse (ht.last hb) ht.other
      (uses_dropPages (s := (s.withCounts counts).withPagedirs _) hv) fun q => ?_)
    cases q
    case inl e => by_cases he : e = d <;> simp [State.Allocated, Heap.get_free, he]
    case inr e => simp [State.Allocated]
  · obtain ⟨c, n, hc, hn, h0, hcount⟩ := ht.left (by simpa using hb)
    rw [wlp_updProc]
    intro w hw
    obtain rfl := Option.some_inj.mp (hv.symm.trans hw)
    refine hstage rfl (gaveUp_left h.valid (hc ▸ huse)
      (uses_dropPages (s := s.withCounts counts) hv) rfl hn h0 hcount fun e he => ht.other e ?_)
    exact fun h => he (Option.some_inj.mp (hc.symm.trans h)).symm

theorem procKillTable_spec {env : Env} :
    wlp (procKillTable env p) (fun _ t => ∃ u i w, Calm s u ∧ u.procs.get p = some w ∧
      w.handles = some i ∧ t = u.withTables (u.tables.free i)) s := by
  have hclose : Respects Calm
      ((List.finRange HANDLE_MAX).forM fun i => procHandleClose env p ((i : ℕ) : Int)) :=
    .forM fun _ => procHandleClose_calm
  simp only [procKillTable, procTable, wlp_bind]
  refine wlp_post (hclose s) fun _ u hu => ?_
  simp only [wlp_getProc, wlp_nonNull, wlp_freeTable]
  exact fun w hw i hi _ _ => ⟨u, i, w, hu, hw, hi, rfl⟩

theorem procKillHandles_spec {env : Env} {i : Tid} {c : Option Cid} (h : KillStage p uses b s)
    (huse : uses (.inr p) = some (.inr i, c)) :
    wlp (procKillHandles env p) (fun _ t => KillStage p (Function.update uses (.inr p) none) b t) s := by
  obtain ⟨v, hv, ha, hd⟩ := h.alive
  have hhandles : v.handles = some i ∧ v.handlesRefcount = c := by
    rw [← h.uses] at huse
    simpa [State.sharing, hv] using huse
  simp only [procKillHandles, wlp_bind, wlp_getProc]
  intro v' hv'
  obtain rfl := Option.some_inj.mp (hv.symm.trans hv')
  refine wlp_post unref_spec fun last t ht => ?_
  obtain ⟨counts, rfl⟩ := ht.eq
  rw [← h.uses, ← hhandles.2] at huse
  rw [wlp_ite]
  refine ⟨fun hb => ?_, fun hb => ?_⟩
  · rw [wlp_bind]
    refine wlp_post procKillTable_spec ?_
    rintro _ _ ⟨u, i', w, hu, hw, hi', rfl⟩
    rw [wlp_updProc]
    intro w' hw'
    obtain rfl := Option.some_inj.mp (hw.symm.trans hw')
    -- Closing the handles changes neither what the processes use nor the counters.
    have hsharing : u.sharing = (s.withCounts counts).sharing :=
      hu.peace.sharing_eq (s := s.withCounts counts) h.graves
    have hgraves : Graves u := Graves.peace (s := s.withCounts counts) h.graves hu.peace
    have hhomes : Homes u (· = p) := Homes.peace (s := s.withCounts counts) h.homes hu.peace
    obtain ⟨v', hv', hk⟩ := hu.procs.of_get' hw
    obtain rfl := Option.some_inj.mp (hv.symm.trans hv')
    have huses : u.sharing.uses = s.sharing.uses := hsharing ▸ rfl
    have hlive : u.Allocated = s.Allocated := congrArg Sharing.live hsharing
    have hi : i' = i := by
      rw [hk.eq, hhandles.1] at hi'
      exact (Option.some_inj.mp hi').symm
    subst hi
    have hdrop := uses_dropHandles (s := u.withTables (u.tables.free i')) hw
    rw [show (u.withTables (u.tables.free i')).sharing.uses = s.sharing.uses from huses] at hdrop
    refine killStage_set (w := { w with handles := none }) hgraves hhomes hw rfl
      (hk.peace.alive.trans ha) (fun hb => hk.peace.dying.mpr (hd hb)) ?_ (h.uses ▸ hdrop)
    refine (gaveUp_last h.valid huse (ht.last hb) (fun c hc => ?_) hdrop fun q => ?_).valid
    · exact (congrArg (Heap.get · c) hu.counts).trans (ht.other c hc)
    · rw [← hlive]
      cases q
      case inl e => simp [State.Allocated]
      case inr e => by_cases he : e = i' <;> simp [State.Allocated, Heap.get_free, he]
  · obtain ⟨c, n, hc, hn, h0, hcount⟩ := ht.left (by simpa using hb)
    rw [wlp_updProc]
    intro w hw
    obtain rfl := Option.some_inj.mp (hv.symm.trans hw)
    refine killStage_set (w := { v with handles := none }) h.graves h.homes hv rfl ha hd ?_
      (h.uses ▸ uses_dropHandles (s := s.withCounts counts) hv)
    refine (gaveUp_left h.valid (hc ▸ huse) (uses_dropHandles (s := s.withCounts counts) hv) rfl hn h0
      hcount fun e he => ht.other e ?_).valid
    exact fun h => he (Option.some_inj.mp (hc.symm.trans h)).symm

theorem KillStage.respects {x : K Unit} (h : KillStage p uses b s) (hx : Respects Peace x) :
    wlp x (fun _ t => KillStage p uses b t) s :=
  wlp_post (hx s) fun _ _ => h.peace

theorem sharing_setProc {w : Proc} (hv : s.procs.get p = some v) (hp : w.pages = v.pages)
    (hpc : w.pagesRefcount = v.pagesRefcount) (hh : w.handles = v.handles)
    (hhc : w.handlesRefcount = v.handlesRefcount) :
    (s.withProcs (s.procs.set p w)).sharing = s.sharing := by
  refine Sharing.ext (funext fun j => ?_) rfl rfl
  cases j
  case inl q =>
    by_cases hq : q = p
    case pos => simp [State.sharing, hq, Heap.get_set_self hv, hv, hp, hpc]
    case neg => simp [State.sharing, Heap.get_set_ne hq]
  case inr q =>
    by_cases hq : q = p
    case pos => simp [State.sharing, hq, Heap.get_set_self hv, hv, hh, hhc]
    case neg => simp [State.sharing, Heap.get_set_ne hq]

-- The process starts to die.
theorem procKillState_spec {ret : Int} (h : KillStage p uses b s) :
    wlp (do procSetstate p .dying; updProc p ({ · with deathMsg := ret }))
      (fun _ t => KillStage p uses true t) s := by
  simp only [wlp_bind, wlp_procSetstate_dying, wlp_updProc]
  intro v hv _ w hw
  obtain rfl := Option.some_inj.mp ((Heap.get_set_self hv).symm.trans hw)
  rw [State.withProcs_procs, Heap.set_set]
  have hsharing := sharing_setProc (w := { v with state := .dying, deathMsg := ret }) hv rfl rfl rfl rfl
  refine killStage_set h.graves h.homes hv rfl rfl (fun _ => rfl) ?_ ?_
  · exact hsharing ▸ h.valid
  · exact hsharing ▸ h.uses

-- What a process uses when it has given up everything.
def without (p : Pid) (uses : Pid ⊕ Pid → Option (Resource × Option Cid)) :
    Pid ⊕ Pid → Option (Resource × Option Cid) :=
  Function.update (Function.update uses (.inr p) none) (.inl p) none

-- What `proc_kill` does before the process gives up its handles.
def procKillUntilHandles (p : Pid) : K Unit := do
  procKillControlled p
  procKillReqslot p
  procKillPipe p
  procKillTimer p

-- The loop of `proc_kill` over the slots of a table.
def procKillSlots (env : Env) (p : Pid) : K Unit :=
  (List.finRange HANDLE_MAX).forM fun i => procHandleClose env p (i : ℕ)

-- What `proc_kill` does before the process gives up its address space.
def procKillUntilPages (env : Env) (p : Pid) (ret : Int) : K Unit := do
  procKillUntilHandles p
  procKillHandles env p
  procKillMount p
  procSetstate p .dying
  updProc p ({ · with deathMsg := ret })
  procKillChildren ((← get).procs.size + 1) (← getProc p).child

theorem procKillAlive_eq {env : Env} {ret : Int} :
    procKillAlive env p ret = (do procKillUntilPages env p ret; procKillPages p) := by
  simp [procKillAlive, procKillUntilPages, procKillUntilHandles]

-- A process which lives has something to give up.
theorem SharesOk.uses_alive (hs : SharesOk s) (hv : s.procs.get p = some v) (ha : v.state.alive) :
    ∃ d i, v.pages = some d ∧ v.handles = some i ∧
      s.sharing.uses (.inl p) = some (.inl d, v.pagesRefcount) ∧
      s.sharing.uses (.inr p) = some (.inr i, v.handlesRefcount) := by
  have ⟨hpages, hhandles⟩ := (hs.homes p v hv id).2 ha
  obtain ⟨d, hd⟩ := Option.isSome_iff_exists.mp hpages
  obtain ⟨i, hi⟩ := Option.isSome_iff_exists.mp hhandles
  exact ⟨d, i, hd, hi, by simp [State.sharing, hv, hd], by simp [State.sharing, hv, hi]⟩

theorem procKillUntilHandles_spec (hs : SharesOk s) (hv : s.procs.get p = some v)
    (ha : v.state.alive) :
    wlp (procKillUntilHandles p) (fun _ t => KillStage p s.sharing.uses false t) s := by
  have hstage : KillStage p s.sharing.uses false s :=
    ⟨hs.valid, rfl, hs.graves, fun q w hw _ => hs.homes q w hw id, v, hv, ha, by simp⟩
  simp only [procKillUntilHandles, wlp_bind]
  refine wlp_post (hstage.respects (respects_peace procKillControlled_calm)) fun _ _ h₁ => ?_
  refine wlp_post (h₁.respects (respects_peace procKillReqslot_calm)) fun _ _ h₂ => ?_
  refine wlp_post (h₂.respects (respects_peace procKillPipe_calm)) fun _ _ h₃ => ?_
  exact h₃.respects (respects_peace procKillTimer_calm)

theorem procKillUntilPages_spec {env : Env} {ret : Int} (hs : SharesOk s)
    (hv : s.procs.get p = some v) (ha : v.state.alive) :
    wlp (procKillUntilPages env p ret) (fun _ t =>
      KillStage p (Function.update s.sharing.uses (.inr p) none) true t) s := by
  have ⟨d, i, _, _, _, huse⟩ := hs.uses_alive hv ha
  simp only [procKillUntilPages, wlp_bind]
  refine wlp_post (procKillUntilHandles_spec hs hv ha) fun _ _ h₁ => ?_
  refine wlp_post (procKillHandles_spec h₁ huse) fun _ _ h₂ => ?_
  refine wlp_post (h₂.respects (respects_peace procKillMount_calm)) fun _ _ h₃ => ?_
  have hdie : wlp (do procSetstate p .dying; updProc p ({ · with deathMsg := ret })) _ _ :=
    procKillState_spec h₃
  rw [wlp_bind] at hdie
  refine wlp_post hdie fun _ _ hset => wlp_post hset fun _ _ h₄ => ?_
  simp only [wlp_get, wlp_getProc]
  exact fun w _ => h₄.respects procKillChildren_peace

theorem procKillAlive_spec {env : Env} {ret : Int} (hs : SharesOk s) (hv : s.procs.get p = some v)
    (ha : v.state.alive) :
    wlp (procKillAlive env p ret) (fun _ t => KillStage p (without p s.sharing.uses) true t) s := by
  have ⟨d, i, _, _, huse, _⟩ := hs.uses_alive hv ha
  rw [procKillAlive_eq, wlp_bind]
  refine wlp_post (procKillUntilPages_spec hs hv ha) fun _ _ h => ?_
  exact procKillPages_spec h (by simpa using huse)

-- The process is dead, and everything it used was given up.
theorem KillStage.dead {w : Proc} {state : PState} (h : KillStage p (without p uses) b s)
    (hw : s.procs.get p = some w) (hd : state.alive = false) :
    SharesOk (s.withProcs (s.procs.set p { w with state := state })) ∧
      (s.withProcs (s.procs.set p { w with state := state })).sharing.uses = without p uses := by
  have hsharing := sharing_setProc (w := { w with state := state }) hw rfl rfl rfl rfl
  have hpages : w.pages = none := by
    have := congrFun h.uses (.inl p)
    simpa [State.sharing, hw, without] using this
  have hhandles : w.handles = none := by
    have := congrFun h.uses (.inr p)
    simpa [State.sharing, hw, without] using this
  refine ⟨⟨hsharing ▸ h.valid, fun q x hx hq => ?_, fun q x hx _ => ?_⟩, hsharing ▸ h.uses⟩
  · rw [State.withProcs_procs, Heap.get_set hw] at hx
    by_cases hqp : q = p
    case pos =>
      rw [if_pos hqp, Option.some_inj] at hx
      exact hx ▸ ⟨hpages, hhandles⟩
    case neg => exact h.graves q x (by simpa [hqp] using hx) hq
  · rw [State.withProcs_procs, Heap.get_set hw] at hx
    by_cases hqp : q = p
    case pos =>
      rw [if_pos hqp, Option.some_inj] at hx
      subst hx
      refine ⟨fun hs => ?_, fun ha => ?_⟩
      · simp only at hs
        simp [hs, PState.alive] at hd
      · simp [hd] at ha
    case neg => exact h.homes q x (by simpa [hqp] using hx) hqp

theorem procKillDying_spec (h : KillStage p (without p uses) true s) :
    wlp (procKillDying p) (fun _ t => SharesOk t ∧ t.sharing.uses = without p uses) s := by
  have ⟨v, hv, _, hd⟩ := h.alive
  have htomb : wlp (procSetstate p .tombstone)
      (fun _ t => SharesOk t ∧ t.sharing.uses = without p uses) s := by
    rw [wlp_procSetstate_tombstone]
    exact fun w hw _ => h.dead hw rfl
  have htoreap : wlp (procSetstate p .toreap)
      (fun _ t => SharesOk t ∧ t.sharing.uses = without p uses) s :=
    wlp_procSetstate_toreap fun w hw _ _ => h.dead hw rfl
  simp only [procKillDying, wlp_bind, wlp_getProc]
  intro w hw
  obtain rfl := Option.some_inj.mp (hv.symm.trans hw)
  rw [if_pos (hd rfl)]
  cases v.parent
  case none   => exact htomb
  case some q =>
    simp only [wlp_bind, wlp_getProc, wlp_ite]
    exact fun _ _ => ⟨fun _ => htoreap, fun _ => htomb⟩

-- The first process does not die without an end of everything.
theorem wlp_procKillFirst {R : Unit → State → Prop} : wlp (procKillFirst p) R s := by
  simp only [procKillFirst, wlp_bind]
  refine wlp_post (procPruneLeaves_peace s) fun _ _ _ => ?_
  simp [wlp_ite]

theorem procKill_spec {env : Env} {ret : Int} (hs : SharesOk s) (hv : s.procs.get p = some v) :
    wlp (procKill env p ret) (fun _ t => SharesOk t ∧ t.sharing.uses =
      if v.state.alive then without p s.sharing.uses else s.sharing.uses) s := by
  have htail {t : State} (ht : SharesOk t) : wlp (do
      if p = (← get).first then
        procKillFirst p
      else
        procTryreap p) (fun _ u => SharesOk u ∧ u.sharing.uses = t.sharing.uses) t := by
    simp only [wlp_bind, wlp_get, wlp_ite]
    refine ⟨fun _ => wlp_procKillFirst, fun _ => ?_⟩
    exact wlp_post (procTryreap_peace t) fun _ u hu =>
      ⟨ht.peace hu, by rw [hu.sharing_eq ht.graves]⟩
  simp only [procKill, wlp_bind, wlp_getProc]
  intro w hw
  obtain rfl := Option.some_inj.mp (hv.symm.trans hw)
  by_cases ha : v.state.alive
  case pos =>
    simp only [if_pos ha, wlp_bind]
    refine wlp_post (procKillAlive_spec hs hv ha) fun _ _ h₁ => ?_
    refine wlp_post (procKillDying_spec h₁) fun _ t hx => ?_
    obtain ⟨ht, huses⟩ := hx
    rw [← wlp_bind]
    exact wlp_post (htail ht) fun _ u hu => ⟨hu.1, hu.2.trans huses⟩
  case neg =>
    simp only [if_neg ha, procKillDying, wlp_bind, wlp_getProc]
    intro w hw
    obtain rfl := Option.some_inj.mp (hv.symm.trans hw)
    rw [if_neg (hs.homes p v hv id).1, wlp_pure, ← wlp_bind]
    exact htail hs

end Kill

section Fork

variable {s t : State} {parent child : Pid} {v : Proc} {flags : Flags} {o : Option Cid}

-- What happens to the existing processes when one of them forks.
structure Proc.Forks (v w : Proc) : Prop where
  eq : w = { v with
    pagesRefcount   := w.pagesRefcount
    handlesRefcount := w.handlesRefcount
    nextlid         := w.nextlid }

structure Forks (s t : State) : Prop where
  procs     : s.procs.Related Proc.Forks t.procs
  pagedirs  : s.pagedirs.Grows (fun _ _ => True) t.pagedirs
  tables    : s.tables.Grows (fun _ _ => True) t.tables
  first     : t.first = s.first
  scheduled : t.scheduled = s.scheduled
  reports   : t.reports = s.reports

instance : IsPreorder State Forks where
  refl _ := ⟨.refl fun _ => ⟨rfl⟩, .refl fun _ => trivial, .refl fun _ => trivial, rfl, rfl, rfl⟩
  trans _ _ _ h₁ h₂ := {
    procs     := h₁.procs.trans (fun _ _ _ h₁ h₂ => ⟨by rw [h₂.eq, h₁.eq]⟩) h₂.procs
    pagedirs  := h₁.pagedirs.trans (fun _ _ _ _ _ => trivial) h₂.pagedirs
    tables    := h₁.tables.trans (fun _ _ _ _ _ => trivial) h₂.tables
    first     := h₂.first.trans h₁.first
    scheduled := h₂.scheduled.trans h₁.scheduled
    reports   := h₂.reports.trans h₁.reports }

theorem forks_setProc {p : Pid} {w : Proc} (hv : s.procs.get p = some v) (hk : v.Forks w) :
    Forks s (s.withProcs (s.procs.set p w)) :=
  ⟨.set (fun _ => ⟨rfl⟩) hv hk, .refl fun _ => trivial, .refl fun _ => trivial, rfl, rfl, rfl⟩

theorem forks_of_eq (hp : t.procs = s.procs) (hd : t.pagedirs = s.pagedirs)
    (ht : t.tables = s.tables) (hf : t.first = s.first) (hs : t.scheduled = s.scheduled)
    (hr : t.reports = s.reports) : Forks s t :=
  ⟨hp ▸ .refl fun _ => ⟨rfl⟩, hd ▸ .refl fun _ => trivial, ht ▸ .refl fun _ => trivial, hf, hs, hr⟩

-- The counter of what is shared, which may be a new one, counts one user more.
structure ForkCount (s : State) (o : Option Cid) (c : Cid) (n : ℕ) (t : State) : Prop where
  eq    : ∃ counts, t = s.withCounts counts
  count : t.counts.get = Function.update s.counts.get c (some (n + 1))
  key   : o = some c ∨ o = none ∧ s.counts.get c = none
  value : s.sharing.value o = some n

theorem procForkCount_spec :
    wlp (procForkCount o) (fun c t => ∃ n, ForkCount s o c n t) s := by
  cases o
  case none =>
    simp only [procForkCount, wlp_bind, wlp_allocCount, wlp_getCount, wlp_setCount, wlp_pure]
    intro n hn
    obtain rfl := Option.some_inj.mp (Heap.get_alloc_self.symm.trans hn)
    refine ⟨1, ⟨_, rfl⟩, funext fun d => ?_, .inr ⟨rfl, Heap.get_size⟩, rfl⟩
    by_cases hd : d = s.counts.size
    case pos => simp [hd]
    case neg => simp [hd, Heap.get_alloc]
  case some c =>
    simp only [procForkCount, wlp_bind, wlp_pure, wlp_getCount, wlp_setCount]
    intro n hn
    refine ⟨n, ⟨_, rfl⟩, funext fun d => ?_, .inl rfl, hn⟩
    by_cases hd : d = c
    case pos => simp [hd, Heap.get_set_self hn]
    case neg => simp [hd, Heap.get_set_ne hd]

theorem uses_countPages {p : Pid} {d : ℕ} (hv : s.procs.get p = some v) (hd : v.pages = some d) :
    (s.withProcs (s.procs.set p { v with pagesRefcount := o })).sharing.uses =
      Function.update s.sharing.uses (.inl p) (some (.inl d, o)) := by
  funext j
  cases j
  case inl q =>
    by_cases hq : q = p
    case pos => simp [State.sharing, hq, Heap.get_set_self hv, hd]
    case neg => simp [State.sharing, hq, Heap.get_set_ne hq]
  case inr q =>
    by_cases hq : q = p
    case pos => simp [State.sharing, hq, Heap.get_set_self hv, hv]
    case neg => simp [State.sharing, Heap.get_set_ne hq]

theorem uses_countHandles {p : Pid} {i : Tid} (hv : s.procs.get p = some v)
    (hi : v.handles = some i) :
    (s.withProcs (s.procs.set p { v with handlesRefcount := o })).sharing.uses =
      Function.update s.sharing.uses (.inr p) (some (.inr i, o)) := by
  funext j
  cases j
  case inl q =>
    by_cases hq : q = p
    case pos => simp [State.sharing, hq, Heap.get_set_self hv, hv]
    case neg => simp [State.sharing, Heap.get_set_ne hq]
  case inr q =>
    by_cases hq : q = p
    case pos => simp [State.sharing, hq, Heap.get_set_self hv, hi]
    case neg => simp [State.sharing, hq, Heap.get_set_ne hq]

-- The child's address space, with which it could be added to the users.
theorem procForkPages_spec {d : ℕ} (hs : s.sharing.Valid) (hv : s.procs.get parent = some v)
    (hd : v.pages = some d) (hc : s.sharing.uses (.inl child) = none) :
    wlp (procForkPages parent flags) (fun x t => Forks s t ∧ ∃ d, x.1 = some d ∧
      (t.sharing.join (.inl child) (.inl d, x.2)).Valid) s := by
  simp only [procForkPages, wlp_bind, wlp_getProc, wlp_ite]
  intro v' hv'
  obtain rfl := Option.some_inj.mp (hv.symm.trans hv')
  refine ⟨fun _ => ?_, fun _ => ?_⟩
  · refine wlp_post procForkCount_spec fun c t hx => ?_
    obtain ⟨n, hn⟩ := hx
    obtain ⟨counts, rfl⟩ := hn.eq
    simp only [wlp_updProc, wlp_pure]
    intro w hw
    obtain rfl := Option.some_inj.mp (hv.symm.trans hw)
    refine ⟨?_, d, hd, ?_⟩
    · refine trans_of Forks ?_ (forks_setProc hw ⟨rfl⟩)
      exact forks_of_eq rfl rfl rfl rfl rfl rfl
    · have huse : s.sharing.uses (.inl parent) = some (.inl d, v.pagesRefcount) := by
        simp [State.sharing, hv, hd]
      refine (hs.share huse hc hn.key hn.value).congr ?_ hn.count fun _ => Iff.rfl
      exact congrArg (Function.update · _ _) (uses_countPages (s := s.withCounts counts) hv hd)
  · simp only [wlp_allocPagedir, wlp_pure]
    refine ⟨⟨.refl fun _ => ⟨rfl⟩, .alloc fun _ => trivial, .refl fun _ => trivial, rfl, rfl, rfl⟩, _, rfl, ?_⟩
    refine (hs.create hc (r := .inl s.pagedirs.size) ?_).congr rfl rfl fun q => ?_
    · simp [State.sharing, State.Allocated]
    · cases q
      case inl e =>
        by_cases he : e = s.pagedirs.size <;>
          simp [Sharing.join, Sharing.create, State.sharing, State.Allocated, Heap.get_alloc, he]
      case inr e => simp [Sharing.join, Sharing.create, State.sharing, State.Allocated]

-- The steps of `proc_fork` which have nothing to do with what is shared.
structure ForkFrame (s t : State) : Prop where
  forks   : Forks s t
  sharing : t.sharing = s.sharing

theorem procForkGlobalid_frame : wlp procForkGlobalid (fun _ t => ForkFrame s t) s := by
  simp only [procForkGlobalid, wlp_bind, wlp_get, wlp_ite, wlp_throw, implies_true, true_and,
    wlp_modify, wlp_pure]
  exact fun _ => ⟨forks_of_eq rfl rfl rfl rfl rfl rfl, rfl⟩

theorem procForkLocalid_frame {pns : Pid} : wlp (procForkLocalid pns) (fun _ t => ForkFrame s t) s := by
  simp only [procForkLocalid, wlp_bind, wlp_getProc, wlp_ite, wlp_throw, implies_true, true_and,
    wlp_updProc, wlp_pure]
  exact fun _ _ _ w hw => ⟨forks_setProc hw ⟨rfl⟩, sharing_setProc hw rfl rfl rfl rfl⟩

theorem procForkControlled_frame {b : Option Bid} :
    wlp (procForkControlled b flags) (fun _ t => ForkFrame s t) s := by
  have hs : ForkFrame s s := ⟨refl_of Forks s, rfl⟩
  simp only [procForkControlled, wlp_ite, wlp_pure]
  refine ⟨fun _ => hs, fun _ => ?_⟩
  cases b
  case none   => exact wlp_pure.mpr hs
  case some b =>
    simp only [wlp_bind, wlp_getBackend, wlp_kassert, wlp_setBackend, wlp_pure]
    exact fun _ _ _ => ⟨forks_of_eq rfl rfl rfl rfl rfl rfl, rfl⟩

theorem procForkMount_frame {m : Option Mid} : wlp (procForkMount m) (fun _ t => ForkFrame s t) s := by
  cases m
  case none   => exact wlp_throw.mpr trivial
  case some m =>
    simp only [procForkMount, wlp_bind, wlp_getMount, wlp_setMount, wlp_pure]
    exact fun _ _ => ⟨forks_of_eq rfl rfl rfl rfl rfl rfl, rfl⟩

-- One iteration of the loop which copies the handles.
theorem respects_copySlot {R : State → State → Prop} [IsPreorder State R] {table : Table} {i : Fin HANDLE_MAX} {t : Tid}
    (hset : Respects R (setSlot t i (table i)))
    (hupd : ∀ h, Respects R (updHandle h fun v => { v with refcount := v.refcount + 1 })) : Respects R (do
      setSlot t i (table i)
      match table i with
      | none   => pure ()
      | some h => updHandle h fun v => { v with refcount := v.refcount + 1 }) := by
  refine .bind hset fun _ => ?_
  cases table i
  case none   => exact respects_pure
  case some h => exact hupd h

theorem procForkTable_spec {table : Table} :
    wlp (procForkTable table) (fun i t => i = s.tables.size ∧ Forks s t ∧
      Calm (s.withTables (s.tables.alloc fun _ => none)) t) s := by
  have hset {i : Fin HANDLE_MAX} {t : Tid} : Respects Forks (setSlot t i (table i)) := by
    intro s
    rw [wlp_setSlot]
    exact fun _ hv => ⟨.refl fun _ => ⟨rfl⟩, .refl fun _ => trivial,
      .set (fun _ => trivial) hv trivial, rfl, rfl, rfl⟩
  have hupd {h : Hid} : Respects Forks (updHandle h fun v => { v with refcount := v.refcount + 1 }) := by
    intro s
    rw [wlp_updHandle]
    exact fun _ _ => forks_of_eq rfl rfl rfl rfl rfl rfl
  simp only [procForkTable, wlp_bind, wlp_allocTable, wlp_pure]
  have halloc : Forks s (s.withTables (s.tables.alloc fun _ => none)) :=
    ⟨.refl fun _ => ⟨rfl⟩, .refl fun _ => trivial, .alloc fun _ => trivial, rfl, rfl, rfl⟩
  refine wlp_post (wlp_and (Respects.forM (fun _ => respects_copySlot hset fun _ => hupd) _)
    (Respects.forM (fun _ => respects_copySlot setSlot_calm fun _ => updHandle_calm) _)) ?_
  exact fun _ t h => ⟨trivial, trans_of Forks halloc h.1, h.2⟩

-- An empty table.
theorem wp_procForkTable_none {E : Fault → Prop} :
    wp (procForkTable fun _ => none) (fun i t => i = s.tables.size ∧
      t = { s with tables := s.tables.alloc fun _ => none }) E s := by
  simp only [procForkTable, allocTable, wp_bind, wp_get, wp_modify, wp_pure]
  refine wp_post (wp_forM (fun _ t => t = { s with tables := s.tables.alloc fun _ => none }) ?_ rfl)
    fun _ t ht => ?_
  · rintro i l t rfl
    simp [setSlot, getTable, Heap.get_alloc_self]
  · exact wp_pure.mpr ⟨rfl, ht⟩

-- The child's table, with which it could be added to the users.
theorem procForkHandles_spec {i : Tid} {z : Resource × Option Cid}
    (hs : (s.sharing.join (.inl child) z).Valid) (hv : s.procs.get parent = some v)
    (hi : v.handles = some i) (hc : s.sharing.uses (.inr child) = none) (hg : Graves s) :
    wlp (procForkHandles parent flags) (fun x t => Forks s t ∧ ∃ i, x.1 = some i ∧
      ((t.sharing.join (.inl child) z).join (.inr child) (.inr i, x.2)).Valid) s := by
  have hjoin : (s.sharing.join (.inl child) z).uses (.inr child) = none := by
    simpa [Sharing.join] using hc
  simp only [procForkHandles, wlp_bind, wlp_getProc, wlp_ite]
  intro v' hv'
  obtain rfl := Option.some_inj.mp (hv.symm.trans hv')
  refine ⟨fun _ => ?_, fun _ => ?_⟩
  · refine wlp_post procForkCount_spec fun c t hx => ?_
    obtain ⟨n, hn⟩ := hx
    obtain ⟨counts, rfl⟩ := hn.eq
    simp only [wlp_updProc, wlp_pure]
    intro w hw
    obtain rfl := Option.some_inj.mp (hv.symm.trans hw)
    refine ⟨?_, i, hi, ?_⟩
    · refine trans_of Forks ?_ (forks_setProc hw ⟨rfl⟩)
      exact forks_of_eq rfl rfl rfl rfl rfl rfl
    · have huse : (s.sharing.join (.inl child) z).uses (.inr parent) =
          some (.inr i, v.handlesRefcount) := by
        simp [Sharing.join, State.sharing, hv, hi]
      refine (hs.share huse hjoin hn.key hn.value).congr ?_ hn.count fun _ => Iff.rfl
      have := uses_countHandles (s := s.withCounts counts) (o := some c) hv hi
      simp only [Sharing.join, Sharing.share, this]
      rw [Function.update_comm (show Sum.inl child ≠ Sum.inr parent by simp)]
      rfl
  · simp only [procTable, wlp_bind, wlp_getProc, wlp_nonNull, wlp_getTable, wlp_pure]
    intro _ _ _ _ table _
    refine wlp_post procForkTable_spec fun i' t hx => ?_
    obtain ⟨hi', hf, hcalm⟩ := hx
    subst hi'
    refine ⟨hf, _, rfl, ?_⟩
    have hsharing : t.sharing = (s.withTables (s.tables.alloc fun _ => none)).sharing :=
      hcalm.peace.sharing_eq hg
    rw [hsharing]
    refine (hs.create hjoin (r := .inr s.tables.size) ?_).congr rfl rfl fun q => ?_
    · simp [Sharing.join, State.sharing, State.Allocated]
    · cases q
      case inl e => simp [Sharing.join, Sharing.create, State.sharing, State.Allocated]
      case inr e =>
        by_cases he : e = s.tables.size <;>
          simp [Sharing.join, Sharing.create, State.sharing, State.Allocated, Heap.get_alloc, he]

theorem Graves.forks (hg : Graves s) (h : Forks s t) : Graves t := by
  intro p w hw hd
  have ⟨v, hv, hk⟩ := h.procs.of_get' hw
  rw [hk.eq] at hd ⊢
  exact hg p v hv hd

theorem Homes.forks {but : Pid → Prop} (hh : Homes s but) (h : Forks s t) : Homes t but := by
  intro p w hw hb
  have ⟨v, hv, hk⟩ := h.procs.of_get' hw
  rw [hk.eq]
  exact hh p v hv hb

-- The process which `proc_fork` creates, as far as it is known before.
structure ForkChild (v : Proc) (flags : Flags) (w : Proc) : Prop where
  state   : w.state = .running
  noreap  : w.noreap = flags.has FORK_NOREAP
  pns     : w.pns = v.pns
  child   : w.child = none

-- No number is handed out.
structure SameIds (s t : State) : Prop where
  nextPid : t.nextPid = s.nextPid
  nextlid : s.procs.Related (fun v w => w.nextlid = v.nextlid) t.procs

instance : IsPreorder State SameIds where
  refl _            := ⟨rfl, .refl fun _ => rfl⟩
  trans _ _ _ h₁ h₂ :=
    ⟨h₂.nextPid.trans h₁.nextPid, h₁.nextlid.trans (fun _ _ _ h h' => h'.trans h) h₂.nextlid⟩

theorem sameIds_of_eq (hp : t.procs = s.procs) (hn : t.nextPid = s.nextPid) : SameIds s t :=
  ⟨hn, hp ▸ .refl fun _ => rfl⟩

theorem updProc_sameIds {p : Pid} {f : Proc → Proc} (hf : ∀ v, (f v).nextlid = v.nextlid) :
    Respects SameIds (updProc p f) := by
  intro s
  rw [wlp_updProc]
  exact fun v hv => ⟨rfl, .set (fun _ => rfl) hv (hf v)⟩

theorem procForkCount_sameIds : Respects SameIds (procForkCount o) := by
  intro s
  refine wlp_post procForkCount_spec fun c t ⟨n, hn⟩ => ?_
  obtain ⟨counts, rfl⟩ := hn.eq
  exact sameIds_of_eq rfl rfl

theorem procForkPages_sameIds : Respects SameIds (procForkPages parent flags) := by
  refine .bind getProc_respects fun v => .ite ?_ ?_
  · exact .bind procForkCount_sameIds fun _ => .bind (updProc_sameIds fun _ => rfl) fun _ =>
      respects_pure
  · have halloc : Respects SameIds allocPagedir := by
      intro s
      rw [wlp_allocPagedir]
      exact sameIds_of_eq rfl rfl
    exact .bind halloc fun _ => respects_pure

theorem procForkControlled_sameIds {b : Option Bid} :
    Respects SameIds (procForkControlled b flags) := by
  refine .ite respects_pure ?_
  cases b
  case none   => exact respects_pure
  case some b =>
    exact .bind getBackend_respects fun _ => .bind kassert_respects fun _ =>
      .bind (respects_modify fun _ => sameIds_of_eq rfl rfl) fun _ => respects_pure

theorem procForkMount_sameIds {m : Option Mid} : Respects SameIds (procForkMount m) := by
  cases m
  case none   => exact respects_throw
  case some m =>
    exact .bind getMount_respects fun _ => .bind (respects_modify fun _ => sameIds_of_eq rfl rfl)
      fun _ => respects_pure

theorem procForkHandles_sameIds : Respects SameIds (procForkHandles parent flags) := by
  have htable {table : Table} : Respects SameIds (procForkTable table) := by
    have hslot {t : Tid} {i : Fin HANDLE_MAX} : Respects SameIds (setSlot t i (table i)) := by
      intro s
      rw [wlp_setSlot]
      exact fun _ _ => sameIds_of_eq rfl rfl
    have hupd {h : Hid} : Respects SameIds (updHandle h fun v => { v with refcount := v.refcount + 1 }) := by
      intro s
      rw [wlp_updHandle]
      exact fun _ _ => sameIds_of_eq rfl rfl
    refine .bind (fun s => ?_) fun t =>
      .bind (.forM fun _ => respects_copySlot hslot fun _ => hupd) fun _ => respects_pure
    rw [wlp_allocTable]
    exact sameIds_of_eq rfl rfl
  refine .bind getProc_respects fun v => .ite ?_ ?_
  · exact .bind procForkCount_sameIds fun _ => .bind (updProc_sameIds fun _ => rfl) fun _ =>
      respects_pure
  · have hget : Respects SameIds (procTable parent) :=
      .bind getProc_respects fun _ => nonNull_respects
    exact .bind hget fun _ => .bind getTable_respects fun _ => .bind htable fun _ => respects_pure

-- The ids of a new process are the next ones, in the namespace of its parent and among all processes.
structure Numbered (s : State) (parent c : Pid) (t : State) : Prop where
  nextPid : s.nextPid ≠ 0 ∧ t.nextPid = (s.nextPid + 1) % 2 ^ 32
  ids     : ∃ v o, s.procs.get parent = some v ∧ s.procs.get v.pns = some o ∧ o.nextlid ≠ 0 ∧
    (∀ w, t.procs.get c = some w → w.globalid = s.nextPid ∧ w.localid = o.nextlid) ∧
    ∀ q x y, s.procs.get q = some x → t.procs.get q = some y →
      y.nextlid = if q = v.pns then (o.nextlid + 1) % 2 ^ 32 else x.nextlid

theorem procFork_numbered :
    wlp (procFork parent flags) (fun c t => Numbered s parent c t) s := by
  simp only [procFork, wlp_bind, wlp_getProc, wlp_kassert]
  intro v hv hrun
  refine wlp_post (procForkPages_sameIds s) fun pages s₁ h₁ => ?_
  simp only [procForkGlobalid, procForkLocalid, wlp_bind, wlp_get, wlp_ite, wlp_throw, implies_true,
    true_and, wlp_modify, wlp_pure, wlp_getProc, wlp_updProc]
  intro hg o₁ ho₁ hl w₁ hw₁
  obtain rfl := Option.some_inj.mp (ho₁.symm.trans hw₁)
  obtain ⟨o, ho, hol⟩ := h₁.nextlid.of_get' ho₁
  generalize hs₂ : State.withProcs _ _ = s₂
  refine wlp_post (procForkControlled_sameIds s₂) fun controlled s₃ h₃ => ?_
  refine wlp_post (procForkMount_sameIds s₃) fun mount s₄ h₄ => ?_
  refine wlp_post (procForkHandles_sameIds s₄) fun handles s₅ h₅ => ?_
  have hlast : SameIds s₂ s₅ := trans_of SameIds h₃ (trans_of SameIds h₄ h₅)
  subst hs₂
  simp only [procForkLink, wlp_bind, wlp_getProc, wlp_allocProc, wlp_updProc, wlp_pure]
  intro x hx x' hx'
  obtain rfl := Option.some_inj.mp ((Heap.get_alloc_of_some hx).symm.trans hx')
  have hne : s₅.procs.size ≠ parent := fun h => absurd (Heap.lt_size hx) (by simp [h])
  refine ⟨⟨h₁.nextPid ▸ hg, ?_⟩, v, o, hv, ho, hol ▸ hl, fun w hw => ?_, fun q y z hy hz => ?_⟩
  · simpa [h₁.nextPid] using hlast.nextPid
  · simp only [State.withProcs_procs] at hw
    rw [Heap.get_set_ne hne, Heap.get_alloc_self, Option.some_inj] at hw
    subst hw
    exact ⟨h₁.nextPid, hol⟩
  · obtain ⟨y₁, hy₁, hl₁⟩ := h₁.nextlid.of_get hy
    have hset : ∃ y₂, (s₁.procs.set v.pns { o₁ with nextlid := (o₁.nextlid + 1) % 2 ^ 32 }).get q = some y₂ ∧
        y₂.nextlid = if q = v.pns then (o.nextlid + 1) % 2 ^ 32 else y.nextlid := by
      rw [Heap.get_set ho₁]
      by_cases hq : q = v.pns
      case pos => exact ⟨_, if_pos hq, by simp [hq, hol]⟩
      case neg => exact ⟨y₁, by rw [if_neg hq, hy₁], by rw [if_neg hq, hl₁]⟩
    obtain ⟨y₂, hy₂, hl₂⟩ := hset
    obtain ⟨y₅, hy₅, hl₅⟩ := hlast.nextlid.of_get hy₂
    have hz' : z.nextlid = y₅.nextlid := by
      simp only [State.withProcs_procs] at hz
      rw [Heap.get_set (Heap.get_alloc_of_some hx)] at hz
      by_cases hq : q = parent
      case pos =>
        rw [if_pos hq, Option.some_inj] at hz
        rw [hq, hx, Option.some_inj] at hy₅
        rw [← hz, ← hy₅]
      case neg =>
        rw [if_neg hq, Heap.get_alloc_of_some hy₅, Option.some_inj] at hz
        rw [hz]
    rw [hz', hl₅, hl₂]

-- A process is born.
structure Born (s : State) (parent : Pid) (flags : Flags) (c : Pid) (t : State) : Prop where
  fresh     : c = s.procs.size
  size      : t.procs.size = s.procs.size + 1
  child     : ∃ v w, s.procs.get parent = some v ∧ v.state = .running ∧ t.procs.get c = some w ∧
    ForkChild v flags w ∧ w.parent = some parent ∧ w.sibling = v.child
  procs     : ∀ q v, s.procs.get q = some v → ∃ w x, t.procs.get q = some w ∧ v.Forks x ∧
    w = { x with child := if q = parent then some c else v.child }
  old       : ∀ q, q ≠ c → s.procs.get q = none → t.procs.get q = none
  pagedirs  : s.pagedirs.Grows (fun _ _ => True) t.pagedirs
  tables    : s.tables.Grows (fun _ _ => True) t.tables
  first     : t.first = s.first
  scheduled : t.scheduled = s.scheduled
  reports   : t.reports = s.reports
  numbered  : Numbered s parent c t

theorem sharing_allocProc {w : Proc} {d : ℕ} {i : Tid} (hd : w.pages = some d)
    (hi : w.handles = some i) :
    (s.withProcs (s.procs.alloc w)).sharing =
      (s.sharing.join (.inl s.procs.size) (.inl d, w.pagesRefcount)).join (.inr s.procs.size)
        (.inr i, w.handlesRefcount) := by
  refine Sharing.ext (funext fun j => ?_) rfl rfl
  cases j
  case inl q => by_cases hq : q = s.procs.size <;> simp [State.sharing, Sharing.join, Heap.get_alloc, hq, hd]
  case inr q => by_cases hq : q = s.procs.size <;> simp [State.sharing, Sharing.join, Heap.get_alloc, hq, hi]

theorem procForkLink_spec {w : Proc} {d : ℕ} {i : Tid} (hd : w.pages = some d)
    (hi : w.handles = some i) (ha : w.state = .running)
    (hs : ((s.sharing.join (.inl s.procs.size) (.inl d, w.pagesRefcount)).join (.inr s.procs.size)
      (.inr i, w.handlesRefcount)).Valid) (hg : Graves s) (hh : Homes s fun _ => False) :
    wlp (procForkLink parent w) (fun c t => SharesOk t ∧ c = s.procs.size ∧
      ∃ v, s.procs.get parent = some v ∧ t = s.withProcs ((s.procs.alloc
        { w with sibling := v.child, child := none, parent := some parent }).set parent
          { v with child := some c })) s := by
  simp only [procForkLink, wlp_bind, wlp_getProc, wlp_allocProc, wlp_updProc, wlp_pure]
  intro v hv v' hv'
  obtain rfl := Option.some_inj.mp ((Heap.get_alloc_of_some hv).symm.trans hv')
  refine ⟨⟨?_, ?_, ?_⟩, trivial, v, hv, rfl⟩
  · have hlink := sharing_setProc (w := { v with child := some s.procs.size }) hv' rfl rfl rfl rfl
    have halloc := sharing_allocProc (s := s)
      (w := { w with sibling := v.child, child := none, parent := some parent }) hd hi
    exact (hlink.trans halloc) ▸ hs
  · intro q x hx hdead
    rw [State.withProcs_procs, Heap.get_set hv'] at hx
    by_cases hq : q = parent
    case pos =>
      rw [if_pos hq, Option.some_inj] at hx
      subst hx
      exact hg parent v hv hdead
    case neg =>
      rw [if_neg hq, State.withProcs_procs, Heap.get_alloc] at hx
      by_cases hq' : q = s.procs.size
      case pos =>
        rw [if_pos hq', Option.some_inj] at hx
        subst hx
        simp [ha, PState.alive] at hdead
      case neg => exact hg q x (by simpa [hq'] using hx) hdead
  · intro q x hx _
    rw [State.withProcs_procs, Heap.get_set hv'] at hx
    by_cases hq : q = parent
    case pos =>
      rw [if_pos hq, Option.some_inj] at hx
      subst hx
      exact hh parent v hv id
    case neg =>
      rw [if_neg hq, State.withProcs_procs, Heap.get_alloc] at hx
      by_cases hq' : q = s.procs.size
      case pos =>
        rw [if_pos hq', Option.some_inj] at hx
        subst hx
        exact ⟨by simp [ha], fun _ => by simp [hd, hi]⟩
      case neg => exact hh q x (by simpa [hq'] using hx) id

-- The child is put in front of the other children.
theorem born_link {u : State} {w x : Proc} (hf : Forks s u) (hv : s.procs.get parent = some v)
    (hrun : v.state = .running) (hx : u.procs.get parent = some x) (hw : ForkChild v flags w)
    (hn : Numbered s parent u.procs.size (u.withProcs ((u.procs.alloc
      { w with sibling := x.child, child := none, parent := some parent }).set parent
        { x with child := some u.procs.size }))) :
    Born s parent flags u.procs.size (u.withProcs ((u.procs.alloc
      { w with sibling := x.child, child := none, parent := some parent }).set parent
        { x with child := some u.procs.size })) := by
  have hsize : u.procs.size = s.procs.size := hf.procs.size
  obtain ⟨x', hx', hk⟩ := hf.procs.of_get hv
  obtain rfl := Option.some_inj.mp (hx.symm.trans hx')
  have hne : u.procs.size ≠ parent := fun h => absurd (Heap.lt_size hx) (by simp [h])
  have hset := Heap.get_alloc_of_some (a := ({ w with sibling := x.child, child := none, parent := some parent } : Proc)) hx
  refine ⟨hsize, by simp [hsize], ⟨v, _, hv, hrun, (Heap.get_set_ne hne).trans Heap.get_alloc_self,
    ⟨hw.state, hw.noreap, hw.pns, rfl⟩, rfl, ?_⟩, fun q y hy => ?_, fun q hq hy => ?_, hf.pagedirs,
    hf.tables, hf.first, hf.scheduled, hf.reports, hn⟩
  · rw [hk.eq]
  · obtain ⟨z, hz, hyz⟩ := hf.procs.of_get hy
    refine ⟨{ z with child := if q = parent then some u.procs.size else y.child }, z, ?_, hyz, rfl⟩
    rw [State.withProcs_procs, Heap.get_set hset]
    by_cases hq : q = parent
    case pos =>
      subst hq
      obtain rfl := Option.some_inj.mp (hx.symm.trans hz)
      simp
    case neg =>
      have hchild : z.child = y.child := by rw [hyz.eq]
      rw [if_neg hq, if_neg hq, Heap.get_alloc_of_some hz, ← hchild]
  · have hqp : q ≠ parent := fun h => by
      rw [h, hv] at hy
      contradiction
    rw [State.withProcs_procs, Heap.get_set_ne hqp, Heap.get_alloc, if_neg hq]
    have := (hf.procs.some_iff (i := q)).not
    simpa [hy, Option.eq_none_iff_forall_ne_some] using this

theorem procFork_spec (hs : SharesOk s) :
    wlp (procFork parent flags) (fun c t => SharesOk t ∧ Born s parent flags c t) s := by
  suffices h : wlp (procFork parent flags) (fun c t => SharesOk t ∧
      (Numbered s parent c t → Born s parent flags c t)) s from
    wlp_post (wlp_and h procFork_numbered) fun _ _ h => ⟨h.1.1, h.1.2 h.2⟩
  simp only [procFork, wlp_bind, wlp_getProc, wlp_kassert]
  intro v hv hrun
  obtain ⟨_, hhome⟩ := hs.homes parent v hv id
  obtain ⟨d₀, hd₀⟩ := Option.isSome_iff_exists.mp (hhome (by simp [hrun, PState.alive])).1
  obtain ⟨i₀, hi₀⟩ := Option.isSome_iff_exists.mp (hhome (by simp [hrun, PState.alive])).2
  have hfresh : s.sharing.uses (.inl s.procs.size) = none := by simp [State.sharing]
  refine wlp_post (procForkPages_spec hs.valid hv hd₀ hfresh) ?_
  rintro ⟨pages, pc⟩ s₁ ⟨hf₁, d, hd, hv₁⟩
  refine wlp_post procForkGlobalid_frame fun globalid s₂ h₂ => ?_
  refine wlp_post procForkLocalid_frame fun localid s₃ h₃ => ?_
  refine wlp_post procForkControlled_frame fun controlled s₄ h₄ => ?_
  refine wlp_post procForkMount_frame fun mount s₅ h₅ => ?_
  have hsharing : s₅.sharing = s₁.sharing := by rw [h₅.sharing, h₄.sharing, h₃.sharing, h₂.sharing]
  have hf₅ : Forks s s₅ := trans_of Forks hf₁ <| trans_of Forks h₂.forks <| trans_of Forks h₃.forks <|
    trans_of Forks h₄.forks h₅.forks
  obtain ⟨v₅, hv₅, hk₅⟩ := hf₅.procs.of_get hv
  have hi₅ : v₅.handles = some i₀ := by rw [hk₅.eq, hi₀]
  have hfresh₅ : s₅.sharing.uses (.inr s.procs.size) = none := by
    simp [State.sharing, ← hf₅.procs.size]
  refine wlp_post (procForkHandles_spec (hsharing ▸ hv₁) hv₅ hi₅ hfresh₅ (hs.graves.forks hf₅))
    ?_
  rintro ⟨handles, hc⟩ s₆ ⟨hf₆, i, hi, hv₆⟩
  have hforks := trans_of Forks hf₅ hf₆
  have hsize : s₆.procs.size = s.procs.size := hforks.procs.size
  rw [← hsize] at hv₆
  refine wlp_post (procForkLink_spec hd hi rfl hv₆ (hs.graves.forks hforks) (hs.homes.forks hforks)) ?_
  rintro c t ⟨hok, hc, v₆, hv₆', rfl⟩
  subst hc
  exact ⟨hok, born_link hforks hv hrun hv₆' ⟨rfl, rfl, rfl, rfl⟩⟩

end Fork
end Camellia
