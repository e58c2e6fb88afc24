import Camellia.Kernel.Steps

namespace Camellia

section Total

variable {s : State} {p : Pid} {uses : Pid ⊕ Pid → Option (Resource × Option Cid)} {b : Bool}

-- The counter of something which has users is not 0.
theorem KillStage.value {i : Pid ⊕ Pid} {r : Resource} {o : Option Cid} (h : KillStage p uses b s)
    (hi : uses i = some (r, o)) : ∃ n, s.sharing.value o = some (n + 1) := by
  rw [← h.uses] at hi
  have hpos : 0 < (s.sharing.users r).ncard :=
    (Set.ncard_pos (h.valid.finite r)).mpr ⟨i, o, hi⟩
  exact ⟨(s.sharing.users r).ncard - 1, by rw [h.valid.value_eq hi, Nat.sub_add_cancel hpos]⟩

theorem unref_ok {o : Option Cid} {n : ℕ} (h : s.sharing.value o = some (n + 1)) :
    ∃ b t, unref o s = .ok (b, t) := by
  have : wp (unref o) (fun _ _ => True) (fun _ => False) s := by
    cases o
    case none   => simp [unref]
    case some c =>
      have hc : s.counts.get c = some (n + 1) := h
      simp [unref, hc, setCount, freeCount, kfree, Heap.get_set_self hc, wp_ite]
  obtain ⟨b, t, hr, _⟩ := wp_false_iff.mp this
  exact ⟨b, t, hr⟩

-- Nothing can go wrong when the address space is given up.
theorem procKillPages_ok {d : ℕ} {c : Option Cid} (h : KillStage p uses b s)
    (huse : uses (.inl p) = some (.inl d, c)) : ∃ t, procKillPages p s = .ok ((), t) := by
  obtain ⟨v, hv, _⟩ := h.alive
  obtain ⟨hpages, hcount⟩ : v.pages = some d ∧ v.pagesRefcount = c := by
    rw [← h.uses] at huse
    simpa [State.sharing, hv] using huse
  obtain ⟨n, hn⟩ := h.value huse
  obtain ⟨last, t, hr⟩ := unref_ok hn
  obtain ⟨counts, rfl⟩ := (wlp_of_ok hr unref_spec).eq
  obtain ⟨_, hlive⟩ : ∃ x, s.pagedirs.get d = some x := by
    have : s.Allocated (.inl d) := (h.valid.live (.inl d)).mpr ⟨.inl p, c, h.uses ▸ huse⟩
    exact Option.isSome_iff_exists.mp this
  have : wp (procKillPages p) (fun _ _ => True) (fun _ => False) s := by
    simp only [procKillPages, wp_bind, wp_getProc, hv, Option.elim_some, hcount, wp_iff_of_ok hr]
    cases last
    case true  => simp [hpages, freePagedir, kfree, hlive, hv]
    case false => simp [hv]
  obtain ⟨_, t, hr, _⟩ := wp_false_iff.mp this
  exact ⟨t, hr⟩

-- Whatever happens while the handles are closed, the table is still there to be freed afterwards.
theorem procKillHandles_ok {env : Env} {i : Tid} {c : Option Cid} (h : KillStage p uses b s)
    (huse : uses (.inr p) = some (.inr i, c)) :
    ∃ last t, unref c s = .ok (last, t) ∧ wlp (procKillSlots env p)
      (fun _ u => ∃ x, (do freeTable (← procTable p) : K Unit) u = .ok ((), x)) t := by
  obtain ⟨v, hv, _⟩ := h.alive
  obtain ⟨hhandles, _⟩ : v.handles = some i ∧ v.handlesRefcount = c := by
    rw [← h.uses] at huse
    simpa [State.sharing, hv] using huse
  obtain ⟨n, hn⟩ := h.value huse
  obtain ⟨last, t, hr⟩ := unref_ok hn
  obtain ⟨counts, rfl⟩ := (wlp_of_ok hr unref_spec).eq
  have hlive : ∃ x, s.tables.get i = some x := by
    have : s.Allocated (.inr i) := (h.valid.live (.inr i)).mpr ⟨.inr p, c, h.uses ▸ huse⟩
    exact Option.isSome_iff_exists.mp this
  refine ⟨last, _, hr, ?_⟩
  have hclose : Respects Calm (procKillSlots env p) := .forM fun _ => procHandleClose_calm
  refine wlp_post (hclose _) fun _ u hu => ?_
  obtain ⟨w, hw, hk⟩ := hu.procs.of_get (show (s.withCounts counts).procs.get p = some v from hv)
  obtain ⟨x, hx⟩ := hu.tables.some_iff.mpr hlive
  have hi : w.handles = some i := by rw [hk.eq, hhandles]
  have : wp (do freeTable (← procTable p) : K Unit) (fun _ _ => True) (fun _ => False) u := by
    simp [procTable, hw, hi, freeTable, kfree, hx]
  obtain ⟨_, y, hy, _⟩ := wp_false_iff.mp this
  exact ⟨y, hy⟩

end Total

section Grown

variable {s t : State} {env : Env} {p c : Pid} {r : Resource} {flags : Flags}

def State.Created (s : State) : Resource → Prop
  | .inl d => d < s.pagedirs.size
  | .inr t => t < s.tables.size

-- What was created once is never created again.
structure Grown (s t : State) : Prop where
  pagedirs : s.pagedirs.size ≤ t.pagedirs.size
  tables   : s.tables.size ≤ t.tables.size

instance : IsPreorder State Grown where
  refl _ := ⟨le_rfl, le_rfl⟩
  trans _ _ _ h₁ h₂ := ⟨h₁.pagedirs.trans h₂.pagedirs, h₁.tables.trans h₂.tables⟩

theorem Grown.created (h : Grown s t) (hr : s.Created r) : t.Created r := by
  cases r
  case inl d => exact lt_of_lt_of_le hr h.pagedirs
  case inr i => exact lt_of_lt_of_le hr h.tables

theorem Peace.grown (h : Peace s t) : Grown s t :=
  ⟨by rw [h.pagedirs], h.tables.size.ge⟩

theorem Born.grown (h : Born s p flags c t) : Grown s t :=
  ⟨h.pagedirs.size, h.tables.size⟩

theorem respects_grown {x : K α} (h : Respects Peace x) : Respects Grown x :=
  fun s => wlp_post (h s) fun _ _ => Peace.grown

theorem updProc_grown {f : Proc → Proc} : Respects Grown (updProc p f) := by
  intro s
  rw [wlp_updProc]
  exact fun _ _ => ⟨le_rfl, le_rfl⟩

theorem unref_grown {o : Option Cid} : Respects Grown (unref o) := by
  intro s
  refine wlp_post unref_spec fun _ t ht => ?_
  obtain ⟨counts, rfl⟩ := ht.eq
  exact ⟨le_rfl, le_rfl⟩

theorem procKillHandles_grown : Respects Grown (procKillHandles env p) := by
  have htable : Respects Grown (procKillTable env p) := by
    intro s
    refine wlp_post procKillTable_spec ?_
    rintro _ _ ⟨u, i, w, hu, _, _, rfl⟩
    have hfree : Grown u (u.withTables (u.tables.free i)) := ⟨le_rfl, by simp⟩
    exact trans_of Grown hu.peace.grown hfree
  exact .bind (respects_grown getProc_respects) fun _ => .bind unref_grown fun _ =>
    .ite (.bind htable fun _ => updProc_grown) updProc_grown

theorem procKillPages_grown : Respects Grown (procKillPages p) := by
  have hfree {d : ℕ} : Respects Grown (freePagedir d) := by
    intro s
    rw [wlp_freePagedir]
    exact fun _ _ => ⟨by simp, le_rfl⟩
  exact .bind (respects_grown getProc_respects) fun v => .bind unref_grown fun _ =>
    .ite (.bind (respects_grown nonNull_respects) fun _ => .bind hfree fun _ => updProc_grown)
      updProc_grown

theorem procKillAlive_grown {ret : Int} : Respects Grown (procKillAlive env p ret) := by
  have hc {x : K Unit} (h : Respects Calm x) : Respects Grown x := respects_grown (respects_peace h)
  have hdying : Respects Grown (procSetstate p .dying) := by
    intro s
    rw [wlp_procSetstate_dying]
    exact fun _ _ _ => ⟨le_rfl, le_rfl⟩
  exact .bind (hc procKillControlled_calm) fun _ => .bind (hc procKillReqslot_calm) fun _ =>
    .bind (hc procKillPipe_calm) fun _ => .bind (hc procKillTimer_calm) fun _ =>
    .bind procKillHandles_grown fun _ => .bind (hc procKillMount_calm) fun _ =>
    .bind hdying fun _ => .bind updProc_grown fun _ => .bind respects_get fun _ =>
    .bind (respects_grown getProc_respects) fun _ =>
    .bind (respects_grown procKillChildren_peace) fun _ => procKillPages_grown

theorem procKillDying_grown : Respects Grown (procKillDying p) := by
  have htomb : Respects Grown (procSetstate p .tombstone) := by
    intro s
    rw [wlp_procSetstate_tombstone]
    exact fun _ _ _ => ⟨le_rfl, le_rfl⟩
  have htoreap : Respects Grown (procSetstate p .toreap) := fun s =>
    wlp_procSetstate_toreap fun _ _ _ _ => ⟨le_rfl, le_rfl⟩
  refine .bind (respects_grown getProc_respects) fun v => .ite ?_ respects_pure
  cases v.parent
  case none   => exact htomb
  case some q => exact .bind (respects_grown getProc_respects) fun _ => .ite htoreap htomb

theorem procKill_grown {ret : Int} : Respects Grown (procKill env p ret) := by
  have hend : Respects Grown (do
      procKillDying p
      if p = (← get).first then
        procKillFirst p
      else
        procTryreap p) :=
    .bind procKillDying_grown fun _ => .bind respects_get fun _ =>
      .ite (fun _ => wlp_procKillFirst) (respects_grown procTryreap_peace)
  exact .bind (respects_grown getProc_respects) fun _ =>
    .ite (.bind procKillAlive_grown fun _ => hend) hend

end Grown

section Step

variable {s t u : State} {env : Env} {e : Entry} {p c : Pid} {v w : Proc} {flags : Flags}
variable {r : Resource} {i : Pid ⊕ Pid}

def owner : Pid ⊕ Pid → Pid :=
  Sum.elim id id

-- How the users of what can be shared change in one step.
structure UsersStep (s : State) (e : Entry) (t : State) : Prop where
  killed : ∀ p, e.kills = some p → ∀ r,
    t.sharing.users r = { i ∈ s.sharing.users r | owner i ≠ p }
  kept   : e.kills = none → ∀ r, s.sharing.users r ⊆ t.sharing.users r
  fresh  : ∀ r, s.Created r → ¬s.Allocated r → ¬t.Allocated r
  grown  : Grown s t

theorem usersStep_of_eq (hk : e.kills = none) (h : t.sharing = s.sharing) (hg : Grown s t) :
    UsersStep s e t where
  killed := fun p hp => by
    rw [hk] at hp
    contradiction
  kept   := fun _ r => h ▸ le_rfl
  fresh  := fun r _ hr => by
    have hlive : t.Allocated = s.Allocated := congrArg Sharing.live h
    rwa [hlive]
  grown  := hg

theorem SharesOk.mem_users (hs : SharesOk s) (hi : i ∈ s.sharing.users r) :
    ∃ v, s.procs.get (owner i) = some v ∧ v.state.alive := by
  obtain ⟨o, hi⟩ := hi
  cases i
  case inl q =>
    cases hv : s.procs.get q
    case none   => simp [State.sharing, hv] at hi
    case some v =>
      refine ⟨v, hv, ?_⟩
      by_contra hd
      have := (hs.graves q v hv (by simpa using hd)).1
      simp [State.sharing, hv, this] at hi
  case inr q =>
    cases hv : s.procs.get q
    case none   => simp [State.sharing, hv] at hi
    case some v =>
      refine ⟨v, hv, ?_⟩
      by_contra hd
      have := (hs.graves q v hv (by simpa using hd)).2
      simp [State.sharing, hv, this] at hi

theorem users_without {S T : Sharing (Pid ⊕ Pid) Resource Cid} (h : T.uses = without p S.uses) :
    T.users r = { i ∈ S.users r | owner i ≠ p } := by
  ext i
  cases i
  case inl q => by_cases hq : q = p <;> simp [Sharing.users, h, without, owner, hq]
  case inr q => by_cases hq : q = p <;> simp [Sharing.users, h, without, owner, hq]

theorem SharesOk.fresh (hs : SharesOk s) (ht : SharesOk t)
    (h : t.sharing.users r ⊆ s.sharing.users r) (hr : ¬s.Allocated r) : ¬t.Allocated r :=
  fun hl => hr ((hs.valid.live r).mpr (((ht.valid.live r).mp hl).mono h))

theorem procKill_users {ret : Int} (hs : SharesOk s) (hk : e.kills = some p) :
    wlp (procKill env p ret) (fun _ t => SharesOk t ∧ UsersStep s e t) s := by
  cases hv : s.procs.get p
  case none =>
    simp only [procKill, wlp_bind, wlp_getProc, hv]
    simp
  case some v =>
    refine wlp_post (wlp_and (procKill_spec hs hv) (procKill_grown s)) ?_
    rintro _ t ⟨⟨ht, huses⟩, hgrown⟩
    have husers (r : Resource) : t.sharing.users r = { i ∈ s.sharing.users r | owner i ≠ p } := by
      by_cases ha : v.state.alive
      case pos =>
        rw [if_pos ha] at huses
        exact users_without huses
      case neg =>
        rw [if_neg ha] at huses
        have heq : t.sharing.users r = s.sharing.users r := by simp [Sharing.users, huses]
        rw [heq]
        refine (Set.sep_eq_self_iff_mem_true.mpr fun i hi hp => ?_).symm
        have ⟨w, hw, halive⟩ := hs.mem_users hi
        obtain rfl := Option.some_inj.mp (hv.symm.trans (hp ▸ hw))
        exact ha halive
    refine ⟨ht, fun q hq => ?_, fun hn => ?_, fun r _ => hs.fresh ht ?_, hgrown⟩
    · obtain rfl := Option.some_inj.mp (hk.symm.trans hq)
      exact husers
    · rw [hk] at hn
      contradiction
    · rw [husers]
      exact Set.sep_subset _ _

theorem Born.users_subset (hb : Born s p flags c t) : s.sharing.users r ⊆ t.sharing.users r := by
  rintro i ⟨o, hi⟩
  cases i
  case inl q =>
    cases hv : s.procs.get q
    case none   => simp [State.sharing, hv] at hi
    case some v =>
      obtain ⟨w, x, hw, hx, heq⟩ := hb.procs q v hv
      have hpages : w.pages = v.pages := by rw [heq, hx.eq]
      cases hd : v.pages
      case none   => simp [State.sharing, hv, hd] at hi
      case some d =>
        refine ⟨w.pagesRefcount, ?_⟩
        simp only [State.sharing, hv, hd, Option.bind_some, Option.map_some, Option.some_inj,
          Prod.mk.injEq] at hi
        simp [State.sharing, hw, hpages, hd, hi.1]
  case inr q =>
    cases hv : s.procs.get q
    case none   => simp [State.sharing, hv] at hi
    case some v =>
      obtain ⟨w, x, hw, hx, heq⟩ := hb.procs q v hv
      have hhandles : w.handles = v.handles := by rw [heq, hx.eq]
      cases hd : v.handles
      case none   => simp [State.sharing, hv, hd] at hi
      case some d =>
        refine ⟨w.handlesRefcount, ?_⟩
        simp only [State.sharing, hv, hd, Option.bind_some, Option.map_some, Option.some_inj,
          Prod.mk.injEq] at hi
        simp [State.sharing, hw, hhandles, hd, hi.1]

theorem Born.fresh_resource (hb : Born s p flags c t) (hc : s.Created r) (hr : ¬s.Allocated r) :
    ¬t.Allocated r := by
  intro hl
  cases r
  case inl d =>
    obtain ⟨x, hx⟩ := Option.isSome_iff_exists.mp hl
    have ⟨y, hy, _⟩ := hb.pagedirs.get d hc x hx
    exact hr (Option.isSome_iff_exists.mpr ⟨y, hy⟩)
  case inr i =>
    obtain ⟨x, hx⟩ := Option.isSome_iff_exists.mp hl
    have ⟨y, hy, _⟩ := hb.tables.get i hc x hx
    exact hr (Option.isSome_iff_exists.mpr ⟨y, hy⟩)

-- A change of a process which concerns neither its resources nor whether it lives.
theorem SharesOk.setProc (hs : SharesOk s) (hv : s.procs.get p = some v)
    (heq : w = { v with
      state      := w.state
      awaitedPid := w.awaitedPid
      awaitedOut := w.awaitedOut
      noreap     := w.noreap
      rax        := w.rax })
    (ha : w.state.alive = v.state.alive) (hd : w.state ≠ .dying) :
    SharesOk (s.withProcs (s.procs.set p w)) := by
  have hsharing : (s.withProcs (s.procs.set p w)).sharing = s.sharing := by
    refine sharing_setProc hv ?_ ?_ ?_ ?_ <;> rw [heq]
  refine ⟨hsharing ▸ hs.valid, fun q x hx hdead => ?_, fun q x hx _ => ?_⟩
  · rw [State.withProcs_procs, Heap.get_set hv] at hx
    by_cases hq : q = p
    case pos =>
      rw [if_pos hq, Option.some_inj] at hx
      subst hx
      rw [heq]
      exact hs.graves p v hv (ha ▸ hdead)
    case neg => exact hs.graves q x (by simpa [hq] using hx) hdead
  · rw [State.withProcs_procs, Heap.get_set hv] at hx
    by_cases hq : q = p
    case pos =>
      rw [if_pos hq, Option.some_inj] at hx
      subst hx
      refine ⟨hd, fun halive => ?_⟩
      rw [heq]
      exact (hs.homes p v hv id).2 (ha ▸ halive)
    case neg => exact hs.homes q x (by simpa [hq] using hx) id

theorem sysFork_users (hs : SharesOk s) (ht : TimerOk s) (hk : e.kills = none) :
    wlp (sysFork env p flags) (fun _ t => SharesOk t ∧ TimerOk t ∧ UsersStep s e t) s := by
  have hstep {u : State} (hkept : ∀ r, s.sharing.users r ⊆ u.sharing.users r)
      (hfresh : ∀ r, s.Created r → ¬s.Allocated r → ¬u.Allocated r) (hg : Grown s u) :
      UsersStep s e u :=
    ⟨fun q hq => by simp [hk] at hq, fun _ => hkept, hfresh, hg⟩
  refine wlp_sysFork hs (fun c t u hok hborn hcalm => ?_) fun c t u v hok hborn hcalm hv => ?_
  · have hsharing := hcalm.peace.sharing_eq hok.graves
    have hlive : u.Allocated = t.Allocated := congrArg Sharing.live hsharing
    refine ⟨hok.peace hcalm.peace, hcalm.timer (hborn.timer ht), hstep (fun r => ?_) (fun r hr hn => ?_)
      (trans_of Grown hborn.grown hcalm.peace.grown)⟩
    · exact hsharing ▸ hborn.users_subset
    · exact hlive ▸ hborn.fresh_resource hr hn
  · have hsharing := hcalm.peace.sharing_eq hok.graves
    have hlive : u.Allocated = t.Allocated := congrArg Sharing.live hsharing
    have hok' := hok.peace hcalm.peace
    have ⟨hdying, _⟩ := hok'.homes c v hv id
    have hset := hok'.setProc (w := { v with noreap := true }) hv rfl rfl hdying
    have hsharing' : (u.withProcs (u.procs.set c { v with noreap := true })).sharing = t.sharing :=
      (sharing_setProc (w := { v with noreap := true }) hv rfl rfl rfl rfl).trans hsharing
    have htimer : TimerOk (u.withProcs (u.procs.set c { v with noreap := true })) :=
      TimerOk.setProc hv Iff.rfl (hcalm.timer (hborn.timer ht))
    have hkill : wlp (procKill env c (-EMFILE)) _ _ :=
      procKill_users (e := .kill c (-EMFILE)) hset rfl
    refine wlp_post (wlp_and hkill (procKill_timer htimer)) fun _ x ⟨⟨hx, husers⟩, hxt⟩ y hy => ?_
    have hsharing'' := hy.peace.sharing_eq hx.graves
    have hlive'' : y.Allocated = x.Allocated := congrArg Sharing.live hsharing''
    have hgrown : Grown s x :=
      trans_of Grown hborn.grown (trans_of Grown hcalm.peace.grown ⟨husers.grown.pagedirs, husers.grown.tables⟩)
    refine ⟨hx.peace hy.peace, hy.timer hxt, hstep (fun r i hi => ?_) (fun r hr hn => ?_)
      (trans_of Grown hgrown hy.peace.grown)⟩
    · -- The child is none of the old users.
      rw [hsharing'', husers.killed c rfl r, hsharing']
      refine ⟨hborn.users_subset hi, fun hc => ?_⟩
      have ⟨w, hw, _⟩ := hs.mem_users hi
      rw [hc, hborn.fresh, Heap.get_size] at hw
      contradiction
    · rw [hlive'']
      have hn' : ¬(u.withProcs (u.procs.set c { v with noreap := true })).Allocated r := by
        show ¬u.Allocated r
        exact hlive ▸ hborn.fresh_resource hr hn
      refine hset.fresh hx ?_ hn'
      rw [husers.killed c rfl r]
      exact Set.sep_subset _ _

theorem sysWait2_users {pid : Int} {out : ℕ} (hs : SharesOk s) (ht : TimerOk s) (hk : e.kills = none) :
    wlp (sysWait2 p pid flags out) (fun _ t => SharesOk t ∧ TimerOk t ∧ UsersStep s e t) s := by
  refine wlp_sysWait2 (fun _ t hcalm => ?_) fun v hv hrun _ => ?_
  · exact ⟨hs.peace hcalm.peace, hcalm.timer ht, usersStep_of_eq hk (hcalm.peace.sharing_eq hs.graves)
      hcalm.peace.grown⟩
  · generalize hw :
      ({ v with state := .waits4childdeath, awaitedPid := pid.toNat, awaitedOut := out } : Proc) = w
    have hset : SharesOk (s.withProcs (s.procs.set p w)) :=
      hs.setProc hv (by rw [← hw]) (by simp [← hw, hrun, PState.alive]) (by simp [← hw])
    have htimer : TimerOk (s.withProcs (s.procs.set p w)) :=
      TimerOk.setProc hv (by simp [← hw, hrun]) ht
    have hsharing : (s.withProcs (s.procs.set p w)).sharing = s.sharing := by
      refine sharing_setProc hv ?_ ?_ ?_ ?_ <;> rw [← hw]
    refine wlp_post (sysWait2Loop_peace _) fun found u hu => ?_
    cases found
    case true  =>
      exact ⟨hset.peace hu, hu.timer htimer,
        usersStep_of_eq hk ((hu.sharing_eq hset.graves).trans hsharing) ⟨hu.grown.pagedirs, hu.grown.tables⟩⟩
    case false =>
      refine ⟨hs.setProc hv rfl ?_ (by simp), TimerOk.setProc hv (by simp [hrun]) ht, ?_⟩
      · simp [hrun]
      · exact usersStep_of_eq hk (sharing_setProc hv rfl rfl rfl rfl) ⟨le_rfl, le_rfl⟩

theorem Step.users (h : Step s e t) (hs : SharesOk s) (ht : TimerOk s) :
    SharesOk t ∧ TimerOk t ∧ UsersStep s e t := by
  refine h.of_wlp (R := fun t => SharesOk t ∧ TimerOk t ∧ UsersStep s e t) fun env => ?_
  refine wlp_enter ht (fun hk t hp => ?_) (fun p ret hk => ?_) (fun p flags he => ?_)
    fun p pid flags out he => ?_
  · exact ⟨hs.peace hp, hp.timer ht, usersStep_of_eq hk (hp.sharing_eq hs.graves) hp.grown⟩
  · exact wlp_post (wlp_and (procKill_users hs hk) (procKill_timer ht)) fun _ _ ⟨⟨hok, husers⟩, htimer⟩ =>
      ⟨hok, htimer, husers⟩
  · exact sysFork_users hs ht (he ▸ rfl)
  · exact sysWait2_users hs ht (he ▸ rfl)

end Step

section Boot

variable {paths : List (List UInt8)}

theorem bootState_counts : (bootState paths).counts = .empty := by
  show (paths.foldl vfsRootRegister (staticState, none)).1.counts = .empty
  rw [(registered_foldl (staticState, none)).eq]
  rfl

theorem bootState_scheduled : (bootState paths).scheduled = [] := by
  show (paths.foldl vfsRootRegister (staticState, none)).1.scheduled = []
  rw [(registered_foldl (staticState, none)).eq]
  rfl

theorem bootState_proc {p : Pid} {v : Proc} (hv : (bootState paths).procs.get p = some v) :
    p = 0 ∧ ∃ m, v = procInit m := by
  have hget : (bootState paths).procs.get p = if p = 0 then some (procInit _) else Heap.empty.get p :=
    Heap.get_alloc
  by_cases hp : p = 0
  case pos =>
    rw [hget, if_pos hp, Option.some_inj] at hv
    exact ⟨hp, _, hv.symm⟩
  case neg => simp [hget, hp] at hv

theorem sharing_bootState : (bootState paths).sharing =
    ((Sharing.mk (fun _ => none) (fun _ => none) fun _ => False).create (.inl 0) (.inl 0)).create
      (.inr 0) (.inr 0) := by
  have hget (p : Pid) : (bootState paths).procs.get p = if p = 0 then some (procInit _) else none :=
    Heap.get_alloc
  refine Sharing.ext (funext fun i => ?_) ?_ (funext fun r => propext ?_)
  · cases i
    case inl p =>
      by_cases hp : p = 0 <;> simp [State.sharing, Sharing.create, hget, hp, procInit]
    case inr p =>
      by_cases hp : p = 0 <;> simp [State.sharing, Sharing.create, hget, hp, procInit]
  · funext c
    simp [State.sharing, Sharing.create, bootState_counts]
  · cases r
    case inl d =>
      have hdirs (d : ℕ) : (bootState paths).pagedirs.get d = if d = 0 then some () else none :=
        Heap.get_alloc
      by_cases hd : d = 0
      case pos => exact iff_of_true (by simp [State.sharing, State.Allocated, hdirs, hd]) (.inr (.inl (hd ▸ rfl)))
      case neg => simp [State.sharing, State.Allocated, Sharing.create, hdirs, hd]
    case inr i =>
      have htables (i : ℕ) : (bootState paths).tables.get i = if i = 0 then some _ else none :=
        Heap.get_alloc
      by_cases hi : i = 0
      case pos => exact iff_of_true (by simp [State.sharing, State.Allocated, htables, hi]) (.inl (hi ▸ rfl))
      case neg => simp [State.sharing, State.Allocated, Sharing.create, htables, hi]

theorem sharesOk_bootState : SharesOk (bootState paths) := by
  refine ⟨?_, fun p v hv hd => ?_, fun p v hv _ => ?_⟩
  · rw [sharing_bootState]
    refine Sharing.Valid.create (Sharing.Valid.create ?_ rfl id) (by simp [Sharing.create]) ?_
    · refine ⟨fun r => ?_, fun r => ?_, ?_, ?_, ?_, ?_⟩ <;> simp [Sharing.users]
    · simp [Sharing.create]
  · obtain ⟨_, _, rfl⟩ := bootState_proc hv
    simp [procInit, PState.alive] at hd
  · obtain ⟨_, _, rfl⟩ := bootState_proc hv
    simp [procInit]

theorem timerOk_bootState : TimerOk (bootState paths) := by
  intro p
  rw [bootState_scheduled, List.count_nil]
  cases hv : (bootState paths).procs.get p
  case none   => rfl
  case some v =>
    obtain ⟨_, _, rfl⟩ := bootState_proc hv
    rfl

-- The invariant behind everything that is shared.
theorem Run.shares {C : State → Entry → Prop} {s : State} (hr : Run C paths s) :
    SharesOk s ∧ TimerOk s :=
  hr.invariant (I := fun s => SharesOk s ∧ TimerOk s) ⟨sharesOk_bootState, timerOk_bootState⟩
    fun _ _ _ ⟨hs, ht⟩ _ hstep => ⟨(hstep.users hs ht).1, (hstep.users hs ht).2.1⟩

end Boot

section LastUser

variable {s t : State} {e : Entry} {p : Pid} {r : Resource}

def Proc.Holds (v : Proc) : Resource → Prop
  | .inl d => v.pages = some d
  | .inr t => v.handles = some t

-- The live processes which use a resource.
def State.sharers (s : State) (r : Resource) : Set Pid :=
  { p | ∃ v, s.procs.get p = some v ∧ v.state.alive ∧ v.Holds r }

-- A counter of users, which is 1 if the pointer to it is NULL.
def State.refcount (s : State) : Option Cid → Option ℕ
  | none   => some 1
  | some c => s.counts.get c

-- The role in which processes use a resource.
def role : Resource → Pid → Pid ⊕ Pid
  | .inl _ => .inl
  | .inr _ => .inr

theorem role_injective : Function.Injective (role r) := by
  cases r
  case inl => exact Sum.inl_injective
  case inr => exact Sum.inr_injective

theorem owner_role : owner (role r p) = p := by
  cases r <;> rfl

theorem SharesOk.users_eq (hs : SharesOk s) : s.sharing.users r = role r '' s.sharers r := by
  ext i
  refine ⟨fun hi => ?_, ?_⟩
  · have ⟨v, hv, ha⟩ := hs.mem_users hi
    obtain ⟨o, hi⟩ := hi
    cases i
    case inl p =>
      rw [owner, Sum.elim_inl, id] at hv
      simp only [State.sharing, hv, Option.bind_some, Option.map_eq_some_iff, Prod.mk.injEq] at hi
      obtain ⟨d, hd, rfl, _⟩ := hi
      exact ⟨p, ⟨v, hv, ha, hd⟩, rfl⟩
    case inr p =>
      rw [owner, Sum.elim_inr, id] at hv
      simp only [State.sharing, hv, Option.bind_some, Option.map_eq_some_iff, Prod.mk.injEq] at hi
      obtain ⟨d, hd, rfl, _⟩ := hi
      exact ⟨p, ⟨v, hv, ha, hd⟩, rfl⟩
  · rintro ⟨p, ⟨v, hv, _, hh⟩, rfl⟩
    cases r
    case inl d => exact ⟨v.pagesRefcount, by simp_all [State.sharing, Proc.Holds, role]⟩
    case inr t => exact ⟨v.handlesRefcount, by simp_all [State.sharing, Proc.Holds, role]⟩

theorem SharesOk.ncard_users (hs : SharesOk s) :
    (s.sharing.users r).ncard = (s.sharers r).ncard := by
  rw [hs.users_eq]
  exact Set.ncard_image_of_injective _ role_injective

theorem SharesOk.allocated_iff (hs : SharesOk s) : s.Allocated r ↔ (s.sharers r).Nonempty := by
  rw [← Set.image_nonempty (f := role r), ← hs.users_eq]
  exact hs.valid.live r

-- A resource is freed by the death of its only user.
theorem UsersStep.freed_iff (hu : UsersStep s e t) (hs : SharesOk s) (ht : SharesOk t)
    (hr : s.Allocated r) : ¬t.Allocated r ↔ ∃ p, e.kills = some p ∧ s.sharers r = {p} := by
  have hlive : t.Allocated r ↔ (t.sharing.users r).Nonempty := ht.valid.live r
  cases hk : e.kills
  case none =>
    have : t.Allocated r := hlive.mpr (((hs.valid.live r).mp hr).mono (hu.kept hk r))
    simpa using this
  case some p =>
    have hmem (q : Pid) : role r q ∈ t.sharing.users r ↔ q ∈ s.sharers r ∧ q ≠ p := by
      rw [hu.killed p hk r, Set.mem_sep_iff, owner_role, hs.users_eq, role_injective.mem_set_image]
    rw [hlive, ht.users_eq, Set.image_nonempty, Set.not_nonempty_iff_eq_empty]
    have hsharers (q : Pid) : q ∈ t.sharers r ↔ q ∈ s.sharers r ∧ q ≠ p := by
      rw [← hmem q, ht.users_eq, role_injective.mem_set_image]
    refine ⟨fun hempty => ⟨p, rfl, ?_⟩, ?_⟩
    · refine Set.eq_singleton_iff_nonempty_unique_mem.mpr ⟨hs.allocated_iff.mp hr, fun q hq => ?_⟩
      by_contra hne
      exact Set.eq_empty_iff_forall_notMem.mp hempty q ((hsharers q).mpr ⟨hq, hne⟩)
    · rintro ⟨q, hq, hsingle⟩
      obtain rfl := Option.some_inj.mp hq
      refine Set.eq_empty_iff_forall_notMem.mpr fun x hx => ?_
      have ⟨hx, hne⟩ := (hsharers x).mp hx
      rw [hsingle] at hx
      exact hne hx

theorem SharesOk.refcount_eq (hs : SharesOk s) {i : Pid ⊕ Pid} {o : Option Cid}
    (hi : s.sharing.uses i = some (r, o)) : s.refcount o = some (s.sharers r).ncard := by
  rw [← hs.ncard_users, ← hs.valid.value_eq hi]
  cases o <;> rfl

end LastUser

end Camellia
