import Camellia.Kernel.Steps

namespace Camellia

-- A process keeps its place in the tree, its namespace and its ids.
structure Proc.Kin (v w : Proc) : Prop where
  parent   : w.parent = v.parent
  sibling  : w.sibling = v.sibling
  child    : w.child = v.child
  pns      : w.pns = v.pns
  localid  : w.localid = v.localid
  nextlid  : w.nextlid = v.nextlid
  globalid : w.globalid = v.globalid

theorem Proc.Kin.refl (v : Proc) : v.Kin v :=
  ⟨rfl, rfl, rfl, rfl, rfl, rfl, rfl⟩

theorem Proc.Kin.trans {v w x : Proc} (h₁ : v.Kin w) (h₂ : w.Kin x) : v.Kin x where
  parent   := h₂.parent.trans h₁.parent
  sibling  := h₂.sibling.trans h₁.sibling
  child    := h₂.child.trans h₁.child
  pns      := h₂.pns.trans h₁.pns
  localid  := h₂.localid.trans h₁.localid
  nextlid  := h₂.nextlid.trans h₁.nextlid
  globalid := h₂.globalid.trans h₁.globalid

-- Nobody changes places, and only the processes in `D` are changed at all.
structure Touches (D : Pid → Prop) (s t : State) : Prop where
  procs   : s.procs.Related Proc.Kin t.procs
  same    : ∀ p, ¬D p → t.procs.get p = s.procs.get p
  nextPid : t.nextPid = s.nextPid

instance (D : Pid → Prop) : IsPreorder State (Touches D) where
  refl _ := ⟨.refl Proc.Kin.refl, fun _ _ => rfl, rfl⟩
  trans _ _ _ h₁ h₂ := {
    procs   := h₁.procs.trans (fun _ _ _ => Proc.Kin.trans) h₂.procs
    same    := fun p hp => (h₂.same p hp).trans (h₁.same p hp)
    nextPid := h₂.nextPid.trans h₁.nextPid }

abbrev Linked := Touches fun _ => True

-- The state is only read.
abbrev Reads (s t : State) : Prop :=
  t = s

instance : IsPreorder State Reads where
  refl _ := rfl
  trans _ _ _ h₁ h₂ := h₂.trans h₁

section Basic

variable {D : Pid → Prop} {s t : State} {p i : ℕ} {v w : Proc}

theorem respects_of_reads {R : State → State → Prop} [IsPreorder State R] {x : K α}
    (h : Respects Reads x) : Respects R x :=
  fun s => wlp_post (h s) fun _ _ ht => ht ▸ refl_of R s

theorem Calm.linked (h : Calm s t) : Linked s t := by
  refine ⟨⟨h.procs.size, fun i => ?_⟩, by simp, h.nextPid⟩
  have := h.procs.get i
  generalize s.procs.get i = a, t.procs.get i = b at this
  cases this
  case none    => exact .none
  case some hk =>
    refine .some ⟨?_, ?_, ?_, ?_, ?_, ?_, ?_⟩
    all_goals rw [hk.eq]

theorem respects_linked {x : K α} (h : Respects Calm x) : Respects Linked x :=
  fun s => wlp_post (h s) fun _ _ => Calm.linked

theorem touches_set (hD : D p) (hv : s.procs.get p = some v) (hk : v.Kin w) :
    Touches D s (s.withProcs (s.procs.set p w)) where
  procs   := .set Proc.Kin.refl hv hk
  same    := fun _ hq => Heap.get_set_ne fun h => hq (h ▸ hD)
  nextPid := rfl

theorem touches_of_eq (hp : t.procs = s.procs) (hn : t.nextPid = s.nextPid) : Touches D s t :=
  ⟨hp ▸ .refl Proc.Kin.refl, fun _ _ => hp ▸ rfl, hn⟩

theorem updProc_touches {f : Proc → Proc} (hD : D p) (hf : ∀ v : Proc, v.Kin (f v)) :
    Respects (Touches D) (updProc p f) := by
  intro s
  rw [wlp_updProc]
  exact fun v hv => touches_set hD hv (hf v)

theorem procSetstateLoop_reads {fuel : ℕ} {o : Option Pid} :
    Respects Reads (procSetstateLoop p fuel o) :=
  fun _ => wlp_procSetstateLoop rfl

theorem procSetstateToreap_reads : Respects Reads (procSetstateToreap p v) := by
  refine .bind kassert_respects fun _ => ?_
  cases v.parent
  case none   => exact .bind respects_get fun _ => procSetstateLoop_reads
  case some _ =>
    exact .bind getProc_respects fun _ => .bind kassert_respects fun _ => .bind respects_get fun _ =>
      procSetstateLoop_reads

theorem procSetstate_touches {state : PState} (hD : D p) :
    Respects (Touches D) (procSetstate p state) := by
  have hset : Respects (Touches D) (updProc p ({ · with state := state })) :=
    updProc_touches hD fun _ => ⟨rfl, rfl, rfl, rfl, rfl, rfl, rfl⟩
  refine .bind (respects_of_reads getProc_respects) fun v => .bind (respects_of_reads kassert_respects) fun _ => ?_
  cases state
  case running => exact hset
  case dying   => exact hset
  case toreap  => exact .bind (respects_of_reads procSetstateToreap_reads) fun _ => hset
  all_goals exact .bind (respects_of_reads kassert_respects) fun _ => hset

theorem modify_touches {f : State → State} (hf : ∀ s, (f s).procs = s.procs)
    (hn : ∀ s, (f s).nextPid = s.nextPid) : Respects (Touches D) (modify f : K Unit) :=
  respects_modify fun s => touches_of_eq (hf s) (hn s)

end Basic

section Reap

variable {D : Pid → Prop} {s : State} {dead parent p : Pid} {v : Proc}

theorem procNsId_reads {ns : Pid} : Respects Reads (procNsId ns p) := by
  refine .ite respects_pure (.bind getProc_respects fun v => .ite ?_ ?_)
  · exact .bind nonNull_respects fun _ => .bind getProc_respects fun _ => .bind kassert_respects fun _ =>
      respects_pure
  · exact .bind kassert_respects fun _ => respects_pure

theorem procTryreapBury_touches (hD : D dead) : Respects (Touches D) (procTryreapBury dead) :=
  .bind (procSetstate_touches hD) fun _ => updProc_touches hD fun _ => ⟨rfl, rfl, rfl, rfl, rfl, rfl, rfl⟩

theorem procTryreapParent_touches (hD : D parent) :
    Respects (Touches D) (procTryreapParent dead parent) := by
  refine .bind (respects_of_reads getProc_respects) fun w => .ite respects_pure ?_
  refine .bind (respects_of_reads procNsId_reads) fun id => .ite respects_pure ?_
  exact .bind (updProc_touches hD fun _ => ⟨rfl, rfl, rfl, rfl, rfl, rfl, rfl⟩) fun _ =>
    .bind (respects_of_reads getProc_respects) fun _ =>
    .bind (modify_touches (fun _ => rfl) fun _ => rfl) fun _ =>
    .bind (procSetstate_touches hD) fun _ => respects_pure

theorem procTryreapChildren_reads {fuel : ℕ} {o : Option Pid} :
    Respects Reads (procTryreapChildren fuel o) := by
  induction fuel generalizing o
  case zero =>
    cases o
    case none   => exact respects_pure
    case some p => exact respects_throw
  case succ fuel hi =>
    cases o
    case none   => exact respects_pure
    case some p => exact .bind getProc_respects fun _ => .bind kassert_respects fun _ => hi

theorem procTryreapDescend_reads {fuel : ℕ} : Respects Reads (procTryreapDescend fuel p) := by
  induction fuel generalizing p
  case zero => exact respects_throw
  case succ fuel hi =>
    refine .bind getProc_respects fun v => ?_
    cases v.child
    case none   => exact respects_pure
    case some c => exact hi

theorem procTryreapCheck_reads : Respects Reads (procTryreapCheck p) := by
  refine .bind respects_get fun s => .bind procTryreapChildren_reads fun _ =>
    .bind procTryreapDescend_reads fun _ => .bind getProc_respects fun w => .ite ?_ kassert_respects
  exact .bind nonNull_respects fun _ => .bind getProc_respects fun _ => kassert_respects

theorem procTryreapStart_reads : Respects Reads (procTryreapStart v) := by
  refine .bind kassert_respects fun _ => ?_
  cases v.parent
  case none   => exact respects_pure
  case some _ => exact .bind getProc_respects fun _ => kassert_respects

theorem procTryreapTombstone_touches (hD : D dead) :
    Respects (Touches D) (procTryreapTombstone dead) := by
  refine .bind (respects_of_reads getProc_respects) fun v => ?_
  split
  · exact .bind (respects_of_reads kassert_respects) fun _ => respects_of_reads procTryreapCheck_reads
  · exact respects_pure
  · exact .bind (respects_of_reads kassert_respects) fun _ => .ite (.bind (procSetstate_touches hD) fun _ =>
      modify_touches (fun _ => rfl) fun _ => rfl) (respects_of_reads kassert_respects)

-- `proc_tryreap` concerns the dead process and its parent.
theorem procTryreap_touches (hv : s.procs.get dead = some v) (hD : D dead)
    (hp : ∀ q, v.parent = some q → D q) : wlp (procTryreap dead) (fun _ t => Touches D s t) s := by
  have hbury : Respects (Touches D) (do procTryreapBury dead; pure true : K Bool) :=
    .bind (procTryreapBury_touches hD) fun _ => respects_pure
  have htoreap : wlp (procTryreapToreap dead) (fun _ t => Touches D s t) s := by
    simp only [procTryreapToreap, procReapable, wlp_bind, wlp_getProc]
    intro w hw
    obtain rfl := Option.some_inj.mp (hv.symm.trans hw)
    cases hq : v.parent
    case none   => exact wlp_pure.mpr (hbury s)
    case some q =>
      simp only [wlp_bind, wlp_getProc, wlp_pure]
      intro w _
      split
      · exact hbury s
      · rename_i hr
        obtain rfl : q = _ := by
          split at hr
          · exact Option.some_inj.mp hr
          · contradiction
        have hrest : Respects (Touches D) (do
            if ← procTryreapParent dead q then
              procTryreapBury dead
              pure true
            else
              pure false) :=
          .bind (procTryreapParent_touches (hp q hq)) fun _ => .ite hbury respects_pure
        exact hrest s
  simp only [procTryreap, wlp_bind, wlp_getProc, wlp_ite]
  intro w hw
  refine wlp_post (procTryreapStart_reads s) ?_
  rintro _ _ rfl
  refine ⟨fun _ => ?_, fun _ => procTryreapTombstone_touches hD _⟩
  refine wlp_post htoreap fun b t ht => ⟨fun _ => ?_, fun _ => wlp_pure.mpr ht⟩
  exact wlp_of_respects ht (procTryreapTombstone_touches hD)

theorem procTryreap_linked : Respects Linked (procTryreap dead) := by
  intro s
  cases hv : s.procs.get dead
  case none =>
    simp only [procTryreap, wlp_bind, wlp_getProc, hv]
    simp
  case some v => exact procTryreap_touches hv trivial fun _ _ => trivial

theorem procKillChildren_linked {fuel : ℕ} {o : Option Pid} :
    Respects Linked (procKillChildren fuel o) := by
  induction fuel generalizing o
  case zero =>
    cases o
    case none   => exact respects_pure
    case some _ => exact respects_throw
  case succ fuel hi =>
    cases o
    case none    => exact respects_pure
    case some it =>
      exact .bind (respects_of_reads getProc_respects) fun _ => .ite (.bind procTryreap_linked fun _ => hi) hi

theorem sysWait2Loop_linked {fuel : ℕ} {o : Option Pid} : Respects Linked (sysWait2Loop fuel o) := by
  induction fuel generalizing o
  case zero =>
    cases o
    case none   => exact respects_pure
    case some _ => exact respects_throw
  case succ fuel hi =>
    have hrest {it : Pid} : Respects Linked (do
        let _ ← sysWait2Loop fuel (← getProc it).sibling
        pure true) :=
      .bind (respects_of_reads getProc_respects) fun _ => .bind hi fun _ => respects_pure
    cases o
    case none    => exact respects_pure
    case some it =>
      exact .bind (respects_of_reads getProc_respects) fun _ => .ite hi <|
        .ite (.bind procTryreap_linked fun _ => hrest) hrest

end Reap

section Kill

variable {env : Env} {p : Pid} {ret : Int}

theorem unref_linked {o : Option Cid} : Respects Linked (unref o) := by
  intro s
  refine wlp_post unref_spec fun _ t ht => ?_
  obtain ⟨counts, rfl⟩ := ht.eq
  exact touches_of_eq rfl rfl

theorem setHandles_linked {o : Option Tid} : Respects Linked (updProc p ({ · with handles := o })) :=
  updProc_touches trivial fun _ => ⟨rfl, rfl, rfl, rfl, rfl, rfl, rfl⟩

theorem procKillHandles_linked : Respects Linked (procKillHandles env p) := by
  have htable : Respects Linked (procKillTable env p) := by
    have hclose : Respects Linked
        ((List.finRange HANDLE_MAX).forM fun i => procHandleClose env p ((i : ℕ) : Int)) :=
      respects_linked (.forM fun _ => procHandleClose_calm)
    have hfree {t : Tid} : Respects Linked (freeTable t) := by
      intro s
      rw [wlp_freeTable]
      exact fun _ _ => touches_of_eq rfl rfl
    exact .bind hclose fun _ => .bind (respects_linked procTable_calm) fun _ => hfree
  exact .bind (respects_of_reads getProc_respects) fun _ => .bind unref_linked fun _ =>
    .ite (.bind htable fun _ => setHandles_linked) setHandles_linked

theorem procKillPages_linked : Respects Linked (procKillPages p) := by
  have hset : Respects Linked (updProc p ({ · with pages := none })) :=
    updProc_touches trivial fun _ => ⟨rfl, rfl, rfl, rfl, rfl, rfl, rfl⟩
  have hfree {d : ℕ} : Respects Linked (freePagedir d) := by
    intro s
    rw [wlp_freePagedir]
    exact fun _ _ => touches_of_eq rfl rfl
  exact .bind (respects_of_reads getProc_respects) fun v => .bind unref_linked fun _ =>
    .ite (.bind (respects_of_reads nonNull_respects) fun _ => .bind hfree fun _ => hset) hset

theorem procKillAlive_linked : Respects Linked (procKillAlive env p ret) := by
  have hmsg : Respects Linked (updProc p ({ · with deathMsg := ret })) :=
    updProc_touches trivial fun _ => ⟨rfl, rfl, rfl, rfl, rfl, rfl, rfl⟩
  exact .bind (respects_linked procKillControlled_calm) fun _ =>
    .bind (respects_linked procKillReqslot_calm) fun _ =>
    .bind (respects_linked procKillPipe_calm) fun _ =>
    .bind (respects_linked procKillTimer_calm) fun _ =>
    .bind procKillHandles_linked fun _ => .bind (respects_linked procKillMount_calm) fun _ =>
    .bind (procSetstate_touches trivial) fun _ => .bind hmsg fun _ => .bind respects_get fun _ =>
    .bind (respects_of_reads getProc_respects) fun _ => .bind procKillChildren_linked fun _ =>
    procKillPages_linked

theorem procKillDying_linked : Respects Linked (procKillDying p) := by
  refine .bind (respects_of_reads getProc_respects) fun v => .ite ?_ respects_pure
  cases v.parent
  case none   => exact procSetstate_touches trivial
  case some q =>
    exact .bind (respects_of_reads getProc_respects) fun _ =>
      .ite (procSetstate_touches trivial) (procSetstate_touches trivial)

theorem procKill_linked : Respects Linked (procKill env p ret) := by
  have hend : Respects Linked (do
      procKillDying p
      if p = (← get).first then
        procKillFirst p
      else
        procTryreap p) :=
    .bind procKillDying_linked fun _ => .bind respects_get fun _ =>
      .ite (fun _ => wlp_procKillFirst) procTryreap_linked
  exact .bind (respects_of_reads getProc_respects) fun _ =>
    .ite (.bind procKillAlive_linked fun _ => hend) hend

end Kill

-- The links of the tree go to older processes, except those to the children. A process keeps the
-- list of its children from the youngest to the oldest.
structure TreeOk (s : State) : Prop where
  parent  : ∀ p v q, s.procs.get p = some v → v.parent = some q → q < p
  sibling : ∀ p v q, s.procs.get p = some v → v.sibling = some q →
    q < p ∧ ∀ w, s.procs.get q = some w → w.parent = v.parent
  child   : ∀ p v c, s.procs.get p = some v → v.child = some c →
    c < s.procs.size ∧ ∀ w, s.procs.get c = some w → w.parent = some p
  pns     : ∀ p v, s.procs.get p = some v → v.pns ≤ p

section TreeOk

variable {s t : State} {D : Pid → Prop} {env : Env} {p c : Pid} {v : Proc} {flags : Flags}

theorem TreeOk.touches (h : TreeOk s) (ht : Touches D s t) : TreeOk t := by
  refine ⟨fun p w q hw hq => ?_, fun p w q hw hq => ?_, fun p w q hw hq => ?_, fun p w hw => ?_⟩
  · have ⟨v, hv, hk⟩ := ht.procs.of_get' hw
    exact h.parent p v q hv (hk.parent ▸ hq)
  · have ⟨v, hv, hk⟩ := ht.procs.of_get' hw
    have ⟨hlt, hsib⟩ := h.sibling p v q hv (hk.sibling ▸ hq)
    refine ⟨hlt, fun x hx => ?_⟩
    have ⟨y, hy, hk'⟩ := ht.procs.of_get' hx
    rw [hk.parent, hk'.parent]
    exact hsib y hy
  · have ⟨v, hv, hk⟩ := ht.procs.of_get' hw
    have ⟨hlt, hchild⟩ := h.child p v q hv (hk.child ▸ hq)
    refine ⟨ht.procs.size ▸ hlt, fun x hx => ?_⟩
    have ⟨y, hy, hk'⟩ := ht.procs.of_get' hx
    rw [hk'.parent]
    exact hchild y hy
  · have ⟨v, hv, hk⟩ := ht.procs.of_get' hw
    exact hk.pns ▸ h.pns p v hv

theorem TreeOk.linked {x : K α} (h : TreeOk s) (hx : Respects Linked x) :
    wlp x (fun _ t => TreeOk t) s :=
  wlp_post (hx s) fun _ _ ht => h.touches ht

theorem TreeOk.born (h : TreeOk s) (hb : Born s p flags c t) : TreeOk t := by
  obtain ⟨v, w, hv, _, hw, hc, hparent, hsibling⟩ := hb.child
  have hpc : p < c := hb.fresh ▸ Heap.lt_size hv
  -- Every process of the new state is the child or an old one.
  have hold {q : Pid} {x : Proc} (hx : t.procs.get q = some x) (hq : q ≠ c) :
      ∃ y, s.procs.get q = some y ∧ x.parent = y.parent ∧ x.sibling = y.sibling ∧ x.pns = y.pns ∧
        x.child = if q = p then some c else y.child := by
    cases hy : s.procs.get q
    case none =>
      rw [hb.old q hq hy] at hx
      contradiction
    case some y =>
      obtain ⟨x', z, hx', hz, heq⟩ := hb.procs q y hy
      obtain rfl := Option.some_inj.mp (hx.symm.trans hx')
      refine ⟨y, rfl, ?_, ?_, ?_, ?_⟩ <;> rw [heq, hz.eq]
  refine ⟨fun q x r hx hr => ?_, fun q x r hx hr => ?_, fun q x r hx hr => ?_, fun q x hx => ?_⟩
  · by_cases hq : q = c
    case pos =>
      obtain rfl := Option.some_inj.mp (hw.symm.trans (hq ▸ hx))
      obtain rfl := Option.some_inj.mp (hparent.symm.trans hr)
      exact hq ▸ hpc
    case neg =>
      obtain ⟨y, hy, hyp, _⟩ := hold hx hq
      exact h.parent q y r hy (hyp ▸ hr)
  · by_cases hq : q = c
    case pos =>
      obtain rfl := Option.some_inj.mp (hw.symm.trans (hq ▸ hx))
      have ⟨hlt, hchild⟩ := h.child p v r hv (hsibling ▸ hr)
      rw [hq, hb.fresh, hparent]
      refine ⟨hlt, fun z hz => ?_⟩
      obtain ⟨y, hy, hyp, _⟩ := hold hz (hb.fresh ▸ hlt.ne)
      rw [hyp]
      exact hchild y hy
    case neg =>
      obtain ⟨y, hy, hyp, hys, _⟩ := hold hx hq
      have ⟨hlt, hsib⟩ := h.sibling q y r hy (hys ▸ hr)
      refine ⟨hlt, fun z hz => ?_⟩
      have hrc : r ≠ c := (hb.fresh ▸ hlt.trans (Heap.lt_size hy)).ne
      obtain ⟨y', hy', hyp', _⟩ := hold hz hrc
      rw [hyp, hyp']
      exact hsib y' hy'
  · by_cases hq : q = c
    case pos =>
      obtain rfl := Option.some_inj.mp (hw.symm.trans (hq ▸ hx))
      rw [hc.child] at hr
      contradiction
    case neg =>
      obtain ⟨y, hy, _, _, _, hyc⟩ := hold hx hq
      rw [hyc] at hr
      by_cases hqp : q = p
      case pos =>
        rw [if_pos hqp, Option.some_inj] at hr
        refine ⟨by rw [hb.size, ← hr, hb.fresh]; exact Nat.lt_succ_self _, fun z hz => ?_⟩
        obtain rfl := Option.some_inj.mp (hw.symm.trans (hr ▸ hz))
        rw [hparent, hqp]
      case neg =>
        rw [if_neg hqp] at hr
        have ⟨hlt, hchild⟩ := h.child q y r hy hr
        refine ⟨hb.size ▸ hlt.trans (Nat.lt_succ_self _), fun z hz => ?_⟩
        obtain ⟨y', hy', hyp', _⟩ := hold hz (hb.fresh ▸ hlt.ne)
        rw [hyp']
        exact hchild y' hy'
  · by_cases hq : q = c
    case pos =>
      obtain rfl := Option.some_inj.mp (hw.symm.trans (hq ▸ hx))
      rw [hc.pns, hq]
      exact (h.pns p v hv).trans hpc.le
    case neg =>
      obtain ⟨y, hy, _, _, hypns, _⟩ := hold hx hq
      exact hypns ▸ h.pns q y hy

end TreeOk

section Prune

variable {s : State} {p q : Pid} {v w : Proc} {o : Option Pid}

theorem get_parent_set (hv : s.procs.get p = some v) (hw : w.parent = v.parent) {x : Proc}
    (hx : (s.withProcs (s.procs.set p w)).procs.get q = some x) :
    ∃ y, s.procs.get q = some y ∧ x.parent = y.parent := by
  rw [State.withProcs_procs, Heap.get_set hv] at hx
  by_cases hq : q = p
  case pos =>
    rw [if_pos hq, Option.some_inj] at hx
    exact ⟨v, hq ▸ hv, hx ▸ hw⟩
  case neg => exact ⟨x, by simpa [hq] using hx, rfl⟩

-- A process gets another place in the tree, but the same parent and namespace.
theorem TreeOk.set (h : TreeOk s) (hv : s.procs.get p = some v) (hparent : w.parent = v.parent)
    (hpns : w.pns = v.pns)
    (hsibling : ∀ q, w.sibling = some q → q < p ∧ ∀ x, s.procs.get q = some x → x.parent = w.parent)
    (hchild : ∀ c, w.child = some c → c < s.procs.size ∧
      ∀ x, s.procs.get c = some x → x.parent = some p) :
    TreeOk (s.withProcs (s.procs.set p w)) := by
  refine ⟨fun r x q hx hq => ?_, fun r x q hx hq => ?_, fun r x q hx hq => ?_, fun r x hx => ?_⟩
  · obtain ⟨y, hy, hyp⟩ := get_parent_set hv hparent hx
    exact h.parent r y q hy (hyp ▸ hq)
  · have hlinks : q < r ∧ ∀ y, s.procs.get q = some y → y.parent = x.parent := by
      rw [State.withProcs_procs, Heap.get_set hv] at hx
      by_cases hr : r = p
      case pos =>
        rw [if_pos hr, Option.some_inj] at hx
        subst hx hr
        exact hsibling q hq
      case neg => exact h.sibling r x q (by simpa [hr] using hx) hq
    refine ⟨hlinks.1, fun z hz => ?_⟩
    obtain ⟨y, hy, hyp⟩ := get_parent_set hv hparent hz
    rw [hyp]
    exact hlinks.2 y hy
  · have hlinks : q < s.procs.size ∧ ∀ y, s.procs.get q = some y → y.parent = some r := by
      rw [State.withProcs_procs, Heap.get_set hv] at hx
      by_cases hr : r = p
      case pos =>
        rw [if_pos hr, Option.some_inj] at hx
        subst hx hr
        exact hchild q hq
      case neg => exact h.child r x q (by simpa [hr] using hx) hq
    refine ⟨by simpa using hlinks.1, fun z hz => ?_⟩
    obtain ⟨y, hy, hyp⟩ := get_parent_set hv hparent hz
    rw [hyp]
    exact hlinks.2 y hy
  · rw [State.withProcs_procs, Heap.get_set hv] at hx
    by_cases hr : r = p
    case pos =>
      rw [if_pos hr, Option.some_inj] at hx
      rw [← hx, hpns, hr]
      exact h.pns p v hv
    case neg => exact h.pns r x (by simpa [hr] using hx)

theorem TreeOk.free (h : TreeOk s) : TreeOk (s.withProcs (s.procs.free p)) := by
  have hget {q : Pid} {x : Proc} (hx : (s.procs.free p).get q = some x) : s.procs.get q = some x := by
    rw [Heap.get_free] at hx
    by_cases hq : q = p
    case pos => simp [hq] at hx
    case neg => simpa [hq] using hx
  refine ⟨fun r x q hx => h.parent r x q (hget hx), fun r x q hx hq => ?_, fun r x q hx hq => ?_,
    fun r x hx => h.pns r x (hget hx)⟩
  · have ⟨hlt, hsib⟩ := h.sibling r x q (hget hx) hq
    exact ⟨hlt, fun y hy => hsib y (hget hy)⟩
  · have ⟨hlt, hchild⟩ := h.child r x q (hget hx) hq
    exact ⟨by simpa using hlt, fun y hy => hchild y (hget hy)⟩

theorem procUnlinkLoop_tree {fuel : ℕ} {prev : Pid} (h : TreeOk s) (hv : s.procs.get p = some v) :
    wlp (procUnlinkLoop p v.sibling fuel prev) (fun _ t => TreeOk t) s := by
  induction fuel generalizing prev
  case zero => exact wlp_throw.mpr trivial
  case succ fuel hi =>
    simp only [procUnlinkLoop, wlp_bind, wlp_getProc]
    intro w hw
    cases hs : w.sibling
    case none   => exact wlp_throw.mpr trivial
    case some x =>
      simp only [wlp_ite, wlp_updProc]
      refine ⟨fun hx w' hw' => ?_, fun _ => hi⟩
      obtain rfl := Option.some_inj.mp (hw.symm.trans hw')
      subst hx
      obtain ⟨hlt, hsib⟩ := h.sibling prev w x hw hs
      refine h.set hw rfl rfl (fun q hq => ?_) fun c hc => h.child prev w c hw hc
      obtain ⟨hlt', hsib'⟩ := h.sibling x v q hv hq
      exact ⟨hlt'.trans hlt, fun y hy => (hsib' y hy).trans (hsib v hv)⟩

theorem procUnlink_tree {parent first : Pid} (h : TreeOk s) (hv : s.procs.get p = some v)
    (hp : v.parent = some parent) :
    wlp (procUnlink p v.sibling parent first) (fun _ t => TreeOk t) s := by
  simp only [procUnlink, wlp_ite, wlp_updProc, wlp_bind, wlp_get]
  refine ⟨fun _ w hw => ?_, fun _ => procUnlinkLoop_tree h hv⟩
  refine h.set hw rfl rfl (fun q hq => h.sibling parent w q hw hq) fun c hc => ?_
  obtain ⟨hlt, hsib⟩ := h.sibling p v c hv hc
  exact ⟨hlt.trans (Heap.lt_size hv), fun x hx => (hsib x hx).trans hp⟩

theorem procPruneLeaf_tree {leaves : List Pid} (h : TreeOk s) :
    wlp (procPruneLeaf p leaves) (fun _ t => TreeOk t) s := by
  have hrest {parent : Pid} : Respects Linked (do
      if ¬(← getProc parent).state.alive then
        procTryreap parent) :=
    .bind (respects_of_reads getProc_respects) fun _ => .ite procTryreap_linked respects_pure
  simp only [procPruneLeaf, wlp_bind, wlp_getProc, wlp_modify, wlp_kassert] at hrest ⊢
  intro v hv _
  cases hp : v.parent
  case none        => exact wlp_throw.mpr trivial
  case some parent =>
    simp only [wlp_bind, wlp_getProc]
    intro w hw
    cases w.child
    case none       => exact wlp_throw.mpr trivial
    case some first =>
      simp only [wlp_bind, wlp_kassert]
      intro _
      have htree : TreeOk { s with deadLeaves := leaves } := ⟨h.parent, h.sibling, h.child, h.pns⟩
      refine wlp_post (procUnlink_tree htree hv hp) fun _ t ht => ?_
      refine wlp_post (ht.linked (procSetstate_touches trivial)) fun _ u hu => ?_
      simp only [wlp_freeProc]
      intro _ _
      rw [← wlp_bind]
      exact hu.free.linked hrest

theorem procPruneLeaves_tree (h : TreeOk s) : wlp procPruneLeaves (fun _ t => TreeOk t) s := by
  have hloop {fuel : ℕ} {s : State} (h : TreeOk s) :
      wlp (procPruneLeavesLoop fuel) (fun _ t => TreeOk t) s := by
    induction fuel generalizing s
    case zero =>
      simp only [procPruneLeavesLoop, wlp_bind, wlp_get, wlp_ite, wlp_throw, wlp_pure]
      exact ⟨fun _ => trivial, fun _ => h⟩
    case succ fuel hi =>
      simp only [procPruneLeavesLoop, wlp_bind, wlp_get]
      cases s.deadLeaves
      case nil  => exact wlp_pure.mpr h
      case cons =>
        rw [wlp_bind]
        exact wlp_post (procPruneLeaf_tree h) fun _ _ => hi
  simp only [procPruneLeaves, wlp_bind, wlp_get]
  exact hloop h

end Prune

section Namespace

variable {s t : State} {proc old p q it : Pid} {v w : Proc}

-- The walk of `proc_ns_create` leaves the tree as it is.
structure Proc.Renamed (v w : Proc) : Prop where
  parent  : w.parent = v.parent
  sibling : w.sibling = v.sibling
  child   : w.child = v.child

abbrev Renamed (s t : State) : Prop :=
  s.procs.Related Proc.Renamed t.procs

instance : IsPreorder State Renamed where
  refl _ := .refl fun _ => ⟨rfl, rfl, rfl⟩
  trans _ _ _ h₁ h₂ := h₁.trans (fun _ _ _ h₁ h₂ =>
    ⟨h₂.parent.trans h₁.parent, h₂.sibling.trans h₁.sibling, h₂.child.trans h₁.child⟩) h₂

-- `q` is `p` or one of its ancestors.
inductive Above (s : State) (q : Pid) : Pid → Prop
  | refl : Above s q q
  | step {p r : Pid} {v : Proc} : s.procs.get p = some v → v.parent = some r → Above s q r → Above s q p

-- `q` comes after `p` in the list of the children of their parent.
inductive Behind (s : State) : Pid → Pid → Prop
  | next {p q : Pid} {v : Proc} : s.procs.get p = some v → v.sibling = some q → Behind s p q
  | step {p q r : Pid} {v : Proc} : s.procs.get p = some v → v.sibling = some r → Behind s r q → Behind s p q

-- A part of the tree which the walk can only reach when it has left the processes below `proc`.
def Outside (s : State) (proc it : Pid) : Prop :=
  ∃ a y w, Above s a proc ∧ Behind s a y ∧ s.procs.get y = some w ∧ Above s y it

theorem Above.le (h : TreeOk s) (ha : Above s q p) : q ≤ p := by
  induction ha
  case refl => exact le_rfl
  case step hv hr _ hi => exact hi.trans (h.parent _ _ _ hv hr).le

theorem Above.trans {r : Pid} (h₁ : Above s r q) (h₂ : Above s q p) : Above s r p := by
  induction h₂
  case refl => exact h₁
  case step hv hr _ hi => exact .step hv hr hi

-- The ancestors of a process are in line.
theorem Above.total {r : Pid} (h₁ : Above s q p) (h₂ : Above s r p) : Above s q r ∨ Above s r q := by
  induction h₁
  case refl => exact .inr h₂
  case step hv hq hqa hi =>
    cases h₂
    case refl => exact .inl (.step hv hq hqa)
    case step hr hra hv' =>
      obtain rfl := Option.some_inj.mp (hv.symm.trans hv')
      obtain rfl := Option.some_inj.mp (hq.symm.trans hr)
      exact hi hra

theorem Behind.snoc {r : Pid} (hb : Behind s p q) (hv : s.procs.get q = some v)
    (hs : v.sibling = some r) : Behind s p r := by
  induction hb
  case next hv' hs'    => exact .step hv' hs' (.next hv hs)
  case step hv' hs' _ hi => exact .step hv' hs' (hi hv)

theorem Behind.exists_get (hb : Behind s p q) : ∃ v, s.procs.get p = some v := by
  induction hb
  case next hv _     => exact ⟨_, hv⟩
  case step hv _ _ _ => exact ⟨_, hv⟩

-- All the children of a process have the same parent, and the older ones come later.
theorem Behind.siblings (h : TreeOk s) (hb : Behind s p q) :
    q < p ∧ ∀ v w, s.procs.get p = some v → s.procs.get q = some w → w.parent = v.parent := by
  induction hb
  case next hv hs =>
    have ⟨hlt, hsib⟩ := h.sibling _ _ _ hv hs
    refine ⟨hlt, fun v w hv' hw => ?_⟩
    obtain rfl := Option.some_inj.mp (hv.symm.trans hv')
    exact hsib w hw
  case step p q r x hx hs hb hi =>
    have ⟨hlt, hsib⟩ := h.sibling _ _ _ hx hs
    refine ⟨hi.1.trans hlt, fun v w hv hw => ?_⟩
    obtain rfl := Option.some_inj.mp (hx.symm.trans hv)
    obtain ⟨y, hy⟩ := hb.exists_get
    exact (hi.2 y w hy hw).trans (hsib y hy)

-- Siblings are not related to each other.
theorem Behind.not_above (h : TreeOk s) (hb : Behind s p q) (hw : s.procs.get q = some w) :
    ¬Above s q p ∧ ¬Above s p q := by
  have ⟨hlt, hsib⟩ := hb.siblings h
  obtain ⟨v, hv⟩ := hb.exists_get
  have hparent := hsib v w hv hw
  refine ⟨fun ha => ?_, fun ha => ?_⟩
  · cases ha
    case refl => exact absurd hlt (lt_irrefl _)
    case step hr hra hv' =>
      obtain rfl := Option.some_inj.mp (hv.symm.trans hv')
      have := h.parent q w _ hw (hparent.trans hr)
      exact absurd (hra.le h) (not_le.mpr this)
  · cases ha
    case refl => exact absurd hlt (lt_irrefl _)
    case step hr hra hv' =>
      obtain rfl := Option.some_inj.mp (hw.symm.trans hv')
      have := h.parent p v _ hv (hparent.symm.trans hr)
      exact absurd (hra.le h) (not_le.mpr this)

theorem Outside.not_above (h : TreeOk s) (ho : Outside s proc it) : ¬Above s proc it := by
  obtain ⟨a, y, w, ha, hb, hw, hy⟩ := ho
  have ⟨hya, hay⟩ := hb.not_above h hw
  intro hp
  cases hy.total hp
  case inl hyp =>
    cases hyp.total ha
    case inl h => exact hya h
    case inr h => exact hay h
  case inr hpy => exact hay (ha.trans hpy)

theorem updProc_renamed {f : Proc → Proc} (hf : ∀ v : Proc, v.Renamed (f v)) :
    Respects Renamed (updProc p f) := by
  intro s
  rw [wlp_updProc]
  exact fun v hv => .set (fun _ => ⟨rfl, rfl, rfl⟩) hv (hf v)

theorem procNsCreateVisit_renamed : Respects Renamed (procNsCreateVisit proc old it) := by
  refine .ite (.bind ?_ fun _ => ?_) respects_pure
  · exact .bind (respects_of_reads getProc_respects) fun _ => .bind (respects_of_reads getProc_respects) fun _ =>
      .ite (updProc_renamed fun _ => ⟨rfl, rfl, rfl⟩) respects_pure
  · exact .bind (respects_of_reads getProc_respects) fun _ =>
      .ite (updProc_renamed fun _ => ⟨rfl, rfl, rfl⟩) (respects_of_reads kassert_respects)

-- From outside the inner loop only leads further away.
theorem procNsCreateClimb_outside {fuel : ℕ} (h : TreeOk s) (hr : Renamed s t)
    (hit : Outside s proc it ∨ Above s it proc ∧ it ≠ proc) :
    wlp (procNsCreateClimb proc fuel it) (fun o u => u = t ∧ ∃ n, o = some n ∧
      ∀ w, s.procs.get n = some w → Outside s proc n) t := by
  induction fuel generalizing it
  case zero => exact wlp_throw.mpr trivial
  case succ fuel hi =>
    simp only [procNsCreateClimb, wlp_bind, wlp_getProc]
    intro v' hv'
    obtain ⟨v, hv, hk⟩ := hr.of_get' hv'
    rw [hk.sibling, hk.parent]
    split
    · rename_i n hs
      refine wlp_pure.mpr ⟨rfl, n, rfl, fun w hw => ?_⟩
      obtain ⟨a, y, x, ha, hb, hx, hy⟩ | ⟨ha, _⟩ := hit
      · cases hy
        case refl => exact ⟨a, n, w, ha, hb.snoc hv hs, hw, .refl⟩
        case step hr hra hv'' =>
          obtain rfl := Option.some_inj.mp (hv.symm.trans hv'')
          have := (h.sibling it v n hv hs).2 w hw
          exact ⟨a, y, x, ha, hb, hx, .step hw (this.trans hr) hra⟩
      · exact ⟨it, n, w, ha, .next hv hs, hw, .refl⟩
    · exact wlp_throw.mpr trivial
    · rename_i r _ hparent
      rw [wlp_ite]
      refine ⟨fun hrp => ?_, fun hrp => hi ?_⟩
      · subst hrp
        obtain ho | ⟨ha, hne⟩ := hit
        · exact absurd (.step hv hparent .refl) (ho.not_above h)
        · have := h.parent it v r hv hparent
          exact absurd (ha.le h) (not_le.mpr this)
      · obtain ⟨a, y, x, ha, hb, hx, hy⟩ | ⟨ha, hne⟩ := hit
        · cases hy
          case refl =>
            -- The siblings of an ancestor are done, so the next ones are those of its parent.
            obtain ⟨z, hz⟩ := hb.exists_get
            have := (hb.siblings h).2 z v hz hv
            exact .inr ⟨.trans (.step hz (this ▸ hparent) .refl) ha, hrp⟩
          case step hr hra hv'' =>
            obtain rfl := Option.some_inj.mp (hv.symm.trans hv'')
            obtain rfl := Option.some_inj.mp (hparent.symm.trans hr)
            exact .inl ⟨a, y, x, ha, hb, hx, hra⟩
        · exact .inr ⟨.trans (.step hv hparent .refl) ha, hrp⟩

theorem procNsContains_reads {ns : Pid} : Respects Reads (procNsContains ns p) := by
  refine .ite respects_pure (.bind getProc_respects fun v => ?_)
  cases v.parent
  case none   => exact respects_pure
  case some _ => exact .bind getProc_respects fun _ => respects_pure

theorem procNsCreateDescends_some {o : Option Pid} :
    wlp (procNsCreateDescends proc old o) (fun b t => t = s ∧ (b → ∃ c, o = some c)) s := by
  cases o
  case none   => exact wlp_pure.mpr ⟨rfl, by simp⟩
  case some c =>
    have hread : Respects Reads (procNsCreateDescends proc old (some c)) :=
      .bind procNsContains_reads fun _ => .ite respects_pure procNsContains_reads
    exact wlp_post (hread s) fun _ _ ht => ⟨ht, fun _ => ⟨c, rfl⟩⟩

theorem procNsCreateClimb_reads {fuel : ℕ} : Respects Reads (procNsCreateClimb proc fuel it) := by
  induction fuel generalizing it
  case zero => exact respects_throw
  case succ fuel hi =>
    refine .bind getProc_respects fun v => ?_
    split
    · exact respects_pure
    · exact respects_throw
    · exact .ite (.bind getProc_respects fun _ => respects_pure) hi

theorem procNsCreateNext_reads : Respects Reads (procNsCreateNext proc old it) := by
  refine .bind getProc_respects fun v => .bind (fun s => ?_) fun _ => ?_
  · exact wlp_post procNsCreateDescends_some fun _ _ h => h.1
  · exact .ite respects_pure (.ite respects_pure (.bind respects_get fun _ => procNsCreateClimb_reads))

-- Who is visited next, if the walk is at `it`: a child, nobody, or what the inner loop says.
theorem wlp_procNsCreateNext {Q : Option Pid → State → Prop}
    (hchild : ∀ v c, s.procs.get it = some v → v.child = some c → Q (some c) s)
    (hstop : it = proc → Q none s)
    (hclimb : it ≠ proc → ∀ fuel, wlp (procNsCreateClimb proc fuel it) Q s) :
    wlp (procNsCreateNext proc old it) Q s := by
  simp only [procNsCreateNext, wlp_bind, wlp_getProc]
  intro v hv
  refine wlp_post procNsCreateDescends_some ?_
  rintro b _ ⟨rfl, hb⟩
  rw [wlp_ite]
  refine ⟨fun htrue => ?_, fun _ => ?_⟩
  · obtain ⟨c, hc⟩ := hb htrue
    rw [hc]
    exact wlp_pure.mpr (hchild v c hv hc)
  · simp only [wlp_ite, wlp_pure, wlp_bind, wlp_get]
    exact ⟨hstop, fun hne => hclimb hne _⟩

-- Once the walk is outside, it does not end.
theorem procNsCreateLoop_outside {fuel : ℕ} (h : TreeOk s) (hr : Renamed s t)
    (ho : ∀ w, s.procs.get it = some w → Outside s proc it) :
    wlp (procNsCreateLoop proc old fuel (some it)) (fun _ _ => False) t := by
  induction fuel generalizing it t
  case zero => exact wlp_throw.mpr trivial
  case succ fuel hi =>
    simp only [procNsCreateLoop, wlp_bind]
    refine wlp_post (procNsCreateVisit_renamed t) fun _ u hu => ?_
    have hru : Renamed s u := trans_of Renamed hr hu
    have hnext {o : Option Pid} (hn : ∃ n, o = some n ∧ ∀ w, s.procs.get n = some w → Outside s proc n) :
        wlp (procNsCreateLoop proc old fuel o) (fun _ _ => False) u := by
      obtain ⟨n, rfl, hn⟩ := hn
      exact hi hru hn
    cases hit : s.procs.get it
    case none =>
      -- The walk ends at once if it gets to a process which does not exist.
      simp only [procNsCreateNext, wlp_bind, wlp_getProc]
      intro v hv
      obtain ⟨_, hv', _⟩ := hru.of_get' hv
      rw [hit] at hv'
      contradiction
    case some w =>
      have hout := ho w hit
      refine wlp_procNsCreateNext (fun v c hv hc => hnext ⟨c, rfl, fun x hx => ?_⟩) (fun hp => ?_) fun _ fuel => ?_
      · obtain ⟨v', hv', hk⟩ := hru.of_get' hv
        obtain ⟨a, y, z, ha, hb, hz, hy⟩ := hout
        have := (h.child it v' c hv' (hk.child ▸ hc)).2 x hx
        exact ⟨a, y, z, ha, hb, hz, .step hx this hy⟩
      · subst hp
        exact absurd .refl (hout.not_above h)
      · refine wlp_post (procNsCreateClimb_outside h hru (.inl hout)) ?_
        rintro o _ ⟨rfl, hn⟩
        exact hnext hn

def PnsOk (s : State) : Prop :=
  ∀ p v, s.procs.get p = some v → v.pns ≤ p

theorem PnsOk.setProc (h : PnsOk s) (hv : s.procs.get p = some v) (hw : w.pns ≤ p) :
    PnsOk (s.withProcs (s.procs.set p w)) := by
  intro q x hx
  rw [State.withProcs_procs, Heap.get_set hv] at hx
  by_cases hq : q = p
  case pos =>
    rw [if_pos hq, Option.some_inj] at hx
    exact hx ▸ hq ▸ hw
  case neg => exact h q x (by simpa [hq] using hx)

theorem procNsCreateVisit_pns (h : PnsOk s) (hit : ∀ v, s.procs.get it = some v → proc ≤ it) :
    wlp (procNsCreateVisit proc old it) (fun _ t => PnsOk t) s := by
  have hmove {t : State} (h : PnsOk t) (hit : ∀ v, t.procs.get it = some v → proc ≤ it) :
      wlp (procNsCreateMove proc old it) (fun _ t => PnsOk t) t := by
    simp only [procNsCreateMove, wlp_bind, wlp_getProc, wlp_ite, wlp_updProc, wlp_kassert]
    exact fun v hv => ⟨fun _ w hw => h.setProc hw (hit v hv), fun _ _ => h⟩
  simp only [procNsCreateVisit, procNsCreateLid, wlp_ite, wlp_bind, wlp_getProc, wlp_updProc, wlp_pure]
  refine ⟨fun _ v hv w hw => ⟨fun _ w' hw' => ?_, fun _ => hmove h hit⟩, fun _ => h⟩
  exact hmove (h.setProc hw' (h proc w' hw')) fun _ _ => hit v hv

-- Below the process the inner loop leads to another process below it, to the end, or outside.
theorem procNsCreateClimb_pns {fuel : ℕ} (h : TreeOk s) (hr : Renamed s t)
    (hit : Above s proc it) (hne : it ≠ proc) :
    wlp (procNsCreateClimb proc fuel it) (fun o u => u = t ∧ ∀ n, o = some n →
      (∀ w, s.procs.get n = some w → Above s proc n) ∨
        ∀ w, s.procs.get n = some w → Outside s proc n) t := by
  induction fuel generalizing it
  case zero => exact wlp_throw.mpr trivial
  case succ fuel hi =>
    simp only [procNsCreateClimb, wlp_bind, wlp_getProc]
    intro v' hv'
    obtain ⟨v, hv, hk⟩ := hr.of_get' hv'
    rw [hk.sibling, hk.parent]
    cases hit
    case refl => contradiction
    case step hp hpa hv'' =>
      obtain rfl := Option.some_inj.mp (hv.symm.trans hv'')
      rw [hp]
      cases hs : v.sibling
      case some n =>
        refine wlp_pure.mpr ⟨rfl, fun m hm => .inl fun w hw => ?_⟩
        obtain rfl := Option.some_inj.mp hm
        have := (h.sibling it v n hv hs).2 w hw
        exact .step hw (this.trans hp) hpa
      case none =>
        simp only [wlp_ite, wlp_bind, wlp_getProc, wlp_pure]
        refine ⟨fun hrp x' hx' => ⟨trivial, fun n hn => .inr fun w hw => ?_⟩, fun hrp => hi hpa hrp⟩
        obtain ⟨x, hx, hkx⟩ := hr.of_get' hx'
        rw [hrp] at hx
        exact ⟨proc, n, w, .refl, .next hx (hkx.sibling ▸ hn), hw, .refl⟩

theorem procNsCreateLoop_pns {fuel : ℕ} (h : TreeOk s) (hr : Renamed s t) (hp : PnsOk t)
    (hit : ∀ w, s.procs.get it = some w → Above s proc it) :
    wlp (procNsCreateLoop proc old fuel (some it)) (fun _ u => Renamed s u ∧ PnsOk u) t := by
  induction fuel generalizing it t
  case zero => exact wlp_throw.mpr trivial
  case succ fuel hi =>
    simp only [procNsCreateLoop, wlp_bind]
    have hle (v : Proc) (hv : t.procs.get it = some v) : proc ≤ it := by
      obtain ⟨w, hw, _⟩ := hr.of_get' hv
      exact (hit w hw).le h
    refine wlp_post (wlp_and (procNsCreateVisit_renamed t) (procNsCreateVisit_pns hp hle)) ?_
    rintro _ u ⟨hu, hpu⟩
    have hru : Renamed s u := trans_of Renamed hr hu
    have hend : wlp (procNsCreateLoop proc old fuel none) (fun _ u => Renamed s u ∧ PnsOk u) u := by
      cases fuel <;> exact wlp_pure.mpr ⟨hru, hpu⟩
    cases hw : s.procs.get it
    case none =>
      simp only [procNsCreateNext, wlp_bind, wlp_getProc]
      intro v hv
      obtain ⟨_, hv', _⟩ := hru.of_get' hv
      rw [hw] at hv'
      contradiction
    case some w =>
      refine wlp_procNsCreateNext (fun v c hv hc => hi hru hpu fun x hx => ?_) (fun _ => hend) fun hne fuel => ?_
      · obtain ⟨v', hv', hk⟩ := hru.of_get' hv
        have := (h.child it v' c hv' (hk.child ▸ hc)).2 x hx
        exact .step hx this (hit w hw)
      · refine wlp_post (procNsCreateClimb_pns h hru (hit w hw) hne) ?_
        rintro o _ ⟨rfl, hn⟩
        cases o
        case none   => exact hend
        case some n =>
          cases hn n rfl
          case inl hn => exact hi hru hpu hn
          case inr hn => exact wlp_post (procNsCreateLoop_outside h hru hn) fun _ _ => False.elim

theorem TreeOk.renamed (h : TreeOk s) (hr : Renamed s t) (hp : PnsOk t) : TreeOk t := by
  refine ⟨fun p w q hw hq => ?_, fun p w q hw hq => ?_, fun p w q hw hq => ?_, hp⟩
  · have ⟨v, hv, hk⟩ := hr.of_get' hw
    exact h.parent p v q hv (hk.parent ▸ hq)
  · have ⟨v, hv, hk⟩ := hr.of_get' hw
    have ⟨hlt, hsib⟩ := h.sibling p v q hv (hk.sibling ▸ hq)
    refine ⟨hlt, fun x hx => ?_⟩
    have ⟨y, hy, hk'⟩ := hr.of_get' hx
    rw [hk.parent, hk'.parent]
    exact hsib y hy
  · have ⟨v, hv, hk⟩ := hr.of_get' hw
    have ⟨hlt, hchild⟩ := h.child p v q hv (hk.child ▸ hq)
    refine ⟨hr.size ▸ hlt, fun x hx => ?_⟩
    have ⟨y, hy, hk'⟩ := hr.of_get' hx
    rw [hk'.parent]
    exact hchild y hy

theorem procNsCreate_tree (h : TreeOk s) : wlp (procNsCreate proc) (fun _ t => TreeOk t) s := by
  simp only [procNsCreate, procNsCreateInit, wlp_bind, wlp_getProc, wlp_ite, wlp_updProc, wlp_get, wlp_pure]
  refine fun _ _ => ⟨fun _ v hv w hw => ?_, fun _ => h⟩
  have hpns : w.pns = proc := by
    obtain rfl := Option.some_inj.mp ((Heap.get_set_self hv).symm.trans hw)
    rfl
  have hr₁ : Renamed s (s.withProcs (s.procs.set proc { v with pns := proc })) :=
    .set (fun _ => ⟨rfl, rfl, rfl⟩) hv ⟨rfl, rfl, rfl⟩
  have hp₁ : PnsOk (s.withProcs (s.procs.set proc { v with pns := proc })) :=
    PnsOk.setProc h.pns hv le_rfl
  generalize s.withProcs (s.procs.set proc { v with pns := proc }) = t at hw hr₁ hp₁ ⊢
  have hr₂ : Renamed t (t.withProcs (t.procs.set proc { w with nextlid := 2 })) :=
    .set (fun _ => ⟨rfl, rfl, rfl⟩) hw ⟨rfl, rfl, rfl⟩
  have hp₂ : PnsOk (t.withProcs (t.procs.set proc { w with nextlid := 2 })) :=
    hp₁.setProc hw hpns.le
  refine wlp_post (procNsCreateLoop_pns h (trans_of Renamed hr₁ hr₂) hp₂ fun _ _ => .refl) ?_
  exact fun _ u hx => h.renamed hx.1 hx.2

-- What follows on the new namespace.
theorem procfsHandle_calm : Respects Calm (do
    match ← procHandleInit proc .fsFront with
    | none          => sysReturn proc (-EMFILE)
    | some (hid, h) =>
      let b ← procfsBackend proc
      updHandle h ({ · with backend := some b })
      sysReturn proc (hid : ℕ)) := by
  refine .bind procHandleInit_calm fun x => ?_
  cases x
  case none   => exact sysReturn_calm
  case some x => exact .bind procfsBackend_calm fun _ => .bind updHandle_calm fun _ => sysReturn_calm

theorem sysGetprocfs_tree {flags : Flags} (h : TreeOk s) :
    wlp (sysGetprocfs proc flags) (fun _ t => TreeOk t) s := by
  rw [sysGetprocfs, wlp_ite]
  refine ⟨fun _ => h.linked (respects_linked sysReturn_calm), fun _ => ?_⟩
  rw [wlp_bind]
  exact wlp_post (procNsCreate_tree h) fun _ t ht => ht.linked (respects_linked procfsHandle_calm)

end Namespace

section Step

variable {s t : State} {env : Env} {e : Entry} {p : Pid}

theorem timerSchedule_linked {goal : ℕ} : Respects Linked (timerSchedule p goal) := by
  have hinsert {l : List Pid} : Respects Reads (timerInsert p goal l) := by
    induction l
    case nil => exact respects_pure
    case cons q l hi =>
      exact .bind getProc_respects fun _ => .ite (.bind kassert_respects fun _ => .bind hi fun _ =>
        respects_pure) respects_pure
  have hgoal : Respects Linked (updProc p ({ · with goal := goal })) :=
    updProc_touches trivial fun _ => ⟨rfl, rfl, rfl, rfl, rfl, rfl, rfl⟩
  exact .bind (procSetstate_touches trivial) fun _ => .bind hgoal fun _ => .bind respects_get fun _ =>
    .bind (respects_of_reads hinsert) fun _ => modify_touches (fun _ => rfl) fun _ => rfl

theorem hpetIrq_linked {counter : ℕ} : Respects Linked (hpetIrq counter) := by
  refine .bind respects_get fun s => ?_
  cases s.scheduled
  case nil => exact respects_pure
  case cons p l =>
    exact .bind (respects_of_reads getProc_respects) fun _ => .ite (.bind (modify_touches (fun _ => rfl) fun _ => rfl)
      fun _ => procSetstate_touches trivial) respects_pure

theorem sysWait2_linked {pid : Int} {flags : Flags} {out : ℕ} :
    Respects Linked (sysWait2 p pid flags out) := by
  have hpid : Respects Linked (updProc p ({ · with awaitedPid := pid.toNat, awaitedOut := out })) :=
    updProc_touches trivial fun _ => ⟨rfl, rfl, rfl, rfl, rfl, rfl, rfl⟩
  have hfail : Respects Linked (do procSetstate p .running; sysReturn p (-ECHILD)) :=
    .bind (procSetstate_touches trivial) fun _ => respects_linked sysReturn_calm
  refine .ite (respects_linked sysReturn_calm) ?_
  exact .bind (procSetstate_touches trivial) fun _ => .bind hpid fun _ => .bind respects_get fun _ =>
    .bind (respects_of_reads getProc_respects) fun _ => .bind sysWait2Loop_linked fun _ =>
    .ite hfail respects_pure

theorem sysFork_tree {flags : Flags} (hs : SharesOk s) (h : TreeOk s) :
    wlp (sysFork env p flags) (fun _ t => TreeOk t) s := by
  refine wlp_sysFork hs (fun c t u _ hb hc => (h.born hb).touches hc.linked) fun c t u v _ hb hc hv => ?_
  have hset : Linked u (u.withProcs (u.procs.set c { v with noreap := true })) :=
    touches_set trivial hv ⟨rfl, rfl, rfl, rfl, rfl, rfl, rfl⟩
  have htree := ((h.born hb).touches hc.linked).touches hset
  exact wlp_post (htree.linked procKill_linked) fun _ x hx y hy => hx.touches hy.linked

theorem Step.tree (hstep : Step s e t) (hs : SharesOk s) (h : TreeOk s) : TreeOk t := by
  refine hstep.of_wlp fun env => ?_
  have hl {x : K Unit} (hx : Respects Linked x) : wlp x (fun _ t => TreeOk t) s := h.linked hx
  cases e
  case kill p ret     => exact hl procKill_linked
  case intr p         => exact hl (respects_linked procTryintr_calm)
  case prune          => exact procPruneLeaves_tree h
  case timer counter  => exact hl hpetIrq_linked
  case finish r ret   => exact hl (respects_linked enterFinish_calm)
  case syscall p call =>
    cases call
    case exit ret        => exact hl procKill_linked
    case fork flags      => exact sysFork_tree hs h
    case wait2 pid flags => exact hl sysWait2_linked
    case getprocfs flags => exact sysGetprocfs_tree h
    case sleep goal      => exact hl timerSchedule_linked
    all_goals exact hl (respects_linked (enterSyscall_calm rfl))

end Step

end Camellia
