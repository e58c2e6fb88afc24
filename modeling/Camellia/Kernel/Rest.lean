import Camellia.Kernel.Shares
import Camellia.Kernel.Slots

namespace Camellia

structure Tidy (s : State) : Prop where
  -- A handle which nobody uses anymore does not stay.
  used   : ∀ h v, s.handles.get h = some v → v.refcount ≠ 0
  -- Whoever dies has let go of all filesystems.
  buried : ∀ p v, s.procs.get p = some v → v.state.active = false → v.mount = none ∧ v.controlled = none
  -- Nothing stays without a reference.
  needed : ∀ b v, s.backends.get b = some v → ¬v.Lost
  shown  : ∀ m v, s.mounts.get m = some v → v.refs ≠ 0
  cached : ∀ r w, s.reqs.get r = some w → ¬w.Lost
  -- No request waits for a filesystem which nobody provides.
  awaited : ∀ b v, s.backends.get b = some v → ¬v.Stuck
  -- The static handle is neither an end of a pipe nor does it stand for a request.
  static : 0 < s.handles.size ∧ ∀ v, s.handles.get nullfs = some v → v.type = .fsFront

-- The kernel is in the middle of an operation and has some references in its hands. The references
-- which keep the static handle alive may get lost.
structure Holding (s : State) (d : Balance) : Prop where
  ok      : Ok s
  tidy    : Tidy s
  balance : ∃ k : ℤ, s.balance = d + k • one (.handle nullfs)

-- The kernel is not in the middle of an operation.
abbrev Rest (s : State) : Prop :=
  Holding s 0

-- None of the firm references is missing.
def Firm (d : Balance) : Prop :=
  ∀ x, x.firm → 0 ≤ d x

section Holding

variable {s t u : State} {d e : Balance} {x : Ref} {p : Pid} {v w : Proc}

theorem Tidy.kept (hs : Tidy s) (hh : u.handles = s.handles) (hp : u.procs = s.procs) (hk : Kept u t) (hn : Neat s t) :
    Tidy t where
  used   := fun h w hw hz => by
    obtain ⟨v, hv, hz⟩ := hk.zeros h w hw hz
    exact hs.used h v (hh ▸ hv) hz
  buried := fun p w hw ha => by
    cases hv : u.procs.get p
    case none =>
      rw [hk.freeProcs p hv] at hw
      contradiction
    case some v =>
      obtain ⟨w', hw', hvw⟩ := hk.procs p v hv
      obtain rfl := Option.some_inj.mp (hw.symm.trans hw')
      have hstate : w.state = v.state := hvw.state.resolve_right fun h => by
        rw [h.1] at ha
        contradiction
      have h := hs.buried p v (hp ▸ hv) (hstate ▸ ha)
      rw [hvw.eq]
      exact h
  needed := fun b w hw hl => by
    obtain ⟨v, hv, hl⟩ := hn.backends b w hw hl
    exact hs.needed b v hv hl
  shown  := fun m w hw hz => by
    obtain ⟨v, hv, hz⟩ := hn.mounts m w hw hz
    exact hs.shown m v hv hz
  cached := fun r w hw hl => by
    obtain ⟨v, hv, hl⟩ := hn.reqs r w hw hl
    exact hs.cached r v hv hl
  awaited := fun b w hw hl => by
    obtain ⟨v, hv, hl⟩ := hn.queues b w hw hl
    exact hs.awaited b v hv hl
  static := by
    obtain ⟨hsize, hstatic⟩ := hs.static
    rw [← hh] at hsize hstatic
    refine ⟨hsize.trans_le hk.handles.size, fun w hw => ?_⟩
    obtain ⟨v, hv, hvw⟩ := hk.handles.get nullfs hsize w hw
    rw [hvw.eq]
    exact hstatic v hv

theorem Did.holding (ht : Did s e t) (hs : Tidy s) (hb : ∃ k : ℤ, s.balance = d + k • one (.handle nullfs)) :
    Holding t (d + e) := by
  obtain ⟨k, hk⟩ := hb
  refine ⟨ht.ok, hs.kept rfl rfl ht.kept ht.neat, k, ?_⟩
  rw [ht.balance, hk]
  abel

theorem Holding.did (hs : Holding s d) (ht : Did s e t) : Holding t (d + e) :=
  ht.holding hs.tidy hs.balance

theorem Holding.congr (hs : Holding s d) (he : d = e) : Holding s e :=
  he ▸ hs

theorem Holding.apply (hs : Holding s d) (hx : x ≠ .handle nullfs) : s.balance x = d x := by
  obtain ⟨k, hk⟩ := hs.balance
  rw [hk, Pi.add_apply, Pi.smul_apply, one_apply, if_neg hx, zsmul_zero, add_zero]

theorem Holding.firm (hs : Holding s d) (hx : x.firm) : s.balance x = d x :=
  hs.apply fun h => by
    rw [h] at hx
    contradiction

theorem Holding.sane (hs : Holding s d) (hd : Firm d) : Sane s :=
  ⟨hs.ok, fun x hx => (hs.firm hx).symm ▸ hd x hx⟩

theorem firm_zero : Firm 0 :=
  fun _ _ => le_rfl

theorem Rest.sane (hs : Rest s) : Sane s :=
  Holding.sane hs firm_zero

-- An operation which gives back what the kernel had in its hands.
theorem Holding.rest (hs : Holding s d) (ht : Did s (-d) t) : Rest t :=
  (hs.did ht).congr (add_neg_cancel d)

end Holding

-- What concerns neither the references nor the rest of the invariant.
def Same (s t : State) : Prop :=
  Sane s → Tidy s → Ok t ∧ Tidy t ∧ t.balance = s.balance

instance : IsPreorder State Same where
  refl _            := fun hs ht => ⟨hs.ok, ht, rfl⟩
  trans _ _ _ h₁ h₂ := fun hs ht => by
    obtain ⟨ho, ht, hb⟩ := h₁ hs ht
    obtain ⟨ho, ht, hb'⟩ := h₂ ⟨ho, fun x hx => hb ▸ hs.firm x hx⟩ ht
    exact ⟨ho, ht, hb'.trans hb⟩

instance : IsPreorder State Eq where
  refl  := Eq.refl
  trans _ _ _ := Eq.trans

-- The states in which a process waits for nothing that another object knows about.
def PState.idle : PState → Bool
  | .waits4fs | .waits4request | .waits4pipe | .waits4timer => false
  | _                                                      => true

-- The fields of a process which are of interest here stay as they are.
structure Proc.Same (v w : Proc) : Prop where
  state      : w.state = v.state ∨ v.state.idle ∧ w.state.idle ∧ w.state.active = v.state.active
  reqslot    : w.reqslot = v.reqslot
  controlled : w.controlled = v.controlled
  mount      : w.mount = v.mount
  waitsPipe  : w.waitsPipe = v.waitsPipe
  waitsSince : w.waitsSince = v.waitsSince

section Same

variable {s t : State} {d : Balance} {p : Pid} {v w : Proc} {α : Type} {x : K α}

theorem Holding.same (hs : Holding s d) (hd : Firm d) (ht : Same s t) : Holding t d := by
  obtain ⟨ho, hti, hb⟩ := ht (hs.sane hd) hs.tidy
  exact ⟨ho, hti, hb ▸ hs.balance⟩

theorem Holding.respects (hs : Holding s d) (hd : Firm d) (hx : Respects Same x) :
    wlp x (fun _ t => Holding t d) s :=
  wlp_post (hx s) fun _ _ => hs.same hd

-- Nothing is known about the result, but the state is the same.
theorem wlp_of_readonly {Q : α → State → Prop} (hx : Respects Eq x) (hq : ∀ a, Q a s) : wlp x Q s :=
  wlp_post (hx s) fun a _ ht => ht ▸ hq a

theorem respects_same (hx : Respects Eq x) : Respects Same x :=
  fun s => wlp_post (hx s) fun _ _ ht => ht ▸ refl_of Same s

theorem Proc.waits_idle (hv : v.state.idle) : v.waits p = 0 := by
  rw [Proc.waits]
  cases h : v.state <;> first | rfl | (rw [h] at hv; contradiction)

theorem Proc.Same.weight (h : v.Same w) : w.weight p = v.weight p := by
  have hactive : w.state.active = v.state.active := h.state.elim (congrArg _) fun h => h.2.2
  have hwaits : w.waits p = v.waits p := by
    obtain hs | ⟨hv, hw, -⟩ := h.state
    · rw [Proc.waits, Proc.waits, hs, h.reqslot, h.controlled, h.waitsPipe]
    · rw [Proc.waits_idle hv, Proc.waits_idle hw]
  rw [Proc.weight, Proc.weight, hwaits, hactive, h.reqslot, h.mount, h.controlled]

theorem Tidy.setProc (hs : Tidy s) (hv : s.procs.get p = some v)
    (hw : w.state.active = false → w.mount = none ∧ w.controlled = none) :
    Tidy (s.withProcs (s.procs.set p w)) :=
  { hs with buried := Heap.forall_set hv hw fun q x _ => hs.buried q x }

theorem Tidy.setHandle {h : Hid} {x y : Handle} (hs : Tidy s) (hx : s.handles.get h = some x)
    (hy : y.refcount = 0 → x.refcount = 0) (ht : y.type = x.type) :
    Tidy (s.withHandles (s.handles.set h y)) :=
  have hstatic := Heap.forall_set (P := fun g z => g = nullfs → z.type = .fsFront) hx
    (fun hn => ht.trans (hs.static.2 x (hn ▸ hx))) fun _ z _ hz hg => hs.static.2 z (hg ▸ hz)
  { hs with
    used   := Heap.forall_set hx (fun hz => hs.used h x hx (hy hz)) fun g z _ => hs.used g z
    static := ⟨Heap.size_set.symm ▸ hs.static.1, fun z hz => hstatic nullfs z hz rfl⟩ }

theorem Tidy.allocHandle {x : Handle} (hs : Tidy s) (hx : x.refcount ≠ 0) :
    Tidy (s.withHandles (s.handles.alloc x)) :=
  have hget : (s.handles.alloc x).get nullfs = s.handles.get nullfs :=
    Heap.get_alloc.trans (if_neg hs.static.1.ne)
  { hs with
    used   := Heap.forall_alloc hx fun g z _ => hs.used g z
    static := ⟨Heap.size_alloc.symm ▸ hs.static.1.trans (Nat.lt_succ_self _), fun z hz => hs.static.2 z (hget ▸ hz)⟩ }

theorem Tidy.setBackend {b : Bid} {x y : VfsBackend} (hs : Tidy s) (hx : s.backends.get b = some x)
    (hl : y.Lost → x.Lost) (hy : y.Stuck → x.Stuck) : Tidy (s.withBackends (s.backends.set b y)) :=
  { hs with
    needed  := Heap.forall_set hx (fun h => hs.needed b x hx (hl h)) fun c z _ => hs.needed c z
    awaited := Heap.forall_set hx (fun h => hs.awaited b x hx (hy h)) fun c z _ => hs.awaited c z }

theorem same_setProc (hv : s.procs.get p = some v) (h : v.Same w) :
    Same s (s.withProcs (s.procs.set p w)) := fun hs ht => by
  refine ⟨ok_setProc hs.ok hv h.waitsSince, ht.setProc hv fun ha => ?_, ?_⟩
  · rw [h.mount, h.controlled]
    have hactive : w.state.active = v.state.active := h.state.elim (congrArg _) fun h => h.2.2
    exact ht.buried p v hv (hactive ▸ ha)
  · rw [balance_setProc hv, h.weight, sub_self, add_zero]

@[grind ←]
theorem updProc_same {f : Proc → Proc} (hf : ∀ v : Proc, v.Same (f v)) : Respects Same (updProc p f) := by
  intro s
  rw [wlp_updProc]
  exact fun v hv => same_setProc hv (hf v)

end Same

-- What only looks at the kernel's data.
section Reads

variable {p : Pid} {env : Env} {hid ret : Int} {path : Option (List UInt8)} {flags : Flags}

@[grind ←]
theorem procTable_readonly : Respects Eq (procTable p) := by
  grind [procTable]

@[grind ←]
theorem procHandleGet_readonly : Respects Eq (procHandleGet p hid) := by
  grind [procHandleGet]

theorem procHandleDupSlot_readonly {dst : Int} : Respects Eq (procHandleDupSlot p dst flags) := by
  grind [procHandleDupSlot]

theorem pathBufSimplify_readonly {path : List UInt8} : Respects Eq (pathBufSimplify path) := by
  simp only [pathBufSimplify]
  split
  · exact respects_pure
  · exact respects_throw

theorem vfsMountResolve_readonly {path : List UInt8} {fuel : ℕ} {top : Option Mid} :
    Respects Eq (vfsMountResolve path fuel top) := by
  induction fuel generalizing top
  case zero => cases top <;> grind [vfsMountResolve]
  case succ fuel hi =>
    cases top
    case none   => exact respects_pure
    case some m => exact .bind getMount_respects fun v => .ite respects_pure hi

theorem sysOpenRequest_readonly {top : Option Mid} : Respects Eq (sysOpenRequest top path flags) := by
  refine .ite respects_pure ?_
  cases path
  case none      => exact respects_pure
  case some path =>
    refine .ite respects_pure (.bind pathBufSimplify_readonly fun path => .ite respects_pure ?_)
    refine .bind respects_get fun s => .bind vfsMountResolve_readonly fun m => ?_
    cases m
    case none   => exact respects_pure
    case some m => exact .bind getMount_respects fun _ => respects_pure

theorem sysMountPath_readonly : Respects Eq (sysMountPath path) := by
  cases path
  case none      => exact respects_pure
  case some path =>
    exact .ite respects_pure (.bind pathBufSimplify_readonly fun _ => .ite respects_pure respects_pure)

theorem sysMountHandle_readonly : Respects Eq (sysMountHandle p hid) := by
  refine .bind procHandleGet_readonly fun h => ?_
  cases h
  case none   => exact respects_pure
  case some h => exact .bind getHandle_respects fun _ => respects_pure

theorem sysFsRespondHandle_readonly : Respects Eq (sysFsRespondHandle p hid) := by
  refine .bind procHandleGet_readonly fun h => ?_
  cases h
  case none   => exact respects_pure
  case some h => exact .bind getHandle_respects fun _ => respects_pure

@[grind ←]
theorem pcpyBi_readonly {dstp srcp : Option Pid} {len : ℕ} : Respects Eq (pcpyBi env dstp srcp len) := by
  cases dstp <;> cases srcp <;> grind [pcpyBi]

theorem sysFsRespondCopy_readonly {req : VfsReq} : Respects Eq (sysFsRespondCopy env p req ret) := by
  grind [sysFsRespondCopy]

theorem procNsId_readonly {ns proc : Pid} : Respects Eq (procNsId ns proc) := by
  grind [procNsId]

theorem procNsContains_readonly {ns proc : Pid} : Respects Eq (procNsContains ns proc) := by
  grind [procNsContains]

@[grind ←]
theorem pipeCheckQueue_readonly {queued : List Pid} : Respects Eq (pipeCheckQueue queued) := by
  grind [pipeCheckQueue]

theorem procTryreapChildren_readonly {fuel : ℕ} {o : Option Pid} : Respects Eq (procTryreapChildren fuel o) := by
  induction fuel generalizing o
  case zero =>
    cases o
    case none   => exact respects_pure
    case some p => exact respects_throw
  case succ fuel hi =>
    cases o
    case none   => exact respects_pure
    case some p => exact .bind getProc_respects fun _ => .bind kassert_respects fun _ => hi

theorem procTryreapDescend_readonly {fuel : ℕ} : Respects Eq (procTryreapDescend fuel p) := by
  induction fuel generalizing p
  case zero => exact respects_throw
  case succ fuel hi =>
    refine .bind getProc_respects fun v => ?_
    cases v.child
    case none   => exact respects_pure
    case some c => exact hi

theorem procTryreapCheck_readonly {child : Pid} : Respects Eq (procTryreapCheck child) := by
  refine .bind respects_get fun s => .bind procTryreapChildren_readonly fun _ =>
    .bind procTryreapDescend_readonly fun _ => .bind getProc_respects fun w => .ite ?_ kassert_respects
  exact .bind nonNull_respects fun _ => .bind getProc_respects fun _ => kassert_respects

end Reads

-- What concerns the life of the processes, but not what they refer to.
section Life

variable {s : State} {p dead parent proc old it : Pid} {v : Proc} {ret : Int}

@[grind ←]
theorem regsSavereturn_same : Respects Same (regsSavereturn p ret) :=
  updProc_same fun _ => ⟨.inl rfl, rfl, rfl, rfl, rfl, rfl⟩

@[grind ←]
theorem sysReturn_same : Respects Same (sysReturn p ret) := by
  grind [sysReturn]

theorem same_withDeadLeaves {l : List Pid} : Same s (s.withDeadLeaves l) := fun hs ht =>
  ⟨hs.ok.frame rfl rfl rfl rfl rfl fun _ _ _ _ _ => rfl, { ht with }, rfl⟩

theorem same_reaped {r : Report} : Same s (s.withLog (s.log ++ [.reaped r])) := fun hs ht =>
  ⟨ok_emit hs.ok rfl, { ht with }, balance_emit.trans (add_zero _)⟩

-- A process goes from one state to another in which it does not wait for an object either.
theorem same_setState {state : PState} (hv : s.procs.get p = some v) (hi : v.state.idle) (hs : state.idle)
    (ha : state.active = v.state.active) : Same s (s.withProcs (s.procs.set p { v with state := state })) :=
  same_setProc hv ⟨.inr ⟨hi, hs, ha⟩, rfl, rfl, rfl, rfl, rfl⟩

theorem procSetstate_tombstone_same : Respects Same (procSetstate p .tombstone) := by
  intro s
  rw [wlp_procSetstate_tombstone]
  intro v hv hs
  obtain hs | hs := hs <;> exact same_setState hv (by rw [hs]; rfl) rfl (by rw [hs]; rfl)

theorem procSetstate_deadleaf_same : Respects Same (procSetstate p .deadleaf) := by
  intro s
  rw [wlp_procSetstate_deadleaf]
  exact fun v hv hs => same_setState hv (by rw [hs]; rfl) rfl (by rw [hs]; rfl)

theorem procSetstate_toreap_same : Respects Same (procSetstate p .toreap) := fun s =>
  wlp_procSetstate_toreap fun v hv hs _ => same_setState hv (by rw [hs]; rfl) rfl (by rw [hs]; rfl)

theorem procTryreapBury_same : Respects Same (procTryreapBury dead) :=
  .bind procSetstate_tombstone_same fun _ => updProc_same fun _ => ⟨.inl rfl, rfl, rfl, rfl, rfl, rfl⟩

theorem procTryreapParent_same : Respects Same (procTryreapParent dead parent) := by
  intro s
  simp only [procTryreapParent, wlp_bind, wlp_getProc, wlp_ite, wlp_pure]
  refine fun w hw => ⟨fun _ => refl_of Same s, fun hs => ?_⟩
  have hstate : w.state = .waits4childdeath := not_not.mp hs
  refine wlp_of_readonly procNsId_readonly fun pid => ⟨fun _ => refl_of Same s, fun _ => ?_⟩
  simp only [wlp_regsSavereturn, wlp_emit, wlp_procSetstate_running, State.withLog_procs, State.withProcs_procs]
  intro w' hw' v _ x hx _
  obtain rfl := Option.some_inj.mp (hw.symm.trans hw')
  rw [Heap.get_set_self hw, Option.some_inj] at hx
  subst hx
  have hrax : Same s (s.withProcs (s.procs.set parent { w with rax := pid })) :=
    same_setProc hw ⟨.inl rfl, rfl, rfl, rfl, rfl, rfl⟩
  have hreport := same_reaped (s := s.withProcs (s.procs.set parent { w with rax := pid }))
    (r := { parent := parent, child := dead, id := pid, stored := tryreapStored w v })
  refine trans_of Same (trans_of Same hrax hreport) ?_
  exact same_setState (v := { w with rax := pid }) (Heap.get_set_self hw) (by rw [hstate]; rfl) rfl (by rw [hstate]; rfl)

theorem procTryreapTombstone_same : Respects Same (procTryreapTombstone dead) := by
  have hleaf (v : Proc) : Respects Same (procTryreapLeaf dead v) :=
    .bind kassert_respects fun _ => .ite (.bind procSetstate_deadleaf_same fun _ =>
      respects_modify fun _ => same_withDeadLeaves) kassert_respects
  refine .bind getProc_respects fun v => ?_
  split
  · exact .bind kassert_respects fun _ => respects_same procTryreapCheck_readonly
  · exact respects_pure
  · exact hleaf v

theorem procTryreap_same : Respects Same (procTryreap dead) := by
  have hstart (v : Proc) : Respects Same (procTryreapStart v) := by
    refine .bind kassert_respects fun _ => ?_
    cases v.parent
    case none   => exact respects_pure
    case some q => exact .bind getProc_respects fun _ => kassert_respects
  have hreapable (v : Proc) : Respects Same (procReapable v) := by
    rw [procReapable]
    cases v.parent
    case none   => exact respects_pure
    case some q => exact .bind getProc_respects fun _ => respects_pure
  have htoreap : Respects Same (procTryreapToreap dead) := by
    refine .bind getProc_respects fun v => .bind (hreapable v) fun o => ?_
    cases o
    case none        => exact .bind procTryreapBury_same fun _ => respects_pure
    case some parent =>
      exact .bind procTryreapParent_same fun _ => .ite (.bind procTryreapBury_same fun _ => respects_pure) respects_pure
  refine .bind getProc_respects fun v => .bind (hstart v) fun _ => .ite ?_ procTryreapTombstone_same
  exact .bind htoreap fun _ => .ite procTryreapTombstone_same respects_pure

-- Nothing depends on a process which is freed.
theorem same_freeProc (hv : s.procs.get p = some v) (hd : v.state = .freed) :
    Same s (s.withProcs (s.procs.free p)) := fun hs ht => by
  have ⟨hmount, hcontrolled⟩ := ht.buried p v hv (by rw [hd]; rfl)
  have hidle : v.state.idle := by rw [hd]; rfl
  have hweight : v.weight p = 0 := by
    rw [Proc.weight, Proc.waits_idle hidle, hd, hmount, hcontrolled]
    simp [PState.active]
  refine ⟨hs.ok.frame rfl rfl rfl rfl rfl fun h x q hx hq => ?_,
    { ht with buried := Heap.forall_free fun q w _ => ht.buried q w }, ?_⟩
  · have hne : q ≠ p := by
      rintro rfl
      obtain ⟨-, w, hw, hwaits, -⟩ := hs.waits.queued hx hq
      obtain rfl := Option.some_inj.mp (hv.symm.trans hw)
      rw [hd] at hwaits
      contradiction
    rw [State.since, State.withProcs_procs, Heap.get_free_ne hne, State.since]
  · rw [balance_freeProc hv, hweight, sub_zero]

theorem procUnlinkLoop_same {next : Option Pid} {fuel : ℕ} {prev : Pid} :
    Respects Same (procUnlinkLoop p next fuel prev) := by
  have hset {prev : Pid} : Respects Same (updProc prev ({ · with sibling := next })) :=
    updProc_same fun _ => ⟨.inl rfl, rfl, rfl, rfl, rfl, rfl⟩
  induction fuel generalizing prev
  case zero => exact respects_throw
  case succ fuel hi =>
    refine .bind getProc_respects fun v => ?_
    cases v.sibling
    case none   => exact respects_throw
    case some _ => exact .ite hset hi

theorem procPruneLeaf_same {leaves : List Pid} : Respects Same (procPruneLeaf p leaves) := by
  have hunlink {next : Option Pid} {parent first : Pid} : Respects Same (procUnlink p next parent first) :=
    .ite (updProc_same fun _ => ⟨.inl rfl, rfl, rfl, rfl, rfl, rfl⟩)
      (.bind respects_get fun _ => procUnlinkLoop_same)
  have hfree {x : K Unit} (hx : Respects Same x) : Respects Same (do procSetstate p .freed; freeProc p; x) := by
    intro s
    simp only [wlp_bind, wlp_procSetstate_freed, wlp_freeProc]
    intro v hv hd w hw
    obtain rfl := Option.some_inj.mp ((Heap.get_set_self hv).symm.trans hw)
    have hset : Same s (s.withProcs (s.procs.set p { v with state := .freed })) :=
      same_setState hv (by rw [hd]; rfl) rfl (by rw [hd]; rfl)
    exact wlp_of_respects (trans_of Same hset (same_freeProc hw rfl)) hx
  refine .bind getProc_respects fun v => .bind (respects_modify fun _ => same_withDeadLeaves) fun _ =>
    .bind kassert_respects fun _ => ?_
  cases v.parent
  case none        => exact respects_throw
  case some parent =>
    refine .bind getProc_respects fun w => ?_
    cases w.child
    case none       => exact respects_throw
    case some first =>
      refine .bind kassert_respects fun _ => .bind hunlink fun _ => hfree ?_
      exact .bind getProc_respects fun _ => .ite procTryreap_same respects_pure

theorem procPruneLeaves_same : Respects Same procPruneLeaves := by
  have hloop {fuel : ℕ} : Respects Same (procPruneLeavesLoop fuel) := by
    induction fuel
    case zero => exact .bind respects_get fun s => .ite respects_throw respects_pure
    case succ fuel hi =>
      refine .bind respects_get fun s => ?_
      cases s.deadLeaves
      case nil  => exact respects_pure
      case cons => exact .bind procPruneLeaf_same fun _ => hi
  exact .bind respects_get fun _ => hloop

theorem procKillChildren_same {fuel : ℕ} {o : Option Pid} : Respects Same (procKillChildren fuel o) := by
  induction fuel generalizing o
  case zero =>
    cases o
    case none   => exact respects_pure
    case some _ => exact respects_throw
  case succ fuel hi =>
    cases o
    case none    => exact respects_pure
    case some it => exact .bind getProc_respects fun _ => .ite (.bind procTryreap_same fun _ => hi) hi

-- The counters of shared resources and the address spaces are not part of the balance.
theorem same_withCounts {counts : Heap ℕ} : Same s (s.withCounts counts) := fun hs ht =>
  ⟨hs.ok.frame rfl rfl rfl rfl rfl fun _ _ _ _ _ => rfl, { ht with }, rfl⟩

theorem same_withPagedirs {pagedirs : Heap Unit} : Same s (s.withPagedirs pagedirs) := fun hs ht =>
  ⟨hs.ok.frame rfl rfl rfl rfl rfl fun _ _ _ _ _ => rfl, { ht with }, rfl⟩

theorem procKillPages_same : Respects Same (procKillPages p) := by
  have hunref {o : Option Cid} : Respects Same (unref o) := by
    intro s
    refine wlp_post unref_spec fun _ t ht => ?_
    obtain ⟨counts, rfl⟩ := ht.eq
    exact same_withCounts
  have hfree {d : ℕ} : Respects Same (freePagedir d) := by
    intro s
    rw [wlp_freePagedir]
    exact fun _ _ => same_withPagedirs
  have hset : Respects Same (updProc p ({ · with pages := none })) :=
    updProc_same fun _ => ⟨.inl rfl, rfl, rfl, rfl, rfl, rfl⟩
  grind [procKillPages]

theorem procKillDying_same : Respects Same (procKillDying p) := by
  refine .bind getProc_respects fun v => .ite ?_ respects_pure
  cases v.parent
  case none        => exact procSetstate_tombstone_same
  case some parent =>
    exact .bind getProc_respects fun _ => .ite procSetstate_toreap_same procSetstate_tombstone_same

theorem sysWait2Loop_same {fuel : ℕ} {o : Option Pid} : Respects Same (sysWait2Loop fuel o) := by
  induction fuel generalizing o
  case zero =>
    cases o
    case none   => exact respects_pure
    case some _ => exact respects_throw
  case succ fuel hi =>
    have hrest {it : Pid} : Respects Same (do
        let _ ← sysWait2Loop fuel (← getProc it).sibling
        pure true) :=
      .bind getProc_respects fun _ => .bind hi fun _ => respects_pure
    cases o
    case none    => exact respects_pure
    case some it =>
      exact .bind getProc_respects fun _ => .ite hi (.ite (.bind procTryreap_same fun _ => hrest) hrest)

end Life

section Namespace

variable {proc old it : Pid}

theorem setPns_same {pns : Pid} : Respects Same (updProc it ({ · with pns := pns })) :=
  updProc_same fun _ => ⟨.inl rfl, rfl, rfl, rfl, rfl, rfl⟩

theorem setNextlid_same {lid : ℕ} : Respects Same (updProc it ({ · with nextlid := lid })) :=
  updProc_same fun _ => ⟨.inl rfl, rfl, rfl, rfl, rfl, rfl⟩

theorem procNsCreateVisit_same : Respects Same (procNsCreateVisit proc old it) := by
  refine .ite (.bind ?_ fun _ => ?_) respects_pure
  · exact .bind getProc_respects fun _ => .bind getProc_respects fun _ => .ite setNextlid_same respects_pure
  · exact .bind getProc_respects fun _ => .ite setPns_same kassert_respects

theorem procNsCreateClimb_readonly {fuel : ℕ} : Respects Eq (procNsCreateClimb proc fuel it) := by
  induction fuel generalizing it
  case zero => exact respects_throw
  case succ fuel hi =>
    refine .bind getProc_respects fun v => ?_
    split
    · exact respects_pure
    · exact respects_throw
    · exact .ite (.bind getProc_respects fun _ => respects_pure) hi

theorem procNsCreateNext_readonly : Respects Eq (procNsCreateNext proc old it) := by
  have hdescends {o : Option Pid} : Respects Eq (procNsCreateDescends proc old o) := by
    cases o
    case none   => exact respects_pure
    case some _ => exact .bind procNsContains_readonly fun _ => .ite respects_pure procNsContains_readonly
  exact .bind getProc_respects fun _ => .bind hdescends fun _ => .ite respects_pure <|
    .ite respects_pure (.bind respects_get fun _ => procNsCreateClimb_readonly)

theorem procNsCreate_same : Respects Same (procNsCreate proc) := by
  have hloop {old : Pid} {fuel : ℕ} {o : Option Pid} : Respects Same (procNsCreateLoop proc old fuel o) := by
    induction fuel generalizing o
    case zero =>
      cases o
      case none   => exact respects_pure
      case some _ => exact respects_throw
    case succ fuel hi =>
      cases o
      case none   => exact respects_pure
      case some _ =>
        exact .bind procNsCreateVisit_same fun _ => .bind (respects_same procNsCreateNext_readonly) fun _ => hi
  refine .bind getProc_respects fun v => .ite ?_ respects_pure
  exact .bind (.bind setPns_same fun _ => setNextlid_same) fun _ => .bind respects_get fun _ => hloop

end Namespace
end Camellia
