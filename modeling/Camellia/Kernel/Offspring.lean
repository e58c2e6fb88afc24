import Camellia.Kernel.Estate
import Camellia.Kernel.LastUser

namespace Camellia

-- What a process shares with its child when it forks.

section Counters

variable {s : State} {d : Balance} {p : Pid} {flags : Flags} {v : Proc} {b : Bid} {m : Mid}

theorem same_withNextPid {n : ℕ} : Same s (s.withNextPid n) := fun hs ht =>
  ⟨hs.ok.frame rfl rfl rfl rfl rfl fun _ _ _ _ _ => rfl, { ht with }, rfl⟩

theorem procForkCount_same {o : Option Cid} : Respects Same (procForkCount o) := by
  intro s
  refine wlp_post procForkCount_spec fun _ t ht => ?_
  obtain ⟨_, ht⟩ := ht
  obtain ⟨counts, rfl⟩ := ht.eq
  exact same_withCounts

theorem procForkPages_same : Respects Same (procForkPages p flags) := by
  have halloc : Respects Same allocPagedir := by
    intro s
    rw [wlp_allocPagedir]
    exact same_withPagedirs
  have hset {c : Option Cid} : Respects Same (updProc p ({ · with pagesRefcount := c })) :=
    updProc_same fun _ => ⟨.inl rfl, rfl, rfl, rfl, rfl, rfl⟩
  refine .bind getProc_respects fun v => .ite ?_ (.bind halloc fun _ => respects_pure)
  exact .bind procForkCount_same fun _ => .bind hset fun _ => respects_pure

theorem procForkGlobalid_same : Respects Same procForkGlobalid :=
  .bind respects_get fun _ => .ite respects_throw <|
    .bind (respects_modify fun _ => same_withNextPid) fun _ => respects_pure

theorem procForkLocalid_same {pns : Pid} : Respects Same (procForkLocalid pns) :=
  .bind getProc_respects fun _ => .ite respects_throw <|
    .bind (updProc_same fun _ => ⟨.inl rfl, rfl, rfl, rfl, rfl, rfl⟩) fun _ => respects_pure

-- One more process provides a filesystem.
theorem procForkControlled_holding {o : Option Bid} (hs : Holding s d)
    (ho : ∀ b, o = some b → ∃ x, s.backends.get b = some x ∧ x.isUser) :
    wlp (procForkControlled o flags) (fun o t => Holding t (d + optRef .prov o) ∧ (flags.has FORK_NEWFS → o = none)) s := by
  simp only [procForkControlled, wlp_ite, wlp_pure]
  refine ⟨fun _ => ⟨hs.congr (add_zero d).symm, fun _ => trivial⟩, fun hn => ?_⟩
  cases o
  case none   => exact wlp_pure.mpr ⟨hs.congr (add_zero d).symm, fun _ => rfl⟩
  case some b =>
    obtain ⟨x, hx, hu⟩ := ho b rfl
    simp only [wlp_bind, wlp_getBackend, wlp_kassert, wlp_setBackend, wlp_pure]
    intro x' hx' h0
    obtain rfl := Option.some_inj.mp (hx.symm.trans hx')
    refine ⟨?_, fun h => absurd h hn⟩
    obtain ⟨k, hk⟩ := hs.balance
    have htidy := hs.tidy.setBackend (y := { x with provhcnt := x.provhcnt + 1 }) hx
      (fun h => absurd h.2 (Nat.succ_ne_zero _)) fun h => absurd h.1 (Nat.succ_ne_zero _)
    refine ⟨?_, htidy, k, ?_⟩
    · exact ok_setBackend hs.ok hx (fun _ => ⟨h0, rfl⟩) (List.Subset.refl _) (hs.ok.reqs.excl b x hx)
        (hs.ok.reqs.idle b x hx)
    · have hset := balance_setBackend (w := { x with provhcnt := x.provhcnt + 1 }) hx
      have huser : ({ x with provhcnt := x.provhcnt + 1 } : VfsBackend).isUser := hu
      rw [hset, hk, VfsBackend.weight, VfsBackend.weight, if_pos huser, if_pos hu, succ_nsmul, optRef_some]
      abel

-- One more process uses a mount.
theorem procForkMount_holding {o : Option Mid} (hs : Holding s d) :
    wlp (procForkMount o) (fun o t => Holding t (d + optRef .mount o)) s := by
  cases o
  case none   => exact wlp_throw.mpr trivial
  case some m =>
    simp only [procForkMount, wlp_bind, wlp_getMount, wlp_setMount, wlp_pure]
    intro v hv
    obtain ⟨k, hk⟩ := hs.balance
    have hshown := Heap.forall_set (a := { v with refs := v.refs + 1 }) hv (Nat.succ_ne_zero _) fun m w _ =>
      hs.tidy.shown m w
    refine ⟨ok_withMounts hs.ok, { hs.tidy with shown := hshown }, k, ?_⟩
    have hset := balance_setMount (w := { v with refs := v.refs + 1 }) hv
    rw [hset, hk, VfsMount.weight, VfsMount.weight, succ_nsmul, optRef_some]
    abel

end Counters

section Table

variable {s : State} {d : Balance} {p : Pid} {table : Table} {flags : Flags}

theorem handleRef_tables {o : Option Hid} : wlp (handleRef o) (fun _ t => t.tables = s.tables) s := by
  cases o
  case none   => exact wlp_pure.mpr rfl
  case some h =>
    rw [handleRef, wlp_updHandle]
    exact fun _ _ => rfl

-- Every slot which was copied has a reference to its handle, and the others are free.
theorem procForkTable_holding (hs : Holding s d) : wlp (procForkTable table) (fun _ t => Holding t d) s := by
  simp only [procForkTable, wlp_bind, wlp_allocTable]
  let copied (l : List (Fin HANDLE_MAX)) (t : State) : Prop := l.Nodup ∧ Holding t d ∧
    ∃ x, t.tables.get s.tables.size = some x ∧ ∀ i ∈ l, x i = none
  refine wlp_post (wlp_forM copied ?_ ?_) fun _ _ ht => wlp_pure.mpr ht.2.1
  · rintro i l t ⟨hnodup, ht, x, hx, hfree⟩
    obtain ⟨hi, hnodup⟩ := List.nodup_cons.mp hnodup
    rw [wlp_bind, wlp_setSlot]
    intro x' hx'
    obtain rfl := Option.some_inj.mp (hx.symm.trans hx')
    have hset := (ht.withTables (T := t.tables.set s.tables.size (Function.update x i (table i)))).congr
      (e := d - optRef .handle (table i)) (by
        rw [Heap.total_set hx, Table.weight_update, hfree i (List.mem_cons_self ..), optRef_none]
        abel)
    have hrest : wlp (handleRef (table i)) (fun _ u => copied l u)
        (t.withTables (t.tables.set s.tables.size (Function.update x i (table i)))) := by
      refine wlp_post (wlp_and hset.handleRef handleRef_tables) fun _ u hx => ?_
      obtain ⟨hu, htables⟩ := hx
      have hget : u.tables.get s.tables.size = some (Function.update x i (table i)) := by
        rw [htables]
        exact Heap.get_set_self hx
      refine ⟨hnodup, hu.congr (sub_add_cancel ..), _, hget, fun j hj => ?_⟩
      have hne : j ≠ i := fun h => hi (h ▸ hj)
      exact (Function.update_of_ne hne _ _).trans (hfree j (List.mem_cons_of_mem i hj))
    cases hslot : table i <;> simpa [hslot, handleRef] using hrest
  · refine ⟨List.nodup_finRange _, hs.withTables.congr ?_, _, Heap.get_alloc_self, fun _ _ => rfl⟩
    rw [Heap.total_alloc]
    simp [Table.weight]

theorem procForkHandles_holding (hs : Holding s d) (hd : Firm d) :
    wlp (procForkHandles p flags) (fun _ t => Holding t d) s := by
  have hset {c : Option Cid} : Respects Same (updProc p ({ · with handlesRefcount := c })) :=
    updProc_same fun _ => ⟨.inl rfl, rfl, rfl, rfl, rfl, rfl⟩
  simp only [procForkHandles, wlp_bind, wlp_getProc, wlp_ite]
  refine fun v hv => ⟨fun _ => ?_, fun _ => ?_⟩
  · refine wlp_post (hs.respects hd procForkCount_same) fun _ t ht => ?_
    exact wlp_post (ht.respects hd hset) fun _ _ hu => wlp_pure.mpr hu
  · refine wlp_of_readonly procTable_readonly fun T => ?_
    rw [wlp_getTable]
    exact fun table _ => wlp_post (procForkTable_holding hs) fun _ _ ht => wlp_pure.mpr ht

end Table

section Fork

variable {s : State} {d : Balance} {p c : Pid} {v w : Proc} {flags : Flags} {env : Env}

-- A new process has what it was given.
theorem Holding.allocProc (hs : Holding s d) (ha : w.state.active) (hsince : w.waitsSince = 0) :
    Holding (s.withProcs (s.procs.alloc w)) (d + w.weight s.procs.size) := by
  obtain ⟨k, hk⟩ := hs.balance
  refine ⟨hs.ok.frame rfl rfl rfl rfl rfl fun _ _ p _ _ => ?_,
    { hs.tidy with buried := ?_ }, k, ?_⟩
  · simp only [State.since, State.withProcs_procs, Heap.get_alloc]
    by_cases hp : p = s.procs.size
    case pos => simp [hp, hsince, Heap.get_size]
    case neg => simp [hp]
  · refine Heap.forall_alloc (fun hn => ?_) fun q x _ => hs.tidy.buried q x
    rw [ha] at hn
    contradiction
  · rw [balance_allocProc, hk]
    abel

theorem procForkLink_holding (hs : Holding s (optRef .prov w.controlled + optRef .mount w.mount)) (hrun : w.state = .running)
    (hr : w.reqslot = none) (hsince : w.waitsSince = 0) :
    wlp (procForkLink p w) (fun c t => Rest t ∧ ∃ x, t.procs.get c = some x ∧ x.state = .running ∧
      x.controlled = w.controlled) s := by
  simp only [procForkLink, wlp_bind, wlp_getProc, wlp_allocProc, wlp_updProc, wlp_pure]
  intro v hv v' hv'
  obtain rfl := Option.some_inj.mp ((Heap.get_alloc_of_some hv).symm.trans hv')
  let x : Proc := { w with sibling := v.child, child := none, parent := some p }
  have hx : Rest (s.withProcs (s.procs.alloc x)) := by
    refine (hs.allocProc (w := x) (by rw [show x.state = .running from hrun]; rfl) hsince).congr ?_
    have hwaits : x.waits s.procs.size = 0 := Proc.waits_idle (by rw [show x.state = .running from hrun]; rfl)
    rw [Proc.weight, hwaits, show x.reqslot = none from hr]
    simp only [optRef_none, ite_self, x]
    abel
  have hsame : Same (s.withProcs (s.procs.alloc x))
      (s.withProcs ((s.procs.alloc x).set p { v with child := some s.procs.size })) :=
    same_setProc hv' ⟨.inl rfl, rfl, rfl, rfl, rfl, rfl⟩
  have hne : s.procs.size ≠ p := fun h => absurd (Heap.lt_size hv) (by simp [h])
  exact ⟨hx.same firm_zero hsame, x, (Heap.get_set_ne hne).trans Heap.get_alloc_self, hrun, rfl⟩

theorem procFork_rest (hs : Rest s) (hok : SharesOk s) :
    wlp (procFork p flags) (fun c t => Rest t ∧ ∃ x, t.procs.get c = some x ∧ x.state = .running ∧
      (flags.has FORK_NEWFS → x.controlled = none)) s := by
  simp only [procFork, wlp_bind, wlp_getProc, wlp_kassert]
  intro v hv hrun
  obtain ⟨hpages, _⟩ := (hok.homes p v hv id).2 (by rw [hrun]; rfl)
  obtain ⟨d, hd⟩ := Option.isSome_iff_exists.mp hpages
  have hfresh : s.sharing.uses (.inl s.procs.size) = none := by simp [State.sharing]
  refine wlp_post (wlp_and (hs.respects firm_zero procForkPages_same) (procForkPages_spec hok.valid hv hd hfresh))
    fun _ t₁ hx => ?_
  obtain ⟨h₁, hf₁, _⟩ := hx
  refine wlp_post (wlp_and (h₁.respects firm_zero procForkGlobalid_same) procForkGlobalid_frame) fun _ t₂ hx => ?_
  obtain ⟨h₂, hf₂⟩ := hx
  refine wlp_post (wlp_and (h₂.respects firm_zero procForkLocalid_same) procForkLocalid_frame) fun _ t₃ hx => ?_
  obtain ⟨h₃, hf₃⟩ := hx
  -- The parent still provides the filesystem it provided when its fields were read.
  obtain ⟨x, hx, hk⟩ := (trans_of Forks hf₁ (trans_of Forks hf₂.forks hf₃.forks)).procs.of_get hv
  have hprov (b : Bid) (hb : v.controlled = some b) : ∃ y, t₃.backends.get b = some y ∧ y.isUser := by
    have hxb : x.controlled = some b := by
      rw [hk.eq]
      exact hb
    obtain ⟨y, hy, hu, _⟩ := h₃.provided rfl hx hxb
    exact ⟨y, hy, hu⟩
  refine wlp_post (procForkControlled_holding h₃ hprov) fun controlled t₄ hx => ?_
  obtain ⟨h₄, hnone⟩ := hx
  refine wlp_post (procForkMount_holding h₄) fun mount t₅ h₅ => ?_
  have hfirm : Firm (0 + optRef .prov controlled + optRef .mount mount) := fun y hy => by
    rw [Pi.add_apply, Pi.add_apply, optRef_firm (fun _ => rfl) hy, optRef_firm (fun _ => rfl) hy]
    rfl
  refine wlp_post (procForkHandles_holding h₅ hfirm) fun handles t₆ h₆ => ?_
  refine wlp_post (procForkLink_holding (h₆.congr (by rw [zero_add])) rfl rfl rfl) fun c t hx => ?_
  obtain ⟨ht, y, hy, hst, hc⟩ := hx
  exact ⟨ht, y, hy, hst, fun hflags => hc.trans (hnone hflags)⟩

theorem procHandleInit_procs {type : HandleType} : wlp (procHandleInit p type) (fun _ t => t.procs = s.procs) s := by
  refine wlp_procHandleInit.mpr fun v T table _ _ _ => ?_
  cases procFindFreeHandle table 1 <;> rfl

-- The child provides the filesystem, and the handle of the parent uses it.
theorem sysForkNewfs_rest (hs : Rest s) (hw : s.procs.get c = some w) (hrun : w.state = .running)
    (hc : w.controlled = none) : wlp (sysForkNewfs p c) (fun _ t => Rest t) s := by
  rw [sysForkNewfs, wlp_bind]
  refine wlp_post (wlp_and (procHandleInit_holding hs) procHandleInit_procs) fun o t hx => ?_
  obtain ⟨⟨ht, _, ho⟩, hprocs⟩ := hx
  obtain _ | ⟨i, h⟩ := o
  case none => exact wlp_pure.mpr ht
  case some =>
    obtain ⟨rfl, hh⟩ := ho i h rfl
    have hget : t.handles.get s.handles.size = some { type := .fsFront } := by
      rw [hh, Heap.get_alloc_self]
    have hgetw : t.procs.get c = some w := hprocs ▸ hw
    simp only [wlp_bind, wlp_allocBackend, wlp_updHandle, wlp_updProc, wlp_pure, State.withBackends_handles]
    intro v hv w' hw'
    obtain rfl := Option.some_inj.mp (hget.symm.trans hv)
    obtain rfl := Option.some_inj.mp (hgetw.symm.trans hw')
    let x : VfsBackend := { usehcnt := 1, provhcnt := 1, access := .user none }
    have hfront := (ht.allocBackend (w := x) rfl Nat.one_ne_zero).setFront (b := t.backends.size) hget rfl
    have hset := hfront.setProc (w := { w with controlled := some t.backends.size }) hgetw rfl fun hn => by
      rw [show ({ w with controlled := some t.backends.size } : Proc).state = .running from hrun] at hn
      contradiction
    refine hset.congr ?_
    have hx : x.weight t.backends.size = one (.use t.backends.size) + one (.prov t.backends.size) := by
      simp only [VfsBackend.weight, VfsBackend.isUser, Access.handler, x, one_nsmul, List.map_nil, List.sum_nil, sub_zero,
        optRef_none, if_true]
    have hidle : w.waits c = 0 := Proc.waits_idle (by rw [hrun]; rfl)
    have hidle' : ({ w with controlled := some t.backends.size } : Proc).waits c = 0 :=
      Proc.waits_idle (by rw [show ({ w with controlled := some t.backends.size } : Proc).state = .running from hrun]; rfl)
    rw [hx, Proc.weight, Proc.weight, hidle, hidle', hc]
    simp only [optRef_none, optRef_some]
    abel

-- Nobody waits for a child which could not be given a handle.

theorem Rest.noreap (hs : Rest s) (hv : s.procs.get p = some v) :
    Rest (s.withProcs (s.procs.set p { v with noreap := true })) :=
  hs.same firm_zero (same_setProc hv ⟨.inl rfl, rfl, rfl, rfl, rfl, rfl⟩)

theorem SharesOk.noreap (hok : SharesOk s) (hv : s.procs.get p = some v) :
    SharesOk (s.withProcs (s.procs.set p { v with noreap := true })) :=
  hok.setProc hv rfl rfl (hok.homes p v hv id).1

theorem sysForkFail_rest (hs : Rest s) (hok : SharesOk s) :
    wlp (sysForkFail env p c) (fun _ t => Rest t) s := by
  simp only [sysForkFail, wlp_bind, wlp_updProc]
  exact fun _ hv => wlp_post (procKill_rest (hs.noreap hv) (hok.noreap hv)) fun _ _ ht => sysReturn_rest ht

theorem sysFork_rest (hs : Rest s) (hok : SharesOk s) : wlp (sysFork env p flags) (fun _ t => Rest t) s := by
  have hret {c : Pid} {t : State} (ht : Rest t) :
      wlp (do sysReturn p (← procNsId (← getProc p).pns c)) (fun _ t => Rest t) t := by
    rw [wlp_bind, wlp_getProc]
    intro _ _
    rw [wlp_bind]
    exact wlp_of_readonly procNsId_readonly fun _ => sysReturn_rest ht
  simp only [sysFork, wlp_bind]
  refine wlp_post (wlp_and (procFork_rest hs hok) (procFork_spec hok)) fun c t hx => ?_
  obtain ⟨⟨ht, w, hw, hrun, hnone⟩, htok, _⟩ := hx
  rw [wlp_regsSavereturn]
  intro w' hw'
  obtain rfl := Option.some_inj.mp (hw.symm.trans hw')
  have hu := ht.same firm_zero (same_setProc (w := { w with rax := 0 }) hw ⟨.inl rfl, rfl, rfl, rfl, rfl, rfl⟩)
  have hshares := htok.setProc (w := { w with rax := 0 }) hw rfl rfl (by simp [hrun])
  rw [wlp_ite]
  refine ⟨fun hflags => ?_, fun _ => ?_⟩
  · have hnew := sysForkNewfs_rest (p := p) hu (Heap.get_set_self hw) hrun (hnone hflags)
    rw [wlp_bind]
    refine wlp_post (wlp_and hnew (sysForkNewfs_calm _)) fun ok x hx => ?_
    obtain ⟨hx, hcalm⟩ := hx
    cases ok
    case true  => simpa [wlp_bind] using hret hx
    case false => exact sysForkFail_rest hx (hshares.peace hcalm.peace)
  · simpa [wlp_bind] using hret hu

end Fork
end Camellia
