import Camellia.Kernel.Namespace
import Camellia.Kernel.Tree

open Forest

namespace Camellia

-- All processes are descendants of the first one.
def Family (s : State) : Prop :=
  ∃ c, ProcTree s 0 c

section Links

variable {s t : State} {D : Pid → Prop} {root p c : Pid} {f : Forest Pid} {v : Proc} {flags : Flags}

theorem ProcTree.of_links (h : ProcTree s root f) (hl : procLinks t = procLinks s) :
    ProcTree t root f where
  linked   := hl ▸ h.linked
  nodup    := h.nodup
  complete := fun p v hv => by
    have ⟨w, hw, _⟩ := get_of_procLinks (hl ▸ procLinks_of_get hv)
    exact h.complete p w hw

theorem Family.of_links (h : Family s) (hl : procLinks t = procLinks s) : Family t :=
  have ⟨c, h⟩ := h
  ⟨c, h.of_links hl⟩

theorem Renamed.links (h : Renamed s t) : procLinks t = procLinks s := by
  funext p
  cases hv : s.procs.get p
  case none   =>
    cases hw : t.procs.get p
    case none   => simp [procLinks, hv, hw]
    case some w =>
      obtain ⟨v, hv', _⟩ := h.of_get' hw
      rw [hv] at hv'
      contradiction
  case some v =>
    obtain ⟨w, hw, hk⟩ := h.of_get hv
    simp [procLinks, hv, hw, hk.parent, hk.sibling, hk.child]

theorem Touches.links (h : Touches D s t) : procLinks t = procLinks s :=
  Renamed.links ⟨h.procs.size, fun p => by
    have := h.procs.get p
    generalize s.procs.get p = a, t.procs.get p = b at this
    cases this
    case none    => exact .none
    case some hk => exact .some ⟨hk.parent, hk.sibling, hk.child⟩⟩

theorem Family.linked {x : K α} (h : Family s) (hx : Respects Linked x) :
    wlp x (fun _ t => Family t) s :=
  wlp_post (hx s) fun _ _ ht => h.of_links ht.links

-- A process which is born becomes the first child of its parent.
theorem Born.links (h : Born s p flags c t) : procLinks t = attach (procLinks s) p c := by
  obtain ⟨v, w, hv, _, hw, hc, hparent, hsibling⟩ := h.child
  have hpc : p ≠ c := (h.fresh ▸ Heap.lt_size hv).ne
  funext q
  by_cases hq : q = c
  case pos =>
    subst hq
    simp [attach, procLinks, hv, hw, hparent, hsibling, hc.child]
  case neg =>
    cases hx : s.procs.get q
    case none =>
      have hqp : q ≠ p := fun he => by simp [he, hv] at hx
      simp [attach, procLinks, hq, hqp, hx, h.old q hq hx]
    case some x =>
      obtain ⟨y, z, hy, hz, heq⟩ := h.procs q x hx
      have hlinks : y.parent = x.parent ∧ y.sibling = x.sibling := by rw [heq, hz.eq]; exact ⟨rfl, rfl⟩
      have hchild : y.child = if q = p then some c else x.child := by rw [heq]
      by_cases hqp : q = p
      case pos =>
        subst hqp
        simp [attach, procLinks, hq, hx, hy, hlinks, hchild]
      case neg => simp [attach, procLinks, hq, hqp, hx, hy, hlinks, hchild]

theorem Family.born (h : Family s) (hb : Born s p flags c t) : Family t := by
  obtain ⟨f, hl, hn, hall⟩ := h
  have hc : c ∉ (node 0 f nil).nodes := fun hc => by
    have ⟨_, hv⟩ := hl.get hc
    have ⟨_, hv, _⟩ := get_of_procLinks hv
    rw [hb.fresh, Heap.get_size] at hv
    contradiction
  obtain ⟨v, _, hv, _⟩ := hb.child
  have hp := hall p v hv
  obtain ⟨g, hg⟩ : ∃ g, (node 0 f nil).insert p c = node 0 g nil := by
    by_cases h0 : (0 : Pid) = p <;> simp [Forest.insert, h0]
  have hperm := nodes_insert (b := c) hn hp
  rw [hg] at hperm
  refine ⟨g, ?_, hperm.nodup_iff.mpr (List.nodup_cons.mpr ⟨hc, hn⟩), fun q w hw => ?_⟩
  · rw [hb.links, ← hg]
    exact hl.insert hn hc
  · rw [hperm.mem_iff, List.mem_cons]
    refine or_iff_not_imp_left.mpr fun hq => ?_
    cases hx : s.procs.get q
    case none =>
      rw [hb.old q hq hx] at hw
      contradiction
    case some x => exact hall q x hx

end Links

section Prune

variable {s t : State} {p parent first : Pid} {v w : Proc}

-- The pointer to a process was replaced by the one to its next sibling.
def Unlinked (s : State) (p : Pid) (next : Option Pid) (t : State) : Prop :=
  ∃ q x, s.procs.get q = some x ∧
    (x.child = some p ∧ t = s.withProcs (s.procs.set q { x with child := next }) ∨
      x.sibling = some p ∧ t = s.withProcs (s.procs.set q { x with sibling := next }))

theorem procUnlinkLoop_spec {next : Option Pid} {fuel : ℕ} {prev : Pid} :
    wlp (procUnlinkLoop p next fuel prev) (fun _ t => Unlinked s p next t) s := by
  induction fuel generalizing prev
  case zero => exact wlp_throw.mpr trivial
  case succ fuel hi =>
    simp only [procUnlinkLoop, wlp_bind, wlp_getProc]
    intro w hw
    cases hs : w.sibling
    case none   => exact wlp_throw.mpr trivial
    case some x =>
      simp only [wlp_ite, wlp_updProc]
      refine ⟨fun hx w' hw' => ?_, fun _ => hi⟩
      obtain rfl := Option.some_inj.mp (hw.symm.trans hw')
      exact ⟨prev, w, hw, .inr ⟨hx ▸ hs, rfl⟩⟩

theorem procUnlink_spec {next : Option Pid} (hw : s.procs.get parent = some w)
    (hf : w.child = some first) :
    wlp (procUnlink p next parent first) (fun _ t => Unlinked s p next t) s := by
  simp only [procUnlink, wlp_ite, wlp_updProc, wlp_bind, wlp_get]
  refine ⟨fun hp w' hw' => ?_, fun _ => procUnlinkLoop_spec⟩
  obtain rfl := Option.some_inj.mp (hw.symm.trans hw')
  exact ⟨parent, w, hw, .inl ⟨hp ▸ hf, rfl⟩⟩

-- There is only one pointer to a process, so nothing else has to be replaced.
theorem ProcTree.unlinked {root : Pid} {f : Forest Pid} (h : ProcTree s root f)
    (hu : Unlinked s p v.sibling t) :
    procLinks (t.withProcs (t.procs.free p)) = detach (procLinks s) p v.sibling := by
  obtain ⟨q, x, hx, hset⟩ := hu
  have hlx := procLinks_of_get hx
  have hq := h.complete q x hx
  have hpoints : Points (procLinks s) q p := ⟨_, hlx, hset.imp And.left And.left⟩
  funext r
  by_cases hr : r = p
  case pos => simp [procLinks, detach, hr]
  case neg =>
    have hfree : procLinks (t.withProcs (t.procs.free p)) r = procLinks t r := by
      simp [procLinks, Heap.get_free_ne hr]
    rw [hfree, detach, if_neg hr]
    by_cases hrq : r = q
    case pos =>
      subst hrq
      rw [hlx]
      obtain ⟨hc, rfl⟩ | ⟨hs, rfl⟩ := hset
      · have hs := h.linked.child_ne_sibling h.nodup hq hlx hc
        simp only at hs
        simp [procLinks, Heap.get_set_self hx, hc, hs]
      · have hc : x.child ≠ some p := fun hc => h.linked.child_ne_sibling h.nodup hq hlx hc hs
        simp [procLinks, Heap.get_set_self hx, hc, hs]
    case neg =>
      have hget : t.procs.get r = s.procs.get r := by
        obtain ⟨_, rfl⟩ | ⟨_, rfl⟩ := hset <;> exact Heap.get_set_ne hrq
      cases hy : s.procs.get r
      case none   => simp [procLinks, hget, hy]
      case some y =>
        have hly := procLinks_of_get hy
        have hne : ¬(y.child = some p ∨ y.sibling = some p) := fun hp =>
          hrq (h.linked.points_inj h.nodup (h.complete r y hy) hq ⟨_, hly, hp⟩ hpoints)
        rw [not_or] at hne
        rw [hly, procLinks, hget, hy]
        simp [hne]

-- A childless process other than the first one leaves the tree.
theorem Family.unlinked (h : Family s) (hv : s.procs.get p = some v) (hc : v.child = none)
    (hp : v.parent ≠ none) (hu : Unlinked s p v.sibling t) :
    Family (t.withProcs (t.procs.free p)) := by
  obtain ⟨f, h⟩ := h
  have hlv := procLinks_of_get hv
  have hlinks := h.unlinked hu
  have h0 : (0 : Pid) ≠ p := fun he => by
    have := h.linked.1.symm.trans (he ▸ hlv)
    simp only [Option.some.injEq, Links.mk.injEq] at this
    exact hp this.2.2.symm
  have herase : (node 0 f nil).erase p = node 0 (f.erase p) nil := by simp [erase, h0]
  have hnodes := nodes_erase h.linked h.nodup hlv hc
  rw [herase] at hnodes
  refine ⟨f.erase p, ?_, hnodes ▸ h.nodup.filter _, fun q w hw => ?_⟩
  · rw [hlinks, ← herase]
    exact h.linked.erase h.nodup hlv
  · have hq := procLinks_of_get hw
    rw [hlinks, detach] at hq
    split at hq
    · contradiction
    · rename_i hqp
      obtain ⟨l, hl, _⟩ := Option.map_eq_some_iff.mp hq
      obtain ⟨x, hx, _⟩ := get_of_procLinks hl
      rw [hnodes, List.mem_filter]
      exact ⟨h.complete q x hx, by simpa using hqp⟩

theorem procPruneLeaf_family {leaves : List Pid} (h : Family s) :
    wlp (procPruneLeaf p leaves) (fun _ t => Family t) s := by
  have hrest {parent : Pid} : Respects Linked (do
      if ¬(← getProc parent).state.alive then
        procTryreap parent) :=
    .bind (respects_of_reads getProc_respects) fun _ => .ite procTryreap_linked respects_pure
  simp only [procPruneLeaf, wlp_bind, wlp_getProc, wlp_modify, wlp_kassert] at hrest ⊢
  intro v hv _
  cases hp : v.parent
  case none        => exact wlp_throw.mpr trivial
  case some parent =>
    simp only [wlp_bind, wlp_getProc]
    intro w hw
    cases hf : w.child
    case none       => exact wlp_throw.mpr trivial
    case some first =>
      simp only [wlp_bind, wlp_kassert]
      intro hc
      refine wlp_post (procUnlink_spec (s := { s with deadLeaves := leaves }) hw hf) fun _ t ht => ?_
      refine wlp_post (procSetstate_touches (D := fun _ => True) trivial t) fun _ u hu => ?_
      simp only [wlp_freeProc]
      intro _ _
      rw [← wlp_bind]
      have hfam : Family (u.withProcs (u.procs.free p)) := by
        have hfree := Family.unlinked (h.of_links (t := { s with deadLeaves := leaves }) rfl) hv hc (by simp [hp]) ht
        refine hfree.of_links ?_
        funext q
        have := congrFun hu.links q
        by_cases hq : q = p <;> simp_all [procLinks, Heap.get_free]
      exact hfam.linked hrest

theorem procPruneLeaves_family (h : Family s) : wlp procPruneLeaves (fun _ t => Family t) s := by
  have hloop {fuel : ℕ} {s : State} (h : Family s) :
      wlp (procPruneLeavesLoop fuel) (fun _ t => Family t) s := by
    induction fuel generalizing s
    case zero =>
      simp only [procPruneLeavesLoop, wlp_bind, wlp_get, wlp_ite, wlp_throw, wlp_pure]
      exact ⟨fun _ => trivial, fun _ => h⟩
    case succ fuel hi =>
      simp only [procPruneLeavesLoop, wlp_bind, wlp_get]
      cases s.deadLeaves
      case nil  => exact wlp_pure.mpr h
      case cons =>
        rw [wlp_bind]
        exact wlp_post (procPruneLeaf_family h) fun _ _ => hi
  simp only [procPruneLeaves, wlp_bind, wlp_get]
  exact hloop h

end Prune

section Step

variable {s t : State} {env : Env} {e : Entry} {p old it : Pid} {flags : Flags}
variable {paths : List (List UInt8)}

-- The creation of a namespace leaves the tree as it is.
theorem procNsCreate_renamed : Respects Renamed (procNsCreate p) := by
  have hloop {old : Pid} {fuel : ℕ} {o : Option Pid} : Respects Renamed (procNsCreateLoop p old fuel o) := by
    induction fuel generalizing o
    case zero =>
      cases o
      case none   => exact respects_pure
      case some _ => exact respects_throw
    case succ fuel hi =>
      cases o
      case none    => exact respects_pure
      case some it =>
        exact .bind procNsCreateVisit_renamed fun _ =>
          .bind (respects_of_reads procNsCreateNext_reads) fun _ => hi
  refine .bind (respects_of_reads getProc_respects) fun v => .ite ?_ respects_pure
  refine .bind (.bind ?_ fun _ => ?_) fun _ => .bind respects_get fun _ => hloop
  all_goals exact updProc_renamed fun _ => ⟨rfl, rfl, rfl⟩

theorem Family.renamed {x : K α} (h : Family s) (hx : Respects Renamed x) :
    wlp x (fun _ t => Family t) s :=
  wlp_post (hx s) fun _ _ ht => h.of_links ht.links

theorem sysGetprocfs_family (h : Family s) :
    wlp (sysGetprocfs p flags) (fun _ t => Family t) s := by
  rw [sysGetprocfs, wlp_ite]
  refine ⟨fun _ => h.linked (respects_linked sysReturn_calm), fun _ => ?_⟩
  rw [wlp_bind]
  refine wlp_post (h.renamed procNsCreate_renamed) fun _ t ht => ht.linked (respects_linked ?_)
  refine .bind procHandleInit_calm fun x => ?_
  cases x
  case none   => exact sysReturn_calm
  case some x =>
    exact .bind procfsBackend_calm fun _ => .bind updHandle_calm fun _ => sysReturn_calm

theorem sysFork_family (hs : SharesOk s) (h : Family s) :
    wlp (sysFork env p flags) (fun _ t => Family t) s := by
  refine wlp_sysFork hs (fun c t u _ hb hc => (h.born hb).of_links hc.linked.links)
    fun c t u v _ hb hc hv => ?_
  have hset : Linked u (u.withProcs (u.procs.set c { v with noreap := true })) :=
    touches_set trivial hv ⟨rfl, rfl, rfl, rfl, rfl, rfl, rfl⟩
  have hfam := ((h.born hb).of_links hc.linked.links).of_links hset.links
  exact wlp_post (hfam.linked procKill_linked) fun _ x hx y hy => hx.of_links hy.linked.links

theorem Step.family (hstep : Step s e t) (hs : SharesOk s) (h : Family s) : Family t := by
  refine hstep.of_wlp fun env => ?_
  have hl {x : K Unit} (hx : Respects Linked x) : wlp x (fun _ t => Family t) s := h.linked hx
  cases e
  case kill p ret     => exact hl procKill_linked
  case intr p         => exact hl (respects_linked procTryintr_calm)
  case prune          => exact procPruneLeaves_family h
  case timer counter  => exact hl hpetIrq_linked
  case finish r ret   => exact hl (respects_linked enterFinish_calm)
  case syscall p call =>
    cases call
    case exit ret        => exact hl procKill_linked
    case fork flags      => exact sysFork_family hs h
    case wait2 pid flags => exact hl sysWait2_linked
    case getprocfs flags => exact sysGetprocfs_family h
    case sleep goal      => exact hl timerSchedule_linked
    all_goals exact hl (respects_linked (enterSyscall_calm rfl))

theorem family_bootState : Family (bootState paths) := by
  have hget (p : Pid) : (bootState paths).procs.get p = if p = 0 then some (procInit _) else none :=
    Heap.get_alloc
  refine ⟨nil, ⟨by simp [procLinks, hget, procInit, head], trivial, trivial⟩, by simp [nodes], ?_⟩
  intro p v hv
  have hp : p = 0 := by
    by_contra hp
    simp [hget, hp] at hv
  simp [nodes, hp]

end Step
end Camellia
