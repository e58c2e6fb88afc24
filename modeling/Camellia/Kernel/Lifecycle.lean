import Camellia.Kernel.Death

namespace Camellia

-- A process changes in ways which do not concern the life cycle.
structure Proc.Aside (v w : Proc) : Prop where
  renamed    : v.Renamed w
  state      : w.state = v.state
  refcount   : w.refcount = v.refcount
  controlled : w.controlled = v.controlled
  reqslot    : w.reqslot = v.reqslot
  pns        : w.pns = v.pns

theorem Proc.Aside.refl (v : Proc) : v.Aside v :=
  ⟨⟨rfl, rfl, rfl⟩, rfl, rfl, rfl, rfl, rfl⟩

structure Aside (s t : State) : Prop where
  procs      : s.procs.Related Proc.Aside t.procs
  deadLeaves : t.deadLeaves = s.deadLeaves
  first      : t.first = s.first
  store      : Store s → Store t

instance : IsPreorder State Aside where
  refl _ := ⟨.refl Proc.Aside.refl, rfl, rfl, id⟩
  trans _ _ _ h₁ h₂ := {
    procs      := h₁.procs.trans (fun _ _ _ h₁ h₂ => {
      renamed    := ⟨h₂.renamed.parent.trans h₁.renamed.parent, h₂.renamed.sibling.trans h₁.renamed.sibling,
        h₂.renamed.child.trans h₁.renamed.child⟩
      state      := h₂.state.trans h₁.state
      refcount   := h₂.refcount.trans h₁.refcount
      controlled := h₂.controlled.trans h₁.controlled
      reqslot    := h₂.reqslot.trans h₁.reqslot
      pns        := h₂.pns.trans h₁.pns }) h₂.procs
    deadLeaves := h₂.deadLeaves.trans h₁.deadLeaves
    first      := h₂.first.trans h₁.first
    store      := h₂.store ∘ h₁.store }

section Aside

variable {s t : State} {x : Option Pid} {p : Pid} {v w : Proc}

theorem aside_of_eq (hp : t.procs = s.procs) (hl : t.deadLeaves = s.deadLeaves) (hf : t.first = s.first)
    (hs : Store s → Store t) : Aside s t :=
  ⟨hp ▸ .refl Proc.Aside.refl, hl, hf, hs⟩

theorem aside_set (hv : s.procs.get p = some v) (hk : v.Aside w) :
    Aside s (s.withProcs (s.procs.set p w)) :=
  ⟨.set Proc.Aside.refl hv hk, rfl, rfl, fun h => h.congr rfl rfl rfl⟩

theorem Aside.renamed (h : Aside s t) : Renamed s t :=
  h.procs.mono fun _ _ hk => hk.renamed

theorem Mortal.aside (h : Mortal x s) (ht : Aside s t) : Mortal x t := by
  have hpns : PnsOk t := fun p w hw => by
    have ⟨v, hv, hk⟩ := ht.procs.of_get' hw
    exact hk.pns ▸ h.tree.pns p v hv
  refine ⟨⟨ht.deadLeaves ▸ h.ordered.nodup, fun p => ?_, fun p w hw hs => ?_, fun p w hw hs => ?_,
    fun p w c z hw hd hz hc => ?_⟩, fun p w hw => ?_, ht.store h.store, h.tree.renamed ht.renamed hpns,
    h.family.of_links ht.renamed.links, ht.first.trans h.first, ?_⟩
  · rw [ht.deadLeaves, h.ordered.leaves]
    constructor
    · rintro ⟨v, hv, hs⟩
      have ⟨w, hw, hk⟩ := ht.procs.of_get hv
      exact ⟨w, hw, hk.state.trans hs⟩
    · rintro ⟨w, hw, hs⟩
      have ⟨v, hv, hk⟩ := ht.procs.of_get' hw
      exact ⟨v, hv, hk.state ▸ hs⟩
  · have ⟨v, hv, hk⟩ := ht.procs.of_get' hw
    exact hk.renamed.child.trans (h.ordered.leaf p v hv (hk.state ▸ hs))
  · have ⟨v, hv, hk⟩ := ht.procs.of_get' hw
    exact hk.renamed.child ▸ h.ordered.tombstone p v hv (hk.state ▸ hs)
  · have ⟨v, hv, hk⟩ := ht.procs.of_get' hw
    have ⟨y, hy, hk'⟩ := ht.procs.of_get' hz
    rw [hk'.state]
    exact h.ordered.toreap p v c y hv (hk.state ▸ hd) hy (hk'.renamed.parent ▸ hc)
  · have ⟨v, hv, hk⟩ := ht.procs.of_get' hw
    have hplain := h.plain p v hv
    exact hplain.congr (hk.state ▸ hplain.state) hk.refcount hk.controlled hk.reqslot hk.pns
  · obtain ⟨v, hv, ha, hn⟩ := h.init
    have ⟨w, hw, hk⟩ := ht.procs.of_get hv
    exact ⟨w, hw, hk.state ▸ ha, hk.state ▸ hn⟩

end Aside

section Release

variable {s t : State} {b : Bid} {m : Mid} {v : VfsBackend} {fuel : ℕ}

-- Only the objects which belong to no process change.
structure Discarded (s t : State) : Prop where
  procs      : t.procs = s.procs
  deadLeaves : t.deadLeaves = s.deadLeaves
  first      : t.first = s.first
  store      : Store t

theorem Discarded.aside (h : Discarded s t) : Aside s t :=
  aside_of_eq h.procs h.deadLeaves h.first fun _ => h.store

theorem Discarded.trans {u : State} (h₁ : Discarded s t) (h₂ : Discarded t u) : Discarded s u :=
  ⟨h₂.procs.trans h₁.procs, h₂.deadLeaves.trans h₁.deadLeaves, h₂.first.trans h₁.first, h₂.store⟩

theorem wp_vfsBackendRefdownUse (h : Store s) :
    wp (vfsBackendRefdownUse b) (fun _ t => Discarded s t ∧ t.mounts = s.mounts) Fault.Spared s := by
  simp only [vfsBackendRefdownUse, wp_bind, wp_getBackend]
  cases hv : s.backends.get b
  case none   => rfl
  case some v =>
    have hkern := h.backends b v hv
    have hset {w : VfsBackend} (hw : w.access = .kern none) :
        Discarded s { s with backends := s.backends.set b w } :=
      ⟨rfl, rfl, rfl, h.tables, Heap.forall_set hv hw fun i a _ ha => h.backends i a ha, h.mounts⟩
    have hfree {t : State} (ht : Discarded s t ∧ t.mounts = s.mounts) :
        wp (vfsBackendTryfree b) (fun _ t => Discarded s t ∧ t.mounts = s.mounts) Fault.Spared t := by
      simp only [vfsBackendTryfree, wp_bind, wp_getBackend]
      cases hw : t.backends.get b
      case none   => rfl
      case some w =>
        simp only [Option.elim_some, wp_ite, wp_kassert, wp_pure, freeBackend, kfree, wp_bind, wp_get, hw, wp_modify]
        refine ⟨fun _ => ⟨fun _ => ⟨⟨ht.1.procs, ht.1.deadLeaves, ht.1.first, ?_⟩, ht.2⟩, fun _ => rfl⟩, fun _ => ht⟩
        exact ⟨ht.1.store.tables, Heap.forall_free fun i a _ ha => ht.1.store.backends i a ha, ht.1.store.mounts⟩
    simp only [Option.elim_some, wp_kassert, wp_bind, setBackend, wp_modify, wp_ite, wp_pure, vfsBackendUnused,
      wp_getBackend, Heap.get_set_self hv, hkern]
    refine ⟨fun _ => ⟨fun _ => hfree ⟨hset rfl, rfl⟩, fun _ => hfree ⟨hset rfl, rfl⟩⟩, fun _ => rfl⟩

theorem wp_vfsreqRefdown {o : Option Bid} (h : Store s) :
    wp (vfsreqRefdown o) (fun _ t => Discarded s t) Fault.Spared s := by
  cases o
  case none   => exact wp_pure.mpr ⟨rfl, rfl, rfl, h⟩
  case some b => exact wp_post (wp_vfsBackendRefdownUse h) fun _ _ ht => ht.1

theorem wp_bufFree {o : Option ℕ} (h : Store s) :
    wp (bufFree o) (fun _ t => Discarded s t) Fault.Spared s := by
  cases o
  case none   => exact wp_pure.mpr ⟨rfl, rfl, rfl, h⟩
  case some n =>
    simp only [bufFree, freeBuf, kfree, wp_bind, wp_get]
    cases s.bufs.get n
    case none   => exact wp_throw.mpr rfl
    case some _ => exact wp_modify.mpr ⟨rfl, rfl, rfl, h.congr rfl rfl rfl⟩

-- A mount lies over older ones, so the walk ends.
theorem wp_vfsMountRemref (h : Store s) (hlt : m < fuel) :
    wp (vfsMountRemref fuel m) (fun _ t => Discarded s t) Fault.Spared s := by
  induction fuel generalizing s m
  case zero => exact absurd hlt (Nat.not_lt_zero _)
  case succ fuel hi =>
    simp only [vfsMountRemref, wp_bind, getMount, wp_deref]
    cases hv : s.mounts.get m
    case none   => rfl
    case some v =>
      have hset : Discarded s { s with mounts := s.mounts.set m { v with refs := v.refs - 1 } } :=
        ⟨rfl, rfl, rfl, h.tables, h.backends, fun i u n hu hn => by
          rw [Heap.get_set hv] at hu
          by_cases hi : i = m
          case pos =>
            rw [if_pos hi, Option.some_inj] at hu
            exact hi ▸ h.mounts m v n hv (by simpa [← hu] using hn)
          case neg => exact h.mounts i u n (by simpa [hi] using hu) hn⟩
      simp only [Option.elim_some, wp_kassert, wp_bind, setMount, wp_modify, wp_ite, wp_pure]
      refine ⟨fun _ => ⟨fun _ => ?_, fun _ => hset⟩, fun _ => rfl⟩
      refine wp_post (wp_vfsreqRefdown hset.store) fun _ t ht => ?_
      rw [wp_bind]
      refine wp_post (wp_bufFree ht.store) fun _ u hu => ?_
      have hu := (hset.trans ht).trans hu
      simp only [freeMount, kfree, wp_bind, wp_get]
      cases u.mounts.get m
      case none   => exact wp_throw.mpr rfl
      case some _ =>
        rw [wp_modify]
        have hfree : Discarded s { u with mounts := u.mounts.free m } :=
          ⟨hu.procs, hu.deadLeaves, hu.first, hu.store.tables, hu.store.backends, fun i x n hx hn => by
            rw [Heap.get_free] at hx
            by_cases hi : i = m
            case pos => simp [hi] at hx
            case neg => exact hu.store.mounts i x n (by simpa [hi] using hx) hn⟩
        cases hp : v.prev
        case none   => exact wp_pure.mpr hfree
        case some n =>
          refine wp_post (hi hfree.store ?_) fun _ _ ht => hfree.trans ht
          exact (h.mounts m v n hv hp).trans_le (Nat.lt_succ_iff.mp hlt)

end Release

section Kill

variable {s t : State} {env : Env} {p q c : Pid} {v w : Proc} {o : Option Pid} {fuel : ℕ} {ret : Int}
variable {E : Fault → Prop}

theorem wp_unref {o : Option Cid} :
    wp (unref o) (fun _ t => ∃ counts, t = s.withCounts counts) Fault.Spared s := by
  cases o
  case none   => exact wp_pure.mpr ⟨s.counts, rfl⟩
  case some c =>
    simp only [unref, wp_bind, getCount, wp_deref]
    cases hn : s.counts.get c
    case none   => rfl
    case some n =>
      simp only [Option.elim_some, wp_kassert, wp_bind, setCount, wp_modify, wp_ite, wp_pure, freeCount, kfree,
        wp_get, Heap.get_set_self hn]
      exact ⟨fun _ => ⟨fun _ => ⟨_, rfl⟩, fun _ => ⟨_, rfl⟩⟩, fun _ => rfl⟩

-- There is nothing in the slots.
theorem wp_procHandleClose (hs : Store s) (hv : s.procs.get p = some v) {i : Fin HANDLE_MAX} :
    wp (procHandleClose env p ((i : ℕ) : Int)) (fun _ t => t = s) Fault.Spared s := by
  have hslot : slotOf ((i : ℕ) : Int) = some i := by
    revert i
    decide
  have hdst : ¬(((i : ℕ) : Int) < 0 ∨ Flags.has 0 DUP_SEARCH) := by
    simp [Flags.has]
  have hsrc : ((i : ℕ) : Int) ≠ -1 := by omega
  have hget : procHandleGet p (-1) = pure none := rfl
  simp only [procHandleClose, procHandleDup, procHandleDupSlot, procHandleSet, procTable, if_neg hdst, hslot,
    hget, wp_discard, wp_bind, wp_pure, wp_ite, wp_getProc, hv, Option.elim_some, wp_nonNull, hsrc, ne_eq,
    not_true_eq_false, not_false_eq_true, true_implies, false_implies, and_true]
  cases v.handles
  case none   => rfl
  case some n =>
    simp only [Option.elim_some, getTable, wp_bind, wp_deref]
    cases ht : s.tables.get n
    case none       => rfl
    case some table =>
      obtain rfl := hs.tables n table ht
      simp only [Option.elim_some, handleCloseSlot, setSlot, getTable, handleRef, wp_bind, wp_pure, wp_deref, ht,
        wp_modify, Function.update_eq_self, Heap.set_get ht]

theorem wp_procKillTable (hs : Store s) (hv : s.procs.get p = some v) :
    wp (procKillTable env p) (fun _ t => Discarded s t) Fault.Spared s := by
  rw [procKillTable, wp_bind]
  refine wp_post (wp_forM (fun _ t => t = s) ?_ rfl) ?_
  · rintro i l t rfl
    exact wp_procHandleClose hs hv
  rintro _ t rfl
  simp only [procTable, wp_bind, wp_getProc, hv, Option.elim_some, wp_nonNull]
  cases v.handles
  case none   => rfl
  case some n =>
    simp only [Option.elim_some, freeTable, kfree, wp_bind, wp_get]
    cases t.tables.get n
    case none   => exact wp_throw.mpr rfl
    case some _ =>
      exact wp_modify.mpr ⟨rfl, rfl, rfl, Heap.forall_free fun i a _ ha => hs.tables i a ha, hs.backends, hs.mounts⟩

theorem wp_procKillHandles (hs : Store s) (hv : s.procs.get p = some v) :
    wp (procKillHandles env p) (fun _ t => Aside s t) Fault.Spared s := by
  have hset {t : State} (ht : Discarded s t) :
      wp (updProc p ({ · with handles := none })) (fun _ t => Aside s t) Fault.Spared t := by
    have hv' : t.procs.get p = some v := ht.procs ▸ hv
    simp only [wp_updProc, hv', Option.elim_some]
    have haside : Aside t (t.withProcs (t.procs.set p { v with handles := none })) :=
      aside_set hv' ⟨⟨rfl, rfl, rfl⟩, rfl, rfl, rfl, rfl, rfl⟩
    exact trans_of Aside ht.aside haside
  simp only [procKillHandles, wp_bind, wp_getProc, hv, Option.elim_some]
  refine wp_post wp_unref ?_
  rintro b _ ⟨counts, rfl⟩
  have hcounts : Discarded s (s.withCounts counts) := ⟨rfl, rfl, rfl, hs.congr rfl rfl rfl⟩
  simp only [wp_ite, wp_bind]
  refine ⟨fun _ => ?_, fun _ => hset hcounts⟩
  exact wp_post (wp_procKillTable hcounts.store hv) fun _ _ ht => hset (hcounts.trans ht)

theorem wp_procKillMount (hs : Store s) (hv : s.procs.get p = some v) :
    wp (procKillMount p) (fun _ t => Aside s t) Fault.Spared s := by
  simp only [procKillMount, wp_bind, wp_getProc, hv, Option.elim_some]
  cases v.mount
  case none   => exact wp_throw.mpr rfl
  case some m =>
    simp only [wp_bind, wp_get]
    have hremref : wp (vfsMountRemref (s.mounts.size + 1) m) (fun _ t => Discarded s t) Fault.Spared s := by
      cases hm : s.mounts.get m
      case none   =>
        simp only [vfsMountRemref, wp_bind, getMount, wp_deref, hm]
        rfl
      case some _ => exact wp_vfsMountRemref hs ((Heap.lt_size hm).trans (Nat.lt_succ_self _))
    refine wp_post hremref fun _ t ht => ?_
    have hv' : t.procs.get p = some v := ht.procs ▸ hv
    simp only [wp_updProc, hv', Option.elim_some]
    have haside : Aside t (t.withProcs (t.procs.set p { v with mount := none })) :=
      aside_set hv' ⟨⟨rfl, rfl, rfl⟩, rfl, rfl, rfl, rfl, rfl⟩
    exact trans_of Aside ht.aside haside

theorem wp_procKillPages (hs : Store s) (hv : s.procs.get p = some v) :
    wp (procKillPages p) (fun _ t => Aside s t) Fault.Spared s := by
  have hset {t : State} (ht : Discarded s t) :
      wp (updProc p ({ · with pages := none })) (fun _ t => Aside s t) Fault.Spared t := by
    have hv' : t.procs.get p = some v := ht.procs ▸ hv
    simp only [wp_updProc, hv', Option.elim_some]
    have haside : Aside t (t.withProcs (t.procs.set p { v with pages := none })) :=
      aside_set hv' ⟨⟨rfl, rfl, rfl⟩, rfl, rfl, rfl, rfl, rfl⟩
    exact trans_of Aside ht.aside haside
  simp only [procKillPages, wp_bind, wp_getProc, hv, Option.elim_some]
  refine wp_post wp_unref ?_
  rintro b _ ⟨counts, rfl⟩
  have hcounts : Discarded s (s.withCounts counts) := ⟨rfl, rfl, rfl, hs.congr rfl rfl rfl⟩
  simp only [wp_ite, wp_bind, wp_nonNull]
  refine ⟨fun _ => ?_, fun _ => hset hcounts⟩
  cases v.pages
  case none   => rfl
  case some d =>
    simp only [Option.elim_some, freePagedir, kfree, wp_bind, wp_get]
    cases (s.withCounts counts).pagedirs.get d
    case none   => exact wp_throw.mpr rfl
    case some _ =>
      rw [wp_modify]
      exact hset ⟨rfl, rfl, rfl, hs.congr rfl rfl rfl⟩

theorem wp_procSetstateLoop (hf : Family s) (ht : TreeOk s) (hv : s.procs.get p = some v)
    (hs : v.state ≠ .toreap) (ho : ∀ q, o = some q → q < fuel ∧ ∃ w, s.procs.get q = some w) :
    wp (procSetstateLoop p fuel o) (fun _ t => t = s) E s := by
  induction fuel generalizing o
  case zero =>
    cases o
    case none   => exact wp_pure.mpr rfl
    case some q => exact absurd (ho q rfl).1 (Nat.not_lt_zero _)
  case succ fuel hi =>
    cases o
    case none   => exact wp_pure.mpr rfl
    case some q =>
      obtain ⟨hlt, w, hw⟩ := ho q rfl
      simp only [procSetstateLoop, wp_bind, wp_getProc, hv, hw, Option.elim_some, wp_kassert]
      refine ⟨fun _ => hi fun r hr => ⟨?_, hf.points hw (.inr hr)⟩, fun hn => absurd hs hn⟩
      exact (ht.sibling q w r hw hr).1.trans_le (Nat.lt_succ_iff.mp hlt)

-- The children of a dying process, and what becomes of them.
theorem Mortal.killChildren (h : Mortal none s) (hv : s.procs.get p = some v) (hs : v.state = .dying)
    (ho : ∀ q, o = some q → q < fuel ∧ ∃ w, s.procs.get q = some w ∧ w.parent = some p)
    (hdone : ∀ c w, s.procs.get c = some w → w.parent = some p → w.state = .toreap → SiblingChain s o c) :
    wp (procKillChildren fuel o) (fun _ t => Mortal none t ∧ Fades s t ∧
      ∀ c w, t.procs.get c = some w → w.parent = some p → w.state ≠ .toreap) E s := by
  have hnone {s : State} (h : Mortal none s) (hdone : ∀ c w, s.procs.get c = some w → w.parent = some p →
      w.state = .toreap → SiblingChain s none c) : Mortal none s ∧ Fades s s ∧
        ∀ c w, s.procs.get c = some w → w.parent = some p → w.state ≠ .toreap :=
    ⟨h, refl_of Fades s, fun c w hw hp ht => (hdone c w hw hp ht).ne_none rfl⟩
  induction fuel generalizing s o v
  case zero =>
    cases o
    case none   => exact wp_pure.mpr (hnone h hdone)
    case some q => exact absurd (ho q rfl).1 (Nat.not_lt_zero _)
  case succ fuel hi =>
    cases o
    case none   => exact wp_pure.mpr (hnone h hdone)
    case some q =>
      obtain ⟨hlt, w, hw, hp⟩ := ho q rfl
      have hnext {r : Pid} (hr : w.sibling = some r) :
          r < fuel ∧ ∃ u, s.procs.get r = some u ∧ u.parent = some p := by
        have ⟨hlt', hparent⟩ := h.tree.sibling q w r hw hr
        obtain ⟨u, hu⟩ := h.family.points hw (.inr hr)
        exact ⟨hlt'.trans_le (Nat.lt_succ_iff.mp hlt), u, hu, (hparent u hu).trans hp⟩
      simp only [procKillChildren, wp_bind, wp_getProc, hw, Option.elim_some, wp_ite]
      refine ⟨fun hr => ?_, fun hr => ?_⟩
      · refine wp_post (h.weaken.tryreap hw (by rw [hr]; rfl)) ?_
        rintro _ t ⟨ht, hf, hleft⟩
        obtain ⟨v', hv', -⟩ := hf.linked.procs.of_get hv
        have hs' : v'.state = .dying := (hs ▸ hf.states p v v' hv hv').dying
        refine wp_post (hi ht hv' hs' (fun r hr => ?_) fun c u hu hc hd => ?_) ?_
        · obtain ⟨hlt, u, hu, hparent⟩ := hnext hr
          obtain ⟨u', hu', hk⟩ := hf.linked.procs.of_get hu
          exact ⟨hlt, u', hu', hk.parent.trans hparent⟩
        · obtain ⟨u₀, hu₀, hk⟩ := hf.linked.procs.of_get' hu
          have hd₀ : u₀.state = .toreap := (hd ▸ hf.states c u₀ u hu₀ hu).toreap
          cases (hdone c u₀ hu₀ (hk.parent ▸ hc) hd₀).eq_or_next hw
          case inl hcq =>
            subst hcq
            exact absurd hs (hleft u hu hd p v hp hv)
          case inr hchain => exact hchain.touches hf.linked
        · rintro _ u ⟨hu, hf', hall⟩
          exact ⟨hu, trans_of Fades hf hf', hall⟩
      · refine hi h hv hs (fun r hr => hnext hr) fun c u hu hc hd => ?_
        cases (hdone c u hu hc hd).eq_or_next hw
        case inl hcq =>
          obtain rfl := Option.some_inj.mp (hw.symm.trans (hcq ▸ hu))
          exact absurd hd hr
        case inr hchain => exact hchain

-- A process which is alive begins to die.
theorem Mortal.dying (h : Mortal none s) (hv : s.procs.get p = some v) (ha : v.state.alive) (hp : p ≠ 0) :
    Mortal none (s.withProcs (s.procs.set p { v with state := .dying })) := by
  have hplain := h.plain p v hv
  have hord : Ordered none (s.withProcs (s.procs.set p { v with state := .dying })) := by
    refine h.ordered.setSame hv rfl rfl (h.not_own_parent hv) ?_ (by simp) (by simp) (by simp [PState.alive]) (by simp)
    refine ⟨by simp, fun hd => ?_⟩
    rw [hd] at ha
    contradiction
  exact h.set (l := s.deadLeaves) hv ⟨rfl, rfl, rfl, rfl, rfl, rfl, rfl⟩
    (hplain.congr (by simp) rfl rfl rfl rfl) (fun h => absurd h hp) hord

theorem Mortal.killAlive (h : Mortal none s) (hv : s.procs.get p = some v) (ha : v.state.alive) (hp : p ≠ 0) :
    wp (procKillAlive env p ret) (fun _ t => Mortal none t ∧ ∃ w, t.procs.get p = some w ∧ w.state = .dying ∧
      ∀ c u, t.procs.get c = some u → u.parent = some p → u.state ≠ .toreap) Fault.Spared s := by
  have hplain := h.plain p v hv
  have hstate := hplain.state
  simp only [List.mem_cons, List.not_mem_nil, or_false, not_or] at hstate
  obtain ⟨hfreed, hfs, -, hpipe, htimer⟩ := hstate
  simp only [procKillAlive, procKillControlled, procKillReqslot, procKillPipe, procKillTimer, wp_bind,
    wp_getProc, hv, Option.elim_some, hplain.controlled, hplain.reqslot, hfs, hpipe, htimer, wp_pure, if_false]
  refine wp_post (wp_procKillHandles h.store hv) fun _ t₁ h₁ => ?_
  have hm₁ := h.aside h₁
  obtain ⟨v₁, hv₁, hk₁⟩ := h₁.procs.of_get hv
  rw [wp_bind]
  refine wp_post (wp_procKillMount hm₁.store hv₁) fun _ t₂ h₂ => ?_
  have hm₂ := hm₁.aside h₂
  obtain ⟨v₂, hv₂, hk₂⟩ := h₂.procs.of_get hv₁
  have ha₂ : v₂.state.alive := by rw [hk₂.state, hk₁.state, ha]
  have hfreed₂ : v₂.state ≠ .freed := by rw [hk₂.state, hk₁.state]; exact hfreed
  rw [wp_bind]
  refine wp_procSetstate .dying hv₂ hfreed₂ trivial ?_
  have hm₃ := hm₂.dying hv₂ ha₂ hp
  have hv₃ : (t₂.withProcs (t₂.procs.set p { v₂ with state := .dying })).procs.get p = _ := Heap.get_set_self hv₂
  generalize t₂.withProcs (t₂.procs.set p { v₂ with state := .dying }) = t₃ at hm₃ hv₃ ⊢
  have h₄ : Aside t₃ (t₃.withProcs (t₃.procs.set p { v₂ with state := .dying, deathMsg := ret })) :=
    aside_set hv₃ ⟨⟨rfl, rfl, rfl⟩, rfl, rfl, rfl, rfl, rfl⟩
  have hm₄ := hm₃.aside h₄
  simp only [wp_updProc, hv₃, Option.elim_some, wp_get, wp_bind, wp_getProc, Heap.get_set_self hv₃]
  have hv₄ : (t₃.withProcs (t₃.procs.set p { v₂ with state := .dying, deathMsg := ret })).procs.get p = _ :=
    Heap.get_set_self hv₃
  generalize hw₄ : ({ v₂ with state := .dying, deathMsg := ret } : Proc) = v₄ at hv₄ hm₄ ⊢
  have hs₄ : v₄.state = .dying := by rw [← hw₄]
  have hc₄ : v₂.child = v₄.child := by rw [← hw₄]
  show wp (procKillChildren ((t₃.withProcs (t₃.procs.set p v₄)).procs.size + 1) v₂.child) _ _
    (t₃.withProcs (t₃.procs.set p v₄))
  generalize t₃.withProcs (t₃.procs.set p v₄) = t₄ at hv₄ hm₄ ⊢
  rw [hc₄]
  refine wp_post (hm₄.killChildren hv₄ hs₄ (fun q hq => ?_) fun c w hw hc _ => ?_) ?_
  · obtain ⟨w, hw⟩ := hm₄.family.points hv₄ (.inl hq)
    obtain ⟨hlt, hparent⟩ := hm₄.tree.child p v₄ q hv₄ hq
    exact ⟨hlt.trans (Nat.lt_succ_self _), w, hw, hparent w hw⟩
  · obtain ⟨v', hv', hchain⟩ := hm₄.parent hw hc
    obtain rfl := Option.some_inj.mp (hv₄.symm.trans hv')
    exact hchain
  rintro _ t₅ ⟨hm₅, hf₅, hall⟩
  obtain ⟨v₅, hv₅, -⟩ := hf₅.linked.procs.of_get hv₄
  have hs₅ : v₅.state = .dying := (hs₄ ▸ hf₅.states p v₄ v₅ hv₄ hv₅).dying
  refine wp_post (wp_procKillPages hm₅.store hv₅) fun _ t₆ h₆ => ?_
  obtain ⟨v₆, hv₆, hk₆⟩ := h₆.procs.of_get hv₅
  refine ⟨hm₅.aside h₆, v₆, hv₆, hk₆.state.trans hs₅, fun c u hu hc => ?_⟩
  obtain ⟨u', hu', hk⟩ := h₆.procs.of_get' hu
  rw [hk.state]
  exact hall c u' hu' (hk.renamed.parent ▸ hc)

-- The process is dead, and its parent may have to be told.
theorem Mortal.killDying (h : Mortal none s) (hv : s.procs.get p = some v) (hp : p ≠ 0) (hs : v.state = .dying)
    (hall : ∀ c u, s.procs.get c = some u → u.parent = some p → u.state ≠ .toreap) :
    wp (procKillDying p) (fun _ t => Mortal (some p) t ∧ ∃ w, t.procs.get p = some w ∧
      w.state.alive = false) E s := by
  obtain ⟨q, u, hq, hu, -⟩ := h.family.chain hv hp
  have hqp : q ≠ p := (h.tree.parent p v q hv hq).ne
  have hplain := h.plain p v hv
  have hset (state : PState) (hd : state.alive = false) (hf : state ≠ .deadleaf)
      (hok : state ∉ [PState.freed, .waits4fs, .waits4request, .waits4pipe, .waits4timer])
      (hreap : state = .toreap → u.state.alive) :
      Mortal (some p) (s.withProcs (s.procs.set p { v with state := state })) := by
    have hord : Ordered (some p) (s.withProcs (s.procs.set p { v with state := state })) := by
      refine h.ordered.setSame hv rfl rfl (h.not_own_parent hv) (by simp [hs, hf]) (fun _ => .inl rfl) (by simp)
        (fun _ => hall) fun hr q' u' hq' hu' => ?_
      obtain rfl := Option.some_inj.mp (hq.symm.trans hq')
      exact Option.some_inj.mp (hu.symm.trans hu') ▸ hreap hr
    exact h.set (l := s.deadLeaves) hv ⟨rfl, rfl, rfl, rfl, rfl, rfl, rfl⟩ (hplain.congr hok rfl rfl rfl rfl)
      (fun h => absurd h hp) hord
  simp only [procKillDying, wp_bind, wp_getProc, hv, Option.elim_some]
  rw [if_pos hs, hq]
  simp only [wp_bind, wp_getProc, hu, Option.elim_some, wp_ite]
  refine ⟨fun ha => ?_, fun _ => ?_⟩
  · simp only [procSetstate, procSetstateToreap, wp_bind, wp_getProc, wp_kassert, wp_get, hv, hs, hq, hu,
      Option.elim_some, ha, reduceCtorEq, ne_eq, not_false_eq_true, not_true_eq_false, true_implies,
      false_implies, and_true]
    refine wp_post (wp_procSetstateLoop h.family h.tree hv (by simp [hs]) fun c hc => ?_) ?_
    · obtain ⟨hlt, _⟩ := h.tree.child p v c hv hc
      exact ⟨hlt.trans (Nat.lt_succ_self _), h.family.points hv (.inl hc)⟩
    rintro _ _ rfl
    simp only [wp_updProc, hv, Option.elim_some]
    exact ⟨hset .toreap rfl (by simp) (by simp) fun _ => ha, _, Heap.get_set_self hv, rfl⟩
  · refine wp_procSetstate .tombstone hv (by simp [hs]) (.inr hs) ?_
    exact ⟨hset .tombstone rfl (by simp) (by simp) (by simp), _, Heap.get_set_self hv, rfl⟩

theorem Mortal.kill (h : Mortal none s) (hv : s.procs.get p = some v) (hp : p ≠ 0) :
    wp (procKill env p ret) (fun _ t => Mortal none t) Fault.Spared s := by
  have hend {t : State} (h : Mortal (some p) t) {w : Proc} (hw : t.procs.get p = some w)
      (hd : w.state.alive = false) : wp (do
        if p = (← get).first then
          procKillFirst p
        else
          procTryreap p) (fun _ t => Mortal none t) Fault.Spared t := by
    simp only [wp_bind, wp_get, h.first, if_neg hp]
    exact wp_post (h.tryreap hw hd) fun _ _ ht => ht.1
  simp only [procKill, wp_bind, wp_getProc, hv, Option.elim_some]
  by_cases ha : v.state.alive
  case pos =>
    rw [if_pos ha, wp_bind]
    refine wp_post (h.killAlive hv ha hp) ?_
    rintro _ t ⟨ht, w, hw, hs, hall⟩
    rw [wp_bind]
    refine wp_post (ht.killDying hw hp hs hall) ?_
    rintro _ u ⟨hu, x, hx, hd⟩
    exact hend hu hx hd
  case neg =>
    have hd : v.state.alive = false := by simpa using ha
    have hn : v.state ≠ .dying := fun hs => by simp [hs, PState.alive] at hd
    rw [if_neg ha, procKillDying]
    simp only [wp_bind, wp_getProc, hv, Option.elim_some, wp_ite, wp_pure]
    exact ⟨fun hs => absurd hs hn, fun _ => by simpa using hend h.weaken hv hd⟩

end Kill

section Wait

variable {s t : State} {p : Pid} {v : Proc} {o : Option Pid} {fuel : ℕ} {pid : Int} {flags : Flags} {out : ℕ}
variable {E : Fault → Prop}

theorem Mortal.wait2Loop (h : Mortal none s)
    (ho : ∀ q, o = some q → q < fuel ∧ ∃ w, s.procs.get q = some w) :
    wp (sysWait2Loop fuel o) (fun _ t => Mortal none t ∧ Fades s t) E s := by
  induction fuel generalizing s o
  case zero =>
    cases o
    case none   => exact wp_pure.mpr ⟨h, refl_of Fades s⟩
    case some q => exact absurd (ho q rfl).1 (Nat.not_lt_zero _)
  case succ fuel hi =>
    cases o
    case none   => exact wp_pure.mpr ⟨h, refl_of Fades s⟩
    case some q =>
      obtain ⟨hlt, w, hw⟩ := ho q rfl
      have hnext {s : State} {w : Proc} (h : Mortal none s) (hw : s.procs.get q = some w) {r : Pid}
          (hr : w.sibling = some r) : r < fuel ∧ ∃ u, s.procs.get r = some u :=
        ⟨(h.tree.sibling q w r hw hr).1.trans_le (Nat.lt_succ_iff.mp hlt), h.family.points hw (.inr hr)⟩
      have hrest {t : State} (ht : Mortal none t) (hf : Fades s t) : wp (do
          let _ ← sysWait2Loop fuel (← getProc q).sibling
          pure true : K Bool) (fun _ t => Mortal none t ∧ Fades s t) E t := by
        obtain ⟨w', hw', -⟩ := hf.linked.procs.of_get hw
        simp only [wp_bind, wp_getProc, hw', Option.elim_some]
        refine wp_post (hi ht fun r hr => hnext ht hw' hr) ?_
        rintro _ u ⟨hu, hf'⟩
        exact wp_pure.mpr ⟨hu, trans_of Fades hf hf'⟩
      simp only [sysWait2Loop, wp_bind, wp_getProc, hw, Option.elim_some, wp_ite]
      refine ⟨fun _ => hi h fun r hr => hnext h hw hr, fun _ => ⟨fun hr => ?_, fun _ => ?_⟩⟩
      · refine wp_post (h.weaken.tryreap hw (by rw [hr]; rfl)) ?_
        rintro _ t ⟨ht, hf, -⟩
        exact hrest ht hf
      · simpa only [wp_bind, wp_getProc, hw, Option.elim_some] using hrest h (refl_of Fades s)

-- The state of a process which is alive may change.
theorem Mortal.setAlive {w : Proc} (h : Mortal none s) (hv : s.procs.get p = some v) (hf : v.state ≠ .deadleaf)
    (hk : v.Kin w) (hw : w.Plain) (ha : w.state.alive) (hd : w.state ≠ .dying) :
    Mortal none (s.withProcs (s.procs.set p w)) := by
  have hord : Ordered none (s.withProcs (s.procs.set p w)) := by
    refine h.ordered.setSame hv hk.child hk.parent (h.not_own_parent hv) ?_ (fun ht => ?_) (by simp)
      (fun hn => by rw [ha] at hn; contradiction) fun hr => ?_
    · exact ⟨fun hs => by rw [hs] at ha; contradiction, fun hs => absurd hs hf⟩
    · rw [ht] at ha
      contradiction
    · rw [hr] at ha
      contradiction
  exact h.set (l := s.deadLeaves) hv hk hw (fun _ => ⟨ha, hd⟩) hord

theorem Mortal.wait2 (h : Mortal none s) (hv : s.procs.get p = some v) (hrun : v.state = .running) :
    wp (sysWait2 p pid flags out) (fun _ t => Mortal none t) Fault.Spared s := by
  have hreturn {t : State} {w : Proc} (ht : Mortal none t) (hw : t.procs.get p = some w) {ret : Int} :
      wp (sysReturn p ret) (fun _ t => Mortal none t) Fault.Spared t := by
    have haside : Aside t (t.withProcs (t.procs.set p { w with rax := ret })) :=
      aside_set hw ⟨⟨rfl, rfl, rfl⟩, rfl, rfl, rfl, rfl, rfl⟩
    simp only [sysReturn, regsSavereturn, wp_bind, wp_getProc, wp_kassert, wp_updProc, hw, Option.elim_some]
    exact ⟨fun _ => ht.aside haside, fun _ => rfl⟩
  have hplain := h.plain p v hv
  rw [sysWait2, wp_ite]
  refine ⟨fun _ => hreturn h hv, fun _ => ?_⟩
  rw [wp_bind]
  refine wp_procSetstate .waits4childdeath hv (by simp [hrun]) hrun ?_
  simp only [wp_bind, wp_updProc, wp_get, wp_getProc, State.withProcs_procs, Heap.get_set_self hv,
    Option.elim_some, Heap.set_set, Heap.size_set]
  have hm : Mortal none (s.waiting p v pid out) :=
    h.setAlive hv (by simp [hrun]) ⟨rfl, rfl, rfl, rfl, rfl, rfl, rfl⟩ (hplain.congr (by simp) rfl rfl rfl rfl)
      rfl (by simp)
  have hw : (s.waiting p v pid out).procs.get p = _ := Heap.get_set_self hv
  show wp (sysWait2Loop (s.procs.size + 1) v.child) _ _ (s.waiting p v pid out)
  refine wp_post (hm.wait2Loop fun q hq => ?_) ?_
  · obtain ⟨x, hx⟩ := hm.family.points hw (.inl hq)
    exact ⟨((Heap.lt_size hx).trans_eq Heap.size_set).trans (Nat.lt_succ_self _), x, hx⟩
  rintro found t ⟨ht, hf⟩
  obtain ⟨w, hw', -⟩ := hf.linked.procs.of_get hw
  rw [wp_ite]
  refine ⟨fun _ => ?_, fun _ => wp_pure.mpr ht⟩
  have hstate : w.state = .waits4childdeath ∨ w.state = .running := by
    have := hf.states p _ w hw hw'
    generalize w.state = a at this
    cases this
    case same  => exact .inl rfl
    case woken => exact .inr rfl
  have hfreed : w.state ≠ .freed := by obtain h | h := hstate <;> simp [h]
  have hleaf : w.state ≠ .deadleaf := by obtain h | h := hstate <;> simp [h]
  rw [wp_bind]
  refine wp_procSetstate .running hw' hfreed trivial ?_
  have hplain' : ({ w with state := .running } : Proc).Plain :=
    (ht.plain p w hw').congr (by simp) rfl rfl rfl rfl
  have ht' : Mortal none (t.withProcs (t.procs.set p { w with state := .running })) :=
    ht.setAlive hw' hleaf ⟨rfl, rfl, rfl, rfl, rfl, rfl, rfl⟩ hplain' rfl (by simp)
  exact hreturn ht' (Heap.get_set_self hw')

end Wait

section Fork

variable {s t : State} {p : Pid} {v w : Proc} {flags : Flags} {env : Env}

theorem wp_procForkCount {o : Option Cid} :
    wp (procForkCount o) (fun _ t => ∃ counts, t = s.withCounts counts) Fault.Spared s := by
  have hcount {t : State} {c : Cid} (ht : ∃ counts, t = s.withCounts counts) : wp (do
      setCount c ((← getCount c) + 1)
      pure c : K Cid) (fun _ t => ∃ counts, t = s.withCounts counts) Fault.Spared t := by
    obtain ⟨counts, rfl⟩ := ht
    simp only [wp_bind, getCount, wp_deref, setCount, wp_modify, wp_pure]
    cases (s.withCounts counts).counts.get c
    case none   => rfl
    case some n => exact ⟨_, rfl⟩
  cases o
  case none   =>
    simp only [procForkCount, allocCount, wp_bind, wp_get, wp_modify, wp_pure] at hcount ⊢
    exact hcount ⟨_, rfl⟩
  case some c =>
    simp only [procForkCount, wp_bind, wp_pure] at hcount ⊢
    exact hcount ⟨s.counts, rfl⟩

theorem wp_procForkPages (hv : s.procs.get p = some v) :
    wp (procForkPages p flags) (fun _ t => Aside s t) Fault.Spared s := by
  simp only [procForkPages, wp_bind, wp_getProc, hv, Option.elim_some, wp_ite]
  refine ⟨fun _ => wp_post wp_procForkCount ?_, fun _ => ?_⟩
  · rintro c _ ⟨counts, rfl⟩
    simp only [wp_bind, wp_updProc, wp_pure, State.withCounts_procs, hv, Option.elim_some]
    have hcounts : Aside s (s.withCounts counts) := aside_of_eq rfl rfl rfl fun h => h.congr rfl rfl rfl
    have haside : Aside (s.withCounts counts) ((s.withCounts counts).withProcs
        (s.procs.set p { v with pagesRefcount := some c })) :=
      aside_set hv ⟨⟨rfl, rfl, rfl⟩, rfl, rfl, rfl, rfl, rfl⟩
    exact trans_of Aside hcounts haside
  · simp only [allocPagedir, wp_bind, wp_get, wp_modify, wp_pure]
    exact aside_of_eq rfl rfl rfl fun h => h.congr rfl rfl rfl

theorem wp_procForkMount {o : Option Mid} :
    wp (procForkMount o) (fun _ t => Aside s t) Fault.Spared s := by
  cases o
  case none   => exact wp_throw.mpr rfl
  case some m =>
    simp only [procForkMount, wp_bind, getMount, wp_deref, setMount, wp_modify, wp_pure]
    cases hm : s.mounts.get m
    case none   => rfl
    case some v =>
      refine aside_of_eq rfl rfl rfl fun h => ⟨h.tables, h.backends, fun i u n hu hn => ?_⟩
      rw [Heap.get_set hm] at hu
      by_cases hi : i = m
      case pos =>
        rw [if_pos hi, Option.some_inj] at hu
        exact hi ▸ h.mounts m v n hm (by simpa [← hu] using hn)
      case neg => exact h.mounts i u n (by simpa [hi] using hu) hn

theorem wp_procForkHandles (hs : Store s) (hv : s.procs.get p = some v) :
    wp (procForkHandles p flags) (fun _ t => Aside s t) Fault.Spared s := by
  simp only [procForkHandles, procTable, wp_bind, wp_getProc, hv, Option.elim_some, wp_ite, wp_nonNull]
  refine ⟨fun _ => wp_post wp_procForkCount ?_, fun _ => ?_⟩
  · rintro c _ ⟨counts, rfl⟩
    simp only [wp_bind, wp_updProc, wp_pure, State.withCounts_procs, hv, Option.elim_some]
    have hcounts : Aside s (s.withCounts counts) := aside_of_eq rfl rfl rfl fun h => h.congr rfl rfl rfl
    have haside : Aside (s.withCounts counts) ((s.withCounts counts).withProcs
        (s.procs.set p { v with handlesRefcount := some c })) :=
      aside_set hv ⟨⟨rfl, rfl, rfl⟩, rfl, rfl, rfl, rfl, rfl⟩
    exact trans_of Aside hcounts haside
  · cases v.handles
    case none   => rfl
    case some n =>
      simp only [Option.elim_some, getTable, wp_deref]
      cases ht : s.tables.get n
      case none       => rfl
      case some table =>
        obtain rfl := hs.tables n table ht
        rw [Option.elim_some, wp_bind]
        refine wp_post wp_procForkTable_none ?_
        rintro i _ ⟨rfl, rfl⟩
        refine wp_pure.mpr ?_
        exact aside_of_eq rfl rfl rfl fun h => ⟨Heap.forall_alloc rfl fun i a _ ha => h.tables i a ha,
          h.backends, h.mounts⟩

-- A process joins the tree as the first child of `p`.
structure Joined (s : State) (p : Pid) (t : State) : Prop where
  link : ∃ u v w, Aside s u ∧ u.procs.get p = some v ∧ w.state = .running ∧ w.Plain ∧ w.child = none ∧
    w.parent = some p ∧ t = u.withProcs ((u.procs.alloc w).set p { v with child := some u.procs.size })

theorem Mortal.joins (h : Mortal none s) (hv : s.procs.get p = some v) (hrun : v.state = .running) :
    wp (procFork p flags) (fun _ t => Joined s p t) Fault.Spared s := by
  have hplain := h.plain p v hv
  have hcontrolled {t : State} : wp (procForkControlled v.controlled flags)
      (fun b u => b = none ∧ u = t) Fault.Spared t := by
    rw [hplain.controlled, procForkControlled]
    simp only [wp_ite, wp_pure, implies_true, and_self]
  simp only [procFork, wp_bind, wp_getProc, hv, Option.elim_some, wp_kassert, hrun, true_implies,
    not_true_eq_false, false_implies, and_true]
  refine wp_post (wp_procForkPages hv) ?_
  rintro ⟨pages, pc⟩ t₁ h₁
  simp only [procForkGlobalid, procForkLocalid, wp_bind, wp_get, wp_ite, wp_throw, wp_modify, wp_pure,
    wp_getProc, wp_updProc, hplain.pns]
  refine ⟨fun _ => rfl, fun _ => ?_⟩
  have hnext : Aside t₁ (t₁.withNextPid ((t₁.nextPid + 1) % 2 ^ 32)) :=
    aside_of_eq rfl rfl rfl fun h => h.congr rfl rfl rfl
  have h₂ := trans_of Aside h₁ hnext
  obtain ⟨o, ho, -⟩ := h.init
  obtain ⟨o₁, ho₁, -⟩ := h₁.procs.of_get ho
  simp only [ho₁, Option.elim_some]
  refine ⟨fun _ => rfl, fun _ => ?_⟩
  have hlid : Aside (t₁.withNextPid ((t₁.nextPid + 1) % 2 ^ 32))
      ((t₁.withNextPid ((t₁.nextPid + 1) % 2 ^ 32)).withProcs
        (t₁.procs.set 0 { o₁ with nextlid := (o₁.nextlid + 1) % 2 ^ 32 })) :=
    aside_set ho₁ ⟨⟨rfl, rfl, rfl⟩, rfl, rfl, rfl, rfl, rfl⟩
  have h₃ := trans_of Aside h₂ hlid
  refine wp_post hcontrolled ?_
  rintro _ _ ⟨rfl, rfl⟩
  rw [wp_bind]
  refine wp_post wp_procForkMount fun mount t₄ h₄ => ?_
  have h₄ : Aside s t₄ := trans_of Aside h₃ h₄
  obtain ⟨v₄, hv₄, hk₄⟩ := h₄.procs.of_get hv
  rw [wp_bind]
  refine wp_post (wp_procForkHandles (h₄.store h.store) hv₄) ?_
  rintro ⟨handles, hc⟩ t₅ h₅
  have h₅ : Aside s t₅ := trans_of Aside h₄ h₅
  obtain ⟨v₅, hv₅, hk₅⟩ := h₅.procs.of_get hv
  simp only [procForkLink, allocProc, wp_bind, wp_getProc, wp_get, wp_modify, wp_pure, wp_updProc, hv₅,
    Option.elim_some, Heap.get_alloc_of_some hv₅]
  exact ⟨t₅, v₅, _, h₅, hv₅, rfl, ⟨by simp, rfl, rfl, rfl, rfl⟩, rfl, rfl, rfl⟩

theorem Mortal.born {c : Pid} (h : Mortal none s) (hb : Born s p flags c t) (hj : Joined s p t) (hv : s.procs.get p = some v)
    (hrun : v.state = .running) : Mortal none t := by
  obtain ⟨u, v', w, hu, hv', hw, hplain, hchild, hparent, rfl⟩ := hj
  have hm := h.aside hu
  have hrun' : v'.state = .running := by
    obtain ⟨x, hx, hk⟩ := hu.procs.of_get hv
    obtain rfl := Option.some_inj.mp (hv'.symm.trans hx)
    exact hk.state.trans hrun
  have hpc : p ≠ u.procs.size := (Heap.lt_size hv').ne
  have hget (q : Pid) : ((u.procs.alloc w).set p { v' with child := some u.procs.size }).get q =
      if q = p then some { v' with child := some u.procs.size } else if q = u.procs.size then some w
        else u.procs.get q := by
    rw [Heap.get_set (Heap.get_alloc_of_some hv'), Heap.get_alloc]
  -- The new process runs and has no children, and nothing else changes but the children of `p`.
  have hcases {q : Pid} {y : Proc}
      (hy : ((u.procs.alloc w).set p { v' with child := some u.procs.size }).get q = some y) :
      q = p ∧ y = { v' with child := some u.procs.size } ∨ q = u.procs.size ∧ y = w ∨
        q ≠ p ∧ u.procs.get q = some y := by
    rw [hget] at hy
    by_cases hq : q = p
    case pos => exact .inl ⟨hq, by simpa [hq] using hy.symm⟩
    case neg =>
      rw [if_neg hq] at hy
      by_cases hqc : q = u.procs.size
      case pos => exact .inr (.inl ⟨hqc, by simpa [hqc] using hy.symm⟩)
      case neg => exact .inr (.inr ⟨hq, by simpa [hqc] using hy⟩)
  have hold {q : Pid} {y : Proc} (hq : q ≠ p) (hy : u.procs.get q = some y) :
      ((u.procs.alloc w).set p { v' with child := some u.procs.size }).get q = some y := by
    rw [hget, if_neg hq, if_neg (Heap.lt_size hy).ne, hy]
  refine ⟨⟨hm.ordered.nodup, fun q => ?_, fun q y hy hs => ?_, fun q y hy hs => ?_,
    fun q y c z hy hd hz hc => ?_⟩, fun q y hy => ?_, hm.store.congr rfl rfl rfl, h.tree.born hb,
    h.family.born hb, hm.first, ?_⟩
  · refine (hm.ordered.leaves q).trans ⟨fun ⟨y, hy, hs⟩ => ⟨y, hold (fun hq => ?_) hy, hs⟩, fun ⟨y, hy, hs⟩ => ?_⟩
    · obtain rfl := Option.some_inj.mp (hv'.symm.trans (hq ▸ hy))
      rw [hrun'] at hs
      contradiction
    · obtain ⟨_, rfl⟩ | ⟨_, rfl⟩ | ⟨_, hy⟩ := hcases hy
      · exact absurd (hrun'.symm.trans hs) (by simp)
      · exact absurd (hw.symm.trans hs) (by simp)
      · exact ⟨y, hy, hs⟩
  · obtain ⟨_, rfl⟩ | ⟨_, rfl⟩ | ⟨_, hy⟩ := hcases hy
    · exact absurd (hrun'.symm.trans hs) (by simp)
    · exact absurd (hw.symm.trans hs) (by simp)
    · exact hm.ordered.leaf q y hy hs
  · obtain ⟨_, rfl⟩ | ⟨_, rfl⟩ | ⟨_, hy⟩ := hcases hy
    · exact absurd (hrun'.symm.trans hs) (by simp)
    · exact absurd (hw.symm.trans hs) (by simp)
    · exact hm.ordered.tombstone q y hy hs
  · obtain ⟨_, rfl⟩ | ⟨_, rfl⟩ | ⟨_, hy⟩ := hcases hy
    · simp [hrun', PState.alive] at hd
    · simp [hw, PState.alive] at hd
    · obtain ⟨_, rfl⟩ | ⟨_, rfl⟩ | ⟨_, hz⟩ := hcases hz
      · simp [hrun']
      · simp [hw]
      · exact hm.ordered.toreap q y c z hy hd hz hc
  · obtain ⟨_, rfl⟩ | ⟨_, rfl⟩ | ⟨_, hy⟩ := hcases hy
    · have := hm.plain p v' hv'
      exact this.congr this.state rfl rfl rfl rfl
    · exact hplain
    · exact hm.plain q y hy
  · obtain ⟨o, ho, hinit⟩ := hm.init
    by_cases h0 : p = 0
    case pos =>
      obtain rfl := Option.some_inj.mp (ho.symm.trans (h0 ▸ hv'))
      exact ⟨_, (hget 0).trans (if_pos h0.symm), hinit⟩
    case neg => exact ⟨o, hold (Ne.symm h0) ho, hinit⟩

theorem Mortal.fork (hs : SharesOk s) (h : Mortal none s) (hv : s.procs.get p = some v)
    (hrun : v.state = .running) :
    wp (procFork p flags) (fun _ t => Mortal none t ∧ SharesOk t ∧ ∃ c, Born s p flags c t)
      Fault.Spared s := by
  refine wp_post (wp_and_wlp (h.joins hv hrun) (procFork_spec hs)) ?_
  rintro c t ⟨hj, hok, hb⟩
  exact ⟨h.born hb hj hv hrun, hok, c, hb⟩

end Fork

section Run

variable {paths : List (List UInt8)} {s t : State} {env : Env}

-- What processes do to the process tree, if they never ask for a namespace of their own.
inductive LifeOp
  | fork (p : Pid) (flags : Flags)
  | kill (p : Pid) (ret : Int)
  | wait2 (p : Pid) (pid : Int) (flags : Flags) (out : ℕ)
  | prune

-- The first process is not killed. Every other one may be, dead or alive.
def LifeOp.Enabled (s : State) : LifeOp → Prop
  | .fork p _ | .wait2 p _ _ _ => ∃ v, s.procs.get p = some v ∧ v.state = .running
  | .kill p _                  => p ≠ s.first ∧ ∃ v, s.procs.get p = some v
  | .prune                     => True

def LifeOp.run (env : Env) : LifeOp → K Unit
  | .fork p flags          => discard <| procFork p flags
  | .kill p ret            => procKill env p ret
  | .wait2 p pid flags out => sysWait2 p pid flags out
  | .prune                 => procPruneLeaves

inductive LifeRun (paths : List (List UInt8)) : State → Prop
  | boot : LifeRun paths (bootState paths)
  | step {s t : State} {op : LifeOp} {env : Env} : LifeRun paths s → op.Enabled s →
    op.run env s = .ok ((), t) → LifeRun paths t

-- What is true of the dead in between.
structure LifeOk (s : State) : Prop where
  nodup     : s.deadLeaves.Nodup
  leaves    : ∀ p, p ∈ s.deadLeaves ↔ ∃ v, s.procs.get p = some v ∧ v.state = .deadleaf
  tombstone : ∀ p v, s.procs.get p = some v → v.state = .tombstone → v.child ≠ none
  toreap    : ∀ p v c w, s.procs.get p = some v → v.state.alive = false → s.procs.get c = some w →
    w.parent = some p → w.state ≠ .toreap
  links     : ∀ p v q, s.procs.get p = some v →
    v.parent = some q ∨ v.child = some q ∨ v.sibling = some q → ∃ w, s.procs.get q = some w

theorem Mortal.toLifeOk (h : Mortal none s) : LifeOk s where
  nodup     := h.ordered.nodup
  leaves    := h.ordered.leaves
  tombstone := fun p v hv hs => (h.ordered.tombstone p v hv hs).resolve_left (by simp)
  toreap    := h.ordered.toreap
  links p v q hv hq := by
    cases hq
    case inl hq =>
      have ⟨w, hw, _⟩ := h.parent hv hq
      exact ⟨w, hw⟩
    case inr hq => exact h.family.points hv hq

-- The mounts of the drivers lie over each other.
theorem store_foldl (paths : List (List UInt8)) (boot : State × Option Mid) (hs : Store boot.1)
    (hm : ∀ m, boot.2 = some m → m < boot.1.mounts.size) :
    Store (paths.foldl vfsRootRegister boot).1 := by
  induction paths generalizing boot
  case nil => exact hs
  case cons path paths hi =>
    refine hi _ ⟨hs.tables, ?_, fun m v n hv hn => ?_⟩ fun m hm => ?_
    · exact Heap.forall_alloc rfl fun i a _ ha => hs.backends i a ha
    · have hv : (boot.1.mounts.alloc _).get m = some v := hv
      rw [Heap.get_alloc] at hv
      by_cases hsize : m = boot.1.mounts.size
      case pos =>
        rw [if_pos hsize, Option.some_inj] at hv
        subst hv
        exact hsize ▸ hm n hn
      case neg => exact hs.mounts m v n (by simpa [hsize] using hv) hn
    · obtain rfl := Option.some_inj.mp hm
      exact (Nat.lt_succ_self _).trans_eq Heap.size_alloc.symm

theorem mortal_bootState : Mortal none (bootState paths) := by
  have hget : ∃ m, (bootState paths).procs.get 0 = some (procInit m) := ⟨_, rfl⟩
  have hstatic : Store staticState := ⟨by simp [staticState], by simp [staticState], by simp [staticState]⟩
  have hstore := store_foldl paths (staticState, none) hstatic (by simp)
  have hleaves : (bootState paths).deadLeaves = [] := by
    show (paths.foldl vfsRootRegister (staticState, none)).1.deadLeaves = []
    rw [(registered_foldl (staticState, none)).eq]
    rfl
  refine ⟨⟨by simp [hleaves], fun p => ?_, fun p v hv hs => ?_, fun p v hv hs => ?_, fun p v c w hv hd => ?_⟩,
    fun p v hv => ?_, ⟨?_, hstore.backends, hstore.mounts⟩, treeOk_bootState, family_bootState, ?_, ?_⟩
  · rw [hleaves]
    refine ⟨by simp, fun ⟨v, hv, hs⟩ => ?_⟩
    obtain ⟨_, _, rfl⟩ := bootState_proc hv
    contradiction
  · obtain ⟨_, _, rfl⟩ := bootState_proc hv
    contradiction
  · obtain ⟨_, _, rfl⟩ := bootState_proc hv
    contradiction
  · obtain ⟨_, _, rfl⟩ := bootState_proc hv
    contradiction
  · obtain ⟨_, _, rfl⟩ := bootState_proc hv
    exact ⟨by simp [procInit], rfl, rfl, rfl, rfl⟩
  · exact Heap.forall_alloc rfl fun i a _ ha => by simp at ha
  · show (paths.foldl vfsRootRegister (staticState, none)).1.first = 0
    rw [(registered_foldl (staticState, none)).eq]
    rfl
  · obtain ⟨m, hm⟩ := hget
    exact ⟨_, hm, rfl, by simp [procInit]⟩

-- What one operation preserves, and that it runs into no assertion about the dead.
theorem Mortal.op {op : LifeOp} (hs : SharesOk s) (h : Mortal none s) (ho : op.Enabled s) :
    wp (op.run env) (fun _ t => Mortal none t) Fault.Spared s := by
  cases op
  case fork p flags =>
    obtain ⟨v, hv, hrun⟩ := ho
    rw [LifeOp.run, wp_discard]
    exact wp_post (h.fork hs hv hrun) fun _ _ ht => ht.1
  case kill p ret =>
    obtain ⟨hp, v, hv⟩ := ho
    exact h.kill hv (h.first ▸ hp)
  case wait2 p pid flags out =>
    obtain ⟨v, hv, hrun⟩ := ho
    exact h.wait2 hv hrun
  case prune => exact h.pruneLeaves

theorem LifeOp.shares {op : LifeOp} (hs : SharesOk s) (ht : TimerOk s) (ho : op.Enabled s)
    (hr : op.run env s = .ok ((), t)) : SharesOk t ∧ TimerOk t := by
  have hstep {e : Entry} (h : Step s e t) : SharesOk t ∧ TimerOk t :=
    ⟨(h.users hs ht).1, (h.users hs ht).2.1⟩
  cases op
  case kill p ret            => exact hstep (e := .kill p ret) ⟨trivial, env, hr⟩
  case wait2 p pid flags out => exact hstep (e := .syscall p (.wait2 pid flags out)) ⟨ho, env, hr⟩
  case prune                 => exact hstep (e := .prune) ⟨trivial, env, hr⟩
  case fork p flags          =>
    have hspec : wlp (discard <| procFork p flags) (fun _ t => SharesOk t ∧ TimerOk t) s :=
      wlp_discard.mpr <| wlp_post (procFork_spec hs) fun _ _ h => ⟨h.1, h.2.timer ht⟩
    exact wlp_of_ok (Q := fun _ t => SharesOk t ∧ TimerOk t) hr hspec

theorem LifeRun.mortal (hr : LifeRun paths s) : SharesOk s ∧ TimerOk s ∧ Mortal none s := by
  induction hr
  case boot => exact ⟨sharesOk_bootState, timerOk_bootState, mortal_bootState⟩
  case step ho hr hi =>
    have ⟨hs, ht⟩ := LifeOp.shares hi.1 hi.2.1 ho hr
    exact ⟨hs, ht, wp_of_ok (Q := fun _ t => Mortal none t) hr (hi.2.2.op hi.1 ho)⟩

-- The dead are in order after every operation, and none of the assertions about them fails.
theorem LifeRun.lifeOk (hr : LifeRun paths s) : LifeOk s ∧
    ∀ (op : LifeOp) (env : Env) (e : Fault), op.Enabled s → op.run env s = .error e → e.ofDeath = false :=
  have ⟨hs, _, hm⟩ := hr.mortal
  ⟨hm.toLifeOk, fun _ _ _ ho he => wp_of_error (E := Fault.Spared) he (hm.op hs ho)⟩

-- The first process has a child which nobody will ask for, and the child dies.
theorem LifeRun.lifeOk_buried : ∃ s, LifeRun [[]] s ∧ s.deadLeaves = [1] ∧ LifeOk s := by
  have hrun : ∃ s t, LifeOp.run quietEnv (.fork 0 FORK_NOREAP) (bootState [[]]) = .ok ((), s) ∧
      s.first = 0 ∧ (∃ v, s.procs.get 1 = some v) ∧
      LifeOp.run quietEnv (.kill 1 0) s = .ok ((), t) ∧ t.deadLeaves = [1] :=
    ⟨_, _, rfl, rfl, ⟨_, rfl⟩, rfl, rfl⟩
  have ⟨s, t, hfork, hfirst, hchild, hkill, hleaves⟩ := hrun
  have hs : LifeRun [[]] s := @LifeRun.step _ _ _ (.fork 0 FORK_NOREAP) _ .boot ⟨_, rfl, rfl⟩ hfork
  have ht : LifeRun [[]] t := @LifeRun.step _ _ _ (.kill 1 0) _ hs ⟨by simp [hfirst], hchild⟩ hkill
  exact ⟨t, ht, hleaves, ht.lifeOk.1⟩

end Run
end Camellia
