import Camellia.Kernel.Family
import Camellia.Kernel.Wait

namespace Camellia

-- The assertions of `proc_setstate`, `proc_tryreap` and `proc_prune_leaves`.
def Site.ofDeath : Site → Bool
  | .procSetstate | .procTryreapDead | .procTryreapChild | .procTryreapTombstone
  | .procTryreapToreap | .procTryreapLeaf | .procTryreapRefcount | .procTryreapDeadleaf
  | .procPruneLeaves => true
  | _                => false

-- Such an assertion fails, a link leads to a freed process, or a walk along the links does not end.
def Fault.ofDeath : Fault → Bool
  | .assert site                      => site.ofDeath
  | .useAfterFree .proc | .outOfFuel  => true
  | _                                 => false

abbrev Fault.Spared (e : Fault) : Prop :=
  e.ofDeath = false

-- What a process is if it never used a handle, and no one created a namespace.
structure Proc.Plain (v : Proc) : Prop where
  state      : v.state ∉ [.freed, .waits4fs, .waits4request, .waits4pipe, .waits4timer]
  refcount   : v.refcount = 0
  controlled : v.controlled = none
  reqslot    : v.reqslot = none
  pns        : v.pns = 0

-- The objects which belong to no process. A mount lies over older ones.
structure Store (s : State) : Prop where
  tables   : ∀ t table, s.tables.get t = some table → table = fun _ => none
  backends : ∀ b v, s.backends.get b = some v → v.access = .kern none
  mounts   : ∀ m v n, s.mounts.get m = some v → v.prev = some n → n < m

-- What the processes know about the death of the others. Only `x` may be a tombstone without
-- children.
structure Ordered (x : Option Pid) (s : State) : Prop where
  nodup     : s.deadLeaves.Nodup
  leaves    : ∀ p, p ∈ s.deadLeaves ↔ ∃ v, s.procs.get p = some v ∧ v.state = .deadleaf
  leaf      : ∀ p v, s.procs.get p = some v → v.state = .deadleaf → v.child = none
  tombstone : ∀ p v, s.procs.get p = some v → v.state = .tombstone → x = some p ∨ v.child ≠ none
  toreap    : ∀ p v c w, s.procs.get p = some v → v.state.alive = false → s.procs.get c = some w →
    w.parent = some p → w.state ≠ .toreap

structure Mortal (x : Option Pid) (s : State) : Prop where
  ordered : Ordered x s
  plain   : ∀ p v, s.procs.get p = some v → v.Plain
  store   : Store s
  tree    : TreeOk s
  family  : Family s
  first   : s.first = 0
  init    : ∃ v, s.procs.get 0 = some v ∧ v.state.alive ∧ v.state ≠ .dying

section Links

variable {s : State} {x : Option Pid} {p q c : Pid} {v w : Proc} {o : Option Pid}

theorem chain_of_siblings (h : Forest.Siblings (procLinks s) o c) : SiblingChain s o c := by
  induction h
  case here         => exact .here
  case next ha _ hi =>
    obtain ⟨v, hv, rfl⟩ := get_of_procLinks ha
    exact .next hv hi

-- Every process but the first one is on the list of the children of its parent.
theorem Family.chain (h : Family s) (hw : s.procs.get c = some w) (hc : c ≠ 0) :
    ∃ p v, w.parent = some p ∧ s.procs.get p = some v ∧ SiblingChain s v.child c := by
  obtain ⟨f, hl, _, hall⟩ := h
  cases hl.siblings (hall c w hw) (procLinks_of_get hw)
  case inl h =>
    cases h.2
    case here       => contradiction
    case next ha hs =>
      obtain rfl := Option.some_inj.mp (hl.1.symm.trans ha)
      cases hs
  case inr h =>
    obtain ⟨p, u, hu, hp, hs⟩ := h
    obtain ⟨v, hv, rfl⟩ := get_of_procLinks hu
    exact ⟨p, v, hp, hv, chain_of_siblings hs⟩

-- No link leads to a freed process.
theorem Family.points (h : Family s) (hv : s.procs.get p = some v)
    (hq : v.child = some q ∨ v.sibling = some q) : ∃ w, s.procs.get q = some w := by
  obtain ⟨f, hl, _, hall⟩ := h
  have ⟨_, hw⟩ := hl.get (hl.points (hall p v hv) ⟨_, procLinks_of_get hv, hq⟩)
  have ⟨w, hw, _⟩ := get_of_procLinks hw
  exact ⟨w, hw⟩

theorem TreeOk.parent_zero (h : TreeOk s) (hv : s.procs.get 0 = some v) : v.parent = none := by
  cases hp : v.parent
  case none   => rfl
  case some q => exact absurd (h.parent 0 v q hv hp) (Nat.not_lt_zero _)

theorem Mortal.parent (h : Mortal x s) (hw : s.procs.get c = some w) (hp : w.parent = some p) :
    ∃ v, s.procs.get p = some v ∧ SiblingChain s v.child c := by
  have hc : c ≠ 0 := fun hc => by
    rw [h.tree.parent_zero (hc ▸ hw)] at hp
    contradiction
  obtain ⟨q, v, hq, hv⟩ := h.family.chain hw hc
  obtain rfl := Option.some_inj.mp (hq.symm.trans hp)
  exact ⟨v, hv⟩

-- The first process never dies.
theorem Mortal.ne_zero (h : Mortal x s) (hv : s.procs.get p = some v) (hd : v.state.alive = false) :
    p ≠ 0 := fun hp => by
  obtain ⟨u, hu, halive, _⟩ := h.init
  obtain rfl := Option.some_inj.mp (hv.symm.trans (hp ▸ hu))
  rw [hd] at halive
  contradiction

theorem SiblingChain.ne_none (h : SiblingChain s o c) : o ≠ none := by
  cases h <;> simp

end Links

section Set

variable {s t : State} {x y : Option Pid} {p q c : Pid} {v w : Proc} {l : List Pid}

-- A process gets another state.
theorem Ordered.set (h : Ordered x s) (hv : s.procs.get p = some v) (hc : w.child = v.child)
    (hp : w.parent = v.parent) (hne : v.parent ≠ some p) (hl : l.Nodup)
    (hmem : ∀ q, q ∈ l ↔ if q = p then w.state = .deadleaf else q ∈ s.deadLeaves)
    (hleaf : w.state = .deadleaf → v.child = none)
    (htomb : w.state = .tombstone → y = some p ∨ v.child ≠ none)
    (hx : ∀ q, x = some q → q = p ∨ y = some q)
    (hdead : w.state.alive = false → ∀ c u, s.procs.get c = some u → u.parent = some p →
      u.state ≠ .toreap)
    (hreap : w.state = .toreap → ∀ q u, v.parent = some q → s.procs.get q = some u →
      u.state.alive) :
    Ordered y ((s.withProcs (s.procs.set p w)).withDeadLeaves l) := by
  have hget (q : Pid) : ((s.withProcs (s.procs.set p w)).withDeadLeaves l).procs.get q =
      if q = p then some w else s.procs.get q := Heap.get_set hv
  refine ⟨hl, fun q => ?_, fun q u hu hs => ?_, fun q u hu hs => ?_, fun q u c z hu hs hz hq => ?_⟩
  · rw [hget]
    refine (hmem q).trans ?_
    by_cases hq : q = p
    case pos => simp [hq]
    case neg => simp only [if_neg hq, h.leaves]
  · rw [hget] at hu
    by_cases hq : q = p
    case pos =>
      rw [if_pos hq, Option.some_inj] at hu
      exact hu ▸ hc.trans (hleaf (hu ▸ hs))
    case neg => exact h.leaf q u (by simpa [hq] using hu) hs
  · rw [hget] at hu
    by_cases hq : q = p
    case pos =>
      rw [if_pos hq, Option.some_inj] at hu
      subst hu hq
      rw [hc]
      exact htomb hs
    case neg =>
      refine (h.tombstone q u (by simpa [hq] using hu) hs).imp (fun hxq => ?_) id
      exact (hx q hxq).resolve_left hq
  · rw [hget] at hu hz
    by_cases hqp : q = p
    case pos =>
      rw [if_pos hqp, Option.some_inj] at hu
      subst hu hqp
      by_cases hcq : c = q
      case pos =>
        rw [if_pos hcq, Option.some_inj] at hz
        subst hz
        exact absurd (hp ▸ hq) hne
      case neg => exact hdead hs c z (by simpa [hcq] using hz) hq
    case neg =>
      rw [if_neg hqp] at hu
      by_cases hcp : c = p
      case pos =>
        rw [if_pos hcp, Option.some_inj] at hz
        subst hz
        intro hr
        have := hreap hr q u (hp ▸ hq) hu
        rw [hs] at this
        contradiction
      case neg => exact h.toreap q u c z hu hs (by simpa [hcp] using hz) hq

-- The list of the dead leaves stays as it is.
theorem Ordered.setSame (h : Ordered x s) (hv : s.procs.get p = some v) (hc : w.child = v.child)
    (hp : w.parent = v.parent) (hne : v.parent ≠ some p)
    (hstate : w.state = .deadleaf ↔ v.state = .deadleaf)
    (htomb : w.state = .tombstone → y = some p ∨ v.child ≠ none)
    (hx : ∀ q, x = some q → q = p ∨ y = some q)
    (hdead : w.state.alive = false → ∀ c u, s.procs.get c = some u → u.parent = some p →
      u.state ≠ .toreap)
    (hreap : w.state = .toreap → ∀ q u, v.parent = some q → s.procs.get q = some u →
      u.state.alive) :
    Ordered y (s.withProcs (s.procs.set p w)) := by
  refine h.set hv hc hp hne h.nodup (fun q => ?_) (fun hs => h.leaf p v hv (hstate.mp hs)) htomb hx hdead hreap
  by_cases hq : q = p
  case pos =>
    rw [if_pos hq, hstate, hq, h.leaves]
    refine ⟨fun ⟨u, hu, hs⟩ => ?_, fun hs => ⟨v, hv, hs⟩⟩
    exact Option.some_inj.mp (hv.symm.trans hu) ▸ hs
  case neg => rw [if_neg hq]

theorem Store.congr (h : Store s) (ht : t.tables = s.tables) (hb : t.backends = s.backends)
    (hm : t.mounts = s.mounts) : Store t :=
  ⟨ht ▸ h.tables, hb ▸ h.backends, hm ▸ h.mounts⟩

theorem Mortal.set (h : Mortal x s) (hv : s.procs.get p = some v) (hk : v.Kin w) (hplain : w.Plain)
    (hinit : p = 0 → w.state.alive ∧ w.state ≠ .dying)
    (hord : Ordered y ((s.withProcs (s.procs.set p w)).withDeadLeaves l)) :
    Mortal y ((s.withProcs (s.procs.set p w)).withDeadLeaves l) := by
  have hget (q : Pid) : ((s.withProcs (s.procs.set p w)).withDeadLeaves l).procs.get q =
      if q = p then some w else s.procs.get q := Heap.get_set hv
  have hset : Linked s (s.withProcs (s.procs.set p w)) := touches_set trivial hv hk
  have htouch : Linked s ((s.withProcs (s.procs.set p w)).withDeadLeaves l) :=
    ⟨hset.procs, hset.same, hset.nextPid⟩
  refine ⟨hord, fun q u hu => ?_, h.store.congr rfl rfl rfl, h.tree.touches htouch,
    h.family.of_links htouch.links, h.first, ?_⟩
  · rw [hget] at hu
    by_cases hq : q = p
    case pos =>
      rw [if_pos hq, Option.some_inj] at hu
      exact hu ▸ hplain
    case neg => exact h.plain q u (by simpa [hq] using hu)
  · by_cases hp : 0 = p
    case pos => exact ⟨w, (hget 0).trans (if_pos hp), hinit hp.symm⟩
    case neg =>
      obtain ⟨u, hu, hinit⟩ := h.init
      exact ⟨u, (hget 0).trans ((if_neg hp).trans hu), hinit⟩

theorem Mortal.not_own_parent (h : Mortal x s) (hv : s.procs.get p = some v) : v.parent ≠ some p :=
  fun hp => absurd (h.tree.parent p v p hv hp) (lt_irrefl _)

-- Only what the life cycle depends on matters.
theorem Mortal.congr (h : Mortal x s) (hp : t.procs = s.procs) (hl : t.deadLeaves = s.deadLeaves)
    (hf : t.first = s.first) (hs : Store t) : Mortal x t where
  ordered := ⟨hl ▸ h.ordered.nodup, by rw [hl, hp]; exact h.ordered.leaves, hp ▸ h.ordered.leaf,
    hp ▸ h.ordered.tombstone, hp ▸ h.ordered.toreap⟩
  plain   := hp ▸ h.plain
  store   := hs
  tree    := ⟨hp ▸ h.tree.parent, hp ▸ h.tree.sibling, hp ▸ h.tree.child, hp ▸ h.tree.pns⟩
  family  := h.family.of_links (by unfold procLinks; rw [hp])
  first   := hf.trans h.first
  init    := hp ▸ h.init

theorem Mortal.weaken (h : Mortal none s) : Mortal x s :=
  { h with ordered := { h.ordered with
      tombstone := fun p v hv hs => .inr ((h.ordered.tombstone p v hv hs).resolve_left (by simp)) } }

-- The exception is not needed for a process which is no tombstone or has children.
theorem Mortal.settle (h : Mortal (some p) s) (hv : s.procs.get p = some v)
    (hn : v.state = .tombstone → v.child ≠ none) : Mortal none s :=
  { h with ordered := { h.ordered with
      tombstone := fun q u hu hs => .inr <| by
        cases h.ordered.tombstone q u hu hs
        case inr h  => exact h
        case inl hq =>
          obtain rfl := Option.some_inj.mp hq
          obtain rfl := Option.some_inj.mp (hv.symm.trans hu)
          exact hn hs } }

end Set

-- How the state of a process may change when another one, or a child of it, is buried.
inductive PState.Fades : PState → PState → Prop
  | same {a : PState} : Fades a a
  | woken : Fades .waits4childdeath .running
  | buried : Fades .toreap .tombstone
  | reaped : Fades .toreap .deadleaf
  | left : Fades .tombstone .deadleaf

structure Fades (s t : State) : Prop where
  linked : Linked s t
  states : ∀ p v w, s.procs.get p = some v → t.procs.get p = some w → v.state.Fades w.state

theorem PState.Fades.trans {a b c : PState} (h₁ : a.Fades b) (h₂ : b.Fades c) : a.Fades c := by
  cases h₁ <;> cases h₂ <;> constructor

theorem PState.Fades.dying {b : PState} (h : PState.dying.Fades b) : b = .dying := by
  cases h
  rfl

theorem PState.Fades.toreap {a : PState} (h : a.Fades .toreap) : a = .toreap := by
  cases h
  rfl

instance : IsPreorder State Fades where
  refl _ := ⟨refl_of Linked _, fun _ _ _ hv hw => Option.some_inj.mp (hv.symm.trans hw) ▸ .same⟩
  trans _ _ _ h₁ h₂ := ⟨trans_of Linked h₁.linked h₂.linked, fun p v x hv hx => by
    have ⟨w, hw, _⟩ := h₁.linked.procs.of_get hv
    exact (h₁.states p v w hv hw).trans (h₂.states p w x hw hx)⟩

section Tryreap

variable {s t : State} {x : Option Pid} {R : Unit → State → Prop} {E : Fault → Prop}
variable {p q c dead child : Pid} {v w : Proc} {o : Option Pid} {fuel : ℕ} {state : PState}

theorem fades_set (hv : s.procs.get p = some v) (hk : v.Kin w) (hs : v.state.Fades w.state) :
    Fades s (s.withProcs (s.procs.set p w)) where
  linked := touches_set trivial hv hk
  states q u z hu hz := by
    rw [State.withProcs_procs, Heap.get_set hv] at hz
    by_cases hq : q = p
    case pos =>
      rw [if_pos hq, Option.some_inj] at hz
      obtain rfl := Option.some_inj.mp (hv.symm.trans (hq ▸ hu))
      exact hz ▸ hs
    case neg =>
      obtain rfl := Option.some_inj.mp ((if_neg hq).symm.trans hz |>.symm.trans hu |>.symm)
      exact .same

theorem Fades.congr {u : State} (h : Fades s t) (hp : u.procs = t.procs) (hn : u.nextPid = t.nextPid) :
    Fades s u :=
  ⟨⟨hp ▸ h.linked.procs, hp ▸ h.linked.same, hn.trans h.linked.nextPid⟩, hp ▸ h.states⟩

-- When `proc_setstate` may be called for a state other than `PS_TOREAP`.
def PState.Allows (old : PState) : PState → Prop
  | .freed             => old = .deadleaf
  | .deadleaf          => old = .tombstone
  | .tombstone         => old = .toreap ∨ old = .dying
  | .toreap            => False
  | .running | .dying  => True
  | _                  => old = .running

theorem wp_procSetstate (state : PState) (hv : s.procs.get p = some v) (hf : v.state ≠ .freed)
    (ha : v.state.Allows state)
    (h : R () (s.withProcs (s.procs.set p { v with state := state }))) :
    wp (procSetstate p state) R E s := by
  simp only [procSetstate, wp_bind, wp_getProc, hv, Option.elim_some, wp_kassert]
  refine ⟨fun _ => ?_, fun hn => absurd hf hn⟩
  cases state
  case toreap => exact ha.elim
  all_goals
    simp only [PState.Allows] at ha
    simp only [wp_bind, wp_kassert, wp_updProc, hv, Option.elim_some, ha, true_implies,
      not_true_eq_false, false_implies, and_true]
    exact h

theorem SiblingChain.get (hf : Family s) (hc : SiblingChain s o c) (ho : ∀ q, o = some q → ∃ w, s.procs.get q = some w) :
    ∃ w, s.procs.get c = some w := by
  induction hc
  case here         => exact ho _ rfl
  case next hv _ hi => exact hi fun q hq => hf.points hv (.inr hq)

theorem wp_procTryreapChildren (ht : TreeOk s) (hc : ∀ c, SiblingChain s o c → ∃ w, s.procs.get c = some w ∧
    w.state ≠ .toreap) (hlt : ∀ q, o = some q → q < fuel) :
    wp (procTryreapChildren fuel o) (fun _ t => t = s) E s := by
  induction fuel generalizing o
  case zero =>
    cases o
    case none   => exact wp_pure.mpr rfl
    case some p => exact absurd (hlt p rfl) (Nat.not_lt_zero _)
  case succ fuel hi =>
    cases o
    case none   => exact wp_pure.mpr rfl
    case some p =>
      obtain ⟨v, hv, hs⟩ := hc p .here
      simp only [procTryreapChildren, wp_bind, wp_getProc, hv, Option.elim_some, wp_kassert]
      refine ⟨fun _ => hi (fun c h => hc c (.next hv h)) fun q hq => ?_, fun h => absurd hs h⟩
      exact lt_of_lt_of_le (ht.sibling p v q hv hq).1 (Nat.lt_succ_iff.mp (hlt p rfl))

-- The walk ends at a process without children.
theorem wp_procTryreapDescend (hf : Family s) (ht : TreeOk s) (hv : s.procs.get p = some v)
    (hlt : s.procs.size < fuel + p) :
    wp (procTryreapDescend fuel p) (fun q t => t = s ∧ p ≤ q ∧ ∃ w, s.procs.get q = some w ∧
      w.child = none) E s := by
  induction fuel generalizing p v
  case zero => exact absurd (Heap.lt_size hv) (by omega)
  case succ fuel hi =>
    simp only [procTryreapDescend, wp_bind, wp_getProc, hv, Option.elim_some]
    cases hc : v.child
    case none   => exact wp_pure.mpr ⟨rfl, le_rfl, v, hv, hc⟩
    case some c =>
      obtain ⟨w, hw⟩ := hf.points hv (.inl hc)
      have hpc : p < c := ht.parent c w p hw ((ht.child p v c hv hc).2 w hw)
      have hfuel : fuel + 1 + p ≤ fuel + c := by
        rw [Nat.add_assoc, Nat.add_comm 1]
        exact Nat.add_le_add_left hpc fuel
      refine wp_post (hi hw (lt_of_lt_of_le hlt hfuel)) ?_
      rintro q _ ⟨rfl, hle, hq⟩
      exact ⟨rfl, hpc.le.trans hle, hq⟩

-- The checks on the children of a tombstone pass.
theorem Mortal.check (h : Mortal (some dead) s) (hv : s.procs.get dead = some v)
    (hd : v.state.alive = false) (hc : v.child = some child) :
    wp (procTryreapCheck child) (fun _ t => t = s) E s := by
  obtain ⟨w, hw⟩ := h.family.points hv (.inl hc)
  have hparent : w.parent = some dead := (h.tree.child dead v child hv hc).2 w hw
  have hlt : dead < child := h.tree.parent child w dead hw hparent
  have hstart : Starts s dead (some child) := fun c z hc hz => by
    obtain rfl := Option.some_inj.mp hc
    exact Option.some_inj.mp (hw.symm.trans hz) ▸ hparent
  have hsize := Heap.lt_size hw
  simp only [procTryreapCheck, wp_bind, wp_get]
  refine wp_post (Q := fun _ t => t = s) (wp_procTryreapChildren h.tree (fun c hc' => ?_) fun q hq => ?_) fun _ t ht => ?_
  · obtain ⟨z, hz⟩ := hc'.get h.family fun q hq => ⟨w, Option.some_inj.mp hq ▸ hw⟩
    exact ⟨z, hz, h.ordered.toreap dead v c z hv hd hz (hc'.parent h.tree hstart hz)⟩
  · obtain rfl := Option.some_inj.mp hq
    exact hsize.trans (Nat.lt_succ_self _)
  subst t
  rw [wp_bind]
  have hfuel : s.procs.size < s.procs.size + 1 + child :=
    (Nat.lt_succ_self _).trans_le (Nat.le_add_right _ _)
  refine wp_post (wp_procTryreapDescend h.family h.tree hw hfuel) ?_
  rintro leaf _ ⟨rfl, hle, u, hu, huc⟩
  have hleaf : leaf ≠ 0 := by
    have := lt_of_lt_of_le hlt hle
    exact (lt_of_le_of_lt (Nat.zero_le _) this).ne'
  simp only [wp_getProc, hu, Option.elim_some, wp_ite, wp_bind, wp_nonNull, wp_kassert]
  refine ⟨fun hs => ?_, fun hs => ⟨fun _ => trivial, fun hn => ?_⟩⟩
  · obtain ⟨q, z, hq, hz, _⟩ := h.family.chain hu hleaf
    simp only [hq, hz, Option.elim_some]
    refine ⟨fun _ => trivial, fun hn => ?_⟩
    exact absurd hs (h.ordered.toreap q z leaf u hz (by simpa using hn) hu hq)
  · rw [not_or] at hn
    have hstate := (h.plain leaf u hu).state
    have htomb : u.state = .tombstone := by
      revert hs hn hstate
      cases u.state <;> simp [PState.alive]
    cases h.ordered.tombstone leaf u hu htomb
    case inl h => exact absurd (Option.some_inj.mp h) (lt_of_lt_of_le hlt hle).ne
    case inr h => exact absurd huc h

theorem Proc.Plain.grave (hp : v.Plain) (hd : v.state.alive = false) :
    v.state = .toreap ∨ v.state = .tombstone ∨ v.state = .deadleaf := by
  have := hp.state
  revert this hd
  cases v.state <;> simp [PState.alive]

theorem Mortal.tombstone (h : Mortal (some dead) s) (hv : s.procs.get dead = some v)
    (hs : v.state = .tombstone ∨ v.state = .deadleaf) :
    wp (procTryreapTombstone dead) (fun _ t => Mortal none t ∧ Fades s t) E s := by
  have hd : v.state.alive = false := by
    cases hs
    case inl hs => rw [hs]; rfl
    case inr hs => rw [hs]; rfl
  have hzero := h.ne_zero hv hd
  obtain ⟨q, u, hq, hu, hchain⟩ := h.family.chain hv hzero
  simp only [procTryreapTombstone, wp_bind, wp_getProc, hv, Option.elim_some]
  cases hc : v.child
  case some c =>
    simp only [wp_bind, wp_kassert]
    refine ⟨fun _ => wp_post (h.check hv hd hc) ?_, fun hn => ?_⟩
    · rintro _ _ rfl
      exact ⟨h.settle hv fun _ => by simp [hc], refl_of Fades _⟩
    · have := h.ordered.leaf dead v hv (hs.resolve_left hn)
      rw [hc] at this
      contradiction
  case none =>
    have hplain := h.plain dead v hv
    simp only [hq, procTryreapLeaf, wp_bind, wp_kassert, wp_ite, hplain.refcount, true_implies,
      not_true_eq_false, false_implies, and_true]
    refine ⟨fun hs => ?_, fun hs' => ⟨fun _ => ?_, fun hn => absurd (hs.resolve_left hs') hn⟩⟩
    · refine wp_procSetstate _ hv (by simp [hs]) hs ?_
      rw [wp_modify]
      have hmem : dead ∉ s.deadLeaves := fun hm => by
        obtain ⟨z, hz, hz'⟩ := (h.ordered.leaves dead).mp hm
        obtain rfl := Option.some_inj.mp (hv.symm.trans hz)
        rw [hs] at hz'
        contradiction
      have hord : Ordered none ((s.withProcs (s.procs.set dead { v with state := .deadleaf })).withDeadLeaves
          (dead :: s.deadLeaves)) := by
        refine h.ordered.set hv rfl rfl (h.not_own_parent hv) (List.nodup_cons.mpr ⟨hmem, h.ordered.nodup⟩)
          (fun q => ?_) (fun _ => hc) (by simp) (fun q hq => .inl (Option.some_inj.mp hq).symm)
          (fun _ c u => h.ordered.toreap dead v c u hv hd) (by simp)
        by_cases hq : q = dead <;> simp [hq]
      have hstate : ({ v with state := .deadleaf } : Proc).Plain :=
        ⟨by simp, hplain.refcount, hplain.controlled, hplain.reqslot, hplain.pns⟩
      have hfade : Fades s (s.withProcs (s.procs.set dead { v with state := .deadleaf })) :=
        fades_set hv ⟨rfl, rfl, rfl, rfl, rfl, rfl, rfl⟩ (hs ▸ .left)
      refine ⟨h.set hv ⟨rfl, rfl, rfl, rfl, rfl, rfl, rfl⟩ hstate (fun hz => absurd hz hzero) hord, ?_⟩
      exact hfade.congr rfl rfl
    · exact ⟨h.settle hv fun ht => absurd ht hs', refl_of Fades _⟩

theorem Proc.Plain.congr (h : v.Plain) (hs : w.state ∉ [.freed, .waits4fs, .waits4request, .waits4pipe, .waits4timer])
    (hr : w.refcount = v.refcount) (hc : w.controlled = v.controlled) (hq : w.reqslot = v.reqslot)
    (hp : w.pns = v.pns) : w.Plain :=
  ⟨hs, hr.trans h.refcount, hc.trans h.controlled, hq.trans h.reqslot, hp.trans h.pns⟩

-- A process whose return value nobody will ask for.
theorem Mortal.bury (h : Mortal (some dead) s) (hv : s.procs.get dead = some v) (hs : v.state = .toreap) :
    wp (procTryreapBury dead) (fun _ t => Mortal (some dead) t ∧ Fades s t ∧
      ∃ w, t.procs.get dead = some w ∧ w.state = .tombstone) E s := by
  have hd : v.state.alive = false := by rw [hs]; rfl
  have hset : ∀ w, w = { v with state := .tombstone, noreap := true } →
      Mortal (some dead) (s.withProcs (s.procs.set dead w)) ∧ Fades s (s.withProcs (s.procs.set dead w)) ∧
        w.state = .tombstone := by
    rintro w rfl
    have hord : Ordered (some dead) (s.withProcs (s.procs.set dead
        { v with state := .tombstone, noreap := true })) :=
      h.ordered.setSame hv rfl rfl (h.not_own_parent hv) (by simp [hs]) (fun _ => .inl rfl)
        (fun q hq => .inr hq) (fun _ c u => h.ordered.toreap dead v c u hv hd) (by simp)
    have hplain : ({ v with state := .tombstone, noreap := true } : Proc).Plain :=
      (h.plain dead v hv).congr (by simp) rfl rfl rfl rfl
    refine ⟨?_, fades_set hv ⟨rfl, rfl, rfl, rfl, rfl, rfl, rfl⟩ (hs ▸ .buried), rfl⟩
    exact h.set (l := s.deadLeaves) hv ⟨rfl, rfl, rfl, rfl, rfl, rfl, rfl⟩ hplain (fun hz => absurd hz (h.ne_zero hv hd)) hord
  obtain ⟨hm, hf, hstate⟩ := hset _ rfl
  rw [procTryreapBury, wp_bind]
  refine wp_procSetstate _ hv (by simp [hs]) (.inl hs) ?_
  simp only [wp_updProc, State.withProcs_procs, Heap.get_set_self hv, Option.elim_some, Heap.set_set]
  exact ⟨hm, hf, _, rfl, hstate⟩

-- The parent of a dead process returns from its call.
theorem Mortal.wake (ret : Int) (h : Mortal x s) (hv : s.procs.get p = some v)
    (hs : v.state = .waits4childdeath) (hw : w = { v with state := .running, rax := ret }) :
    Mortal x (s.withProcs (s.procs.set p w)) ∧ Fades s (s.withProcs (s.procs.set p w)) := by
  subst hw
  have hord : Ordered x (s.withProcs (s.procs.set p { v with state := .running, rax := ret })) :=
    h.ordered.setSame hv rfl rfl (h.not_own_parent hv) (by simp [hs]) (by simp) (fun q hq => .inr hq)
      (by simp [PState.alive]) (by simp)
  have hplain : ({ v with state := .running, rax := ret } : Proc).Plain :=
    (h.plain p v hv).congr (by simp) rfl rfl rfl rfl
  refine ⟨?_, fades_set hv ⟨rfl, rfl, rfl, rfl, rfl, rfl, rfl⟩ (hs ▸ .woken)⟩
  exact h.set (l := s.deadLeaves) hv ⟨rfl, rfl, rfl, rfl, rfl, rfl, rfl⟩ hplain (fun _ => ⟨rfl, by simp⟩) hord

theorem Mortal.tryreapParent (h : Mortal x s) (hv : s.procs.get dead = some v)
    (hd : v.state.alive = false) (hp : s.procs.get p = some w) (hne : p ≠ dead) :
    wp (procTryreapParent dead p) (fun _ t => Mortal x t ∧ Fades s t ∧ t.procs.get dead = some v) E s := by
  have hpns := (h.plain dead v hv).pns
  have hpns' := (h.plain p w hp).pns
  have hzero := h.ne_zero hv hd
  simp only [procTryreapParent, procNsId, wp_bind, wp_getProc, hp, Option.elim_some, wp_ite, wp_pure]
  refine ⟨fun _ => ⟨h, refl_of Fades s, hv⟩, fun hs => ?_⟩
  have hs : w.state = .waits4childdeath := not_not.mp hs
  refine ⟨fun hz => absurd (hz.trans hpns') hzero, fun _ => ?_⟩
  simp only [hv, Option.elim_some, wp_ite, wp_bind, wp_kassert, wp_pure, hpns, hpns', hzero.symm,
    false_implies, true_implies, not_true_eq_false, not_false_eq_true, true_and, and_true]
  refine ⟨fun _ => ⟨h, refl_of Fades s⟩, fun _ => ?_⟩
  obtain ⟨hm, hf⟩ := h.wake v.localid hp hs rfl
  simp only [regsSavereturn, wp_bind, wp_updProc, wp_getProc, wp_emit, hp, Option.elim_some,
    Heap.get_set_ne hne.symm, hv]
  refine wp_procSetstate .running (Heap.get_set_self hp) (by simp [hs]) trivial ?_
  refine wp_pure.mpr ⟨?_, hf.congr (by simp) rfl, ?_⟩
  · exact hm.congr (by simp) rfl rfl (h.store.congr rfl rfl rfl)
  · simp [Heap.get_set_ne hne.symm, hv]

-- If a process is left for its parent to ask for, then the parent will.
def Left (s : State) (dead : Pid) (v : Proc) (t : State) : Prop :=
  ∀ w, t.procs.get dead = some w → w.state = .toreap →
    ∀ q u, v.parent = some q → s.procs.get q = some u → u.state ≠ .dying

theorem Mortal.tryreapToreap (h : Mortal (some dead) s) (hv : s.procs.get dead = some v)
    (hs : v.state = .toreap) :
    wp (procTryreapToreap dead) (fun b t => Mortal (some dead) t ∧ Fades s t ∧ Left s dead v t ∧
      ∃ w, t.procs.get dead = some w ∧ w.state = if b then .tombstone else .toreap) E s := by
  have hd : v.state.alive = false := by rw [hs]; rfl
  have hzero := h.ne_zero hv hd
  obtain ⟨q, u, hq, hu, _⟩ := h.family.chain hv hzero
  have hqd : q ≠ dead := (h.tree.parent dead v q hv hq).ne
  have hbury {t : State} (h : Mortal (some dead) t) (hf : Fades s t) (hv : t.procs.get dead = some v) :
      wp (do procTryreapBury dead; pure true : K Bool) (fun b t => Mortal (some dead) t ∧ Fades s t ∧
        Left s dead v t ∧ ∃ w, t.procs.get dead = some w ∧ w.state = if b then .tombstone else .toreap) E t := by
    rw [wp_bind]
    refine wp_post (h.bury hv hs) ?_
    rintro _ r ⟨hm, hf', w, hw, hstate⟩
    refine wp_pure.mpr ⟨hm, trans_of Fades hf hf', fun w' hw' hr => ?_, w, hw, hstate⟩
    obtain rfl := Option.some_inj.mp (hw.symm.trans hw')
    rw [hstate] at hr
    contradiction
  simp only [procTryreapToreap, procReapable, wp_bind, wp_getProc, hv, hq, hu, Option.elim_some, wp_pure]
  split
  · exact hbury h (refl_of Fades s) hv
  · rename_i parent hr
    obtain ⟨⟨_, _, hdying⟩, rfl⟩ : (¬v.noreap = true ∧ u.state.alive = true ∧ u.state ≠ .dying) ∧ q = parent := by
      split at hr
      · exact ⟨‹_›, Option.some_inj.mp hr⟩
      · contradiction
    rw [wp_bind]
    refine wp_post (h.tryreapParent hv hd hu hqd) ?_
    rintro b t ⟨hm, hf, hv'⟩
    rw [wp_ite]
    refine ⟨fun _ => hbury hm hf hv', fun hb => wp_pure.mpr ⟨hm, hf, fun _ _ _ q' u' hq' hu' => ?_, v, hv', hs⟩⟩
    obtain rfl := Option.some_inj.mp (hq.symm.trans hq')
    exact Option.some_inj.mp (hu.symm.trans hu') ▸ hdying

-- No assertion of `proc_tryreap` fails, and it takes care of the process.
theorem Mortal.tryreap (h : Mortal (some dead) s) (hv : s.procs.get dead = some v)
    (hd : v.state.alive = false) :
    wp (procTryreap dead) (fun _ t => Mortal none t ∧ Fades s t ∧ Left s dead v t) E s := by
  have hzero := h.ne_zero hv hd
  obtain ⟨q, u, hq, hu, hchain⟩ := h.family.chain hv hzero
  have htomb {t : State} {w : Proc} (h : Mortal (some dead) t) (hf : Fades s t)
      (hw : t.procs.get dead = some w) (hs : w.state = .tombstone ∨ w.state = .deadleaf) :
      wp (procTryreapTombstone dead) (fun _ t => Mortal none t ∧ Fades s t ∧ Left s dead v t) E t := by
    refine wp_post (h.tombstone hw hs) ?_
    rintro _ r ⟨hm, hf'⟩
    refine ⟨hm, trans_of Fades hf hf', fun z hz hr => ?_⟩
    have hfade := hf'.states dead w z hw hz
    rw [hr] at hfade
    cases hs
    case inl hs => rw [hs] at hfade; cases hfade
    case inr hs => rw [hs] at hfade; cases hfade
  simp only [procTryreap, procTryreapStart, wp_bind, wp_getProc, wp_kassert, hv, hq, hu,
    Option.elim_some, hd, Bool.false_eq_true, not_false_eq_true, not_true_eq_false, true_implies,
    false_implies, and_true, hchain.ne_none, ne_eq, wp_ite]
  refine ⟨fun hs => ?_, fun hs => ?_⟩
  · refine wp_post (h.tryreapToreap hv hs) ?_
    rintro b t ⟨hm, hf, hl, w, hw, hstate⟩
    cases b
    case true  => simpa using htomb hm hf hw (.inl hstate)
    case false =>
      have hn : w.state ≠ .tombstone := by
        rw [hstate]
        simp
      simpa using ⟨hm.settle hw fun h => absurd h hn, hf, hl⟩
  · exact htomb h (refl_of Fades s) hv (((h.plain dead v hv).grave hd).resolve_left hs)

end Tryreap

section Prune

variable {s t u : State} {x : Option Pid} {E : Fault → Prop} {p q parent first : Pid} {v w : Proc}
variable {next : Option Pid} {fuel : ℕ} {leaves : List Pid}

theorem wp_procUnlinkLoop (ht : TreeOk s) (hc : SiblingChain s (some q) p) (hne : q ≠ p) (hlt : q < fuel) :
    wp (procUnlinkLoop p next fuel q) (fun _ _ => True) E s := by
  induction fuel generalizing q
  case zero => exact absurd hlt (Nat.not_lt_zero _)
  case succ fuel hi =>
    cases hc
    case here       => contradiction
    case next hv hc =>
      simp only [procUnlinkLoop, wp_bind, wp_getProc, hv, Option.elim_some]
      generalize ho : Proc.sibling _ = o at hc
      cases o
      case none   => exact absurd rfl hc.ne_none
      case some r =>
        simp only [wp_ite, wp_updProc, hv, Option.elim_some, implies_true, true_and]
        exact fun hr => hi hc hr ((ht.sibling _ _ r hv ho).1.trans_le (Nat.lt_succ_iff.mp hlt))

-- The pointer to a child is found.
theorem wp_procUnlink (ht : TreeOk s) (hw : s.procs.get parent = some w) (hf : w.child = some first)
    (hc : SiblingChain s w.child p) :
    wp (procUnlink p next parent first) (fun _ _ => True) E s := by
  simp only [procUnlink, wp_ite, wp_updProc, wp_bind, wp_get, hw, Option.elim_some, implies_true, true_and]
  refine fun hne => wp_procUnlinkLoop ht (hf ▸ hc) hne ?_
  exact (ht.child parent w first hw hf).1.trans (Nat.lt_succ_self _)

theorem wp_and_wlp {α : Type} {y : K α} {Q Q' : α → State → Prop} (h : wp y Q E s) (h' : wlp y Q' s) :
    wp y (fun a t => Q a t ∧ Q' a t) E s :=
  wp_of_forall (fun _ _ hr => ⟨wp_of_ok hr h, wlp_of_ok hr h'⟩) fun _ hr => wp_of_error hr h

-- The processes when a dead leaf is unlinked and freed.
theorem Unlinked.get (hu : Unlinked s p next t) {r : Pid} {y : Proc} (hy : t.procs.get r = some y) :
    ∃ z, s.procs.get r = some z ∧ (y = z ∨ z.child = some p ∧ y = { z with child := next } ∨
      z.sibling = some p ∧ y = { z with sibling := next }) := by
  obtain ⟨q, z, hz, hset⟩ := hu
  by_cases hr : r = q
  case pos =>
    subst hr
    refine ⟨z, hz, .inr ?_⟩
    obtain ⟨hc, rfl⟩ | ⟨hs, rfl⟩ := hset
    · exact .inl ⟨hc, Option.some_inj.mp (hy.symm.trans (Heap.get_set_self hz))⟩
    · exact .inr ⟨hs, Option.some_inj.mp (hy.symm.trans (Heap.get_set_self hz))⟩
  case neg =>
    refine ⟨y, ?_, .inl rfl⟩
    obtain ⟨_, rfl⟩ | ⟨_, rfl⟩ := hset
    · rwa [State.withProcs_procs, Heap.get_set_ne hr] at hy
    · rwa [State.withProcs_procs, Heap.get_set_ne hr] at hy

theorem Unlinked.get' (hu : Unlinked s p next t) {r : Pid} {z : Proc} (hz : s.procs.get r = some z) :
    ∃ y, t.procs.get r = some y ∧ y.state = z.state ∧ y.parent = z.parent := by
  obtain ⟨q, x, hx, hset⟩ := hu
  obtain ⟨_, rfl⟩ | ⟨_, rfl⟩ := hset
  all_goals
    by_cases hr : r = q
    case pos =>
      subst hr
      obtain rfl := Option.some_inj.mp (hx.symm.trans hz)
      exact ⟨_, Heap.get_set_self hx, rfl, rfl⟩
    case neg => exact ⟨z, (Heap.get_set_ne hr).trans hz, rfl, rfl⟩

theorem Unlinked.same (hu : Unlinked s p next t) :
    t.deadLeaves = s.deadLeaves ∧ t.first = s.first ∧ t.tables = s.tables ∧ t.backends = s.backends ∧
      t.mounts = s.mounts := by
  obtain ⟨q, x, hx, ⟨_, rfl⟩ | ⟨_, rfl⟩⟩ := hu <;> exact ⟨rfl, rfl, rfl, rfl, rfl⟩

-- A dead leaf is gone. Its parent may be without children now.
theorem Mortal.unlinked (h : Mortal none s) (hv : s.procs.get p = some v) (hs : v.state = .deadleaf)
    (hp : v.parent = some parent) (hl : s.deadLeaves = p :: leaves)
    (hu : Unlinked (s.withDeadLeaves leaves) p v.sibling t) (htree : TreeOk (t.withProcs (t.procs.free p)))
    (hfam : Family (t.withProcs (t.procs.free p))) :
    Mortal (some parent) (t.withProcs (t.procs.free p)) := by
  have hproc {r : Pid} (hr : r ≠ p) : (t.procs.free p).get r = t.procs.get r := Heap.get_free_ne hr
  have hfree : (t.procs.free p).get p = none := Heap.get_free_self
  generalize hut : t.withProcs (t.procs.free p) = u at *
  have hup : u.procs = t.procs.free p := hut ▸ rfl
  rw [← hup] at hproc hfree
  obtain ⟨hl', hfirst', hb₁, hb₂, hb₃⟩ := hu.same
  have hget {r : Pid} {y : Proc} (hy : u.procs.get r = some y) : r ≠ p ∧ ∃ z, s.procs.get r = some z ∧
      (y = z ∨ z.child = some p ∧ y = { z with child := v.sibling } ∨
        z.sibling = some p ∧ y = { z with sibling := v.sibling }) := by
    have hr : r ≠ p := fun hr => by
      rw [hr, hfree] at hy
      contradiction
    rw [hproc hr] at hy
    exact ⟨hr, hu.get hy⟩
  have hsame {r : Pid} {y : Proc} (hy : u.procs.get r = some y) : ∃ z, s.procs.get r = some z ∧
      y.state = z.state ∧ y.parent = z.parent := by
    obtain ⟨_, z, hz, rfl | ⟨_, rfl⟩ | ⟨_, rfl⟩⟩ := hget hy <;> exact ⟨_, hz, rfl, rfl⟩
  have hget' {r : Pid} {z : Proc} (hr : r ≠ p) (hz : s.procs.get r = some z) :
      ∃ y, u.procs.get r = some y ∧ y.state = z.state := by
    obtain ⟨y, hy, hstate, _⟩ := hu.get' hz
    exact ⟨y, (hproc hr).trans hy, hstate⟩
  have hnodup := List.nodup_cons.mp (hl ▸ h.ordered.nodup)
  have hleaves : u.deadLeaves = leaves := hut ▸ hl'
  have hzero := h.ne_zero hv (by rw [hs]; rfl)
  refine ⟨⟨hleaves ▸ hnodup.2, fun r => ?_, fun r y hy hd => ?_, fun r y hy hd => ?_, fun r y c z hy hd hz hc => ?_⟩,
    fun r y hy => ?_, ?_, htree, hfam, hut ▸ hfirst'.trans h.first, ?_⟩
  · rw [hleaves]
    constructor
    · intro hr
      obtain ⟨z, hz, hd⟩ := (h.ordered.leaves r).mp (by rw [hl]; exact .tail _ hr)
      obtain ⟨y, hy, hstate⟩ := hget' (fun hrp => hnodup.1 (hrp ▸ hr)) hz
      exact ⟨y, hy, hstate.trans hd⟩
    · rintro ⟨y, hy, hd⟩
      obtain ⟨z, hz, hstate, _⟩ := hsame hy
      have hr := (h.ordered.leaves r).mpr ⟨z, hz, hstate ▸ hd⟩
      rw [hl, List.mem_cons] at hr
      exact hr.resolve_left (hget hy).1
  · obtain ⟨_, z, hz, rfl | ⟨hc, rfl⟩ | ⟨_, rfl⟩⟩ := hget hy
    · exact h.ordered.leaf r _ hz hd
    · have := h.ordered.leaf r z hz hd
      rw [hc] at this
      contradiction
    · exact h.ordered.leaf r z hz hd
  · obtain ⟨_, z, hz, rfl | ⟨hc, rfl⟩ | ⟨_, rfl⟩⟩ := hget hy
    · exact .inr ((h.ordered.tombstone r _ hz hd).resolve_left (by simp))
    · have := (h.tree.child r z p hz hc).2 v hv
      exact .inl (hp.symm.trans this)
    · exact .inr ((h.ordered.tombstone r z hz hd).resolve_left (by simp))
  · obtain ⟨y', hy', hstate, _⟩ := hsame hy
    obtain ⟨z', hz', hstate', hparent⟩ := hsame hz
    rw [hstate']
    exact h.ordered.toreap r y' c z' hy' (hstate ▸ hd) hz' (hparent ▸ hc)
  · obtain ⟨_, z, hz, rfl | ⟨_, rfl⟩ | ⟨_, rfl⟩⟩ := hget hy
    · exact h.plain r _ hz
    · exact (h.plain r z hz).congr (h.plain r z hz).state rfl rfl rfl rfl
    · exact (h.plain r z hz).congr (h.plain r z hz).state rfl rfl rfl rfl
  · exact h.store.congr (hut ▸ hb₁) (hut ▸ hb₂) (hut ▸ hb₃)
  · obtain ⟨z, hz, halive⟩ := h.init
    obtain ⟨y, hy, hstate⟩ := hget' hzero.symm hz
    exact ⟨y, hy, hstate ▸ halive⟩

-- How many processes there are.
def State.population (s : State) : ℕ :=
  ((Finset.range s.procs.size).filter fun p => (s.procs.get p).isSome).card

theorem population_le : s.population ≤ s.procs.size :=
  (Finset.card_filter_le _ _).trans_eq (Finset.card_range _)

theorem population_congr (hsize : t.procs.size = s.procs.size)
    (h : ∀ p, (∃ w, t.procs.get p = some w) ↔ ∃ v, s.procs.get p = some v) :
    t.population = s.population := by
  simp only [State.population, hsize]
  congr 1
  refine Finset.filter_congr fun p _ => ?_
  rw [Option.isSome_iff_exists, Option.isSome_iff_exists, h]

theorem Touches.population {D : Pid → Prop} (h : Touches D s t) : t.population = s.population :=
  population_congr h.procs.size fun _ => h.procs.some_iff

theorem Unlinked.population (h : Unlinked s p next t) : t.population = s.population := by
  refine population_congr ?_ fun r => ⟨fun hy => ?_, fun hz => ?_⟩
  · obtain ⟨q, x, hx, ⟨_, rfl⟩ | ⟨_, rfl⟩⟩ := h <;> exact Heap.size_set
  · obtain ⟨_, hy⟩ := hy
    obtain ⟨z, hz, _⟩ := h.get hy
    exact ⟨z, hz⟩
  · obtain ⟨_, hz⟩ := hz
    obtain ⟨y, hy, _⟩ := h.get' hz
    exact ⟨y, hy⟩

theorem population_free (hv : s.procs.get p = some v) :
    (s.withProcs (s.procs.free p)).population < s.population := by
  refine Finset.card_lt_card (Finset.ssubset_iff_of_subset (fun q hq => ?_) |>.mpr ⟨p, ?_, ?_⟩)
  · simp only [State.withProcs_procs, Heap.size_free, Finset.mem_filter, Heap.get_free] at hq ⊢
    refine ⟨hq.1, ?_⟩
    by_cases hp : q = p
    case pos => simp [hp] at hq
    case neg => simpa [hp] using hq.2
  · simp [hv, Heap.lt_size hv]
  · simp

-- A dead leaf leaves the tree, and then its parent may be the next one.
theorem Mortal.pruneLeaf (h : Mortal none s) (hl : s.deadLeaves = p :: leaves) :
    wp (procPruneLeaf p leaves) (fun _ t => Mortal none t ∧ t.population < s.population) E s := by
  obtain ⟨v, hv, hs⟩ := (h.ordered.leaves p).mp (by simp [hl])
  have hzero := h.ne_zero hv (by rw [hs]; rfl)
  obtain ⟨parent, w, hp, hw, hchain⟩ := h.family.chain hv hzero
  have hc := h.ordered.leaf p v hv hs
  obtain ⟨first, hf⟩ := Option.ne_none_iff_exists'.mp hchain.ne_none
  have hchain' : SiblingChain (s.withDeadLeaves leaves) w.child p :=
    hchain.touches (touches_of_eq (D := fun _ => True) (s := s) (t := s.withDeadLeaves leaves) rfl rfl)
  have htree : TreeOk (s.withDeadLeaves leaves) := ⟨h.tree.parent, h.tree.sibling, h.tree.child, h.tree.pns⟩
  have hfam : Family (s.withDeadLeaves leaves) := h.family.of_links rfl
  simp only [procPruneLeaf, wp_bind, wp_getProc, hv, Option.elim_some, wp_modify, wp_kassert, hs, hp,
    hw, hf, hc, true_implies, not_true_eq_false, false_implies, and_true]
  refine wp_post (wp_and_wlp (wp_and_wlp (wp_procUnlink htree hw hf hchain')
    (procUnlink_spec (s := s.withDeadLeaves leaves) hw hf)) (procUnlink_tree htree hv hp)) ?_
  rintro _ t ⟨⟨-, hu⟩, ht⟩
  obtain ⟨v', hv', hs', -⟩ := hu.get' hv
  rw [wp_bind]
  refine wp_procSetstate .freed hv' (by simp [hs', hs]) (hs'.trans hs) ?_
  simp only [freeProc, kfree, wp_bind, wp_get, State.withProcs_procs, Heap.get_set_self hv', wp_modify]
  have hset : (t.procs.set p { v' with state := .freed }).free p = t.procs.free p := by
    simp [Heap.free, Heap.set]
  rw [hset]
  have hm : Mortal (some parent) (t.withProcs (t.procs.free p)) :=
    h.unlinked hv hs hp hl hu ht.free (hfam.unlinked hv hc (by simp [hp]) hu)
  have hpop : (t.withProcs (t.procs.free p)).population < s.population :=
    (population_free hv').trans_eq hu.population
  obtain ⟨w', hw', hstate⟩ : ∃ w', (t.procs.free p).get parent = some w' ∧ w'.state = w.state := by
    obtain ⟨w', hw', hstate, -⟩ := hu.get' hw
    exact ⟨w', (Heap.get_free_ne (h.tree.parent p v parent hv hp).ne).trans hw', hstate⟩
  simp only [wp_getProc, hw', Option.elim_some, wp_ite, wp_pure]
  refine ⟨fun hd => ?_, fun ha => ?_⟩
  · refine wp_post (hm.tryreap hw' (by simpa using hd)) ?_
    rintro _ u ⟨hu, hfade, -⟩
    exact ⟨hu, hfade.linked.population.trans_lt hpop⟩
  · refine ⟨hm.settle hw' fun ht => absurd ht ?_, hpop⟩
    intro ht
    rw [ht] at ha
    simp [PState.alive] at ha

theorem Mortal.pruneLeaves (h : Mortal none s) :
    wp procPruneLeaves (fun _ t => Mortal none t) E s := by
  have hloop {fuel : ℕ} {s : State} (h : Mortal none s) (hlt : s.population ≤ fuel) :
      wp (procPruneLeavesLoop fuel) (fun _ t => Mortal none t) E s := by
    induction fuel generalizing s
    case zero =>
      obtain ⟨v, hv, -⟩ := h.init
      have := population_free hv
      omega
    case succ fuel hi =>
      simp only [procPruneLeavesLoop, wp_bind, wp_get]
      cases hl : s.deadLeaves
      case nil  => exact wp_pure.mpr h
      case cons =>
        rw [wp_bind]
        exact wp_post (h.pruneLeaf hl) fun _ t ⟨ht, hpop⟩ => hi ht (by omega)
  simp only [procPruneLeaves, wp_bind, wp_get]
  exact hloop h population_le

end Prune

end Camellia
