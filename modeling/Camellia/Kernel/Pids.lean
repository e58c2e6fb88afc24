import Camellia.Kernel.Family
import Camellia.Kernel.Wait

open Forest

namespace Camellia

-- The ids of the processes in a namespace differ, and the next one is larger as long as there are
-- ids left.
structure NamesOk (s : State) : Prop where
  inherited : NsInherited s
  least     : ∀ ns q v, Inside s ns q v → 2 ≤ v.localid
  unique    : ∀ ns q r v w, Inside s ns q v → Inside s ns r w → v.localid = w.localid → q = r
  next      : s.nextPid ≠ 0 → ∀ ns o, s.procs.get ns = some o → o.pns = ns →
    2 ≤ o.nextlid ∧ o.nextlid ≤ s.nextPid ∧ ∀ q v, Inside s ns q v → v.localid < o.nextlid
  nextPid   : s.nextPid < 2 ^ 32

-- A process keeps its parent, its namespace and its ids.
structure Proc.Named (v w : Proc) : Prop where
  parent   : w.parent = v.parent
  pns      : w.pns = v.pns
  localid  : w.localid = v.localid
  nextlid  : w.nextlid = v.nextlid
  globalid : w.globalid = v.globalid

-- There may be fewer processes than before.
structure Dwindles (s t : State) : Prop where
  size    : t.procs.size = s.procs.size
  procs   : ∀ p w, t.procs.get p = some w → ∃ v, s.procs.get p = some v ∧ v.Named w
  nextPid : t.nextPid = s.nextPid

instance : IsPreorder State Dwindles where
  refl _ := ⟨rfl, fun _ w hw => ⟨w, hw, rfl, rfl, rfl, rfl, rfl⟩, rfl⟩
  trans _ _ _ h₁ h₂ := {
    size    := h₂.size.trans h₁.size
    procs   := fun p x hx => by
      obtain ⟨w, hw, hk⟩ := h₂.procs p x hx
      obtain ⟨v, hv, hk'⟩ := h₁.procs p w hw
      exact ⟨v, hv, hk.parent.trans hk'.parent, hk.pns.trans hk'.pns, hk.localid.trans hk'.localid,
        hk.nextlid.trans hk'.nextlid, hk.globalid.trans hk'.globalid⟩
    nextPid := h₂.nextPid.trans h₁.nextPid }

section Dwindle

variable {s t : State} {D : Pid → Prop} {p q ns : Pid} {v w : Proc}

theorem Touches.dwindles (h : Touches D s t) : Dwindles s t where
  size    := h.procs.size
  procs   := fun _ _ hw =>
    have ⟨v, hv, hk⟩ := h.procs.of_get' hw
    ⟨v, hv, hk.parent, hk.pns, hk.localid, hk.nextlid, hk.globalid⟩
  nextPid := h.nextPid

theorem respects_dwindles {x : K α} (h : Respects Linked x) : Respects Dwindles x :=
  fun s => wlp_post (h s) fun _ _ => Touches.dwindles

theorem updProc_dwindles {f : Proc → Proc} (hf : ∀ v : Proc, v.Named (f v)) :
    Respects Dwindles (updProc p f) := by
  intro s
  rw [wlp_updProc]
  refine fun v hv => ⟨Heap.size_set, fun q w hw => ?_, rfl⟩
  rw [State.withProcs_procs, Heap.get_set hv] at hw
  by_cases hq : q = p
  case pos =>
    rw [if_pos hq, Option.some_inj] at hw
    exact ⟨v, hq ▸ hv, hw ▸ hf v⟩
  case neg => exact ⟨w, by simpa [hq] using hw, rfl, rfl, rfl, rfl, rfl⟩

theorem freeProc_dwindles : Respects Dwindles (freeProc p) := by
  intro s
  rw [wlp_freeProc]
  refine fun _ _ => ⟨Heap.size_free, fun q w hw => ⟨w, ?_, rfl, rfl, rfl, rfl, rfl⟩, rfl⟩
  rw [State.withProcs_procs, Heap.get_free] at hw
  by_cases hq : q = p
  case pos => simp [hq] at hw
  case neg => simpa [hq] using hw

theorem procPruneLeaves_dwindles : Respects Dwindles procPruneLeaves := by
  have hloop {p : Pid} {next : Option Pid} {fuel : ℕ} {prev : Pid} :
      Respects Dwindles (procUnlinkLoop p next fuel prev) := by
    induction fuel generalizing prev
    case zero => exact respects_throw
    case succ fuel hi =>
      refine .bind getProc_respects fun v => ?_
      cases v.sibling
      case none   => exact respects_throw
      case some x => exact .ite (updProc_dwindles fun _ => ⟨rfl, rfl, rfl, rfl, rfl⟩) hi
  have hunlink {p parent first : Pid} {next : Option Pid} :
      Respects Dwindles (procUnlink p next parent first) :=
    .ite (updProc_dwindles fun _ => ⟨rfl, rfl, rfl, rfl, rfl⟩) (.bind respects_get fun _ => hloop)
  have hleaf {p : Pid} {leaves : List Pid} : Respects Dwindles (procPruneLeaf p leaves) := by
    refine .bind getProc_respects fun v => .bind ?_ fun _ => .bind kassert_respects fun _ => ?_
    · exact respects_dwindles (modify_touches (fun _ => rfl) fun _ => rfl)
    · cases v.parent
      case none        => exact respects_throw
      case some parent =>
        refine .bind getProc_respects fun w => ?_
        cases w.child
        case none       => exact respects_throw
        case some first =>
          exact .bind kassert_respects fun _ => .bind hunlink fun _ =>
            .bind (respects_dwindles (procSetstate_touches trivial)) fun _ => .bind freeProc_dwindles fun _ =>
            .bind getProc_respects fun _ => .ite (respects_dwindles procTryreap_linked) respects_pure
  have hleaves {fuel : ℕ} : Respects Dwindles (procPruneLeavesLoop fuel) := by
    induction fuel
    case zero => exact .bind respects_get fun _ => .ite respects_throw respects_pure
    case succ fuel hi =>
      refine .bind respects_get fun s => ?_
      cases s.deadLeaves
      case nil  => exact respects_pure
      case cons => exact .bind hleaf fun _ => hi
  exact .bind respects_get fun _ => hleaves

theorem Inside.dwindles (hq : Inside t ns q w) (h : Dwindles s t) :
    ∃ v, Inside s ns q v ∧ v.Named w := by
  obtain ⟨hw, p, x, hp, hx, hns⟩ := hq
  obtain ⟨v, hv, hk⟩ := h.procs q w hw
  obtain ⟨y, hy, hk'⟩ := h.procs p x hx
  exact ⟨v, ⟨hv, p, y, hk.parent ▸ hp, hy, hk'.pns ▸ hns⟩, hk⟩

-- The parent of a process is a process.
theorem Family.parent (h : Family s) (hv : s.procs.get p = some v) (hq : v.parent = some q) :
    ∃ w, s.procs.get q = some w := by
  obtain ⟨c, h⟩ := h
  obtain hn | ⟨a, ha, hpa⟩ := h.linked.parent (h.complete p v hv) (procLinks_of_get hv)
  · simp [hq] at hn
  · obtain rfl : q = a := Option.some_inj.mp (hq.symm.trans hpa)
    have ⟨_, hl⟩ := h.linked.get ha
    have ⟨w, hw, _⟩ := get_of_procLinks hl
    exact ⟨w, hw⟩

theorem NamesOk.dwindles (h : NamesOk s) (hd : Dwindles s t) (ht : Family t) : NamesOk t where
  inherited := fun p w hw => by
    obtain ⟨v, hv, hk⟩ := hd.procs p w hw
    refine (h.inherited p v hv).imp hk.pns.trans fun ⟨q, x, hq, hx, hpns⟩ => ?_
    have hq' := hk.parent.trans hq
    obtain ⟨y, hy⟩ := ht.parent hw hq'
    obtain ⟨x', hx', hk'⟩ := hd.procs q y hy
    obtain rfl := Option.some_inj.mp (hx.symm.trans hx')
    exact ⟨q, y, hq', hy, by rw [hk.pns, hk'.pns, hpns]⟩
  least     := fun ns q w hq => by
    obtain ⟨v, hv, hk⟩ := hq.dwindles hd
    exact hk.localid ▸ h.least ns q v hv
  unique    := fun ns q r w x hq hr he => by
    obtain ⟨v, hv, hk⟩ := hq.dwindles hd
    obtain ⟨y, hy, hk'⟩ := hr.dwindles hd
    exact h.unique ns q r v y hv hy (by rw [← hk.localid, ← hk'.localid, he])
  next      := fun hn ns o ho hns => by
    obtain ⟨x, hx, hk⟩ := hd.procs ns o ho
    obtain ⟨h₁, h₂, h₃⟩ := h.next (hd.nextPid ▸ hn) ns x hx (hk.pns ▸ hns)
    refine ⟨hk.nextlid ▸ h₁, hk.nextlid ▸ hd.nextPid ▸ h₂, fun q w hq => ?_⟩
    obtain ⟨v, hv, hk'⟩ := hq.dwindles hd
    rw [hk'.localid, hk.nextlid]
    exact h₃ q v hv
  nextPid   := hd.nextPid ▸ h.nextPid

end Dwindle

section Born

variable {s t : State} {p c q ns : Pid} {v w : Proc} {flags : Flags}

theorem Family.owner (h : Family s) (hns : NsInherited s) (hv : s.procs.get q = some v) :
    ∃ w, s.procs.get v.pns = some w ∧ w.pns = v.pns :=
  have ⟨_, h⟩ := h
  h.owner hns hv

-- Every process of the new state is the child or an old one, with the same parent and ids.
theorem Born.old_or_child (hb : Born s p flags c t) (hw : t.procs.get q = some w) (hq : q ≠ c) :
    ∃ v, s.procs.get q = some v ∧ w.parent = v.parent ∧ w.pns = v.pns ∧ w.localid = v.localid ∧
      w.globalid = v.globalid := by
  cases hv : s.procs.get q
  case none =>
    rw [hb.old q hq hv] at hw
    contradiction
  case some v =>
    obtain ⟨w', x, hw', hx, heq⟩ := hb.procs q v hv
    obtain rfl := Option.some_inj.mp (hw.symm.trans hw')
    refine ⟨v, rfl, ?_, ?_, ?_, ?_⟩ <;> rw [heq, hx.eq]

theorem Born.get_old (hb : Born s p flags c t) (hv : s.procs.get q = some v) :
    ∃ w, t.procs.get q = some w ∧ w.parent = v.parent ∧ w.pns = v.pns := by
  obtain ⟨w, x, hw, hx, heq⟩ := hb.procs q v hv
  refine ⟨w, hw, ?_, ?_⟩ <;> rw [heq, hx.eq]

theorem Inside.born (hq : Inside t ns q w) (hb : Born s p flags c t) (hf : Family s) (hqc : q ≠ c) :
    ∃ v, Inside s ns q v ∧ w.localid = v.localid := by
  obtain ⟨hw, a, x, ha, hx, hns⟩ := hq
  obtain ⟨v, hv, hparent, _, hlid, _⟩ := hb.old_or_child hw hqc
  have hac : a ≠ c := fun hac => by
    obtain ⟨y, hy⟩ := hf.parent hv (hparent ▸ ha)
    rw [hac, hb.fresh, Heap.get_size] at hy
    contradiction
  obtain ⟨y, hy, _, hpns, _⟩ := hb.old_or_child hx hac
  exact ⟨v, ⟨hv, a, y, hparent ▸ ha, hy, hpns ▸ hns⟩, hlid⟩

theorem NamesOk.born (h : NamesOk s) (hf : Family s) (hb : Born s p flags c t) : NamesOk t := by
  obtain ⟨v, w, hv, _, hw, hchild, hparent, _⟩ := hb.child
  obtain ⟨⟨hnext, hnext'⟩, v', o, hv', ho, hol, hids, hlids⟩ := hb.numbered
  obtain rfl := Option.some_inj.mp (hv.symm.trans hv')
  obtain ⟨o', ho', hopns⟩ := hf.owner h.inherited hv
  obtain rfl := Option.some_inj.mp (ho.symm.trans ho')
  obtain ⟨htwo, hle, hlt⟩ := h.next hnext v.pns o ho hopns
  have hlid := (hids w hw).2
  -- The child is only in the namespace of its parent.
  have hinc {ns : Pid} {x : Proc} (hx : Inside t ns c x) : x = w ∧ ns = v.pns := by
    obtain ⟨hx, a, y, ha, hy, hns⟩ := hx
    obtain rfl := Option.some_inj.mp (hw.symm.trans hx)
    obtain rfl := Option.some_inj.mp (hparent.symm.trans ha)
    obtain ⟨z, hz, _, hpns⟩ := hb.get_old hv
    obtain rfl := Option.some_inj.mp (hy.symm.trans hz)
    exact ⟨rfl, hns.symm.trans hpns⟩
  refine ⟨fun q x hx => ?_, fun ns q x hx => ?_, fun ns q r x y hx hy he => ?_, fun hn ns z hz hns => ?_,
    hnext' ▸ Nat.mod_lt _ (by decide)⟩
  · by_cases hq : q = c
    case pos =>
      obtain rfl := Option.some_inj.mp (hw.symm.trans (hq ▸ hx))
      obtain ⟨z, hz, _, hpns⟩ := hb.get_old hv
      exact .inr ⟨p, z, hparent, hz, hchild.pns.trans hpns.symm⟩
    case neg =>
      obtain ⟨y, hy, hyp, hypns, _⟩ := hb.old_or_child hx hq
      refine (h.inherited q y hy).imp hypns.trans fun ⟨a, z, ha, hz, hpns⟩ => ?_
      obtain ⟨z', hz', _, hzpns⟩ := hb.get_old hz
      exact ⟨a, z', hyp.trans ha, hz', by rw [hypns, hpns, hzpns]⟩
  · by_cases hq : q = c
    case pos =>
      obtain ⟨rfl, _⟩ := hinc (hq ▸ hx)
      exact hlid ▸ htwo
    case neg =>
      obtain ⟨y, hy, hlid⟩ := hx.born hb hf hq
      exact hlid ▸ h.least ns q y hy
  · have hnew {q : Pid} {x : Proc} (hx : Inside t v.pns q x) (hq : q ≠ c) : x.localid < o.nextlid := by
      obtain ⟨y, hy, hlid⟩ := hx.born hb hf hq
      exact hlid ▸ hlt q y hy
    by_cases hq : q = c <;> by_cases hr : r = c
    · rw [hq, hr]
    · obtain ⟨rfl, rfl⟩ := hinc (hq ▸ hx)
      exact absurd (hlid ▸ he ▸ hnew hy hr) (lt_irrefl _)
    · obtain ⟨rfl, rfl⟩ := hinc (hr ▸ hy)
      exact absurd (hlid ▸ he ▸ hnew hx hq) (lt_irrefl _)
    · obtain ⟨x', hx', hlx⟩ := hx.born hb hf hq
      obtain ⟨y', hy', hly⟩ := hy.born hb hf hr
      exact h.unique ns q r x' y' hx' hy' (by rw [← hlx, ← hly, he])
  · have hplus : t.nextPid = s.nextPid + 1 := by
      have := h.nextPid
      rw [hnext'] at hn ⊢
      omega
    have hnc : ns ≠ c := fun hnc => by
      obtain rfl := Option.some_inj.mp (hw.symm.trans (hnc ▸ hz))
      rw [← hchild.pns, hns, hnc, hb.fresh, Heap.get_size] at ho
      contradiction
    obtain ⟨y, hy, _, hpns, _⟩ := hb.old_or_child hz hnc
    have hzl := hlids ns y z hy hz
    by_cases hns' : ns = v.pns
    case pos =>
      obtain rfl := Option.some_inj.mp (ho.symm.trans (hns' ▸ hy))
      have hzn : z.nextlid = o.nextlid + 1 := by
        have := h.nextPid
        rw [hzl, if_pos hns']
        rw [hnext'] at hn
        omega
      refine ⟨by omega, by omega, fun q x hx => ?_⟩
      rw [hzn]
      by_cases hq : q = c
      case pos =>
        obtain ⟨rfl, _⟩ := hinc (hq ▸ hx)
        omega
      case neg =>
        obtain ⟨x', hx', hlx⟩ := hx.born hb hf hq
        have := hlt q x' (hns' ▸ hx')
        omega
    case neg =>
      rw [if_neg hns'] at hzl
      obtain ⟨h₁, h₂, h₃⟩ := h.next hnext ns y hy (hpns ▸ hns)
      refine ⟨hzl ▸ h₁, by omega, fun q x hx => ?_⟩
      have hq : q ≠ c := fun hq => hns' (hinc (hq ▸ hx)).2
      obtain ⟨x', hx', hlx⟩ := hx.born hb hf hq
      rw [hlx, hzl]
      exact h₃ q x' hx'

end Born

section Create

variable {s t : State} {p q a ns root : Pid} {v w : Proc} {r c sib : Forest Pid} {fs : Frames Pid}

-- The creation of a namespace changes neither the tree nor the ids.
structure Proc.Relabeled (v w : Proc) : Prop where
  parent   : w.parent = v.parent
  localid  : w.localid = v.localid
  globalid : w.globalid = v.globalid

structure Relabels (s t : State) : Prop where
  procs   : s.procs.Related Proc.Relabeled t.procs
  nextPid : t.nextPid = s.nextPid

instance : IsPreorder State Relabels where
  refl _ := ⟨.refl fun _ => ⟨rfl, rfl, rfl⟩, rfl⟩
  trans _ _ _ h₁ h₂ := {
    procs   := h₁.procs.trans (fun _ _ _ h₁ h₂ => ⟨h₂.parent.trans h₁.parent,
      h₂.localid.trans h₁.localid, h₂.globalid.trans h₁.globalid⟩) h₂.procs
    nextPid := h₂.nextPid.trans h₁.nextPid }

theorem updProc_relabels {f : Proc → Proc} (hf : ∀ v : Proc, v.Relabeled (f v)) :
    Respects Relabels (updProc p f) := by
  intro s
  rw [wlp_updProc]
  exact fun v hv => ⟨.set (fun _ => ⟨rfl, rfl, rfl⟩) hv (hf v), rfl⟩

theorem procNsCreate_relabels : Respects Relabels (procNsCreate p) := by
  have hpns {q ns : Pid} : Respects Relabels (updProc q ({ · with pns := ns })) :=
    updProc_relabels fun _ => ⟨rfl, rfl, rfl⟩
  have hlid {n : ℕ} : Respects Relabels (updProc p ({ · with nextlid := n })) :=
    updProc_relabels fun _ => ⟨rfl, rfl, rfl⟩
  have hvisit {old it : Pid} : Respects Relabels (procNsCreateVisit p old it) :=
    .ite (.bind (.bind getProc_respects fun _ => .bind getProc_respects fun _ =>
      .ite hlid respects_pure) fun _ => .bind getProc_respects fun _ => .ite hpns kassert_respects) respects_pure
  have hloop {old : Pid} {fuel : ℕ} {o : Option Pid} : Respects Relabels (procNsCreateLoop p old fuel o) := by
    induction fuel generalizing o
    case zero =>
      cases o
      case none   => exact respects_pure
      case some _ => exact respects_throw
    case succ fuel hi =>
      cases o
      case none    => exact respects_pure
      case some it =>
        exact .bind hvisit fun _ => .bind (respects_of_reads procNsCreateNext_reads) fun _ => hi
  exact .bind getProc_respects fun v => .ite (.bind (.bind hpns fun _ => hlid) fun _ =>
    .bind respects_get fun _ => hloop) respects_pure

-- Whoever has a parent is below a process exactly if it is a child of this or of one below.
theorem ProcTree.mem_below_iff (ht : ProcTree s root r)
    (h : Focus (node root r nil) (node p c sib) fs) (hv : s.procs.get q = some v)
    (ha : v.parent = some a) : q ∈ c.nodes ↔ a = p ∨ a ∈ c.nodes := by
  have hall (x : Pid) (l : Links Pid) (hl : procLinks s x = some l) : x ∈ (node root r nil).nodes := by
    have ⟨u, hu, _⟩ := get_of_procLinks hl
    exact ht.complete x u hu
  rw [h.mem_child_iff ht.linked ht.nodup hall, h.mem_child_iff ht.linked ht.nodup hall,
    Relation.TransGen.tail'_iff, ← Relation.reflTransGen_iff_eq_or_transGen]
  constructor
  case mp =>
    rintro ⟨b, hb, l, hl, hp⟩
    obtain rfl := Option.some_inj.mp ((procLinks_of_get hv).symm.trans hl)
    obtain rfl := Option.some_inj.mp (ha.symm.trans hp)
    exact hb
  case mpr => exact fun hb => ⟨a, hb, _, procLinks_of_get hv, ha⟩

theorem NamesOk.moved (h : NamesOk s) (ht : ProcTree s root r)
    (hfoc : Focus (node root r nil) (node p c sib) fs) (hv : s.procs.get p = some v) (hne : v.pns ≠ p)
    (hm : NsMoved s p v.pns c.nodes [] t) (hpid : t.nextPid = s.nextPid) : NamesOk t := by
  obtain ⟨_, n, hn, hget⟩ := hm
  have hd := hfoc.nodup ht.nodup
  simp only [nodes, List.cons_append, List.append_assoc, List.nodup_cons, List.mem_append, not_or] at hd
  -- No process was in the new namespace.
  have hnew {q : Pid} {x : Proc} (hx : s.procs.get q = some x) : x.pns ≠ p := fun he => by
    obtain ⟨w, hw, hwp⟩ := ht.owner h.inherited hx
    obtain rfl := Option.some_inj.mp (hv.symm.trans (he ▸ hw))
    exact hne (hwp.trans he)
  have hof {q : Pid} {w : Proc} (hw : t.procs.get q = some w) :
      ∃ x, s.procs.get q = some x ∧ w = nsMoved p v.pns n c.nodes [] q x := by
    rw [hget] at hw
    obtain ⟨x, hx, rfl⟩ := Option.map_eq_some_iff.mp hw
    exact ⟨x, hx, rfl⟩
  have hpns (q : Pid) (x : Proc) : (nsMoved p v.pns n c.nodes [] q x).pns =
      if q = p ∨ q ∈ c.nodes ∧ x.pns = v.pns then p else x.pns := by
    simp only [nsMoved, List.not_mem_nil, not_false_eq_true, true_and]
    by_cases hq : q = p
    case pos => simp [hq]
    case neg => by_cases hc : q ∈ c.nodes ∧ x.pns = v.pns <;> simp [hq, hc]
  have hids (q : Pid) (x : Proc) : (nsMoved p v.pns n c.nodes [] q x).parent = x.parent ∧
      (nsMoved p v.pns n c.nodes [] q x).localid = x.localid ∧
      (nsMoved p v.pns n c.nodes [] q x).nextlid = if q = p then n else x.nextlid := by
    simp only [nsMoved]
    by_cases hq : q = p
    case pos => simp [hq]
    case neg =>
      simp only [if_neg hq]
      split <;> simp
  -- Who is in the new namespace was in the old one.
  have hin {ns q : Pid} {w : Proc} (hw : Inside t ns q w) : ∃ x, w.localid = x.localid ∧
      if ns = p then q ∈ c.nodes ∧ Inside s v.pns q x else Inside s ns q x := by
    obtain ⟨hw, a, y, ha, hy, hns⟩ := hw
    obtain ⟨x, hx, rfl⟩ := hof hw
    obtain ⟨z, hz, rfl⟩ := hof hy
    rw [(hids q x).1] at ha
    rw [hpns] at hns
    refine ⟨x, (hids q x).2.1, ?_⟩
    by_cases hap : a = p ∨ a ∈ c.nodes ∧ z.pns = v.pns
    case pos =>
      rw [if_pos hap] at hns
      have hold : z.pns = v.pns := by
        obtain rfl | ⟨_, hz'⟩ := hap
        · exact congrArg Proc.pns (Option.some_inj.mp (hz.symm.trans hv))
        · exact hz'
      rw [if_pos hns.symm]
      exact ⟨(ht.mem_below_iff hfoc hx ha).mpr (hap.imp_right And.left), hx, a, z, ha, hz, hold⟩
    case neg =>
      rw [if_neg hap] at hns
      rw [if_neg fun he => hnew hz (hns.trans he)]
      exact ⟨hx, a, z, ha, hz, hns⟩
  obtain ⟨o, ho, hopns⟩ := ht.owner h.inherited hv
  refine ⟨fun q w hw => ?_, fun ns q w hw => ?_, fun ns q u w x hw hx he => ?_, fun hnz ns w hw hns => ?_,
    hpid ▸ h.nextPid⟩
  · obtain ⟨x, hx, rfl⟩ := hof hw
    rw [hpns, (hids q x).1]
    by_cases hq : q = p
    case pos => exact .inl (by simp [hq])
    case neg =>
      obtain he | ⟨a, y, ha, hy, he⟩ := h.inherited q x hx
      · have : ¬(q = p ∨ q ∈ c.nodes ∧ x.pns = v.pns) := by
          rintro (hq' | ⟨hc, ho'⟩)
          · exact hq hq'
          · have hfs := (hfoc.linked ht.linked).2
            have hlv := (procLinks_of_get hv).symm.trans (hfoc.linked ht.linked).1.1
            simp only [Option.some.injEq, Links.mk.injEq] at hlv
            have hanc := (pns_owner h.inherited hfs hv hlv.2.2).1.resolve_left hne
            have hdis := (List.nodup_append.mp hd.2).2.2
            exact hdis q hc v.pns (by simp [hanc]) (he.symm.trans ho')
        exact .inl (by rw [if_neg this, he])
      · refine .inr ⟨a, nsMoved p v.pns n c.nodes [] a y, ha, by rw [hget, hy]; rfl, ?_⟩
        have hbelow := ht.mem_below_iff hfoc hx ha
        have hyv : a = p → y.pns = v.pns := fun hap =>
          congrArg Proc.pns (Option.some_inj.mp ((hap ▸ hy).symm.trans hv))
        rw [hpns, he]
        simp only [hq, false_or]
        have : q ∈ c.nodes ∧ y.pns = v.pns ↔ a = p ∨ a ∈ c.nodes ∧ y.pns = v.pns := by
          rw [hbelow]
          tauto
        simp only [this]
  · obtain ⟨x, hl, hx⟩ := hin hw
    rw [hl]
    split at hx
    · exact h.least _ q x hx.2
    · exact h.least _ q x hx
  · obtain ⟨w', hlw, hw'⟩ := hin hw
    obtain ⟨x', hlx, hx'⟩ := hin hx
    have he' : w'.localid = x'.localid := by rw [← hlw, ← hlx, he]
    split at hw'
    · rw [if_pos ‹_›] at hx'
      exact h.unique _ q u w' x' hw'.2 hx'.2 he'
    · rw [if_neg ‹_›] at hx'
      exact h.unique _ q u w' x' hw' hx' he'
  · rw [hpid] at hnz ⊢
    obtain ⟨x, hx, rfl⟩ := hof hw
    rw [(hids ns x).2.2]
    by_cases hnp : ns = p
    case pos =>
      obtain ⟨_, hole, holt⟩ := h.next hnz v.pns o ho hopns
      have hlt := h.nextPid
      have hmod {q : Pid} {y : Proc} (hy : Inside s v.pns q y) :
          (y.localid + 1) % 2 ^ 32 = y.localid + 1 ∧ y.localid + 1 ≤ s.nextPid := by
        have := holt q y hy
        omega
      rw [if_pos hnp]
      refine ⟨hn.two, ?_, fun q y hy => ?_⟩
      · obtain hn2 | ⟨q, y, hy, he⟩ := hn.upper
        · have := (h.next hnz v.pns o ho hopns).1
          omega
        · have := hmod hy
          omega
      · obtain ⟨z, hl, hz⟩ := hin hy
        rw [if_pos hnp] at hz
        have := hmod hz.2
        have := hn.lower q z hz.1 (by simp) hz.2
        omega
    case neg =>
      rw [if_neg hnp]
      have hns' : x.pns = ns := by
        rw [hpns] at hns
        split at hns
        · exact absurd hns.symm hnp
        · exact hns
      obtain ⟨h₁, h₂, h₃⟩ := h.next hnz ns x hx hns'
      refine ⟨h₁, h₂, fun q y hy => ?_⟩
      obtain ⟨z, hl, hz⟩ := hin hy
      rw [if_neg hnp] at hz
      exact hl ▸ h₃ q z hz

theorem procNsCreate_names (h : NamesOk s) (hf : Family s) :
    wlp (procNsCreate p) (fun _ t => NamesOk t) s := by
  obtain ⟨r, ht⟩ := hf
  cases hv : s.procs.get p
  case none =>
    simp only [procNsCreate, wlp_bind, wlp_getProc, hv]
    simp
  case some v =>
    by_cases hne : v.pns = p
    case pos =>
      simp only [procNsCreate, wlp_bind, wlp_getProc, wlp_ite, wlp_pure]
      intro w hw
      obtain rfl := Option.some_inj.mp (hv.symm.trans hw)
      exact ⟨fun hn => absurd hne hn, fun _ => h⟩
    case neg =>
      have hmoved : wlp (procNsCreate p) (fun _ t => ∃ c sib fs,
          Focus (node 0 r nil) (node p c sib) fs ∧ NsMoved s p v.pns c.nodes [] t) s := by
        rw [wlp]
        exact procNsCreate_moved h.inherited ht hv hne
      refine wlp_post (wlp_and hmoved (procNsCreate_relabels s)) ?_
      rintro _ t ⟨⟨c, sib, fs, hfoc, hm⟩, hr⟩
      exact h.moved ht hfoc hv hne hm hr.nextPid

end Create

section Step

variable {s t : State} {env : Env} {e : Entry} {p : Pid} {flags : Flags} {paths : List (List UInt8)}

theorem NamesOk.linked {x : K α} (h : NamesOk s) (hf : Family s) (hx : Respects Linked x) :
    wlp x (fun _ t => NamesOk t) s :=
  wlp_post (hx s) fun _ _ ht => h.dwindles ht.dwindles (hf.of_links ht.links)

theorem sysGetprocfs_names (h : NamesOk s) (hf : Family s) :
    wlp (sysGetprocfs p flags) (fun _ t => NamesOk t) s := by
  rw [sysGetprocfs, wlp_ite]
  refine ⟨fun _ => h.linked hf (respects_linked sysReturn_calm), fun _ => ?_⟩
  rw [wlp_bind]
  refine wlp_post (wlp_and (procNsCreate_names h hf) (hf.renamed procNsCreate_renamed)) fun _ t ht => ?_
  refine ht.1.linked ht.2 (respects_linked (.bind procHandleInit_calm fun x => ?_))
  cases x
  case none   => exact sysReturn_calm
  case some x =>
    exact .bind procfsBackend_calm fun _ => .bind updHandle_calm fun _ => sysReturn_calm

theorem sysFork_names (hs : SharesOk s) (h : NamesOk s) (hf : Family s) :
    wlp (sysFork env p flags) (fun _ t => NamesOk t) s := by
  have hborn {c : Pid} {t u : State} (hb : Born s p flags c t) (hu : Linked t u) :
      NamesOk u ∧ Family u :=
    have hfam := (hf.born hb).of_links hu.links
    ⟨(h.born hf hb).dwindles hu.dwindles hfam, hfam⟩
  refine wlp_sysFork hs (fun c t u _ hb hc => (hborn hb hc.linked).1) fun c t u v _ hb hc hv => ?_
  have hset : Linked u (u.withProcs (u.procs.set c { v with noreap := true })) :=
    touches_set trivial hv ⟨rfl, rfl, rfl, rfl, rfl, rfl, rfl⟩
  have ⟨hn, hfam⟩ := hborn hb (trans_of Linked hc.linked hset)
  refine wlp_post (procKill_linked _) fun _ x hx y hy => ?_
  have hl : Linked _ y := trans_of Linked hx hy.linked
  exact hn.dwindles hl.dwindles (hfam.of_links hl.links)

theorem Step.names (hstep : Step s e t) (hs : SharesOk s) (h : NamesOk s) (hf : Family s) :
    NamesOk t := by
  have hfam := hstep.family hs hf
  refine hstep.of_wlp (R := fun t => Family t → NamesOk t) (fun env => ?_) hfam
  have hl {x : K Unit} (hx : Respects Linked x) : wlp x (fun _ t => Family t → NamesOk t) s :=
    wlp_post (h.linked hf hx) fun _ _ ht _ => ht
  cases e
  case kill p ret     => exact hl procKill_linked
  case intr p         => exact hl (respects_linked procTryintr_calm)
  case prune          => exact wlp_post (procPruneLeaves_dwindles s) fun _ _ ht hft => h.dwindles ht hft
  case timer counter  => exact hl hpetIrq_linked
  case finish r ret   => exact hl (respects_linked enterFinish_calm)
  case syscall p call =>
    cases call
    case exit ret        => exact hl procKill_linked
    case fork flags      => exact wlp_post (sysFork_names hs h hf) fun _ _ ht _ => ht
    case wait2 pid flags => exact hl sysWait2_linked
    case getprocfs flags => exact wlp_post (sysGetprocfs_names h hf) fun _ _ ht _ => ht
    case sleep goal      => exact hl timerSchedule_linked
    all_goals exact hl (respects_linked (enterSyscall_calm rfl))

theorem namesOk_bootState : NamesOk (bootState paths) := by
  have hin {ns q : Pid} {v : Proc} (h : Inside (bootState paths) ns q v) : False := by
    obtain ⟨hv, a, w, ha, _⟩ := h
    obtain ⟨_, _, rfl⟩ := bootState_proc hv
    simp [procInit] at ha
  refine ⟨fun q v hv => ?_, fun _ _ _ h => (hin h).elim, fun _ _ _ _ _ h => (hin h).elim,
    fun _ ns o ho _ => ?_, (by decide : 2 < 2 ^ 32)⟩
  · obtain ⟨rfl, _, rfl⟩ := bootState_proc hv
    exact .inl rfl
  · obtain ⟨_, _, rfl⟩ := bootState_proc ho
    exact ⟨le_rfl, le_rfl, fun _ _ h => (hin h).elim⟩

-- Runs in which the processes may also get namespaces of their own at any time.
inductive NsRun (paths : List (List UInt8)) : State → Prop
  | boot : NsRun paths (bootState paths)
  | step {s t : State} {e : Entry} : NsRun paths s → Step s e t → NsRun paths t
  | create {s t : State} {p : Pid} : NsRun paths s → procNsCreate p s = .ok ((), t) → NsRun paths t

structure PidsOk (s : State) : Prop where
  shares : SharesOk s
  timer  : TimerOk s
  tree   : TreeOk s
  family : Family s
  names  : NamesOk s

theorem NsRun.pids (h : NsRun paths s) : PidsOk s := by
  induction h
  case boot =>
    exact ⟨sharesOk_bootState, timerOk_bootState, treeOk_bootState, family_bootState, namesOk_bootState⟩
  case step hstep hi =>
    have ⟨hs, ht, _⟩ := hstep.users hi.shares hi.timer
    exact ⟨hs, ht, hstep.tree hi.shares hi.tree, hstep.family hi.shares hi.family, hstep.names hi.shares hi.names hi.family⟩
  case create hc hi =>
    have hp := procNsCreate_peace.of_ok hc
    exact ⟨hi.shares.peace hp, hp.timer hi.timer, wlp_of_ok hc (procNsCreate_tree hi.tree),
      hi.family.of_links (procNsCreate_renamed.of_ok hc).links, wlp_of_ok hc (procNsCreate_names hi.names hi.family)⟩

end Step
end Camellia
