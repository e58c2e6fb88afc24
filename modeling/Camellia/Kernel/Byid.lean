import Camellia.Kernel.Iteration
import Camellia.Kernel.Pids

open Forest

namespace Camellia

section Id

variable {s : State} {ns q p : Pid} {v w : Proc} {E : Fault → Prop}

-- A function which reads the state returns what its rule says.
theorem ok_of_wp {x : K α} {a : α} (h : wp x (fun b t => b = a ∧ t = s) (fun _ => False) s) :
    x s = .ok (a, s) := by
  obtain ⟨b, t, hrun, rfl, rfl⟩ := wp_false_iff.mp h
  exact hrun

theorem wp_procNsId_self {Q : ℕ → State → Prop} (h : Q 1 s) : wp (procNsId ns ns) Q E s := by
  simpa [procNsId] using h

-- The assertions of `proc_ns_id` hold for every process of the namespace.
theorem wp_procNsId {Q : ℕ → State → Prop} (hns : NsInherited s) (hq : Inside s ns q v) (hne : q ≠ ns)
    (h : Q v.localid s) : wp (procNsId ns q) Q E s := by
  obtain ⟨hv, p, w, hp, hw, rfl⟩ := hq
  simp only [procNsId, if_neg hne, wp_bind, wp_getProc, hv, Option.elim_some]
  by_cases hown : v.pns = q
  case pos => simpa [hown, hp, hw] using h
  case neg =>
    obtain he | ⟨a, x, ha, hx, he⟩ := hns q v hv
    · exact absurd he hown
    · obtain rfl := Option.some_inj.mp (hp.symm.trans ha)
      obtain rfl := Option.some_inj.mp (hw.symm.trans hx)
      have hown' : w.pns ≠ q := fun h => hown (he.trans h)
      simpa [he, hown'] using h

theorem wp_procNsContains {Q : Bool → State → Prop} (hq : q = ns ∨ Inside s ns q v) (h : Q true s) :
    wp (procNsContains ns q) Q E s := by
  by_cases hne : ns = q
  case pos => simpa [procNsContains, hne] using h
  case neg =>
    obtain rfl | ⟨hv, p, w, hp, hw, hpns⟩ := hq
    · contradiction
    · refine procNsContains_spec hv hp hw ?_
      simpa [hpns] using h

-- `proc_ns_contains` says that the process is in the namespace.
def NsMember (s : State) (ns q : Pid) : Prop :=
  procNsContains ns q s = .ok (true, s)

theorem nsMember_iff : NsMember s ns q ↔ q = ns ∨ ∃ v, Inside s ns q v := by
  constructor
  case mp =>
    intro h
    have : wlp (procNsContains ns q) (fun b _ => b = true → q = ns ∨ ∃ v, Inside s ns q v) s := by
      simp only [procNsContains, wlp_ite, wlp_pure, wlp_bind, wlp_getProc]
      refine ⟨fun hns _ => .inl hns.symm, fun _ v hv => ?_⟩
      cases hp : v.parent
      case none   => exact wlp_pure.mpr (by simp)
      case some p =>
        simp only [wlp_bind, wlp_getProc, wlp_pure, decide_eq_true_eq]
        exact fun w hw hpns => .inr ⟨v, hv, p, w, hp, hw, hpns⟩
    exact wlp_of_ok h this rfl
  case mpr =>
    intro h
    obtain rfl | ⟨v, hv⟩ := h
    · exact ok_of_wp (wp_procNsContains (v := {}) (.inl rfl) ⟨rfl, rfl⟩)
    · exact ok_of_wp (wp_procNsContains (.inr hv) ⟨rfl, rfl⟩)

end Id

section Next

variable {s : State} {ns it : Pid} {r f c sib : Forest Pid} {fs : Frames Pid} {E : Fault → Prop}

-- The inner loop goes on to the next process in the order of a depth-first search, if there is one.
theorem procNsNextClimb_spec {ch : Option Pid} {fuel : ℕ} (h : Focus r sib fs)
    (hr : r.Linked (procLinks s) (some ns)) (hns : ns ∉ fs.ancestors)
    (hit : procLinks s it = some ⟨ch, sib.head, fs.parent (some ns)⟩) (hfuel : fs.length < fuel) :
    wp (procNsNextClimb ns fuel it) (fun o t => t = s ∧
      ((∃ f' fs', Focus r f' fs' ∧ f' ≠ nil ∧ o = f'.head ∧
        f'.nodes ++ fs'.rest = sib.nodes ++ fs.rest ∧ fs'.ancestors ⊆ fs.ancestors) ∨
      o = none ∧ sib.nodes ++ fs.rest = [])) E s := by
  induction fuel generalizing it sib fs ch
  case zero => contradiction
  case succ fuel hi =>
    obtain ⟨v, hv, hl⟩ := get_of_procLinks hit
    simp only [Links.mk.injEq] at hl
    simp only [procNsNextClimb, wp_bind, wp_getProc, hv, Option.elim_some, ← hl.2.1, ← hl.2.2]
    cases sib
    case node b cb sb =>
      simp only [head, wp_pure]
      exact ⟨trivial, .inl ⟨_, fs, h, by simp, rfl, rfl, fun _ => id⟩⟩
    case nil =>
      cases fs
      case nil => simp [head, Frames.parent, nodes, Frames.rest]
      case cons x fs =>
        obtain ⟨⟨_, ha⟩, _, _⟩ := (h.linked hr).2
        have hx : x.1 ≠ ns := fun he => hns (by simp [Frames.ancestors, he])
        have hns' : ns ∉ Frames.ancestors fs := fun hm => hns (List.mem_cons_of_mem _ hm)
        simp only [head, Frames.parent, hx, if_false]
        refine wp_post (hi h.up hns' ha (Nat.lt_of_succ_lt_succ hfuel)) ?_
        rintro o t ⟨rfl, ho⟩
        refine ⟨rfl, ho.imp ?_ id⟩
        rintro ⟨f', fs', h', hn', ho', hr', ha'⟩
        exact ⟨f', fs', h', hn', ho', hr', fun y hy => List.mem_cons_of_mem _ (ha' hy)⟩

-- All the ancestors below the owner of the namespace are in it.
def Frames.Within (s : State) (ns : Pid) (fs : Frames Pid) : Prop :=
  ∀ a ∈ fs.ancestors, ∃ w, s.procs.get a = some w ∧ w.pns = ns

variable {o : Proc}

theorem inside_of_focus (hr : r.Linked (procLinks s) (some ns)) (ho : s.procs.get ns = some o)
    (hpns : o.pns = ns) (h : Focus r (node it c sib) fs) (hanc : Frames.Within s ns fs) :
    ∃ v, Inside s ns it v ∧ v.child = c.head := by
  have ⟨v, hv, hlv⟩ := get_of_procLinks (h.linked hr).1.1
  simp only [Links.mk.injEq] at hlv
  refine ⟨v, ⟨hv, ?_⟩, hlv.1.symm⟩
  rw [← hlv.2.2]
  cases fs
  case nil       => exact ⟨ns, o, rfl, ho, hpns⟩
  case cons x fs =>
    have ⟨w, hw, hwo⟩ := hanc x.1 (by simp [Frames.ancestors])
    exact ⟨x.1, w, rfl, hw, hwo⟩

-- Whatever is picked is in the namespace.
theorem procNsNext_check {f : Forest Pid} {fs' : Frames Pid} (ho : s.procs.get ns = some o) (hpns : o.pns = ns)
    (hr : r.Linked (procLinks s) (some ns)) (h : Focus r f fs') (hanc : Frames.Within s ns fs')
    (hnil : f = nil → f.nodes ++ fs'.rest = []) (hsuf : f.nodes ++ fs'.rest <:+ c.nodes ++ (sib.nodes ++ fs.rest))
    (hall : ∀ q ∈ c.nodes ++ (sib.nodes ++ fs.rest), ∀ v, Inside s ns q v → q ∈ f.nodes ++ fs'.rest) :
    wp (match f.head with
      | none     => pure none
      | some ret => do
        kassert (← procNsContains ns ret) .procNsNextContains
        pure (some ret)) (fun x t => t = s ∧ ∃ f' fs', Focus r f' fs' ∧ x = f'.head ∧
      Frames.Within s ns fs' ∧ (f' = nil → f'.nodes ++ fs'.rest = []) ∧
      f'.nodes ++ fs'.rest <:+ c.nodes ++ (sib.nodes ++ fs.rest) ∧
      ∀ q ∈ c.nodes ++ (sib.nodes ++ fs.rest), ∀ v, Inside s ns q v → q ∈ f'.nodes ++ fs'.rest) E s := by
  cases hf : f
  case nil        => exact wp_pure.mpr ⟨rfl, nil, fs', hf ▸ h, rfl, hanc, hf ▸ hnil, hf ▸ hsuf, hf ▸ hall⟩
  case node a _ _ =>
    obtain ⟨w, hw, _⟩ := inside_of_focus hr ho hpns (hf ▸ h) hanc
    simp only [head, wp_bind]
    refine wp_procNsContains (.inr hw) ?_
    simp only [wp_bind, wp_kassert, wp_pure, true_implies, not_true_eq_false, false_implies, and_true]
    exact ⟨trivial, _, fs', hf ▸ h, rfl, hanc, hf ▸ hnil, hf ▸ hsuf, hf ▸ hall⟩

-- What is left to be visited after `it`: nothing, or what starts with the next process. Nobody who
-- is in the namespace is left out.
theorem procNsNext_spec (hin : NsInherited s) (ho : s.procs.get ns = some o) (hpns : o.pns = ns)
    (hr : r.Linked (procLinks s) (some ns)) (hn : r.nodes.Nodup) (hnr : ns ∉ r.nodes)
    (h : Focus r (node it c sib) fs) (hanc : Frames.Within s ns fs) :
    wp (procNsNext ns it) (fun x t => t = s ∧ ∃ f' fs', Focus r f' fs' ∧ x = f'.head ∧
      Frames.Within s ns fs' ∧ (f' = nil → f'.nodes ++ fs'.rest = []) ∧
      f'.nodes ++ fs'.rest <:+ c.nodes ++ (sib.nodes ++ fs.rest) ∧
      ∀ q ∈ c.nodes ++ (sib.nodes ++ fs.rest), ∀ v, Inside s ns q v → q ∈ f'.nodes ++ fs'.rest) E s := by
  obtain ⟨⟨hl, hlc, hls⟩, _⟩ := h.linked hr
  obtain ⟨v, hv, hchild⟩ := inside_of_focus hr ho hpns h hanc
  have hmem {q : Pid} (hq : q = it ∨ q ∈ c.nodes) : q ∈ r.nodes := h.mem <| .inl <| by
    simp only [nodes, List.mem_cons, List.mem_append]
    tauto
  have hit : it ≠ ns := fun he => hnr <| he ▸ hmem (.inl rfl)
  simp only [procNsNext, procNsNextRet, wp_bind, wp_getProc, hv.1, Option.elim_some, hchild]
  -- The walk descends exactly if the process is in the namespace itself and has children.
  have hdesc : wp (procNsNextDescends ns c.head)
      (fun b t => t = s ∧ (b = true ↔ c ≠ nil ∧ v.pns = ns)) E s := by
    cases hc : c
    case nil         => simp [head, procNsNextDescends]
    case node d _ _ =>
      obtain ⟨w, hw, hlw⟩ := get_of_procLinks (hc ▸ hlc).1
      simp only [Links.mk.injEq] at hlw
      have hd : ns ≠ d := fun he => hnr <| hmem <| .inr <| by simp [hc, nodes, he]
      simp only [head, procNsNextDescends]
      refine procNsContains_spec hw hlw.2.2.symm hv.1 ⟨rfl, ?_⟩
      simp [hd]
  refine wp_post hdesc ?_
  rintro b t ⟨ht, hb⟩
  rw [ht]
  simp only [wp_ite, wp_pure, hit, false_implies, not_false_eq_true, true_implies, true_and, wp_bind,
    wp_get]
  refine ⟨fun htrue => ?_, fun hfalse => ?_⟩
  · obtain ⟨hc, hvns⟩ := hb.mp htrue
    refine procNsNext_check ho hpns hr h.down (fun a ha => ?_) (fun hn => absurd hn hc) (by simp [Frames.rest]) ?_
    · simp only [Frames.ancestors, List.map_cons, List.mem_cons] at ha
      obtain rfl | ha := ha
      · exact ⟨v, hv.1, hvns⟩
      · exact hanc a ha
    · exact fun q hq _ _ => by simpa [Frames.rest] using hq
  · have hskip : ∀ q ∈ c.nodes, ∀ v, ¬Inside s ns q v := by
      by_cases hc : c = nil
      case pos => simp [hc, nodes]
      case neg =>
        have hvns : v.pns ≠ ns := fun hvns => hfalse (hb.mpr ⟨hc, hvns⟩)
        exact not_inside_of_linked hin hlc hv.1 hvns fun hm => hnr (hmem (.inr hm))
    have hleft (q : Pid) (hq : q ∈ c.nodes ++ (sib.nodes ++ fs.rest)) (v : Proc) (hv : Inside s ns q v) :
        q ∈ sib.nodes ++ fs.rest :=
      (List.mem_append.mp hq).resolve_left fun hc => hskip q hc v hv
    refine wp_post (procNsNextClimb_spec h.next hr ?_ hl (Nat.lt_succ_of_le (focus_length_le h hr hn))) ?_
    · exact fun hm => hnr <| h.mem <| .inr <| .inr hm
    · rintro x _ ⟨rfl, ⟨f', fs', h', hf', rfl, hrest, hanc'⟩ | ⟨rfl, hrest⟩⟩
      · refine procNsNext_check ho hpns hr h' (fun a ha => hanc a (hanc' ha)) (fun hn => absurd hn hf') ?_ ?_
        · rw [hrest]
          exact List.suffix_append _ _
        · exact fun q hq v hv => hrest ▸ hleft q hq v hv
      · refine wp_pure.mpr ⟨rfl, sib, fs, h.next, ?_, hanc, fun _ => hrest, by simp, hleft⟩
        cases sib
        case nil  => rfl
        case node => simp [nodes] at hrest

end Next

section Namespace

variable {s : State} {root ns q : Pid} {o v : Proc} {r c sib : Forest Pid} {fs : Frames Pid}

-- Everybody is below the owner of the own namespace.
theorem below_pns (hin : NsInherited s) (hfs : fs.Linked (procLinks s) none)
    (hv : s.procs.get q = some v) (hp : v.parent = fs.parent none) :
    Relation.ReflTransGen (IsParent (procLinks s)) v.pns q := by
  induction fs generalizing q v
  case nil =>
    obtain h | ⟨_, _, h, _⟩ := hin q v hv
    · exact h ▸ .refl
    · simp [hp, Frames.parent] at h
  case cons x fs hi =>
    obtain h | ⟨a, w, ha, hw, h⟩ := hin q v hv
    · exact h ▸ .refl
    · obtain ⟨⟨_, hx⟩, _, hf⟩ := hfs
      obtain rfl : x.1 = a := by simpa [Frames.parent, ha] using hp.symm
      have hpar := (procLinks_of_get hw).symm.trans hx
      simp only [Option.some.injEq, Links.mk.injEq] at hpar
      exact h ▸ (hi hf hw hpar.2.2).tail ⟨_, procLinks_of_get hv, ha⟩

theorem ProcTree.inside_below (ht : ProcTree s root r) (hin : NsInherited s)
    (h : Focus (node root r nil) (node ns c sib) fs) (hq : Inside s ns q v) : q ∈ c.nodes := by
  obtain ⟨hv, p, w, hp, hw, hpns⟩ := hq
  obtain ⟨_, _, fs', hfocus⟩ := Focus.root.exists_of_mem (ht.complete p w hw)
  have ⟨⟨hl, _, _⟩, hfs⟩ := hfocus.linked ht.linked
  have hlw := (procLinks_of_get hw).symm.trans hl
  simp only [Option.some.injEq, Links.mk.injEq] at hlw
  refine (h.mem_child_iff ht.linked ht.nodup fun q l hq => ?_).mpr ?_
  · have ⟨u, hu, _⟩ := get_of_procLinks hq
    exact ht.complete q u hu
  · exact .tail' (hpns ▸ below_pns hin hfs hw hlw.2.2) ⟨_, procLinks_of_get hv, hp⟩

theorem ProcTree.inside_ne (ht : ProcTree s root r) (hin : NsInherited s)
    (ho : s.procs.get ns = some o) (hq : Inside s ns q v) : q ≠ ns := by
  obtain ⟨_, _, _, h⟩ := Focus.root.exists_of_mem (ht.complete ns o ho)
  have hd := h.nodup ht.nodup
  simp only [nodes, List.cons_append, List.nodup_cons, List.mem_append, not_or] at hd
  exact ne_of_mem_of_not_mem (ht.inside_below hin h hq) hd.1.1.1

-- The first step from the owner of a namespace.
theorem procNsNext_first (hl : c.Linked (procLinks s) (some ns)) (ho : s.procs.get ns = some o)
    (hchild : o.child = c.head) (hpns : o.pns = ns) :
    procNsNext ns ns s = .ok (c.head, s) := by
  refine ok_of_wp ?_
  simp only [procNsNext, procNsNextRet, wp_bind, wp_getProc, ho, Option.elim_some, hchild]
  cases hc : c
  case nil => simp [head, procNsNextDescends]
  case node d _ _ =>
    obtain ⟨w, hw, hlw⟩ := get_of_procLinks (hc ▸ hl).1
    simp only [Links.mk.injEq] at hlw
    have hinside : Inside s ns d w := ⟨hw, ns, o, hlw.2.2.symm, ho, hpns⟩
    simp only [head, procNsNextDescends]
    refine wp_procNsContains (.inr hinside) ?_
    simp only [if_true, wp_pure, wp_bind]
    refine wp_procNsContains (.inr hinside) ?_
    simp

open Classical in
-- The iteration over a namespace visits its processes in the order of a depth-first search.
theorem visits_namespace (hin : NsInherited s) (ho : s.procs.get ns = some o) (hpns : o.pns = ns)
    (hchild : o.child = c.head) (hl : c.Linked (procLinks s) (some ns)) (hn : c.nodes.Nodup)
    (hns : ns ∉ c.nodes) : Visits (procNsNext ns) s (some ns)
      (ns :: c.nodes.filter fun q => decide (∃ v, Inside s ns q v)) := by
  refine .step (procNsNext_first hl ho hchild hpns) (.of_left (fun x l => ∃ f fs, Focus c f fs ∧
    x = f.head ∧ Frames.Within s ns fs ∧ (f = nil → f.nodes ++ fs.rest = []) ∧
    l = (f.nodes ++ fs.rest).filter fun q => decide (∃ v, Inside s ns q v)) ?none ?some ?start)
  case start =>
    refine ⟨c, [], .root, rfl, by simp [Frames.Within, Frames.ancestors], ?_, by simp [Frames.rest]⟩
    rintro rfl
    rfl
  case none =>
    rintro l ⟨f, fs, _, hf, _, hnil, rfl⟩
    cases f
    case nil  => rw [hnil rfl, List.filter_nil]
    case node => contradiction
  case some =>
    rintro it l ⟨f, fs, hfocus, hf, hanc, -, rfl⟩
    cases f
    case nil          => contradiction
    case node cit sib =>
      obtain rfl := Option.some_inj.mp hf
      obtain ⟨v, hv, _⟩ := inside_of_focus hl ho hpns hfocus hanc
      refine ⟨(cit.nodes ++ (sib.nodes ++ fs.rest)).filter fun q => decide (∃ v, Inside s ns q v), ?_, ?_⟩
      · simp [nodes, show ∃ v, Inside s ns it v from ⟨v, hv⟩]
      · refine wp_post (procNsNext_spec hin ho hpns hl hn hns hfocus hanc) ?_
        rintro x t ⟨ht, f', fs', h', hx, hanc', hnil, ⟨skipped, hskip⟩, hall⟩
        refine ⟨ht, f', fs', h', hx, hanc', hnil, ?_⟩
        -- Nobody who was skipped is in the namespace.
        have hd := hfocus.nodup hn
        simp only [nodes, List.cons_append, ← List.append_assoc] at hd
        replace hd := (List.nodup_cons.mp (hd.sublist (List.sublist_append_left _ _))).2
        rw [List.append_assoc, ← hskip] at hd
        rw [← hskip, List.filter_append, List.filter_eq_nil_iff.mpr ?_, List.nil_append]
        intro q hq hin
        obtain ⟨v, hv⟩ := of_decide_eq_true hin
        have hq' := hall q (hskip ▸ List.mem_append_left _ hq) v hv
        exact (List.nodup_append.mp hd).2.2 q hq q hq' rfl

end Namespace

section Byid

variable {s : State} {root ns q : Pid} {o v : Proc} {id : ℕ} {x : Option Pid} {l : List Pid}
variable {r : Forest Pid}

theorem procNsId_of_inside (hin : NsInherited s) (hq : Inside s ns q v) (hne : q ≠ ns) :
    procNsId ns q s = .ok (v.localid, s) :=
  ok_of_wp (wp_procNsId hin hq hne ⟨rfl, rfl⟩)

theorem NsMember.exists_id (hin : NsInherited s) (hq : NsMember s ns q) : ∃ i, procNsId ns q s = .ok (i, s) := by
  by_cases hne : q = ns
  case pos =>
    rw [hne]
    exact ⟨1, ok_of_wp (wp_procNsId_self ⟨rfl, rfl⟩)⟩
  case neg =>
    obtain ⟨v, hv⟩ := (nsMember_iff.mp hq).resolve_left hne
    exact ⟨_, procNsId_of_inside hin hv hne⟩

open Classical in
theorem ProcTree.iterates (ht : ProcTree s root r) (hin : NsInherited s) (ho : s.procs.get ns = some o)
    (hpns : o.pns = ns) : ∃ l, Visits (procNsNext ns) s (some ns) l ∧ l.Nodup ∧
      (∀ q, q ∈ l ↔ NsMember s ns q) ∧ l.length ≤ s.procs.size + 1 := by
  obtain ⟨c, sib, fs, h⟩ := Focus.root.exists_of_mem (ht.complete ns o ho)
  obtain ⟨⟨hl, hlc, _⟩, _⟩ := h.linked ht.linked
  have hlo := (procLinks_of_get ho).symm.trans hl
  simp only [Option.some.injEq, Links.mk.injEq] at hlo
  have hd := h.nodup ht.nodup
  simp only [nodes, List.cons_append, List.append_assoc, List.nodup_cons, List.mem_append,
    List.nodup_append, not_or] at hd
  have hlen := length_le_size hd.2.1 fun q hq => hlc.get hq
  refine ⟨_, visits_namespace hin ho hpns hlo.1 hlc hd.2.1 hd.1.1, ?_, fun q => ?_, ?_⟩
  · refine List.nodup_cons.mpr ⟨fun hm => hd.1.1 (List.mem_of_mem_filter hm), hd.2.1.filter _⟩
  · rw [List.mem_cons, List.mem_filter, decide_eq_true_eq, nsMember_iff]
    refine or_congr_right ⟨And.right, fun hx => ⟨ht.inside_below hin h hx.choose_spec, hx⟩⟩
  · exact Nat.succ_le_succ ((List.length_filter_le _ _).trans hlen)

theorem procNsByidLoop_spec {fuel : ℕ} (hin : NsInherited s) (hl : ∀ q ∈ l, NsMember s ns q)
    (h : Visits (procNsNext ns) s x l) (hfuel : l.length ≤ fuel) :
    wp (procNsByidLoop ns id fuel x) (fun y t => t = s ∧
      (∀ q, y = some q → q ∈ l ∧ procNsId ns q s = .ok (id, s)) ∧
      (y = none → ∀ q ∈ l, procNsId ns q s ≠ .ok (id, s))) (fun _ => False) s := by
  induction h generalizing fuel
  case done => cases fuel <;> simp [procNsByidLoop]
  case step it x l hnext _ hi =>
    cases fuel
    case zero      => simp at hfuel
    case succ fuel =>
      obtain ⟨i, hid⟩ := (hl it List.mem_cons_self).exists_id hin
      rw [procNsByidLoop, wp_bind, wp_iff_of_ok hid, wp_ite]
      refine ⟨fun he => wp_pure.mpr ⟨rfl, fun q hq => ?_, by simp⟩, fun hne => ?_⟩
      · obtain rfl := Option.some_inj.mp hq
        exact ⟨List.mem_cons_self, he ▸ hid⟩
      · rw [wp_bind, wp_iff_of_ok hnext]
        refine wp_post (hi (fun q hq => hl q (List.mem_cons_of_mem _ hq)) (Nat.le_of_succ_le_succ hfuel)) ?_
        rintro y t ⟨rfl, hfound, hmissing⟩
        refine ⟨rfl, fun q hq => ⟨List.mem_cons_of_mem _ (hfound q hq).1, (hfound q hq).2⟩, ?_⟩
        rintro hy q hq hqid
        obtain rfl | hq := List.mem_cons.mp hq
        · cases hid.symm.trans hqid
          exact hne rfl
        · exact hmissing hy q hq hqid

-- `proc_ns_byid` finds a process with the id, unless there is none.
theorem procNsByid_spec (ht : ProcTree s root r) (hin : NsInherited s) (ho : s.procs.get ns = some o)
    (hpns : o.pns = ns) (id : ℕ) : ∃ x, procNsByid ns id s = .ok (x, s) ∧
      (∀ q, x = some q → NsMember s ns q ∧ procNsId ns q s = .ok (id, s)) ∧
      (x = none ↔ ¬∃ q, NsMember s ns q ∧ procNsId ns q s = .ok (id, s)) := by
  obtain ⟨l, hvisits, _, hmem, hlen⟩ := ht.iterates hin ho hpns
  have hspec : wp (procNsByid ns id) (fun y t => t = s ∧
      (∀ q, y = some q → q ∈ l ∧ procNsId ns q s = .ok (id, s)) ∧
      (y = none → ∀ q ∈ l, procNsId ns q s ≠ .ok (id, s))) (fun _ => False) s := by
    simp only [procNsByid, wp_bind, wp_getProc, ho, Option.elim_some, wp_kassert, hpns, true_implies,
      not_true_eq_false, false_implies, and_true, wp_get]
    exact procNsByidLoop_spec hin (fun q hq => (hmem q).mp hq) hvisits hlen
  obtain ⟨x, t, hrun, rfl, hfound, hmissing⟩ := wp_false_iff.mp hspec
  refine ⟨x, hrun, fun q hq => ⟨(hmem q).mp (hfound q hq).1, (hfound q hq).2⟩, fun hx => ?_, fun hn => ?_⟩
  · rintro ⟨q, hq, hid⟩
    exact hmissing hx q ((hmem q).mpr hq) hid
  · cases x
    case none   => rfl
    case some q => exact absurd ⟨q, (hmem q).mp (hfound q rfl).1, (hfound q rfl).2⟩ hn

-- The iteration over a namespace visits exactly its processes, each of them once, and so a process
-- is found by its id if there is one.
theorem nsIteration_complete (ht : ProcTree s root r) (hin : NsInherited s)
    (ho : s.procs.get ns = some o) (hpns : o.pns = ns) :
    (∃ l, Visits (procNsNext ns) s (some ns) l ∧ l.Nodup ∧ ∀ q, q ∈ l ↔ NsMember s ns q) ∧
    ∀ id, ∃ x, procNsByid ns id s = .ok (x, s) ∧
      (∀ q, x = some q → NsMember s ns q ∧ procNsId ns q s = .ok (id, s)) ∧
      (x = none ↔ ¬∃ q, NsMember s ns q ∧ procNsId ns q s = .ok (id, s)) := by
  obtain ⟨l, hvisits, hn, hmem, _⟩ := ht.iterates hin ho hpns
  exact ⟨⟨l, hvisits, hn, hmem⟩, procNsByid_spec ht hin ho hpns⟩

theorem nsIteration_siblings :
    ∃ l, Visits (procNsNext 0) siblingTree (some 0) l ∧ l.Nodup ∧ ∀ q, q ∈ l ↔ NsMember siblingTree 0 q := by
  have ho : siblingTree.procs.get 0 = some { child := some 1, localid := 1, nextlid := 6 } := rfl
  exact (nsIteration_complete siblingTree_tree siblingTree_inherited ho rfl).1

end Byid

section Fork

variable {s t : State} {env : Env} {p : Pid} {flags : Flags} {paths : List (List UInt8)}

-- What `_sys_fork` returns is the id of the child, unless it fails.
theorem sysFork_returns (hs : SharesOk s) :
    wlp (sysFork env p flags) (fun _ t => ∀ v (id : ℕ), t.procs.get p = some v → v.rax = id →
      ∃ w, t.procs.get s.procs.size = some w ∧ w.parent = some p ∧ w.localid = id) s := by
  have hrest {c : Pid} {t u : State} (ok : Bool) (hb : Born s p flags c t) (hu : Linked t u) :
      wlp (if ok then do sysReturn p (← procNsId (← getProc p).pns c) else sysForkFail env p c)
        (fun _ t => ∀ v (id : ℕ), t.procs.get p = some v → v.rax = id →
          ∃ w, t.procs.get s.procs.size = some w ∧ w.parent = some p ∧ w.localid = id) u := by
    cases ok
    case false =>
      have hret {x : State} : wlp (sysReturn p (-EMFILE))
          (fun _ t => ∀ v, t.procs.get p = some v → v.rax = -EMFILE) x := by
        simp only [sysReturn, wlp_bind, wlp_getProc, wlp_kassert, wlp_regsSavereturn]
        intro v hv _ w hw y hy
        obtain rfl := Option.some_inj.mp ((Heap.get_set_self hw).symm.trans hy)
        rfl
      simp only [Bool.false_eq_true, if_false, sysForkFail, wlp_bind, wlp_updProc]
      refine fun v _ => wlp_post wlp_true fun _ x _ => wlp_post hret fun _ y hy w id hw hid => ?_
      have := hy w hw
      simp only [EMFILE] at this
      omega
    case true =>
      obtain ⟨v, w, hv, _, hw, hchild, hparent, _⟩ := hb.child
      obtain ⟨_, v', o, hv', ho, _⟩ := hb.numbered
      obtain rfl := Option.some_inj.mp (hv.symm.trans hv')
      obtain ⟨w', hw', hkw⟩ := hu.procs.of_get hw
      have hpc : p ≠ c := (hb.fresh ▸ Heap.lt_size hv).ne
      have hpns : w'.pns ≠ c := by
        rw [hkw.pns, hchild.pns]
        exact (hb.fresh ▸ Heap.lt_size ho).ne
      simp only [if_true, wlp_bind, wlp_getProc]
      intro x hx
      obtain ⟨y, hy, hky⟩ := hu.procs.of_get' hx
      obtain ⟨z, hz, _, hzpns⟩ := hb.get_old hv
      obtain rfl := Option.some_inj.mp (hy.symm.trans hz)
      have hxpns : c ≠ x.pns := by
        rw [hky.pns, hzpns, ← hchild.pns, ← hkw.pns]
        exact hpns.symm
      simp only [procNsId, wlp_ite, wlp_bind, wlp_getProc, wlp_pure, wlp_kassert, sysReturn,
        wlp_regsSavereturn]
      refine ⟨fun he => absurd he hxpns, fun _ w'' hw'' => ?_⟩
      obtain rfl := Option.some_inj.mp (hw'.symm.trans hw'')
      refine ⟨fun he => absurd he hpns, fun _ _ x' hx' _ x'' hx'' v id hv hid => ?_⟩
      obtain rfl := Option.some_inj.mp ((Heap.get_set_self hx'').symm.trans hv)
      refine ⟨w', ?_, hkw.parent.trans hparent, Int.ofNat_inj.mp hid⟩
      rw [← hb.fresh, State.withProcs_procs, Heap.get_set_ne hpc.symm]
      exact hw'
  simp only [sysFork, wlp_bind]
  refine wlp_post (procFork_spec hs) fun c t hx => ?_
  obtain ⟨_, hb⟩ := hx
  refine wlp_post (respects_linked regsSavereturn_calm t) fun _ u hu => ?_
  rw [wlp_ite]
  refine ⟨fun _ => ?_, fun _ => hrest true hb hu⟩
  rw [wlp_bind]
  exact wlp_post (respects_linked sysForkNewfs_calm u) fun ok x hx => hrest ok hb (trans_of Linked hu hx)

-- The ids in every namespace are different from each other and no assertion of `proc_ns_id` fails.
-- They are smaller than the next one, unless there are no ids left.
theorem NsRun.ids (hr : NsRun paths s) :
    NsInherited s ∧ (∀ ns o, s.procs.get ns = some o → o.pns = ns →
      (∀ q, NsMember s ns q → ∃ id, procNsId ns q s = .ok (id, s) ∧ 1 ≤ id ∧ (id = 1 ↔ q = ns) ∧
        (s.nextPid ≠ 0 → id < o.nextlid)) ∧
      ∀ q r id, NsMember s ns q → NsMember s ns r → procNsId ns q s = .ok (id, s) →
        procNsId ns r s = .ok (id, s) → q = r) ∧
    ∀ p flags t v (id : ℕ), Step s (.syscall p (.fork flags)) t → t.procs.get p = some v → v.rax = id →
      ∃ c w, t.procs.get c = some w ∧ s.procs.get c = none ∧ w.parent = some p ∧
        procNsByid v.pns id t = .ok (some c, t) := by
  have ⟨hshares, _, _, _, hnames⟩ := hr.pids
  refine ⟨hnames.inherited, fun ns o ho hpns => ?_, fun p flags t v id hstep hv hid => ?_⟩
  · have hself : procNsId ns ns s = .ok (1, s) := ok_of_wp (wp_procNsId_self ⟨rfl, rfl⟩)
    have hother {q : Pid} {w : Proc} (hq : Inside s ns q w) (hne : q ≠ ns) :
        procNsId ns q s = .ok (w.localid, s) :=
      ok_of_wp (wp_procNsId hnames.inherited hq hne ⟨rfl, rfl⟩)
    refine ⟨fun q hq => ?_, fun q r id hq hr' hqid hrid => ?_⟩
    · by_cases hne : q = ns
      case pos =>
        subst hne
        refine ⟨1, hself, le_rfl, by simp, fun hn => ?_⟩
        have := (hnames.next hn q o ho hpns).1
        omega
      case neg =>
        obtain ⟨w, hw⟩ := (nsMember_iff.mp hq).resolve_left hne
        have htwo := hnames.least ns q w hw
        refine ⟨w.localid, hother hw hne, by omega, ?_, fun hn => (hnames.next hn ns o ho hpns).2.2 q w hw⟩
        exact ⟨fun h => by omega, fun h => absurd h hne⟩
    · have hid {x : Pid} (hx : NsMember s ns x) (hxid : procNsId ns x s = .ok (id, s)) :
          x = ns ∧ id = 1 ∨ 2 ≤ id ∧ ∃ w, Inside s ns x w ∧ w.localid = id := by
        by_cases hne : x = ns
        case pos =>
          rw [hne, hself] at hxid
          cases hxid
          exact .inl ⟨hne, rfl⟩
        case neg =>
          obtain ⟨w, hw⟩ := (nsMember_iff.mp hx).resolve_left hne
          rw [hother hw hne] at hxid
          cases hxid
          exact .inr ⟨hnames.least ns x w hw, w, hw, rfl⟩
      obtain ⟨hq', hid₁⟩ | ⟨h₁, w, hw, hwid⟩ := hid hq hqid <;>
        obtain ⟨hr'', hid₂⟩ | ⟨h₂, x, hx, hxid⟩ := hid hr' hrid
      · rw [hq', hr'']
      · omega
      · omega
      · exact hnames.unique ns q r w x hw hx (hwid.trans hxid.symm)
  · have ⟨_, _, _, hfam, hnames'⟩ := (hr.step hstep).pids
    obtain ⟨w, hw, hparent, hlid⟩ := hstep.of_wlp (fun env => sysFork_returns hshares) v id hv hid
    have hinside : Inside t v.pns s.procs.size w := ⟨hw, p, v, hparent, hv, rfl⟩
    have htwo := hnames'.least _ _ w hinside
    obtain ⟨o, ho, hpns⟩ := hfam.owner hnames'.inherited hv
    refine ⟨s.procs.size, w, hw, Heap.get_size, hparent, ?_⟩
    obtain ⟨_, ht⟩ := hfam
    have hne : s.procs.size ≠ v.pns := ht.inside_ne hnames'.inherited ho hinside
    obtain ⟨x, hrun, hfound, hmissing⟩ := procNsByid_spec ht hnames'.inherited ho hpns id
    cases x
    case none   =>
      have hid := procNsId_of_inside hnames'.inherited hinside hne
      exact absurd ⟨_, nsMember_iff.mpr (.inr ⟨w, hinside⟩), hlid ▸ hid⟩ (hmissing.mp rfl)
    case some q =>
      obtain ⟨hq, hqid⟩ := hfound q rfl
      by_cases hqns : q = v.pns
      case pos =>
        have hself : procNsId q q t = .ok (1, t) := ok_of_wp (wp_procNsId_self ⟨rfl, rfl⟩)
        rw [← hqns, hself] at hqid
        cases hqid
        omega
      case neg =>
        obtain ⟨y, hy⟩ := (nsMember_iff.mp hq).resolve_left hqns
        cases (procNsId_of_inside hnames'.inherited hy hqns).symm.trans hqid
        obtain rfl := hnames'.unique _ _ _ y w hy hinside hlid.symm
        exact hrun

theorem NsRun.ids_forked : ∃ c w, forked.procs.get c = some w ∧
    (bootState [[]]).procs.get c = none ∧ w.parent = some 0 ∧
    procNsByid 0 2 forked = .ok (some c, forked) :=
  (NsRun.ids .boot).2.2 0 0 forked _ 2 step_forked rfl rfl

end Fork
end Camellia
