import Camellia.Kernel.Proc
import Camellia.Lib.LinkTree
import Mathlib.Data.List.Range
import Mathlib.Tactic.IntervalCases

open Forest

namespace Camellia

def procLinks (s : State) (p : Pid) : Option (Links Pid) :=
  (s.procs.get p).map fun v => ⟨v.child, v.sibling, v.parent⟩

-- All processes form one tree, in which `c` are the descendants of the process `root`.
structure ProcTree (s : State) (root : Pid) (c : Forest Pid) : Prop where
  linked   : (node root c nil).Linked (procLinks s) none
  nodup    : (node root c nil).nodes.Nodup
  complete : ∀ p v, s.procs.get p = some v → p ∈ (node root c nil).nodes

-- Every `pns` is the process itself or its parent's `pns`.
def NsInherited (s : State) : Prop :=
  ∀ p v, s.procs.get p = some v →
    v.pns = p ∨ ∃ q w, v.parent = some q ∧ s.procs.get q = some w ∧ v.pns = w.pns

-- `q` is in the namespace of its parent, which is `ns`. The only other process in `ns` is its owner.
def Inside (s : State) (ns q : Pid) (v : Proc) : Prop :=
  s.procs.get q = some v ∧ ∃ p w, v.parent = some p ∧ s.procs.get p = some w ∧ w.pns = ns

-- `q` is a strict descendant of `p`.
def Descendant (s : State) : Pid → Pid → Prop :=
  Relation.TransGen fun b a => ∃ v, s.procs.get a = some v ∧ v.parent = some b

-- The namespace `p` was split off exactly from `old`: it holds `p` and the descendants of `p` which
-- were in `old`, and all other processes are where they were.
def NsCreated (s s' : State) (p old : Pid) : Prop :=
  ∀ q v, s.procs.get q = some v → ∃ v', s'.procs.get q = some v' ∧
    (v'.pns = p ↔ q = p ∨ Descendant s p q ∧ v.pns = old) ∧
    (¬(q = p ∨ Descendant s p q ∧ v.pns = old) → v'.pns = v.pns)

section Shape

variable {s t : State} {p q root : Pid} {v w : Proc} {r f c sib : Forest Pid} {fs : Frames Pid}

theorem procLinks_of_get (h : s.procs.get p = some v) :
    procLinks s p = some ⟨v.child, v.sibling, v.parent⟩ := by
  simp [procLinks, h]

theorem get_of_procLinks {l : Links Pid} (h : procLinks s p = some l) :
    ∃ v, s.procs.get p = some v ∧ l = ⟨v.child, v.sibling, v.parent⟩ := by
  cases hp : s.procs.get p
  case none   => simp [procLinks, hp] at h
  case some v => exact ⟨v, rfl, by simpa [procLinks, hp] using h.symm⟩

-- Different processes of a heap are fewer than its size.
theorem length_le_size {l : List Pid} (hn : l.Nodup) (hl : ∀ p ∈ l, ∃ v, procLinks s p = some v) :
    l.length ≤ s.procs.size := by
  have hsub : l ⊆ List.range s.procs.size := fun p hp => by
    have ⟨_, hv⟩ := hl p hp
    have ⟨_, hv, _⟩ := get_of_procLinks hv
    exact List.mem_range.mpr <| Heap.lt_size hv
  simpa using (List.subperm_of_subset hn hsub).length_le

theorem Frames.linked_get {par : Option Pid} (h : fs.Linked (procLinks s) par)
    (hp : p ∈ fs.ancestors) : ∃ v, procLinks s p = some v := by
  induction fs
  case nil => simp [Frames.ancestors] at hp
  case cons a fs hi =>
    obtain ⟨⟨_, ha⟩, _, hf⟩ := h
    simp only [Frames.ancestors, List.map_cons, List.mem_cons] at hp
    cases hp
    case inl hp => exact ⟨_, hp ▸ ha⟩
    case inr hp => exact hi hf hp

theorem focus_length_le {par : Option Pid} (h : Focus r f fs)
    (hr : r.Linked (procLinks s) par) (hn : r.nodes.Nodup) : fs.length ≤ s.procs.size := by
  have hd := (List.nodup_append.mp <| (List.nodup_append.mp <| h.nodup hn).2.1).2.1
  have := length_le_size hd fun _ => Frames.linked_get (h.linked hr).2
  simpa [Frames.ancestors] using this

end Shape

section Climb

variable {s t : State} {p old it : Pid} {r f c sib : Forest Pid} {fs : Frames Pid}
variable {E : Fault → Prop}

-- The inner loop goes to the next process in the order of a depth-first search, as long as there is
-- one below `p` or outside of it.
theorem procNsCreateClimb_spec {par ch : Option Pid} {fuel : ℕ} (sp : Option Pid)
    (h : Focus r sib fs)
    (hr : r.Linked (procLinks s) par) (hp : p ∉ fs.ancestors)
    (hit : procLinks s it = some ⟨ch, sib.head, fs.parent par⟩)
    (htop : par = none ∧ E (.assert .procNsCreateParent) ∨
      par = some p ∧ ∃ v, s.procs.get p = some v ∧ v.sibling = sp)
    (hfuel : fs.length < fuel) :
    wp (procNsCreateClimb p fuel it) (fun o t => t = s ∧
      ((∃ f' fs', Focus r f' fs' ∧ f' ≠ nil ∧ o = f'.head ∧
        f'.nodes ++ fs'.rest = sib.nodes ++ fs.rest ∧ fs'.ancestors ⊆ fs.ancestors) ∨
      (par = some p ∧ o = sp ∧ sib.nodes ++ fs.rest = []))) E s := by
  induction fuel generalizing it sib fs ch
  case zero => contradiction
  case succ fuel hi =>
    obtain ⟨v, hv, hl⟩ := get_of_procLinks hit
    simp only [Links.mk.injEq] at hl
    simp only [procNsCreateClimb, wp_bind, wp_getProc, hv, Option.elim_some, ← hl.2.1, ← hl.2.2]
    cases sib
    case node b cb sb =>
      simp only [head, wp_pure]
      exact ⟨trivial, .inl ⟨_, fs, h, by simp, rfl, rfl, fun _ => id⟩⟩
    case nil =>
      cases fs
      case nil =>
        obtain ⟨rfl, he⟩ | ⟨rfl, w, hw, rfl⟩ := htop
        · simpa [head, Frames.parent] using he
        · simp [head, Frames.parent, hw, nodes, Frames.rest]
      case cons x fs =>
        obtain ⟨⟨_, ha⟩, hs, hf⟩ := (h.linked hr).2
        have hx : x.1 ≠ p := fun he => hp (by simp [Frames.ancestors, he])
        have hp' : p ∉ Frames.ancestors fs := fun hm => hp (List.mem_cons_of_mem _ hm)
        simp only [head, Frames.parent, hx, if_false]
        refine wp_post (hi h.up hp' ha (Nat.lt_of_succ_lt_succ hfuel)) ?_
        rintro o t ⟨rfl, ho⟩
        refine ⟨rfl, ho.imp ?_ ?_⟩
        · rintro ⟨f', fs', h', hn', ho', hr', ha'⟩
          exact ⟨f', fs', h', hn', ho', hr', fun y hy => List.mem_cons_of_mem _ (ha' hy)⟩
        · exact id

end Climb

section Visit

variable {s t : State} {p old it : Pid} {v w : Proc} {E : Fault → Prop}

theorem procNsCreateLid_spec (hit : t.procs.get it = some v) (hp : t.procs.get p = some w) :
    wp (procNsCreateLid p it) (fun _ t' => t'.procs.size = t.procs.size ∧
      ∀ q, t'.procs.get q = (t.procs.get q).map fun u =>
        if q = p then { u with nextlid := max w.nextlid ((v.localid + 1) % 2 ^ 32) } else u) E t := by
  simp only [procNsCreateLid, wp_bind, wp_getProc, hit, hp, Option.elim_some, wp_ite, wp_updProc,
    wp_pure, Heap.size_set]
  refine ⟨fun hlt => ⟨trivial, fun q => ?_⟩, fun hle => ⟨trivial, fun q => ?_⟩⟩
  · rw [max_eq_right hlt.le]
    by_cases hq : q = p <;> simp [Heap.get_set hp, hq, hp]
  · rw [max_eq_left (not_lt.mp hle)]
    by_cases hq : q = p <;> simp [hq, hp]

theorem procNsCreateMove_spec (hit : t.procs.get it = some v)
    (he : v.pns ≠ old → v.pns ≠ it → E (.assert .procNsCreateOwner)) :
    wp (procNsCreateMove p old it) (fun _ t' => t'.procs.size = t.procs.size ∧
      ∀ q, t'.procs.get q = (t.procs.get q).map fun u =>
        if q = it ∧ u.pns = old then { u with pns := p } else u) E t := by
  simp only [procNsCreateMove, wp_bind, wp_getProc, hit, Option.elim_some, wp_ite, wp_updProc,
    wp_kassert, Heap.size_set]
  refine ⟨fun ho => ⟨trivial, fun q => ?_⟩, fun ho => ⟨fun _ => ⟨trivial, fun q => ?_⟩, he ho⟩⟩
  · by_cases hq : q = it <;> simp [Heap.get_set hit, hq, hit, ho]
  · by_cases hq : q = it <;> simp [hq, hit, ho]

-- A visit changes the `pns` of the visited process, if it is the old one, and the `nextlid` of `p`
-- comes after its id.
theorem procNsCreateVisit_spec (hit : t.procs.get it = some v) (hp : t.procs.get p = some w)
    (hne : it ≠ p) (he : v.pns ≠ old → v.pns ≠ it → E (.assert .procNsCreateOwner)) :
    wp (procNsCreateVisit p old it) (fun _ t' => t'.procs.size = t.procs.size ∧
      ∀ q, t'.procs.get q = (t.procs.get q).map fun u =>
        if q = p then { u with nextlid := max w.nextlid ((v.localid + 1) % 2 ^ 32) }
        else if q = it ∧ u.pns = old then { u with pns := p } else u) E t := by
  simp only [procNsCreateVisit, ne_eq, hne, not_false_eq_true, if_true, wp_bind]
  refine wp_post (procNsCreateLid_spec hit hp) fun _ t₁ hx => ?_
  obtain ⟨hs₁, h₁⟩ := hx
  have hit₁ : t₁.procs.get it = some v := by simp [h₁, hit, hne]
  refine wp_post (procNsCreateMove_spec hit₁ he) fun _ t₂ hx => ?_
  obtain ⟨hs₂, h₂⟩ := hx
  refine ⟨hs₂.trans hs₁, fun q => ?_⟩
  rw [h₂, h₁, Option.map_map]
  congr 1
  funext u
  by_cases hq : q = p
  case pos => simp [hq, Ne.symm hne]
  case neg => simp [hq]

theorem procNsContains_spec {ns : Pid} {Q : Bool → State → Prop} (hv : t.procs.get it = some v)
    (hp : v.parent = some p) (hw : t.procs.get p = some w) (hq : Q (ns = it ∨ w.pns = ns) t) :
    wp (procNsContains ns it) Q E t := by
  by_cases hns : ns = it
  case pos => simpa [procNsContains, hns] using hq
  case neg => simpa [procNsContains, hns, hv, hp, hw] using hq

-- The walk descends only if there is a child, and for a process other than `p` and `old` whose
-- children are neither, only if the process itself is in one of the two namespaces.
theorem procNsCreateDescends_spec {f : Forest Pid} (hit : t.procs.get it = some v)
    (hf : f.Linked (procLinks t) (some it)) :
    wp (procNsCreateDescends p old f.head) (fun b t' => t' = t ∧ (b = true → f ≠ nil) ∧
      (p ∉ f.nodes → old ∉ f.nodes → f ≠ nil → (b = true ↔ v.pns = p ∨ v.pns = old))) E t := by
  cases f
  case nil => simp [head, procNsCreateDescends]
  case node a c sib =>
    obtain ⟨w, hw, hl⟩ := get_of_procLinks hf.1
    simp only [Links.mk.injEq] at hl
    simp only [head, procNsCreateDescends, wp_bind]
    refine procNsContains_spec hw hl.2.2.symm hit ?_
    simp only [wp_ite, wp_pure, decide_eq_true_eq]
    refine ⟨fun h => ⟨trivial, by simp, fun hp _ _ => ?_⟩, fun h => ?_⟩
    · simp only [nodes, List.mem_cons] at hp
      tauto
    · refine procNsContains_spec hw hl.2.2.symm hit ⟨rfl, by simp, fun hp ho _ => ?_⟩
      simp only [nodes, List.mem_cons] at hp ho
      simp only [decide_eq_true_eq]
      tauto

end Visit

section Escape

variable {s t : State} {p old : Pid} {r f : Forest Pid} {fs : Frames Pid}

def Fault.IsAssert (e : Fault) : Prop :=
  ∃ site, e = .assert site

theorem procLinks_visit {t t' : State} {it n : ℕ}
    (h : ∀ q, t'.procs.get q = (t.procs.get q).map fun u =>
      if q = p then { u with nextlid := n }
      else if q = it ∧ u.pns = old then { u with pns := p } else u) :
    procLinks t' = procLinks t := by
  funext q
  simp only [procLinks, h, Option.map_map]
  congr 1
  funext u
  simp only [Function.comp_apply]
  split
  · rfl
  · split <;> rfl

-- Outside of the processes below `p` the walk has nowhere to stop: it moves on until an assertion
-- fails, at the latest the one for the parent of the root.
theorem procNsCreateLoop_escape {w : Proc} {fuel : ℕ} (h : Focus r f fs) (hf : f ≠ nil)
    (hr : r.Linked (procLinks t) none) (hn : r.nodes.Nodup)
    (hp : p ∉ f.nodes ∧ p ∉ fs.rest ∧ p ∉ fs.ancestors) (hw : t.procs.get p = some w)
    (hfuel : (f.nodes ++ fs.rest).length < fuel) :
    wp (procNsCreateLoop p old fuel f.head) (fun _ _ => False) Fault.IsAssert t := by
  induction fuel generalizing t f fs w
  case zero => contradiction
  case succ fuel hi =>
    cases f
    case nil => contradiction
    case node it c sib =>
      obtain ⟨⟨hl, _, _⟩, _⟩ := h.linked hr
      obtain ⟨v, hv, _⟩ := get_of_procLinks hl
      simp only [nodes, List.mem_cons, List.mem_append, not_or] at hp
      have hit : it ≠ p := fun he => hp.1.1 he.symm
      simp only [head, procNsCreateLoop, wp_bind]
      refine wp_post (procNsCreateVisit_spec hv hw hit fun _ _ => ⟨_, rfl⟩) ?_
      rintro _ t₁ ⟨-, h₁⟩
      have hl₁ := procLinks_visit h₁
      have hr₁ : r.Linked (procLinks t₁) none := hl₁ ▸ hr
      obtain ⟨⟨hit₁, hc₁, _⟩, _⟩ := h.linked hr₁
      obtain ⟨v₁, hv₁, hlv⟩ := get_of_procLinks hit₁
      obtain ⟨w₁, hw₁, -⟩ := get_of_procLinks (hl₁ ▸ procLinks_of_get hw)
      simp only [Links.mk.injEq] at hlv
      simp only [procNsCreateNext, wp_bind, wp_getProc, hv₁, Option.elim_some, ← hlv.1]
      refine wp_post (procNsCreateDescends_spec hv₁ hc₁) ?_
      rintro b _ ⟨rfl, hb, -⟩
      simp only [nodes, List.cons_append, List.length_cons, List.append_assoc] at hfuel
      simp only [wp_ite, wp_pure, hit, false_implies, not_false_eq_true, true_implies, true_and,
        wp_bind, wp_get]
      refine ⟨fun hd => ?_, fun _ => ?_⟩
      · refine hi h.down (hb hd) hr₁ ?_ hw₁ ?_
        · simp only [Frames.rest, Frames.ancestors, List.map_cons, List.mem_append, List.mem_cons]
          simp only [Frames.ancestors] at hp
          tauto
        · simp only [Frames.rest]
          omega
      · refine wp_post (procNsCreateClimb_spec none h.next hr₁ hp.2.2 hit₁
          (.inl ⟨rfl, _, rfl⟩) (Nat.lt_succ_of_le (focus_length_le h hr₁ hn))) ?_
        rintro o _ ⟨rfl, ⟨f', fs', h', hf', rfl, hrest, hanc⟩ | ⟨hpar, -⟩⟩
        · refine hi h' hf' hr₁ ?_ hw₁ ?_
          · have hm : ∀ x, x ∈ f'.nodes ++ fs'.rest ↔ x ∈ sib.nodes ++ fs.rest := by simp [hrest]
            simp only [List.mem_append] at hm
            have := hm p
            have := @hanc p
            tauto
          · rw [hrest]
            simp only [List.length_append] at hfuel ⊢
            omega
        · contradiction

end Escape

section Below

-- What a process looks like while the walk goes through the processes `below` the process `p` and
-- `rem` are left to be visited.
def nsMoved (p old n : ℕ) (below rem : List Pid) (q : Pid) (v : Proc) : Proc :=
  if q = p then { v with pns := p, nextlid := n }
  else if q ∈ below ∧ q ∉ rem ∧ v.pns = old then { v with pns := p } else v

-- The `nextlid` of the new namespace comes after the ids of those which were visited.
structure NsNext (s : State) (old : Pid) (below rem : List Pid) (n : ℕ) : Prop where
  two   : 2 ≤ n
  upper : n = 2 ∨ ∃ q v, Inside s old q v ∧ n = (v.localid + 1) % 2 ^ 32
  lower : ∀ q v, q ∈ below → q ∉ rem → Inside s old q v → (v.localid + 1) % 2 ^ 32 ≤ n

def NsMoved (s : State) (p old : Pid) (below rem : List Pid) (t : State) : Prop :=
  t.procs.size = s.procs.size ∧
  ∃ n, NsNext s old below rem n ∧
    ∀ q, t.procs.get q = (s.procs.get q).map (nsMoved p old n below rem q)

variable {s t t' : State} {p old it : Pid} {v : Proc} {below rem rem' : List Pid}
variable {r f : Forest Pid} {fs : Frames Pid}

theorem NsMoved.procLinks_eq (h : NsMoved s p old below rem t) : procLinks t = procLinks s := by
  have ⟨_, n, _, h⟩ := h
  funext q
  simp only [procLinks, h, Option.map_map]
  congr 1
  funext u
  simp only [Function.comp_apply, nsMoved]
  split
  · rfl
  · split <;> rfl

theorem NsNext.visit (h : NsNext s old below (it :: rem) n) (hin : Inside s old it v) :
    NsNext s old below rem (max n ((v.localid + 1) % 2 ^ 32)) where
  two   := h.two.trans (le_max_left _ _)
  upper := by
    cases max_choice n ((v.localid + 1) % 2 ^ 32)
    case inl hn =>
      rw [hn]
      exact h.upper
    case inr hn => exact .inr ⟨it, v, hin, hn⟩
  lower := fun q w hq hrem hw => by
    by_cases hqi : q = it
    case pos =>
      obtain rfl := Option.some_inj.mp ((hqi ▸ hin.1).symm.trans hw.1)
      exact le_max_right _ _
    case neg => exact (h.lower q w hq (by simp [hqi, hrem]) hw).trans (le_max_left _ _)

theorem NsMoved.visit {u : Proc} (h : NsMoved s p old below (it :: rem) t) (hit : it ∈ below)
    (hrem : it ∉ rem) (hp : t.procs.get p = some u) (hin : Inside s old it v)
    (hs : t'.procs.size = t.procs.size)
    (h' : ∀ q, t'.procs.get q = (t.procs.get q).map fun x =>
      if q = p then { x with nextlid := max u.nextlid ((v.localid + 1) % 2 ^ 32) }
      else if q = it ∧ x.pns = old then { x with pns := p } else x) :
    NsMoved s p old below rem t' := by
  have ⟨hs', m, hm, h⟩ := h
  have hum : u.nextlid = m := by
    rw [h] at hp
    obtain ⟨x, _, rfl⟩ := Option.map_eq_some_iff.mp hp
    simp [nsMoved]
  refine ⟨hs.trans hs', _, hum ▸ hm.visit hin, fun q => ?_⟩
  rw [h', h, Option.map_map]
  congr 1
  funext u
  by_cases hq : q = p
  case pos => simp [nsMoved, hq]
  case neg =>
    by_cases hqi : q = it
    case pos =>
      subst hqi
      simp [nsMoved, hq, hit, hrem]
    case neg => simp [nsMoved, hq, hqi]

-- Processes of other namespaces need not be visited.
theorem NsMoved.skip (h : NsMoved s p old below rem t) (hsub : ∀ q ∈ rem', q ∈ rem)
    (hskip : ∀ q ∈ rem, q ∉ rem' → ∀ v, s.procs.get q = some v → v.pns ≠ old)
    (hout : ∀ q ∈ rem, q ∉ rem' → ∀ v, ¬Inside s old q v) :
    NsMoved s p old below rem' t := by
  have ⟨hs, n, hn, h⟩ := h
  have hlower (q : Pid) (v : Proc) (hq : q ∈ below) (hrem : q ∉ rem') (hv : Inside s old q v) :
      (v.localid + 1) % 2 ^ 32 ≤ n :=
    hn.lower q v hq (fun hr => hout q hr hrem v hv) hv
  refine ⟨hs, n, ⟨hn.two, hn.upper, hlower⟩, fun q => ?_⟩
  rw [h]
  cases hq : s.procs.get q
  case none => rfl
  case some v =>
    have h₁ := hsub q
    have h₂ := fun hr hr' => hskip q hr hr' v hq
    simp only [Option.map_some, nsMoved]
    grind

-- In a forest whose nodes inherit their namespace from a process outside of `old`, no process is in
-- `old`.
theorem pns_ne_of_linked {w : Proc} (hns : NsInherited s) (hf : f.Linked (procLinks s) (some it))
    (hw : s.procs.get it = some w) (hne : w.pns ≠ old) (ho : old ∉ f.nodes) :
    ∀ q ∈ f.nodes, ∀ v, s.procs.get q = some v → v.pns ≠ old := by
  generalize hpar : some it = par at hf
  induction f generalizing par it w
  case nil => simp [nodes]
  case node a c sib hc hs =>
    obtain ⟨ha, hlc, hls⟩ := hf
    simp only [nodes, List.mem_cons, List.mem_append, not_or] at ho
    obtain ⟨u, hu, hl⟩ := get_of_procLinks ha
    simp only [Links.mk.injEq] at hl
    have hau : u.pns ≠ old := by
      obtain h | ⟨q, w', hq, hw', h⟩ := hns a u hu
      · exact fun he => ho.1 (he.symm.trans h)
      · have : it = q := Option.some.inj (hpar.trans (hl.2.2.trans hq))
        subst this
        simp_all
    simp only [nodes, List.mem_cons, List.mem_append]
    rintro q (rfl | hq | hq)
    · intro v hv
      simp_all
    · exact hc hu hau ho.2.1 _ rfl hlc q hq
    · exact hs hw hne ho.2.2 _ hpar hls q hq

theorem not_inside_of_linked {w : Proc} (hns : NsInherited s) (hf : f.Linked (procLinks s) (some it))
    (hw : s.procs.get it = some w) (hne : w.pns ≠ old) (ho : old ∉ f.nodes) :
    ∀ q ∈ f.nodes, ∀ v, ¬Inside s old q v := by
  rintro q hq v ⟨hv, a, x, ha, hx, hxo⟩
  obtain h | ⟨b, hb, h⟩ := hf.parent hq (procLinks_of_get hv)
  · obtain rfl : it = a := Option.some_inj.mp (h.symm.trans ha)
    obtain rfl := Option.some_inj.mp (hw.symm.trans hx)
    exact hne hxo
  · obtain rfl : b = a := Option.some_inj.mp (h.symm.trans ha)
    exact pns_ne_of_linked hns hf hw hne ho b hb x hx hxo

-- Below `p` the walk visits all processes that were in the namespace `old`, and then goes on with
-- the sibling of `p`.
theorem procNsCreateLoop_below {fuel : ℕ} {Q : Unit → State → Prop} {E : Fault → Prop}
    (hns : NsInherited s) (hv : s.procs.get p = some v) (ho : v.pns = old)
    (hr : r.Linked (procLinks s) (some p)) (hn : r.nodes.Nodup) (hp : p ∉ r.nodes)
    (hor : old ∉ r.nodes) (h : Focus r f fs) (hf : f ≠ nil)
    (hanc : ∀ a ∈ fs.ancestors, ∃ w, s.procs.get a = some w ∧ w.pns = old)
    (hm : NsMoved s p old r.nodes (f.nodes ++ fs.rest) t)
    (hfuel : (f.nodes ++ fs.rest).length ≤ fuel)
    (hnext : ∀ fuel' t', fuel ≤ fuel' + (f.nodes ++ fs.rest).length →
      NsMoved s p old r.nodes [] t' → wp (procNsCreateLoop p old fuel' v.sibling) Q E t') :
    wp (procNsCreateLoop p old fuel f.head) Q E t := by
  induction fuel generalizing t f fs
  case zero =>
    cases f
    case nil  => contradiction
    case node => simp [nodes] at hfuel
  case succ fuel hi =>
    cases f
    case nil => contradiction
    case node it c sib =>
      obtain ⟨⟨hl, hlc, hls⟩, hlf⟩ := h.linked hr
      have hd := h.nodup hn
      have hmem : ∀ q, q = it ∨ q ∈ c.nodes → q ∈ r.nodes := fun q hq => h.mem <| .inl <| by
        simp only [nodes, List.mem_cons, List.mem_append]
        tauto
      simp only [nodes, List.cons_append, List.append_assoc, List.nodup_cons, List.mem_append,
        not_or] at hd
      simp only [nodes, List.cons_append, List.append_assoc, List.length_cons] at hm hfuel hnext
      have hip : it ≠ p := fun he => hp <| hmem p <| .inl he.symm
      have hio : it ≠ old := fun he => hor <| hmem old <| .inl he.symm
      obtain ⟨u, hu, hlu⟩ := get_of_procLinks hl
      simp only [Links.mk.injEq] at hlu
      have hin : Inside s old it u := by
        refine ⟨hu, ?_⟩
        rw [← hlu.2.2]
        cases fs
        case nil       => exact ⟨p, v, rfl, hv, ho⟩
        case cons x fs =>
          obtain ⟨w, hw, hwo⟩ := hanc x.1 (by simp [Frames.ancestors])
          exact ⟨x.1, w, rfl, hw, hwo⟩
      have hpns : u.pns = it ∨ u.pns = old := by
        refine (hns it u hu).imp_right fun hx => ?_
        obtain ⟨q, w, hq, hw, he⟩ := hx
        obtain ⟨_, a, x, ha, hx, hxo⟩ := hin
        obtain rfl : a = q := Option.some_inj.mp (ha.symm.trans hq)
        obtain rfl := Option.some_inj.mp (hw.symm.trans hx)
        exact he.trans hxo
      -- The visit.
      obtain ⟨_, n, _, hget⟩ := id hm
      have hut : t.procs.get it = some u := by simp [hget, hu, nsMoved, hip]
      obtain ⟨w, hw⟩ : ∃ w, t.procs.get p = some w := ⟨_, by rw [hget, hv]; rfl⟩
      simp only [head, procNsCreateLoop, wp_bind]
      refine wp_post (procNsCreateVisit_spec hut hw hip fun h₁ h₂ => (hpns.elim h₂ h₁).elim) ?_
      rintro _ t₁ ⟨hs₁, h₁⟩
      replace hm := hm.visit (hmem it (.inl rfl)) (by simp [hd]) hw hin hs₁ h₁
      obtain ⟨_, n₂, _, hget₁⟩ := id hm
      have hl₁ := hm.procLinks_eq
      have hr₁ : r.Linked (procLinks t₁) (some p) := hl₁ ▸ hr
      have hu₁ : t₁.procs.get it = some (if u.pns = old then { u with pns := p } else u) := by
        simp [hget₁, hu, nsMoved, hip, hmem, hd]
      have hc₁ : (if u.pns = old then { u with pns := p } else u).child = c.head := by
        split <;> exact hlu.1.symm
      -- The choice of the next process.
      simp only [procNsCreateNext, wp_bind, wp_getProc, hu₁, Option.elim_some, hc₁]
      refine wp_post (procNsCreateDescends_spec hu₁ (hl₁ ▸ hlc)) ?_
      rintro b t₁ ⟨rfl, hb, hb'⟩
      replace hb' := hb' (fun hm => hp <| hmem p <| .inr hm) (fun hm => hor <| hmem old <| .inr hm)
      simp only [wp_ite, wp_pure, hip, false_implies, not_false_eq_true, true_implies, true_and,
        wp_bind, wp_get]
      refine ⟨fun hdesc => ?_, fun hdesc => ?_⟩
      · have huo : u.pns = old := by
          by_contra hne
          have := (hb' (hb hdesc)).mp hdesc
          simp only [hne, if_false] at this
          grind
        refine hi h.down (hb hdesc) ?_ hm (Nat.le_of_succ_le_succ hfuel) ?_
        · intro a ha
          simp only [Frames.ancestors, List.map_cons, List.mem_cons] at ha
          obtain rfl | ha := ha
          · exact ⟨u, hu, huo⟩
          · exact hanc a ha
        · exact fun fuel' t' hle => hnext fuel' t' (Nat.succ_le_succ hle)
      · have hskip : c = nil ∨ u.pns ≠ old ∧ old ∉ c.nodes := by
          refine or_iff_not_imp_left.mpr fun hcn => ⟨fun huo => ?_, fun hm => hor <| hmem old <| .inr hm⟩
          exact hdesc <| (hb' hcn).mpr <| .inl <| by simp [huo]
        replace hm : NsMoved s p old r.nodes (sib.nodes ++ fs.rest) t₁ := by
          obtain rfl | ⟨huo, hoc⟩ := hskip
          · simpa [nodes] using hm
          refine hm.skip (fun q hq => List.mem_append_right _ hq) (fun q hq hq' => ?_) fun q hq hq' => ?_
          · exact pns_ne_of_linked hns hlc hu huo hoc q <| (List.mem_append.mp hq).resolve_right hq'
          · exact not_inside_of_linked hns hlc hu huo hoc q <| (List.mem_append.mp hq).resolve_right hq'
        refine wp_post (procNsCreateClimb_spec v.sibling h.next hr₁ ?_ (hl₁ ▸ hl)
          (.inr ⟨rfl, _, by rw [hget₁, hv]; rfl, by simp [nsMoved]⟩)
          (Nat.lt_succ_of_le (focus_length_le h hr₁ hn))) ?_
        · exact fun hm => hp <| h.mem <| .inr <| .inr hm
        · rintro o _ ⟨rfl, ⟨f', fs', h', hf', rfl, hrest, hanc'⟩ | ⟨-, rfl, hrest⟩⟩
          · rw [← hrest] at hm hfuel hnext
            refine hi h' hf' (fun a ha => hanc a (hanc' ha)) hm ?_ fun fuel' t' hle => ?_
            · simp only [List.length_append] at hfuel ⊢
              omega
            · refine hnext fuel' t' ?_
              simp only [List.length_append] at hle ⊢
              omega
          · rw [hrest] at hm
            refine hnext fuel _ ?_ hm
            omega

end Below

section Create

variable {s t : State} {p q root : Pid} {v : Proc} {r c sib : Forest Pid} {fs : Frames Pid}

theorem descendant_eq : Descendant s = Relation.TransGen (IsParent (procLinks s)) := by
  have : IsParent (procLinks s) = fun b a => ∃ v, s.procs.get a = some v ∧ v.parent = some b := by
    funext b a
    refine propext ⟨fun ⟨l, hl, hp⟩ => ?_, fun ⟨v, hv, hp⟩ => ⟨_, procLinks_of_get hv, hp⟩⟩
    have ⟨v, hv, he⟩ := get_of_procLinks hl
    exact ⟨v, hv, by simpa [he] using hp⟩
  rw [Descendant, this]

-- A namespace is owned by a process in it, and the others in it are below the owner.
theorem pns_owner (hns : NsInherited s) (hfs : fs.Linked (procLinks s) none)
    (hv : s.procs.get q = some v) (hp : v.parent = fs.parent none) :
    (v.pns = q ∨ v.pns ∈ fs.ancestors) ∧ ∃ w, s.procs.get v.pns = some w ∧ w.pns = v.pns := by
  induction fs generalizing q v
  case nil =>
    obtain h | ⟨_, _, h, _⟩ := hns q v hv
    · exact ⟨.inl h, v, h.symm ▸ hv, rfl⟩
    · simp [hp, Frames.parent] at h
  case cons x fs hi =>
    obtain h | ⟨a, w, ha, hw, h⟩ := hns q v hv
    · exact ⟨.inl h, v, h.symm ▸ hv, rfl⟩
    · obtain ⟨⟨_, hx⟩, _, hf⟩ := hfs
      obtain rfl : x.1 = a := by simpa [Frames.parent, ha] using hp.symm
      have hpar := (procLinks_of_get hw).symm.trans hx
      simp only [Option.some.injEq, Links.mk.injEq] at hpar
      obtain ⟨h₁, h₂⟩ := hi hf hw hpar.2.2
      refine ⟨.inr ?_, h ▸ h₂⟩
      simp only [Frames.ancestors, List.map_cons, List.mem_cons]
      exact h ▸ h₁

theorem ProcTree.owner (ht : ProcTree s root r) (hns : NsInherited s)
    (hv : s.procs.get q = some v) : ∃ w, s.procs.get v.pns = some w ∧ w.pns = v.pns := by
  have ⟨_, _, _, hq⟩ := Focus.root.exists_of_mem (ht.complete q v hv)
  have ⟨⟨hl, _, _⟩, hfs⟩ := hq.linked ht.linked
  have hlq := (procLinks_of_get hv).symm.trans hl
  simp only [Option.some.injEq, Links.mk.injEq] at hlq
  exact (pns_owner hns hfs hv hlq.2.2).2

@[simp]
theorem procNsCreateLoop_none {old : Pid} {fuel : ℕ} :
    procNsCreateLoop p old fuel none = pure () := by
  cases fuel <;> rfl

theorem procNsCreateInit_spec {E : Fault → Prop} (below : List Pid)
    (hv : s.procs.get p = some v) :
    wp (procNsCreateInit p) (fun _ t => NsMoved s p v.pns below below t ∧
      t.procs.get p = some { v with pns := p, nextlid := 2 }) E s := by
  simp only [procNsCreateInit, wp_bind, wp_updProc, hv, Option.elim_some, Heap.get_set_self hv,
    Heap.get_set_self (Heap.get_set_self hv), and_true]
  refine ⟨by simp, 2, ⟨le_rfl, .inl rfl, fun q _ hq hq' => absurd hq hq'⟩, fun q => ?_⟩
  by_cases hq : q = p
  case pos =>
    subst hq
    simp [Heap.get_set_self hv, hv, nsMoved]
  case neg =>
    rw [Heap.get_set_ne hq, Heap.get_set_ne hq]
    cases s.procs.get q
    case none => rfl
    case some u =>
      have hmem : ¬(q ∈ below ∧ q ∉ below ∧ u.pns = v.pns) := fun hc => hc.2.1 hc.1
      simp [nsMoved, hq, hmem]

-- The course of `proc_ns_create`: below `p` all goes well, and then the walk goes on with the
-- sibling of `p` unless it ended at `p` because there is nothing below it.
theorem procNsCreate_spec {Q : Unit → State → Prop} {E : Fault → Prop} (hns : NsInherited s)
    (hr : r.Linked (procLinks s) none) (hn : r.nodes.Nodup) (h : Focus r (node p c sib) fs)
    (hv : s.procs.get p = some v) (hne : v.pns ≠ p)
    (hnil : c = nil → ∀ t, NsMoved s p v.pns c.nodes [] t → Q () t)
    (hnext : c ≠ nil → ∀ fuel t, s.procs.size ≤ fuel + c.nodes.length →
      NsMoved s p v.pns c.nodes [] t → wp (procNsCreateLoop p v.pns fuel v.sibling) Q E t) :
    wp (procNsCreate p) Q E s := by
  obtain ⟨⟨hl, hlc, _⟩, hfs⟩ := h.linked hr
  have hlv := (procLinks_of_get hv).symm.trans hl
  simp only [Option.some.injEq, Links.mk.injEq] at hlv
  have hold := (pns_owner hns hfs hv hlv.2.2).1.resolve_left hne
  have hd := h.nodup hn
  simp only [nodes, List.cons_append, List.append_assoc, List.nodup_cons, List.mem_append,
    List.nodup_append, not_or] at hd
  have hoc : v.pns ∉ c.nodes := fun hm => hd.2.2.2 _ hm _ (.inr <| .inr hold) rfl
  simp only [procNsCreate, wp_bind, wp_getProc, hv, Option.elim_some, wp_ite]
  refine ⟨fun _ => ?_, fun he => (he hne).elim⟩
  refine wp_post (procNsCreateInit_spec c.nodes hv) fun _ t hx => ?_
  obtain ⟨hm, hvt⟩ := hx
  -- The first iteration is the one of `p` itself.
  have hlct : c.Linked (procLinks t) (some p) := hm.procLinks_eq ▸ hlc
  simp only [wp_bind, wp_get, procNsCreateLoop, procNsCreateVisit, ne_eq, not_true_eq_false,
    if_false, wp_pure, procNsCreateNext, wp_getProc, hvt, Option.elim_some, hlv.1]
  refine wp_post (procNsCreateDescends_spec hvt hlct) fun b t' hx => ?_
  obtain ⟨ht', hb, hb'⟩ := hx
  subst ht'
  simp only [if_true, wp_ite, wp_pure]
  refine ⟨fun hdesc => ?_, fun hdesc => ?_⟩
  · refine procNsCreateLoop_below hns hv rfl hlc hd.2.1 hd.1.1 hoc .root (hb hdesc) ?_ ?_ ?_ ?_
    · simp [Frames.ancestors]
    · simpa [Frames.rest] using hm
    · have := length_le_size hd.2.1 fun q hq => hlc.get hq
      simpa [Frames.rest, hm.1] using this
    · intro fuel' t'' hle
      exact hnext (hb hdesc) fuel' t'' (by simpa [Frames.rest, hm.1] using hle)
  · have hc : c = nil := by
      by_contra hc
      exact hdesc <| (hb' hd.1.1 hoc hc).mpr <| .inl rfl
    subst hc
    simpa [head] using hnil rfl _ hm

theorem nsCreated_of_nsMoved (hns : NsInherited s) (ht : ProcTree s root r)
    (h : Focus (node root r nil) (node p c sib) fs) (hv : s.procs.get p = some v) (hne : v.pns ≠ p)
    (hm : NsMoved s p v.pns c.nodes [] t) : NsCreated s t p v.pns := by
  intro q u hu
  have ⟨_, n, _, hget⟩ := hm
  have hall : ∀ q l, procLinks s q = some l → q ∈ (node root r nil).nodes := fun q l hl => by
    have ⟨u, hu, _⟩ := get_of_procLinks hl
    exact ht.complete q u hu
  have hdesc : Descendant s p q ↔ q ∈ c.nodes := by
    rw [descendant_eq]
    exact (h.mem_child_iff ht.linked ht.nodup hall).symm
  have hup : u.pns ≠ p := fun he => by
    have ⟨w, hw, hwp⟩ := ht.owner hns hu
    rw [he, hv] at hw
    cases hw
    exact hne (hwp.trans he)
  refine ⟨nsMoved p v.pns n c.nodes [] q u, by simp [hget, hu], ?_, ?_⟩
  all_goals
    rw [hdesc]
    by_cases hq : q = p
    case pos => simp [nsMoved, hq]
    case neg =>
      by_cases hc : q ∈ c.nodes ∧ u.pns = v.pns
      case pos => simp [nsMoved, hq, hc]
      case neg => simp [nsMoved, hq, hc, hup]

-- The creation of a namespace is exact as long as the process has no child or no next sibling, and
-- with both it ends in a failed assertion.
theorem procNsCreate_assert (hns : NsInherited s) (ht : ProcTree s root r)
    (hv : s.procs.get p = some v) (hne : v.pns ≠ p) (hc : v.child ≠ none) (hs : v.sibling ≠ none) :
    wp (procNsCreate p) (fun _ _ => False) Fault.IsAssert s := by
  obtain ⟨c, sib, fs, h⟩ := Focus.root.exists_of_mem (ht.complete p v hv)
  obtain ⟨⟨hl, hlc, hls⟩, hfs⟩ := h.linked ht.linked
  have hlv := (procLinks_of_get hv).symm.trans hl
  simp only [Option.some.injEq, Links.mk.injEq] at hlv
  refine procNsCreate_spec hns ht.linked ht.nodup h hv hne ?_ ?_
  · intro hn
    simp [hlv.1, hn, head] at hc
  · intro _ fuel t hfuel hm
    have hd := h.nodup ht.nodup
    simp only [nodes, List.cons_append, List.append_assoc] at hd
    have hle : (p :: (c.nodes ++ (sib.nodes ++ fs.rest))).length ≤ s.procs.size := by
      refine length_le_size (s := s) (hd.sublist ?_) fun q hq => ?_
      · simp
      · have hq' : q ∈ (node root r nil).nodes := by
          refine h.mem ?_
          simp only [nodes, List.mem_cons, List.mem_append] at hq ⊢
          tauto
        exact ht.linked.get hq'
    have hvt := hm.procLinks_eq ▸ procLinks_of_get hv
    obtain ⟨w, hw, _⟩ := get_of_procLinks hvt
    simp only [List.nodup_cons, List.mem_append, not_or] at hd
    rw [hlv.2.1]
    refine procNsCreateLoop_escape h.next (fun hn => ?_) (hm.procLinks_eq ▸ ht.linked) ht.nodup
      ⟨hd.1.2.1, hd.1.2.2.1, hd.1.2.2.2⟩ hw ?_
    · simp [hlv.2.1, hn, head] at hs
    · simp only [List.length_cons, List.length_append] at hle ⊢
      omega

theorem procNsCreate_created (hns : NsInherited s) (ht : ProcTree s root r)
    (hv : s.procs.get p = some v) (hne : v.pns ≠ p) (hc : v.child = none ∨ v.sibling = none) :
    wp (procNsCreate p) (fun _ t => NsCreated s t p v.pns) (fun _ => False) s := by
  have ⟨c, sib, fs, h⟩ := Focus.root.exists_of_mem (ht.complete p v hv)
  have hlv := (procLinks_of_get hv).symm.trans (h.linked ht.linked).1.1
  simp only [Option.some.injEq, Links.mk.injEq] at hlv
  refine procNsCreate_spec hns ht.linked ht.nodup h hv hne ?_ ?_
  · exact fun _ t hm => nsCreated_of_nsMoved hns ht h hv hne hm
  · intro hcn fuel t _ hm
    have hs : v.sibling = none := by
      refine hc.resolve_left ?_
      rw [hlv.1]
      cases c
      case nil  => contradiction
      case node => simp [head]
    simpa [hs] using nsCreated_of_nsMoved hns ht h hv hne hm

-- If the creation of a namespace ends, it has changed exactly what is below the process.
theorem procNsCreate_moved (hns : NsInherited s) (ht : ProcTree s root r)
    (hv : s.procs.get p = some v) (hne : v.pns ≠ p) :
    wp (procNsCreate p) (fun _ t => ∃ c sib fs, Focus (node root r nil) (node p c sib) fs ∧
      NsMoved s p v.pns c.nodes [] t) (fun _ => True) s := by
  by_cases hc : v.child ≠ none ∧ v.sibling ≠ none
  case pos =>
    exact wp_mono (procNsCreate_assert hns ht hv hne hc.1 hc.2) (fun _ _ => False.elim) fun _ _ => trivial
  case neg =>
    have ⟨c, sib, fs, h⟩ := Focus.root.exists_of_mem (ht.complete p v hv)
    have hlv := (procLinks_of_get hv).symm.trans (h.linked ht.linked).1.1
    simp only [Option.some.injEq, Links.mk.injEq] at hlv
    refine procNsCreate_spec hns ht.linked ht.nodup h hv hne ?_ ?_
    · exact fun _ t hm => ⟨c, sib, fs, h, hm⟩
    · intro hcn fuel t _ hm
      have hchild : v.child ≠ none := by
        rw [hlv.1]
        cases c
        case nil  => contradiction
        case node => simp [head]
      have hs : v.sibling = none := by
        by_contra hs
        exact hc ⟨hchild, hs⟩
      rw [hs, procNsCreateLoop_none, wp_pure]
      exact ⟨c, sib, fs, h, hm⟩

theorem procNsCreate_exact_iff (ht : ProcTree s root r) (hns : NsInherited s)
    (hv : s.procs.get p = some v) (hne : v.pns ≠ p) :
    (∃ t, procNsCreate p s = .ok ((), t) ∧ NsCreated s t p v.pns) ↔
      v.child = none ∨ v.sibling = none := by
  constructor
  case mp =>
    intro ⟨t, hok, _⟩
    by_contra hc
    push Not at hc
    exact wp_of_ok hok (procNsCreate_assert hns ht hv hne hc.1 hc.2)
  case mpr =>
    intro hc
    have ⟨_, t, hok, hcr⟩ := wp_false_iff.mp (procNsCreate_created hns ht hv hne hc)
    exact ⟨t, hok, hcr⟩

-- The first process has the children 1 and 2, which have one child each.
def siblingTree : State where
  procs := ⟨[
    some { child := some 1, localid := 1, nextlid := 6 },
    some { parent := some 0, sibling := some 2, child := some 3, localid := 3 },
    some { parent := some 0, child := some 4, localid := 2 },
    some { parent := some 1, localid := 4 },
    some { parent := some 2, localid := 5 }]⟩

theorem siblingTree_tree :
    ProcTree siblingTree 0 (node 1 (node 3 nil nil) (node 2 (node 4 nil nil) nil)) where
  linked   := by simp [Linked, procLinks, siblingTree, Heap.get, head]
  nodup    := by decide
  complete := fun p v h => by
    have : p < 5 := Heap.lt_size h
    simp only [nodes, List.nil_append, List.append_nil, List.cons_append, List.mem_cons,
      List.not_mem_nil, or_false]
    omega

theorem siblingTree_inherited : NsInherited siblingTree := by
  intro p v h
  have : p < 5 := Heap.lt_size h
  interval_cases p
  all_goals simp [siblingTree, Heap.get] at h ⊢; subst h; simp

-- Without the assertion it would be no better: the namespace of the sibling 2 was changed already.
theorem procNsCreate_leaves_subtree :
    procNsCreate 1 siblingTree = .error (.assert .procNsCreateParent) ∧
    ¬∀ (s : State) (root p : Pid) (c : Forest Pid) (v : Proc),
      ProcTree s root c → NsInherited s → s.procs.get p = some v → v.pns ≠ p →
      ∃ t, procNsCreate p s = .ok ((), t) ∧ NsCreated s t p v.pns := by
  have herr : procNsCreate 1 siblingTree = .error (.assert .procNsCreateParent) := rfl
  refine ⟨herr, fun h => ?_⟩
  have ⟨t, hok, _⟩ := h siblingTree 0 1 _ _ siblingTree_tree siblingTree_inherited rfl (by decide)
  rw [herr] at hok
  contradiction

theorem procNsCreate_exact_last :
    ∃ t, procNsCreate 2 siblingTree = .ok ((), t) ∧ NsCreated siblingTree t 2 0 := by
  have hv : siblingTree.procs.get 2 = some { parent := some 0, child := some 4, localid := 2 } := rfl
  exact (procNsCreate_exact_iff siblingTree_tree siblingTree_inherited hv (by decide)).mpr (.inr rfl)

end Create

end Camellia
