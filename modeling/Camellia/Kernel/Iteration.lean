import Camellia.Kernel.Namespace
import Camellia.Kernel.Procfs

open Forest

namespace Camellia

-- The iteration `it = next(it)` which starts at a process visits exactly these processes, in this
-- order, and then it ends with NULL. No assertion fails on the way.
inductive Visits (next : Pid → K (Option Pid)) (s : State) : Option Pid → List Pid → Prop
  | done : Visits next s none []
  | step {it : Pid} {o : Option Pid} {l : List Pid} :
    next it s = .ok (o, s) → Visits next s o l → Visits next s (some it) (it :: l)

section Visits

variable {next : Pid → K (Option Pid)} {s : State} {o : Option Pid} {l : List Pid}

theorem Visits.eq_none (h : Visits next s o []) : o = none := by
  cases h
  rfl

theorem Visits.of_cons {it : Pid} (h : Visits next s o (it :: l)) :
    ∃ o', next it s = .ok (o', s) ∧ Visits next s o' l := by
  cases h
  case step o' hn h => exact ⟨o', hn, h⟩

theorem Visits.unique {l' : List Pid} (h : Visits next s o l) (h' : Visits next s o l') : l = l' := by
  induction h generalizing l'
  case done =>
    cases h'
    rfl
  case step hn _ hi =>
    cases h'
    case step h' hn' =>
      cases hn.symm.trans hn'
      rw [hi h']

-- The rule for an iteration whose `next` is known by what is left to be visited.
theorem Visits.of_left (I : Option Pid → List Pid → Prop) (hnone : ∀ l, I none l → l = [])
    (hsome : ∀ it l, I (some it) l → ∃ l', l = it :: l' ∧
      wp (next it) (fun o t => t = s ∧ I o l') (fun _ => False) s) (h : I o l) : Visits next s o l := by
  induction l generalizing o
  case nil =>
    cases o
    case none    => exact .done
    case some it =>
      have ⟨_, hl, _⟩ := hsome it [] h
      contradiction
  case cons a l hi =>
    cases o
    case none    =>
      have := hnone _ h
      contradiction
    case some it =>
      obtain ⟨_, hl, hn⟩ := hsome it _ h
      obtain ⟨rfl, rfl⟩ := List.cons_eq_cons.mp hl
      obtain ⟨o, t, hrun, rfl, hI⟩ := wp_false_iff.mp hn
      exact .step hrun (hi hI)

end Visits

section Next

variable {s : State} {root it : Pid} {r f c sib : Forest Pid} {fs : Frames Pid} {E : Fault → Prop}

-- The inner loop goes on to the next process in the order of a depth-first search. At the top it ends
-- the iteration if this is below the root, and otherwise an assertion fails.
theorem procNextClimb_spec {par ch : Option Pid} {fuel : ℕ} (h : Focus r sib fs)
    (hr : r.Linked (procLinks s) par) (hroot : root ∉ fs.ancestors)
    (hit : procLinks s it = some ⟨ch, sib.head, fs.parent par⟩)
    (htop : par = some root ∨ par = none ∧ E (.assert .procNext)) (hfuel : fs.length < fuel) :
    wp (procNextClimb (some root) fuel it) (fun o t => t = s ∧
      ((∃ f' fs', Focus r f' fs' ∧ f' ≠ nil ∧ o = f'.head ∧
        f'.nodes ++ fs'.rest = sib.nodes ++ fs.rest) ∨
      par = some root ∧ o = none ∧ sib.nodes ++ fs.rest = [])) E s := by
  induction fuel generalizing it sib fs ch
  case zero => contradiction
  case succ fuel hi =>
    obtain ⟨v, hv, hl⟩ := get_of_procLinks hit
    simp only [Links.mk.injEq] at hl
    simp only [procNextClimb, wp_bind, wp_getProc, hv, Option.elim_some, ← hl.2.1, ← hl.2.2]
    cases sib
    case node b cb sb =>
      simp only [head, wp_pure]
      exact ⟨trivial, .inl ⟨_, fs, h, by simp, rfl, rfl⟩⟩
    case nil =>
      cases fs
      case nil =>
        obtain rfl | ⟨rfl, he⟩ := htop
        · simp [head, Frames.parent, nodes, Frames.rest]
        · simpa [head, Frames.parent] using he
      case cons x fs =>
        obtain ⟨⟨_, ha⟩, _, _⟩ := (h.linked hr).2
        have hx : root ≠ x.1 := fun he => hroot (by simp [Frames.ancestors, he])
        have hroot' : root ∉ Frames.ancestors fs := fun hm => hroot (List.mem_cons_of_mem _ hm)
        simp only [head, Frames.parent, Option.some_inj, hx, if_false]
        exact wp_post (hi h.up hroot' ha (Nat.lt_of_succ_lt_succ hfuel)) fun _ _ => id

-- Below the root, the next process is the first one of those which are left to be visited.
theorem procNext_spec (hr : r.Linked (procLinks s) (some root)) (hn : r.nodes.Nodup)
    (hroot : root ∉ r.nodes) (h : Focus r (node it c sib) fs) :
    wp (procNext (some root) it) (fun o t => t = s ∧ ∃ f' fs', Focus r f' fs' ∧ o = f'.head ∧
      (f' = nil → f'.nodes ++ fs'.rest = []) ∧
      f'.nodes ++ fs'.rest = c.nodes ++ (sib.nodes ++ fs.rest)) E s := by
  have ⟨⟨hl, _, _⟩, _⟩ := h.linked hr
  have ⟨v, hv, hlv⟩ := get_of_procLinks hl
  simp only [Links.mk.injEq] at hlv
  simp only [procNext, wp_bind, wp_getProc, hv, Option.elim_some, ← hlv.1, ← hlv.2.1]
  cases c
  case node => exact wp_pure.mpr ⟨rfl, _, _, h.down, rfl, by simp, by simp [Frames.rest]⟩
  case nil  =>
    cases sib
    case node => exact wp_pure.mpr ⟨rfl, _, _, h.next, rfl, by simp, by simp [nodes]⟩
    case nil  =>
      simp only [head, wp_bind, wp_get]
      have hanc : root ∉ fs.ancestors := fun hm => hroot (h.mem (.inr (.inr hm)))
      refine wp_post (procNextClimb_spec h.next hr hanc hl (.inl rfl)
        (Nat.lt_succ_of_le (focus_length_le h hr hn))) ?_
      rintro o t ⟨rfl, ⟨f', fs', h', hf', rfl, hrest⟩ | ⟨_, rfl, hrest⟩⟩
      · exact ⟨rfl, f', fs', h', rfl, fun he => absurd he hf', by simpa [nodes] using hrest⟩
      · exact ⟨rfl, nil, fs, h.next, rfl, fun _ => hrest, by simp [nodes]⟩

-- From a root without children the first step leaves the subtree.
theorem procNext_escapes {init : Pid} (ht : ProcTree s init r)
    (h : Focus (node init r nil) (node root nil sib) fs) :
    wp (procNext (some root) root) (fun o _ => o ≠ none) (fun _ => True) s := by
  have ⟨⟨hl, _, _⟩, _⟩ := h.linked ht.linked
  have ⟨v, hv, hlv⟩ := get_of_procLinks hl
  simp only [Links.mk.injEq] at hlv
  simp only [procNext, wp_bind, wp_getProc, hv, Option.elim_some, ← hlv.1, ← hlv.2.1]
  cases sib
  case node => simp [head]
  case nil  =>
    simp only [head, wp_bind, wp_get]
    have hn := h.nodup ht.nodup
    simp only [nodes, List.nil_append, List.cons_append, List.nodup_cons, List.mem_append, not_or] at hn
    refine wp_post (procNextClimb_spec h.next ht.linked hn.1.2 hl (.inr ⟨rfl, trivial⟩)
      (Nat.lt_succ_of_le (focus_length_le h ht.linked ht.nodup))) ?_
    rintro o t ⟨_, ⟨f', fs', _, hf', rfl, _⟩ | ⟨hpar, _⟩⟩
    · cases f'
      case nil  => contradiction
      case node => simp [head]
    · contradiction

end Next

section Findgid

variable {s : State} {root : Pid} {o : Option Pid} {l : List Pid} {gid : ℕ}

def HasGid (s : State) (gid : ℕ) (q : Pid) : Prop :=
  ∃ v, s.procs.get q = some v ∧ v.globalid = gid

theorem findgidLoop_spec (gid : ℕ) {fuel : ℕ} (h : Visits (procNext (some root)) s o l)
    (hfuel : l.length ≤ fuel) :
    wp (findgidLoop gid root fuel o) (fun x t => t = s ∧
      (∀ q, x = some q → q ∈ l ∧ HasGid s gid q) ∧ (x = none → ∀ q ∈ l, ¬HasGid s gid q))
      (fun _ => False) s := by
  induction h generalizing fuel
  case done => cases fuel <;> simp [findgidLoop]
  case step it o l hnext _ hi =>
    cases fuel
    case zero      => simp at hfuel
    case succ fuel =>
      have ⟨v, hv⟩ : ∃ v, s.procs.get it = some v := by
        have hv : wp (procNext (some root) it) (fun _ _ => ∃ v, s.procs.get it = some v)
            (fun _ => True) s := by
          rw [procNext, wp_bind, wp_getProc]
          cases hv : s.procs.get it
          case none   => trivial
          case some v => exact wp_of_forall (fun _ _ _ => ⟨v, rfl⟩) fun _ _ => trivial
        exact wp_of_ok hnext hv
      simp only [findgidLoop, wp_bind, wp_getProc, hv, Option.elim_some, wp_ite, wp_pure]
      refine ⟨fun hg => ⟨trivial, fun q hq => ?_, by simp⟩, fun hg => ?_⟩
      · obtain rfl := Option.some_inj.mp hq
        exact ⟨List.mem_cons_self, v, hv, hg⟩
      · rw [wp_iff_of_ok hnext]
        refine wp_post (hi (Nat.le_of_succ_le_succ hfuel)) ?_
        rintro x t ⟨rfl, hfound, hmissing⟩
        refine ⟨rfl, fun q hq => ⟨List.mem_cons_of_mem _ (hfound q hq).1, (hfound q hq).2⟩, ?_⟩
        rintro hx q hq ⟨w, hw, hwg⟩
        obtain rfl | hq := List.mem_cons.mp hq
        · obtain rfl := Option.some_inj.mp (hv.symm.trans hw)
          exact hg hwg
        · exact hmissing hx q hq ⟨w, hw, hwg⟩

end Findgid

section Subtree

-- The iteration over the subtree of `root` with `proc_next`, where the processes below it are `c`.
structure StaysBelow (s : State) (root : Pid) (c : Forest Pid) : Prop where
  visits  : Visits (procNext (some root)) s (some root) (root :: c.nodes)
  subtree : ∀ q, q ∈ root :: c.nodes ↔ q = root ∨ Descendant s root q
  once    : (root :: c.nodes).Nodup
  findgid : ∀ gid, ∃ o, findgid gid root s = .ok (o, s) ∧
    (∀ q, o = some q → q ∈ root :: c.nodes ∧ HasGid s gid q) ∧
    (o = none → ∀ q ∈ root :: c.nodes, ¬HasGid s gid q)

variable {s : State} {init root : Pid} {v : Proc} {r c sib : Forest Pid} {fs : Frames Pid}

-- Below a root with children, the iteration is a depth-first search.
theorem visits_below (hv : s.procs.get root = some v) (hchild : v.child = c.head) (hc : c ≠ nil)
    (hl : c.Linked (procLinks s) (some root)) (hn : (root :: c.nodes).Nodup) :
    Visits (procNext (some root)) s (some root) (root :: c.nodes) := by
  have ⟨hroot, hn⟩ := List.nodup_cons.mp hn
  have hfirst : wp (procNext (some root) root) (fun o t => t = s ∧ o = c.head) (fun _ => False) s := by
    simp only [procNext, wp_bind, wp_getProc, hv, Option.elim_some, hchild]
    cases c
    case nil  => contradiction
    case node => simp [head]
  obtain ⟨_, _, hrun, rfl, rfl⟩ := wp_false_iff.mp hfirst
  refine .step hrun (.of_left (fun o l => ∃ f fs, Focus c f fs ∧ o = f.head ∧
    (f = nil → f.nodes ++ fs.rest = []) ∧ l = f.nodes ++ fs.rest) ?none ?some ?start)
  case start => exact ⟨c, [], .root, rfl, fun he => absurd he hc, by simp [Frames.rest]⟩
  case none  =>
    rintro l ⟨f, fs, _, hf, hnil, rfl⟩
    cases f
    case nil  => exact hnil rfl
    case node => contradiction
  case some  =>
    rintro it l ⟨f, fs, hfocus, hf, -, rfl⟩
    cases f
    case nil          => contradiction
    case node ca siba =>
      obtain rfl := Option.some_inj.mp hf
      refine ⟨ca.nodes ++ (siba.nodes ++ fs.rest), by simp [nodes], ?_⟩
      refine wp_post (procNext_spec hl hn hroot hfocus) ?_
      rintro o t ⟨ht, f', fs', h', ho, hnil, hrest⟩
      exact ⟨ht, f', fs', h', ho, hnil, hrest.symm⟩

-- The iteration stays in the subtree exactly if the root has a child: without one, the first step
-- goes on to a sibling of the root or of one of its ancestors.
theorem staysBelow_iff (ht : ProcTree s init r) (h : Focus (node init r nil) (node root c sib) fs)
    (hv : s.procs.get root = some v) : StaysBelow s root c ↔ v.child ≠ none := by
  obtain ⟨⟨hl, hlc, _⟩, _⟩ := h.linked ht.linked
  have hlv := (procLinks_of_get hv).symm.trans hl
  simp only [Option.some.injEq, Links.mk.injEq] at hlv
  constructor
  case mp =>
    intro hstays hchild
    cases c
    case node => simp [hchild, head] at hlv
    case nil  =>
      obtain ⟨o, hrun, hrest⟩ := hstays.visits.of_cons
      exact wp_of_ok hrun (procNext_escapes ht h) hrest.eq_none
  case mpr =>
    intro hchild
    have hn := (h.nodup ht.nodup).sublist (List.sublist_append_left _ _)
    simp only [nodes, ← List.cons_append] at hn
    have hn := hn.sublist (List.sublist_append_left _ _)
    have hc : c ≠ nil := by
      rintro rfl
      exact hchild hlv.1
    have hvisits := visits_below hv hlv.1 hc hlc hn
    refine ⟨hvisits, fun q => ?_, hn, fun gid => ?_⟩
    · rw [List.mem_cons, descendant_eq, h.mem_child_iff ht.linked ht.nodup]
      intro q l hq
      obtain ⟨u, hu, _⟩ := get_of_procLinks hq
      exact ht.complete q u hu
    · have hfuel : (root :: c.nodes).length ≤ s.procs.size + 1 := by
        have := length_le_size (List.nodup_cons.mp hn).2 fun q hq => hlc.get hq
        simpa using this
      obtain ⟨o, t, hrun, rfl, hfind⟩ := wp_false_iff.mp (findgidLoop_spec gid hvisits hfuel)
      exact ⟨o, hrun, hfind⟩

theorem staysBelow_children :
    StaysBelow siblingTree 1 (node 3 nil nil) ↔ some 3 ≠ (none : Option Pid) :=
  @staysBelow_iff _ _ _ _ _ _ _ [(0, nil)] siblingTree_tree (.down .root) rfl

-- The process 3 has no child and no sibling: the iteration goes on with the sibling 2 of its parent,
-- and ends with a failed assertion at the first process.
theorem procNext_leaves_subtree :
    procNext (some 3) 3 siblingTree = .ok (some 2, siblingTree) ∧
    procNext (some 3) 4 siblingTree = .error (.assert .procNext) ∧
    ¬∀ (s : State) (init root : Pid) (r c sib : Forest Pid) (fs : Frames Pid),
      ProcTree s init r → Focus (node init r nil) (node root c sib) fs → StaysBelow s root c := by
  have hnext : procNext (some 3) 3 siblingTree = .ok (some 2, siblingTree) := rfl
  refine ⟨hnext, rfl, fun h => ?_⟩
  obtain ⟨o, hrun, hrest⟩ :=
    (h siblingTree 0 3 _ _ _ _ siblingTree_tree (.down (.down .root))).visits.of_cons
  obtain rfl := hrest.eq_none
  cases hnext.symm.trans hrun

end Subtree
end Camellia
