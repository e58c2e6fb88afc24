import Camellia.Cmd.TmpfsTree

namespace Camellia.Tmpfs

-- Where a path leads to.
def walk (s : Heap Node) (kids : Nid → List Nid) : ℕ → Nid → List UInt8 → Option Nid
  | 0, _, _               => none
  | fuel + 1, parent, path =>
    match find s (segment path).1 (kids parent) with
    | none      => none
    | some node => if (segment path).2.2 ≠ [] then walk s kids fuel node (segment path).2.2 else some node

def walkPath (s : Heap Node) (kids : Nid → List Nid) : List UInt8 → Option Nid
  | []        => none
  | [_]       => some nodeRoot
  | _ :: path => walk s kids path.length nodeRoot path

-- What becomes of the nodes when a path is opened, and what is returned, if the path leads to the given
-- node.
inductive Opened (s : Heap Node) (kids : Nid → List Nid) (flags : Flags) :
    Option Nid → Option Nid → Heap Node → Prop
  | found (hv : s.get n = some v) : Opened s kids flags (some n) (some n) (s.set n { v with opens := v.opens + 1 })
  | created (hf : flags.has OPEN_CREATE) (hv : s.get p = some v) (hp : p = nodeRoot ∨ refOf s p ≠ none)
    (hn : find s name (kids p) = none) (ht : Created s p v name directory t) (hw : t.get s.size = some w) :
    Opened s kids flags none (some s.size) (t.set s.size { w with opens := w.opens + 1 })
  | failed : Opened s kids flags none none s

section Walk

variable {s t : Heap Node} {kids : Nid → List Nid} {par : Nid → Nid} {p n : Nid} {v : Node}
variable {l : List Nid} {path name : List UInt8} {fuel : ℕ} {alloc : Alloc} {flags : Flags}

theorem segment_length (hp : path ≠ []) : (segment path).2.2.length < path.length := by
  induction path
  case nil => contradiction
  case cons c path hi =>
    rw [segment]
    split
    case isTrue => exact Nat.lt_succ_self _
    case isFalse =>
      by_cases hp : path = []
      case pos => simp [hp, segment]
      case neg => exact (hi hp).trans (Nat.lt_succ_self _)

theorem tmpfsOpenLoop_spec (h : Repr s kids par) (hv : s.get p = some v)
    (hp : p = nodeRoot ∨ refOf s p ≠ none) (hne : path ≠ []) (hf : path.length ≤ fuel) :
    wp (tmpfsOpenLoop alloc flags fuel p path) (Opened s kids flags (walk s kids fuel p path))
      (fun _ => False) s := by
  induction fuel generalizing p v path
  case zero => exact (hne (List.length_eq_zero_iff.mp (Nat.le_zero.mp hf))).elim
  case succ fuel hi =>
    have hseg := segment_length hne
    rw [tmpfsOpenLoop, walk]
    generalize segment path = r at hseg ⊢
    obtain ⟨seg, directory, rest⟩ := r
    refine wp_bind.mpr (wp_post (nodeGetchild_spec h hv) ?_)
    rintro r t ⟨hfind, ht⟩
    rw [← hfind, ht]
    cases r
    case some n =>
      have hmem := (mem_of_find hfind.symm).1
      obtain ⟨w, hw⟩ := h.get hmem
      simp only [wp_ite]
      refine ⟨fun hr => ?_, fun hr => ?_⟩
      · rw [if_pos hr]
        exact hi hw (.inr (h.refOf_ne hmem)) hr (Nat.le_of_lt_succ (lt_of_lt_of_le hseg hf))
      · rw [if_neg hr]
        simp only [nodeOpen, wp_bind, wp_updNode, hw, Option.elim_some, wp_pure]
        exact .found hw
    case none =>
      simp only [wp_ite, wp_bind, wp_pure]
      refine ⟨fun hx => wp_post (nodeCreate_spec h hv) ?_, fun _ => .failed⟩
      obtain ⟨hr, hc, _⟩ := hx
      rintro _ t ⟨rfl, ht⟩
      have hn := ht.get s.size
      rw [if_neg (Heap.lt_size hv).ne', if_pos rfl] at hn
      simp only [nodeOpen, wp_bind, wp_updNode, hn, Option.elim_some, wp_pure]
      exact .created hc hv hp hfind.symm ht hn

-- Either the path leads to a node which is opened then, or nothing but the root is found.
theorem tmpfsOpen_spec (alloc : Alloc) (path : List UInt8) (flags : Flags) (h : Repr s kids par) :
    wp (tmpfsOpen alloc path flags) (fun r t =>
      r = some nodeRoot ∧ walkPath s kids path = r ∧ t = s ∨ Opened s kids flags (walkPath s kids path) r t)
      (fun _ => False) s := by
  match path with
  | []         => exact wp_pure.mpr (.inr .failed)
  | [_]        => exact wp_pure.mpr (.inl ⟨rfl, rfl, rfl⟩)
  | _ :: c :: path =>
    obtain ⟨v, hv, -⟩ := h.root
    exact wp_post (tmpfsOpenLoop_spec h hv (.inl rfl) (List.cons_ne_nil c path) le_rfl) fun _ _ => Or.inr

-- The tree after a path was opened.
theorem Opened.repr {r r' : Option Nid} (ho : Opened s kids flags r r' t) (h : Repr s kids par) :
    ∃ kids' par', Repr t kids' par' := by
  cases ho
  case found v n hv => exact ⟨kids, par, h.same (same_set hv rfl rfl rfl rfl)⟩
  case created v p name directory u w hf hv hp hn ht hw =>
    exact ⟨_, _, (h.create hv ht hn hp).same (same_set hw rfl rfl rfl rfl)⟩
  case failed => exact ⟨kids, par, h⟩

-- Nothing is created unless this is asked for.
theorem Opened.eq {r r' : Option Nid} (ho : Opened s kids flags r r' t) (hf : ¬flags.has OPEN_CREATE) :
    r' = r := by
  cases ho
  case created hf' _ _ _ _ _ => contradiction
  all_goals rfl

theorem find_iff (name : List UInt8) (hl : l.Pairwise (nameOf s · ≠ nameOf s ·)) :
    find s name l = some n ↔ n ∈ l ∧ nameOf s n = some name := by
  refine ⟨mem_of_find, fun ⟨hn, hname⟩ => ?_⟩
  match hfind : find s name l with
  | none   => exact absurd hname (find_ne hfind hn)
  | some m =>
    obtain ⟨hm, hname'⟩ := mem_of_find hfind
    by_contra hne
    have hmn : m ≠ n := fun heq => hne (heq ▸ rfl)
    have : Std.Symm fun a b => nameOf s a ≠ nameOf s b := ⟨fun _ _ => Ne.symm⟩
    exact hl.forall hm hn hmn (hname'.trans hname.symm)

theorem find_unlink (h : Repr s kids par) (hn : ∀ m, m ≠ n → nameOf t m = nameOf s m) :
    find t name ((kids p).filter (· ≠ n)) =
      if find s name (kids p) = some n then none else find s name (kids p) := by
  have hold := h.names p
  have hnew : ((kids p).filter (· ≠ n)).Pairwise (nameOf t · ≠ nameOf t ·) := by
    refine (hold.filter _).imp_of_mem fun {a b} ha hb hab => ?_
    simp only [List.mem_filter, decide_eq_true_eq] at ha hb
    rwa [hn a ha.2, hn b hb.2]
  refine Option.ext fun m => ?_
  have hm := find_iff (n := m) name hold
  have hm' := find_iff (n := m) name hnew
  simp only [List.mem_filter, decide_eq_true_eq] at hm'
  rw [hm']
  by_cases hmn : m = n
  case pos => grind
  case neg => grind

-- Only the paths to the node itself lead nowhere when it is gone.
theorem walk_unlink (h : Repr s kids par) (hk : kids n = []) (hn : ∀ m, m ≠ n → nameOf t m = nameOf s m) :
    walk t (fun q => (kids q).filter (· ≠ n)) fuel p path =
      if walk s kids fuel p path = some n then none else walk s kids fuel p path := by
  induction fuel generalizing p path
  case zero => rfl
  case succ fuel hi =>
    have hnone (rest : List UInt8) : walk s kids fuel n rest = none := by
      cases fuel
      case zero => rfl
      case succ => rw [walk, hk]; rfl
    rw [walk, walk, find_unlink h hn]
    match find s (segment path).1 (kids p) with
    | none => rfl
    | some m =>
      by_cases hm : m = n
      case pos =>
        subst hm
        simp [hnone]
      case neg =>
        simp only [Option.some_inj, hm, if_false]
        by_cases hr : (segment path).2.2 = []
        case pos => simp [hr, hm]
        case neg => simp only [hr, ne_eq, not_false_eq_true, if_true, hi]

theorem walkPath_unlink (h : Repr s kids par) (hk : kids n = []) (hr : n ≠ nodeRoot)
    (hn : ∀ m, m ≠ n → nameOf t m = nameOf s m) :
    walkPath t (fun q => (kids q).filter (· ≠ n)) path =
      if walkPath s kids path = some n then none else walkPath s kids path := by
  match path with
  | []          => rfl
  | [_]         => exact (if_neg fun heq => hr (Option.some_inj.mp heq).symm).symm
  | _ :: _ :: _ => exact walk_unlink h hk hn

end Walk

-- What is done to the tree.
inductive Call
  | open (alloc : Alloc) (path : List UInt8) (flags : Flags)
  | remove (node : Nid)
  | close (node : Nid)

def Call.run : Call → T Unit
  | .open alloc path flags => discard (tmpfsOpen alloc path flags)
  | .remove node           => discard (nodeRemove node)
  | .close node            => nodeClose node

-- The node of a call exists.
def Call.Valid (s : Heap Node) : Call → Prop
  | .open ..                   => True
  | .remove node | .close node => ∃ v, s.get node = some v

-- A node which is removed refers to a field that is still in use, and no other node refers to a field of
-- the node when it is freed.
def Call.Harmless (s : Heap Node) : Call → Prop
  | .open ..     => True
  | .remove node => ∀ v, s.get node = some v → v.ref ≠ none → v.child = none →
    (∀ prev, v.ref = some (.sibling prev) → refOf s prev ≠ none) ∧ (v.opens = 1 → Unreferenced s node)
  | .close node  => ∀ v, s.get node = some v → v.ref = none → v.opens = 1 → Unreferenced s node

section Calls

variable {s t : Heap Node} {kids : Nid → List Nid} {par : Nid → Nid} {n : Nid} {v : Node}

theorem nodeClose_spec (h : Repr s kids par) (hv : s.get n = some v)
    (hu : v.ref = none → v.opens = 1 → Unreferenced s n) :
    wp (nodeClose n) (fun _ t => Repr t kids par ∧ ∀ m, m ≠ n → nameOf t m = nameOf s m)
      (fun _ => False) s := by
  obtain ⟨w, hw⟩ : ∃ w : Node, w = { v with opens := v.opens - 1 } := ⟨_, rfl⟩
  have hn : (s.set n w).get n = some w := Heap.get_set_self hv
  have hsame : Same s (s.set n w) := by
    rw [hw]
    exact same_set hv rfl rfl rfl rfl
  have hrepr := h.same hsame
  simp only [nodeClose, wp_bind, wp_updNode, hv, Option.elim_some, ← hw, wp_getNode, hn, wp_ite, wp_modify,
    wp_pure]
  refine ⟨fun hx => ?_, fun _ => ⟨hrepr, fun m _ => congrFun hsame.name m⟩⟩
  obtain ⟨hr, hroot, ho⟩ := hx
  refine ⟨?_, fun m hm => ?_⟩
  · refine hrepr.free hroot (by rw [refOf, hn, Option.bind_some, hr]) ?_
    have := hu (by rw [← hr, hw]) (by rw [hw] at ho; exact Int.sub_eq_zero.mp ho)
    rwa [Unreferenced, hsame.next, hsame.refOf]
  · rw [nameOf, bind_get_free, if_neg hm]
    exact congrFun hsame.name m

theorem nodeRemove_spec (h : Repr s kids par) (hv : s.get n = some v) (hh : (Call.remove n).Harmless s) :
    wp (nodeRemove n) (fun r t =>
      r ≠ 0 ∧ t = s ∨
      r = 0 ∧ n ≠ nodeRoot ∧ kids n = [] ∧ Repr t (fun q => (kids q).filter (· ≠ n)) par ∧
        ∀ m, m ≠ n → nameOf t m = nameOf s m)
      (fun _ => False) s := by
  simp only [nodeRemove, wp_ite, wp_bind, wp_getNode, hv, Option.elim_some]
  refine ⟨fun _ => wp_pure.mpr (.inl ⟨by decide, rfl⟩), fun hroot => ?_⟩
  cases hr : v.ref
  case none      => exact wp_pure.mpr (.inl ⟨by decide, rfl⟩)
  case some link =>
    simp only [wp_ite, wp_bind]
    refine ⟨fun _ => wp_pure.mpr (.inl ⟨by decide, rfl⟩), fun hc => ?_⟩
    have hc := not_not.mp hc
    have href : refOf s n = some link := by rw [refOf, hv, Option.bind_some, hr]
    have hn := h.linked n (by rw [href]; exact Option.some_ne_none _)
    have hk : kids n = [] := by
      have := h.chain n
      rw [first, hv, Option.bind_some, hc] at this
      exact this.of_none
    obtain ⟨_, hl, htgt, hin⟩ := h.refs _ n hn
    obtain rfl := Option.some_inj.mp (href.symm.trans hl)
    obtain ⟨hprev, hfree⟩ := hh v hv (by rw [hr]; exact Option.some_ne_none _) hc
    have hchild : link ≠ .child n := fun heq => by
      subst heq
      exact (h.above _ n hn).ne' hin
    have hsib : link ≠ .sibling n := fun heq => by
      subst heq
      exact absurd ((h.chain _).rel (h.order _) hn htgt) (lt_irrefl n)
    refine wp_post (unlink_spec hv htgt hchild hsib) fun _ t₁ ht₁ => ?_
    refine wp_bind.mpr (wp_post ht₁ fun _ t ht => wp_bind.mpr ?_)
    have hrepr := h.unlink hn hv hk href (fun q hq => hprev q (by rw [hr, hq])) ht
    refine wp_post (nodeClose_spec hrepr ht.get fun _ ho c hnext hrc => ?_) fun _ u hx => ?_
    · rw [ht.next, if_neg hsib] at hnext
      rw [ht.refOf] at hrc
      refine hfree ho c hnext ?_
      by_cases hcn : c = n
      case pos => simp [hcn] at hrc
      case neg => rwa [if_neg hcn] at hrc
    · obtain ⟨hu, hname⟩ := hx
      exact wp_pure.mpr (.inr ⟨rfl, hroot, hk, hu, fun m hm => by rw [hname m hm, ht.name]⟩)

end Calls

-- Each node which is linked is what it refers back to, and it is in exactly one list, which is the list
-- of a directory and contains it once. The names in a list are distinct.
structure DirsOk (s : Heap Node) : Prop where
  ref   : ∀ n link, refOf s n = some link → link.target s = some n
  list  : ∀ p, ∃ l, Chain (next s) (first s p) l
  once  : ∀ n, refOf s n ≠ none → ∃ p l, (p = nodeRoot ∨ refOf s p ≠ none) ∧
    Chain (next s) (first s p) l ∧ l.count n = 1 ∧ ∀ q m, q ≠ p → Chain (next s) (first s q) m → n ∉ m
  only  : ∀ p l, Chain (next s) (first s p) l → ∀ n ∈ l, refOf s n ≠ none
  names : ∀ p l, Chain (next s) (first s p) l → (l.map (nameOf s)).Nodup

-- Once the node is removed nothing finds it, and everything else is found as before.
def Removes (s : Heap Node) (n : Nid) : Prop :=
  ∀ t, nodeRemove n s = .ok (0, t) → ∀ alloc path flags, ¬flags.has OPEN_CREATE → ∃ r u u',
    tmpfsOpen alloc path flags s = .ok (r, u) ∧
    tmpfsOpen alloc path flags t = .ok (if r = some n then none else r, u')

-- The states which are reached by calls that are all allowed.
inductive Reached (allowed : Heap Node → Call → Prop) : Heap Node → Prop
  | init : Reached allowed init
  | call : Reached allowed s → allowed s c → c.run s = .ok ((), t) → Reached allowed t

section Run

variable {s t : Heap Node} {kids : Nid → List Nid} {par : Nid → Nid} {n : Nid} {c : Call}

theorem Repr.dirsOk (h : Repr s kids par) : DirsOk s where
  ref n link hl := by
    have hn := h.linked n (by rw [hl]; exact Option.some_ne_none _)
    obtain ⟨l, hl', hs, -⟩ := h.refs _ n hn
    obtain rfl := Option.some_inj.mp (hl.symm.trans hl')
    exact hs
  list p := ⟨kids p, h.chain p⟩
  once n hn := by
    have hmem := h.linked n hn
    refine ⟨par n, kids (par n), h.inside _ n hmem, h.chain _, List.count_eq_one_of_mem h.nodup hmem, ?_⟩
    intro q m hq hm hnm
    rw [hm.unique (h.chain q)] at hnm
    exact hq (h.parent q n hnm).symm
  only p l hl n hn := by
    rw [hl.unique (h.chain p)] at hn
    exact h.refOf_ne hn
  names p l hl := by
    rw [hl.unique (h.chain p)]
    exact List.pairwise_map.mpr (h.names p)

theorem repr_init : Repr init (fun _ => []) fun _ => nodeRoot := by
  have hget (n : Nid) : init.get n = if n = 0 then some { directory := true } else none := by
    rw [init, Heap.get_alloc, Heap.get_empty]
    rfl
  have hnone {β : Type} (f : Node → Option β) (hf : f { directory := true } = none) (n : Nid) :
      (init.get n).bind f = none := by
    rw [hget]
    split
    case isTrue  => rw [Option.bind_some, hf]
    case isFalse => rfl
  refine ⟨⟨_, hget 0, rfl⟩, fun p => ?_, by simp, by simp, by simp, by simp, by simp, fun n hn => ?_, by simp⟩
  · rw [first, hnone Node.child rfl]
    exact .nil
  · exact absurd (hnone Node.ref rfl n) hn

theorem Call.run_spec (h : Repr s kids par) (hv : c.Valid s) (hc : c.Harmless s) :
    wp c.run (fun _ t => ∃ kids' par', Repr t kids' par') (fun _ => False) s := by
  cases c
  case «open» alloc path flags =>
    refine wp_discard.mpr (wp_post (tmpfsOpen_spec _ _ _ h) fun r t ht => ?_)
    obtain ⟨-, -, rfl⟩ | ht := ht
    · exact ⟨kids, par, h⟩
    · exact ht.repr h
  case remove n =>
    obtain ⟨v, hv⟩ := hv
    refine wp_discard.mpr (wp_post (nodeRemove_spec h hv hc) fun r t ht => ?_)
    obtain ⟨-, rfl⟩ | ⟨-, -, -, ht, -⟩ := ht
    · exact ⟨kids, par, h⟩
    · exact ⟨_, par, ht⟩
  case close n =>
    obtain ⟨v, hv⟩ := hv
    exact wp_post (nodeClose_spec h hv (hc v hv)) fun _ t ⟨ht, _⟩ => ⟨kids, par, ht⟩

theorem nodeRemove_valid : wlp (nodeRemove n) (fun _ _ => n = nodeRoot ∨ ∃ v, s.get n = some v) s := by
  rw [nodeRemove, wlp_ite]
  refine ⟨fun hn => wlp_pure.mpr (.inl hn), fun _ => wlp_bind.mpr ?_⟩
  rw [wlp, wp_getNode]
  cases hv : s.get n
  case none   => trivial
  case some v => exact wlp_iff.mpr fun _ _ _ => .inr ⟨v, rfl⟩

theorem Repr.valid_remove (h : Repr s kids par) (hv : n = nodeRoot ∨ ∃ v, s.get n = some v) :
    ∃ v, s.get n = some v := by
  obtain rfl | hv := hv
  · exact h.root.imp fun _ => And.left
  · exact hv

theorem Call.valid_of_ok (h : Repr s kids par) (hr : c.run s = .ok ((), t)) : c.Valid s := by
  cases c
  case «open» => trivial
  case remove n =>
    have := wlp_of_ok (Q := fun _ _ => n = nodeRoot ∨ ∃ v, s.get n = some v) hr
      (wlp_discard.mpr nodeRemove_valid)
    exact h.valid_remove this
  case close n =>
    match hv : s.get n with
    | some v => exact ⟨v, hv⟩
    | none   =>
      have : wp (nodeClose n) (fun _ _ => False) (fun _ => True) s := by simp [nodeClose, hv]
      exact (wp_of_ok hr this).elim

theorem Repr.removes (h : Repr s kids par) (hc : (Call.remove n).Harmless s) : Removes s n := by
  intro t hr alloc path flags hf
  have hv := wlp_of_ok (Q := fun _ _ => n = nodeRoot ∨ ∃ v, s.get n = some v) hr nodeRemove_valid
  obtain ⟨v, hv⟩ := h.valid_remove hv
  obtain ⟨hne, -⟩ | ⟨-, hroot, hk, ht, hname⟩ := wp_of_ok hr (nodeRemove_spec h hv hc)
  · contradiction
  obtain ⟨r, u, hu, hopen⟩ := wp_false_iff.mp (tmpfsOpen_spec alloc path flags h)
  obtain ⟨r', u', hu', hopen'⟩ := wp_false_iff.mp (tmpfsOpen_spec alloc path flags ht)
  have hrw : r = walkPath s kids path := hopen.elim (fun h => h.2.1.symm) fun h => h.eq hf
  have hrw' : r' = walkPath t _ path := hopen'.elim (fun h => h.2.1.symm) fun h => h.eq hf
  rw [walkPath_unlink h hk hroot hname, ← hrw] at hrw'
  exact ⟨r, u, u', hu, hrw' ▸ hu'⟩

-- There is memory for files.
def file : Alloc :=
  ⟨true, fun _ => 0⟩

-- As long as only harmless calls are made, the tree is well formed, no call fails which is made on an
-- existing node, and a file which is removed is the only one that is not found anymore.
theorem reached_dirsOk (h : Reached Call.Harmless s) :
    DirsOk s ∧ (∀ c : Call, c.Valid s → c.Harmless s → ∃ t, c.run s = .ok ((), t)) ∧
      ∀ n, (Call.remove n).Harmless s → Removes s n := by
  obtain ⟨kids, par, h⟩ : ∃ kids par, Repr s kids par := by
    induction h
    case init => exact ⟨_, _, repr_init⟩
    case call s c t _ hc hr hi =>
      obtain ⟨kids, par, hi⟩ := hi
      exact wp_of_ok hr (Call.run_spec hi (Call.valid_of_ok hi hr) hc)
  refine ⟨h.dirsOk, fun c hv hc => ?_, fun n hc => h.removes hc⟩
  obtain ⟨_, t, ht, -⟩ := wp_false_iff.mp (Call.run_spec h hv hc)
  exact ⟨t, ht⟩

theorem reached_dirsOk_file : ∃ s t, nodeRemove 1 s = .ok (0, t) ∧ DirsOk s ∧ Removes s 1 := by
  have h₀ : Reached Call.Harmless init := .init
  have h := h₀.call (c := .open file [slash, 97] (OPEN_RW ||| OPEN_CREATE)) trivial rfl
  obtain ⟨hd, -, hr⟩ := reached_dirsOk h
  refine ⟨_, _, rfl, hd, hr 1 fun v hv hr hc => ?_⟩
  obtain rfl := Option.some_inj.mp hv
  refine ⟨fun prev hp => ?_, fun _ c hnext => ?_⟩
  · nomatch (show some (Link.child 0) = some (.sibling prev) from hp)
  · nomatch (show none = some c from hnext)

-- Two files: the second one is the head of the list, so that the first one refers to a field of it, and
-- still does after the second one was removed. The file which is removed next is still found.
theorem removed_found : ∃ s t u, Reached (fun _ _ => True) s ∧ nodeRemove 1 s = .ok (0, t) ∧
    tmpfsOpen file [slash, 97] OPEN_READ t = .ok (some 1, u) ∧ ¬DirsOk t := by
  have h₀ : Reached (fun _ _ => True) init := .init
  have h₁ := h₀.call (c := .open file [slash, 97] (OPEN_RW ||| OPEN_CREATE)) trivial rfl
  have h₂ := h₁.call (c := .open file [slash, 98] (OPEN_RW ||| OPEN_CREATE)) trivial rfl
  have h₃ := h₂.call (c := .open file [slash, 98] OPEN_READ) trivial rfl
  have h₄ := h₃.call (c := .open file [slash, 97] OPEN_READ) trivial rfl
  have h₅ := h₄.call (c := .remove 2) trivial rfl
  refine ⟨_, _, _, h₅, rfl, rfl, fun h => ?_⟩
  exact h.only 0 [1] (.cons .nil) 1 (List.mem_cons_self ..) rfl

end Run
end Camellia.Tmpfs
