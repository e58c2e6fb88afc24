import Camellia.Cmd.Tmpfs
import Camellia.Lib.Chain

namespace Camellia.Tmpfs

-- The fields of a node which keep it in the tree, if the node exists.

def next (s : Heap Node) (n : Nid) : Option Nid :=
  (s.get n).bind Node.sibling

def first (s : Heap Node) (n : Nid) : Option Nid :=
  (s.get n).bind Node.child

def refOf (s : Heap Node) (n : Nid) : Option Link :=
  (s.get n).bind Node.ref

def nameOf (s : Heap Node) (n : Nid) : Option (List UInt8) :=
  (s.get n).bind fun v => some v.name

-- `*link`
def Link.target (s : Heap Node) : Link → Option Nid
  | .child parent => first s parent
  | .sibling prev => next s prev

-- Where the field is which a node of the directory `p` refers to: in the directory itself, or in another
-- one of its nodes, or in a node which was removed.
def Link.Within (s : Heap Node) (p : Nid) (l : List Nid) : Link → Prop
  | .child parent => parent = p
  | .sibling prev => prev ∈ l ∨ refOf s prev = none

-- The children of each directory, and the directory of each node.
structure Repr (s : Heap Node) (kids : Nid → List Nid) (par : Nid → Nid) : Prop where
  root   : ∃ v, s.get nodeRoot = some v ∧ v.ref = none
  chain  : ∀ p, Chain (next s) (first s p) (kids p)
  refs   : ∀ p, ∀ c ∈ kids p, ∃ link,
    refOf s c = some link ∧ link.target s = some c ∧ link.Within s p (kids p)
  order  : ∀ p, (kids p).Pairwise (· > ·)
  above  : ∀ p, ∀ c ∈ kids p, p < c
  parent : ∀ p, ∀ c ∈ kids p, par c = p
  names  : ∀ p, (kids p).Pairwise (nameOf s · ≠ nameOf s ·)
  linked : ∀ n, refOf s n ≠ none → n ∈ kids (par n)
  inside : ∀ p, ∀ c ∈ kids p, p = nodeRoot ∨ refOf s p ≠ none

section Rules

variable {s : Heap Node} {n : Nid} {Q : Node → Heap Node → Prop} {R : Unit → Heap Node → Prop}
variable {E : Fault → Prop}

@[simp]
theorem wp_getNode :
    wp (getNode n) Q E s ↔ (s.get n).elim (E (.useAfterFree .node)) (Q · s) := by
  simp only [getNode, wp_bind, wp_get]
  cases s.get n <;> simp

@[simp]
theorem wp_updNode {f : Node → Node} :
    wp (updNode n f) R E s ↔
      (s.get n).elim (E (.useAfterFree .node)) fun v => R () (s.set n (f v)) := by
  simp [updNode]

@[simp]
theorem wp_tassert {c : Prop} [Decidable c] {site : Site} :
    wp (tassert c site) R E s ↔ (c → R () s) ∧ (¬c → E (.assert site)) := by
  by_cases h : c <;> simp [tassert, h]

end Rules

section Lookup

variable {s : Heap Node} {kids : Nid → List Nid} {par : Nid → Nid} {p n m : Nid} {v w : Node}
variable {l : List Nid} {link : Link} {name : List UInt8} {o : Option Nid}

theorem bind_get_set {β : Type} {f : Node → Option β} (hv : s.get n = some v) :
    ((s.set n w).get m).bind f = if m = n then f w else (s.get m).bind f := by
  rw [Heap.get_set hv]
  by_cases hm : m = n
  case pos => rw [if_pos hm, if_pos hm, Option.bind_some]
  case neg => rw [if_neg hm, if_neg hm]

theorem next_set (hv : s.get n = some v) : next (s.set n w) m = if m = n then w.sibling else next s m :=
  bind_get_set hv

theorem first_set (hv : s.get n = some v) : first (s.set n w) m = if m = n then w.child else first s m :=
  bind_get_set hv

theorem refOf_set (hv : s.get n = some v) : refOf (s.set n w) m = if m = n then w.ref else refOf s m :=
  bind_get_set hv

theorem nameOf_set (hv : s.get n = some v) :
    nameOf (s.set n w) m = if m = n then some w.name else nameOf s m :=
  bind_get_set (f := fun v => some v.name) hv

-- What is set to its own value stays as it is.
theorem set_eq_self {β : Type} {f : Node → Option β} (hv : s.get n = some v) (hf : f w = f v) :
    (if m = n then f w else (s.get m).bind f) = (s.get m).bind f := by
  by_cases hm : m = n
  case pos => rw [if_pos hm, hm, hv, Option.bind_some, hf]
  case neg => rw [if_neg hm]

theorem exists_of_refOf (h : refOf s n ≠ none) : ∃ v, s.get n = some v := by
  rw [refOf] at h
  cases hv : s.get n
  case none   => simp [hv] at h
  case some v => exact ⟨v, rfl⟩

theorem Repr.refOf_ne (h : Repr s kids par) (hn : n ∈ kids p) : refOf s n ≠ none := by
  obtain ⟨link, hl, -⟩ := h.refs p n hn
  rw [hl]
  exact Option.some_ne_none _

theorem Repr.get (h : Repr s kids par) (hn : n ∈ kids p) : ∃ v, s.get n = some v :=
  exists_of_refOf (h.refOf_ne hn)

theorem Repr.nodup (h : Repr s kids par) : (kids p).Nodup :=
  (h.order p).imp fun h => h.ne'

theorem Repr.length_le (h : Repr s kids par) : (kids p).length ≤ s.size := by
  have hsub : kids p ⊆ List.range s.size := fun n hn => by
    obtain ⟨v, hv⟩ := h.get hn
    exact List.mem_range.mpr (Heap.lt_size hv)
  simpa using (h.nodup.subperm hsub).length_le

-- The children of a directory which has the given name.
def find (s : Heap Node) (name : List UInt8) (l : List Nid) : Option Nid :=
  l.find? fun n => nameOf s n = some name

theorem nodeGetchildLoop_spec {fuel : ℕ} (h : Chain (next s) o l)
    (hl : ∀ n ∈ l, ∃ v, s.get n = some v) (hf : l.length ≤ fuel) :
    wp (nodeGetchildLoop name fuel o) (fun r t => r = find s name l ∧ t = s) (fun _ => False) s := by
  induction h generalizing fuel
  case nil => cases fuel <;> exact wp_pure.mpr ⟨rfl, rfl⟩
  case cons n l _ hi =>
    obtain ⟨fuel, rfl⟩ : ∃ m, fuel = m + 1 := ⟨fuel - 1, by simp at hf; omega⟩
    obtain ⟨v, hv⟩ := hl n (List.mem_cons_self ..)
    have hname : nameOf s n = some v.name := by rw [nameOf, hv, Option.bind_some]
    have hnext : next s n = v.sibling := by rw [next, hv, Option.bind_some]
    simp only [nodeGetchildLoop, wp_bind, wp_getNode, hv, Option.elim_some, wp_ite]
    refine ⟨fun heq => wp_pure.mpr ⟨?_, rfl⟩, fun hne => ?_⟩
    · rw [find, List.find?_cons_of_pos (by simp [hname, heq])]
    · rw [find, List.find?_cons_of_neg (by simp [hname, hne]), ← hnext]
      exact hi (fun m hm => hl m (List.mem_cons_of_mem _ hm)) (by simp at hf; omega)

theorem nodeGetchild_spec (h : Repr s kids par) (hv : s.get p = some v) :
    wp (nodeGetchild p name) (fun r t => r = find s name (kids p) ∧ t = s) (fun _ => False) s := by
  simp only [nodeGetchild, wp_bind, wp_get, wp_getNode, hv, Option.elim_some]
  have hfirst : first s p = v.child := by rw [first, hv, Option.bind_some]
  exact nodeGetchildLoop_spec (hfirst ▸ h.chain p) (fun n hn => h.get hn) h.length_le

theorem mem_of_find (h : find s name l = some n) : n ∈ l ∧ nameOf s n = some name := by
  have hp := List.find?_some h
  exact ⟨List.mem_of_find?_eq_some h, by simpa using hp⟩

theorem find_ne (h : find s name l = none) (hn : n ∈ l) : nameOf s n ≠ some name := by
  simpa using List.find?_eq_none.mp h n hn

end Lookup

section Create

variable {s t : Heap Node} {kids : Nid → List Nid} {par : Nid → Nid} {p n : Nid} {v w : Node}
variable {name : List UInt8} {directory : Bool}

-- The nodes are the same, apart from what does not matter for the tree.
structure Same (s t : Heap Node) : Prop where
  next  : next t = next s
  first : first t = first s
  refOf : refOf t = refOf s
  name  : nameOf t = nameOf s
  root  : ∀ v, s.get nodeRoot = some v → ∃ w, t.get nodeRoot = some w

theorem Repr.same (h : Repr s kids par) (ht : Same s t) : Repr t kids par where
  root   := by
    obtain ⟨v, hv, hr⟩ := h.root
    obtain ⟨w, hw⟩ := ht.root v hv
    refine ⟨w, hw, ?_⟩
    have := congrFun ht.refOf nodeRoot
    simpa [Tmpfs.refOf, hv, hw, hr] using this
  chain  := fun p => by
    rw [ht.next, ht.first]
    exact h.chain p
  refs   := fun p c hc => by
    obtain ⟨link, hl, hs, hw⟩ := h.refs p c hc
    refine ⟨link, by rw [ht.refOf, hl], ?_, ?_⟩
    · cases link <;> simpa only [Link.target, ht.next, ht.first] using hs
    · cases link <;> simpa only [Link.Within, ht.refOf] using hw
  order  := h.order
  above  := h.above
  parent := h.parent
  names  := by
    rw [ht.name]
    exact h.names
  linked := by
    rw [ht.refOf]
    exact h.linked
  inside := by
    rw [ht.refOf]
    exact h.inside

theorem same_set (hv : s.get n = some v) (hs : w.sibling = v.sibling) (hc : w.child = v.child)
    (hr : w.ref = v.ref) (hn : w.name = v.name) : Same s (s.set n w) := by
  refine ⟨funext fun m => ?_, funext fun m => ?_, funext fun m => ?_, funext fun m => ?_, fun x hx => ?_⟩
  · rw [next_set hv]
    exact set_eq_self hv hs
  · rw [first_set hv]
    exact set_eq_self hv hc
  · rw [refOf_set hv]
    exact set_eq_self hv hr
  · rw [nameOf_set hv]
    exact set_eq_self (f := fun v => some v.name) hv (congrArg some hn)
  · by_cases hm : nodeRoot = n
    case pos => exact ⟨w, by rw [hm, Heap.get_set_self hv]⟩
    case neg => exact ⟨x, by rw [Heap.get_set_ne hm, hx]⟩

-- The new node is the first child of its parent.
structure Created (s : Heap Node) (p : Nid) (v : Node) (name : List UInt8) (directory : Bool)
    (t : Heap Node) : Prop where
  size : t.size = s.size + 1
  get  : ∀ n, t.get n =
    if n = p then some { v with child := some s.size }
    else if n = s.size then
      some { name := name, directory := directory, sibling := v.child, ref := some (.child p) }
    else if v.child = some n then (s.get n).map ({ · with ref := some (.sibling s.size) })
    else s.get n

theorem nodeCreate_spec (h : Repr s kids par) (hv : s.get p = some v) :
    wp (nodeCreate p name directory) (fun n t => n = s.size ∧ Created s p v name directory t)
      (fun _ => False) s := by
  have hfirst : first s p = v.child := by rw [first, hv, Option.bind_some]
  simp only [nodeCreate, wp_bind, wp_getNode, wp_get, wp_modify, hv, Option.elim_some]
  obtain ⟨x, hx⟩ : ∃ x : Node, x = { name := name, directory := directory, sibling := v.child, ref := some (.child p) } :=
    ⟨_, rfl⟩
  have hp : (s.alloc x).get p = some v := Heap.get_alloc_of_some hv
  have hlt := Heap.lt_size hv
  rw [← hx]
  have hchain := hfirst ▸ h.chain p
  cases hc : v.child
  case none   =>
    simp only [wp_pure, wp_updNode, wp_bind, hp, Option.elim_some]
    refine ⟨trivial, by simp, fun n => ?_⟩
    rw [Heap.get_set hp, Heap.get_alloc, hx, hc]
    simp
  case some c =>
    have hmem : c ∈ kids p := (hc ▸ hchain).head_mem
    obtain ⟨w, hw⟩ := h.get hmem
    have hpc := h.above p c hmem
    have hcs := Heap.lt_size hw
    have hc' : (s.alloc x).get c = some w := Heap.get_alloc_of_some hw
    have hp' : ((s.alloc x).set c { w with ref := some (.sibling s.size) }).get p = some v := by
      rw [Heap.get_set_ne hpc.ne, hp]
    simp only [wp_pure, wp_updNode, wp_bind, hc', hp', Option.elim_some]
    refine ⟨trivial, by simp, fun n => ?_⟩
    rw [Heap.get_set hp', Heap.get_set hc', Heap.get_alloc, hx, hc]
    by_cases hnp : n = p
    case pos => simp [hnp]
    case neg =>
      by_cases hnc : n = c
      case pos => simp [hnc, hpc.ne', hcs.ne, hw]
      case neg => simp [hnp, hnc, Ne.symm hnc]

theorem Created.next_eq (ht : Created s p v name directory t) (hv : s.get p = some v) :
    next t n = if n = s.size then v.child else next s n := by
  have hne := (Heap.lt_size hv).ne
  rw [next, next, ht.get]
  by_cases hp : n = p
  case pos => simp [hp, hne, hv]
  case neg =>
    by_cases hs : n = s.size
    case pos => simp [hs, hne.symm]
    case neg =>
      by_cases hc : v.child = some n <;> cases s.get n <;> simp [hp, hs, hc]

theorem Created.first_eq (ht : Created s p v name directory t) (hv : s.get p = some v) :
    first t n = if n = p then some s.size else first s n := by
  have hne := (Heap.lt_size hv).ne
  rw [first, first, ht.get]
  by_cases hp : n = p
  case pos => simp [hp]
  case neg =>
    by_cases hs : n = s.size
    case pos => simp [hs, hne.symm]
    case neg =>
      by_cases hc : v.child = some n <;> cases s.get n <;> simp [hp, hs, hc]

theorem Created.nameOf_eq (ht : Created s p v name directory t) (hv : s.get p = some v) :
    nameOf t n = if n = s.size then some name else nameOf s n := by
  have hne := (Heap.lt_size hv).ne
  rw [nameOf, nameOf, ht.get]
  by_cases hp : n = p
  case pos => simp [hp, hne, hv]
  case neg =>
    by_cases hs : n = s.size
    case pos => simp [hs, hne.symm]
    case neg =>
      by_cases hc : v.child = some n <;> cases s.get n <;> simp [hp, hs, hc]

theorem Created.refOf_eq (ht : Created s p v name directory t) (hv : s.get p = some v)
    (hc : ∀ c, v.child = some c → p < c ∧ ∃ w, s.get c = some w) :
    refOf t n = if n = s.size then some (.child p) else
      if v.child = some n then some (.sibling s.size) else refOf s n := by
  have hne := (Heap.lt_size hv).ne
  rw [refOf, refOf, ht.get]
  by_cases hp : n = p
  case pos =>
    have hcp : v.child ≠ some p := fun hcp => (hc p hcp).1.ne rfl
    simp [hp, hne, hcp, hv]
  case neg =>
    by_cases hs : n = s.size
    case pos => simp [hs, hne.symm]
    case neg =>
      by_cases hcn : v.child = some n
      case pos =>
        obtain ⟨-, w, hw⟩ := hc n hcn
        simp [hp, hs, hcn, hw]
      case neg => simp [hp, hs, hcn]

theorem Repr.create (h : Repr s kids par) (hv : s.get p = some v)
    (ht : Created s p v name directory t) (hnew : find s name (kids p) = none)
    (hp : p = nodeRoot ∨ refOf s p ≠ none) :
    Repr t (Function.update kids p (s.size :: kids p)) (Function.update par s.size p) := by
  have hfirst : first s p = v.child := by rw [first, hv, Option.bind_some]
  have hc (c : Nid) (hc : v.child = some c) : c ∈ kids p := (hc ▸ hfirst ▸ h.chain p).head_mem
  have hc' (c : Nid) (hcc : v.child = some c) : p < c ∧ ∃ w, s.get c = some w :=
    ⟨h.above p c (hc c hcc), h.get (hc c hcc)⟩
  have hps := Heap.lt_size hv
  have hlt {q n : Nid} (hn : n ∈ kids q) : n < s.size := (h.get hn).elim fun _ => Heap.lt_size
  have hnext {q n : Nid} (hn : n ∈ kids q) : next t n = next s n := by
    rw [ht.next_eq hv, if_neg (hlt hn).ne]
  have hname {q n : Nid} (hn : n ∈ kids q) : nameOf t n = nameOf s n := by
    rw [ht.nameOf_eq hv, if_neg (hlt hn).ne]
  have href {n : Nid} (hn : n < s.size) (hnc : v.child ≠ some n) : refOf t n = refOf s n := by
    rw [ht.refOf_eq hv hc', if_neg hn.ne, if_neg hnc]
  have hsize : refOf t s.size = some (.child p) := by rw [ht.refOf_eq hv hc', if_pos rfl]
  -- A node which refers back to something still does so.
  have hsome {n : Nid} (hn : refOf s n ≠ none) : refOf t n ≠ none := by
    obtain ⟨w, hw⟩ := exists_of_refOf hn
    by_cases hnc : v.child = some n
    case neg => rwa [href (Heap.lt_size hw) hnc]
    case pos =>
      rw [ht.refOf_eq hv hc', if_neg (Heap.lt_size hw).ne, if_pos hnc]
      exact Option.some_ne_none _
  have hmem {q c : Nid} : c ∈ Function.update kids p (s.size :: kids p) q ↔ c ∈ kids q ∨ q = p ∧ c = s.size := by
    by_cases hq : q = p
    case pos => simp [hq, or_comm]
    case neg => simp [hq]
  have hpar {c : Nid} (hc : c ≠ s.size) : Function.update par s.size p c = par c :=
    Function.update_of_ne hc ..
  refine ⟨?_, fun q => ?_, fun q c hcq => ?_, fun q => ?_, fun q c hcq => ?_, fun q c hcq => ?_, fun q => ?_,
    fun n hn => ?_, fun q c hcq => ?_⟩
  case refine_1 =>
    obtain ⟨w, hw, hr⟩ := h.root
    have hroot : v.child ≠ some nodeRoot := fun hcr => absurd (hc' _ hcr).1 (Nat.not_lt_zero p)
    have hrt := href (Heap.lt_size hw) hroot
    simp only [refOf, hw, Option.bind_some, hr] at hrt
    have hget := ht.get nodeRoot
    rw [if_neg (Heap.lt_size hw).ne, if_neg hroot, hw] at hget
    by_cases hp : nodeRoot = p
    case pos =>
      rw [if_pos hp] at hget
      rw [hget] at hrt
      exact ⟨_, hget, hrt⟩
    case neg =>
      rw [if_neg hp] at hget
      exact ⟨w, hget, hr⟩
  case refine_2 =>
    by_cases hq : q = p
    case pos =>
      subst hq
      rw [Function.update_self, ht.first_eq hv, if_pos rfl]
      refine .cons ?_
      rw [ht.next_eq hv, if_pos rfl, ← hfirst]
      exact (h.chain q).congr fun n hn => hnext hn
    case neg =>
      rw [Function.update_of_ne hq, ht.first_eq hv, if_neg hq]
      exact (h.chain q).congr fun n hn => hnext hn
  case refine_3 =>
    obtain hcq' | ⟨rfl, rfl⟩ := hmem.mp hcq
    case inr => exact ⟨.child q, hsize, by rw [Link.target, ht.first_eq hv, if_pos rfl], rfl⟩
    case inl =>
      by_cases hcv : v.child = some c
      -- The former first child now follows the new one.
      case pos =>
        obtain rfl : q = p := by rw [← h.parent q c hcq', ← h.parent p c (hc c hcv)]
        refine ⟨.sibling s.size, ?_, ?_, .inl (hmem.mpr (.inr ⟨rfl, rfl⟩))⟩
        · rw [ht.refOf_eq hv hc', if_neg (hlt hcq').ne, if_pos hcv]
        · rw [Link.target, ht.next_eq hv, if_pos rfl, hcv]
      case neg =>
        obtain ⟨link, hl, hs, hw⟩ := h.refs q c hcq'
        refine ⟨link, by rw [href (hlt hcq') hcv, hl], ?_, ?_⟩
        all_goals cases link
        case refine_1.child parent =>
          rw [Link.target, ht.first_eq hv, if_neg fun hp => hcv ?_]
          · exact hs
          · rw [← hfirst, ← hp]
            exact hs
        case refine_1.sibling prev =>
          rw [Link.target, ht.next_eq hv, if_neg fun hp => ?_]
          · exact hs
          · rw [Link.target, hp, next, Heap.get_size] at hs
            contradiction
        case refine_2.child parent => exact hw
        case refine_2.sibling prev =>
          refine hw.imp (fun hw => hmem.mpr (.inl hw)) fun hw => ?_
          obtain ⟨u, hu⟩ : ∃ u, s.get prev = some u := by
            rw [Link.target, next] at hs
            exact Option.ne_none_iff_exists'.mp fun hn => by simp [hn] at hs
          rw [href (Heap.lt_size hu) fun hup => absurd hw (h.refOf_ne (hc _ hup)), hw]
  case refine_4 =>
    by_cases hq : q = p
    case neg =>
      rw [Function.update_of_ne hq]
      exact h.order q
    case pos =>
      subst hq
      rw [Function.update_self]
      exact List.pairwise_cons.mpr ⟨fun n hn => hlt hn, h.order q⟩
  case refine_5 =>
    obtain hcq | ⟨rfl, rfl⟩ := hmem.mp hcq
    · exact h.above q c hcq
    · exact hps
  case refine_6 =>
    obtain hcq | ⟨rfl, rfl⟩ := hmem.mp hcq
    · rw [hpar (hlt hcq).ne, h.parent q c hcq]
    · exact Function.update_self ..
  case refine_7 =>
    have hold : (kids q).Pairwise (nameOf t · ≠ nameOf t ·) := (h.names q).imp_of_mem fun ha hb hne => by
      rwa [hname ha, hname hb]
    by_cases hq : q = p
    case neg => rwa [Function.update_of_ne hq]
    case pos =>
      subst hq
      rw [Function.update_self]
      refine List.pairwise_cons.mpr ⟨fun n hn => ?_, hold⟩
      rw [hname hn, ht.nameOf_eq hv, if_pos rfl]
      exact (find_ne hnew hn).symm
  case refine_8 =>
    by_cases hns : n = s.size
    case pos =>
      subst hns
      rw [Function.update_self]
      exact hmem.mpr (.inr ⟨rfl, rfl⟩)
    case neg =>
      rw [hpar hns]
      refine hmem.mpr (.inl ?_)
      by_cases hcn : v.child = some n
      case pos => rw [h.parent p n (hc n hcn)]; exact hc n hcn
      case neg =>
        rw [ht.refOf_eq hv hc', if_neg hns, if_neg hcn] at hn
        exact h.linked n hn
  case refine_9 =>
    obtain hcq | ⟨rfl, -⟩ := hmem.mp hcq
    · exact (h.inside q c hcq).imp_right hsome
    · exact hp.imp_right hsome

end Create

section Unlink

variable {s t u : Heap Node} {kids : Nid → List Nid} {par : Nid → Nid} {p n : Nid} {v : Node}
variable {link : Link} {o : Option Nid}

-- The node `n` was taken out of the list in which `link` points to it.
structure Unlinked (s : Heap Node) (n : Nid) (v : Node) (link : Link) (t : Heap Node) : Prop where
  next  : ∀ m, next t m = if link = .sibling m then v.sibling else next s m
  first : ∀ m, first t m = if link = .child m then v.sibling else first s m
  refOf : ∀ m, refOf t m = if m = n then none else refOf s m
  name  : ∀ m, nameOf t m = nameOf s m
  root  : n ≠ nodeRoot → ∀ w, s.get nodeRoot = some w → ∃ w', t.get nodeRoot = some w' ∧ w'.ref = w.ref
  get   : t.get n = some { v with ref := none }

theorem unlink_spec (hv : s.get n = some v) (hl : link.target s = some n) (hc : link ≠ .child n)
    (hs : link ≠ .sibling n) :
    wp (setLink link v.sibling) (fun _ t => wp (updNode n ({ · with ref := none }))
      (fun _ u => Unlinked s n v link u) (fun _ => False) t) (fun _ => False) s := by
  cases link
  case child p =>
    obtain ⟨w, hw, -⟩ := Option.bind_eq_some_iff.mp hl
    have hne : n ≠ p := fun hnp => hc (hnp ▸ rfl)
    have hn : (s.set p { w with child := v.sibling }).get n = some v := by rw [Heap.get_set_ne hne, hv]
    simp only [setLink, wp_updNode, hw, hn, Option.elim_some]
    refine ⟨fun m => ?_, fun m => ?_, fun m => ?_, fun m => ?_, fun hr x hx => ?_, Heap.get_set_self hn⟩
    · rw [next_set hn, next_set hw]
      grind [next]
    · rw [first_set hn, first_set hw]
      grind [first]
    · rw [refOf_set hn, refOf_set hw]
      grind [refOf]
    · rw [nameOf_set hn, nameOf_set hw]
      grind [nameOf]
    · rw [Heap.get_set_ne hr.symm, Heap.get_set hw]
      grind
  case sibling q =>
    obtain ⟨w, hw, -⟩ := Option.bind_eq_some_iff.mp hl
    have hne : n ≠ q := fun hnq => hs (hnq ▸ rfl)
    have hn : (s.set q { w with sibling := v.sibling }).get n = some v := by rw [Heap.get_set_ne hne, hv]
    simp only [setLink, wp_updNode, hw, hn, Option.elim_some]
    refine ⟨fun m => ?_, fun m => ?_, fun m => ?_, fun m => ?_, fun hr x hx => ?_, Heap.get_set_self hn⟩
    · rw [next_set hn, next_set hw]
      grind [next]
    · rw [first_set hn, first_set hw]
      grind [first]
    · rw [refOf_set hn, refOf_set hw]
      grind [refOf]
    · rw [nameOf_set hn, nameOf_set hw]
      grind [nameOf]
    · rw [Heap.get_set_ne hr.symm, Heap.get_set hw]
      grind

-- Only the field which the node refers to points to it.
theorem Repr.pointer_eq (h : Repr s kids par) (hn : n ∈ kids p) (hl : refOf s n = some link)
    (hw : ∀ q, link = .sibling q → refOf s q ≠ none) :
    (∀ q, first s q = some n → link = .child q) ∧
      ∀ q m, m ∈ kids q → next s m = some n → link = .sibling m := by
  obtain ⟨_, hl', htgt, hin⟩ := h.refs p n hn
  obtain rfl := Option.some_inj.mp (hl.symm.trans hl')
  -- The field is part of the directory `p`.
  have hpar {q : Nid} (hq : n ∈ kids q) : q = p := by rw [← h.parent q n hq, h.parent p n hn]
  have hfirst {q : Nid} (hq : first s q = some n) : n ∈ kids q := by
    have := h.chain q
    rw [hq] at this
    exact this.head_mem
  cases link
  case child q =>
    obtain rfl : q = p := hin
    refine ⟨fun q' hq' => by rw [hpar (hfirst hq')], fun q' m hm hnext => ?_⟩
    obtain rfl := hpar ((h.chain q').next_mem hm hnext)
    have hchain := h.chain q'
    rw [show first s q' = some n from htgt] at hchain
    exact absurd hnext (hchain.next_ne_head (h.order q') hm)
  case sibling q =>
    have hq : q ∈ kids p := hin.resolve_right (hw q rfl)
    refine ⟨fun q' hq' => ?_, fun q' m hm hnext => ?_⟩
    · obtain rfl := hpar (hfirst hq')
      have hchain := h.chain q'
      rw [hq'] at hchain
      exact absurd htgt (hchain.next_ne_head (h.order q') hq)
    · obtain rfl := hpar ((h.chain q').next_mem hm hnext)
      rw [(h.chain q').next_inj (h.order q') hm hq hnext htgt]

theorem Repr.unlink (h : Repr s kids par) (hn : n ∈ kids p) (hv : s.get n = some v) (hk : kids n = [])
    (hl : refOf s n = some link) (hw : ∀ q, link = .sibling q → refOf s q ≠ none)
    (ht : Unlinked s n v link t) :
    Repr t (fun q => (kids q).filter (· ≠ n)) par := by
  have ⟨hfst, hnxt⟩ := h.pointer_eq hn hl hw
  obtain ⟨_, hl', htgt, -⟩ := h.refs p n hn
  obtain rfl := Option.some_inj.mp (hl.symm.trans hl')
  have hnext : next s n = v.sibling := by rw [next, hv, Option.bind_some]
  have hroot : n ≠ nodeRoot := (Nat.zero_le p |>.trans_lt (h.above p n hn)).ne'
  have hmem {q c : Nid} : c ∈ (kids q).filter (· ≠ n) ↔ c ∈ kids q ∧ c ≠ n := by simp
  refine ⟨?_, fun q => ?_, fun q c hc => ?_, fun q => (h.order q).filter _, fun q c hc => ?_,
    fun q c hc => ?_, fun q => ?_, fun m hm => ?_, fun q c hc => ?_⟩
  case refine_1 =>
    obtain ⟨w, hw, hr⟩ := h.root
    obtain ⟨w', hw', hr'⟩ := ht.root hroot w hw
    exact ⟨w', hw', hr'.trans hr⟩
  case refine_2 =>
    have hskip : first t q = Chain.skip (next s) n (first s q) := by
      rw [ht.first, Chain.skip, hnext]
      refine if_congr ⟨fun hlq => ?_, hfst q⟩ rfl rfl
      rw [hlq] at htgt
      exact htgt
    rw [hskip]
    refine (h.chain q).unlink h.nodup fun m hm hmn => ?_
    rw [ht.next, Chain.skip, hnext]
    refine if_congr ⟨fun hlm => ?_, hnxt q m hm⟩ rfl rfl
    rw [hlm] at htgt
    exact htgt
  case refine_3 =>
    obtain ⟨hcq, hcn⟩ := hmem.mp hc
    obtain ⟨l, hl, hs, hin⟩ := h.refs q c hcq
    have hll : link ≠ l := fun heq => hcn (Option.some_inj.mp (hs.symm.trans (heq ▸ htgt)))
    refine ⟨l, by rw [ht.refOf, if_neg hcn, hl], ?_, ?_⟩
    all_goals cases l
    case refine_1.child => rw [Link.target, ht.first, if_neg hll]; exact hs
    case refine_1.sibling => rw [Link.target, ht.next, if_neg hll]; exact hs
    case refine_2.child => exact hin
    case refine_2.sibling prev =>
      by_cases hp : prev = n
      case pos => exact .inr (by rw [ht.refOf, if_pos hp])
      case neg => exact hin.imp (fun hin => hmem.mpr ⟨hin, hp⟩) fun hin => by rw [ht.refOf, if_neg hp, hin]
  case refine_4 => exact h.above q c (hmem.mp hc).1
  case refine_5 => exact h.parent q c (hmem.mp hc).1
  case refine_6 =>
    refine ((h.names q).filter _).imp fun {a b} hne => ?_
    rwa [ht.name, ht.name]
  case refine_7 =>
    rw [ht.refOf] at hm
    by_cases hmn : m = n
    case pos => simp [hmn] at hm
    case neg => exact hmem.mpr ⟨h.linked m (by rwa [if_neg hmn] at hm), hmn⟩
  case refine_8 =>
    obtain ⟨hcq, hcn⟩ := hmem.mp hc
    have hqn : q ≠ n := fun heq => by simp [heq, hk] at hcq
    exact (h.inside q c hcq).imp_right fun hq => by rwa [ht.refOf, if_neg hqn]

-- No node refers to the sibling field of this one.
def Unreferenced (s : Heap Node) (n : Nid) : Prop :=
  ∀ c, next s n = some c → refOf s c ≠ some (.sibling n)

theorem bind_get_free {β : Type} {f : Node → Option β} {m : Nid} :
    ((s.free n).get m).bind f = if m = n then none else (s.get m).bind f := by
  rw [Heap.get_free]
  by_cases hm : m = n
  case pos => rw [if_pos hm, if_pos hm, Option.bind_none]
  case neg => rw [if_neg hm, if_neg hm]

theorem Repr.free (h : Repr s kids par) (hn : n ≠ nodeRoot) (hr : refOf s n = none)
    (hu : Unreferenced s n) : Repr (s.free n) kids par := by
  have hne {q c : Nid} (hc : c ∈ kids q) : c ≠ n := fun heq => h.refOf_ne hc (heq ▸ hr)
  have hk : kids n = [] := List.eq_nil_iff_forall_not_mem.mpr fun c hc =>
    (h.inside n c hc).elim hn fun hr' => hr' hr
  have href (m : Nid) : refOf (s.free n) m = refOf s m := by
    rw [refOf, bind_get_free]
    by_cases hm : m = n
    case pos => rw [if_pos hm, hm, hr]
    case neg => rw [if_neg hm, refOf]
  have hnext {m : Nid} (hm : m ≠ n) : next (s.free n) m = next s m := by
    rw [next, bind_get_free, if_neg hm, next]
  have hfirst {m : Nid} (hm : m ≠ n) : first (s.free n) m = first s m := by
    rw [first, bind_get_free, if_neg hm, first]
  refine ⟨?_, fun q => ?_, fun q c hc => ?_, h.order, h.above, h.parent, fun q => ?_, fun m hm => ?_,
    fun q c hc => ?_⟩
  case refine_1 =>
    obtain ⟨v, hv, hr⟩ := h.root
    exact ⟨v, by rw [Heap.get_free_ne hn.symm, hv], hr⟩
  case refine_2 =>
    by_cases hq : q = n
    case pos =>
      rw [hq, hk, first, Heap.get_free_self]
      exact .nil
    case neg =>
      rw [hfirst hq]
      exact (h.chain q).congr fun m hm => hnext (hne hm)
  case refine_3 =>
    obtain ⟨link, hl, hs, hin⟩ := h.refs q c hc
    refine ⟨link, by rw [href, hl], ?_, ?_⟩
    all_goals cases link
    case refine_1.child q' =>
      obtain rfl : q' = q := hin
      have hq : q' ≠ n := fun heq => by simp [heq, hk] at hc
      rw [Link.target, hfirst hq]
      exact hs
    case refine_1.sibling m =>
      have hm : m ≠ n := fun heq => hu c (heq ▸ hs) (heq ▸ hl)
      rw [Link.target, hnext hm]
      exact hs
    case refine_2.child => exact hin
    case refine_2.sibling m => exact hin.imp_right fun hin => by rw [href, hin]
  case refine_4 =>
    refine (h.names q).imp_of_mem fun {a b} ha hb hab => ?_
    rwa [nameOf, bind_get_free, if_neg (hne ha), nameOf, bind_get_free, if_neg (hne hb)]
  case refine_5 => exact h.linked m (href m ▸ hm)
  case refine_6 => exact (h.inside q c hc).imp_right fun hq => by rwa [href]

end Unlink
end Camellia.Tmpfs
