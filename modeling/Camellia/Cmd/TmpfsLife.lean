import Camellia.Cmd.TmpfsDirs

namespace Camellia.Tmpfs

-- A handle to a file, and whether a request to remove the file was sent through it.
structure FileHandle where
  node : Nid
  removed : Bool
  deriving DecidableEq

-- What the kernel does with its handles when it gets the reply to a request. It sends `CLOSE` when it
-- closes a handle, and for each handle `REMOVE` at most once.
inductive Sends (hs : List FileHandle) : UfsRequest → Reply → List FileHandle → Prop
  | opened (ho : req.op = .OPEN) : Sends hs req (.opened (some n)) (⟨n, false⟩ :: hs)
  | failed (ho : req.op = .OPEN) : Sends hs req (.opened none) hs
  | used (hh : h ∈ hs) (hn : h.node = req.id) (ho : req.op = .READ ∨ req.op = .WRITE ∨ req.op = .GETSIZE) :
    Sends hs req r hs
  | removed (hh : ⟨req.id, false⟩ ∈ hs) (ho : req.op = .REMOVE) :
    Sends hs req r (⟨req.id, true⟩ :: hs.erase ⟨req.id, false⟩)
  | closed (hh : h ∈ hs) (hn : h.node = req.id) (ho : req.op = .CLOSE) : Sends hs req r (hs.erase h)

def Permitted (hs : List FileHandle) (req : UfsRequest) : Prop :=
  ∃ r hs', Sends hs req r hs'

-- The states which are reached by requests that are all allowed, with the handles which are open then.
inductive Session (allowed : Heap Node → UfsRequest → Prop) : Heap Node → List FileHandle → Prop
  | init : Session allowed init []
  | step : Session allowed s hs → allowed s req → serve alloc req s = .ok (r, t) → Sends hs req r hs' →
    Session allowed t hs'

-- The request is not one which would remove a file.
def Keeps (s : Heap Node) (req : UfsRequest) : Prop :=
  req.op = .REMOVE → req.id ≠ nodeRoot → ∀ v, s.get req.id = some v → v.ref = none ∨ v.child ≠ none

def openCount (hs : List FileHandle) (n : Nid) : ℕ :=
  hs.countP (·.node = n)

-- Each node is in the tree and counts its handles, and each handle has a node.
structure Life (s : Heap Node) (hs : List FileHandle) : Prop where
  repr    : ∃ kids par, Repr s kids par
  linked  : ∀ n < s.size, n = nodeRoot ∨ refOf s n ≠ none
  opens   : ∀ n v, n ≠ nodeRoot → s.get n = some v → v.opens = openCount hs n
  handles : ∀ h ∈ hs, h.node < s.size

section Handles

variable {s t : Heap Node} {hs hs' : List FileHandle} {h : FileHandle} {req : UfsRequest} {r : Reply}
variable {n : Nid} {v w : Node}

theorem Life.get (hl : Life s hs) (hn : n < s.size) : ∃ v, s.get n = some v := by
  obtain ⟨kids, par, hr⟩ := hl.repr
  obtain rfl | hn := hl.linked n hn
  · exact hr.root.imp fun _ => And.left
  · exact exists_of_refOf hn

theorem openCount_cons : openCount (h :: hs) n = openCount hs n + if h.node = n then 1 else 0 := by
  simp [openCount, List.countP_cons]

theorem openCount_erase (hh : h ∈ hs) :
    openCount hs n = openCount (hs.erase h) n + if h.node = n then 1 else 0 := by
  rw [openCount, (List.perm_cons_erase hh).countP_eq, ← openCount, openCount_cons]

-- A node changes, but stays where it is.
theorem Life.set (hl : Life s hs) (hv : s.get n = some v) (hsib : w.sibling = v.sibling)
    (hc : w.child = v.child) (hr : w.ref = v.ref) (hn : w.name = v.name)
    (hother : ∀ m, m ≠ n → openCount hs' m = openCount hs m)
    (ho : n ≠ nodeRoot → w.opens - v.opens = openCount hs' n - openCount hs n)
    (hh : ∀ h ∈ hs', h.node < s.size) : Life (s.set n w) hs' := by
  have hsame := same_set hv hsib hc hr hn
  obtain ⟨kids, par, hrepr⟩ := hl.repr
  refine ⟨⟨kids, par, hrepr.same hsame⟩, fun m hm => ?_, fun m x hm hx => ?_, fun h hm => ?_⟩
  · rw [hsame.refOf]
    exact hl.linked m (by simpa using hm)
  · rw [Heap.get_set hv] at hx
    by_cases hmn : m = n
    case pos =>
      subst hmn
      rw [if_pos rfl, Option.some_inj] at hx
      have := hl.opens m v hm hv
      have := ho hm
      subst hx
      omega
    case neg =>
      rw [if_neg hmn] at hx
      rw [hother m hmn]
      exact hl.opens m x hm hx
  · rw [Heap.size_set]
    exact hh h hm

theorem Life.root (hl : Life s hs) : Life s (⟨nodeRoot, b⟩ :: hs) := by
  refine ⟨hl.repr, hl.linked, fun n v hn hv => ?_, fun h hh => ?_⟩
  · rw [openCount_cons, if_neg hn.symm, Nat.add_zero]
    exact hl.opens n v hn hv
  · obtain rfl | hh := List.mem_cons.mp hh
    · obtain ⟨kids, par, hr⟩ := hl.repr
      exact hr.root.elim fun _ hv => Heap.lt_size hv.1
    · exact hl.handles h hh

theorem Life.opened (hl : Life s hs) (hv : s.get n = some v) :
    Life (s.set n { v with opens := v.opens + 1 }) (⟨n, b⟩ :: hs) := by
  refine hl.set hv rfl rfl rfl rfl (fun m hm => ?_) (fun _ => ?_) fun h hh => ?_
  · rw [openCount_cons, if_neg hm.symm, Nat.add_zero]
  · rw [openCount_cons, if_pos rfl]
    simp only
    omega
  · obtain rfl | hh := List.mem_cons.mp hh
    · exact Heap.lt_size hv
    · exact hl.handles h hh

theorem Life.closed (hl : Life s hs) (hh : h ∈ hs) (hv : s.get h.node = some v) :
    Life (s.set h.node { v with opens := v.opens - 1 }) (hs.erase h) := by
  refine hl.set hv rfl rfl rfl rfl (fun m hm => ?_) (fun _ => ?_) fun h' hh' => ?_
  · rw [openCount_erase hh, if_neg hm.symm, Nat.add_zero]
  · rw [openCount_erase hh, if_pos rfl]
    simp only
    omega
  · exact hl.handles h' (List.mem_of_mem_erase hh')

theorem openCount_eq_zero (hn : ∀ h ∈ hs, h.node ≠ n) : openCount hs n = 0 := by
  simpa [openCount, List.countP_eq_zero] using hn

-- A new node has no handles yet.
theorem Life.create {p : Nid} {name : List UInt8} {directory : Bool} (hl : Life s hs) (hv : s.get p = some v)
    (hp : p = nodeRoot ∨ refOf s p ≠ none) (hr : Repr s kids par) (hn : find s name (kids p) = none)
    (ht : Created s p v name directory t) : Life t hs := by
  have hc (c : Nid) (hc : v.child = some c) : c ∈ kids p := by
    have := hr.chain p
    rw [first, hv, Option.bind_some, hc] at this
    exact this.head_mem
  refine ⟨⟨_, _, hr.create hv ht hn hp⟩, fun n hns => ?_, fun n w hroot hw => ?_, fun h hh => ?_⟩
  · rw [ht.size] at hns
    rw [ht.refOf_eq hv fun c hcc => ⟨hr.above p c (hc c hcc), hr.get (hc c hcc)⟩]
    by_cases hs : n = s.size
    case pos => exact .inr (by rw [if_pos hs]; exact Option.some_ne_none _)
    case neg =>
      refine (hl.linked n (by omega)).imp_right fun href => ?_
      rw [if_neg hs]
      split
      · exact Option.some_ne_none _
      · exact href
  · rw [ht.get] at hw
    by_cases hnp : n = p
    case pos =>
      rw [if_pos hnp, Option.some_inj] at hw
      rw [← hw]
      exact hl.opens n v hroot (hnp ▸ hv)
    case neg =>
      by_cases hns : n = s.size
      case pos =>
        rw [if_neg hnp, if_pos hns, Option.some_inj] at hw
        rw [← hw, openCount_eq_zero fun h hh => ((hl.handles h hh).trans_eq hns.symm).ne]
        rfl
      case neg =>
        rw [if_neg hnp, if_neg hns] at hw
        by_cases hcn : v.child = some n
        case pos =>
          rw [if_pos hcn] at hw
          obtain ⟨x, hx, rfl⟩ := Option.map_eq_some_iff.mp hw
          exact hl.opens n x hroot hx
        case neg => exact hl.opens n w hroot (by rwa [if_neg hcn] at hw)
  · rw [ht.size]
    exact (hl.handles h hh).trans (Nat.lt_succ_self _)

-- Only the assertions of `fs_normslice` fail.
def Asserted (e : Fault) : Prop :=
  ∃ site, e = .assert site

theorem dirNames_spec {o : Option Nid} {l : List Nid} {fuel : ℕ} (hc : Chain (next s) o l)
    (hl : ∀ n ∈ l, ∃ v, s.get n = some v) (hf : l.length ≤ fuel) :
    wp (dirNames fuel o) (fun _ t => t = s) Asserted s := by
  induction hc generalizing fuel
  case nil => cases fuel <;> exact wp_pure.mpr rfl
  case cons n l _ hi =>
    obtain ⟨fuel, rfl⟩ : ∃ m, fuel = m + 1 := ⟨fuel - 1, by simp at hf; omega⟩
    obtain ⟨v, hv⟩ := hl n (List.mem_cons_self ..)
    have hnext : next s n = v.sibling := by rw [next, hv, Option.bind_some]
    simp only [dirNames, wp_bind, wp_getNode, hv, Option.elim_some, ← hnext]
    have hrest := hi (fun m hm => hl m (List.mem_cons_of_mem _ hm)) (Nat.le_of_succ_le_succ hf)
    exact wp_post hrest fun _ _ ht => wp_pure.mpr ht

theorem Life.nodeList (hl : Life s hs) (hv : s.get n = some v) :
    wp (nodeList v) (fun _ t => t = s) Asserted s := by
  obtain ⟨kids, par, hr⟩ := hl.repr
  simp only [Tmpfs.nodeList, wp_bind, wp_get]
  have hfirst : first s n = v.child := by rw [first, hv, Option.bind_some]
  have hnames := dirNames_spec (hfirst ▸ hr.chain n) (fun m hm => hr.get hm) hr.length_le
  exact wp_post hnames fun _ _ ht => wp_pure.mpr ht

theorem fsNormslice_spec {offset : Int} {length max : ℕ} {expand : Bool} :
    wp (fsNormslice offset length max expand) (fun _ t => t = s) Asserted s := by
  simp only [fsNormslice, wp_bind, wp_tassert, wp_pure]
  exact ⟨fun _ => ⟨fun _ => ⟨fun _ => trivial, fun _ => ⟨_, rfl⟩⟩, fun _ => ⟨_, rfl⟩⟩, fun _ => ⟨_, rfl⟩⟩

theorem Permitted.get (hp : Permitted hs req) (hl : Life s hs) (ho : req.op ≠ .OPEN) :
    ∃ v, s.get req.id = some v := by
  obtain ⟨r, hs', hsend⟩ := hp
  cases hsend
  case opened n ho'        => contradiction
  case failed ho'          => contradiction
  case used h hh hn _      => exact hl.get (hn ▸ hl.handles h hh)
  case removed hh _        => exact hl.get (hl.handles _ hh)
  case closed h hh hn _    => exact hl.get (hn ▸ hl.handles h hh)

-- The handles after each request.

theorem Sends.of_open {o : Option Nid} (h : Sends hs req (.opened o) hs') (ho : req.op = .OPEN) :
    hs' = o.elim hs fun n => ⟨n, false⟩ :: hs := by
  cases h <;> simp_all

theorem Sends.of_use (h : Sends hs req r hs') (ho : req.op = .READ ∨ req.op = .WRITE ∨ req.op = .GETSIZE) :
    hs' = hs := by
  cases h <;> simp_all

theorem Sends.of_remove (h : Sends hs req r hs') (ho : req.op = .REMOVE) :
    ⟨req.id, false⟩ ∈ hs ∧ hs' = ⟨req.id, true⟩ :: hs.erase ⟨req.id, false⟩ := by
  cases h <;> simp_all

theorem Sends.of_close (h : Sends hs req r hs') (ho : req.op = .CLOSE) :
    ∃ h ∈ hs, h.node = req.id ∧ hs' = hs.erase h := by
  cases h
  case closed h hh hn _ => exact ⟨h, hh, hn, rfl⟩
  all_goals simp_all

theorem Life.open (hl : Life s hs) (ho : req.op = .OPEN) :
    wp (tmpfsOpen alloc req.buf req.flags) (fun r t => ∀ hs', Sends hs req (.opened r) hs' → Life t hs')
      Asserted s := by
  obtain ⟨kids, par, hr⟩ := hl.repr
  refine wp_mono (tmpfsOpen_spec _ _ _ hr) (fun r t ht hs' hsend => ?_) fun _ => False.elim
  obtain rfl := hsend.of_open ho
  obtain ⟨rfl, -, rfl⟩ | ht := ht
  · exact hl.root
  generalize walkPath s kids req.buf = o at ht
  cases ht
  case found v n hv => exact hl.opened hv
  case created v p name directory u w hf hv hp hn ht hw => exact (hl.create hv hp hr hn ht).opened hw
  case failed => exact hl

-- A handle's node stays the same when a request to remove it was sent.
theorem Life.removed (hl : Life s hs) (hh : ⟨n, false⟩ ∈ hs) : Life s (⟨n, true⟩ :: hs.erase ⟨n, false⟩) := by
  refine ⟨hl.repr, hl.linked, fun m v hm hv => ?_, fun h' hh' => ?_⟩
  · rw [openCount_cons, ← openCount_erase (h := ⟨n, false⟩) hh]
    exact hl.opens m v hm hv
  · obtain rfl | hh' := List.mem_cons.mp hh'
    · exact hl.handles ⟨n, false⟩ hh
    · exact hl.handles h' (List.mem_of_mem_erase hh')

theorem Life.write {f : Node → Node} (hl : Life s hs) (hv : s.get n = some v) (hsib : (f v).sibling = v.sibling)
    (hc : (f v).child = v.child) (hr : (f v).ref = v.ref) (hn : (f v).name = v.name)
    (ho : (f v).opens = v.opens) : Life (s.set n (f v)) hs :=
  hl.set hv hsib hc hr hn (fun _ _ => rfl) (fun _ => by rw [ho]; omega) hl.handles

theorem nodeRemove_keeps (hv : s.get n = some v)
    (hk : n ≠ nodeRoot → v.ref = none ∨ v.child ≠ none) :
    wp (nodeRemove n) (fun _ t => t = s) Asserted s := by
  simp only [nodeRemove, wp_ite, wp_bind, wp_getNode, hv, Option.elim_some]
  refine ⟨fun _ => wp_pure.mpr rfl, fun hroot => ?_⟩
  cases hr : v.ref
  case none      => exact wp_pure.mpr rfl
  case some link =>
    have hc := (hk hroot).resolve_left (by rw [hr]; exact Option.some_ne_none _)
    exact wp_ite.mpr ⟨fun _ => wp_pure.mpr rfl, fun hn => absurd hc hn⟩

theorem Life.close (hl : Life s hs) (hv : s.get n = some v) :
    wp (nodeClose n) (fun _ t => ∀ h ∈ hs, h.node = n → Life t (hs.erase h)) Asserted s := by
  obtain ⟨w, hw⟩ : ∃ w : Node, w = { v with opens := v.opens - 1 } := ⟨_, rfl⟩
  have hn : (s.set n w).get n = some w := Heap.get_set_self hv
  simp only [nodeClose, wp_bind, wp_updNode, hv, Option.elim_some, ← hw, wp_getNode, hn, wp_ite, wp_modify,
    wp_pure]
  refine ⟨fun hx => ?_, fun _ h hh hnode => ?_⟩
  · obtain ⟨hr, hroot, _⟩ := hx
    -- The node is still in the tree, so it is not freed.
    refine absurd ((hl.linked n (Heap.lt_size hv)).resolve_left hroot) (not_not.mpr ?_)
    rw [refOf, hv, Option.bind_some, ← hr, hw]
  · subst hnode
    rw [hw]
    exact hl.closed hh hv

theorem Life.serve (hl : Life s hs) (hp : Permitted hs req) (hk : Keeps s req) :
    wp (serve alloc req) (fun r t => ∀ hs', Sends hs req r hs' → Life t hs') Asserted s := by
  rw [Tmpfs.serve]
  have hget := hp.get hl
  -- What neither opens nor closes a handle and changes no node.
  have huse (hu : req.op = .READ ∨ req.op = .WRITE ∨ req.op = .GETSIZE) (r : Reply) (t : Heap Node)
      (ht : t = s) (hs' : List FileHandle) (hsend : Sends hs req r hs') : Life t hs' := by
    rw [ht, hsend.of_use hu]
    exact hl
  match ho : req.op with
  | .OPEN    => exact wp_bind.mpr (wp_post (hl.open ho) fun _ _ ht => wp_pure.mpr ht)
  | .READ    =>
    obtain ⟨v, hv⟩ := hget (by rw [ho]; decide)
    simp only [nodeRead, wp_bind, wp_getNode, hv, Option.elim_some, wp_ite]
    refine ⟨fun _ => wp_post (hl.nodeList hv) (huse (.inl ho)), fun _ => ?_⟩
    exact wp_post fsNormslice_spec fun _ t ht => wp_pure.mpr (huse (.inl ho) _ t ht)
  | .WRITE   =>
    obtain ⟨v, hv⟩ := hget (by rw [ho]; decide)
    simp only [nodeWrite, wp_bind, wp_getNode, hv, Option.elim_some, wp_ite]
    refine ⟨fun _ => wp_pure.mpr (huse (.inr (.inl ho)) _ s rfl), fun _ => ?_⟩
    refine wp_post fsNormslice_spec fun r t ht => ?_
    simp only [wp_bind, wp_updNode, ht, hv, Option.elim_some, wp_pure]
    intro hs' hsend
    rw [hsend.of_use (.inr (.inl ho))]
    exact hl.write hv rfl rfl rfl rfl rfl
  | .GETSIZE =>
    obtain ⟨v, hv⟩ := hget (by rw [ho]; decide)
    simp only [nodeGetsize, wp_bind, wp_getNode, hv, Option.elim_some, wp_ite]
    refine ⟨fun _ => wp_post (hl.nodeList hv) (huse (.inr (.inr ho))), fun _ => ?_⟩
    exact wp_pure.mpr (huse (.inr (.inr ho)) _ s rfl)
  | .REMOVE  =>
    obtain ⟨v, hv⟩ := hget (by rw [ho]; decide)
    refine wp_bind.mpr (wp_post (nodeRemove_keeps hv fun hroot => hk ho hroot v hv) fun r t ht => wp_pure.mpr ?_)
    intro hs' hsend
    obtain ⟨hh, rfl⟩ := hsend.of_remove ho
    rw [ht]
    exact hl.removed hh
  | .CLOSE   =>
    obtain ⟨v, hv⟩ := hget (by rw [ho]; decide)
    refine wp_bind.mpr (wp_post (hl.close hv) fun _ t ht => wp_pure.mpr ?_)
    intro hs' hsend
    obtain ⟨h, hh, hn, rfl⟩ := hsend.of_close ho
    exact ht h hh hn

theorem life_init : Life init [] := by
  refine ⟨⟨_, _, repr_init⟩, fun n hn => .inl (Nat.lt_one_iff.mp hn), fun n v hn hv => ?_, by simp⟩
  have hlt := Heap.lt_size hv
  exact absurd (Nat.lt_one_iff.mp hlt) hn

-- As long as no file is removed, the number of handles of each node is known, all nodes are kept, and no
-- request uses a node that is not there.
theorem session_opens (h : Session Keeps s hs) :
    (∀ n v, n ≠ nodeRoot → s.get n = some v → v.opens = openCount hs n) ∧
      (∀ n < s.size, ∃ v, s.get n = some v) ∧
      ∀ alloc req, Permitted hs req → Keeps s req → ∀ obj, serve alloc req s ≠ .error (.useAfterFree obj) := by
  have hl : Life s hs := by
    induction h
    case init => exact life_init
    case step s hs req alloc r t hs' _ hk hr hsend hi =>
      exact wp_of_ok hr (hi.serve ⟨r, hs', hsend⟩ hk) hs' hsend
  refine ⟨hl.opens, fun n => hl.get, fun alloc req hp hk obj herr => ?_⟩
  obtain ⟨site, hsite⟩ := wp_of_error herr (hl.serve hp hk)
  contradiction

-- A file is created and opened.
theorem session_opens_file : ∃ s v, Session Keeps s [⟨1, false⟩] ∧ s.get 1 = some v ∧
    v.opens = (openCount [⟨1, false⟩] 1 : ℕ) := by
  have h₀ : Session Keeps init [] := .init
  have h₁ := @Session.step _ _ _ ⟨.OPEN, 0, [slash, 97], 0, 0, OPEN_RW ||| OPEN_CREATE⟩ file _ _ _ h₀
    (fun h => nomatch h) rfl (.opened rfl)
  exact ⟨_, _, h₁, rfl, (session_opens h₁).1 1 _ (by decide) rfl⟩

-- The only handle of a file is used to remove the file, which frees it. Then the handle is closed.
theorem close_removed : ∃ s hs req, Session (fun _ _ => True) s hs ∧ Permitted hs req ∧
    serve file req s = .error (.useAfterFree .node) := by
  have h₀ : Session (fun _ _ => True) init [] := .init
  have h₁ := @Session.step _ _ _ ⟨.OPEN, 0, [slash, 97], 0, 0, OPEN_RW ||| OPEN_CREATE⟩ file _ _ _ h₀ trivial rfl
    (.opened rfl)
  have h₂ := @Session.step _ _ _ ⟨.REMOVE, 1, [], 0, 0, 0⟩ file _ _ _ h₁ trivial rfl
    (.removed (List.mem_cons_self ..) rfl)
  exact ⟨_, _, ⟨.CLOSE, 1, [], 0, 0, 0⟩, h₂, ⟨.ret 0, _, .closed (List.mem_cons_self ..) rfl rfl⟩, rfl⟩

end Handles
end Camellia.Tmpfs
