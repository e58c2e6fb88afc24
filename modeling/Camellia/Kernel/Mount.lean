import Camellia.Kernel.Rules
import Camellia.Libk.PathSimplify

namespace Camellia

-- The checks of `vfs_mount_resolve`. A match on a component boundary is required, except for the
-- prefixes of the kernel which end in a slash.
def vfsMountMatches (pre path : List UInt8) : Bool :=
  pre.length ≤ path.length && path.take pre.length == pre &&
    (pre.length == path.length || path[pre.length]? == some slash ||
      (pre.length != 0 && path[pre.length - 1]? == some slash))

def vfsMountResolve (path : List UInt8) : ℕ → Option Mid → K (Option Mid)
  | _, none            => pure none
  | 0, some _          => throw .outOfFuel
  | fuel + 1, some top => do
    let v ← getMount top
    if vfsMountMatches v.path path then
      pure (some top)
    else
      vfsMountResolve path fuel v.prev

-- `path_simplify(path_buf, path_buf, len)`, where the result is empty if it returns 0.
def pathBufSimplify (path : List UInt8) : K (List UInt8) :=
  match pathSimplify (.ofList path) 0 0 path.length with
  | .ok (len, m) => pure (m.slice 0 len)
  | .error e     => throw e

-- The copy within `path_buf` by which `_sys_open` strips a prefix.
def pathBufStrip (path : List UInt8) (prefixLen : ℕ) : List UInt8 :=
  if 0 < prefixLen then
    let len := path.length - prefixLen
    (memcpy (.ofList path) 0 prefixLen len).slice 0 len
  else
    path

-- The part of `_sys_open` up to the creation of the request, for a process whose mounts start at
-- `top`. The `path` is what `pcpy_from` copied, if it copied everything. The result is the value to
-- return, or the mount that the request goes to and the path which the request has there.
def sysOpenRequest (top : Option Mid) (path : Option (List UInt8)) (flags : Flags) :
    K (Int ⊕ Mid × List UInt8) := do
  if flags.has (~~~(OPEN_RW ||| OPEN_CREATE)) then
    pure (.inl (-ENOSYS))
  else match path with
  | none      => pure (.inl (-1))
  | some path =>
    if PATH_MAX < path.length then
      pure (.inl (-1))
    else
      let path ← pathBufSimplify path
      if path = [] then
        pure (.inl (-1))
      else match ← vfsMountResolve path ((← get).mounts.size + 1) top with
      | none       => pure (.inl (-1))
      | some mount => pure (.inr (mount, pathBufStrip path (← getMount mount).path.length))

section Simplify

open Paths

variable {s : State} {E : Fault → Prop} {path : List UInt8}

theorem pathBufSimplify_spec :
    wp (pathBufSimplify path) (fun p t => t = s ∧ p = (simplify path).getD []) E s := by
  have ⟨n, m, hs, _, hres⟩ := pathSimplify_spec (m := .ofList path)
    (.inl rfl : Layout 0 0 path.length)
  simp only [pathBufSimplify, hs, wp_pure]
  rw [Mem.slice_ofList] at hres
  cases hp : simplify path
  case none =>
    simp only [hp] at hres
    simp [hres, Mem.slice]
  case some p =>
    simp only [hp] at hres
    simpa [← hres.1] using hres.2.2.2

theorem simplify_slash {p : List UInt8} (h : simplify path = some p) : p[0]? = some slash := by
  have ⟨dir, d, hn, hp⟩ := simplify_normal h
  subst hp
  cases dir
  case nil  => simp [render, trail, hn.root rfl]
  case cons => simp [render]

theorem simplify_length_le {p : List UInt8} (h : simplify path = some p) :
    p.length ≤ path.length := by
  have ⟨n, m, _, _, hres⟩ := pathSimplify_spec (m := .ofList path)
    (.inl rfl : Layout 0 0 path.length)
  rw [Mem.slice_ofList, h] at hres
  exact hres.1 ▸ hres.2.2.1

end Simplify

section Resolve

variable {s : State} {E : Fault → Prop} {top : Option Mid} {later later' : List Mid} {m w : Mid}
variable {path : List UInt8}

-- The mounts that start at `top` are `later` and then `w`, from the newest to the oldest.
def MountPath (s : State) (w : Mid) : Option Mid → List Mid → Prop
  | top, []         => top = some w
  | top, m :: later => top = some m ∧ ∃ v, s.mounts.get m = some v ∧ MountPath s w v.prev later

theorem MountPath.unique (h : MountPath s w top later) (h' : MountPath s w top later')
    (hw : w ∉ later) (hw' : w ∉ later') : later = later' := by
  induction later generalizing top later' <;> cases later'
  case nil.nil => rfl
  case nil.cons =>
    have ⟨ht, _⟩ := h'
    cases h.symm.trans ht
    simp at hw'
  case cons.nil =>
    have ⟨ht, _⟩ := h
    cases h'.symm.trans ht
    simp at hw
  case cons.cons hi _ _ =>
    have ⟨ht, v, hv, hp⟩ := h
    have ⟨ht', v', hv', hp'⟩ := h'
    cases ht.symm.trans ht'
    cases hv.symm.trans hv'
    simp only [List.mem_cons, not_or] at hw hw'
    rw [hi hp hp' hw.right hw'.right]

theorem MountPath.suffix (h : MountPath s w top (later ++ m :: later')) :
    MountPath s w (some m) (m :: later') := by
  induction later generalizing top
  case nil =>
    have ⟨_, hp⟩ := h
    exact ⟨rfl, hp⟩
  case cons hi =>
    have ⟨_, _, _, hp⟩ := h
    exact hi hp

theorem MountPath.nodup (h : MountPath s w top later) (hw : w ∉ later) : later.Nodup := by
  induction later generalizing top
  case nil => exact List.nodup_nil
  case cons m later hi =>
    have ⟨ht, v, hv, hp⟩ := h
    simp only [List.mem_cons, not_or] at hw
    refine List.nodup_cons.mpr ⟨fun hm => ?_, hi hp hw.right⟩
    have ⟨as, bs, he⟩ := List.mem_iff_append.mp hm
    have hsuf := (he ▸ hp).suffix
    have := (ht ▸ h).unique hsuf (by simp [hw]) (by simp_all)
    simp only [List.cons.injEq, true_and] at this
    have := congrArg List.length (this.symm.trans he)
    simp at this
    omega

theorem MountPath.get (h : MountPath s w top later) (hm : m ∈ later) :
    ∃ v, s.mounts.get m = some v := by
  induction later generalizing top
  case nil => simp at hm
  case cons hi =>
    have ⟨_, v, hv, hp⟩ := h
    cases hm
    case head   => exact ⟨v, hv⟩
    case tail h => exact hi hp h

theorem MountPath.length_lt {v : VfsMount} (h : MountPath s w top later) (hw : w ∉ later)
    (hv : s.mounts.get w = some v) : later.length < s.mounts.size := by
  have hsub : w :: later ⊆ List.range s.mounts.size := fun m hm => by
    refine List.mem_range.mpr ?_
    cases hm
    case head   => exact Heap.lt_size hv
    case tail h' => exact Heap.lt_size (h.get h').choose_spec
  have := (List.subperm_of_subset (List.nodup_cons.mpr ⟨hw, h.nodup hw⟩) hsub).length_le
  simpa [Nat.succ_le_iff] using this

-- The search ends at the latest at the first mount that matches.
theorem vfsMountResolve_spec {v : VfsMount} {fuel : ℕ} (h : MountPath s w top later)
    (hv : s.mounts.get w = some v) (hm : vfsMountMatches v.path path = true)
    (hfuel : later.length < fuel) :
    wp (vfsMountResolve path fuel top)
      (fun r t => t = s ∧ ∃ m, r = some m ∧ (m ∈ later ∨ m = w)) E s := by
  induction later generalizing top fuel
  case nil =>
    cases fuel
    case zero => contradiction
    case succ =>
      cases h
      simp [vfsMountResolve, hv, hm]
  case cons m later hi =>
    have ⟨ht, u, hu, hp⟩ := h
    cases fuel
    case zero => contradiction
    case succ fuel =>
      simp only [ht, vfsMountResolve, wp_bind, wp_getMount, hu, Option.elim_some, wp_ite, wp_pure]
      refine ⟨fun _ => ⟨trivial, m, rfl, .inl (by simp)⟩, fun _ => ?_⟩
      refine wp_post (hi hp (Nat.lt_of_succ_lt_succ hfuel)) ?_
      rintro r t ⟨rfl, m', hr, hm'⟩
      exact ⟨rfl, m', hr, hm'.imp_left (List.mem_cons_of_mem _)⟩

theorem vfsMountMatches_nil (h : path[0]? = some slash) : vfsMountMatches [] path = true := by
  simp [vfsMountMatches, h]

end Resolve
end Camellia
