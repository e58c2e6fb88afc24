import Camellia.Kernel.Mount
import Camellia.Libc.Whitelist

namespace Camellia

open Paths

variable {s : State} {E : Fault → Prop} {top : Option Mid} {later : List Mid} {w : Mid}
variable {path : List UInt8}

-- A path whose components are all names, with at most a trailing slash behind them.
def Plain (path : List UInt8) : Prop :=
  ∃ dir d, IsNormal dir d ∧ path = render dir ++ trail d

-- What the whitelist lets through: the path is plain, so that the driver's own call of `_sys_open`
-- does not change it again, and the first entry that covers it permits the flags.
structure Permitted (whitelist : List (List UInt8)) (path : List UInt8) (flags : Flags) : Prop where
  plain : Plain path
  fixed : simplify path = some path
  entry : ∃ entry, FirstEntry whitelist entry path ∧
    ((suffixParse entry).snd = true → flags.has OPEN_WRITE = false ∧ flags.has OPEN_CREATE = false)

theorem whitelistAccept_permitted {whitelist : List (List UInt8)} {p path' : List UInt8}
    {flags flags' : Flags} (hp : simplify path = some p) (hlen : p.length ≤ PATH_MAX)
    (hi : openInvalid flags = false)
    (h : whitelistAccept whitelist p flags = .forward path' flags') :
    path' = p ∧ flags' = flags ∧ Permitted whitelist path' flags' := by
  have hbuf : p.take whitelistBuflen = p := by
    refine List.take_of_length_le ?_
    simp only [PATH_MAX, whitelistBuflen] at hlen ⊢
    omega
  rw [whitelistAccept, hbuf] at h
  obtain ⟨rfl, rfl, entry, he, hro⟩ := whitelistOpen_forward h
  refine ⟨rfl, rfl, simplify_normal hp, simplify_idem hp, entry, he, fun hr => ⟨hro hr, ?_⟩⟩
  simpa [openInvalid, hro hr] using hi

-- The request of a sandboxed process fails, goes to a mount which is newer than the whitelist, or
-- goes to the whitelist with the simplified path. In the last case nothing is opened outside of the
-- sandbox but what the whitelist permits.
theorem sysOpenRequest_confined {v : VfsMount} (whitelist : List (List UInt8))
    (path : List UInt8) (flags : Flags) (hmounts : MountPath s w top later)
    (hlater : ∀ m ∈ later, ∀ u, s.mounts.get m = some u → u.path ≠ [])
    (hw : s.mounts.get w = some v) (hempty : v.path = []) :
    ∃ r, sysOpenRequest top (some path) flags s = .ok (r, s) ∧
      match r with
      | .inl _      => True
      | .inr (m, p) => m ∈ later ∨ m = w ∧ simplify path = some p ∧
        ∀ path' flags', openInvalid flags = false →
          whitelistAccept whitelist p flags = .forward path' flags' →
          path' = p ∧ flags' = flags ∧ Permitted whitelist path' flags' := by
  have hnot : w ∉ later := fun hm => hlater w hm v hw hempty
  suffices h : wp (sysOpenRequest top (some path) flags) (fun r t => t = s ∧ match r with
      | .inl _      => True
      | .inr (m, p) => m ∈ later ∨ m = w ∧ simplify path = some p ∧
        ∀ path' flags', openInvalid flags = false →
          whitelistAccept whitelist p flags = .forward path' flags' →
          path' = p ∧ flags' = flags ∧ Permitted whitelist path' flags') (fun _ => False) s by
    obtain ⟨r, _, hr, ht, h⟩ := wp_false_iff.mp h
    exact ⟨r, ht ▸ hr, h⟩
  simp only [sysOpenRequest, wp_ite, wp_pure, wp_bind, and_true, implies_true, true_and]
  intro _ hlen
  refine wp_post pathBufSimplify_spec ?_
  rintro p t ⟨rfl, hp⟩
  simp only [wp_ite, wp_pure, wp_bind, wp_get, and_true, implies_true, true_and]
  intro hne
  replace hp : simplify path = some p := by
    cases hs : simplify path <;> simp_all
  have hmatch : vfsMountMatches v.path p = true :=
    hempty ▸ vfsMountMatches_nil (simplify_slash hp)
  have hfuel := Nat.lt_succ_of_lt (hmounts.length_lt hnot hw)
  refine wp_post (vfsMountResolve_spec hmounts hw hmatch hfuel) ?_
  rintro r t ⟨rfl, m, rfl, hm⟩
  cases hm
  case inl hm =>
    obtain ⟨u, hu⟩ := hmounts.get hm
    simp [hu, hm]
  case inr hm =>
    subst hm
    have hlen' : p.length ≤ PATH_MAX := (simplify_length_le hp).trans (not_lt.mp hlen)
    simp only [wp_bind, wp_getMount, hw, Option.elim_some, wp_pure, hempty, pathBufStrip,
      List.length_nil, lt_irrefl, if_false, true_and]
    exact .inr ⟨hp, fun _ _ => whitelistAccept_permitted hp hlen'⟩

-- A whitelist over the root, and below it `/tmp` which the process mounted itself.
def sandbox : State where
  mounts := ⟨[
    some { prev := none, path := [], backend := some 0, refs := 1 },
    some { prev := some 0, path := [], backend := some 1, refs := 1 },
    some { prev := some 1, path := [47, 116, 109, 112], backend := some 2, refs := 1 }]⟩

-- The whitelist is `/a/:ro`, and the process opens `/a/./b` in order to read it.
theorem sysOpenRequest_confined_readonly :
    sysOpenRequest (some 2) (some [47, 97, 47, 46, 47, 98]) OPEN_READ sandbox =
      .ok (.inr (1, [47, 97, 47, 98]), sandbox) ∧
    whitelistAccept [[47, 97, 47, 58, 114, 111]] [47, 97, 47, 98] OPEN_READ =
      .forward [47, 97, 47, 98] OPEN_READ ∧
    Permitted [[47, 97, 47, 58, 114, 111]] [47, 97, 47, 98] OPEN_READ := by
  have hopen : sysOpenRequest (some 2) (some [47, 97, 47, 46, 47, 98]) OPEN_READ sandbox =
      .ok (.inr (1, [47, 97, 47, 98]), sandbox) := rfl
  have hforward : whitelistAccept [[47, 97, 47, 58, 114, 111]] [47, 97, 47, 98] OPEN_READ =
      .forward [47, 97, 47, 98] OPEN_READ := by decide
  have hmounts : MountPath sandbox 1 (some 2) [2] := ⟨rfl, _, rfl, rfl⟩
  obtain ⟨r, hr, h⟩ := sysOpenRequest_confined [[47, 97, 47, 58, 114, 111]] [47, 97, 47, 46, 47, 98]
    OPEN_READ hmounts (by simp [sandbox, Heap.get]) rfl rfl
  rw [hopen] at hr
  cases hr
  obtain ⟨_, _, hall⟩ := h.resolve_left (by decide)
  exact ⟨hopen, hforward, (hall _ _ (by decide) hforward).2.2⟩

end Camellia
