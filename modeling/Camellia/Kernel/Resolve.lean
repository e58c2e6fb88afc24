import Camellia.Kernel.Rest
import Camellia.Kernel.Run
import Camellia.Lib.Chain

namespace Camellia

open Paths

-- The prefix is the path, or it ends where a component of the path ends.
def Covers (pre path : List UInt8) : Prop :=
  pre = path ∨ pre ++ [slash] <+: path ∨ pre.getLast? = some slash ∧ pre <+: path

instance : DecidableRel Covers :=
  fun _ _ => inferInstanceAs <| Decidable (_ ∨ _ ∨ _ ∧ _)

-- A path without its trailing slash.
def stem (path : List UInt8) : List UInt8 :=
  if path.getLast? = some slash then path.dropLast else path

-- The paths which users mount to.
def IsStem (path : List UInt8) : Prop :=
  ∃ dir, (∀ seg ∈ dir, IsName seg) ∧ path = render dir

-- What drivers are given: nothing, or a path with a leading slash in which only the last component may
-- be empty and no component is `.` or `..`.
def Delivered (path : List UInt8) : Prop :=
  path = [] ∨ ∃ rest, path = slash :: rest ∧ [] ∉ (segments rest).dropLast ∧
    ∀ seg ∈ segments rest, seg ≠ [dot] ∧ seg ≠ [dot, dot]

section Paths

variable {pre path p q seg seg' x y : List UInt8} {dir dir' : List (List UInt8)} {d : Bool}

theorem vfsMountMatches_iff : vfsMountMatches pre path = true ↔ Covers pre path := by
  have hpre : (pre.length ≤ path.length ∧ path.take pre.length = pre) ↔ pre <+: path :=
    ⟨fun h => List.prefix_iff_eq_take.mpr h.2.symm, fun h => ⟨h.length_le, (List.prefix_iff_eq_take.mp h).symm⟩⟩
  simp only [vfsMountMatches, Bool.and_eq_true, Bool.or_eq_true, decide_eq_true_eq, beq_iff_eq, bne_iff_ne, hpre]
  by_cases hp : pre <+: path
  case neg =>
    refine iff_of_false (fun h => hp h.1) ?_
    rintro (rfl | h | ⟨-, h⟩)
    · exact hp (List.prefix_refl _)
    · exact hp ((List.prefix_append _ _).trans h)
    · exact hp h
  case pos =>
    obtain ⟨x, rfl⟩ := hp
    have hnext : (pre ++ x)[pre.length]? = x.head? := by
      rw [List.getElem?_append_right le_rfl, Nat.sub_self, List.head?_eq_getElem?]
    have hlast (hn : pre ≠ []) : (pre ++ x)[pre.length - 1]? = pre.getLast? := by
      have := List.length_pos_iff.mpr hn
      rw [List.getElem?_append_left (by omega), List.getLast?_eq_getElem?]
    have h₁ : pre.length = (pre ++ x).length ↔ pre = pre ++ x := by simp
    have h₂ : (pre ++ x)[pre.length]? = some slash ↔ pre ++ [slash] <+: pre ++ x := by
      rw [hnext, List.prefix_append_right_inj]
      cases x <;> simp [eq_comm]
    have h₃ : pre.length ≠ 0 ∧ (pre ++ x)[pre.length - 1]? = some slash ↔
        pre.getLast? = some slash ∧ pre <+: pre ++ x := by
      by_cases hn : pre = []
      case pos => simp [hn]
      case neg => simp [hn, hlast hn]
    rw [h₁, h₂, h₃, Covers, or_assoc]
    exact and_iff_right (List.prefix_append ..)

-- A component ends at the next slash, or where the path ends.
theorem seg_eq (hs : slash ∉ seg) (hs' : slash ∉ seg') (hx : x = [] ∨ x.head? = some slash)
    (hy : y = [] ∨ y.head? = some slash) (h : seg ++ x = seg' ++ y) : seg = seg' ∧ x = y := by
  have hcut {s z : List UInt8} (hs : slash ∉ s) (hz : z = [] ∨ z.head? = some slash) :
      (s ++ z).takeWhile (· ≠ slash) = s := by
    rw [List.takeWhile_append_of_pos fun c hc => by simpa using fun heq : c = slash => hs (heq ▸ hc)]
    obtain rfl | hz := hz
    · simp
    · obtain ⟨c, z, rfl⟩ := List.exists_cons_of_ne_nil (fun hn => by simp [hn] at hz : z ≠ [])
      simp_all
  have hseg : seg = seg' := by
    rw [← hcut hs hx, h, hcut hs' hy]
  subst hseg
  exact ⟨rfl, List.append_cancel_left h⟩

theorem head?_render (hx : x = [] ∨ x.head? = some slash) :
    render dir ++ x = [] ∨ (render dir ++ x).head? = some slash := by
  cases dir
  case nil      => exact hx
  case cons s l => exact .inr rfl

theorem head?_trail : trail d = [] ∨ (trail d).head? = some slash := by
  cases d
  case false => exact .inl rfl
  case true  => exact .inr rfl

-- A directory of names which is covered by a path is one of its parents.
theorem render_prefix (hd : ∀ s ∈ dir, IsName s) (hd' : ∀ s ∈ dir', IsName s)
    (hx : x = [] ∨ x.head? = some slash) (h : render dir ++ x = render dir' ++ trail d) :
    ∃ rest, dir' = dir ++ rest ∧ x = render rest ++ trail d := by
  induction dir generalizing dir'
  case nil => exact ⟨dir', rfl, h⟩
  case cons seg dir hi =>
    have hseg := hd seg (List.mem_cons_self ..)
    have hr (s : List UInt8) (l : List (List UInt8)) : render (s :: l) = slash :: (s ++ render l) := rfl
    cases dir'
    case nil =>
      have hne : seg ≠ [] := fun hn => hseg.notDots (.inl hn)
      cases d <;> simp [hne, trail, render] at h
    case cons seg' dir' =>
      have hseg' := hd' seg' (List.mem_cons_self ..)
      rw [hr, hr, List.cons_append, List.cons_append, List.append_assoc, List.append_assoc] at h
      obtain ⟨rfl, heq⟩ := seg_eq hseg.noSlash hseg'.noSlash (head?_render hx) (head?_render head?_trail)
        (List.cons.inj h).2
      obtain ⟨rest, rfl, hx⟩ := hi (fun s hs => hd s (List.mem_cons_of_mem _ hs))
        (fun s hs => hd' s (List.mem_cons_of_mem _ hs)) heq
      exact ⟨rest, rfl, hx⟩

-- Names do not end in a slash.
theorem getLast?_render (hd : ∀ s ∈ dir, IsName s) : (render dir).getLast? ≠ some slash := by
  obtain rfl | ⟨l, s, rfl⟩ := List.eq_nil_or_concat dir
  · simp [render]
  · have hs := hd s (by simp)
    obtain ⟨c, hc⟩ : ∃ c, s.getLast? = some c :=
      Option.ne_none_iff_exists'.mp fun hn => hs.notDots (.inl (List.getLast?_eq_none_iff.mp hn))
    have hcs : c ∈ s := List.mem_of_getLast? hc
    rw [List.concat_eq_append, render_append_singleton, List.getLast?_append, List.getLast?_cons, hc]
    simp only [Option.getD_some, Option.some_or, ne_eq, Option.some_inj]
    exact fun heq => hs.noSlash (heq ▸ hcs)

theorem stem_render (hd : ∀ s ∈ dir, IsName s) : stem (render dir ++ trail d) = render dir := by
  cases d
  case false => rw [trail, if_neg Bool.false_ne_true, List.append_nil, stem, if_neg (getLast?_render hd)]
  case true  => simp [trail, stem]

theorem isStem_stem (hs : simplify path = some p) : IsStem (stem p) := by
  obtain ⟨dir, d, hn, rfl⟩ := simplify_normal hs
  exact ⟨dir, hn.names, stem_render hn.names⟩

theorem covers_render_iff (hd : ∀ s ∈ dir, IsName s) (hn : IsNormal dir' d) :
    Covers (render dir) (render dir' ++ trail d) ↔ dir <+: dir' := by
  constructor
  · rintro (h | ⟨x, h⟩ | ⟨h, -⟩)
    · obtain ⟨rest, rfl, -⟩ := render_prefix (x := []) hd hn.names (.inl rfl) (by rw [List.append_nil, h])
      exact List.prefix_append _ _
    · obtain ⟨rest, rfl, -⟩ := render_prefix (x := slash :: x) hd hn.names (.inr rfl) (by simpa using h)
      exact List.prefix_append _ _
    · exact absurd h (getLast?_render hd)
  · rintro ⟨rest, rfl⟩
    have hr : render (dir ++ rest) = render dir ++ render rest := List.flatMap_append ..
    rw [hr, List.append_assoc]
    cases rest
    case nil =>
      cases d
      case false => exact .inl (List.append_nil _).symm
      case true  => exact .inr (.inl (List.prefix_refl _))
    case cons s rest =>
      refine .inr (.inl ((List.prefix_append_right_inj _).mpr ?_))
      exact ⟨_, rfl⟩

theorem delivered_render (hd : ∀ s ∈ dir, IsName s) : Delivered (render dir ++ trail d) := by
  cases dir
  case nil =>
    cases d
    case false => exact .inl rfl
    case true  => exact .inr ⟨[], rfl, by simp [segments]⟩
  case cons seg dir =>
    refine .inr ⟨seg ++ (render dir ++ trail d), by simp [render], ?_⟩
    rw [segments_render (hd seg (List.mem_cons_self ..)).noSlash
      fun s hs => (hd s (List.mem_cons_of_mem _ hs)).noSlash]
    have hname {s : List UInt8} (hs : s ∈ seg :: dir) : s ≠ [] ∧ s ≠ [dot] ∧ s ≠ [dot, dot] := by
      have := (hd s hs).notDots
      simpa only [IsDots, not_or] using this
    cases d
    case false =>
      simp only [Bool.false_eq_true, if_false, List.append_nil]
      exact ⟨fun hn => (hname (List.dropLast_subset _ hn)).1 rfl, fun s hs => (hname hs).2⟩
    case true =>
      rw [if_pos rfl, List.dropLast_concat]
      refine ⟨fun hn => (hname hn).1 rfl, fun s hs => ?_⟩
      obtain hs | hs := List.mem_append.mp hs
      · exact (hname hs).2
      · simp [List.mem_singleton.mp hs]

end Paths

def prevMount (s : State) (m : Mid) : Option Mid :=
  (s.mounts.get m).bind VfsMount.prev

def covers (s : State) (path : List UInt8) (m : Mid) : Bool :=
  (s.mounts.get m).any fun v => Covers v.path path

-- A mount with its filesystem, and the path which `_sys_mount` was called with if it is the mount of a user.
structure Layer where
  mount   : Mid
  backend : Option Bid
  path    : Option (List UInt8)
  deriving DecidableEq

-- Only the counter of the mount may be another one.
def VfsMount.Same (v w : VfsMount) : Prop :=
  w.prev = v.prev ∧ w.path = v.path ∧ w.backend = v.backend

-- The mounts of a process, from the newest to the oldest.
structure Stacked (s : State) (top : Option Mid) (l : List Layer) : Prop where
  chain : Chain (prevMount s) top (l.map Layer.mount)
  get   : ∀ e ∈ l, ∃ v, s.mounts.get e.mount = some v ∧ v.backend = e.backend ∧
    ∀ path, e.path = some path → ∃ p, simplify path = some p ∧ v.path = stem p

section Stack

variable {s t : State} {top : Option Mid} {l : List Layer} {mounts : List Mid} {path p q : List UInt8}
variable {v : VfsMount} {fuel : ℕ} {flags : Flags}

theorem vfsMountResolve_newest (h : Chain (prevMount s) top mounts)
    (hm : ∀ m ∈ mounts, ∃ v, s.mounts.get m = some v) (hf : mounts.length ≤ fuel) :
    wp (vfsMountResolve path fuel top) (fun r t => r = mounts.find? (covers s path) ∧ t = s)
      (fun _ => False) s := by
  induction h generalizing fuel
  case nil => cases fuel <;> exact wp_pure.mpr ⟨rfl, rfl⟩
  case cons m l _ hi =>
    obtain ⟨fuel, rfl⟩ : ∃ k, fuel = k + 1 := ⟨fuel - 1, by simp at hf; omega⟩
    obtain ⟨v, hv⟩ := hm m (List.mem_cons_self ..)
    have hprev : prevMount s m = v.prev := by rw [prevMount, hv, Option.bind_some]
    have hcov : covers s path m = true ↔ vfsMountMatches v.path path = true := by
      simp [covers, hv, vfsMountMatches_iff]
    simp only [vfsMountResolve, wp_bind, wp_getMount, hv, Option.elim_some, wp_ite]
    refine ⟨fun hmatch => wp_pure.mpr ⟨?_, rfl⟩, fun hmatch => ?_⟩
    · rw [List.find?_cons_of_pos (hcov.mpr hmatch)]
    · rw [List.find?_cons_of_neg (mt hcov.mp hmatch), ← hprev]
      exact hi (fun m hm' => hm m (List.mem_cons_of_mem _ hm')) (Nat.le_of_succ_le_succ hf)

theorem Stacked.resolve (path : List UInt8) (h : Stacked s top l) :
    wp (vfsMountResolve path (s.mounts.size + 1) top)
      (fun r t => r = (l.map Layer.mount).find? (covers s path) ∧ t = s) (fun _ => False) s := by
  have hget (m : Mid) (hm : m ∈ l.map Layer.mount) : ∃ v, s.mounts.get m = some v := by
    obtain ⟨e, he, rfl⟩ := List.mem_map.mp hm
    exact (h.get e he).imp fun _ => And.left
  refine vfsMountResolve_newest h.chain hget ?_
  have hsub : l.map Layer.mount ⊆ List.range s.mounts.size := fun m hm => by
    obtain ⟨v, hv⟩ := hget m hm
    exact List.mem_range.mpr (Heap.lt_size hv)
  have := (h.chain.nodup.subperm hsub).length_le
  simp only [List.length_range] at this
  omega

theorem Stacked.congr (h : Stacked s top l) (hm : ∀ e ∈ l, ∀ v, s.mounts.get e.mount = some v →
    ∃ w, t.mounts.get e.mount = some w ∧ v.Same w) : Stacked t top l where
  chain := h.chain.congr fun m hmem => by
    obtain ⟨e, he, rfl⟩ := List.mem_map.mp hmem
    obtain ⟨v, hv, -⟩ := h.get e he
    obtain ⟨w, hw, hp, -⟩ := hm e he v hv
    rw [prevMount, prevMount, hv, hw, Option.bind_some, Option.bind_some, hp]
  get e he := by
    obtain ⟨v, hv, hback, hpath⟩ := h.get e he
    obtain ⟨w, hw, -, hp, hb⟩ := hm e he v hv
    exact ⟨w, hw, hb.trans hback, hp ▸ hpath⟩

-- A new mount is put in front of the others.
theorem Stacked.cons {w : VfsMount} {o : Option (List UInt8)} (h : Stacked s top l)
    (ht : t.mounts = s.mounts.alloc w) (hp : w.prev = top)
    (hw : ∀ path, o = some path → ∃ p, simplify path = some p ∧ w.path = stem p) :
    Stacked t (some s.mounts.size) (⟨s.mounts.size, w.backend, o⟩ :: l) := by
  have hsame : Stacked t top l := h.congr fun e he v hv =>
    ⟨v, by rw [ht, Heap.get_alloc_of_some hv], rfl, rfl, rfl⟩
  have hnew : t.mounts.get s.mounts.size = some w := by rw [ht, Heap.get_alloc_self]
  refine ⟨.cons ?_, fun e he => ?_⟩
  · rw [prevMount, hnew, Option.bind_some, hp]
    exact hsame.chain
  · obtain rfl | he := List.mem_cons.mp he
    · exact ⟨w, hnew, rfl, hw⟩
    · exact hsame.get e he

end Stack

-- The filesystem which a process mounts with a handle.
def State.front (s : State) (p : Pid) (hid : Int) : Option Bid :=
  match sysMountHandle p hid s with
  | .ok (some v, _) => v.backend
  | _               => none

section Mount

variable {s t : State} {p : Pid} {v : Proc} {l : List Layer} {e : Layer} {o : Option (List UInt8)} {hid ret : Int}

theorem sysMountHandle_spec :
    wlp (sysMountHandle p hid) (fun r t => t = s ∧ ∀ u, r = some u → s.front p hid = u.backend) s := by
  refine wlp_iff.mpr fun r t h => ⟨(wlp_of_ok h (sysMountHandle_readonly s)).symm, ?_⟩
  rintro u rfl
  rw [State.front, h]

theorem sysMountPath_spec :
    wlp (sysMountPath o) (fun r t => t = s ∧ ∀ pre, r = some pre →
      ∃ path p, o = some path ∧ simplify path = some p ∧ pre = stem p) s := by
  cases o
  case none      => exact wlp_pure.mpr ⟨rfl, fun _ h => absurd h (Option.some_ne_none _).symm⟩
  case some path =>
    rw [sysMountPath, wlp_ite]
    refine ⟨fun _ => wlp_pure.mpr ⟨rfl, fun _ h => absurd h (Option.some_ne_none _).symm⟩, fun _ => wlp_bind.mpr ?_⟩
    have hspec : wlp (pathBufSimplify path) (fun p t => t = s ∧ p = (simplify path).getD []) s := by
      rw [wlp]
      exact pathBufSimplify_spec
    refine wlp_post hspec ?_
    rintro p t ⟨rfl, rfl⟩
    rw [wlp_ite]
    refine ⟨fun _ => wlp_pure.mpr ⟨rfl, fun _ h => absurd h (Option.some_ne_none _).symm⟩, fun hne => wlp_pure.mpr ⟨rfl, fun pre hpre => ?_⟩⟩
    cases hs : simplify path
    case none   => simp [hs] at hne
    case some p =>
      rw [hs] at hpre
      exact ⟨path, p, rfl, hs, (Option.some_inj.mp hpre).symm⟩

-- The return from `_sys_mount`.
theorem sysReturn_stacked {w : Proc} {l' : List Layer} (hv : s.procs.get p = some w)
    (h : Stacked s w.mount l') (hl : l' = if ret = 0 then e :: l else l) :
    wlp (sysReturn p ret) (fun _ t => ∃ w, t.procs.get p = some w ∧
      Stacked t w.mount (if t.returned p = some 0 then e :: l else l)) s := by
  simp only [sysReturn, regsSavereturn, wlp_bind, wlp_getProc, wlp_kassert, wlp_updProc]
  intro w₁ hw₁ hrun w₂ hw₂
  obtain rfl := Option.some_inj.mp (hv.symm.trans hw₁)
  obtain rfl := Option.some_inj.mp (hv.symm.trans hw₂)
  have hget : (s.withProcs (s.procs.set p { w with rax := ret })).procs.get p = some { w with rax := ret } :=
    Heap.get_set_self hv
  have hret : (s.withProcs (s.procs.set p { w with rax := ret })).returned p = some ret := by
    rw [State.returned, hget, Option.bind_some, if_pos hrun]
  refine ⟨_, hget, ?_⟩
  rw [hret]
  simp only [Option.some_inj, ← hl]
  exact h.congr fun e _ u hu => ⟨u, hu, rfl, rfl, rfl⟩

theorem sysMountUse_frame {backend : Option Bid} :
    wlp (sysMountUse backend) (fun _ t => t.mounts = s.mounts ∧ t.procs = s.procs) s := by
  cases backend
  case none   => exact wlp_pure.mpr ⟨rfl, rfl⟩
  case some b =>
    simp only [sysMountUse, wlp_bind, wlp_getBackend, wlp_kassert, wlp_setBackend]
    exact fun _ _ _ => ⟨rfl, rfl⟩

theorem sysMount_spec (hv : s.procs.get p = some v) (h : Stacked s v.mount l) :
    wlp (sysMount p hid o) (fun _ t => ∃ w, t.procs.get p = some w ∧
      Stacked t w.mount (if t.returned p = some 0 then ⟨s.mounts.size, s.front p hid, o⟩ :: l else l)) s := by
  have hfail : wlp (sysReturn p (-1)) (fun _ t => ∃ w, t.procs.get p = some w ∧
      Stacked t w.mount (if t.returned p = some 0 then ⟨s.mounts.size, s.front p hid, o⟩ :: l else l)) s :=
    sysReturn_stacked hv h (if_neg (by decide)).symm
  refine wlp_bind.mpr (wlp_post sysMountPath_spec ?_)
  rintro r _ ⟨rfl, hpre⟩
  match r with
  | none     => exact hfail
  | some pre =>
    refine wlp_bind.mpr (wlp_post sysMountHandle_spec ?_)
    rintro r _ ⟨rfl, hfront⟩
    match r with
    | none   => exact hfail
    | some u =>
      refine wlp_bind.mpr (wlp_post sysMountUse_frame ?_)
      rintro _ t ⟨hm, hp⟩
      simp only [wlp_bind, wlp_allocBuf, wlp_getProc, wlp_allocMount, wlp_updProc]
      intro w hw w' hw'
      have hpv : t.procs.get p = some v := by rw [hp, hv]
      obtain rfl := Option.some_inj.mp (hpv.symm.trans hw)
      obtain rfl := Option.some_inj.mp (hw.symm.trans hw')
      refine sysReturn_stacked (Heap.get_set_self hw') ?_ (if_pos rfl).symm
      rw [← hm]
      have hl := h.congr (t := t) fun e _ u hu => ⟨u, by rw [hm, hu], rfl, rfl, rfl⟩
      let x : VfsMount := { prev := v.mount, path := pre, owned := some t.bufs.size, backend := u.backend, refs := 1 }
      rw [hfront u rfl]
      refine hl.cons (w := x) rfl rfl fun path ho => ?_
      obtain ⟨path', p, ho', hs, rfl⟩ := hpre pre rfl
      obtain rfl := Option.some_inj.mp (ho.symm.trans ho')
      exact ⟨p, hs, rfl⟩

end Mount

section Open

variable {s t : State} {p : Pid} {v : Proc} {l : List Layer} {e : Layer} {top : Option Mid} {path q : List UInt8}
variable {flags : Flags}

-- The mount of a driver of the kernel. The drivers are numbered in the order in which they are registered.
def kernelLayer (i : ℕ) : Layer :=
  ⟨i, some i, none⟩

theorem pathBufStrip_eq {n : ℕ} (hn : n ≤ path.length) : pathBufStrip path n = path.drop n := by
  rw [pathBufStrip]
  split
  case isFalse h => rw [Nat.eq_zero_of_not_pos h, List.drop_zero]
  case isTrue =>
    obtain ⟨len, hlen⟩ : ∃ len, path.length = n + len := ⟨path.length - n, by omega⟩
    have hslice : (Mem.ofList path).slice 0 n ++ (Mem.ofList path).slice n len = path := by
      have : (Mem.ofList path).slice 0 path.length = path := Mem.slice_ofList
      rwa [hlen, Mem.slice_add, Nat.zero_add] at this
    have hblit : ((Mem.ofList path).blit 0 n len).slice 0 len = (Mem.ofList path).slice n len :=
      Mem.slice_congr fun i hi => Mem.blit_add hi
    simp only [hlen, Nat.add_sub_cancel_left]
    rw [memcpy_eq_blit (.inl (Nat.zero_le n)), hblit]
    conv_rhs => rw [← hslice]
    rw [List.drop_left' Mem.length_slice]

-- What is left of a path below the mount of a user.
theorem delivered_strip {pre : List UInt8} (hstem : IsStem pre) (hs : simplify path = some q) (hc : Covers pre q) :
    Delivered (pathBufStrip q pre.length) := by
  obtain ⟨dir, hd, rfl⟩ := hstem
  obtain ⟨dir', d', hn', rfl⟩ := simplify_normal hs
  obtain ⟨rest, rfl⟩ := (covers_render_iff hd hn').mp hc
  have hr : render (dir ++ rest) = render dir ++ render rest := List.flatMap_append ..
  rw [pathBufStrip_eq (by simp [hr]), hr, List.append_assoc, List.drop_left' rfl]
  exact delivered_render fun s hs => hn'.names s (List.mem_append_right _ hs)

theorem vfsMountResolve_matches {fuel : ℕ} :
    wlp (vfsMountResolve path fuel top) (fun r t => t = s ∧ ∀ m, r = some m →
      ∃ u, s.mounts.get m = some u ∧ Covers u.path path) s := by
  induction fuel generalizing top
  case zero =>
    cases top
    case none   => exact wlp_pure.mpr ⟨rfl, nofun⟩
    case some m => exact wlp_throw.mpr trivial
  case succ fuel hi =>
    cases top
    case none   => exact wlp_pure.mpr ⟨rfl, nofun⟩
    case some m =>
      simp only [vfsMountResolve, wlp_bind, wlp_getMount, wlp_ite, wlp_pure]
      refine fun u hu => ⟨fun hmatch => ⟨trivial, fun m' hm => ?_⟩, fun _ => hi⟩
      obtain rfl := Option.some_inj.mp hm
      exact ⟨u, hu, vfsMountMatches_iff.mp hmatch⟩

-- The mount which a path is opened at, and the path which goes to its filesystem.
theorem sysOpenRequest_spec {o : Option (List UInt8)} :
    wlp (sysOpenRequest top o flags) (fun r t => t = s ∧ ∀ m d, r = .inr (m, d) →
      ∃ u path q, s.mounts.get m = some u ∧ simplify path = some q ∧ Covers u.path q ∧
        d = pathBufStrip q u.path.length) s := by
  have hfail {ret : Int} : wlp (pure (.inl ret) : K (Int ⊕ Mid × List UInt8)) (fun r t => t = s ∧ ∀ m d, r = .inr (m, d) →
      ∃ u path q, s.mounts.get m = some u ∧ simplify path = some q ∧ Covers u.path q ∧
        d = pathBufStrip q u.path.length) s := wlp_pure.mpr ⟨rfl, nofun⟩
  rw [sysOpenRequest.eq_def, wlp_ite]
  refine ⟨fun _ => hfail, fun _ => ?_⟩
  cases o
  case none      => exact hfail
  case some path =>
    have hspec : wlp (pathBufSimplify path) (fun p t => t = s ∧ p = (simplify path).getD []) s := by
      rw [wlp]
      exact pathBufSimplify_spec
    rw [wlp_ite]
    refine ⟨fun _ => hfail, fun _ => wlp_bind.mpr (wlp_post hspec ?_)⟩
    rintro _ _ ⟨rfl, rfl⟩
    rw [wlp_ite]
    refine ⟨fun _ => hfail, fun hne => ?_⟩
    simp only [wlp_bind, wlp_get]
    refine wlp_post vfsMountResolve_matches ?_
    rintro r _ ⟨rfl, hr⟩
    cases r
    case none   => exact hfail
    case some m =>
      obtain ⟨q, hq⟩ : ∃ q, simplify path = some q := Option.ne_none_iff_exists'.mp fun hn => hne (by rw [hn]; rfl)
      obtain ⟨u, hu, hc⟩ := hr m rfl
      simp only [wlp_bind, wlp_getMount, wlp_pure]
      intro u' hu'
      obtain rfl := Option.some_inj.mp (hu.symm.trans hu')
      refine ⟨trivial, fun m' d hm => ?_⟩
      obtain ⟨rfl, rfl⟩ := Prod.mk.inj (Sum.inr.inj hm)
      rw [hq] at hc ⊢
      exact ⟨u, path, q, hu, hq, hc, rfl⟩

-- A path which is accepted is opened at the newest mount which covers it.
theorem Stacked.request (h : Stacked s top l) (hs : simplify path = some q) (hlen : path.length ≤ PATH_MAX)
    (hf : flags.has (~~~(OPEN_RW ||| OPEN_CREATE)) = false) (he : l.find? (fun e => covers s q e.mount) = some e) :
    ∃ u, s.mounts.get e.mount = some u ∧
      sysOpenRequest top (some path) flags s = .ok (.inr (e.mount, pathBufStrip q u.path.length), s) := by
  have hne : q ≠ [] := fun hn => by simpa [hn] using simplify_slash hs
  have hfind : (l.map Layer.mount).find? (covers s q) = some e.mount := by
    rw [List.find?_map, show covers s q ∘ Layer.mount = fun e => covers s q e.mount from rfl, he, Option.map_some]
  obtain ⟨u, hu, -⟩ := h.get e (List.mem_of_find?_eq_some he)
  have : wp (sysOpenRequest top (some path) flags)
      (fun r t => r = .inr (e.mount, pathBufStrip q u.path.length) ∧ t = s) (fun _ => False) s := by
    simp only [sysOpenRequest, hf, Bool.false_eq_true, if_false, not_lt.mpr hlen, wp_bind]
    refine wp_post pathBufSimplify_spec ?_
    rintro _ _ ⟨rfl, rfl⟩
    simp only [hs, Option.getD_some, hne, if_false, wp_bind, wp_get]
    refine wp_post (h.resolve _) ?_
    rintro _ _ ⟨rfl, rfl⟩
    rw [hfind]
    simp [hu]
  obtain ⟨_, _, hr, rfl, rfl⟩ := wp_false_iff.mp this
  exact ⟨u, hu, hr⟩

end Open
end Camellia
