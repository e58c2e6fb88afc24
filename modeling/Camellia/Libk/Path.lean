import Camellia.Fault
import Camellia.Libk.Mem
import Mathlib.Data.List.Induction

namespace Camellia

def PATH_MAX : ℕ := 512

def slash : UInt8 := 47

def dot : UInt8 := 46

-- The loop over `j` of `path_simplify`: the length of the segment which starts at address `a`, with
-- `n` bytes of the path left, and whether a slash ends it.
def scanSegment (m : Mem) (a : ℕ) : ℕ → ℕ × Bool
  | 0     => (0, false)
  | n + 1 =>
    if m a = slash then
      (0, true)
    else
      let (len, directory) := scanSegment m (a + 1) n
      (len + 1, directory)

-- `while (--out_pos >= 0 && out[out_pos] != '/')`, where `none` means that `out_pos` became -1.
def backtrack (m : Mem) (out : ℕ) : ℕ → Option ℕ
  | 0     => none
  | n + 1 => if m (out + n) = slash then some n else backtrack m out n

-- The loop over `i` of `path_simplify`. Each round advances `i` by at least one, so `len` is enough
-- fuel. The result is `out_pos` and `directory`, or `none` if the path climbs above the root.
def pathSimplifyLoop (inp out len : ℕ) :
    (fuel : ℕ) → Mem → (i outPos : ℕ) → Bool → Except Fault (Option (ℕ × Bool) × Mem)
  | 0, m, _, outPos, directory => .ok (some (outPos, directory), m)
  | fuel + 1, m, i, outPos, directory =>
    if len ≤ i then
      .ok (some (outPos, directory), m)
    else if m (inp + i) ≠ slash then
      .error <| .assert .pathSimplifySlash
    else
      let (segLen, directory) := scanSegment m (inp + i + 1) (len - (i + 1))
      if segLen = 0 ∨ (segLen = 1 ∧ m (inp + i + 1) = dot) then
        pathSimplifyLoop inp out len fuel m (i + segLen + 1) outPos true
      else if segLen = 2 ∧ m (inp + i + 1) = dot ∧ m (inp + i + 2) = dot then
        match backtrack m out outPos with
        | none        => .ok (none, m)
        | some outPos => pathSimplifyLoop inp out len fuel m (i + segLen + 1) outPos true
      else
        let m := m.store (out + outPos) slash
        let m := memcpy m (out + outPos + 1) (inp + i + 1) segLen
        pathSimplifyLoop inp out len fuel m (i + segLen + 1) (outPos + segLen + 1) directory

def pathSimplify (m : Mem) (inp out len : ℕ) : Except Fault (ℕ × Mem) :=
  if len = 0 then
    .ok (0, m)
  else if m inp ≠ slash then
    .ok (0, m)
  else do
    match ← pathSimplifyLoop inp out len len m 0 0 false with
    | (none, m) => return (0, m)
    | (some (outPos, directory), m) =>
      let (outPos, m) := if directory then (outPos + 1, m.store (out + outPos) slash) else (outPos, m)
      if 0 < outPos ∧ outPos ≤ len then
        return (outPos, m)
      else
        throw <| .assert .pathSimplifyLength

namespace Paths

-- The segments of the part of a path behind its first slash.
def segments : List UInt8 → List (List UInt8)
  | []      => [[]]
  | c :: cs =>
    if c = slash then
      [] :: segments cs
    else
      match segments cs with
      | []      => [[c]]
      | s :: ss => (c :: s) :: ss

-- A segment that names no file of its own.
def IsDots (seg : List UInt8) : Prop :=
  seg = [] ∨ seg = [dot] ∨ seg = [dot, dot]

instance : DecidablePred IsDots :=
  fun seg => inferInstanceAs <| Decidable (seg = [] ∨ seg = [dot] ∨ seg = [dot, dot])

-- Walks from the directory `dir` along one segment, where `none` means that this climbs above the
-- root.
def walk (dir : List (List UInt8)) (seg : List UInt8) : Option (List (List UInt8)) :=
  if seg = [] ∨ seg = [dot] then
    some dir
  else if seg = [dot, dot] then
    if dir = [] then none else some dir.dropLast
  else
    some (dir ++ [seg])

def render (dir : List (List UInt8)) : List UInt8 :=
  dir.flatMap (slash :: ·)

-- What a trailing slash adds to the rendered path.
def trail (directory : Bool) : List UInt8 :=
  if directory then [slash] else []

def isDirectory (segs : List (List UInt8)) : Bool :=
  (segs.getLast?.map (decide <| IsDots ·)).getD false

-- The abstract meaning of `path_simplify` on a path without its first slash.
def normalize (path : List UInt8) : Option (List UInt8) :=
  ((segments path).foldlM walk []).map (render · ++ trail (isDirectory <| segments path))

-- The abstract meaning of `path_simplify`.
def simplify : List UInt8 → Option (List UInt8)
  | []        => none
  | c :: path => if c = slash then normalize path else none

-- Some `..` of the path climbs above the root, because the segments in front of it lead to the root.
def Climbs (path : List UInt8) : Prop :=
  ∃ pre post, segments path.tail = pre ++ [dot, dot] :: post ∧ pre.foldlM walk [] = some []

-- The path with the given surviving segments, with a slash behind them if `directory` is set.
def written (dir : List (List UInt8)) (directory : Bool) : List UInt8 :=
  slash :: [slash].intercalate dir ++ if directory ∧ dir ≠ [] then [slash] else []

section Segments

variable {c : UInt8} {seg path : List UInt8} {segs dir dir' : List (List UInt8)}

theorem segments_of_not_mem (h : slash ∉ seg) : segments seg = [seg] := by
  induction seg
  case nil => rfl
  case cons c cs hi =>
    simp only [List.mem_cons, not_or] at h
    simp [segments, Ne.symm h.left, hi h.right]

theorem segments_append (h : slash ∉ seg) : segments (seg ++ slash :: path) = seg :: segments path := by
  induction seg
  case nil => simp [segments]
  case cons c cs hi =>
    simp only [List.mem_cons, not_or] at h
    simp [segments, Ne.symm h.left, hi h.right]

theorem segments_ne_nil : segments path ≠ [] := by
  cases path <;> simp only [segments]
  case nil => simp
  case cons =>
    split
    · simp
    · split <;> simp

theorem isDirectory_singleton : isDirectory [seg] = decide (IsDots seg) := by
  simp [isDirectory]

theorem isDirectory_cons (h : segs ≠ []) : isDirectory (seg :: segs) = isDirectory segs := by
  simp [isDirectory, List.getLast?_cons, List.getLast?_eq_some_getLast h]

theorem render_append_singleton : render (dir ++ [seg]) = render dir ++ slash :: seg := by
  simp [render]

theorem render_eq_nil : render dir = [] ↔ dir = [] := by
  cases dir <;> simp [render]

theorem walk_dots (h : seg = [] ∨ seg = [dot]) : walk dir seg = some dir := by
  simp [walk, h]

theorem walk_up : walk (dir ++ [seg]) [dot, dot] = some dir := by
  simp [walk]

theorem walk_up_root : walk [] [dot, dot] = none := by
  simp [walk]

theorem walk_name (h : ¬IsDots seg) : walk dir seg = some (dir ++ [seg]) := by
  simp only [IsDots, not_or] at h
  simp [walk, h]

end Segments

-- A segment that names a file or a directory.
structure IsName (seg : List UInt8) : Prop where
  notDots : ¬IsDots seg
  noSlash : slash ∉ seg

-- The normal form of paths: the segments `dir` are names, and the trailing slash is there if it is
-- the only slash.
structure IsNormal (dir : List (List UInt8)) (directory : Bool) : Prop where
  names : ∀ seg ∈ dir, IsName seg
  root  : dir = [] → directory = true

section Normal

variable {path p : List UInt8} {seg : List UInt8} {segs dir dir' : List (List UInt8)} {d : Bool}

theorem mem_segments_no_slash (h : seg ∈ segments path) : slash ∉ seg := by
  induction path generalizing seg
  case nil => simp_all [segments]
  case cons c cs hi =>
    simp only [segments] at h
    split at h
    case isTrue =>
      cases h
      case head   => simp
      case tail h => exact hi h
    case isFalse hc =>
      split at h
      case h_1 => simp_all [Ne.symm hc]
      case h_2 s ss heq =>
        cases h
        case head   => simpa [Ne.symm hc] using hi (by simp [heq])
        case tail h => exact hi (heq ▸ List.mem_cons_of_mem s h)

theorem walk_names (hs : slash ∉ seg) (hd : ∀ s ∈ dir, IsName s) (h : walk dir seg = some dir') :
    ∀ s ∈ dir', IsName s := by
  simp only [walk] at h
  split at h <;> try split at h <;> try split at h
  case isTrue => simp_all
  case isFalse.isTrue.isTrue => simp at h
  case isFalse.isTrue.isFalse =>
    cases h
    exact fun s hm => hd s (List.dropLast_subset _ hm)
  case isFalse.isFalse h₁ h₂ =>
    cases h
    intro s hm
    simp only [List.mem_append, List.mem_singleton] at hm
    refine hm.elim (hd s) fun he => he ▸ ⟨?_, hs⟩
    simpa [IsDots, not_or, and_assoc] using And.intro h₁ h₂

theorem foldlM_walk_names (hs : ∀ seg ∈ segs, slash ∉ seg) (hd : ∀ s ∈ dir, IsName s)
    (h : segs.foldlM walk dir = some dir') : ∀ s ∈ dir', IsName s := by
  induction segs generalizing dir
  case nil => simp_all
  case cons seg segs hi =>
    simp only [List.foldlM_cons, Option.bind_eq_bind, Option.bind_eq_some_iff] at h
    have ⟨mid, hw, hf⟩ := h
    exact hi (fun s hm => hs s (by simp [hm])) (walk_names (hs seg (by simp)) hd hw) hf

-- If the last segment is a name, then the walk ends below the root.
theorem foldlM_walk_ne_nil (hs : segs ≠ []) (hd : isDirectory segs = false)
    (h : segs.foldlM walk dir = some dir') : dir' ≠ [] := by
  induction segs generalizing dir
  case nil => contradiction
  case cons seg segs hi =>
    simp only [List.foldlM_cons, Option.bind_eq_bind, Option.bind_eq_some_iff] at h
    have ⟨mid, hw, hf⟩ := h
    by_cases hn : segs = []
    case pos =>
      subst hn
      simp only [List.foldlM_nil, Option.pure_def, Option.some.injEq] at hf
      simp only [isDirectory_singleton, decide_eq_false_iff_not] at hd
      rw [walk_name hd, Option.some.injEq, hf] at hw
      simp [← hw]
    case neg => exact hi hn (by rwa [isDirectory_cons hn] at hd) hf

theorem simplify_normal (h : simplify path = some p) :
    ∃ dir d, IsNormal dir d ∧ p = render dir ++ trail d := by
  match path with
  | []      => simp [simplify] at h
  | c :: cs =>
    simp only [simplify] at h
    split at h
    case isFalse => simp at h
    case isTrue =>
      simp only [normalize, Option.map_eq_some_iff] at h
      have ⟨dir, hf, hp⟩ := h
      refine ⟨dir, _, ⟨?_, fun hn => ?_⟩, hp.symm⟩
      · exact foldlM_walk_names (fun _ hm => mem_segments_no_slash hm) (by simp) hf
      · by_contra hd
        exact foldlM_walk_ne_nil segments_ne_nil (Bool.eq_false_iff.mpr hd) hf hn

-- The segments of a path in normal form.
theorem segments_render (hs : slash ∉ seg) (hd : ∀ s ∈ dir, slash ∉ s) :
    segments (seg ++ (render dir ++ trail d)) = seg :: dir ++ if d then [[]] else [] := by
  induction dir generalizing seg
  case nil =>
    cases d <;> simp only [render, trail, List.flatMap_nil, List.nil_append]
    case false => simpa using segments_of_not_mem hs
    case true  => simpa [segments] using @segments_append seg [] hs
  case cons s ss hi =>
    have : render (s :: ss) = slash :: (s ++ render ss) := rfl
    rw [this, List.cons_append, List.append_assoc, segments_append hs,
      hi (hd s (by simp)) (fun s hm => hd s (by simp [hm]))]
    simp

theorem foldlM_walk_of_names (h : ∀ s ∈ segs, IsName s) : segs.foldlM walk dir = some (dir ++ segs) := by
  induction segs generalizing dir
  case nil => simp
  case cons seg segs hi =>
    simp only [List.foldlM_cons, walk_name (h seg (by simp)).notDots, Option.bind_eq_bind,
      Option.bind_some]
    rw [hi fun s hm => h s (by simp [hm]), List.append_assoc, List.singleton_append]

-- A path in normal form is a fixed point.
theorem simplify_of_normal (h : IsNormal dir d) :
    simplify (render dir ++ trail d) = some (render dir ++ trail d) := by
  match dir with
  | [] =>
    simp only [h.root rfl, render, trail, List.flatMap_nil, ↓reduceIte, List.nil_append]
    rfl
  | seg :: dir =>
    have hr : render (seg :: dir) = slash :: (seg ++ render dir) := rfl
    have hd : ∀ s ∈ dir, slash ∉ s := fun s hm => (h.names s (by simp [hm])).noSlash
    have hs := segments_render (d := d) (h.names seg (by simp)).noSlash hd
    rw [hr, List.cons_append, List.append_assoc, simplify, if_pos rfl, normalize, hs]
    have hw : (seg :: dir).foldlM walk [] = some (seg :: dir) := foldlM_walk_of_names h.names
    cases d
    case false =>
      have hl : isDirectory (seg :: dir) = false := by
        simp only [isDirectory, List.getLast?_eq_some_getLast (List.cons_ne_nil seg dir),
          Option.map_some, Option.getD_some, decide_eq_false_iff_not]
        exact (h.names _ (List.getLast_mem _)).notDots
      simp only [Bool.false_eq_true, ↓reduceIte, List.append_nil, hw, hl, Option.map_some, hr]
      simp [trail]
    case true =>
      have hl : isDirectory (seg :: dir ++ [[]]) = true := by
        simp [isDirectory, IsDots, List.getLast?_cons]
      simp only [↓reduceIte, List.foldlM_append, hw, Option.bind_eq_bind, Option.bind_some, hl]
      simp [walk, hr]

-- The normal form keeps its trailing slash, and gets one if it has none.
theorem simplify_directory (h : simplify path = some p) (hp : p.getLast? ≠ some slash) :
    simplify (p ++ [slash]) = some (p ++ [slash]) := by
  obtain ⟨dir, d, hn, rfl⟩ := simplify_normal h
  cases d
  case true => simp [trail] at hp
  case false =>
    rw [trail, if_neg (by decide), List.append_nil]
    exact simplify_of_normal (d := true) ⟨hn.names, fun _ => rfl⟩

theorem simplify_idem (h : simplify path = some p) : simplify p = some p := by
  have ⟨_, _, hn, hp⟩ := simplify_normal h
  exact hp ▸ simplify_of_normal hn

end Normal

section Written

variable {path p : List UInt8} {segs dir : List (List UInt8)} {directory : Bool}

theorem walk_eq_none {seg : List UInt8} : walk dir seg = none ↔ seg = [dot, dot] ∧ dir = [] := by
  simp only [walk]
  split_ifs with h₁ h₂ h₃ <;> simp_all
  rintro rfl
  simp at h₁

theorem foldlM_walk_eq_none : segs.foldlM walk dir = none ↔
    ∃ pre post, segs = pre ++ [dot, dot] :: post ∧ pre.foldlM walk dir = some [] := by
  induction segs generalizing dir
  case nil => simp
  case cons seg segs hi =>
    rw [List.foldlM_cons]
    cases hw : walk dir seg
    case none =>
      have ⟨hs, hd⟩ := walk_eq_none.mp hw
      simp only [Option.bind_eq_bind, Option.bind_none, true_iff]
      exact ⟨[], segs, by simp [hs], by simp [hd]⟩
    case some mid =>
      simp only [Option.bind_eq_bind, Option.bind_some, hi]
      constructor
      · rintro ⟨pre, post, rfl, hp⟩
        exact ⟨seg :: pre, post, rfl, by simpa [hw] using hp⟩
      · rintro ⟨pre, post, hs, hp⟩
        cases pre
        case nil =>
          simp only [List.nil_append, List.cons.injEq] at hs
          simp only [List.foldlM_nil, Option.pure_def, Option.some.injEq] at hp
          simp [hs.left, hp, walk] at hw
        case cons _ pre =>
          simp only [List.cons_append, List.cons.injEq] at hs
          refine ⟨pre, post, hs.right, ?_⟩
          simpa [← hs.left, hw] using hp

theorem simplify_eq_none : simplify path = none ↔ path.head? ≠ some slash ∨ Climbs path := by
  cases path
  case nil => simp [simplify]
  case cons c cs =>
    simp only [simplify, normalize, Climbs, List.head?_cons, List.tail_cons, ← foldlM_walk_eq_none]
    split <;> simp_all

theorem render_eq_intercalate (h : dir ≠ []) : render dir = slash :: [slash].intercalate dir := by
  induction dir
  case nil => contradiction
  case cons seg dir hi =>
    cases dir
    case nil => simp [render]
    case cons s ss =>
      have hr : render (seg :: s :: ss) = slash :: seg ++ render (s :: ss) := rfl
      rw [hr, hi (by simp)]
      simp

theorem written_eq (h : dir = [] → directory = true) : render dir ++ trail directory = written dir directory := by
  by_cases hd : dir = []
  case pos => simp [hd, h hd, render, trail, written]
  case neg => cases directory <;> simp [render_eq_intercalate hd, trail, written, hd]

-- The trailing slash is there if the last segment is no name, and if nothing else is.
theorem written_getLast (hn : ∀ seg ∈ dir, IsName seg) :
    (written dir directory).getLast? = some slash ↔ directory = true ∨ dir = [] := by
  obtain rfl | ⟨dir, seg, rfl⟩ := dir.eq_nil_or_concat
  case inl => simp [written]
  case inr =>
    rw [List.concat_eq_append] at hn ⊢
    have hs := hn seg (by simp)
    rw [← written_eq (by simp), render_append_singleton]
    cases directory
    case true  =>
      rw [trail, if_pos rfl, List.getLast?_concat]
      simp
    case false =>
      have hne : seg ≠ [] := fun he => hs.notDots (.inl he)
      have hl : seg.getLast hne ≠ slash := fun he => hs.noSlash (he ▸ List.getLast_mem hne)
      simp [trail, List.getLast?_cons, List.getLast?_eq_some_getLast hne, hl]

theorem simplify_eq_some (h : simplify path = some p) :
    ∃ dir, (segments path.tail).foldlM walk [] = some dir ∧
      p = written dir (isDirectory <| segments path.tail) := by
  cases path
  case nil => simp [simplify] at h
  case cons c cs =>
    simp only [simplify] at h
    split at h
    case isFalse => simp at h
    case isTrue =>
      simp only [normalize, Option.map_eq_some_iff] at h
      have ⟨dir, hf, hp⟩ := h
      refine ⟨dir, hf, hp ▸ written_eq fun hn => ?_⟩
      by_contra hd
      exact foldlM_walk_ne_nil segments_ne_nil (Bool.eq_false_iff.mpr hd) hf hn

end Written

section Bytes

variable {path p : List UInt8} {seg : List UInt8} {segs dir dir' : List (List UInt8)} {c : UInt8}

theorem mem_of_mem_segments (h : seg ∈ segments path) (hc : c ∈ seg) : c ∈ path := by
  induction path generalizing seg
  case nil => simp_all [segments]
  case cons d path hi =>
    rw [segments] at h
    split at h
    case isTrue =>
      cases h
      case head   => simp at hc
      case tail h => exact List.mem_cons_of_mem d (hi h hc)
    case isFalse =>
      split at h
      case h_1 heq => exact absurd heq segments_ne_nil
      case h_2 s ss heq =>
        cases h
        case head =>
          obtain rfl | hc := List.mem_cons.mp hc
          · exact List.mem_cons_self
          · exact List.mem_cons_of_mem d (hi (heq ▸ List.mem_cons_self) hc)
        case tail h => exact List.mem_cons_of_mem d (hi (heq ▸ List.mem_cons_of_mem s h) hc)

theorem walk_subset (h : walk dir seg = some dir') : ∀ s ∈ dir', s ∈ dir ∨ s = seg := by
  rw [walk] at h
  split_ifs at h
  case pos =>
    obtain rfl := Option.some_inj.mp h
    exact fun s => .inl
  case neg =>
    obtain rfl := Option.some_inj.mp h
    exact fun s hs => .inl (List.dropLast_subset _ hs)
  case neg =>
    obtain rfl := Option.some_inj.mp h
    exact fun s hs => by simpa using hs

theorem foldlM_walk_subset (h : segs.foldlM walk dir = some dir') : ∀ s ∈ dir', s ∈ dir ∨ s ∈ segs := by
  induction segs generalizing dir
  case nil =>
    obtain rfl := Option.some_inj.mp h
    exact fun s => .inl
  case cons seg segs hi =>
    obtain ⟨mid, hw, hf⟩ := Option.bind_eq_some_iff.mp h
    intro s hs
    obtain hs | hs := hi hf s hs
    case inl =>
      obtain hs | rfl := walk_subset hw s hs
      · exact .inl hs
      · exact .inr List.mem_cons_self
    case inr => exact .inr (List.mem_cons_of_mem seg hs)

-- No bytes are made up.
theorem mem_of_mem_simplify (h : simplify path = some p) (hc : c ∈ p) : c = slash ∨ c ∈ path := by
  cases path
  case nil => simp [simplify] at h
  case cons d path =>
    rw [simplify] at h
    split_ifs at h
    obtain ⟨dir, hdir, rfl⟩ := Option.map_eq_some_iff.mp h
    rw [List.mem_append, render, List.mem_flatMap, trail] at hc
    obtain ⟨s, hs, hc⟩ | hc := hc
    case inl =>
      obtain hc | hc := List.mem_cons.mp hc
      case inl => exact .inl hc
      case inr =>
        have hs := (foldlM_walk_subset hdir s hs).resolve_left List.not_mem_nil
        exact .inr (List.mem_cons_of_mem d (mem_of_mem_segments hs hc))
    case inr =>
      split_ifs at hc
      · exact .inl (List.mem_singleton.mp hc)
      · exact absurd hc List.not_mem_nil

end Bytes

end Paths
end Camellia
