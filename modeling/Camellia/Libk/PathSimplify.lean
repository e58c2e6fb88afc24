import Camellia.Libk.Path

namespace Camellia

section Loop

open Paths

variable {m : Mem} {a n inp out len : ℕ}

theorem scanSegment_le : (scanSegment m a n).fst ≤ n := by
  induction n generalizing a
  case zero => simp [scanSegment]
  case succ n hi =>
    simp only [scanSegment]
    split
    · simp
    · simpa using hi

theorem scanSegment_slice : slash ∉ m.slice a (scanSegment m a n).fst := by
  induction n generalizing a
  case zero => simp [scanSegment, Mem.slice]
  case succ n hi =>
    simp only [scanSegment]
    split
    case isTrue => simp [Mem.slice]
    case isFalse h =>
      rw [Nat.add_comm, Mem.slice_add]
      simpa [Mem.slice, Ne.symm h] using hi (a := a + 1)

theorem scanSegment_true (h : (scanSegment m a n).snd = true) :
    (scanSegment m a n).fst < n ∧ m (a + (scanSegment m a n).fst) = slash := by
  induction n generalizing a
  case zero => simp [scanSegment] at h
  case succ n hi =>
    simp only [scanSegment] at h ⊢
    split
    case isTrue hs => simpa using hs
    case isFalse hs =>
      simp only [hs, ↓reduceIte] at h
      have ⟨h₁, h₂⟩ := hi h
      refine ⟨Nat.add_lt_add_right h₁ 1, ?_⟩
      rw [← h₂]
      congr 1
      omega

theorem scanSegment_false (h : (scanSegment m a n).snd = false) : (scanSegment m a n).fst = n := by
  induction n generalizing a
  case zero => rfl
  case succ n hi =>
    simp only [scanSegment] at h ⊢
    split
    case isTrue hs  => simp [hs] at h
    case isFalse hs =>
      simp only [hs, ↓reduceIte] at h
      simpa using hi h

-- What `scanSegment` finds is the first segment of the rest of the path.
theorem segments_slice :
    segments (m.slice a n) = m.slice a (scanSegment m a n).fst ::
      if (scanSegment m a n).snd then
        segments (m.slice (a + (scanSegment m a n).fst + 1) (n - ((scanSegment m a n).fst + 1)))
      else
        [] := by
  generalize hk : (scanSegment m a n).fst = k
  have hs : slash ∉ m.slice a k := hk ▸ scanSegment_slice
  split
  case isTrue h =>
    have ⟨h₁, h₂⟩ := scanSegment_true h
    rw [hk] at h₁ h₂
    obtain ⟨l, rfl⟩ : ∃ l, n = k + (1 + l) := ⟨n - (k + 1), by omega⟩
    rw [Mem.slice_add, Mem.slice_add (n := 1)]
    simp only [Mem.slice, List.range_one, List.map_cons, List.map_nil, Nat.add_zero, h₂] at hs ⊢
    rw [List.cons_append, List.nil_append, segments_append hs]
    have hl : k + (1 + l) - (k + 1) = l := by omega
    rw [hl]
  case isFalse h =>
    have := scanSegment_false (Bool.eq_false_iff.mpr h)
    rw [← hk, this] at hs ⊢
    exact segments_of_not_mem hs

theorem backtrack_render {dir : List (List UInt8)} {seg : List UInt8} (hs : slash ∉ seg)
    (h : m.slice out n = render (dir ++ [seg])) :
    backtrack m out n = some (render dir).length := by
  rw [render_append_singleton] at h
  -- The scan passes the bytes of the last segment one by one, from its end.
  induction seg using List.reverseRecOn generalizing n
  case nil =>
    obtain ⟨n, rfl⟩ : ∃ k, n = k + 1 :=
      ⟨(render dir).length, by simpa using congrArg List.length h⟩
    simp only [Mem.slice, List.range_succ, List.map_append, List.map_cons, List.map_nil] at h
    obtain ⟨h₁, h₂⟩ := List.append_inj' h rfl
    have hn : n = (render dir).length := by simpa using congrArg List.length h₁
    simp only [List.cons.injEq, and_true] at h₂
    rw [backtrack, if_pos h₂, hn]
  case append_singleton seg c hi =>
    simp only [List.mem_append, List.mem_singleton, not_or] at hs
    obtain ⟨n, rfl⟩ : ∃ k, n = k + 1 :=
      ⟨(render dir ++ slash :: seg).length, by simpa [Nat.add_assoc] using congrArg List.length h⟩
    rw [← List.cons_append, ← List.append_assoc] at h
    simp only [Mem.slice, List.range_succ, List.map_append, List.map_cons, List.map_nil] at h
    obtain ⟨h₁, h₂⟩ := List.append_inj' h rfl
    simp only [List.cons.injEq, and_true] at h₂
    simp only [backtrack, h₂, Ne.symm hs.right, ↓reduceIte]
    exact hi hs.left h₁

-- The two ways in which the callers of `path_simplify` lay out its buffers.
def Layout (inp out len : ℕ) : Prop :=
  out = inp ∨ inp + len ≤ out ∨ out + len ≤ inp

-- What the loop of `path_simplify` leaves behind when it ends.
structure Simplified (m : Mem) (out len : ℕ) (dir : List (List UInt8)) (directory : Bool)
    (res : Option (ℕ × Bool)) (m' : Mem) : Prop where
  outPos   : res = some ((render dir).length, directory)
  rendered : m'.slice out (render dir).length = render dir
  bound    : (render dir ++ trail directory).length ≤ len
  nonempty : render dir ++ trail directory ≠ []
  frame    : ∀ a, ¬(out ≤ a ∧ a < out + len) → m' a = m a

-- A normal segment is appended to the output.
theorem append_segment {i k : ℕ} {dir : List (List UInt8)} (hl : Layout inp out len)
    (ho : m.slice out (render dir).length = render dir) (hp : (render dir).length ≤ i)
    (hk : i + 1 + k ≤ len) :
    ∃ m', memcpy (m.store (out + (render dir).length) slash) (out + (render dir).length + 1)
        (inp + i + 1) k = m' ∧
      m'.slice out (render (dir ++ [m.slice (inp + i + 1) k])).length =
        render (dir ++ [m.slice (inp + i + 1) k]) ∧
      (∀ j, i + 1 + k ≤ j → j < len → m' (inp + j) = m (inp + j)) ∧
      ∀ a, ¬(out ≤ a ∧ a < out + len) → m' a = m a := by
  generalize hr : (render dir).length = r at *
  have hov : out + r + 1 ≤ inp + i + 1 ∨ inp + i + 1 + k ≤ out + r + 1 := by
    unfold Layout at hl
    omega
  -- Neither the slash nor the copied segment reaches a byte of the input that is still to be read.
  have hm : ∀ a, (memcpy (m.store (out + r) slash) (out + r + 1) (inp + i + 1) k) a =
      if a = out + r then slash
      else if out + r + 1 ≤ a ∧ a < out + r + 1 + k then m (inp + i + 1 + (a - (out + r + 1)))
      else m a := by
    intro a
    rw [memcpy_eq_blit hov]
    simp only [Mem.blit, Mem.store_apply]
    unfold Layout at hl
    split_ifs <;> first | rfl | omega
  refine ⟨_, rfl, ?_, ?_, ?_⟩
  · rw [render_append_singleton]
    simp only [List.length_append, List.length_cons, Mem.length_slice, hr]
    rw [Nat.add_comm k 1, Mem.slice_add, Mem.slice_add (n := 1)]
    congr 1
    · rw [← ho]
      refine Mem.slice_congr fun j hj => ?_
      rw [hm, if_neg (by omega), if_neg (by omega)]
    · rw [← List.singleton_append]
      congr 1
      · simp [Mem.slice, hm]
      · refine Mem.slice_congr fun j hj => ?_
        rw [hm, if_neg (by omega), if_pos (by omega)]
        congr 1
        omega
  · intro j h₁ h₂
    rw [hm]
    unfold Layout at hl
    rw [if_neg (by omega), if_neg (by omega)]
  · intro a ha
    rw [hm, if_neg (by omega), if_neg (by omega)]

-- The tests of `path_simplify` for empty segments and single dots.
theorem slice_dot_iff {k : ℕ} :
    (k = 0 ∨ (k = 1 ∧ m a = dot)) ↔ (m.slice a k = [] ∨ m.slice a k = [dot]) := by
  match k with
  | 0     => simp [Mem.slice]
  | 1     => simp [Mem.slice]
  | k + 2 => simp [Mem.slice, List.range_succ_eq_map]

-- The test of `path_simplify` for `..`.
theorem slice_dots_iff {k : ℕ} :
    (k = 2 ∧ m a = dot ∧ m (a + 1) = dot) ↔ m.slice a k = [dot, dot] := by
  match k with
  | 0     => simp [Mem.slice]
  | 1     => simp [Mem.slice]
  | 2     => simp [Mem.slice, List.range_succ_eq_map]
  | k + 3 => simp [Mem.slice, List.range_succ_eq_map]

-- The part of the path behind the slash at `i`.
def rest (m : Mem) (inp len i : ℕ) : List UInt8 :=
  m.slice (inp + i + 1) (len - (i + 1))

-- What running the loop from the slash at `i`, with the output at `dir`, amounts to.
def Outcome (m : Mem) (inp out len i : ℕ) (dir : List (List UInt8))
    (run : Except Fault (Option (ℕ × Bool) × Mem)) : Prop :=
  ∃ res m', run = .ok (res, m') ∧
    match (segments <| rest m inp len i).foldlM walk dir with
    | none      => res = none
    | some dir' => Simplified m out len dir' (isDirectory <| segments <| rest m inp len i) res m'

-- The state at the top of the loop: the output holds the rendered directory `dir` to which the
-- segments read so far lead, and never overtakes the input.
structure AtSlash (m : Mem) (inp out len i : ℕ) (dir : List (List UInt8)) : Prop where
  lt       : i < len
  slash    : m (inp + i) = slash
  rendered : m.slice out (render dir).length = render dir
  bound    : (render dir).length ≤ i
  names    : ∀ seg ∈ dir, Camellia.slash ∉ seg

-- What one round of the loop did, if it read the segment `seg` behind the slash at `i` and moved
-- the output to `dir'`.
structure Round (m m' : Mem) (inp out len i : ℕ) (seg : List UInt8) (dir dir' : List (List UInt8))
    (directory : Bool) : Prop where
  walk     : walk dir seg = some dir'
  unread   : ∀ j, i + 1 + seg.length ≤ j → j < len → m' (inp + j) = m (inp + j)
  frame    : ∀ a, ¬(out ≤ a ∧ a < out + len) → m' a = m a
  rendered : m'.slice out (render dir').length = render dir'
  names    : ∀ s ∈ dir', slash ∉ s
  dots     : IsDots seg → directory = true ∧ (render dir').length ≤ i
  name     : ¬IsDots seg → directory = (scanSegment m (inp + i + 1) (len - (i + 1))).snd ∧
               dir' ≠ [] ∧ (render dir').length ≤ i + seg.length + 1

variable {m' : Mem} {i k : ℕ} {seg : List UInt8} {dir dir' : List (List UInt8)} {directory : Bool}

theorem Round.bound (r : Round m m' inp out len i seg dir dir' directory) :
    (render dir').length ≤ i + seg.length + 1 := by
  by_cases h : IsDots seg
  case pos => have := (r.dots h).right; omega
  case neg => exact (r.name h).right.right

-- The last segment was read: the loop ends.
theorem Round.last (fuel : ℕ) (r : Round m m' inp out len i seg dir dir' directory) (hi : i < len)
    (hseg : segments (rest m inp len i) = [seg]) (hlen : i + seg.length + 1 = len)
    (hd : (scanSegment m (inp + i + 1) (len - (i + 1))).snd = false) :
    Outcome m inp out len i dir
      (pathSimplifyLoop inp out len fuel m' (i + seg.length + 1) (render dir').length directory) := by
  have hstop : pathSimplifyLoop inp out len fuel m' (i + seg.length + 1) (render dir').length directory =
      .ok (some ((render dir').length, directory), m') := by
    cases fuel <;> simp [pathSimplifyLoop, hlen.symm.le]
  refine ⟨_, _, hstop, ?_⟩
  simp only [hseg, List.foldlM_cons, List.foldlM_nil, r.walk, Option.bind_eq_bind, Option.bind_some,
    Option.pure_def, isDirectory_singleton]
  by_cases hs : IsDots seg
  case pos =>
    obtain ⟨hb, hp⟩ := r.dots hs
    exact {
      outPos   := by simp [hb, hs]
      rendered := r.rendered
      bound    := by simp [trail, hs]; omega
      nonempty := by simp [trail, hs]
      frame    := r.frame
    }
  case neg =>
    obtain ⟨hb, hne, hp⟩ := r.name hs
    exact {
      outPos   := by simp [hb, hs, hd]
      rendered := r.rendered
      bound    := by simp [trail, hs]; omega
      nonempty := by simp [trail, hs, render_eq_nil, hne]
      frame    := r.frame
    }

-- Another segment follows: the loop is at the slash in front of it.
theorem Round.next (fuel : ℕ) (r : Round m m' inp out len i seg dir dir' directory)
    (hseg : segments (rest m inp len i) = seg :: segments (rest m inp len (i + seg.length + 1)))
    (hlt : i + seg.length + 1 < len) (hs : m (inp + (i + seg.length + 1)) = slash)
    (hind : AtSlash m' inp out len (i + seg.length + 1) dir' → Outcome m' inp out len
      (i + seg.length + 1) dir'
      (pathSimplifyLoop inp out len fuel m' (i + seg.length + 1) (render dir').length directory)) :
    Outcome m inp out len i dir
      (pathSimplifyLoop inp out len fuel m' (i + seg.length + 1) (render dir').length directory) := by
  have ⟨res, m'', hrun, hres⟩ := hind {
    lt       := hlt
    slash    := by rw [r.unread _ (by omega) hlt, hs]
    rendered := r.rendered
    bound    := r.bound
    names    := r.names
  }
  have hrest : rest m' inp len (i + seg.length + 1) = rest m inp len (i + seg.length + 1) := by
    refine Mem.slice_congr fun j hj => ?_
    rw [Nat.add_assoc, Nat.add_assoc]
    exact r.unread _ (by omega) (by omega)
  refine ⟨res, m'', hrun, ?_⟩
  rw [hrest] at hres
  simp only [hseg, List.foldlM_cons, r.walk, Option.bind_eq_bind, Option.bind_some,
    isDirectory_cons segments_ne_nil]
  split <;> rename_i heq <;> simp only [heq] at hres
  · exact hres
  · exact { hres with frame := fun a ha => (hres.frame a ha).trans (r.frame a ha) }

theorem Round.outcome {fuel : ℕ}
    (r : Round m m' inp out len i (m.slice (inp + i + 1) k) dir dir' directory) (hi : i < len)
    (hk : (scanSegment m (inp + i + 1) (len - (i + 1))).fst = k)
    (hind : AtSlash m' inp out len (i + k + 1) dir' → Outcome m' inp out len (i + k + 1) dir'
      (pathSimplifyLoop inp out len fuel m' (i + k + 1) (render dir').length directory)) :
    Outcome m inp out len i dir
      (pathSimplifyLoop inp out len fuel m' (i + k + 1) (render dir').length directory) := by
  have hl : (m.slice (inp + i + 1) k).length = k := Mem.length_slice
  have hseg : segments (rest m inp len i) = _ := segments_slice
  rw [hk] at hseg
  cases hd : (scanSegment m (inp + i + 1) (len - (i + 1))).snd
  case false =>
    have hend := scanSegment_false hd
    have := r.last fuel hi (by simpa [hd] using hseg) (by omega) hd
    simpa only [hl] using this
  case true =>
    have ⟨h₁, h₂⟩ := scanSegment_true hd
    rw [hk] at h₁ h₂
    have hn : rest m inp len (i + k + 1) =
        m.slice (inp + i + 1 + k + 1) (len - (i + 1) - (k + 1)) := by
      simp only [rest, show len - (i + k + 1 + 1) = len - (i + 1) - (k + 1) by omega,
        show inp + (i + k + 1) + 1 = inp + i + 1 + k + 1 by omega]
    have := r.next fuel (by simpa [hd, hl, hn] using hseg) (by omega)
      (by rw [← h₂, hl]; congr 1; omega) (by simpa only [hl] using hind)
    simpa only [hl] using this

theorem pathSimplifyLoop_spec (fuel : ℕ) (directory : Bool) (hl : Layout inp out len)
    (hf : len - i ≤ fuel) (hs : AtSlash m inp out len i dir) :
    Outcome m inp out len i dir
      (pathSimplifyLoop inp out len fuel m i (render dir).length directory) := by
  induction fuel generalizing m i dir directory
  case zero => have := hs.lt; omega
  case succ fuel hind =>
    have hlt := hs.lt
    generalize hk : (scanSegment m (inp + i + 1) (len - (i + 1))).fst = k
    have hkl : k ≤ len - (i + 1) := hk ▸ scanSegment_le
    have hns : slash ∉ m.slice (inp + i + 1) k := hk ▸ scanSegment_slice
    simp only [pathSimplifyLoop, hlt.not_ge, ↓reduceIte, hs.slash, ne_eq, not_true_eq_false, hk,
      slice_dot_iff, slice_dots_iff]
    split
    case isTrue hdot =>
      refine Round.outcome ?_ hlt hk (hind _ (by omega))
      exact {
        walk     := walk_dots hdot
        unread   := fun _ _ _ => rfl
        frame    := fun _ _ => rfl
        rendered := hs.rendered
        names    := hs.names
        dots     := fun _ => ⟨rfl, hs.bound⟩
        name     := fun h => absurd (hdot.imp_right .inl) h
      }
    case isFalse hdot =>
      split
      case isTrue hdots =>
        -- `..` either leaves the last segment of `dir` or fails at the root.
        obtain rfl | ⟨dir, seg, rfl⟩ := dir.eq_nil_or_concat
        case inl =>
          have hseg : segments (rest m inp len i) = _ := segments_slice
          rw [hk, hdots] at hseg
          simp only [render, List.flatMap_nil, List.length_nil, backtrack]
          exact ⟨_, _, rfl, by simp [hseg, walk_up_root]⟩
        case inr =>
          rw [List.concat_eq_append] at hs ⊢
          have hsl : slash ∉ seg := hs.names seg (by simp)
          rw [backtrack_render hsl hs.rendered]
          have hle : (render dir).length ≤ (render (dir ++ [seg])).length := by
            simp [render_append_singleton]
          refine Round.outcome ?_ hlt hk (hind _ (by omega))
          have hpre := hs.rendered
          rw [render_append_singleton, List.length_append, Mem.slice_add] at hpre
          exact {
            walk     := by rw [hdots]; exact walk_up
            unread   := fun _ _ _ => rfl
            frame    := fun _ _ => rfl
            rendered := (List.append_inj hpre (by simp)).left
            names    := fun s h => hs.names s (by simp [h])
            dots     := fun _ => ⟨rfl, hle.trans hs.bound⟩
            name     := fun h => absurd (.inr <| .inr hdots) h
          }
      case isFalse hdots =>
        have hn : ¬IsDots (m.slice (inp + i + 1) k) := by
          simp only [IsDots, not_or] at hdot ⊢
          exact ⟨hdot.left, hdot.right, hdots⟩
        obtain ⟨m', hm, ho, hu, hfr⟩ := append_segment (k := k) hl hs.rendered hs.bound (by omega)
        rw [hm]
        have hlen : (render (dir ++ [m.slice (inp + i + 1) k])).length =
            (render dir).length + k + 1 := by
          simp [render_append_singleton, Nat.add_assoc]
        rw [← hlen]
        refine Round.outcome ?_ hlt hk (hind _ (by omega))
        exact {
          walk     := walk_name hn
          unread   := by simpa only [Mem.length_slice] using hu
          frame    := hfr
          rendered := ho
          names    := by
            intro s h
            simp only [List.mem_append, List.mem_singleton] at h
            exact h.elim (hs.names s) (· ▸ hns)
          dots     := fun h => absurd h hn
          name     := fun _ => ⟨rfl, by simp, by
            have := hs.bound
            simp only [hlen, Mem.length_slice]
            omega⟩
        }

-- `path_simplify` computes the abstract `simplify`, both into a separate buffer and in place, and
-- writes nothing outside of the output buffer.
theorem pathSimplify_spec (hl : Layout inp out len) :
    ∃ n m', pathSimplify m inp out len = .ok (n, m') ∧
      (∀ a, ¬(out ≤ a ∧ a < out + len) → simplify (m.slice inp len) ≠ none → m' a = m a) ∧
      match simplify (m.slice inp len) with
      | none   => n = 0
      | some p => n = p.length ∧ 0 < n ∧ n ≤ len ∧ m'.slice out n = p := by
  simp only [pathSimplify]
  split
  case isTrue h =>
    subst h
    exact ⟨_, _, rfl, by simp [Mem.slice, simplify], by simp [Mem.slice, simplify]⟩
  case isFalse h =>
    obtain ⟨l, rfl⟩ : ∃ l, len = 1 + l := ⟨len - 1, by omega⟩
    have hcons : m.slice inp (1 + l) = m inp :: rest m inp (1 + l) 0 := by
      rw [Mem.slice_add]
      simp [rest, Mem.slice]
    split
    case isTrue hs =>
      refine ⟨_, _, rfl, fun _ _ _ => rfl, ?_⟩
      simp [hcons, simplify, hs]
    case isFalse hs =>
      simp only [ne_eq, Decidable.not_not] at hs
      have hat : AtSlash m inp out (1 + l) 0 [] :=
        { lt := by omega, slash := hs, rendered := rfl, bound := by simp [render], names := by simp }
      obtain ⟨res, m', hrun, hres⟩ := pathSimplifyLoop_spec (1 + l) false hl (by omega) hat
      simp only [render, List.flatMap_nil, List.length_nil] at hrun
      rw [hrun, hcons, simplify, if_pos hs, Paths.normalize]
      cases hf : (segments <| rest m inp (1 + l) 0).foldlM walk [] <;> simp only [hf] at hres
      case none =>
        subst hres
        exact ⟨_, _, rfl, by simp, by simp⟩
      case some dir =>
        generalize isDirectory (segments <| rest m inp (1 + l) 0) = d at hres
        have hb := hres.bound
        have hne := List.length_pos_iff.mpr hres.nonempty
        rw [hres.outPos]
        cases d
        case false =>
          simp only [trail, Bool.false_eq_true, ↓reduceIte, List.append_nil] at hb hne
          refine ⟨(render dir).length, m', ?_, fun a h _ => hres.frame a h, ?_⟩
          · simp [bind, Except.bind, pure, Except.pure, hb, hne]
          · simp [trail, hb, hne, hres.rendered]
        case true =>
          simp only [trail, ↓reduceIte, List.length_append, List.length_singleton] at hb hne
          refine ⟨(render dir).length + 1, m'.store (out + (render dir).length) slash, ?_, ?_, ?_⟩
          · simp [bind, Except.bind, pure, Except.pure, hb]
          · intro a ha _
            rw [Mem.store_ne (by omega)]
            exact hres.frame a ha
          · simp only [Option.map_some, trail, ↓reduceIte, List.length_append, List.length_singleton,
              Nat.zero_lt_succ, hb, true_and, Mem.slice_add]
            congr 1
            · exact (Mem.slice_congr fun j hj => Mem.store_ne (by omega)).trans hres.rendered
            · simp [Mem.slice]

end Loop

section Simplifies

open Paths

variable {inp out : ℕ} {path : List UInt8} {m : Mem}

-- What `path_simplify` promises about a run on the path `path` which returned `n` and left the memory
-- `m'` behind.
structure Simplifies (path : List UInt8) (out n : ℕ) (m' : Mem) : Prop where
  invalid : n = 0 ↔ path = [] ∨ path.head? ≠ some slash ∨ Climbs path
  valid   : n ≠ 0 → n ≤ path.length ∧ ∃ dir, (segments path.tail).foldlM walk [] = some dir ∧
              m'.slice out n = written dir (isDirectory <| segments path.tail) ∧
              ((m'.slice out n).getLast? = some slash ↔
                isDirectory (segments path.tail) = true ∨ dir = [])

-- `path_simplify` never fails an assertion, and returns what it promises, both into a separate buffer
-- and in place. Simplifying the result once more does not change it.
theorem pathSimplify_simplifies (hm : m.slice inp path.length = path)
    (hl : Layout inp out path.length) :
    ∃ n m', pathSimplify m inp out path.length = .ok (n, m') ∧ Simplifies path out n m' ∧
      (∃ m₁, pathSimplify m inp inp path.length = .ok (n, m₁) ∧ m₁.slice inp n = m'.slice out n) ∧
      (n ≠ 0 → ∀ out', Layout out out' n →
        ∃ m₂, pathSimplify m' out out' n = .ok (n, m₂) ∧ m₂.slice out' n = m'.slice out n) := by
  have ⟨n, m', hr, _, hs⟩ := pathSimplify_spec (m := m) hl
  have ⟨n₁, m₁, hr₁, _, hs₁⟩ := pathSimplify_spec (m := m) (.inl rfl : Layout inp inp path.length)
  rw [hm] at hs hs₁
  refine ⟨n, m', hr, ?_⟩
  cases hp : simplify path <;> simp only [hp] at hs hs₁
  case none =>
    subst hs hs₁
    have hc := simplify_eq_none.mp hp
    exact ⟨⟨by simp [hc], by simp⟩, ⟨m₁, hr₁, rfl⟩, by simp⟩
  case some p =>
    have ⟨hn, hpos, hle, hw⟩ := hs
    have ⟨hn₁, _, _, hw₁⟩ := hs₁
    obtain rfl : n₁ = n := hn₁.trans hn.symm
    have ⟨dir, hf, hd⟩ := simplify_eq_some hp
    have hnames := foldlM_walk_names (fun _ h => mem_segments_no_slash h) (by simp) hf
    have hc : ¬(path.head? ≠ some slash ∨ Climbs path) := fun hc => by
      simp [simplify_eq_none.mpr hc] at hp
    refine ⟨⟨?_, fun _ => ⟨hle, dir, hf, hw.trans hd, ?_⟩⟩, ⟨m₁, hr₁, hw₁.trans hw.symm⟩, ?_⟩
    · have he : path ≠ [] := fun he => hc (.inl <| by simp [he])
      simp [hpos.ne', he, hc]
    · rw [hw, hd]
      exact written_getLast hnames
    · intro _ out' hl'
      have ⟨n₂, m₂, hr₂, _, hs₂⟩ := pathSimplify_spec (m := m') hl'
      simp only [hw, simplify_idem hp] at hs₂
      obtain rfl : n₂ = n₁ := hs₂.left.trans hn.symm
      exact ⟨m₂, hr₂, hs₂.right.right.right.trans hw.symm⟩

theorem pathSimplify_simplifies_parent :
    ∃ n m', pathSimplify (.ofList [47, 97, 47, 46, 46, 47, 98]) 0 0 7 = .ok (n, m') ∧
      Simplifies [47, 97, 47, 46, 46, 47, 98] 0 n m' :=
  have ⟨n, m', hr, hs, _⟩ := @pathSimplify_simplifies 0 0 [47, 97, 47, 46, 46, 47, 98]
    (.ofList [47, 97, 47, 46, 46, 47, 98]) (by decide) (.inl rfl)
  ⟨n, m', hr, hs⟩

end Simplifies
end Camellia
