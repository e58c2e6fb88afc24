import Mathlib.Data.List.TakeWhile
import Mathlib.Data.Nat.Notation
import Mathlib.Tactic.Common

namespace Camellia

section Strtok

-- A string is a list of bytes which ends in front of its NUL.
def strspn (s accept : List UInt8) : ℕ :=
  (s.takeWhile (· ∈ accept)).length

def strcspn (s reject : List UInt8) : ℕ :=
  (s.takeWhile fun c => !decide (c ∈ reject)).length

-- The token and what `state` points to, unless NULL is used. A pointer is the string it points to, and
-- `end` is cut off from the token by the NUL which is written.
def strtokR (s : Option (List UInt8)) (sep : List UInt8) (state : Option (List UInt8)) :
    Option (Option (List UInt8) × Option (List UInt8)) :=
  match s.or state with
  | none   => none
  | some s =>
    let s := s.drop (strspn s sep)
    if s = [] then
      some (none, state)
    else
      let fin := s.drop (strcspn s sep)
      if fin ≠ [] then
        some (some (s.take (strcspn s sep)), some fin.tail)
      else
        some (some (s.take (strcspn s sep)), some fin)

-- The results of a call of `strtok` for a string, or for NULL, and of `n` more calls for NULL.
def strtokCalls (sep : List UInt8) : ℕ → Option (List UInt8) → Option (List UInt8) → Option (List (Option (List UInt8)))
  | 0, s, state     => (strtokR s sep state).map fun (tok, _) => [tok]
  | n + 1, s, state =>
    (strtokR s sep state).bind fun (tok, state) => (strtokCalls sep n none state).map (tok :: ·)

end Strtok

-- The maximal runs of bytes which are no separators.
def tokens (sep s : List UInt8) : List (List UInt8) :=
  (s.splitOnP (· ∈ sep)).filter (!·.isEmpty)

-- The calls yield the tokens, and then NULL.
def YieldsTokens (s sep : List UInt8) (state : Option (List UInt8)) : Prop :=
  ∀ n, strtokCalls sep n (some s) state = some ((List.range (n + 1)).map ((tokens sep s)[·]?))

section Tokens

variable {α : Type} {p : α → Bool} {l : List α} {s t tok sep rest : List UInt8} {toks : List (List UInt8)}
variable {state : Option (List UInt8)} {n : ℕ}

theorem drop_length_takeWhile : l.drop (l.takeWhile p).length = l.dropWhile p :=
  calc l.drop (l.takeWhile p).length
    _ = (l.takeWhile p ++ l.dropWhile p).drop (l.takeWhile p).length := by rw [List.takeWhile_append_dropWhile]
    _ = l.dropWhile p                                                := List.drop_left

theorem take_length_takeWhile : l.take (l.takeWhile p).length = l.takeWhile p :=
  (List.prefix_iff_eq_take.mp (List.takeWhile_prefix p)).symm

-- Separators in front of the first token do not count.
theorem tokens_dropWhile : tokens sep (s.dropWhile (· ∈ sep)) = tokens sep s := by
  induction s
  case nil => rfl
  case cons c s hi =>
    by_cases hc : c ∈ sep
    case pos =>
      rw [List.dropWhile_cons_of_pos (by simpa), hi, tokens, tokens]
      simp [List.splitOnP_cons_eq_if_modifyHead, hc]
    case neg => rw [List.dropWhile_cons_of_neg (by simpa)]

theorem tokens_eq_nil : tokens sep s = [] ↔ ∀ c ∈ s, c ∈ sep := by
  induction s
  case nil => simp [tokens]
  case cons c s hi =>
    by_cases hc : c ∈ sep
    case pos =>
      rw [← tokens_dropWhile, List.dropWhile_cons_of_pos (by simpa), tokens_dropWhile, hi]
      simp [hc]
    case neg =>
      obtain ⟨x, xs, h⟩ := List.exists_cons_of_ne_nil (List.splitOnP_ne_nil (· ∈ sep) s)
      simp [tokens, List.splitOnP_cons_eq_if_modifyHead, hc, h]

-- What one call does to a string without tokens.
theorem strtokR_nil (h : tokens sep s = []) : strtokR (some s) sep state = some (none, state) := by
  have hd : s.dropWhile (· ∈ sep) = [] := List.dropWhile_eq_nil_iff.mpr fun c hc => by simpa using tokens_eq_nil.mp h c hc
  simp only [strtokR, Option.some_or, strspn, drop_length_takeWhile, hd, if_true]

-- What it does to others.
theorem strtokR_cons (state : Option (List UInt8)) (h : tokens sep s = tok :: toks) :
    ∃ rest, tokens sep rest = toks ∧ strtokR (some s) sep state = some (some tok, some rest) := by
  have hd : s.dropWhile (· ∈ sep) ≠ [] := fun hd => by
    rw [← tokens_dropWhile, hd] at h
    contradiction
  rw [← tokens_dropWhile] at h
  have hhead := List.head_dropWhile_not (· ∈ sep) (l := s) hd
  simp only [strtokR, Option.some_or, strspn, strcspn, drop_length_takeWhile, take_length_takeWhile, if_neg hd]
  generalize s.dropWhile (· ∈ sep) = t at *
  have happ := List.takeWhile_append_dropWhile (p := (fun c => !decide (c ∈ sep))) (l := t)
  have hword : ∀ c ∈ t.takeWhile (fun c => !decide (c ∈ sep)), decide (c ∈ sep) = false := fun c hc => by
    simpa using List.mem_takeWhile_imp hc
  have hne : t.takeWhile (fun c => !decide (c ∈ sep)) ≠ [] := by
    obtain ⟨c, t, rfl⟩ := List.exists_cons_of_ne_nil hd
    have hc : c ∉ sep := of_decide_eq_false hhead
    simp [hc]
  cases hf : t.dropWhile (fun c => !decide (c ∈ sep))
  case nil =>
    rw [hf, List.append_nil] at happ
    rw [tokens, ← happ, List.splitOnP_eq_singleton hword] at h
    simp [hne] at h
    exact ⟨[], h.right ▸ rfl, by simp [h.left]⟩
  case cons d as =>
    have hd' : decide (d ∈ sep) = true := by
      have := List.head_dropWhile_not (fun c => !decide (c ∈ sep)) (l := t) (by simp [hf])
      simpa [hf] using this
    rw [tokens, ← happ, hf, List.splitOnP_append_cons_of_forall_mem hword d hd'] at h
    simp [hne] at h
    exact ⟨as, h.right, by simp [h.left]⟩

-- Once the state is that of the string, the calls go through its tokens.
theorem strtokCalls_none : strtokCalls sep n none (some s) = some ((List.range (n + 1)).map ((tokens sep s)[·]?)) := by
  induction n generalizing s
  case zero =>
    rw [strtokCalls]
    change (strtokR (some s) sep (some s)).map _ = _
    cases h : tokens sep s
    case nil            => simp [strtokR_nil h]
    case cons tok toks =>
      have ⟨rest, _, hr⟩ := strtokR_cons (some s) h
      simp [hr]
  case succ n hi =>
    rw [strtokCalls]
    change (strtokR (some s) sep (some s)).bind _ = _
    rw [List.range_succ_eq_map]
    cases h : tokens sep s
    case nil            => simp [strtokR_nil h, hi, h, Function.comp_def]
    case cons tok toks =>
      have ⟨rest, ht, hr⟩ := strtokR_cons (some s) h
      simp [hr, hi, ht, Function.comp_def]

-- After a call which finds nothing, the calls go on with what the state was before.
theorem strtokCalls_nil (h : tokens sep s = []) :
    strtokCalls sep (n + 1) (some s) state = (strtokCalls sep n none state).map (none :: ·) := by
  rw [strtokCalls, strtokR_nil h, Option.bind_some]

-- Only a call which finds a token replaces the state that another string has left behind.
theorem yieldsTokens_iff : YieldsTokens s sep state ↔
    (∃ c ∈ s, c ∉ sep) ∨ ∃ rest, state = some rest ∧ ∀ c ∈ rest, c ∈ sep := by
  cases h : tokens sep s
  case cons tok toks =>
    have hs : ∃ c ∈ s, c ∉ sep := by
      have hn : ¬∀ c ∈ s, c ∈ sep := fun hs => by simp [tokens_eq_nil.mpr hs] at h
      simpa using hn
    refine iff_of_true (fun n => ?_) (.inl hs)
    have ⟨rest, ht, hr⟩ := strtokR_cons state h
    cases n
    case zero   => simp [strtokCalls, hr, h]
    case succ n =>
      rw [strtokCalls, hr, List.range_succ_eq_map]
      simp [strtokCalls_none, ht, h, Function.comp_def]
  case nil =>
    have hs : ¬∃ c ∈ s, c ∉ sep := by simpa using tokens_eq_nil.mp h
    rw [or_iff_right hs]
    constructor
    case mp =>
      intro hy
      have h₁ := hy 1
      rw [strtokCalls_nil h, h] at h₁
      cases state
      case none      => contradiction
      case some rest =>
        refine ⟨rest, rfl, tokens_eq_nil.mp ?_⟩
        rw [strtokCalls_none] at h₁
        simpa [List.range_succ] using h₁
    case mpr =>
      intro ⟨rest, hst, hr⟩ n
      rw [hst]
      cases n
      case zero   => simp [strtokCalls, strtokR_nil h, h]
      case succ n =>
        rw [strtokCalls_nil h, strtokCalls_none, h, tokens_eq_nil.mpr hr, List.range_succ_eq_map (n := n + 1)]
        simp [Function.comp_def]

-- The first of two words was taken when a blank string is tokenised, and the second call for it yields the
-- other word.
theorem not_yieldsTokens_blank : ∃ state, strtokR (some ("a b".toList.map Char.toUInt8)) [' '.toUInt8] none =
    some (some ['a'.toUInt8], state) ∧ ¬YieldsTokens [' '.toUInt8] [' '.toUInt8] state :=
  ⟨some ['b'.toUInt8], by decide, fun h => absurd (h 1) (by decide)⟩

end Tokens
end Camellia
