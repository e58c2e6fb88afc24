import Camellia.Libc.StringBasic
import Camellia.Libc.Strtol

namespace Camellia.Shell

-- A loop which skips characters, where at most `n` characters are left in the address space.
def skipLoop (m : Mem) (p : UInt8 → Bool) : (n s : ℕ) → ℕ
  | 0, s     => s
  | n + 1, s => if m s ≠ 0 ∧ p (m s) then skipLoop m p n (s + 1) else s

def skip (m : Mem) (p : UInt8 → Bool) (s : ℕ) : ℕ :=
  skipLoop m p (2 ^ 64 - s) s

def skipspace (m : Mem) (s : ℕ) : ℕ :=
  skip m isspace s

def isspecial (c : UInt8) : Bool :=
  c = '>'.toUInt8 ∨ c = '#'.toUInt8

def isword (c : UInt8) : Bool :=
  !isspace c && !isspecial c

-- The end of `parg`, which cuts off what is behind the word.
def pargCut (m : Mem) (s : ℕ) (res : Option ℕ) : Mem × ℕ × Option ℕ :=
  if m s ≠ 0 then (m.store s 0, s + 1, res) else (m, s, res)

-- The memory, `*sp` and the result, which is `none` for NULL.
def parg (m : Mem) (s : ℕ) : Mem × ℕ × Option ℕ :=
  let s := skipspace m s
  if m s = 0 then
    (m, s, none)
  else if m s = '"'.toUInt8 then
    pargCut m (skip m (· ≠ '"'.toUInt8) (s + 1)) (some (s + 1))
  else
    let res := s
    let s := skip m isword s
    if m s = '#'.toUInt8 then
      -- `end parsing early`, and `don't output an empty arg`
      pargCut (m.store s 0) s (if res = s then none else some res)
    else
      pargCut m s (some res)

structure Redir where
  stdout : Option ℕ
  append : Bool

-- What `parse` returns and leaves behind.
structure Parsed where
  ret   : Int
  mem   : Mem
  argv  : List (Option ℕ)
  redir : Redir

-- An assignment to `argv[i]`. The result is `none` if it is outside of the array.
def assign (argv : List (Option ℕ)) (i : ℕ) (p : Option ℕ) : Option (List (Option ℕ)) :=
  if i < argv.length then some (argv.set i p) else none

-- The loop of `parse`, with `n` iterations left. The array has `argvlen` elements.
def parseLoop : (n : ℕ) → Mem → (s : ℕ) → (argv : List (Option ℕ)) → (argc : ℕ) → Redir → Option Parsed
  | 0, _, _, _, _, _                  => none
  | n + 1, m, s, argv, argc, redir =>
    let s := skipspace m s
    if m s = 0 then do
      let argv' ← assign argv argc none
      return { ret := (Int32.ofNat argc).toInt, mem := m, argv := argv', redir := redir }
    else if m s = '>'.toUInt8 then
      let twice := m (s + 1) = '>'.toUInt8
      let (m', s', stdout) := parg m (if twice then s + 2 else s + 1)
      parseLoop n m' s' argv argc { stdout := stdout, append := redir.append || twice }
    else do
      let (m', s', arg) := parg m s
      let argv' ← assign argv argc arg
      if argv.length ≤ argc + 1 then
        return { ret := -1, mem := m', argv := argv', redir := redir }
      else
        parseLoop n m' s' argv' (argc + 1) redir

def parse (m : Mem) (s : ℕ) (argv : List (Option ℕ)) (redir : Redir) : Option Parsed :=
  if argv.length = 0 then
    some { ret := -1, mem := m, argv := argv, redir := redir }
  else do
    let argv' ← assign argv 0 none
    parseLoop (2 ^ 64) m s argv' 0 { stdout := none, append := false }

-- What `parg` leaves of the string behind a word.
def behindWord : List UInt8 → List UInt8
  | []     => []
  | c :: t => if c = '#'.toUInt8 then [] else t

-- A word was cut off, and the rest of the string goes on at `s`. Only the end of the word was written.
structure Cut (m : Mem) (p : ℕ) (word rest : List UInt8) (m' : Mem) (s : ℕ) : Prop where
  cut   : HoldsString m' p word
  left  : HoldsString m' s rest
  apart : p + word.length < s ∨ rest = []
  frame : ∀ x < p + word.length, m' x = m x

section Strings

variable {m m' : Mem} {s n : ℕ} {p : UInt8 → Bool} {str a b : List UInt8} {c : UInt8}

theorem skipLoop_eq (h : HoldsString m s str) (hn : str.length ≤ n) :
    skipLoop m p n s = s + (str.takeWhile p).length := by
  induction str generalizing s n
  case nil =>
    have := h.nil
    cases n <;> simp [skipLoop, this]
  case cons c str hi =>
    obtain ⟨hc, h0⟩ := h.head
    rw [List.length_cons] at hn
    obtain ⟨n, rfl⟩ : ∃ k, n = k + 1 := ⟨n - 1, by omega⟩
    rw [skipLoop, hc]
    by_cases hp : p c
    case pos =>
      rw [if_pos ⟨h0, hp⟩, hi h.tail (by omega), List.takeWhile_cons_of_pos hp, List.length_cons]
      omega
    case neg => rw [if_neg (fun h => hp h.right), List.takeWhile_cons_of_neg hp, List.length_nil, Nat.add_zero]

theorem skip_eq (h : HoldsString m s str) : skip m p s = s + (str.takeWhile p).length :=
  skipLoop_eq h (by have := h.fits; omega)

-- The characters are skipped up to the first one which does not count.
theorem skip_append (h : HoldsString m s (a ++ b)) (ha : ∀ c ∈ a, p c) (hb : ∀ c ∈ b.head?, ¬p c) :
    skip m p s = s + a.length := by
  rw [skip_eq h, List.takeWhile_append_of_pos ha]
  cases b
  case nil => simp
  case cons c b => rw [List.takeWhile_cons_of_neg (hb c rfl), List.append_nil]

end Strings

section Parg

variable {m : Mem} {s : ℕ} {space word rest : List UInt8}

theorem isword_iff {c : UInt8} : isword c ↔ ¬isspace c ∧ c ≠ '>'.toUInt8 ∧ c ≠ '#'.toUInt8 := by
  simp [isword, isspecial]

-- A word behind white space is cut off.
theorem parg_word (h : HoldsString m s (space ++ (word ++ rest))) (hspace : ∀ c ∈ space, isspace c)
    (hword : ∀ c ∈ word, isword c) (hne : word ≠ []) (hquote : ∀ c ∈ word.head?, c ≠ '"'.toUInt8)
    (hrest : ∀ c ∈ rest.head?, ¬isword c) :
    ∃ m' s', parg m s = (m', s', some (s + space.length)) ∧
      Cut m (s + space.length) word (behindWord rest) m' s' := by
  obtain ⟨c, w, rfl⟩ := List.exists_cons_of_ne_nil hne
  have hc := hword c List.mem_cons_self
  have hp := h.drop
  obtain ⟨hpc, h0⟩ := hp.head
  have hskip : skipspace m s = s + space.length := skip_append h hspace fun d hd => by
    obtain rfl : c = d := by simpa using hd
    exact (isword_iff.mp hc).left
  have hend : skip m isword (s + space.length) = s + space.length + (c :: w).length := skip_append hp hword hrest
  have hrs := hp.drop
  generalize s + space.length = p at *
  rw [parg, hskip]
  simp only [hpc, if_neg h0, if_neg (hquote c rfl), hend]
  cases rest
  case nil =>
    have hnul := hrs.nil
    have hpos : ¬p + (c :: w).length = p := by simp
    refine ⟨m, p + (c :: w).length, ?_, ⟨by simpa using hp, hrs, .inr rfl, fun _ _ => rfl⟩⟩
    rw [hnul, if_neg (by decide), pargCut, hnul, if_neg (by simp)]
  case cons d t =>
    obtain ⟨hd, hd0⟩ := hrs.head
    have hcut := hp.cut
    by_cases hhash : d = '#'.toUInt8
    case pos =>
      subst hhash
      have hpos : p + (c :: w).length ≠ p := by simp
      refine ⟨m.store (p + (c :: w).length) 0, p + (c :: w).length, ?_, ⟨hcut, hcut.terminator, .inr rfl, ?_⟩⟩
      · rw [hd, if_pos rfl, if_neg hpos.symm, pargCut, if_neg (by simp)]
      · exact fun x hx => Mem.store_ne (by omega)
    case neg =>
      refine ⟨m.store (p + (c :: w).length) 0, p + (c :: w).length + 1, ?_, ⟨hcut, ?_, .inl (Nat.lt_succ_self _), ?_⟩⟩
      · rw [hd, if_neg hhash, pargCut, if_pos (by rwa [hd])]
      · rw [behindWord, if_neg hhash]
        exact hrs.tail.frame fun x hx _ => Mem.store_ne (by omega)
      · exact fun x hx => Mem.store_ne (by omega)

-- A comment at the beginning ends the line, and there is no word.
theorem parg_comment (h : HoldsString m s ('#'.toUInt8 :: rest)) : parg m s = (m.store s 0, s, none) := by
  have hs := h.head.left
  have hskip : skipspace m s = s := skip_append (a := []) h nofun (by simp; decide)
  have hend : skip m isword s = s := skip_append (a := []) h nofun (by simp; decide)
  rw [parg, hskip]
  simp only [hs, hend, if_true]
  rw [if_neg (by decide), if_neg (by decide), pargCut, if_neg (by simp)]

end Parg
end Camellia.Shell
