import Camellia.Libk.Mem

namespace Camellia

-- A `char`, which is signed, as it is compared to an `int`.
def char (b : UInt8) : Int32 :=
  b.toInt8.toInt32

-- An `int` converted to a character.
def toChar (c : Int32) : UInt8 :=
  c.toInt8.toUInt8

-- `strlen`, where at most `n` characters are left in the address space.
def strlenLoop (m : Mem) (s : ℕ) : (n c : ℕ) → Option ℕ
  | 0, _     => none
  | n + 1, c => if m (s + c) ≠ 0 then strlenLoop m s n (c + 1) else some c

def strlen (m : Mem) (s : ℕ) : Option ℕ :=
  strlenLoop m s (2 ^ 64 - s) 0

-- The loop of `strrchr`, which goes on with the index `n - 1`. A pointer into the string is given by
-- its offset.
def strrchrLoop (m : Mem) (s : ℕ) (c : Int32) : (n : ℕ) → Option ℕ
  | 0     => none
  | i + 1 => if char (m (s + i)) = c then some i else strrchrLoop m s c i

-- The index of the first character which `strrchr` looks at is an `int`.
def strrchrStart (len : ℕ) : Int :=
  (Int32.ofNat (len + 1)).toInt

def strrchr (m : Mem) (s : ℕ) (c : Int32) : Option (Option ℕ) :=
  (strlen m s).map fun len => strrchrLoop m s c (strrchrStart len + 1).toNat

-- The loop of `strncmp`, with `n` iterations left.
def strncmpLoop (m : Mem) (s₁ s₂ : ℕ) : (n i : ℕ) → Int
  | 0, _     => 0
  | n + 1, i =>
    if char (m (s₁ + i)) < char (m (s₂ + i)) then -1
    else if char (m (s₂ + i)) < char (m (s₁ + i)) then 1
    else strncmpLoop m s₁ s₂ n (i + 1)

def strncmp (m : Mem) (s₁ s₂ n : ℕ) : Int :=
  strncmpLoop m s₁ s₂ n 0

-- The string at an address, without its NUL.
structure HoldsString (m : Mem) (s : ℕ) (str : List UInt8) : Prop where
  chars : ∀ i (h : i < str.length), m (s + i) = str[i]
  nul   : m (s + str.length) = 0
  not   : 0 ∉ str
  fits  : s + str.length < 2 ^ 64

-- Where a character occurs last, if its NUL belongs to the string.
def LastOccurrence (str : List UInt8) (c : UInt8) : Option ℕ → Prop
  | some i => (str ++ [0])[i]? = some c ∧ ∀ j, i < j → (str ++ [0])[j]? ≠ some c
  | none   => c ∉ str ++ [0]

-- The sign of the result tells how the first `n` characters compare. Their order is the lexicographic
-- one, since no character is less than NUL.
structure ComparesAs (n : ℕ) (a b : List UInt8) (result : Int) : Prop where
  neg : result < 0 ↔ a.take n < b.take n
  pos : 0 < result ↔ b.take n < a.take n

-- What `strrchr` looks at are the characters of the string only.
structure StrrchrWithin (m : Mem) (s : ℕ) (str : List UInt8) (c : Int32) : Prop where
  behind : strrchrStart str.length = str.length + 1 → char (m (s + (str.length + 1))) ≠ c
  short  : ∀ i : ℕ, strrchrStart str.length < i → (str ++ [0])[i]? ≠ some (toChar c)
  char   : toChar c ∈ str ++ [0] → char (toChar c) = c

-- The comparison is decided by the strings, and by characters which have the same sign.
structure StrncmpWithin (m : Mem) (s₁ s₂ n : ℕ) (a b : List UInt8) : Prop where
  behind : a = b → ∀ i < n, a.length < i → m (s₁ + i) = m (s₂ + i)
  sign   : ∀ k < n, (∀ j < k, m (s₁ + j) = m (s₂ + j) ∧ m (s₁ + j) ≠ 0) →
    (m (s₁ + k) < 128 ↔ m (s₂ + k) < 128)

-- The arguments of the two functions in a memory.
structure Arguments (m : Mem) (s s₁ s₂ : ℕ) (str a b : List UInt8) : Prop where
  str : HoldsString m s str
  fst : HoldsString m s₁ a
  snd : HoldsString m s₂ b

-- The results for two memories which hold the same arguments.
structure IgnoresRest (m m' : Mem) (s s₁ s₂ n : ℕ) (c : Int32) (str a b : List UInt8) : Prop where
  same  : strrchr m' s c = strrchr m s c
  last  : ∃ o, strrchr m s c = some o ∧ LastOccurrence str (toChar c) o
  sign  : ComparesAs n a b (strncmp m s₁ s₂ n)
  sign' : ComparesAs n a b (strncmp m' s₁ s₂ n)

variable {m m' : Mem} {s s₁ s₂ n i k : ℕ} {str a b : List UInt8} {c : Int32} {x y : UInt8}

theorem toInt_char : (char x).toInt = if x.toNat < 128 then (x.toNat : Int) else x.toNat - 256 := by
  have := x.toNat_lt
  rw [char, Int8.toInt_toInt32, ← Int8.toInt_toBitVec, UInt8.toBitVec_toInt8, BitVec.toInt_eq_toNat_bmod,
    UInt8.toNat_toBitVec, Int.bmod_def]
  split_ifs <;> omega

theorem char_lt_iff : char x < char y ↔
    (x < 128 ↔ y < 128) ∧ x < y ∨ ¬x < 128 ∧ y < 128 := by
  have := x.toNat_lt
  have := y.toNat_lt
  rw [Int32.lt_iff_toInt_lt, toInt_char, toInt_char, UInt8.lt_iff_toNat_lt, UInt8.lt_iff_toNat_lt, UInt8.lt_iff_toNat_lt]
  change _ ↔ (x.toNat < 128 ↔ y.toNat < 128) ∧ x.toNat < y.toNat ∨ ¬x.toNat < 128 ∧ y.toNat < 128
  split_ifs <;> omega

theorem toChar_char : toChar (char x) = x := by
  simp [toChar, char]

section Strlen

theorem strlenLoop_eq (h : HoldsString m s str) (hi : i ≤ str.length) (hn : str.length < n + i) :
    strlenLoop m s n i = some str.length := by
  induction n generalizing i
  case zero => omega
  case succ n ih =>
    rw [strlenLoop]
    by_cases he : i = str.length
    case pos => simp [he, h.nul]
    case neg =>
      have hlt := lt_of_le_of_ne hi he
      have hne : m (s + i) ≠ 0 := fun hz => h.not (hz ▸ h.chars i hlt ▸ List.getElem_mem hlt)
      rw [if_pos hne, ih hlt (by omega)]

theorem HoldsString.strlen (h : HoldsString m s str) : strlen m s = some str.length :=
  strlenLoop_eq h (Nat.zero_le _) (by have := h.fits; omega)

theorem HoldsString.getElem? (h : HoldsString m s str) :
    (str ++ [0])[i]? = if i ≤ str.length then some (m (s + i)) else none := by
  split_ifs with hi
  case neg => simpa using Nat.succ_le_of_lt (Nat.lt_of_not_le hi)
  case pos =>
    by_cases he : i = str.length
    case pos => simp [he, h.nul]
    case neg =>
      have hlt := lt_of_le_of_ne hi he
      rw [List.getElem?_append_left hlt, List.getElem?_eq_getElem hlt, h.chars i hlt]

theorem HoldsString.mem (h : HoldsString m s str) : x ∈ str ++ [0] ↔ ∃ i ≤ str.length, m (s + i) = x := by
  rw [List.mem_iff_getElem?]
  simp only [h.getElem?]
  constructor
  · rintro ⟨i, hi⟩
    split_ifs at hi with hle
    exact ⟨i, hle, Option.some_inj.mp hi⟩
  · rintro ⟨i, hi, rfl⟩
    exact ⟨i, by rw [if_pos hi]⟩

end Strlen

section Strrchr

theorem strrchrLoop_eq_none : strrchrLoop m s c n = none ↔ ∀ i < n, char (m (s + i)) ≠ c := by
  induction n
  case zero => simp [strrchrLoop]
  case succ n hi =>
    rw [strrchrLoop]
    split_ifs with h
    case pos => exact iff_of_false nofun fun hall => hall n (Nat.lt_succ_self n) h
    case neg =>
      rw [hi]
      constructor
      · intro hn i hlt
        obtain hlt | rfl := Nat.lt_succ_iff_lt_or_eq.mp hlt
        · exact hn i hlt
        · exact h
      · exact fun hn i hlt => hn i (Nat.lt_succ_of_lt hlt)

theorem strrchrLoop_eq_some : strrchrLoop m s c n = some k →
    k < n ∧ char (m (s + k)) = c ∧ ∀ i < n, k < i → char (m (s + i)) ≠ c := by
  induction n
  case zero => simp [strrchrLoop]
  case succ n hi =>
    rw [strrchrLoop]
    split_ifs with h
    case pos =>
      rintro ⟨⟩
      exact ⟨Nat.lt_succ_self k, h, fun i hi hn => absurd hi (by omega)⟩
    case neg =>
      intro hk
      obtain ⟨hlt, hc, hlast⟩ := hi hk
      refine ⟨Nat.lt_succ_of_lt hlt, hc, fun i hi hki => ?_⟩
      obtain hi | rfl := Nat.lt_succ_iff_lt_or_eq.mp hi
      · exact hlast i hi hki
      · exact h

theorem strrchrStart_le : strrchrStart n ≤ n + 1 := by
  rw [strrchrStart, Int32.toInt_ofNat', Int.bmod_def, Int32.size]
  split_ifs <;> omega

theorem strrchr_eq (h : HoldsString m s str) :
    strrchr m s c = some (strrchrLoop m s c (strrchrStart str.length + 1).toNat) := by
  rw [strrchr, h.strlen, Option.map_some]

-- The search begins behind the NUL.
theorem strrchr_iff (h : HoldsString m s str) :
    (∃ o, strrchr m s c = some o ∧ LastOccurrence str (toChar c) o) ↔ StrrchrWithin m s str c := by
  have hle := strrchrStart_le (n := str.length)
  rw [strrchr_eq h]
  simp only [Option.some_inj, exists_eq_left']
  cases ho : strrchrLoop m s c (strrchrStart str.length + 1).toNat
  case none =>
    rw [strrchrLoop_eq_none] at ho
    rw [LastOccurrence, h.mem]
    constructor
    case mp =>
      intro hn
      refine ⟨fun he => ho _ (by omega), fun i _ hi => hn ?_, fun hm => absurd (h.mem.mp hm) hn⟩
      exact h.mem.mp (List.mem_of_getElem? hi)
    case mpr =>
      rintro hw ⟨i, hi, hc⟩
      have hmem := h.mem.mpr ⟨i, hi, hc⟩
      by_cases hlt : strrchrStart str.length < i
      case pos => exact hw.short i hlt (by rw [h.getElem?, if_pos hi, hc])
      case neg =>
        refine ho i (by omega) ?_
        rw [hc]
        exact hw.char hmem
  case some k =>
    obtain ⟨hk, hc, hlast⟩ := strrchrLoop_eq_some ho
    have hx : toChar c = m (s + k) := by rw [← hc, toChar_char]
    rw [LastOccurrence, h.getElem?]
    constructor
    case mp =>
      rintro ⟨hk', hj⟩
      split_ifs at hk' with hks
      refine ⟨fun he => hlast _ (by omega) (by omega), fun i hi => hj i (by omega), fun _ => ?_⟩
      rw [hx, hc]
    case mpr =>
      intro hw
      have hks : k ≤ str.length := by
        by_contra hn
        obtain rfl : k = str.length + 1 := by omega
        exact hw.behind (by omega) hc
      rw [if_pos hks, hx]
      refine ⟨rfl, fun j hj => ?_⟩
      by_cases hlt : strrchrStart str.length < j
      case pos => exact hx ▸ hw.short j hlt
      case neg =>
        rw [h.getElem?]
        split_ifs
        case pos => exact fun he => hlast j (by omega) hj (by rw [Option.some_inj.mp he, hc])
        case neg => exact nofun

end Strrchr

section Strncmp

theorem strncmpLoop_succ : strncmpLoop m s₁ s₂ n (i + 1) = strncmpLoop m (s₁ + 1) (s₂ + 1) n i := by
  induction n generalizing i
  case zero => rfl
  case succ n hi =>
    rw [strncmpLoop, strncmpLoop, hi, Nat.add_comm i 1, Nat.add_assoc, Nat.add_assoc]

theorem strncmp_succ : strncmp m s₁ s₂ (n + 1) =
    if char (m s₁) < char (m s₂) then -1
    else if char (m s₂) < char (m s₁) then 1
    else strncmp m (s₁ + 1) (s₂ + 1) n := by
  rw [strncmp, strncmpLoop, strncmpLoop_succ, Nat.add_zero, Nat.add_zero]
  rfl

theorem char_trichotomy (h : ¬char x < char y) (h' : ¬char y < char x) : x = y := by
  have := Int32.le_antisymm (Int32.not_lt.mp h') (Int32.not_lt.mp h)
  rw [← toChar_char (x := x), this, toChar_char]

theorem strncmp_eq_zero : strncmp m s₁ s₂ n = 0 ↔ ∀ i < n, m (s₁ + i) = m (s₂ + i) := by
  induction n generalizing s₁ s₂
  case zero => simp [strncmp, strncmpLoop]
  case succ n hi =>
    have hshift : (∀ i < n + 1, m (s₁ + i) = m (s₂ + i)) ↔
        m s₁ = m s₂ ∧ ∀ i < n, m (s₁ + 1 + i) = m (s₂ + 1 + i) := by
      rw [Nat.forall_lt_succ_left]
      simp only [Nat.add_zero, Nat.add_assoc, Nat.add_comm 1]
    rw [strncmp_succ, hshift, ← hi]
    split_ifs with h h'
    case pos => simp [show m s₁ ≠ m s₂ from fun he => by simp [he] at h]
    case pos => simp [show m s₁ ≠ m s₂ from fun he => by simp [he] at h']
    case neg => simp [char_trichotomy h h']

theorem HoldsString.nil (h : HoldsString m s []) : m s = 0 :=
  h.nul

theorem HoldsString.head_eq (h₁ : HoldsString m s₁ str) (h₂ : HoldsString m s₂ str) : m s₁ = m s₂ := by
  have h := h₁.getElem? (i := 0)
  rw [h₂.getElem?] at h
  simpa using h.symm

theorem HoldsString.head (h : HoldsString m s (x :: str)) : m s = x ∧ x ≠ 0 :=
  ⟨h.chars 0 (Nat.zero_lt_succ _), fun hx => h.not (hx ▸ List.mem_cons_self)⟩

theorem HoldsString.tail (h : HoldsString m s (x :: str)) : HoldsString m (s + 1) str where
  chars i hi := by
    rw [Nat.add_assoc, Nat.add_comm 1]
    exact h.chars (i + 1) (Nat.succ_lt_succ hi)
  nul := by
    rw [Nat.add_assoc, Nat.add_comm 1]
    exact h.nul
  not hn := h.not (List.mem_cons_of_mem _ hn)
  fits := by
    have := h.fits
    rw [List.length_cons] at this
    omega

theorem HoldsString.drop (h : HoldsString m s (a ++ b)) : HoldsString m (s + a.length) b := by
  induction a generalizing s
  case nil => exact h
  case cons c a hi =>
    rw [List.length_cons, Nat.add_comm a.length, ← Nat.add_assoc]
    exact hi h.tail

theorem HoldsString.terminator (h : HoldsString m s str) : HoldsString m (s + str.length) [] where
  chars _ hi := absurd hi (Nat.not_lt_zero _)
  nul        := h.nul
  not        := List.not_mem_nil
  fits       := h.fits

theorem HoldsString.frame (h : HoldsString m s str) (hm : ∀ x, s ≤ x → x ≤ s + str.length → m' x = m x) :
    HoldsString m' s str where
  chars i hi := (hm _ (Nat.le_add_right s i) (by omega)).trans (h.chars i hi)
  nul        := (hm _ (Nat.le_add_right s _) le_rfl).trans h.nul
  not        := h.not
  fits       := h.fits

-- The string ends where a NUL is written.
theorem HoldsString.cut (h : HoldsString m s (a ++ b)) : HoldsString (m.store (s + a.length) 0) s a where
  chars i hi := by
    rw [Mem.store_ne (by omega), h.chars i (by rw [List.length_append]; omega), List.getElem_append_left hi]
  nul  := Mem.store_self
  not  := fun hn => h.not (List.mem_append_left b hn)
  fits := by
    have := h.fits
    rw [List.length_append] at this
    omega

-- Two strings are different if their first characters are, and they are compared as these are.
theorem lt_of_ne (h₁ : HoldsString m s₁ a) (h₂ : HoldsString m s₂ b) (hne : m s₁ ≠ m s₂) :
    a.take (n + 1) < b.take (n + 1) ↔ m s₁ < m s₂ := by
  cases a <;> cases b
  case nil.nil => exact absurd (h₁.nil.trans h₂.nil.symm) hne
  case nil.cons y b =>
    obtain ⟨hy, h0⟩ := h₂.head
    rw [h₁.nil, hy]
    exact iff_of_true (List.nil_lt_cons _ _) (UInt8.pos_iff_ne_zero.mpr h0)
  case cons.nil x a =>
    rw [h₂.nil]
    exact iff_of_false (List.not_lt_nil _) UInt8.not_lt_zero
  case cons.cons x a y b =>
    rw [h₁.head.left, h₂.head.left] at hne ⊢
    simp [List.cons_lt_cons_iff, hne]

-- The order of two characters and that of their bytes.
theorem char_lt_iff_lt :
    (char x < char y ↔ x < y) ∧ (char y < char x ↔ y < x) ↔ (x < 128 ↔ y < 128) := by
  rw [char_lt_iff, char_lt_iff]
  simp only [UInt8.lt_iff_toNat_lt, UInt8.reduceToNat]
  omega

theorem strncmp_sign (hne : m s₁ ≠ m s₂) :
    (strncmp m s₁ s₂ (n + 1) < 0 ↔ char (m s₁) < char (m s₂)) ∧
      (0 < strncmp m s₁ s₂ (n + 1) ↔ char (m s₂) < char (m s₁)) := by
  rw [strncmp_succ]
  split_ifs with h h'
  case pos => exact ⟨iff_of_true (by decide) h, iff_of_false (by decide) (Int32.lt_asymm h)⟩
  case pos => exact ⟨iff_of_false (by decide) h, iff_of_true (by decide) h'⟩
  case neg => exact absurd (char_trichotomy h h') hne

-- The first difference decides, and `strncmp` takes the other one for the greater character if
-- exactly one of them is negative.
theorem strncmp_iff_of_ne (h₁ : HoldsString m s₁ a) (h₂ : HoldsString m s₂ b) (hne : m s₁ ≠ m s₂) :
    ComparesAs (n + 1) a b (strncmp m s₁ s₂ (n + 1)) ↔ (m s₁ < 128 ↔ m s₂ < 128) := by
  obtain ⟨hneg, hpos⟩ := strncmp_sign (n := n) hne
  rw [← char_lt_iff_lt, ← hneg, ← hpos, ← lt_of_ne (n := n) h₁ h₂ hne, ← lt_of_ne (n := n) h₂ h₁ hne.symm]
  exact ⟨fun ⟨h, h'⟩ => ⟨h, h'⟩, fun ⟨h, h'⟩ => ⟨h, h'⟩⟩

theorem strncmpWithin_of_ne (h₁ : HoldsString m s₁ a) (h₂ : HoldsString m s₂ b) (hne : m s₁ ≠ m s₂) :
    StrncmpWithin m s₁ s₂ (n + 1) a b ↔ (m s₁ < 128 ↔ m s₂ < 128) := by
  constructor
  · exact fun h => h.sign 0 (Nat.zero_lt_succ n) nofun
  · intro h
    refine ⟨fun he => absurd (h₁.head_eq (he ▸ h₂)) hne, fun k hlt hk => ?_⟩
    cases k
    case zero => exact h
    case succ k => exact absurd (hk 0 (Nat.zero_lt_succ k)).left hne

-- Characters which are the same do not decide.
theorem strncmp_iff_of_eq (h₁ : HoldsString m s₁ (x :: a)) (h₂ : HoldsString m s₂ (x :: b)) :
    ComparesAs (n + 1) (x :: a) (x :: b) (strncmp m s₁ s₂ (n + 1)) ↔
      ComparesAs n a b (strncmp m (s₁ + 1) (s₂ + 1) n) := by
  have hirr : ¬char x < char x := fun h => Int32.lt_irrefl h
  have heq : strncmp m s₁ s₂ (n + 1) = strncmp m (s₁ + 1) (s₂ + 1) n := by
    rw [strncmp_succ, h₁.head.left, h₂.head.left, if_neg hirr, if_neg hirr]
  have hlt (a b : List UInt8) : (x :: a).take (n + 1) < (x :: b).take (n + 1) ↔ a.take n < b.take n := by
    simp
  rw [heq]
  exact ⟨fun h => ⟨h.neg.trans (hlt a b), h.pos.trans (hlt b a)⟩,
    fun h => ⟨h.neg.trans (hlt a b).symm, h.pos.trans (hlt b a).symm⟩⟩

theorem strncmpWithin_of_eq (h₁ : HoldsString m s₁ (x :: a)) (h₂ : HoldsString m s₂ (x :: b)) :
    StrncmpWithin m s₁ s₂ (n + 1) (x :: a) (x :: b) ↔ StrncmpWithin m (s₁ + 1) (s₂ + 1) n a b := by
  have hshift (s i : ℕ) : s + 1 + i = s + (i + 1) := by omega
  have hx := h₁.head
  have hy := h₂.head
  constructor
  · intro h
    refine ⟨fun he i hi hlt => ?_, fun k hk hj => ?_⟩
    · rw [hshift, hshift]
      exact h.behind (by rw [he]) (i + 1) (Nat.succ_lt_succ hi) (Nat.succ_lt_succ hlt)
    · rw [hshift, hshift]
      refine h.sign (k + 1) (Nat.succ_lt_succ hk) fun j hjk => ?_
      cases j
      case zero => exact ⟨hx.left.trans hy.left.symm, hx.left ▸ hx.right⟩
      case succ j => simpa only [hshift] using hj j (Nat.lt_of_succ_lt_succ hjk)
  · intro h
    refine ⟨fun he i hi hlt => ?_, fun k hk hj => ?_⟩
    · cases i
      case zero => exact absurd hlt (Nat.not_lt_zero _)
      case succ i =>
        simpa only [hshift] using h.behind (List.cons.inj he).right i (Nat.lt_of_succ_lt_succ hi)
          (Nat.lt_of_succ_lt_succ hlt)
    · cases k
      case zero => simp [hx.left, hy.left]
      case succ k =>
        simpa only [hshift] using h.sign k (Nat.lt_of_succ_lt_succ hk) fun j hjk => by
          simpa only [hshift] using hj (j + 1) (Nat.succ_lt_succ hjk)

theorem strncmp_iff (h₁ : HoldsString m s₁ a) (h₂ : HoldsString m s₂ b) :
    ComparesAs n a b (strncmp m s₁ s₂ n) ↔ StrncmpWithin m s₁ s₂ n a b := by
  induction n generalizing a b s₁ s₂
  case zero => exact iff_of_true ⟨by simp [strncmp, strncmpLoop], by simp [strncmp, strncmpLoop]⟩ ⟨by simp, by simp⟩
  case succ n hi =>
    by_cases hne : m s₁ = m s₂
    case neg => rw [strncmp_iff_of_ne h₁ h₂ hne, strncmpWithin_of_ne h₁ h₂ hne]
    case pos =>
      cases a <;> cases b
      case nil.nil =>
        have hz := @strncmp_eq_zero m s₁ s₂ (n + 1)
        constructor
        case mp =>
          intro h
          have hn := mt h.neg.mp (by simp)
          have hp := mt h.pos.mp (by simp)
          refine ⟨fun _ i hi _ => hz.mp (by omega) i hi, fun k hlt hk => ?_⟩
          cases k
          case zero => simp [h₁.nil, h₂.nil]
          case succ k => exact absurd h₁.nil (hk 0 (Nat.zero_lt_succ k)).right
        case mpr =>
          intro h
          have heq : strncmp m s₁ s₂ (n + 1) = 0 := hz.mpr fun i hi => by
            cases i
            case zero => exact hne
            case succ i => exact h.behind rfl (i + 1) hi (Nat.zero_lt_succ i)
          rw [heq]
          exact ⟨by simp, by simp⟩
      case nil.cons y b => exact absurd (h₂.head.left ▸ hne ▸ h₁.nil) h₂.head.right
      case cons.nil x a => exact absurd (h₁.head.left ▸ hne ▸ h₂.nil) h₁.head.right
      case cons.cons x a y b =>
        obtain rfl : x = y := by rw [← h₁.head.left, ← h₂.head.left, hne]
        rw [strncmp_iff_of_eq h₁ h₂, strncmpWithin_of_eq h₁ h₂, hi h₁.tail h₂.tail]

end Strncmp

theorem LastOccurrence.unique {o o' : Option ℕ} (h : LastOccurrence str x o) (h' : LastOccurrence str x o') :
    o = o' := by
  cases o <;> cases o'
  case none.none       => rfl
  case none.some i     => exact absurd (List.mem_of_getElem? h'.left) h
  case some.none i     => exact absurd (List.mem_of_getElem? h.left) h'
  case some.some i i'  =>
    have hle : ¬i < i' := fun hlt => h.right i' hlt h'.left
    have hge : ¬i' < i := fun hlt => h'.right i hlt h.left
    rw [Nat.le_antisymm (Nat.le_of_not_lt hge) (Nat.le_of_not_lt hle)]

-- Neither memory may have the character directly behind the terminator, or characters with different
-- signs where the comparison is decided, or differences behind the terminators.
theorem ignoresRest_iff (h : Arguments m s s₁ s₂ str a b) (h' : Arguments m' s s₁ s₂ str a b) :
    IgnoresRest m m' s s₁ s₂ n c str a b ↔
      (StrrchrWithin m s str c ∧ StrrchrWithin m' s str c) ∧
        StrncmpWithin m s₁ s₂ n a b ∧ StrncmpWithin m' s₁ s₂ n a b := by
  rw [← strrchr_iff h.str, ← strrchr_iff h'.str, ← strncmp_iff h.fst h.snd, ← strncmp_iff h'.fst h'.snd]
  constructor
  · exact fun ⟨hsame, hlast, hsign, hsign'⟩ => ⟨⟨hlast, hsame ▸ hlast⟩, hsign, hsign'⟩
  · rintro ⟨⟨⟨o, ho, hlast⟩, o', ho', hlast'⟩, hsign, hsign'⟩
    exact ⟨by rw [ho, ho', hlast.unique hlast'], ⟨o, ho, hlast⟩, hsign, hsign'⟩

-- "a" with a slash behind its NUL, and "a" with a "b" behind its NUL.
def staleBuffers : Mem :=
  .ofList ['a'.toUInt8, 0, '/'.toUInt8, 0, 'a'.toUInt8, 0, 'b'.toUInt8, 0]

theorem arguments_staleBuffers : Arguments staleBuffers 0 0 4 ['a'.toUInt8] ['a'.toUInt8] ['a'.toUInt8] where
  str := ⟨by decide, by decide, by decide, by decide⟩
  fst := ⟨by decide, by decide, by decide, by decide⟩
  snd := ⟨by decide, by decide, by decide, by decide⟩

-- The same strings, with something else behind the first one.
def freshBuffers : Mem :=
  .ofList ['a'.toUInt8, 0, 0, 0, 'a'.toUInt8, 0, 'b'.toUInt8, 0]

theorem arguments_freshBuffers : Arguments freshBuffers 0 0 4 ['a'.toUInt8] ['a'.toUInt8] ['a'.toUInt8] where
  str := ⟨by decide, by decide, by decide, by decide⟩
  fst := ⟨by decide, by decide, by decide, by decide⟩
  snd := ⟨by decide, by decide, by decide, by decide⟩

-- The only "a" is found, and both strings are the same up to their NULs.
theorem ignoresRest_iff_buffers :
    IgnoresRest staleBuffers freshBuffers 0 0 4 2 97 ['a'.toUInt8] ['a'.toUInt8] ['a'.toUInt8] := by
  have hshort (i : ℕ) (hi : strrchrStart 1 < i) : (['a'.toUInt8] ++ [0])[i]? ≠ some (toChar 97) := by
    have hs : strrchrStart 1 = 2 := by decide
    rw [List.getElem?_eq_none (by simp only [List.length_append, List.length_singleton]; omega)]
    exact nofun
  refine (ignoresRest_iff arguments_staleBuffers arguments_freshBuffers).mpr ⟨⟨?_, ?_⟩, ?_, ?_⟩
  · exact ⟨by decide, hshort, by decide⟩
  · exact ⟨by decide, hshort, by decide⟩
  · exact ⟨by decide, by decide⟩
  · exact ⟨by decide, by decide⟩

-- The slash is found although the string does not contain it, and the strings are not the same
-- anymore if what is behind their NULs is compared.
theorem not_ignoresRest_staleBuffers : strrchr staleBuffers 0 47 = some (some 2) ∧ strncmp staleBuffers 0 4 3 = -1 ∧
    Arguments staleBuffers 0 0 4 ['a'.toUInt8] ['a'.toUInt8] ['a'.toUInt8] ∧
    ¬IgnoresRest staleBuffers staleBuffers 0 0 4 3 47 ['a'.toUInt8] ['a'.toUInt8] ['a'.toUInt8] := by
  have hr : strrchr staleBuffers 0 47 = some (some 2) := by decide +kernel
  refine ⟨hr, by decide +kernel, arguments_staleBuffers, fun h => ?_⟩
  obtain ⟨o, ho, hl⟩ := h.last
  obtain rfl := Option.some_inj.mp (hr.symm.trans ho)
  exact absurd hl.left (by decide)

end Camellia
