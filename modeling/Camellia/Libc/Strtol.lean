import Mathlib.Algebra.Group.Int.Defs
import Mathlib.Data.List.TakeWhile
import Mathlib.Data.Nat.Notation
import Mathlib.Tactic.Common

namespace Camellia

def isspace (c : UInt8) : Bool :=
  c = ' '.toUInt8 ∨ c = 12 ∨ c = '\n'.toUInt8 ∨ c = '\r'.toUInt8 ∨ c = '\t'.toUInt8 ∨ c = 11

-- The digit which `strton` takes a character for.
def digitValue (c : UInt8) : Option ℕ :=
  if '0'.toUInt8 ≤ c ∧ c ≤ '9'.toUInt8 then some (c - '0'.toUInt8).toNat
  else if 'a'.toUInt8 ≤ c ∧ c ≤ 'z'.toUInt8 then some (c - ('a'.toUInt8 - 10)).toNat
  else if 'A'.toUInt8 ≤ c ∧ c ≤ 'Z'.toUInt8 then some (c - ('A'.toUInt8 - 10)).toNat
  else none

def isDigit (base : ℕ) (c : UInt8) : Bool :=
  (digitValue c).any (· < base)

section Strton

-- The loop of `strton`. A string ends in front of its NUL, and the results are `res` and `s`.
def strtonLoop (base : ℕ) : List UInt8 → Int64 → Int64 × List UInt8
  | [], res     => (res, [])
  | c :: s, res =>
    match digitValue c with
    | none       => (res, c :: s)
    | some digit => if base ≤ digit then (res, c :: s) else strtonLoop base s (res * .ofNat base + .ofNat digit)

def signed (s : List UInt8) : Bool :=
  s.head? = some '+'.toUInt8 ∨ s.head? = some '-'.toUInt8

def strtonSign (s : List UInt8) : Int64 :=
  if s.head? = some '-'.toUInt8 then -1 else 1

def behindSign (s : List UInt8) : List UInt8 :=
  if signed s then s.tail else s

-- A prefix for base 16, whatever comes behind it.
def marked (s : List UInt8) : Bool :=
  s.head? = some '0'.toUInt8 ∧ (s.tail.head? = some 'x'.toUInt8 ∨ s.tail.head? = some 'X'.toUInt8)

def strtonBase (base : ℕ) (s : List UInt8) : ℕ × List UInt8 :=
  if base ≠ 0 then (base, s)
  else if s.head? ≠ some '0'.toUInt8 then (10, s)
  else if marked s then (16, s.tail.tail)
  else (8, s.tail)

-- The number without its sign, what is behind it, and the sign.
def strton (s : List UInt8) (base : ℕ) : Int64 × List UInt8 × Int64 :=
  let s := s.dropWhile isspace
  let (b, t) := strtonBase base (behindSign s)
  let (res, fin) := strtonLoop b t 0
  (res, fin, strtonSign s)

-- The result, and where `*end` points to.
def strtol (s : List UInt8) (base : ℕ) : Int64 × List UInt8 :=
  let (n, fin, sign) := strton s base
  (n * sign, fin)

def strtoul (s : List UInt8) (base : ℕ) : UInt64 × List UInt8 :=
  let (n, fin, _) := strton s base
  (n.toUInt64, fin)

end Strton

section Subject

def value (base : ℕ) (digits : List UInt8) : ℕ :=
  digits.foldl (fun n c => n * base + (digitValue c).getD 0) 0

-- A prefix is one for base 16 only if a digit follows.
def prefixed (s : List UInt8) : Bool :=
  marked s ∧ s.tail.tail.head?.any (isDigit 16)

-- The base of a subject sequence, which is given by the sequence itself if `base` is 0, and its digits
-- together with what is behind them.
def subjectBase (base : ℕ) (s : List UInt8) : ℕ × List UInt8 :=
  if (base = 0 ∨ base = 16) ∧ prefixed s then (16, s.tail.tail)
  else if base = 0 then (if s.head? = some '0'.toUInt8 then 8 else 10, s)
  else (base, s)

-- The value of the longest subject sequence of a string, and what is behind it.
def subject (s : List UInt8) (base : ℕ) : Option (Int × List UInt8) :=
  let s := s.dropWhile isspace
  let (b, t) := subjectBase base (behindSign s)
  let n := value b (t.takeWhile (isDigit b))
  if (t.takeWhile (isDigit b)).isEmpty then
    none
  else
    some (if s.head? = some '-'.toUInt8 then -n else n, t.dropWhile (isDigit b))

def Fits (v : Int) : Prop :=
  -2 ^ 63 ≤ v ∧ v < 2 ^ 63

-- The standard leaves open what the result is if the value does not fit.
def Agrees (s : List UInt8) (base : ℕ) : Prop :=
  match subject s base with
  | none           => strtol s base = (0, s)
  | some (v, rest) => Fits v → (strtol s base).1.toInt = v ∧ (strtol s base).2 = rest

-- What `strton` takes into account.
def Handled (s : List UInt8) (base : ℕ) : Prop :=
  let t := behindSign (s.dropWhile isspace)
  match subject s base with
  | none        => t = s
  | some (v, _) => Fits v → ¬(base = 16 ∧ prefixed t) ∧ ¬(base = 0 ∧ marked t ∧ ¬prefixed t)

end Subject

variable {s t : List UInt8} {base n : ℕ} {c : UInt8}

theorem strtonLoop_eq : strtonLoop base s (.ofNat n) =
    (.ofNat ((s.takeWhile (isDigit base)).foldl (fun n c => n * base + (digitValue c).getD 0) n),
      s.dropWhile (isDigit base)) := by
  induction s generalizing n
  case nil => rfl
  case cons c s hi =>
    rw [strtonLoop]
    cases hd : digitValue c
    case none =>
      have hf : isDigit base c = false := by simp [isDigit, hd]
      simp [hf]
    case some d =>
      dsimp only
      split
      case isTrue h =>
        have hf : isDigit base c = false := by simpa [isDigit, hd] using h
        simp [hf]
      case isFalse h =>
        have ht : isDigit base c = true := by simpa [isDigit, hd] using h
        rw [← Int64.ofNat_mul, ← Int64.ofNat_add, hi, List.takeWhile_cons_of_pos ht, List.dropWhile_cons_of_pos ht,
          List.foldl_cons, hd, Option.getD_some]

theorem strtonLoop_zero : strtonLoop base s 0 = (.ofNat (value base (s.takeWhile (isDigit base))), s.dropWhile (isDigit base)) :=
  strtonLoop_eq (n := 0)

theorem strtonSign_eq : strtonSign s = .ofInt (if s.head? = some '-'.toUInt8 then -1 else 1) := by
  rw [strtonSign]
  split <;> rfl

-- What is read behind the prefix, as a number and the rest.
def digitsOf (p : ℕ × List UInt8) : ℕ × List UInt8 :=
  (value p.1 (p.2.takeWhile (isDigit p.1)), p.2.dropWhile (isDigit p.1))

def withSign (s : List UInt8) (n : ℕ) : Int :=
  if s.head? = some '-'.toUInt8 then -n else n

-- The number is that of the digits, without regard to overflows.
theorem strtol_eq : strtol s base =
    (.ofInt (withSign (s.dropWhile isspace) (digitsOf (strtonBase base (behindSign (s.dropWhile isspace)))).1),
      (digitsOf (strtonBase base (behindSign (s.dropWhile isspace)))).2) := by
  simp only [strtol, strton, strtonLoop_zero, strtonSign_eq, ← Int64.ofInt_eq_ofNat, ← Int64.ofInt_mul, withSign, digitsOf]
  congr 2
  split <;> simp

theorem subject_eq : subject s base =
    let p := subjectBase base (behindSign (s.dropWhile isspace))
    if (p.2.takeWhile (isDigit p.1)).isEmpty then none
    else some (withSign (s.dropWhile isspace) (digitsOf p).1, (digitsOf p).2) :=
  rfl

theorem marked_iff : marked t = true ↔
    ∃ x r, t = '0'.toUInt8 :: x :: r ∧ (x = 'x'.toUInt8 ∨ x = 'X'.toUInt8) := by
  cases t
  case nil => simp [marked]
  case cons z t =>
    cases t
    case nil => simp [marked]
    case cons x r => simp [marked]

theorem isDigit_x (h : c = 'x'.toUInt8 ∨ c = 'X'.toUInt8) (hb : base ≤ 16) : isDigit base c = false := by
  have hv : digitValue c = some 33 := by
    cases h
    case inl h => rw [h]; decide
    case inr h => rw [h]; decide
  rw [isDigit, hv, Option.any_some, decide_eq_false]
  omega

-- A leading zero is a digit of the base which it stands for.
theorem digitsOf_zero (h : s.head? = some '0'.toUInt8) : digitsOf (8, s.tail) = digitsOf (8, s) := by
  cases s
  case nil => simp at h
  case cons c s =>
    obtain rfl : c = '0'.toUInt8 := by simpa using h
    have hd : isDigit 8 '0'.toUInt8 = true := by decide
    simp only [digitsOf, List.tail_cons, List.takeWhile_cons_of_pos hd, List.dropWhile_cons_of_pos hd, value,
      List.foldl_cons, Nat.zero_mul, Nat.zero_add]
    rfl

-- Where the source agrees with the standard about the prefix.
theorem digitsOf_strtonBase (hb : base = 0 ∨ base = 8 ∨ base = 10 ∨ base = 16) (h₁₆ : ¬(base = 16 ∧ prefixed t = true))
    (h₀ : ¬(base = 0 ∧ marked t = true ∧ ¬prefixed t = true)) :
    digitsOf (strtonBase base t) = digitsOf (subjectBase base t) := by
  by_cases hz : base = 0
  case neg =>
    have hp : ¬((base = 0 ∨ base = 16) ∧ prefixed t = true) := fun h => h₁₆ ⟨h.left.resolve_left hz, h.right⟩
    rw [strtonBase, if_pos hz, subjectBase, if_neg hp, if_neg hz]
  case pos =>
    subst hz
    by_cases hp : prefixed t = true
    case pos =>
      have hm : marked t = true := by simp_all [prefixed]
      have hh : t.head? = some '0'.toUInt8 := by simp_all [marked]
      simp [strtonBase, subjectBase, hp, hm, hh]
    case neg =>
      have hm : ¬marked t = true := fun hm => h₀ ⟨rfl, hm, hp⟩
      by_cases hh : t.head? = some '0'.toUInt8
      case pos =>
        have := digitsOf_zero hh
        simpa [strtonBase, subjectBase, hp, hm, hh] using this
      case neg => simp [strtonBase, subjectBase, hp, hh]

-- For a prefix which only one of the two takes into account, they stop at different places.
theorem digitsOf_strtonBase_ne (h : base = 16 ∧ prefixed t = true ∨ base = 0 ∧ marked t = true ∧ ¬prefixed t = true) :
    (digitsOf (strtonBase base t)).2 ≠ (digitsOf (subjectBase base t)).2 := by
  have hz : isDigit 16 '0'.toUInt8 = true ∧ isDigit 8 '0'.toUInt8 = true := by decide
  intro he
  have hl := congrArg List.length he
  cases h
  case inl h =>
    obtain ⟨rfl, hp⟩ := h
    obtain ⟨hm, hd⟩ : marked t = true ∧ t.tail.tail.head?.any (isDigit 16) = true := by simpa [prefixed] using hp
    obtain ⟨x, r, rfl, hx⟩ := marked_iff.mp hm
    cases r
    case nil => simp at hd
    case cons d r =>
      have hd : isDigit 16 d = true := hd
      have := (List.dropWhile_sublist (isDigit 16) (l := r)).length_le
      simp [digitsOf, strtonBase, subjectBase, hp, hz, hd, isDigit_x hx] at hl
      omega
  case inr h =>
    obtain ⟨rfl, hm, hp⟩ := h
    obtain ⟨x, r, rfl, hx⟩ := marked_iff.mp hm
    have := (List.dropWhile_sublist (isDigit 16) (l := r)).length_le
    simp [digitsOf, strtonBase, subjectBase, hp, hm, hz, isDigit_x hx] at hl
    omega

theorem subject_none (h : subject s base = none) :
    ¬(base = 16 ∧ prefixed (behindSign (s.dropWhile isspace)) = true) ∧
      ¬(base = 0 ∧ marked (behindSign (s.dropWhile isspace)) = true) ∧
      digitsOf (subjectBase base (behindSign (s.dropWhile isspace))) = (0, behindSign (s.dropWhile isspace)) := by
  rw [subject_eq] at h
  generalize behindSign (s.dropWhile isspace) = t at *
  have he : ((subjectBase base t).2.takeWhile (isDigit (subjectBase base t).1)).isEmpty = true := by
    by_contra hn
    simp [hn] at h
  have hz : isDigit 16 '0'.toUInt8 = true ∧ isDigit 8 '0'.toUInt8 = true := by decide
  have hp : ¬((base = 0 ∨ base = 16) ∧ prefixed t = true) := by
    intro ⟨hb, hp⟩
    obtain ⟨hm, hd⟩ : marked t = true ∧ t.tail.tail.head?.any (isDigit 16) = true := by simpa [prefixed] using hp
    obtain ⟨x, r, rfl, hx⟩ := marked_iff.mp hm
    cases r
    case nil => simp at hd
    case cons d r =>
      have hd : isDigit 16 d = true := hd
      simp [subjectBase, hb, hp, hd] at he
  have hm : ¬(base = 0 ∧ marked t = true) := by
    intro ⟨hb, hm⟩
    obtain ⟨x, r, rfl, hx⟩ := marked_iff.mp hm
    simp [subjectBase, hb, not_and.mp hp (.inl hb), hz] at he
  refine ⟨fun h => hp ⟨.inr h.left, h.right⟩, hm, ?_⟩
  have h₂ : (subjectBase base t).2 = t := by
    rw [subjectBase, if_neg hp]
    split <;> rfl
  have htake := List.isEmpty_iff.mp he
  have happ := List.takeWhile_append_dropWhile (p := isDigit (subjectBase base t).1) (l := (subjectBase base t).2)
  rw [htake, List.nil_append, h₂] at happ
  rw [digitsOf, htake, h₂, happ]
  rfl

theorem toInt_withSign {v : Int} (h : Fits v) : (Int64.ofInt v).toInt = v :=
  Int64.toInt_ofInt_of_le h.left h.right

-- A prefix in front of hexadecimal digits is not skipped if the base is given, one in front of nothing is if the base
-- is not given, and the end is not put back to the start if there is nothing to read.
theorem strtol_agrees_iff (hb : base = 0 ∨ base = 8 ∨ base = 10 ∨ base = 16) : Agrees s base ↔ Handled s base := by
  rw [Agrees, Handled, strtol_eq]
  cases hs : subject s base
  case none =>
    have ⟨h₁₆, h₀, hd⟩ := subject_none hs
    rw [digitsOf_strtonBase hb h₁₆ fun h => h₀ ⟨h.left, h.right.left⟩, hd]
    have hz : withSign (s.dropWhile isspace) 0 = 0 := by simp [withSign]
    rw [hz, Prod.mk.injEq]
    exact and_iff_right rfl
  case some x =>
    obtain ⟨v, rest⟩ := x
    rw [subject_eq] at hs
    dsimp only at hs ⊢
    split_ifs at hs
    obtain ⟨rfl, rfl⟩ := Prod.mk.inj (Option.some.inj hs)
    refine forall_congr' fun hf => ?_
    constructor
    case mp =>
      intro ⟨_, he⟩
      refine ⟨fun h => digitsOf_strtonBase_ne (.inl h) he, fun h => digitsOf_strtonBase_ne (.inr h) he⟩
    case mpr =>
      intro ⟨h₁₆, h₀⟩
      rw [digitsOf_strtonBase hb h₁₆ h₀]
      exact ⟨toInt_withSign hf, rfl⟩

-- What the tests call: a string with white space and a prefix, and no base.
theorem strtol_agrees_iff_prefix : Agrees ("   0xCaF3hello".toList.map Char.toUInt8) 0 := by
  refine (strtol_agrees_iff (.inl rfl)).mpr ?_
  have hs : subject ("   0xCaF3hello".toList.map Char.toUInt8) 0 = some (0xCAF3, "hello".toList.map Char.toUInt8) := by
    decide +kernel
  rw [Handled, hs]
  exact fun _ => ⟨by decide +kernel, by decide +kernel⟩

-- "0x1F" in base 16 is 0, "0xg" in base 0 ends at the g, and "-" ends behind the sign.
theorem not_agrees_prefix : ¬Agrees ("0x1F".toList.map Char.toUInt8) 16 ∧ ¬Agrees ("0xg".toList.map Char.toUInt8) 0 ∧
    ¬Agrees ['-'.toUInt8] 10 := by
  refine ⟨fun h => ?_, fun h => ?_, fun h => ?_⟩
  · have hs : subject ("0x1F".toList.map Char.toUInt8) 16 = some (0x1F, []) := by decide +kernel
    rw [Agrees, hs] at h
    exact absurd (h ⟨by decide, by decide⟩).left (by decide +kernel)
  · have hs : subject ("0xg".toList.map Char.toUInt8) 0 = some (0, "xg".toList.map Char.toUInt8) := by decide +kernel
    rw [Agrees, hs] at h
    exact absurd (h ⟨by decide, by decide⟩).right (by decide +kernel)
  · have hs : subject ['-'.toUInt8] 10 = none := by decide +kernel
    rw [Agrees, hs] at h
    exact absurd h (by decide +kernel)

end Camellia
