import Camellia.Libk.Mem
import Mathlib.Data.List.GetD
import Mathlib.Data.Nat.Digits.Lemmas
import Mathlib.Tactic.IntervalCases

namespace Camellia

-- The character for a digit.
def digitChar (d : ℕ) : UInt8 :=
  UInt8.ofNat (48 + d)

def minus : UInt8 := 45

-- The loop of `output_uint` and `output_octal`, which fills a buffer from its end.
def numeralLoop (base : ℕ) : (pos : ℕ) → (n : ℕ) → List UInt8 → List UInt8
  | 0, _, buf       => buf
  | pos + 1, n, buf => if n = 0 then buf else numeralLoop base pos (n / base) (digitChar (n % base) :: buf)

-- `output_uint`, without a field width and a precision. The buffer has 24 bytes.
def outputUint (n : ℕ) (sign : Option UInt8) : List UInt8 :=
  sign.toList ++ if n = 0 then [digitChar 0] else numeralLoop 10 24 n []

-- What `%d` prints for an `int`.
def outputInt (ns : Int) : List UInt8 :=
  if ns < 0 then outputUint (-ns).toNat (some minus) else outputUint ns.toNat none

-- What `%d` prints for an argument of 32 bits.
def printfInt (n : ℕ) : List UInt8 :=
  outputInt <| (n : Int).bmod (2 ^ 32)

-- `snprintf(str, len, ..)` for a text which is not empty and a buffer which has room for at least the 0 at its
-- end. The pieces in which the text is printed do not matter (`Printf.snprintf_piece`).
def snprintf (m : Mem) (str len : ℕ) (text : List UInt8) : ℕ × Mem :=
  let written := text.take (len - 1)
  (text.length, (m.write str written).store (str + written.length) 0)

-- The decimal representation of a number.
def decimal (n : ℕ) : List UInt8 :=
  if n = 0 then [digitChar 0] else (Nat.digits 10 n).reverse.map digitChar

section Printf

variable {base pos n str len : ℕ} {m : Mem} {buf text : List UInt8}

theorem numeralLoop_eq (hb : 1 < base) (h : n < base ^ pos) :
    numeralLoop base pos n buf = (Nat.digits base n).reverse.map digitChar ++ buf := by
  induction pos generalizing n buf
  case zero =>
    obtain rfl : n = 0 := by simpa using h
    simp [numeralLoop]
  case succ pos hi =>
    by_cases hn : n = 0
    case pos => simp [numeralLoop, hn]
    case neg =>
      have hdiv : n / base < base ^ pos := Nat.div_lt_of_lt_mul (by rwa [pow_succ'] at h)
      rw [numeralLoop, if_neg hn, hi hdiv, Nat.digits_def' hb (Nat.pos_of_ne_zero hn)]
      simp

theorem outputUint_none (h : n < 10 ^ 24) : outputUint n none = decimal n := by
  by_cases hn : n = 0
  case pos => simp [outputUint, decimal, hn]
  case neg => simp [outputUint, decimal, hn, numeralLoop_eq (by decide) h]

-- `%d` prints a number which fits into an `int`, and for others there is a sign.
theorem printfInt_small (h : n < 2 ^ 31) : printfInt n = decimal n := by
  have hmod : (n : Int).bmod (2 ^ 32) = n := Int.bmod_eq_of_le (by omega) (by omega)
  rw [printfInt, hmod, outputInt, if_neg (Int.not_lt.mpr (Int.natCast_nonneg n)), Int.toNat_natCast,
    outputUint_none (h.trans (by norm_num))]

theorem printfInt_large (h : 2 ^ 31 ≤ n) (hn : n < 2 ^ 32) : minus ∈ printfInt n := by
  have hneg : (n : Int) - 2 ^ 32 < 0 := by omega
  have hmod : (n : Int).bmod (2 ^ 32) = n - 2 ^ 32 := by
    rw [Int.bmod_def, Int.emod_eq_of_lt (by omega) (by norm_cast), if_neg]
    · norm_num
    · norm_num
      exact_mod_cast h
  rw [printfInt, hmod, outputInt, if_pos hneg]
  simp [outputUint]

theorem minus_not_mem_decimal : minus ∉ decimal n := by
  have hdigit (d : ℕ) (hd : d < 10) : digitChar d ≠ minus := by
    interval_cases d <;> decide
  unfold decimal
  split
  · simp [digitChar, minus]
  · simp only [List.mem_map, List.mem_reverse, not_exists, not_and]
    exact fun d hd => hdigit d (Nat.digits_lt_base (by decide) hd)

-- A text which fits is stored together with the 0 at its end.
theorem snprintf_fits (h : text.length < len) :
    snprintf m str len text = (text.length, m.write str (text ++ [0])) := by
  rw [snprintf, List.take_of_length_le (by omega), Prod.mk.injEq]
  refine ⟨rfl, ?_⟩
  funext a
  rw [Mem.store_apply]
  simp only [Mem.write, List.length_append, List.length_singleton]
  split_ifs with ha h₁ h₂ h₃
  · simp [ha]
  · omega
  · rw [List.getD_append _ _ _ _ (by omega)]
  · omega
  · omega
  · rfl

end Printf
end Camellia
