import Mathlib.Data.Nat.Bitwise
import Mathlib.Tactic.Common

-- Bits packed into bytes.
abbrev Bitmap := ℕ → UInt8

namespace Bitmap

def mask (i : ℕ) : UInt8 :=
  UInt8.ofNat (2 ^ (i % 8))

def get (b : Bitmap) (i : ℕ) : Bool :=
  b (i / 8) &&& mask i ≠ 0

def set (b : Bitmap) (i : ℕ) (v : Bool) : Bitmap :=
  Function.update b (i / 8) (if v then b (i / 8) ||| mask i else b (i / 8) &&& ~~~mask i)

-- The `n` bits from `i` on get the same value.
def setRange (b : Bitmap) (i : ℕ) (v : Bool) : (n : ℕ) → Bitmap
  | 0     => b
  | n + 1 => (b.setRange i v n).set (i + n) v

variable {b b' : Bitmap} {i j n : ℕ} {v : Bool}

theorem mask_toNat : (mask i).toNat = 2 ^ (i % 8) := by
  have : 2 ^ (i % 8) < 2 ^ 8 := Nat.pow_lt_pow_right (by decide) (Nat.mod_lt i (by decide))
  simpa [mask] using this

theorem get_eq_testBit : b.get i = (b (i / 8)).toNat.testBit (i % 8) := by
  have h : (b (i / 8) &&& mask i).toNat = ((b (i / 8)).toNat.testBit (i % 8)).toNat * 2 ^ (i % 8) := by
    rw [UInt8.toNat_and, mask_toNat, Nat.and_two_pow]
  have hz : b (i / 8) &&& mask i ≠ 0 ↔ (b (i / 8) &&& mask i).toNat ≠ 0 :=
    UInt8.toNat_inj.not.symm
  rw [h] at hz
  refine Bool.eq_iff_iff.mpr ?_
  rw [get, decide_eq_true_eq, hz]
  cases (b (i / 8)).toNat.testBit (i % 8) <;> simp

theorem set_toNat_testBit {k : ℕ} (hk : k < 8) :
    ((b.set i v) (i / 8)).toNat.testBit k =
      if k = i % 8 then v else (b (i / 8)).toNat.testBit k := by
  simp only [set, Function.update_self]
  cases v
  case true =>
    rw [if_pos rfl, UInt8.toNat_or, mask_toNat, Nat.testBit_or, Nat.testBit_two_pow]
    by_cases h : k = i % 8
    case pos => simp [h]
    case neg => simp [h, Ne.symm h]
  case false =>
    have hn : (~~~mask i).toNat = 2 ^ 8 - (2 ^ (i % 8) + 1) := by
      rw [UInt8.toNat_not, mask_toNat, UInt8.size]
      omega
    have hlt : 2 ^ (i % 8) < 2 ^ 8 := Nat.pow_lt_pow_right (by decide) (Nat.mod_lt i (by decide))
    rw [if_neg (by decide), UInt8.toNat_and, hn, Nat.testBit_and, Nat.testBit_two_pow_sub_succ hlt,
      Nat.testBit_two_pow]
    by_cases h : k = i % 8
    case pos => simp [h]
    case neg => simp [h, Ne.symm h, hk]

theorem get_set : (b.set i v).get j = if j = i then v else b.get j := by
  rw [get_eq_testBit, get_eq_testBit]
  by_cases hd : j / 8 = i / 8
  case pos =>
    rw [hd, set_toNat_testBit (Nat.mod_lt j (by decide))]
    by_cases h : j = i
    case pos => simp [h]
    case neg => rw [if_neg h, if_neg (by omega)]
  case neg =>
    have h : j ≠ i := fun h => hd (by rw [h])
    simp [set, Function.update_of_ne hd, h]

theorem get_setRange : (b.setRange i v n).get j = if i ≤ j ∧ j < i + n then v else b.get j := by
  induction n
  case zero => rw [setRange, if_neg (by omega)]
  case succ n hi =>
    rw [setRange, get_set, hi]
    by_cases h : j = i + n
    case pos => rw [if_pos h, if_pos (by omega)]
    case neg =>
      rw [if_neg h]
      exact if_congr (by omega) rfl rfl

theorem ext_get (h : ∀ i, b.get i = b'.get i) : b = b' := by
  funext n
  refine UInt8.toNat_inj.mp (Nat.eq_of_testBit_eq fun k => ?_)
  by_cases hk : k < 8
  case pos =>
    have := h (8 * n + k)
    rw [get_eq_testBit, get_eq_testBit] at this
    rwa [show (8 * n + k) / 8 = n by omega, show (8 * n + k) % 8 = k by omega] at this
  case neg =>
    have hlt : ∀ x : UInt8, x.toNat < 2 ^ k := fun x =>
      lt_of_lt_of_le x.toNat_lt (Nat.pow_le_pow_right (by decide) (not_lt.mp hk))
    rw [Nat.testBit_lt_two_pow (hlt _), Nat.testBit_lt_two_pow (hlt _)]

end Bitmap
