import Mathlib.Algebra.Group.Int.Defs
import Mathlib.Algebra.Group.Nat.Defs
import Mathlib.Tactic.Common

-- The numbers which stand for the same machine word with and without a sign.
section Word

theorem toInt_toInt64 (x : UInt64) :
    x.toInt64.toInt = if x.toNat < 2 ^ 63 then (x.toNat : Int) else x.toNat - 2 ^ 64 := by
  have := x.toNat_lt
  rw [← Int64.toInt_toBitVec, UInt64.toBitVec_toInt64, BitVec.toInt_eq_toNat_bmod, UInt64.toNat_toBitVec,
    Int.bmod_def]
  split_ifs <;> omega

theorem toNat_toUInt64 (x : Int64) : (x.toUInt64.toNat : Int) = x.toInt % 2 ^ 64 := by
  have h := toInt_toInt64 x.toUInt64
  have := x.toUInt64.toNat_lt
  rw [Int64.toInt64_toUInt64] at h
  rw [h]
  split_ifs <;> omega

theorem toNat_toUInt64_of_nonneg {x : Int64} (h : 0 ≤ x.toInt) : (x.toUInt64.toNat : Int) = x.toInt := by
  have := toNat_toUInt64 x
  have := x.toInt_lt
  omega

theorem toInt_toInt64_of_lt {x : UInt64} (h : x.toNat < 2 ^ 63) : x.toInt64.toInt = x.toNat := by
  rw [toInt_toInt64, if_pos h]

end Word
