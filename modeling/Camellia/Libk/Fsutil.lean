import Camellia.Fault
import Camellia.Lib.Word
import Mathlib.Algebra.Group.Nat.Defs

namespace Camellia

def fsNormslice (offset : Int) (length max : ℕ) (expand : Bool) : Except Fault (ℕ × ℕ) := do
  unless max < 2 ^ 63 do throw <| .assert .fsNormsliceMax
  -- Negative offsets are relative to EOF + 1.
  let offset := if offset < 0 then offset + max + 1 else offset
  let (offset, length) :=
    if offset < 0 then
      ((max : Int), 0)
    else if expand then
      (offset, length)
    else if offset ≤ max then
      (offset, min length (max - offset.toNat))
    else
      ((max : Int), 0)
  unless 0 ≤ offset do throw <| .assert .fsNormsliceOffset
  unless !expand → offset + length ≤ max do throw <| .assert .fsNormsliceEnd
  return (offset.toNat, length)

-- `fs_normslice` with the machine integers of the source.
def fsNormslice64 (offset : Int64) (length max : UInt64) (expand : Bool) : Except Fault (Int64 × UInt64) := do
  unless max ≤ Int64.maxValue.toUInt64 do throw <| .assert .fsNormsliceMax
  let offset := if offset < 0 then (offset.toUInt64 + (max + 1)).toInt64 else offset
  let (offset, length) :=
    if offset < 0 then
      (max.toInt64, 0)
    else if expand then
      (offset, length)
    else if offset.toUInt64 ≤ max then
      (offset, min length (max - offset.toUInt64))
    else
      (max.toInt64, 0)
  unless 0 ≤ offset do throw <| .assert .fsNormsliceOffset
  unless !expand → offset.toUInt64 + length ≤ max do throw <| .assert .fsNormsliceEnd
  return (offset, length)

-- The slice which fsutil.h and the comments of `fs_normslice` describe, in unbounded integers.
def documentedSlice (offset : Int) (length max : ℕ) (expand : Bool) : Int × ℕ :=
  let start := if 0 ≤ offset then offset else offset + max + 1
  if expand = true ∧ 0 ≤ start then
    (start, length)
  else if expand = false ∧ 0 ≤ start ∧ start ≤ max then
    (start, min length (max - start.toNat))
  else
    (max, 0)

-- Where a slice of a file with `max` bytes starts. What starts in front of the file or behind it is
-- moved to its end.
def sliceStart (max : ℕ) (offset : Int) : ℕ :=
  let start := if offset < 0 then offset + max + 1 else offset
  if 0 ≤ start ∧ start ≤ max then start.toNat else max

section Normslice

variable {offset : Int} {length max : ℕ}

theorem sliceStart_le (max : ℕ) (offset : Int) : sliceStart max offset ≤ max := by
  unfold sliceStart
  grind

-- What `fs_normslice` makes of a slice of a file which cannot grow.
theorem fsNormslice_slice (offset : Int) (length : ℕ) (hm : max < 2 ^ 63) : fsNormslice offset length max false =
    .ok (sliceStart max offset, min length (max - sliceStart max offset)) := by
  simp only [fsNormslice, sliceStart, hm, if_true, Bool.not_false, forall_const, bind, Except.bind, pure,
    Except.pure]
  grind

end Normslice

section Words

theorem toInt_wrap {offset : Int64} {max : UInt64} (ho : offset.toInt < 0) (hm : max.toNat < 2 ^ 63) :
    (offset.toUInt64 + (max + 1)).toInt64.toInt = offset.toInt + max.toNat + 1 := by
  have hx := toNat_toUInt64 offset
  have := offset.le_toInt
  have hs : (offset.toUInt64 + (max + 1)).toNat = (offset.toUInt64.toNat + (max.toNat + 1)) % 2 ^ 64 := by
    simp [UInt64.toNat_add]
  rw [toInt_toInt64, hs]
  split_ifs <;> omega

-- No sum wraps, as long as the file is not larger than the largest offset.
theorem fsNormslice64_eq (offset : Int64) (length max : UInt64) (expand : Bool) (hm : max.toNat < 2 ^ 63) :
    ∃ o l, fsNormslice64 offset length max expand = .ok (o, l) ∧ 0 ≤ o.toInt ∧
      fsNormslice offset.toInt length.toNat max.toNat expand = .ok (o.toInt.toNat, l.toNat) := by
  have hmax : max ≤ Int64.maxValue.toUInt64 := by
    rw [UInt64.le_iff_toNat_le, show Int64.maxValue.toUInt64.toNat = 2 ^ 63 - 1 by decide]
    omega
  have hz : (0 : Int64).toInt = 0 := by decide
  have hstart : (if offset < 0 then (offset.toUInt64 + (max + 1)).toInt64 else offset).toInt =
      if offset.toInt < 0 then offset.toInt + max.toNat + 1 else offset.toInt := by
    simp only [Int64.lt_iff_toInt_lt, hz]
    split_ifs with h
    · exact toInt_wrap h hm
    · rfl
  unfold fsNormslice64 fsNormslice
  rw [← hstart]
  generalize (if offset < 0 then (offset.toUInt64 + (max + 1)).toInt64 else offset) = start
  have hend : max.toInt64.toInt = max.toNat := toInt_toInt64_of_lt hm
  have heof : max.toInt64.toUInt64 = max := UInt64.toUInt64_toInt64 max
  simp only [hmax, hm, if_true, Int64.lt_iff_toInt_lt, Int64.le_iff_toInt_le, UInt64.le_iff_toNat_le, hz]
  by_cases h₁ : start.toInt < 0
  case pos =>
    refine ⟨max.toInt64, 0, ?_, by omega, ?_⟩
    · simp only [h₁, if_true, hend, heof, bind, Except.bind, pure, Except.pure, Int.natCast_nonneg]
      simp
    · simp only [h₁, if_true, hend, bind, Except.bind, pure, Except.pure, Int.natCast_nonneg]
      simp
  have hs := toNat_toUInt64_of_nonneg (Int.not_lt.mp h₁)
  cases expand
  case true =>
    refine ⟨start, length, ?_, by omega, ?_⟩ <;> simp [h₁, Int.not_lt.mp h₁, pure, Except.pure]
  case false =>
    by_cases h₂ : start.toUInt64.toNat ≤ max.toNat
    case neg =>
      have h₃ : ¬start.toInt ≤ max.toNat := by omega
      refine ⟨max.toInt64, 0, ?_, by omega, ?_⟩
      · simp [h₁, h₂, hend, pure, Except.pure]
      · simp [h₁, h₃, hend, pure, Except.pure, -Int64.toNat_toInt]
    case pos =>
      have h₃ : start.toInt ≤ max.toNat := by omega
      have hsub : (max - start.toUInt64).toNat = max.toNat - start.toInt.toNat := by
        rw [UInt64.toNat_sub_of_le _ _ h₂]
        omega
      have hmin : (min length (max - start.toUInt64)).toNat = min length.toNat (max.toNat - start.toInt.toNat) := by
        rw [← hsub, Nat.min_def]
        show (if length ≤ max - start.toUInt64 then length else max - start.toUInt64).toNat = _
        simp only [UInt64.le_iff_toNat_le]
        split_ifs <;> rfl
      have hsum : (start.toUInt64 + min length (max - start.toUInt64)).toNat ≤ max.toNat := by
        rw [UInt64.toNat_add, hmin]
        omega
      refine ⟨start, min length (max - start.toUInt64), ?_, by omega, ?_⟩
      · simp only [h₁, h₂, hsum, Int.not_lt.mp h₁, bind, Except.bind, pure, Except.pure, if_true, if_false,
          Bool.false_eq_true, implies_true]
      · rw [hmin]
        have : min length.toNat (max.toNat - start.toInt.toNat) ≤ max.toNat - start.toInt.toNat :=
          Nat.min_le_right _ _
        simp only [h₁, h₃, Int.not_lt.mp h₁, bind, Except.bind, pure, Except.pure, if_true, if_false,
          Bool.false_eq_true, Bool.not_false]
        rw [if_pos fun _ => by omega]

theorem fsNormslice_documented {max : ℕ} (offset : Int) (length : ℕ) (expand : Bool) (hm : max < 2 ^ 63) :
    fsNormslice offset length max expand =
      .ok ((documentedSlice offset length max expand).1.toNat, (documentedSlice offset length max expand).2) := by
  simp only [fsNormslice, documentedSlice, hm, if_true, bind, Except.bind, pure, Except.pure]
  cases expand <;> grind

theorem documentedSlice_nonneg (offset : Int) (length max : ℕ) (expand : Bool) :
    0 ≤ (documentedSlice offset length max expand).1 := by
  unfold documentedSlice
  grind

theorem documentedSlice_le (offset : Int) (length max : ℕ) :
    (documentedSlice offset length max false).1 + (documentedSlice offset length max false).2 ≤ max := by
  unfold documentedSlice
  grind

theorem documentedSlice_neg {n max : ℕ} (length : ℕ) (expand : Bool) (hn : n ≤ max) :
    (documentedSlice (-(n + 1)) length max expand).1 = max - n ∧
      (expand = false → (documentedSlice (-(n + 1)) length max expand).2 = min length n) := by
  unfold documentedSlice
  grind

theorem fsNormslice64_documented (offset : Int64) (length max : UInt64) (expand : Bool)
    (hm : max.toNat < 2 ^ 63) :
    ∃ o l, fsNormslice64 offset length max expand = .ok (o, l) ∧
      (o.toInt, l.toNat) = documentedSlice offset.toInt length.toNat max.toNat expand ∧
      (expand = false → 0 ≤ o.toInt ∧ o.toInt + l.toNat ≤ max.toNat) ∧
      ∀ n : ℕ, n ≤ max.toNat → offset.toInt = -(n + 1) →
        o.toInt = max.toNat - n ∧ (expand = false → l.toNat = min length.toNat n) := by
  have ⟨o, l, ho, hnn, heq⟩ := fsNormslice64_eq offset length max expand hm
  rw [fsNormslice_documented _ _ _ hm, Except.ok.injEq, Prod.mk.injEq] at heq
  have hd := documentedSlice_nonneg offset.toInt length.toNat max.toNat expand
  have h₁ : o.toInt = (documentedSlice offset.toInt length.toNat max.toNat expand).1 := by omega
  refine ⟨o, l, ho, Prod.ext h₁ heq.2.symm, ?_, ?_⟩
  · rintro rfl
    exact ⟨hnn, h₁ ▸ heq.2 ▸ documentedSlice_le ..⟩
  · intro n hn hoff
    rw [h₁, ← heq.2, hoff]
    exact documentedSlice_neg _ _ hn

theorem fsNormslice64_documented_tail : ∃ o l, fsNormslice64 (-3) 100 10 false = .ok (o, l) ∧
      (o.toInt, l.toNat) = documentedSlice (-3) 100 10 false ∧
      (false = false → 0 ≤ o.toInt ∧ o.toInt + l.toNat ≤ 10) ∧
      ∀ n : ℕ, n ≤ 10 → (-3 : Int) = -(n + 1) → o.toInt = 10 - n ∧ (false = false → l.toNat = min 100 n) :=
  fsNormslice64_documented (-3) 100 10 false (by decide)

end Words
end Camellia
