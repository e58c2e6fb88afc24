import Camellia.Libk.Mem

namespace Camellia

-- `naive reverse copy`
def memmoveDown (m : Mem) (d s : ℕ) : ℕ → Mem
  | 0     => m
  | n + 1 => memmoveDown (m.store (d + n) (m (s + n))) d s n

-- The end of the source is compared as an address of 64 bits.
def memmove (m : Mem) (dest src n : ℕ) : Mem :=
  if dest ≤ src ∨ (src + n) % 2 ^ 64 < dest then
    memcpy m dest src n
  else
    memmoveDown m dest src n

-- The destination receives what the source held before, and nothing else changes.
structure CopiedRange (m : Mem) (d s n : ℕ) (m' : Mem) : Prop where
  bytes  : ∀ i < n, m' (d + i) = m (s + i)
  others : ∀ a, ¬(d ≤ a ∧ a < d + n) → m' a = m a

section Memmove

variable {m : Mem} {d s n k : ℕ}

theorem copiedRange_blit : CopiedRange m d s n (m.blit d s n) where
  bytes _ hi := Mem.blit_add hi
  others _ h := Mem.blit_not_mem h

-- A copy may also be done in two parts, first the upper one, if the destination is above the source.
theorem Mem.blit_upper_lower (h : s ≤ d) : (m.blit (d + n) (s + n) k).blit d s n = m.blit d s (n + k) := by
  funext a
  simp only [Mem.blit]
  split_ifs <;> first | omega | (congr 1; omega) | rfl

theorem memmoveDown_eq_blit (h : s ≤ d) : memmoveDown m d s n = m.blit d s n := by
  induction n generalizing m
  case zero => simp [memmoveDown]
  case succ n hi => rw [memmoveDown, hi, Mem.store_eq_blit, Mem.blit_upper_lower h]

theorem memmove_eq_blit (hs : s + n ≤ 2 ^ 64) (hd : d + n ≤ 2 ^ 64) : memmove m d s n = m.blit d s n := by
  rw [memmove]
  split
  case isTrue h =>
    refine memcpy_eq_blit (h.elim .inl fun hlt => ?_)
    by_cases he : s + n = 2 ^ 64
    case pos => exact .inl (Nat.le_of_add_le_add_right (he ▸ hd))
    case neg =>
      rw [Nat.mod_eq_of_lt (lt_of_le_of_ne hs he)] at hlt
      exact .inr hlt.le
  case isFalse h => exact memmoveDown_eq_blit (by omega)

-- Both functions copy as if the source was read as a whole first: `memmove` for all ranges, and `memcpy` whenever the
-- destination does not begin inside of the source.
theorem memmove_memcpy_copied (hs : s + n ≤ 2 ^ 64) (hd : d + n ≤ 2 ^ 64) :
    CopiedRange m d s n (memmove m d s n) ∧
      (d ≤ s ∨ s + n ≤ d ∨ d + n ≤ s → CopiedRange m d s n (memcpy m d s n)) := by
  refine ⟨?_, fun h => ?_⟩
  · rw [memmove_eq_blit hs hd]
    exact copiedRange_blit
  · rw [memcpy_eq_blit (by omega)]
    exact copiedRange_blit

-- Nine bytes are moved up by three, to an address which is not aligned.
theorem memmove_memcpy_copied_up :
    (memmove (.ofList [1, 2, 3, 4, 5, 6, 7, 8, 9]) 3 0 9).slice 3 9 = [1, 2, 3, 4, 5, 6, 7, 8, 9] :=
  (Mem.slice_congr (memmove_memcpy_copied (by decide) (by decide)).left.bytes).trans Mem.slice_ofList

end Memmove
end Camellia
