import Mathlib.Algebra.Group.Nat.Defs
import Mathlib.Data.List.GetD
import Mathlib.Tactic.Common
import Mathlib.Logic.Function.Basic
import Mathlib.Order.Lattice

namespace Camellia

-- A flat, byte addressed memory. Addresses are unbounded here: every range the kernel works on is
-- required not to wrap, so the difference to 64 bit pointers is never observed.
abbrev Mem := ℕ → UInt8

namespace Mem

def store (m : Mem) (a : ℕ) (b : UInt8) : Mem :=
  Function.update m a b

-- What a copy of `n` bytes should do: the destination range receives the bytes which the source
-- range held before the copy, and nothing else changes.
def blit (m : Mem) (d s n : ℕ) : Mem :=
  fun a => if d ≤ a ∧ a < d + n then m (s + (a - d)) else m a

-- The bytes of the range `[a, a + n)`.
def slice (m : Mem) (a n : ℕ) : List UInt8 :=
  (List.range n).map (m <| a + ·)

-- A memory which holds the given bytes from address 0 on.
def ofList (bytes : List UInt8) : Mem :=
  (bytes.getD · 0)

-- The little endian number in the `n` bytes from `a` on.
def load (m : Mem) (a : ℕ) : (n : ℕ) → ℕ
  | 0     => 0
  | n + 1 => (m a).toNat + 256 * m.load (a + 1) n

-- A memory which consists of words of eight bytes.
def ofWords (words : ℕ → ℕ) : Mem :=
  fun a => UInt8.ofNat (words (a / 8) / 256 ^ (a % 8))

-- Writes the little endian number `w` to the `n` bytes from `a` on.
def storeNat (m : Mem) (a n w : ℕ) : Mem :=
  fun x => if a ≤ x ∧ x < a + n then UInt8.ofNat (w / 256 ^ (x - a)) else m x

-- Writes the bytes from address `a` on.
def write (m : Mem) (a : ℕ) (bytes : List UInt8) : Mem :=
  fun x => if a ≤ x ∧ x < a + bytes.length then bytes.getD (x - a) 0 else m x

-- `memset`
def fill (m : Mem) (a : ℕ) (b : UInt8) (n : ℕ) : Mem :=
  fun x => if a ≤ x ∧ x < a + n then b else m x

variable {m : Mem} {a d s n k w : ℕ} {b : UInt8}

theorem load_eq (h : ∀ i < n, m (a + i) = UInt8.ofNat (w / 256 ^ i)) :
    m.load a n = w % 256 ^ n := by
  induction n generalizing a w
  case zero => simp [load, Nat.mod_one]
  case succ n hi =>
    have h₀ : m a = UInt8.ofNat w := by simpa using h 0 (Nat.zero_lt_succ n)
    have hs : m.load (a + 1) n = w / 256 % 256 ^ n := by
      refine hi fun i hi => ?_
      have := h (i + 1) (Nat.succ_lt_succ hi)
      rw [Nat.div_div_eq_div_mul, ← Nat.pow_succ', ← this]
      congr 1
      omega
    rw [load, h₀, hs, Nat.pow_succ', Nat.mod_mul]
    simp

theorem load_ofWords {words : ℕ → ℕ} : (ofWords words).load (8 * k) 8 = words k % 256 ^ 8 := by
  refine load_eq fun i hi => ?_
  rw [ofWords, show (8 * k + i) / 8 = k by omega, show (8 * k + i) % 8 = i by omega]

theorem load_storeNat : (m.storeNat a n w).load a n = w % 256 ^ n :=
  load_eq fun i hi => by simp [storeNat, hi]

theorem storeNat_not_mem (h : ¬(a ≤ d ∧ d < a + n)) : m.storeNat a n w d = m d := by
  simp [storeNat, h]

theorem write_not_mem {bytes : List UInt8} (h : ¬(a ≤ d ∧ d < a + bytes.length)) :
    m.write a bytes d = m d := by
  simp [write, h]

@[simp]
theorem write_nil : m.write a [] = m := by
  funext x
  exact write_not_mem (by simp)

theorem write_append {bytes bytes' : List UInt8} :
    (m.write a bytes).write (a + bytes.length) bytes' = m.write a (bytes ++ bytes') := by
  funext x
  simp only [write, List.length_append]
  split_ifs with h₁ h₂ h₃ h₄
  · rw [List.getD_append_right _ _ _ _ (by omega)]
    congr 1
    omega
  · omega
  · rw [List.getD_append _ _ _ _ (by omega)]
  · omega
  · omega
  · rfl

theorem fill_not_mem (h : ¬(a ≤ d ∧ d < a + n)) : m.fill a b n d = m d := by
  simp [fill, h]

theorem load_congr {m' : Mem} (h : ∀ i < n, m' (a + i) = m (a + i)) : m'.load a n = m.load a n := by
  induction n generalizing a
  case zero => rfl
  case succ n hi =>
    have h₀ := h 0 (Nat.zero_lt_succ n)
    have hs : m'.load (a + 1) n = m.load (a + 1) n := hi fun i hi => by
      have := h (i + 1) (Nat.succ_lt_succ hi)
      rwa [Nat.add_right_comm, Nat.add_assoc]
    simp only [Nat.add_zero] at h₀
    simp [load, h₀, hs]

theorem load_storeNat_ne (h : a + n ≤ d ∨ d + k ≤ a) : (m.storeNat d k w).load a n = m.load a n :=
  load_congr fun i hi => storeNat_not_mem (by omega)

theorem load_fill_ne (h : a + n ≤ d ∨ d + k ≤ a) : (m.fill d b k).load a n = m.load a n :=
  load_congr fun i hi => fill_not_mem (by omega)

@[simp]
theorem store_self : (m.store a b) a = b := by
  simp [store]

theorem store_ne {a' : ℕ} (h : a' ≠ a) : (m.store a b) a' = m a' := by
  simp [store, h]

theorem store_apply (a' : ℕ) : (m.store a b) a' = if a' = a then b else m a' := by
  simp [store, Function.update_apply]

theorem blit_mem (h : d ≤ a ∧ a < d + n) : m.blit d s n a = m (s + (a - d)) := by
  simp [blit, h]

theorem blit_add (h : k < n) : m.blit d s n (d + k) = m (s + k) := by
  rw [blit_mem ⟨by omega, by omega⟩]
  congr 1
  omega

theorem blit_not_mem (h : ¬(d ≤ a ∧ a < d + n)) : m.blit d s n a = m a := by
  simp [blit, h]

@[simp]
theorem blit_zero : m.blit d s 0 = m := by
  funext a
  exact blit_not_mem (by omega)

@[simp]
theorem blit_self : m.blit d d n = m := by
  funext a
  by_cases h : d ≤ a ∧ a < d + n
  case neg => exact blit_not_mem h
  case pos =>
    rw [blit_mem h]
    congr 1
    omega

-- A copy may be done in two parts, first the lower one, as long as the first part does not destroy
-- the source of the second one.
theorem blit_blit (h : d ≤ s ∨ s + (n + k) ≤ d) :
    (m.blit d s n).blit (d + n) (s + n) k = m.blit d s (n + k) := by
  funext a
  simp only [blit]
  split_ifs <;> first | omega | (congr 1; omega) | rfl

theorem store_eq_blit : m.store d (m s) = m.blit d s 1 := by
  funext a
  by_cases h : a = d
  case pos =>
    subst h
    simp [blit]
  case neg =>
    rw [store_ne h, blit_not_mem (by omega)]

@[simp]
theorem length_slice : (m.slice a n).length = n := by
  simp [slice]

theorem getElem_slice (h : k < (m.slice a n).length) : (m.slice a n)[k] = m (a + k) := by
  simp [slice]

theorem slice_add : m.slice a (n + k) = m.slice a n ++ m.slice (a + n) k := by
  simp [slice, List.range_add, Function.comp_def, Nat.add_assoc]

@[simp]
theorem slice_ofList {bytes : List UInt8} : (ofList bytes).slice 0 bytes.length = bytes := by
  refine List.ext_getElem (by simp) fun i _ h => ?_
  simp [slice, ofList, h]

theorem slice_write {bytes : List UInt8} : (m.write a bytes).slice a bytes.length = bytes := by
  refine List.ext_getElem (by simp) fun i _ h => ?_
  simp [slice, write, h]

theorem slice_congr {m' : Mem} (h : ∀ i < n, m' (d + i) = m (s + i)) :
    m'.slice d n = m.slice s n := by
  simp only [slice, List.map_inj_left, List.mem_range]
  exact h

end Mem

-- The last loop of `memcpy`, which copies single bytes.
def memcpyBytes (m : Mem) (d s : ℕ) : ℕ → Mem
  | 0     => m
  | n + 1 => memcpyBytes (m.store d (m s)) (d + 1) (s + 1) n

-- `*(d.w)++ = *(s.w)++`: all eight bytes are read before the first one is written.
def memcpyWord (m : Mem) (d s : ℕ) : Mem :=
  fun a => if d ≤ a ∧ a < d + 8 then m (s + (a - d)) else m a

-- The loop of `memcpy` which copies words while at least eight bytes remain.
def memcpyWords (m : Mem) (d s : ℕ) : ℕ → Mem
  | n + 8 => memcpyWords (memcpyWord m d s) (d + 8) (s + 8) n
  | n     => memcpyBytes m d s n

-- The loop of `memcpy` which copies bytes until the destination is word aligned.
def memcpyAlign (m : Mem) (d s : ℕ) : ℕ → Mem
  | 0     => memcpyWords m d s 0
  | n + 1 =>
    if d % 8 ≠ 0 then
      memcpyAlign (m.store d (m s)) (d + 1) (s + 1) n
    else
      memcpyWords m d s (n + 1)

def memcpy (m : Mem) (dest src n : ℕ) : Mem :=
  if dest = src then m else memcpyAlign m dest src n

section Memcpy

variable {m : Mem} {d s n : ℕ}

theorem memcpyBytes_eq_blit (h : d ≤ s ∨ s + n ≤ d) : memcpyBytes m d s n = m.blit d s n := by
  induction n generalizing m d s
  case zero => simp [memcpyBytes]
  case succ n hi =>
    rw [memcpyBytes, hi (by omega), Mem.store_eq_blit, Mem.blit_blit (by omega), Nat.add_comm 1 n]

theorem memcpyWords_eq_blit (h : d ≤ s ∨ s + n ≤ d) : memcpyWords m d s n = m.blit d s n := by
  fun_induction memcpyWords m d s n
  case case1 m d s n hi =>
    have hw : memcpyWord m d s = m.blit d s 8 := rfl
    rw [hi (by omega), hw, Mem.blit_blit (by omega), Nat.add_comm 8 n]
  case case2 => exact memcpyBytes_eq_blit h

theorem memcpyAlign_eq_blit (h : d ≤ s ∨ s + n ≤ d) : memcpyAlign m d s n = m.blit d s n := by
  induction n generalizing m d s
  case zero => exact memcpyWords_eq_blit h
  case succ n hi =>
    rw [memcpyAlign]
    split
    · rw [hi (by omega), Mem.store_eq_blit, Mem.blit_blit (by omega), Nat.add_comm 1 n]
    · exact memcpyWords_eq_blit h

-- The three loops of `memcpy` run upwards, so they are right whenever no source byte is
-- overwritten before it was read.
theorem memcpy_eq_blit (h : d ≤ s ∨ s + n ≤ d) : memcpy m d s n = m.blit d s n := by
  rw [memcpy]
  split
  case isTrue he  => simp [he]
  case isFalse he => exact memcpyAlign_eq_blit h

-- Nothing but the destination is written, also if the ranges overlap.
theorem memcpyBytes_not_mem {a : ℕ} (h : ¬(d ≤ a ∧ a < d + n)) : memcpyBytes m d s n a = m a := by
  induction n generalizing m d s
  case zero => rfl
  case succ n hi => rw [memcpyBytes, hi (by omega), Mem.store_ne (by omega)]

theorem memcpyWords_not_mem {a : ℕ} (h : ¬(d ≤ a ∧ a < d + n)) : memcpyWords m d s n a = m a := by
  fun_induction memcpyWords m d s n
  case case1 m d s n hi => rw [hi (by omega), memcpyWord, if_neg (by omega)]
  case case2 => exact memcpyBytes_not_mem h

theorem memcpyAlign_not_mem {a : ℕ} (h : ¬(d ≤ a ∧ a < d + n)) : memcpyAlign m d s n a = m a := by
  induction n generalizing m d s
  case zero => exact memcpyWords_not_mem h
  case succ n hi =>
    rw [memcpyAlign]
    split
    · rw [hi (by omega), Mem.store_ne (by omega)]
    · exact memcpyWords_not_mem h

theorem memcpy_not_mem {a : ℕ} (h : ¬(d ≤ a ∧ a < d + n)) : memcpy m d s n a = m a := by
  rw [memcpy]
  split
  · rfl
  · exact memcpyAlign_not_mem h

end Memcpy

end Camellia
