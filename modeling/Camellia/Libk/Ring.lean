import Camellia.Libk.Mem
import Mathlib.Data.List.Basic

namespace Camellia

-- `ring_t`, where one byte of the buffer always stays free. Both positions are inside of the buffer.
structure Ring where
  buf      : Mem
  capacity : ℕ
  head     : ℕ
  tail     : ℕ
  head_lt  : head < capacity
  tail_lt  : tail < capacity

namespace Ring

-- An empty ring in a buffer which was just allocated.
def new (buf : Mem) (capacity : ℕ) (h : 0 < capacity) : Ring :=
  ⟨buf, capacity, 0, 0, h, h⟩

def atEnd (r : Ring) : Prop :=
  r.head + 1 = r.tail ∨ r.head + 1 = r.capacity ∧ r.tail = 0

instance (r : Ring) : Decidable r.atEnd :=
  inferInstanceAs <| Decidable (_ ∨ _)

def used (r : Ring) : ℕ :=
  if r.tail ≤ r.head then r.head - r.tail else r.head + r.capacity - r.tail

def avail (r : Ring) : ℕ :=
  r.capacity - r.used

-- `ring_put1b`
def put1b (r : Ring) (byte : UInt8) : Ring :=
  if r.atEnd then
    r
  else { r with
    buf     := r.buf.store r.head byte
    head    := if r.capacity ≤ r.head + 1 then 0 else r.head + 1
    head_lt := by have := r.head_lt; split <;> omega
  }

def put (r : Ring) (bytes : List UInt8) : Ring :=
  bytes.foldl put1b r

-- `ring_contig`, where the bytes behind the returned pointer are returned.
def contig (r : Ring) (len : ℕ) : List UInt8 × Ring :=
  let avail := if r.tail ≤ r.head then r.head - r.tail else r.capacity - r.tail
  let len := min len avail
  (r.buf.slice r.tail len, { r with
    tail    := if r.capacity ≤ r.tail + len then 0 else r.tail + len
    tail_lt := by have := r.head_lt; split <;> omega
  })

def get (r : Ring) (len : ℕ) : List UInt8 × Ring :=
  let (bytes₁, r) := r.contig len
  let (bytes₂, r) := r.contig (len - bytes₁.length)
  (bytes₁ ++ bytes₂, r)

-- The bytes in the ring, from the oldest to the newest.
def contents (r : Ring) : List UInt8 :=
  (List.range r.used).map fun i => r.buf ((r.tail + i) % r.capacity)

variable {r : Ring} {byte : UInt8} {bytes : List UInt8} {len : ℕ}

@[simp]
theorem length_contents : r.contents.length = r.used := by
  simp [contents]

theorem used_lt : r.used < r.capacity := by
  have := r.head_lt
  have := r.tail_lt
  unfold used
  split <;> omega

theorem atEnd_iff : r.atEnd ↔ r.used + 1 = r.capacity := by
  have := r.head_lt
  have := r.tail_lt
  unfold atEnd used
  split <;> omega

@[simp]
theorem contents_new {buf : Mem} {capacity : ℕ} {h : 0 < capacity} : (new buf capacity h).contents = [] := by
  simp [contents, new, used]

theorem put1b_of_atEnd (h : r.atEnd) : r.put1b byte = r :=
  if_pos h

@[simp]
theorem capacity_put1b : (r.put1b byte).capacity = r.capacity := by
  unfold put1b
  split <;> rfl

theorem used_put1b (byte : UInt8) (h : ¬r.atEnd) : (r.put1b byte).used = r.used + 1 := by
  have := r.head_lt
  have := r.tail_lt
  rw [put1b, if_neg h]
  unfold atEnd at h
  simp only [used]
  split_ifs <;> omega

-- The position of the byte `i` of the contents.
theorem pos_lt {i : ℕ} (hi : i < r.used) :
    (r.tail + i) % r.capacity = if r.tail + i < r.capacity then r.tail + i else r.tail + i - r.capacity := by
  have := r.head_lt
  have := r.tail_lt
  have := r.used_lt
  split_ifs with h
  case pos => exact Nat.mod_eq_of_lt h
  case neg => rw [Nat.mod_eq_sub_mod (by omega), Nat.mod_eq_of_lt (by omega)]

theorem contents_put1b (h : ¬r.atEnd) : (r.put1b byte).contents = r.contents ++ [byte] := by
  have := r.head_lt
  have := r.tail_lt
  have hu := used_put1b byte h
  have hh : (r.tail + r.used) % r.capacity = r.head := by
    unfold used
    split_ifs
    · rw [show r.tail + (r.head - r.tail) = r.head by omega, Nat.mod_eq_of_lt r.head_lt]
    · rw [show r.tail + (r.head + r.capacity - r.tail) = r.head + r.capacity by omega,
        Nat.add_mod_right, Nat.mod_eq_of_lt r.head_lt]
  have hb : (r.put1b byte).buf = r.buf.store r.head byte := by rw [put1b, if_neg h]
  have ht : (r.put1b byte).tail = r.tail := by rw [put1b, if_neg h]
  rw [contents, hu, List.range_succ, List.map_append, List.map_singleton, hb, ht, capacity_put1b, hh]
  congr 1
  · refine List.map_congr_left fun i hi => Mem.store_ne ?_
    rw [List.mem_range] at hi
    rw [pos_lt hi]
    unfold used at hi
    split_ifs at hi ⊢ <;> omega
  · simp

-- What `ring_put` stores: bytes which do not fit are dropped.
def fitting (r : Ring) (bytes : List UInt8) : List UInt8 :=
  bytes.take (r.capacity - 1 - r.used)

@[simp]
theorem capacity_put : (r.put bytes).capacity = r.capacity := by
  unfold put
  induction bytes generalizing r
  case nil => rfl
  case cons byte bytes hi => rw [List.foldl_cons, hi, capacity_put1b]

theorem contents_put : (r.put bytes).contents = r.contents ++ r.fitting bytes := by
  unfold put
  induction bytes generalizing r
  case nil => simp [fitting]
  case cons byte bytes hi =>
    rw [List.foldl_cons, hi]
    have hlt := r.used_lt
    by_cases h : r.atEnd
    case pos =>
      have := atEnd_iff.mp h
      rw [put1b_of_atEnd h]
      simp [fitting, show r.capacity - 1 - r.used = 0 by omega]
    case neg =>
      have := mt atEnd_iff.mpr h
      rw [contents_put1b h, fitting, fitting, used_put1b _ h, capacity_put1b, List.append_assoc,
        show r.capacity - 1 - r.used = r.capacity - 1 - (r.used + 1) + 1 by omega, List.take_succ_cons,
        List.singleton_append]

theorem fitting_of_le (h : bytes.length + r.used < r.capacity) : r.fitting bytes = bytes :=
  List.take_of_length_le (by omega)

-- How many bytes of the contents lie behind each other in the buffer.
def streak (r : Ring) : ℕ :=
  if r.tail ≤ r.head then r.head - r.tail else r.capacity - r.tail

theorem contig_fst : (r.contig len).1 = r.contents.take (min len r.streak) := by
  have := r.head_lt
  have := r.tail_lt
  have hle : r.streak ≤ r.used := by
    unfold streak used
    split <;> omega
  refine List.ext_getElem ?_ fun i h₁ h₂ => ?_
  · simp only [contig, Mem.length_slice, List.length_take, length_contents]
    unfold streak at hle ⊢
    omega
  · simp only [List.length_take, length_contents] at h₂
    simp only [List.getElem_take, contents, List.getElem_map, List.getElem_range, contig, Mem.getElem_slice]
    rw [pos_lt (by omega), if_pos]
    have := h₂.trans_le (Nat.min_le_left _ _)
    unfold streak at this
    split_ifs at this <;> omega

theorem used_contig : (r.contig len).2.used = r.used - min len r.streak := by
  have := r.head_lt
  have := r.tail_lt
  simp only [contig, used, streak]
  split_ifs <;> omega

theorem contig_snd : (r.contig len).2.contents = r.contents.drop (min len r.streak) := by
  have := r.head_lt
  have := r.tail_lt
  have hle : r.streak ≤ r.used := by
    unfold streak used
    split <;> omega
  refine List.ext_getElem (by simp [used_contig]) fun i h₁ h₂ => ?_
  simp only [length_contents, used_contig] at h₁
  simp only [List.getElem_drop, contents, List.getElem_map, List.getElem_range]
  have ht : ((r.contig len).2.tail + i) % r.capacity = (r.tail + (min len r.streak + i)) % r.capacity := by
    have hs : min len r.streak ≤ r.capacity - r.tail := by
      unfold streak
      split_ifs <;> omega
    change ((if r.capacity ≤ r.tail + min len r.streak then 0 else r.tail + min len r.streak) + i) % _ = _
    rw [← Nat.add_assoc]
    split_ifs with h
    · rw [show r.tail + min len r.streak = r.capacity by omega, Nat.zero_add, Nat.add_mod_left]
    · rfl
  exact congrArg r.buf ht

theorem streak_contig : len ≤ r.streak ∨ (r.contig len).2.streak = (r.contig len).2.used := by
  have := r.head_lt
  have := r.tail_lt
  simp only [contig, used, streak]
  split_ifs <;> omega

-- How many bytes the second step of `ring_get` takes.
theorem streak_rest : min (len - min len r.streak) (r.contig len).2.streak =
    min (len - min len r.streak) (r.contig len).2.used := by
  obtain h | h := @streak_contig r len
  · simp [h]
  · rw [h]

-- `ring_get` consumes the oldest bytes.
theorem get_fst : (r.get len).1 = r.contents.take len := by
  have hl : (r.contig len).1.length = min len r.streak := by simp [contig, streak]
  have hu : (r.contig len).2.used = (r.contents.drop (min len r.streak)).length := by
    rw [← contig_snd, length_contents]
  have hle : len = min len r.streak + (len - min len r.streak) := by omega
  calc (r.get len).1
      = (r.contig len).1 ++ ((r.contig len).2.contig (len - (r.contig len).1.length)).1 := rfl
    _ = r.contents.take (min len r.streak) ++
          (r.contents.drop (min len r.streak)).take (len - min len r.streak) := by
        rw [hl, contig_fst, contig_fst, contig_snd, streak_rest, hu, ← List.take_eq_take_min]
    _ = r.contents.take len := by rw [← List.take_add, ← hle]

theorem contents_get : (r.get len).2.contents = r.contents.drop len := by
  have hl : (r.contig len).1.length = min len r.streak := by simp [contig, streak]
  have hle : len = min len r.streak + (len - min len r.streak) := by omega
  calc (r.get len).2.contents
      = ((r.contig len).2.contig (len - (r.contig len).1.length)).2.contents := rfl
    _ = (r.contents.drop (min len r.streak)).drop
          (min (len - min len r.streak) (r.contig len).2.used) := by
        rw [hl, contig_snd, contig_snd, streak_rest]
    _ = (r.contents.drop (min len r.streak)).drop (len - min len r.streak) := by
        rw [used_contig, ← length_contents, ← List.length_drop, ← List.drop_eq_drop_min]
    _ = r.contents.drop len := by rw [List.drop_drop, ← hle]

end Ring
end Camellia
