import Mathlib.Data.List.TakeDrop
import Mathlib.Tactic.Common

-- A queue of at most `bound` elements, the oldest one first.
structure Fifo (α : Type) (bound : ℕ) where
  items     : List α
  length_le : items.length ≤ bound

namespace Fifo

variable {α : Type} {bound : ℕ} {q q' : Fifo α bound}

def empty : Fifo α bound where
  items     := []
  length_le := Nat.zero_le _

-- How many elements can still be appended.
def room (q : Fifo α bound) : ℕ :=
  bound - q.items.length

-- As many of the elements as fit are appended, and the rest is dropped.
def put (q : Fifo α bound) (xs : List α) : Fifo α bound where
  items     := q.items ++ xs.take q.room
  length_le := by
    have := q.length_le
    rw [List.length_append, List.length_take, room]
    omega

-- The oldest `n` elements are removed.
def drop (q : Fifo α bound) (n : ℕ) : Fifo α bound where
  items     := q.items.drop n
  length_le := by
    have := q.length_le
    rw [List.length_drop]
    omega

@[ext]
theorem ext (h : q.items = q'.items) : q = q' := by
  cases q
  cases q'
  subst h
  rfl

end Fifo
