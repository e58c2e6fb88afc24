import Camellia.Lib.Fifo
import Camellia.Libk.Ring

namespace Camellia.Ring

-- The calls which change a ring, where `ring_get` may have no destination.
inductive Call
  | put (bytes : List UInt8)
  | put1b (byte : UInt8)
  | get (dest : Bool) (len : ℕ)
  | contig (len : ℕ)
  deriving DecidableEq, Repr

-- The length which a call returns, and the bytes at its destination or behind the returned pointer.
structure Reply where
  len   : ℕ
  bytes : List UInt8
  deriving DecidableEq, Repr

def call (r : Ring) : Call → Reply × Ring
  | .put bytes    => (⟨0, []⟩, r.put bytes)
  | .put1b byte   => (⟨0, []⟩, r.put1b byte)
  | .get dest len => (⟨(r.get len).1.length, if dest then (r.get len).1 else []⟩, (r.get len).2)
  | .contig len   => (⟨(r.contig len).1.length, (r.contig len).1⟩, (r.contig len).2)

def calls (r : Ring) : List Call → List (Call × Reply) × Ring
  | []      => ([], r)
  | c :: cs => ((c, (r.call c).1) :: ((r.call c).2.calls cs).1, ((r.call c).2.calls cs).2)

-- What a bounded queue answers to a call. Only `ring_contig` may return less than it could, as long as it
-- returns anything.
inductive Serves {bound : ℕ} (q : Fifo UInt8 bound) : Call → Reply → Fifo UInt8 bound → Prop
  | put (bytes : List UInt8) : Serves q (.put bytes) ⟨0, []⟩ (q.put bytes)
  | put1b (byte : UInt8) : Serves q (.put1b byte) ⟨0, []⟩ (q.put [byte])
  | get (len : ℕ) : Serves q (.get true len) ⟨min len q.items.length, q.items.take len⟩ (q.drop len)
  | skip (len : ℕ) : Serves q (.get false len) ⟨min len q.items.length, []⟩ (q.drop len)
  | contig (len k : ℕ) (hk : k ≤ min len q.items.length) (hp : k = 0 → min len q.items.length = 0) :
    Serves q (.contig len) ⟨k, q.items.take k⟩ (q.drop k)

inductive Serving {bound : ℕ} : Fifo UInt8 bound → List (Call × Reply) → Fifo UInt8 bound → Prop
  | nil {q : Fifo UInt8 bound} : Serving q [] q
  | cons {q q' q'' : Fifo UInt8 bound} {c : Call} {x : Reply} {xs : List (Call × Reply)} :
    Serves q c x q' → Serving q' xs q'' → Serving q ((c, x) :: xs) q''

variable {r : Ring} {bytes : List UInt8} {len n : ℕ} {c : Call}

-- The ring as a queue.
def queue (r : Ring) (h : r.capacity = n) : Fifo UInt8 (n - 1) where
  items     := r.contents
  length_le := by
    have := r.used_lt
    rw [length_contents]
    omega

@[simp]
theorem items_queue (h : r.capacity = n) : (r.queue h).items = r.contents :=
  rfl

-- All bytes are stored, and come out again behind those which were there before.
def Stores (r : Ring) (bytes : List UInt8) : Prop :=
  (r.put bytes).used = r.used + bytes.length ∧
    ∀ len, r.used + bytes.length ≤ len → ((r.put bytes).get len).1 = r.contents ++ bytes

theorem capacity_call : (r.call c).2.capacity = r.capacity := by
  cases c
  case put        => exact capacity_put
  case put1b      => exact capacity_put1b
  case get        => rfl
  case contig     => rfl

theorem put_eq_queue (h : r.capacity = n) :
    (r.queue h).put bytes = (r.put bytes).queue (capacity_put.trans h) := by
  refine Fifo.ext ?_
  rw [items_queue, contents_put, fitting, h, ← length_contents]
  rfl

-- `ring_contig` stops at the end of the buffer, but there is at least one byte in front of it.
theorem streak_le : r.streak ≤ r.used ∧ (r.streak = 0 → r.used = 0) := by
  have := r.head_lt
  have := r.tail_lt
  unfold streak used
  split <;> omega

theorem call_serves (c : Call) (h : r.capacity = n) :
    Serves (r.queue h) c (r.call c).1 ((r.call c).2.queue (capacity_call.trans h)) := by
  cases c
  case put bytes  => exact put_eq_queue h ▸ Serves.put bytes
  case put1b byte =>
    have := Serves.put1b (q := r.queue h) byte
    rw [put_eq_queue h] at this
    exact this
  case get dest len =>
    have hq : (r.queue h).drop len = (r.get len).2.queue h := Fifo.ext contents_get.symm
    have hl : (r.get len).1.length = min len (r.queue h).items.length := by rw [get_fst, List.length_take, items_queue]
    cases dest
    case true =>
      have := Serves.get (q := r.queue h) len
      rw [← hl, hq, items_queue, ← get_fst] at this
      exact this
    case false =>
      have := Serves.skip (q := r.queue h) len
      rw [← hl, hq] at this
      exact this
  case contig len =>
    have ⟨hle, hz⟩ := r.streak_le
    have hq : (r.queue h).drop (min len r.streak) = (r.contig len).2.queue h := Fifo.ext contig_snd.symm
    have hl : (r.contig len).1.length = min len r.streak := by simp [contig, streak]
    have hu : (r.queue h).items.length = r.used := length_contents
    have := Serves.contig len (min len r.streak) (q := r.queue h) (by omega) (by omega)
    rw [hq, items_queue, ← contig_fst, ← hl] at this
    exact this

theorem calls_serving (cs : List Call) (h : r.capacity = n) :
    ∃ q : Fifo UInt8 (n - 1), q.items = (r.calls cs).2.contents ∧ (r.calls cs).2.capacity = n ∧
      Serving (r.queue h) (r.calls cs).1 q := by
  induction cs generalizing r
  case nil => exact ⟨r.queue h, rfl, h, .nil⟩
  case cons c cs hi =>
    have ⟨q, hq, hn, hs⟩ := hi (capacity_call (c := c) |>.trans h)
    exact ⟨q, hq, hn, .cons (call_serves c h) hs⟩

theorem calls_fifo (buf : Mem) (n : ℕ) (h : 0 < n) (cs : List Call) :
    ∃ q : Fifo UInt8 (n - 1), Serving .empty ((new buf n h).calls cs).1 q ∧
      q.items = ((new buf n h).calls cs).2.contents ∧
      ((new buf n h).calls cs).2.used = q.items.length ∧
      ((new buf n h).calls cs).2.head < n ∧ ((new buf n h).calls cs).2.tail < n := by
  have ⟨q, hq, hn, hs⟩ := calls_serving cs (show (new buf n h).capacity = n from rfl)
  have he : (new buf n h).queue rfl = Fifo.empty := by
    refine Fifo.ext ?_
    rw [items_queue, contents_new, Fifo.empty]
  refine ⟨q, he ▸ hs, hq, ?_, ?_, ?_⟩
  · rw [hq, length_contents]
  · exact ((new buf n h).calls cs).2.head_lt.trans_eq hn
  · exact ((new buf n h).calls cs).2.tail_lt.trans_eq hn

-- A byte which does not fit is dropped, and the rest comes out as it was put in.
theorem calls_fifo_three :
    ∃ q : Fifo UInt8 (3 - 1), Serving .empty ((new (fun _ => 0) 3 (by decide)).calls [.put [1, 2, 3], .get true 5]).1 q ∧
      q.items = ((new (fun _ => 0) 3 (by decide)).calls [.put [1, 2, 3], .get true 5]).2.contents ∧
      ((new (fun _ => 0) 3 (by decide)).calls [.put [1, 2, 3], .get true 5]).2.used = q.items.length ∧
      ((new (fun _ => 0) 3 (by decide)).calls [.put [1, 2, 3], .get true 5]).2.head < 3 ∧
      ((new (fun _ => 0) 3 (by decide)).calls [.put [1, 2, 3], .get true 5]).2.tail < 3 :=
  calls_fifo _ 3 (by decide) _

example : ((new (fun _ => 0) 3 (by decide)).calls [.put [1, 2, 3], .get true 5]).1 =
    [(.put [1, 2, 3], ⟨0, []⟩), (.get true 5, ⟨2, [1, 2]⟩)] := by
  decide

theorem put_put {bytes' : List UInt8} : (r.put bytes).put bytes' = r.put (bytes ++ bytes') := by
  simp [put]

theorem fitting_append {bytes' : List UInt8} :
    r.fitting (bytes ++ bytes') = r.fitting bytes ++ (r.put bytes).fitting bytes' := by
  have h : ((r.put bytes).put bytes').contents = (r.put bytes).contents ++ (r.put bytes).fitting bytes' :=
    contents_put
  rw [put_put, contents_put, contents_put, List.append_assoc] at h
  exact List.append_cancel_left h

-- One byte of the buffer always stays free, and `ring_avail` counts it.
theorem fitting_eq_iff (h : bytes.length ≤ r.avail) : r.fitting bytes = bytes ↔ bytes.length < r.avail := by
  have := r.used_lt
  unfold fitting avail at *
  rw [List.take_eq_self_iff]
  omega

theorem stores_iff_fitting : r.Stores bytes ↔ r.fitting bytes = bytes := by
  have hu : (r.put bytes).used = r.used + (r.fitting bytes).length := by
    rw [← length_contents, contents_put, List.length_append, length_contents]
  constructor
  case mp =>
    intro ⟨h, _⟩
    have hl : (r.fitting bytes).length = bytes.length := by omega
    exact List.take_eq_self_iff _ |>.mpr (by simpa [fitting] using hl)
  case mpr =>
    intro h
    refine ⟨by rw [hu, h], fun len hlen => ?_⟩
    rw [get_fst, contents_put, h, List.take_of_length_le]
    simpa using hlen

theorem stores_iff (h : bytes.length ≤ r.avail) : r.Stores bytes ↔ bytes.length < r.avail :=
  stores_iff_fitting.trans (fitting_eq_iff h)

end Camellia.Ring
