import Camellia.Libk.PathSimplify

namespace Camellia

-- An allocated buffer, where `none` is a byte which was not written yet.
abbrev Buffer := List (Option UInt8)

namespace Buffer

def malloc (n : ℕ) : Buffer :=
  List.replicate n none

def realloc (b : Buffer) (n : ℕ) : Buffer :=
  b.take n ++ malloc (n - b.length)

-- The result is `none` if something outside of the buffer would be written.
def write (b : Buffer) (pos : ℕ) (bytes : List UInt8) : Option Buffer :=
  if pos + bytes.length ≤ b.length then
    some (b.take pos ++ bytes.map some ++ b.drop (pos + bytes.length))
  else
    none

-- The string in a buffer. The result is `none` if a byte which was not written, or the end of the buffer, is reached
-- in front of its NUL.
def text : Buffer → Option (List UInt8)
  | []          => none
  | none :: _   => none
  | some c :: b => if c = 0 then some [] else (text b).map (c :: ·)

-- The memory of a buffer at address 0.
def mem (b : Buffer) : Mem :=
  fun i => (b.getD i none).getD 0

-- `path_simplify(b, b, len)`
def simplify (b : Buffer) (len : ℕ) : Option (ℕ × Buffer) :=
  match pathSimplify b.mem 0 0 len with
  | .error _    => none
  | .ok (n, m') => some (n, (m'.slice 0 len).map some ++ b.drop len)

-- The buffer begins with the bytes.
def Starts (b : Buffer) (bytes : List UInt8) : Prop :=
  bytes.map some <+: b

variable {b : Buffer} {bytes str p : List UInt8} {n : ℕ}

@[simp]
theorem length_malloc : (malloc n).length = n :=
  List.length_replicate

@[simp]
theorem length_realloc : (b.realloc n).length = n := by
  simp only [realloc, List.length_append, List.length_take, length_malloc]
  omega

theorem starts_nil : b.Starts [] :=
  List.nil_prefix

theorem Starts.length (h : b.Starts bytes) : bytes.length ≤ b.length := by
  simpa using List.IsPrefix.length_le h

theorem Starts.of_append (h : b.Starts (bytes ++ str)) : b.Starts bytes := by
  rw [Starts, List.map_append] at h
  exact (List.prefix_append _ _).trans h

theorem Starts.realloc (h : b.Starts bytes) (hn : bytes.length ≤ n) : (b.realloc n).Starts bytes :=
  (List.prefix_take_iff.mpr ⟨h, by simpa using hn⟩).trans (List.prefix_append _ _)

-- What is written behind the beginning of a buffer.
theorem Starts.write (h : b.Starts str) (hn : str.length + bytes.length ≤ b.length) :
    ∃ b', b.write str.length bytes = some b' ∧ b'.length = b.length ∧ b'.Starts (str ++ bytes) := by
  refine ⟨_, if_pos hn, ?_, ?_⟩
  · simp only [List.length_append, List.length_take, List.length_map, List.length_drop]
    omega
  · obtain ⟨r, rfl⟩ := h
    rw [List.take_append_of_le_length (by simp), List.take_of_length_le (by simp), Starts, List.map_append]
    exact List.prefix_append _ _

theorem text_of_starts (h : b.Starts (str ++ [0])) (h0 : 0 ∉ str) : b.text = some str := by
  obtain ⟨r, rfl⟩ := h
  induction str
  case nil => rfl
  case cons c str hi =>
    rw [List.mem_cons, not_or] at h0
    rw [List.cons_append, List.map_cons, List.cons_append, text, if_neg (Ne.symm h0.left), hi h0.right, Option.map_some]

theorem text_eq_some (h : b.text = some str) : b.Starts (str ++ [0]) ∧ 0 ∉ str := by
  induction b generalizing str
  case nil => simp [text] at h
  case cons o b hi =>
    cases o
    case none => simp [text] at h
    case some c =>
      rw [text] at h
      split_ifs at h with hc
      case pos =>
        obtain rfl := Option.some_inj.mp h
        exact ⟨⟨b, by simp [hc]⟩, List.not_mem_nil⟩
      case neg =>
        obtain ⟨s, hs, rfl⟩ := Option.map_eq_some_iff.mp h
        obtain ⟨⟨r, hr⟩, h0⟩ := hi hs
        exact ⟨⟨r, by rw [← hr]; rfl⟩, by simp [h0, Ne.symm hc]⟩

theorem Starts.slice (h : b.Starts bytes) : b.mem.slice 0 bytes.length = bytes := by
  obtain ⟨r, rfl⟩ := h
  refine List.ext_getElem (by simp) fun i hi hi' => ?_
  rw [Mem.getElem_slice, mem, Nat.zero_add, List.getD_append _ _ _ _ (by simpa using hi'),
    List.getD_eq_getElem _ _ (by simpa using hi'), List.getElem_map, Option.getD_some]

-- The simplified path replaces the beginning of the buffer.
theorem Starts.simplify (h : b.Starts bytes) (hs : Paths.simplify bytes = some p) :
    ∃ b', b.simplify bytes.length = some (p.length, b') ∧ b'.length = b.length ∧ b'.Starts p ∧ 0 < p.length ∧
      p.length ≤ bytes.length := by
  obtain ⟨n, m', hr, -, hres⟩ := pathSimplify_spec (m := b.mem) (.inl rfl : Layout 0 0 bytes.length)
  rw [h.slice, hs] at hres
  obtain ⟨rfl, hpos, hle, hp⟩ := hres
  refine ⟨_, by rw [Buffer.simplify, hr], ?_, ?_, hpos, hle⟩
  · have := h.length
    simp only [List.length_append, List.length_map, Mem.length_slice, List.length_drop]
    omega
  · obtain ⟨k, hk⟩ := Nat.exists_eq_add_of_le hle
    rw [hk, Mem.slice_add, hp, List.map_append, List.append_assoc]
    exact List.prefix_append _ _

end Buffer
end Camellia
