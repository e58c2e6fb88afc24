import Camellia.Kernel.State
import Camellia.Libk.Buffer

namespace Camellia

open Buffer

-- The static variables of the working directory, where `none` stands for NULL.
structure Cwd where
  initialcwd : Option (List UInt8)
  cwd        : Option Buffer
  cwd2       : Option Buffer
  capacity   : ℕ

namespace Cwd

def ofString (str : List UInt8) : Buffer :=
  (str ++ [0]).map some

def getrealcwd (st : Cwd) : Buffer :=
  match st.cwd, st.initialcwd with
  | some cwd, _        => cwd
  | none, some initial => ofString initial
  | none, none         => ofString [slash]

-- `if (pos + len <= size) memcpy(out + pos, bytes, len)`
def copyIn (out : Buffer) (pos : ℕ) (bytes : List UInt8) (size : ℕ) : Option Buffer :=
  if pos + bytes.length ≤ size then out.write pos bytes else some out

-- The part of `absolutepath` which is in front of a relative path.
def prependCwd (st : Cwd) (out : Buffer) (size : ℕ) : Option (ℕ × Buffer) := do
  let realcwd ← st.getrealcwd.text
  let out ← copyIn out 0 realcwd size
  let pos := realcwd.length
  -- `realcwd[len - 1]` is in front of an empty string
  let last ← realcwd.getLast?
  if last ≠ slash then
    let out ← copyIn out pos [slash] size
    return (pos + 1, out)
  else
    return (pos, out)

def startPath (st : Cwd) (out : Buffer) (inp : List UInt8) (size : ℕ) : Option (ℕ × Buffer) :=
  if ¬inp.head? = some slash then st.prependCwd out size else some (0, out)

-- `out` is not the current directory itself, and is empty for NULL.
def absolutepath (st : Cwd) (out : Buffer) (inp : Option (List UInt8)) (size : ℕ) : Option (ℕ × Buffer) :=
  match inp with
  | none     => st.getrealcwd.text.map fun realcwd => (realcwd.length + 1, out)
  | some inp => do
    let (pos, out) ← st.startPath out inp size
    let out ← copyIn out pos inp size
    let pos := pos + inp.length
    if pos ≤ size then
      let (pos, out) ← out.simplify pos
      if pos = 0 then
        return (0, out)
      else
        let out ← copyIn out pos [0] size
        return (pos + 1, out)
    else
      let out ← copyIn out pos [0] size
      return (pos + 1, out)

-- `_sys_open` is the answer of the kernel to a path and flags.
def camelliaOpen (st : Cwd) (path : Option (List UInt8)) (flags : Flags) (sysOpen : List UInt8 → Flags → Int) :
    Option Int :=
  match path with
  | none      => some (-EINVAL)
  | some path => do
    let flags := if flags.has OPEN_CREATE then flags ||| OPEN_WRITE else flags
    let (len, _) ← st.absolutepath [] (some path) 0
    let (_, buf) ← st.absolutepath (malloc len) (some path) len
    let name ← buf.text
    return sysOpen name flags

-- The part of `chdir` which provides the buffers.
def allocate (st : Cwd) (len : ℕ) : Option Cwd :=
  if st.capacity < len then
    match st.cwd with
    | some cwd => some { st with cwd := cwd.realloc len, cwd2 := (st.cwd2.getD []).realloc len, capacity := len }
    | none     => do
      let initial ← st.initialcwd
      let initlen := initial.length + 1
      let cwd ← (malloc initlen).write 0 (initial ++ [0])
      return { st with cwd := cwd, cwd2 := malloc initlen, capacity := len }
  else
    some st

-- `cwd2` with a slash at its end.
def closeDirectory (cwd2 : Buffer) : Option Buffer := do
  let name ← cwd2.text
  let last ← name.getLast?
  if last ≠ slash then
    cwd2.write name.length [slash, 0]
  else
    return cwd2

-- The result is `none` if something is accessed which is outside of the buffers or was never written.
def chdir (st : Cwd) (path : Option (List UInt8)) (sysOpen : List UInt8 → Flags → Int) : Option (Int × Cwd) := do
  let (len, _) ← st.absolutepath [] path 0
  let st ← st.allocate (len + 1)
  let cwd2 ← st.cwd2
  let (_, cwd2) ← st.absolutepath cwd2 path st.capacity
  let cwd2 ← closeDirectory cwd2
  let name ← cwd2.text
  let h ← st.camelliaOpen (some name) OPEN_READ sysOpen
  if h < 0 then
    return (-1, { st with cwd2 := cwd2 })
  else
    return (0, { st with cwd := cwd2, cwd2 := st.cwd })

-- What `getcwd` copies to the buffer of its caller, where the inner `none` is an error.
def getcwd (st : Cwd) (capacity : ℕ) : Option (Option (List UInt8)) := do
  let realcwd ← st.getrealcwd.text
  if capacity < realcwd.length + 1 then
    return none
  else
    return some realcwd

-- The path from the working directory.
def joined (dir path : List UInt8) : List UInt8 :=
  if path.head? = some slash then path
  else if dir.getLast? = some slash then dir ++ path
  else dir ++ slash :: path

-- What `absolutepath` joins.
def Joins (st : Cwd) (path raw : List UInt8) : Prop :=
  path.head? = some slash ∧ raw = path ∨
    path.head? ≠ some slash ∧ ∃ dir, st.getrealcwd.text = some dir ∧ dir ≠ [] ∧ raw = joined dir path

section Absolutepath

variable {st : Cwd} {out : Buffer} {dir path raw p str bytes : List UInt8} {size pos : ℕ}

theorem copyIn_small (h : size < pos + bytes.length) : copyIn out pos bytes size = some out :=
  if_neg (Nat.not_le_of_lt h)

theorem copyIn_starts (h : out.Starts str) (hs : str.length + bytes.length ≤ size)
    (hl : str.length + bytes.length ≤ out.length) :
    ∃ out', copyIn out str.length bytes size = some out' ∧ out'.length = out.length ∧ out'.Starts (str ++ bytes) := by
  rw [copyIn, if_pos hs]
  exact h.write hl

-- The directory in front of a relative path.
def front (dir : List UInt8) : List UInt8 :=
  if dir.getLast? = some slash then dir else dir ++ [slash]

theorem joined_relative (h : path.head? ≠ some slash) : joined dir path = front dir ++ path := by
  rw [joined, if_neg h, front]
  split_ifs <;> simp

theorem exists_getLast (h : dir ≠ []) : ∃ c, dir.getLast? = some c :=
  ⟨_, List.getLast?_eq_some_getLast h⟩

theorem prependCwd_null (h : st.getrealcwd.text = some dir) (hne : dir ≠ []) :
    st.prependCwd [] 0 = some ((front dir).length, []) := by
  obtain ⟨c, hc⟩ := exists_getLast hne
  have hpos := List.length_pos_iff.mpr hne
  rw [prependCwd, h]
  simp only [Option.bind_eq_bind, Option.bind_some, hc, copyIn_small (show 0 < 0 + dir.length by omega)]
  by_cases hs : c = slash
  case pos => simp [front, hc, hs]
  case neg => simp [front, hc, hs, copyIn]

theorem prependCwd_starts (h : st.getrealcwd.text = some dir) (hne : dir ≠ []) (hs : (front dir).length ≤ size)
    (hl : (front dir).length ≤ out.length) :
    ∃ out', st.prependCwd out size = some ((front dir).length, out') ∧ out'.length = out.length ∧
      out'.Starts (front dir) := by
  obtain ⟨c, hc⟩ := exists_getLast hne
  have hle : dir.length ≤ (front dir).length := by
    rw [front]
    split_ifs <;> simp
  obtain ⟨o, ho, hlen, hst⟩ := copyIn_starts starts_nil (by simpa using hle.trans hs) (by simpa using hle.trans hl)
  rw [List.length_nil] at ho
  rw [List.nil_append] at hst
  rw [prependCwd, h]
  simp only [Option.bind_eq_bind, Option.bind_some, hc, ho]
  by_cases hslash : c = slash
  case pos =>
    have hfront : front dir = dir := if_pos (by rw [hc, hslash])
    rw [hfront, if_neg (by simpa using hslash)]
    exact ⟨o, rfl, hlen, hst⟩
  case neg =>
    have hfront : front dir = dir ++ [slash] := if_neg (by simpa [hc] using hslash)
    rw [hfront, List.length_append] at hs hl
    obtain ⟨o', ho', hlen', hst'⟩ := copyIn_starts hst hs (hlen ▸ hl)
    rw [if_pos hslash, ho', hfront, List.length_append]
    exact ⟨o', rfl, hlen'.trans hlen, hst'⟩

-- Without a buffer only the length is computed.
theorem absolutepath_null (h : Joins st path raw) : st.absolutepath [] (some path) 0 = some (raw.length + 1, []) := by
  rw [absolutepath, startPath]
  obtain ⟨hslash, rfl⟩ | ⟨hslash, dir, hdir, hne, rfl⟩ := h
  case inl =>
    obtain ⟨t, rfl⟩ := List.head?_eq_some_iff.mp hslash
    simp [hslash, copyIn]
  case inr =>
    have hpos : 0 < (front dir).length := by
      rw [front]
      split_ifs
      · exact List.length_pos_iff.mpr hne
      · simp
    rw [if_pos hslash, prependCwd_null hdir hne, joined_relative hslash, List.length_append]
    simp only [Option.bind_eq_bind, Option.bind_some, copyIn_small (show 0 < (front dir).length + path.length by omega),
      if_neg (show ¬(front dir).length + path.length ≤ 0 by omega)]
    rw [copyIn_small (by simp)]
    rfl

-- The simplified path is written with its NUL.
theorem absolutepath_starts (h : Joins st path raw) (hp : Paths.simplify raw = some p) (hs : raw.length < size)
    (hl : raw.length ≤ out.length) (hnul : p.length < out.length) :
    ∃ out', st.absolutepath out (some path) size = some (p.length + 1, out') ∧ out'.length = out.length ∧
      out'.Starts (p ++ [0]) := by
  obtain ⟨pre, o, ho, hlen, hst, rfl⟩ : ∃ pre o, st.startPath out path size = some (pre.length, o) ∧
      o.length = out.length ∧ o.Starts pre ∧ raw = pre ++ path := by
    obtain ⟨hslash, rfl⟩ | ⟨hslash, dir, hdir, hne, rfl⟩ := h
    case inl => exact ⟨[], out, if_neg (by simpa using hslash), rfl, starts_nil, rfl⟩
    case inr =>
      rw [joined_relative hslash, List.length_append] at hs hl
      obtain ⟨o, ho, hlen, hst⟩ : ∃ o, st.prependCwd out size = some ((front dir).length, o) ∧ o.length = out.length ∧
          o.Starts (front dir) := prependCwd_starts hdir hne (by omega) (by omega)
      exact ⟨front dir, o, by rw [startPath, if_pos hslash, ho], hlen, hst, joined_relative hslash⟩
  rw [List.length_append] at hs hl
  obtain ⟨o₁, ho₁, hlen₁, hst₁⟩ := copyIn_starts hst (Nat.le_of_lt hs) (by rw [hlen]; exact hl)
  obtain ⟨o₂, ho₂, hlen₂, hst₂, hpos, hle⟩ := hst₁.simplify hp
  rw [List.length_append] at ho₂ hle
  have hlast : o₂.length = out.length := hlen₂.trans (hlen₁.trans hlen)
  obtain ⟨o₃, ho₃, hlen₃, hst₃⟩ : ∃ o, copyIn o₂ p.length [0] size = some o ∧ o.length = o₂.length ∧
      o.Starts (p ++ [0]) := copyIn_starts hst₂ (by simp; omega) (by simp; omega)
  refine ⟨o₃, ?_, hlen₃.trans hlast, hst₃⟩
  rw [absolutepath, ho]
  simp only [Option.bind_eq_bind, Option.bind_some, ho₁, if_pos (Nat.le_of_lt hs), ho₂,
    if_neg (Nat.ne_of_gt hpos), ho₃]
  rfl

end Absolutepath
end Cwd
end Camellia
