import Camellia.Kernel.Execbuf

namespace Camellia.Draw

open Execbuf

def SYS_WRITE : UInt64 := 7

-- A framebuffer, whose copy at `b` is in the user's half of the address space.
structure Framebuf where
  len     : UInt64
  width   : UInt64
  height  : UInt64
  pitch   : UInt64
  b       : UInt64
  fd      : UInt64
  columns : 1 ≤ width.toNat
  rows    : 1 ≤ height.toNat
  wide    : 4 * width.toNat ≤ pitch.toNat
  size    : len.toNat = pitch.toNat * height.toNat
  user    : b.toNat + len.toNat ≤ 2 ^ 47

structure Rect where
  x1 : UInt32
  y1 : UInt32
  x2 : UInt32
  y2 : UInt32
  deriving DecidableEq

def dirtyReset : Rect where
  x1 := ~~~0
  y1 := ~~~0
  x2 := 0
  y2 := 0

def dirtyMark (d : Rect) (x y : UInt32) : Rect where
  x1 := if x < d.x1 then x else d.x1
  y1 := if y < d.y1 then y else d.y1
  x2 := if d.x2 < x then x else d.x2
  y2 := if d.y2 < y then y else d.y2

-- The arguments of the system call.
def sysWrite (fb : Framebuf) (low high : UInt64) : List UInt64 :=
  [SYS_WRITE, fb.fd, fb.b + low, high - low, low, 0]

def flushCombined (pix : Rect) (fb : Framebuf) : List UInt64 :=
  let low := fb.pitch * pix.y1.toUInt64 + (4 * pix.x1).toUInt64
  let high := fb.pitch * pix.y2.toUInt64 + (4 * pix.y2).toUInt64 + 4
  sysWrite fb low high

-- The words are put behind those which `execbuf` has already, unless it is full.
def append (execbuf ws : List UInt64) : Option (List UInt64) :=
  if execbuf.length + ws.length ≤ EXECBUF_MAX_LEN / 8 then some (execbuf ++ ws) else none

-- The loop of `flush_split`, with `n` rows left. The result is `none` if `execbuf` overflows.
def splitLoop (pix : Rect) (fb : Framebuf) : (n y : ℕ) → (execbuf : List UInt64) → Option (List UInt64)
  | 0, _, execbuf     => some execbuf
  | n + 1, y, execbuf => do
    let low := fb.pitch * UInt64.ofNat y + (4 * pix.x1).toUInt64
    let high := fb.pitch * UInt64.ofNat y + (4 * pix.x2).toUInt64 + 4
    let execbuf ← append execbuf (EXECBUF_SYSCALL :: sysWrite fb low high)
    splitLoop pix fb n (y + 1) execbuf

-- What the kernel does with the buffer.
def sysCalls (execbuf : List UInt64) : List (List UInt64) :=
  (decode execbuf).filterMap fun
    | .syscall args => some args
    | .jmp _        => none

def tall (pix : Rect) : Bool :=
  UInt64.ofNat EXECBUF_MAX_LEN ≤ (7 * (pix.y2 - pix.y1)).toUInt64 * 8

def flushSplit (pix : Rect) (fb : Framebuf) : Option (List (List UInt64)) :=
  if tall pix then
    some [flushCombined pix fb]
  else
    (splitLoop pix fb (pix.y2.toNat - pix.y1.toNat) pix.y1.toNat []).map sysCalls

def clamp (d : Rect) (fb : Framebuf) : Rect where
  x1 := d.x1
  y1 := d.y1
  x2 := if fb.width ≤ d.x2.toUInt64 then (fb.width - 1).toUInt32 else d.x2
  y2 := if fb.height ≤ d.y2.toUInt64 then (fb.height - 1).toUInt32 else d.y2

def broad (d : Rect) (fb : Framebuf) : Bool :=
  fb.width - 600 < (d.x2 - d.x1).toUInt64

-- The writes and the rectangle which is left.
def dirtyFlush (d : Rect) (fb : Framebuf) : Option (List (List UInt64) × Rect) :=
  if ~~~d.x1 = 0 then
    some ([], d)
  else
    let d := clamp d fb
    (if broad d fb then some [flushCombined d fb] else flushSplit d fb).map fun ws => (ws, dirtyReset)

-- A byte of the device is written.
def Writes (w : List UInt64) (i : ℕ) : Prop :=
  ∃ fd buf n offset flags, w = [SYS_WRITE, fd, buf, n, offset, flags] ∧ offset.toNat ≤ i ∧ i < offset.toNat + n.toNat

-- A byte of the framebuffer is copied to the same offset of the device.
def Copies (fb : Framebuf) (w : List UInt64) (i : ℕ) : Prop :=
  ∃ buf n offset : UInt64, w = [SYS_WRITE, fb.fd, buf, n, offset, 0] ∧
    ∃ k < n.toNat, buf.toNat + k = fb.b.toNat + i ∧ offset.toNat + k = i

-- A pixel of the rectangle which is on the screen.
structure Rect.Has (d : Rect) (fb : Framebuf) (x y : ℕ) : Prop where
  left   : d.x1.toNat ≤ x
  right  : x ≤ d.x2.toNat
  top    : d.y1.toNat ≤ y
  bottom : y ≤ d.y2.toNat
  column : x < fb.width.toNat
  row    : y < fb.height.toNat

structure Covers (fb : Framebuf) (d : Rect) (ws : List (List UInt64)) : Prop where
  copies : ∀ x y, d.Has fb x y → ∀ k < 4, ∃ w ∈ ws, Copies fb w (fb.pitch.toNat * y + 4 * x + k)
  within : ∀ w ∈ ws, ∀ i, Writes w i → i < fb.len.toNat

-- What is demanded of `dirty_flush`.
def Flushes (fb : Framebuf) (d : Rect) : Prop :=
  ∃ ws d', dirtyFlush d fb = some (ws, d') ∧ Covers fb d ws

-- No pixel of a clamped rectangle is on the screen.
def Rect.Empty (d : Rect) : Prop :=
  d.x2 < d.x1 ∨ d.y2 < d.y1

instance {d : Rect} : Decidable d.Empty :=
  inferInstanceAs <| Decidable (_ ∨ _)

-- One write covers the rectangle if its end, which is computed with `y2` for `x2`, is behind the last pixel and on the
-- screen. If there is no pixel, the write must be empty or end on the screen.
def CombinedFits (fb : Framebuf) (d : Rect) : Prop :=
  let high := fb.pitch.toNat * d.y2.toNat + 4 * d.y2.toNat % 2 ^ 32 + 4
  if d.Empty then
    let low := (fb.pitch.toNat * d.y1.toNat + 4 * d.x1.toNat % 2 ^ 32) % 2 ^ 64
    low = high ∨ low < high ∧ high ≤ fb.len.toNat
  else
    4 * d.x2.toNat ≤ 4 * d.y2.toNat % 2 ^ 32 ∧ high ≤ fb.len.toNat

-- The last row is always left out, so that there must be no pixel.
structure SplitFits (d : Rect) : Prop where
  empty : d.Empty
  rows  : d.y2.toNat ≤ d.y1.toNat + 73
  width : d.y1.toNat < d.y2.toNat → 4 * d.x1.toNat % 2 ^ 32 ≤ 4 * d.x2.toNat % 2 ^ 32 + 4

def FlushFits (fb : Framebuf) (d : Rect) : Prop :=
  if ~~~d.x1 = 0 then (clamp d fb).Empty
  else if broad (clamp d fb) fb ∨ tall (clamp d fb) then CombinedFits fb (clamp d fb)
  else SplitFits (clamp d fb)

section Write

variable {fb : Framebuf} {low high : UInt64} {i : ℕ}

-- Where a write ends, whose length is computed modulo 2^64.
def writeEnd (lo hi : ℕ) : ℕ :=
  if lo ≤ hi then hi else hi + 2 ^ 64

theorem toNat_add_sub : low.toNat + (high - low).toNat = writeEnd low.toNat high.toNat := by
  have hl := low.toNat_lt
  have hh := high.toNat_lt
  rw [UInt64.toNat_sub, writeEnd]
  split_ifs <;> omega

theorem writes_iff : Writes (sysWrite fb low high) i ↔ low.toNat ≤ i ∧ i < writeEnd low.toNat high.toNat := by
  rw [← toNat_add_sub]
  constructor
  · rintro ⟨fd, buf, n, offset, flags, hw, h⟩
    obtain ⟨-, -, rfl, rfl, -⟩ : fb.fd = fd ∧ fb.b + low = buf ∧ high - low = n ∧ low = offset ∧ 0 = flags := by
      simpa [sysWrite] using hw
    exact h
  · exact fun h => ⟨_, _, _, _, _, rfl, h⟩

-- On the screen the bytes which are written are those of the framebuffer.
theorem copies_iff (hi : i < fb.len.toNat) :
    Copies fb (sysWrite fb low high) i ↔ low.toNat ≤ i ∧ i < writeEnd low.toNat high.toNat := by
  have hb := fb.user
  have hsum : low.toNat ≤ i → (fb.b + low).toNat = fb.b.toNat + low.toNat := by
    intro h
    rw [UInt64.toNat_add]
    exact Nat.mod_eq_of_lt (by omega)
  rw [← toNat_add_sub]
  constructor
  · rintro ⟨buf, n, offset, hw, k, hk, -, he⟩
    obtain ⟨-, rfl, rfl⟩ : fb.b + low = buf ∧ high - low = n ∧ low = offset := by
      simpa [sysWrite] using hw
    omega
  · intro h
    refine ⟨_, _, _, rfl, i - low.toNat, by omega, ?_, by omega⟩
    rw [hsum h.left]
    omega

theorem writes_within : (∀ i, Writes (sysWrite fb low high) i → i < fb.len.toNat) ↔
    low.toNat = high.toNat ∨ low.toNat < high.toNat ∧ high.toNat ≤ fb.len.toNat := by
  have hb := fb.user
  have hl := low.toNat_lt
  simp only [writes_iff, writeEnd]
  constructor
  · intro h
    split_ifs at h with hle
    case pos =>
      by_cases he : low.toNat = high.toNat
      case pos => exact .inl he
      case neg =>
        have := h (high.toNat - 1) (by omega)
        omega
    case neg =>
      have := h (high.toNat + 2 ^ 64 - 1) (by omega)
      omega
  · intro h i hi
    split_ifs at hi <;> omega

end Write

section Clamp

variable {fb : Framebuf} {d : Rect} {x y : ℕ}

theorem Framebuf.pitch_mul (fb : Framebuf) (h : y < fb.height.toNat) :
    fb.pitch.toNat * y + fb.pitch.toNat ≤ fb.len.toNat := by
  rw [fb.size, ← Nat.mul_succ]
  exact Nat.mul_le_mul_left _ h

theorem clamp_x2 : (clamp d fb).x2.toNat = min d.x2.toNat (fb.width.toNat - 1) := by
  have hx := d.x2.toNat_lt
  have hw := fb.columns
  have h1 : (fb.width - 1).toNat = fb.width.toNat - 1 := by
    rw [UInt64.toNat_sub_of_le _ _ (by rw [UInt64.le_iff_toNat_le]; exact hw)]
    rfl
  simp only [clamp, UInt64.le_iff_toNat_le, UInt32.toNat_toUInt64]
  split_ifs with h
  · rw [UInt64.toNat_toUInt32, h1, Nat.mod_eq_of_lt (by omega)]
    omega
  · omega

theorem clamp_y2 : (clamp d fb).y2.toNat = min d.y2.toNat (fb.height.toNat - 1) := by
  have hx := d.y2.toNat_lt
  have hw := fb.rows
  have h1 : (fb.height - 1).toNat = fb.height.toNat - 1 := by
    rw [UInt64.toNat_sub_of_le _ _ (by rw [UInt64.le_iff_toNat_le]; exact hw)]
    rfl
  simp only [clamp, UInt64.le_iff_toNat_le, UInt32.toNat_toUInt64]
  split_ifs with h
  · rw [UInt64.toNat_toUInt32, h1, Nat.mod_eq_of_lt (by omega)]
    omega
  · omega

theorem has_iff : d.Has fb x y ↔ (d.x1.toNat ≤ x ∧ x ≤ (clamp d fb).x2.toNat) ∧
    d.y1.toNat ≤ y ∧ y ≤ (clamp d fb).y2.toNat := by
  have hw := fb.columns
  have hh := fb.rows
  rw [clamp_x2, clamp_y2]
  constructor
  · rintro ⟨hl, hr, ht, hb, hc, hrow⟩
    omega
  · intro h
    exact ⟨by omega, by omega, by omega, by omega, by omega, by omega⟩

end Clamp

section Combined

variable {fb : Framebuf} {d : Rect}

-- A rectangle on the screen.
structure OnScreen (fb : Framebuf) (d : Rect) : Prop where
  column : d.x2.toNat < fb.width.toNat
  row    : d.y2.toNat < fb.height.toNat

theorem onScreen_clamp : OnScreen fb (clamp d fb) := by
  have hw := fb.columns
  have hh := fb.rows
  refine ⟨?_, ?_⟩
  · rw [clamp_x2]
    omega
  · rw [clamp_y2]
    omega

-- The offset of a byte is computed modulo 2^64, and that in its row modulo 2^32.
theorem toNat_low {x : UInt32} {y : UInt64} : (fb.pitch * y + (4 * x).toUInt64).toNat =
    (fb.pitch.toNat * y.toNat + 4 * x.toNat % 2 ^ 32) % 2 ^ 64 := by
  rw [UInt64.toNat_add, UInt64.toNat_mul, UInt32.toNat_toUInt64, UInt32.toNat_mul, Nat.mod_add_mod]
  rfl

theorem toNat_row {x : UInt32} {y : UInt64} (h : y.toNat < fb.height.toNat) :
    (fb.pitch * y + (4 * x).toUInt64).toNat = fb.pitch.toNat * y.toNat + 4 * x.toNat % 2 ^ 32 := by
  have hp := fb.pitch_mul h
  have hu := fb.user
  rw [toNat_low, Nat.mod_eq_of_lt (by omega)]

theorem toNat_high {x : UInt32} {y : UInt64} (h : y.toNat < fb.height.toNat) :
    (fb.pitch * y + (4 * x).toUInt64 + 4).toNat = fb.pitch.toNat * y.toNat + 4 * x.toNat % 2 ^ 32 + 4 := by
  have hp := fb.pitch_mul h
  have hu := fb.user
  rw [UInt64.toNat_add, toNat_row h]
  exact Nat.mod_eq_of_lt (by change _ + 4 < _; omega)

theorem empty_iff : d.Empty ↔ d.x2.toNat < d.x1.toNat ∨ d.y2.toNat < d.y1.toNat := by
  rw [Rect.Empty, UInt32.lt_iff_toNat_lt, UInt32.lt_iff_toNat_lt]

-- The pixels of a rectangle on the screen.
theorem forall_has {p : ℕ → ℕ → Prop} : (∀ x y, d.Has fb x y → p x y) ↔
    ∀ x y, (clamp d fb).x1.toNat ≤ x → x ≤ (clamp d fb).x2.toNat → (clamp d fb).y1.toNat ≤ y →
      y ≤ (clamp d fb).y2.toNat → p x y := by
  simp only [has_iff]
  constructor
  case mp  => exact fun h x y h₁ h₂ h₃ h₄ => h x y ⟨⟨h₁, h₂⟩, h₃, h₄⟩
  case mpr => exact fun h x y hxy => h x y hxy.left.left hxy.left.right hxy.right.left hxy.right.right

-- The byte of a pixel is in its row.
theorem byte_lt {x y k : ℕ} (hx : x < fb.width.toNat) (hy : y < fb.height.toNat) (hk : k < 4) :
    fb.pitch.toNat * y + 4 * x + k < fb.len.toNat := by
  have hp := fb.pitch_mul hy
  have hw := fb.wide
  omega

-- The single write of a rectangle which was clamped.
structure Copied (fb : Framebuf) (d : Rect) (ws : List (List UInt64)) : Prop where
  copies : ∀ x y, d.x1.toNat ≤ x → x ≤ d.x2.toNat → d.y1.toNat ≤ y → y ≤ d.y2.toNat →
    ∀ k < 4, ∃ w ∈ ws, Copies fb w (fb.pitch.toNat * y + 4 * x + k)
  within : ∀ w ∈ ws, ∀ i, Writes w i → i < fb.len.toNat

theorem covers_iff {ws : List (List UInt64)} : Covers fb d ws ↔ Copied fb (clamp d fb) ws :=
  ⟨fun h => ⟨forall_has.mp h.copies, h.within⟩, fun h => ⟨forall_has.mpr h.copies, h.within⟩⟩

theorem combined_iff (h : OnScreen fb d) : Copied fb d [flushCombined d fb] ↔ CombinedFits fb d := by
  have hlow := @toNat_low fb d.x1 d.y1.toUInt64
  have hhigh := @toNat_high fb d.y2 d.y2.toUInt64 h.row
  rw [UInt32.toNat_toUInt64] at hlow hhigh
  rw [CombinedFits, flushCombined]
  generalize fb.pitch * d.y1.toUInt64 + (4 * d.x1).toUInt64 = low at *
  generalize fb.pitch * d.y2.toUInt64 + (4 * d.y2).toUInt64 + 4 = high at *
  rw [← hhigh]
  by_cases he : d.Empty
  case pos =>
    rw [if_pos he, ← hlow, ← writes_within]
    constructor
    · exact fun hc => hc.within _ List.mem_cons_self
    · intro hw
      refine ⟨fun x y hl hr ht hb => ?_, List.forall_mem_singleton.mpr hw⟩
      rw [empty_iff] at he
      omega
  case neg =>
    rw [if_neg he]
    rw [empty_iff] at he
    have hcol := h.column
    have hp := fb.pitch_mul h.row
    have hu := fb.user
    have hy1 : fb.pitch.toNat * d.y1.toNat ≤ fb.pitch.toNat * d.y2.toNat := Nat.mul_le_mul_left _ (by omega)
    rw [Nat.mod_eq_of_lt (by omega)] at hlow
    have hx1 := Nat.mod_le (4 * d.x1.toNat) (2 ^ 32)
    constructor
    case mp =>
      intro hc
      obtain ⟨w, hw, hcopy⟩ := hc.copies d.x2.toNat d.y2.toNat (by omega) le_rfl (by omega) le_rfl 3 (by omega)
      obtain rfl := List.mem_singleton.mp hw
      rw [copies_iff (byte_lt hcol h.row (by omega)), writeEnd] at hcopy
      obtain he | ⟨hlt, hle⟩ := writes_within.mp (hc.within _ List.mem_cons_self)
      case inl =>
        rw [if_pos (Nat.le_of_eq he)] at hcopy
        omega
      case inr =>
        rw [if_pos (Nat.le_of_lt hlt)] at hcopy
        exact ⟨by omega, hle⟩
    case mpr =>
      rintro ⟨hx, hle⟩
      refine ⟨fun x y hl hr ht hb k hk => ⟨_, List.mem_cons_self, ?_⟩, ?_⟩
      · have hya : fb.pitch.toNat * d.y1.toNat ≤ fb.pitch.toNat * y := Nat.mul_le_mul_left _ ht
        have hyb : fb.pitch.toNat * y ≤ fb.pitch.toNat * d.y2.toNat := Nat.mul_le_mul_left _ hb
        have hrow := h.row
        rw [copies_iff (byte_lt (by omega) (by omega) hk), writeEnd, if_pos (by omega)]
        omega
      · exact List.forall_mem_singleton.mpr (writes_within.mpr (.inr ⟨by omega, hle⟩))

end Combined

section Split

variable {fb : Framebuf} {d : Rect} {n y : ℕ} {execbuf : List UInt64}

-- The writes of `n` rows.
def rowWrites (fb : Framebuf) (d : Rect) (n y : ℕ) : List (List UInt64) :=
  (List.range n).map fun i => sysWrite fb (fb.pitch * UInt64.ofNat (y + i) + (4 * d.x1).toUInt64)
    (fb.pitch * UInt64.ofNat (y + i) + (4 * d.x2).toUInt64 + 4)

theorem rowWrites_succ : rowWrites fb d (n + 1) y =
    sysWrite fb (fb.pitch * UInt64.ofNat y + (4 * d.x1).toUInt64)
      (fb.pitch * UInt64.ofNat y + (4 * d.x2).toUInt64 + 4) :: rowWrites fb d n (y + 1) := by
  rw [rowWrites, List.range_succ_eq_map, List.map_cons, List.map_map, rowWrites, Nat.add_zero]
  congr 2
  funext i
  simp only [Function.comp_apply, Nat.add_assoc, Nat.add_comm 1]

theorem length_instr {low high : UInt64} : (EXECBUF_SYSCALL :: sysWrite fb low high).length = 7 :=
  rfl

-- Each row takes seven words.
theorem splitLoop_eq : splitLoop d fb n y execbuf =
    if n = 0 ∨ execbuf.length + 7 * n ≤ EXECBUF_MAX_LEN / 8 then
      some (execbuf ++ ((rowWrites fb d n y).map Instr.syscall).flatMap Instr.encode)
    else none := by
  induction n generalizing y execbuf
  case zero => simp [splitLoop, rowWrites]
  case succ n hi =>
    rw [splitLoop, append]
    by_cases hfull : execbuf.length + 7 ≤ EXECBUF_MAX_LEN / 8
    case pos =>
      have hiff : (n = 0 ∨ execbuf.length + 7 + 7 * n ≤ EXECBUF_MAX_LEN / 8) ↔
          (n + 1 = 0 ∨ execbuf.length + 7 * (n + 1) ≤ EXECBUF_MAX_LEN / 8) := by
        omega
      rw [length_instr, if_pos hfull, Option.bind_eq_bind, Option.bind_some, hi, List.length_append, length_instr,
        rowWrites_succ, List.map_cons, List.flatMap_cons, ← List.append_assoc]
      simp only [hiff]
      rfl
    case neg =>
      rw [length_instr, if_neg hfull, if_neg (by omega)]
      rfl

theorem sysCalls_rowWrites :
    sysCalls (((rowWrites fb d n y).map Instr.syscall).flatMap Instr.encode) = rowWrites fb d n y := by
  have hc : ∀ i ∈ (rowWrites fb d n y).map Instr.syscall, i.Complete := by
    simp only [rowWrites, List.map_map, List.mem_map]
    rintro i ⟨k, -, rfl⟩
    rfl
  have hd := @decode_append [] _ hc
  rw [List.append_nil, decode_nil, List.append_nil] at hd
  rw [sysCalls, hd, List.filterMap_map]
  exact List.filterMap_some

-- A row of a rectangle on the screen.
theorem mem_rowWrites {w : List UInt64} (h : OnScreen fb d) :
    w ∈ rowWrites fb d (d.y2.toNat - d.y1.toNat) d.y1.toNat ↔ ∃ y low high, (d.y1.toNat ≤ y ∧ y < d.y2.toNat) ∧
      w = sysWrite fb low high ∧ low.toNat = fb.pitch.toNat * y + 4 * d.x1.toNat % 2 ^ 32 ∧
        high.toNat = fb.pitch.toNat * y + 4 * d.x2.toNat % 2 ^ 32 + 4 := by
  have hh := h.row
  have hy2 := d.y2.toNat_lt
  have hrow (y : ℕ) (hy : y < d.y2.toNat) : (UInt64.ofNat y).toNat = y := by
    rw [UInt64.toNat_ofNat']
    exact Nat.mod_eq_of_lt (by omega)
  rw [rowWrites, List.mem_map]
  constructor
  · rintro ⟨i, hi, rfl⟩
    have hi := List.mem_range.mp hi
    have hy := hrow (d.y1.toNat + i) (by omega)
    refine ⟨d.y1.toNat + i, _, _, ⟨by omega, by omega⟩, rfl, ?_, ?_⟩
    · rw [toNat_row (by omega), hy]
    · rw [toNat_high (by omega), hy]
  · rintro ⟨y, low, high, ⟨hl, hlt⟩, rfl, hlow, hhigh⟩
    have hy := hrow y hlt
    refine ⟨y - d.y1.toNat, List.mem_range.mpr (by omega), ?_⟩
    rw [Nat.add_sub_cancel' hl]
    congr 1
    · exact UInt64.toNat_inj.mp (by rw [toNat_row (by omega), hy, hlow])
    · exact UInt64.toNat_inj.mp (by rw [toNat_high (by omega), hy, hhigh])

-- The rows of a rectangle on the screen without the last one.
theorem rows_iff (h : OnScreen fb d) : Copied fb d (rowWrites fb d (d.y2.toNat - d.y1.toNat) d.y1.toNat) ↔
    d.Empty ∧ (d.y1.toNat < d.y2.toNat → 4 * d.x1.toNat % 2 ^ 32 ≤ 4 * d.x2.toNat % 2 ^ 32 + 4) := by
  have hcol := h.column
  have hwide := fb.wide
  have hx2 := Nat.mod_le (4 * d.x2.toNat) (2 ^ 32)
  constructor
  case mp =>
    intro hc
    have hin (y : ℕ) (low high : UInt64) (hl : d.y1.toNat ≤ y) (hlt : y < d.y2.toNat)
        (hlow : low.toNat = fb.pitch.toNat * y + 4 * d.x1.toNat % 2 ^ 32)
        (hhigh : high.toNat = fb.pitch.toNat * y + 4 * d.x2.toNat % 2 ^ 32 + 4) :=
      writes_within.mp (hc.within _ ((mem_rowWrites h).mpr ⟨y, low, high, ⟨hl, hlt⟩, rfl, hlow, hhigh⟩))
    refine ⟨?_, fun hlt => ?_⟩
    case refine_1 =>
      by_contra he
      rw [empty_iff] at he
      obtain ⟨w, hw, hcopy⟩ := hc.copies d.x1.toNat d.y2.toNat le_rfl (by omega) (by omega) le_rfl 0 (by omega)
      obtain ⟨y, low, high, ⟨hl, hlt⟩, rfl, hlow, hhigh⟩ := (mem_rowWrites h).mp hw
      rw [copies_iff (byte_lt (by omega) h.row (by omega)), writeEnd] at hcopy
      have hnext : fb.pitch.toNat * y + fb.pitch.toNat ≤ fb.pitch.toNat * d.y2.toNat := by
        rw [← Nat.mul_succ]
        exact Nat.mul_le_mul_left _ hlt
      have hw := hin y low high hl hlt hlow hhigh
      rw [if_pos (by omega)] at hcopy
      omega
    case refine_2 =>
      obtain ⟨w, hw⟩ : ∃ w, w ∈ rowWrites fb d (d.y2.toNat - d.y1.toNat) d.y1.toNat :=
        List.exists_mem_of_length_pos (by simp [rowWrites]; omega)
      obtain ⟨y, low, high, ⟨hl, hlt⟩, -, hlow, hhigh⟩ := (mem_rowWrites h).mp hw
      have := hin y low high hl hlt hlow hhigh
      omega
  case mpr =>
    rintro ⟨he, hx⟩
    rw [empty_iff] at he
    refine ⟨fun x y hl hr ht hb => by omega, fun w hw => ?_⟩
    obtain ⟨y, low, high, ⟨hl, hlt⟩, rfl, hlow, hhigh⟩ := (mem_rowWrites h).mp hw
    have hp := fb.pitch_mul (hlt.trans h.row)
    have := hx (by omega)
    exact writes_within.mpr (by omega)

theorem split_iff (h : OnScreen fb d) : (∃ ws, (splitLoop d fb (d.y2.toNat - d.y1.toNat) d.y1.toNat []).map sysCalls =
    some ws ∧ Copied fb d ws) ↔ SplitFits d := by
  rw [splitLoop_eq]
  have hrows : (d.y2.toNat - d.y1.toNat = 0 ∨ ([] : List UInt64).length + 7 * (d.y2.toNat - d.y1.toNat) ≤
      EXECBUF_MAX_LEN / 8) ↔ d.y2.toNat ≤ d.y1.toNat + 73 := by
    rw [List.length_nil, EXECBUF_MAX_LEN]
    omega
  simp only [hrows]
  split_ifs with hle
  case pos =>
    rw [List.nil_append, Option.map_some, sysCalls_rowWrites]
    simp only [Option.some_inj, exists_eq_left', rows_iff h]
    exact ⟨fun hc => ⟨hc.left, hle, hc.right⟩, fun hs => ⟨hs.empty, hs.width⟩⟩
  case neg =>
    refine iff_of_false ?_ fun hs => hle hs.rows
    rintro ⟨ws, hws, -⟩
    exact absurd hws nofun

end Split

section Flush

variable {fb : Framebuf} {d : Rect} {marks : List (UInt32 × UInt32)} {x y : UInt32}

theorem exists_flush {o : Option (List (List UInt64))} {p : List (List UInt64) → Prop} :
    (∃ ws d', (o.map fun ws => (ws, dirtyReset)) = some (ws, d') ∧ p ws) ↔ ∃ ws, o = some ws ∧ p ws := by
  cases o <;> simp

theorem exists_single {ws : List (List UInt64)} {p : List (List UInt64) → Prop} :
    (∃ ws', some ws = some ws' ∧ p ws') ↔ p ws := by
  simp

theorem copied_nil : Copied fb d [] ↔ d.Empty := by
  rw [empty_iff]
  constructor
  · intro h
    by_contra he
    obtain ⟨w, hw, -⟩ := h.copies d.x1.toNat d.y1.toNat le_rfl (by omega) le_rfl (by omega) 0 (by omega)
    exact absurd hw List.not_mem_nil
  · exact fun h => ⟨fun x y hl hr ht hb => by omega, nofun⟩

theorem flushes_iff_fits : Flushes fb d ↔ FlushFits fb d := by
  have hs := @onScreen_clamp fb d
  rw [Flushes, dirtyFlush, FlushFits]
  simp only [covers_iff]
  split_ifs with hclean hbroad hfits hfits
  · simp [copied_nil]
  · rw [exists_flush, exists_single, combined_iff hs]
  · exact absurd (.inl hbroad) hfits
  · have htall := hfits.resolve_left hbroad
    rw [exists_flush, flushSplit, if_pos htall, exists_single, combined_iff hs]
  · have htall : ¬tall (clamp d fb) := fun ht => hfits (.inr ht)
    rw [exists_flush, flushSplit, if_neg htall, split_iff hs]

-- The rectangle after all marks.
def marked (marks : List (UInt32 × UInt32)) : Rect :=
  marks.foldl (fun d p => dirtyMark d p.fst p.snd) dirtyReset

structure Rect.Bounds (d : Rect) (x y : UInt32) : Prop where
  left   : d.x1 ≤ x
  right  : x ≤ d.x2
  top    : d.y1 ≤ y
  bottom : y ≤ d.y2

theorem dirtyMark_bounds : (dirtyMark d x y).Bounds x y := by
  refine ⟨?_, ?_, ?_, ?_⟩ <;>
    simp only [dirtyMark, UInt32.lt_iff_toNat_lt, UInt32.le_iff_toNat_le] <;>
    split_ifs <;>
    omega

theorem Rect.Bounds.mark {x' y' : UInt32} (h : d.Bounds x y) : (dirtyMark d x' y').Bounds x y := by
  obtain ⟨hl, hr, ht, hb⟩ := h
  rw [UInt32.le_iff_toNat_le] at hl hr ht hb
  refine ⟨?_, ?_, ?_, ?_⟩ <;>
    simp only [dirtyMark, UInt32.lt_iff_toNat_lt, UInt32.le_iff_toNat_le] <;>
    split_ifs <;>
    omega

theorem marked_bounds {p : UInt32 × UInt32} (h : p ∈ marks) : (marked marks).Bounds p.fst p.snd := by
  rw [marked]
  induction marks using List.reverseRecOn
  case nil => exact absurd h List.not_mem_nil
  case append_singleton marks q hi =>
    rw [List.foldl_append, List.foldl_cons, List.foldl_nil]
    obtain h | h := List.mem_append.mp h
    · exact (hi h).mark
    · obtain rfl := List.mem_singleton.mp h
      exact dirtyMark_bounds

-- A rectangle with pixels is flushed by a single write if it is not too wide for its height, and never row by row.
theorem flushes_iff : (∀ p ∈ marks, (marked marks).Bounds p.fst p.snd) ∧
    (Flushes fb (marked marks) ↔ FlushFits fb (marked marks)) :=
  ⟨fun _ => marked_bounds, flushes_iff_fits⟩

def screen : Framebuf where
  len     := 1228800
  width   := 640
  height  := 480
  pitch   := 2560
  b       := 4096
  fd      := 3
  columns := by decide
  rows    := by decide
  wide    := by decide
  size    := by decide
  user    := by decide

-- The rectangle is wider than 40 and not wider than its last row is far down.
theorem flushes_iff_screen : Flushes screen (marked [(400, 3), (0, 479)]) := by
  refine flushes_iff.right.mpr ?_
  rw [FlushFits, if_neg (by decide), if_pos (by decide), CombinedFits]
  decide

-- A single pixel is not flushed, and the end of a wide rectangle is not either.
theorem not_flushes_pixel : dirtyFlush (marked [(10, 10)]) screen = some ([], dirtyReset) ∧
    ¬Flushes screen (marked [(10, 10)]) ∧
    dirtyFlush (marked [(0, 0), (639, 10)]) screen = some ([sysWrite screen 0 25644], dirtyReset) ∧
    ¬Flushes screen (marked [(0, 0), (639, 10)]) := by
  have hpixel : dirtyFlush (marked [(10, 10)]) screen = some ([], dirtyReset) := by decide +kernel
  have hwide : dirtyFlush (marked [(0, 0), (639, 10)]) screen = some ([sysWrite screen 0 25644], dirtyReset) := by
    decide +kernel
  refine ⟨hpixel, ?_, hwide, ?_⟩
  · rintro ⟨ws, d', hf, hc⟩
    obtain ⟨rfl, -⟩ := Prod.mk.inj (Option.some_inj.mp (hpixel.symm.trans hf))
    obtain ⟨w, hw, -⟩ := hc.copies 10 10 ⟨by decide, by decide, by decide, by decide, by decide, by decide⟩ 0 (by decide)
    exact absurd hw List.not_mem_nil
  · rintro ⟨ws, d', hf, hc⟩
    obtain ⟨rfl, -⟩ := Prod.mk.inj (Option.some_inj.mp (hwide.symm.trans hf))
    obtain ⟨w, hw, hcopy⟩ := hc.copies 639 10 ⟨by decide, by decide, by decide, by decide, by decide, by decide⟩ 0
      (by decide)
    obtain rfl := List.mem_singleton.mp hw
    exact absurd ((copies_iff (by decide)).mp hcopy).right (by decide)

end Flush
end Camellia.Draw
