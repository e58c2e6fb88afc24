import Camellia.Libc.Flush
import Camellia.Libk.Memmove

namespace Camellia.Vterm

open Draw

-- `struct psf2` and `font_data`: the glyphs follow each other, each of them with its pixels packed into bytes.
structure Font where
  glyphAmt  : UInt32
  glyphSize : UInt32
  h         : UInt32
  w         : UInt32
  data      : ℕ
  glyphs    : 0 < glyphAmt.toNat
  rows      : 0 < h.toNat
  columns   : 0 < w.toNat
  packed    : w.toNat * h.toNat ≤ 8 * glyphSize.toNat
  size      : glyphAmt.toNat * glyphSize.toNat < 2 ^ 32

-- What `main` sets up: a screen which is higher than a line of text, and a font elsewhere in the memory.
structure Screen where
  fb     : Framebuf
  font   : Font
  tall   : font.h.toNat < fb.height.toNat
  narrow : fb.width.toNat + 8 * font.w.toNat < 2 ^ 31
  short  : fb.height.toNat + 2 * font.h.toNat < 2 ^ 31
  apart  : font.data + font.glyphAmt.toNat * font.glyphSize.toNat ≤ fb.b.toNat ∨
    fb.b.toNat + fb.len.toNat ≤ font.data

structure Point where
  x : UInt32
  y : UInt32

structure State where
  mem    : Mem
  cursor : Point
  dirty  : Rect

section Code

variable (v : Screen)

def scroll (s : State) : State :=
  let rowLen := v.fb.pitch * v.font.h.toUInt64
  let rest := (v.fb.len - rowLen).toNat
  let mem := memmove s.mem v.fb.b.toNat (v.fb.b + rowLen).toNat rest
  { mem    := mem.fill (v.fb.b + v.fb.len - rowLen).toNat 0 rowLen.toNat
    cursor := { s.cursor with y := s.cursor.y - 1 }
    dirty  := { x1 := 0, y1 := 0, x2 := ~~~0, y2 := ~~~0 } }

-- The color of a pixel of a glyph. The shift of a signed `char` has the same last bit.
def color (m : Mem) (glyph : UInt32) (i j : ℕ) : ℕ :=
  let bitmap := v.font.data + (v.font.glyphSize * glyph).toNat
  let idx := j * v.font.w.toNat + i
  let byte := m (bitmap + idx / 8)
  ((byte >>> UInt8.ofNat (7 - idx % 8)) &&& 1).toNat * 0xB0B0B0

-- Where a pixel of a glyph is in the framebuffer.
def offset (x y : UInt32) (i j : ℕ) : UInt64 :=
  v.fb.pitch * ((y * v.font.h).toUInt64 + UInt64.ofNat j) + 4 * ((x * v.font.w).toUInt64 + UInt64.ofNat i)

def plot (glyph x y : UInt32) (i : ℕ) (m : Mem) (j : ℕ) : Mem :=
  m.storeNat (v.fb.b + offset v x y i j).toNat 4 (color v m glyph i j)

def fontBlit (glyph x y : UInt32) (s : State) : State :=
  let glyph := if v.font.glyphAmt ≤ glyph then 0 else glyph
  if x.toInt32 < 0 ∨ v.fb.width ≤ ((x + 1) * v.font.w).toUInt64 ∨
      y.toInt32 < 0 ∨ v.fb.height ≤ ((y + 1) * v.font.h).toUInt64 then
    s
  else
    let dirty := dirtyMark s.dirty (x * v.font.w) (y * v.font.h)
    let dirty := dirtyMark dirty ((x + 1) * v.font.w - 1) ((y + 1) * v.font.h - 1)
    let mem := (List.range v.font.w.toNat).foldl
      (fun m i => (List.range v.font.h.toNat).foldl (plot v glyph x y i) m) s.mem
    { s with mem, dirty }

-- What a character does before the cursor is put back on the screen. A `char` is extended with its sign.
def move (s : State) (c : UInt8) : State :=
  if c = 10 then
    { s with cursor := { x := 0, y := s.cursor.y + 1 } }
  else if c = 8 then
    { s with cursor.x := if 0 < s.cursor.x then s.cursor.x - 1 else s.cursor.x }
  else if c = 9 then
    { s with cursor.x := (s.cursor.x &&& ~~~7) + 8 }
  else
    let s := fontBlit v c.toInt8.toInt32.toUInt32 s.cursor.x s.cursor.y s
    { s with cursor.x := s.cursor.x + 1 }

def wrap (s : State) : State :=
  if v.fb.width ≤ (s.cursor.x * v.font.w).toUInt64 then
    { s with cursor := { x := 0, y := s.cursor.y + 1 } }
  else
    s

-- The loop ends at the latest when `cursor.y + 1` is 0.
def scrollLoop (s : State) : State :=
  if _h : v.fb.height ≤ ((s.cursor.y + 1) * v.font.h).toUInt64 then
    scrollLoop (scroll v s)
  else
    s
termination_by (s.cursor.y + 1).toNat
decreasing_by
  have hrows := v.fb.rows
  have hpos : (s.cursor.y + 1).toNat ≠ 0 := by
    intro hz
    rw [UInt64.le_iff_toNat_le, UInt32.toNat_toUInt64, UInt32.toNat_mul, hz, Nat.zero_mul, Nat.zero_mod] at _h
    omega
  have hy := s.cursor.y.toNat_lt
  change (s.cursor.y - 1 + 1).toNat < _
  rw [UInt32.sub_add_cancel]
  rw [UInt32.toNat_add] at hpos ⊢
  change (_ + 1) % _ ≠ 0 at hpos
  change _ < (_ + 1) % _
  omega

def inChar (s : State) (c : UInt8) : State :=
  scrollLoop v (wrap v (move v s c))

end Code

def pixel (v : Screen) (m : Mem) (x y : ℕ) : ℕ :=
  m.load (v.fb.b.toNat + v.fb.pitch.toNat * y + 4 * x) 4

-- The memory shows a picture on the screen, and is otherwise as it was.
structure Holds (v : Screen) (m₀ : Mem) (picture : ℕ → ℕ → ℕ) (m : Mem) : Prop where
  pixels : ∀ x < v.fb.width.toNat, ∀ y < v.fb.height.toNat, pixel v m x y = picture x y
  others : ∀ a, ¬(v.fb.b.toNat ≤ a ∧ a < v.fb.b.toNat + v.fb.len.toNat) → m a = m₀ a

section Pixels

variable {v : Screen} {m m₀ : Mem} {picture : ℕ → ℕ → ℕ} {glyph x y : UInt32} {i j n : ℕ}

theorem color_lt : color v m glyph i j < 256 ^ 4 := by
  have hbit : ∀ b : UInt8, (b &&& 1).toNat ≤ 1 := fun b => by
    rw [UInt8.toNat_and]
    exact Nat.and_le_right
  have := Nat.mul_le_mul_right 0xB0B0B0 <| hbit
    (m (v.font.data + (v.font.glyphSize * glyph).toNat + (j * v.font.w.toNat + i) / 8) >>>
      UInt8.ofNat (7 - (j * v.font.w.toNat + i) % 8))
  rw [color]
  omega

-- The bits of a glyph are in the font, and so not on the screen.
theorem Holds.color_eq (h : Holds v m₀ picture m) (hg : glyph < v.font.glyphAmt) (hi : i < v.font.w.toNat)
    (hj : j < v.font.h.toNat) : color v m glyph i j = color v m₀ glyph i j := by
  have hlt : glyph.toNat + 1 ≤ v.font.glyphAmt.toNat := UInt32.lt_iff_toNat_lt.mp hg
  have hmul := Nat.mul_le_mul_right v.font.glyphSize.toNat hlt
  rw [Nat.succ_mul] at hmul
  have hsize := v.font.size
  have hpacked := v.font.packed
  have hrow := Nat.mul_le_mul_right v.font.w.toNat (Nat.succ_le_of_lt hj)
  rw [Nat.succ_mul, Nat.mul_comm v.font.h.toNat] at hrow
  have hapart := v.apart
  have hoff : (v.font.glyphSize * glyph).toNat = glyph.toNat * v.font.glyphSize.toNat := by
    rw [UInt32.toNat_mul, Nat.mul_comm, Nat.mod_eq_of_lt (by omega)]
  simp only [color, hoff]
  rw [h.others _ (by omega)]

theorem pixel_lt (hx : i < v.fb.width.toNat) (hy : j < v.fb.height.toNat) :
    v.fb.pitch.toNat * j + 4 * i + 4 ≤ v.fb.len.toNat := by
  have := v.fb.pitch_mul hy
  have := v.fb.wide
  omega

-- Pixels do not overlap.
theorem pixel_apart {x' y' : ℕ} (hx : i < v.fb.width.toNat) (hx' : x' < v.fb.width.toNat) (h : ¬(x' = i ∧ y' = j)) :
    v.fb.pitch.toNat * y' + 4 * x' + 4 ≤ v.fb.pitch.toNat * j + 4 * i ∨
      v.fb.pitch.toNat * j + 4 * i + 4 ≤ v.fb.pitch.toNat * y' + 4 * x' := by
  have hw := v.fb.wide
  obtain hlt | rfl | hgt := lt_trichotomy y' j
  case inl =>
    have := Nat.mul_le_mul_left v.fb.pitch.toNat (Nat.succ_le_of_lt hlt)
    rw [Nat.mul_succ] at this
    omega
  case inr.inl => omega
  case inr.inr =>
    have := Nat.mul_le_mul_left v.fb.pitch.toNat (Nat.succ_le_of_lt hgt)
    rw [Nat.mul_succ] at this
    omega

-- The cell of a character.
structure Cell (v : Screen) (x y : UInt32) : Prop where
  column : (x.toNat + 1) * v.font.w.toNat < v.fb.width.toNat
  row    : (y.toNat + 1) * v.font.h.toNat < v.fb.height.toNat

theorem offset_toNat (h : Cell v x y) (hi : i < v.font.w.toNat) (hj : j < v.font.h.toNat) :
    (offset v x y i j).toNat =
      v.fb.pitch.toNat * (y.toNat * v.font.h.toNat + j) + 4 * (x.toNat * v.font.w.toNat + i) := by
  have hcol := h.column
  have hrow := h.row
  have hn := v.narrow
  have hs := v.short
  rw [Nat.succ_mul] at hcol hrow
  have hlt := @pixel_lt v _ _ (show x.toNat * v.font.w.toNat + i < _ by omega)
    (show y.toNat * v.font.h.toNat + j < _ by omega)
  have huser := v.fb.user
  have hx : ((x * v.font.w).toUInt64 + UInt64.ofNat i).toNat = x.toNat * v.font.w.toNat + i := by
    rw [UInt64.toNat_add, UInt32.toNat_toUInt64, UInt32.toNat_mul, UInt64.toNat_ofNat', Nat.mod_eq_of_lt (a := i) (by omega),
      Nat.mod_eq_of_lt (b := 2 ^ 32) (by omega), Nat.mod_eq_of_lt (by omega)]
  have hy : ((y * v.font.h).toUInt64 + UInt64.ofNat j).toNat = y.toNat * v.font.h.toNat + j := by
    rw [UInt64.toNat_add, UInt32.toNat_toUInt64, UInt32.toNat_mul, UInt64.toNat_ofNat', Nat.mod_eq_of_lt (a := j) (by omega),
      Nat.mod_eq_of_lt (b := 2 ^ 32) (by omega), Nat.mod_eq_of_lt (by omega)]
  rw [offset, UInt64.toNat_add, UInt64.toNat_mul, UInt64.toNat_mul, hx, hy, Nat.mod_add_mod, Nat.add_mod_mod]
  exact Nat.mod_eq_of_lt (by change _ + 4 * _ < _; omega)

theorem Holds.plot (h : Holds v m₀ picture m) (hc : Cell v x y) (hg : glyph < v.font.glyphAmt) (hi : i < v.font.w.toNat)
    (hj : j < v.font.h.toNat) :
    Holds v m₀ (fun px py =>
      if px = x.toNat * v.font.w.toNat + i ∧ py = y.toNat * v.font.h.toNat + j then color v m₀ glyph i j
      else picture px py) (plot v glyph x y i m j) := by
  have hcol := hc.column
  have hrow := hc.row
  rw [Nat.succ_mul] at hcol hrow
  have hX : x.toNat * v.font.w.toNat + i < v.fb.width.toNat := by omega
  have hY : y.toNat * v.font.h.toNat + j < v.fb.height.toNat := by omega
  have hlt := pixel_lt hX hY
  have huser := v.fb.user
  have haddr : (v.fb.b + offset v x y i j).toNat = v.fb.b.toNat +
      (v.fb.pitch.toNat * (y.toNat * v.font.h.toNat + j) + 4 * (x.toNat * v.font.w.toNat + i)) := by
    rw [UInt64.toNat_add, offset_toNat hc hi hj]
    exact Nat.mod_eq_of_lt (by omega)
  constructor
  case pixels =>
    intro px hpx py hpy
    rw [Vterm.plot, haddr, pixel]
    split
    case isTrue he =>
      rw [he.left, he.right, Nat.add_assoc, Mem.load_storeNat, Nat.mod_eq_of_lt color_lt, h.color_eq hg hi hj]
    case isFalse hne =>
      have := pixel_apart hX hpx hne
      rw [Mem.load_storeNat_ne (by omega)]
      exact h.pixels px hpx py hpy
  case others =>
    intro a ha
    rw [Vterm.plot, haddr, Mem.storeNat_not_mem (by omega)]
    exact h.others a ha

theorem Holds.congr {picture' : ℕ → ℕ → ℕ} (h : Holds v m₀ picture m)
    (he : ∀ x < v.fb.width.toNat, ∀ y < v.fb.height.toNat, picture x y = picture' x y) : Holds v m₀ picture' m :=
  ⟨fun x hx y hy => (h.pixels x hx y hy).trans (he x hx y hy), h.others⟩

theorem Holds.plots (h : Holds v m₀ picture m) (hc : Cell v x y) (hg : glyph < v.font.glyphAmt) (hi : i < v.font.w.toNat)
    (hn : n ≤ v.font.h.toNat) :
    Holds v m₀ (fun px py =>
      if px = x.toNat * v.font.w.toNat + i ∧ y.toNat * v.font.h.toNat ≤ py ∧ py < y.toNat * v.font.h.toNat + n then
        color v m₀ glyph i (py - y.toNat * v.font.h.toNat)
      else picture px py) ((List.range n).foldl (Vterm.plot v glyph x y i) m) := by
  induction n
  case zero =>
    refine h.congr fun px _ py _ => ?_
    rw [if_neg (by omega)]
  case succ n hn' =>
    rw [List.range_succ, List.foldl_append]
    refine ((hn' (Nat.le_of_succ_le hn)).plot hc hg hi (Nat.lt_of_succ_le hn)).congr fun px _ py _ => ?_
    split_ifs <;> first | omega | (congr 1; omega)

theorem Holds.drawn (h : Holds v m₀ picture m) (hc : Cell v x y) (hg : glyph < v.font.glyphAmt)
    (hn : n ≤ v.font.w.toNat) :
    Holds v m₀ (fun px py =>
      if (x.toNat * v.font.w.toNat ≤ px ∧ px < x.toNat * v.font.w.toNat + n) ∧
          y.toNat * v.font.h.toNat ≤ py ∧ py < y.toNat * v.font.h.toNat + v.font.h.toNat then
        color v m₀ glyph (px - x.toNat * v.font.w.toNat) (py - y.toNat * v.font.h.toNat)
      else picture px py)
      ((List.range n).foldl (fun m i => (List.range v.font.h.toNat).foldl (Vterm.plot v glyph x y i) m) m) := by
  induction n
  case zero =>
    refine h.congr fun px _ py _ => ?_
    rw [if_neg (by omega)]
  case succ n hn' =>
    rw [List.range_succ, List.foldl_append]
    refine ((hn' (Nat.le_of_succ_le hn)).plots hc hg (Nat.lt_of_succ_le hn) le_rfl).congr fun px _ py _ => ?_
    split_ifs <;> first | omega | (congr 1; omega)

theorem load_blit {a d s n k : ℕ} (hl : d ≤ a) (hu : a + k ≤ d + n) : (m.blit d s n).load a k = m.load (s + (a - d)) k := by
  induction k generalizing a
  case zero => rfl
  case succ k hi =>
    rw [Mem.load, Mem.load, hi (by omega) (by omega), Mem.blit_mem ⟨hl, by omega⟩, show s + (a + 1 - d) = s + (a - d) + 1 by omega]

theorem load_fill {a d n k : ℕ} (hl : d ≤ a) (hu : a + k ≤ d + n) : (m.fill d 0 n).load a k = 0 := by
  induction k generalizing a
  case zero => rfl
  case succ k hi =>
    rw [Mem.load, hi (by omega) (by omega), Mem.fill, if_pos (by omega)]
    rfl

-- The rows move up by the height of a line, and those at the bottom are cleared.
theorem Holds.scroll {s : State} (h : Holds v m₀ picture s.mem) :
    Holds v m₀ (fun x y => if y + v.font.h.toNat < v.fb.height.toNat then picture x (y + v.font.h.toNat) else 0)
      (scroll v s).mem := by
  have htall := v.tall
  have huser := v.fb.user
  have hlen := v.fb.size
  have hshort := v.short
  have hle : v.fb.pitch.toNat * v.font.h.toNat ≤ v.fb.len.toNat := hlen ▸ Nat.mul_le_mul_left _ htall.le
  have hrow : (v.fb.pitch * v.font.h.toUInt64).toNat = v.fb.pitch.toNat * v.font.h.toNat := by
    rw [UInt64.toNat_mul, UInt32.toNat_toUInt64, Nat.mod_eq_of_lt (by omega)]
  have hrest : (v.fb.len - v.fb.pitch * v.font.h.toUInt64).toNat =
      v.fb.len.toNat - v.fb.pitch.toNat * v.font.h.toNat := by
    rw [UInt64.toNat_sub_of_le _ _ (by rw [UInt64.le_iff_toNat_le, hrow]; exact hle), hrow]
  have hfrom : (v.fb.b + v.fb.pitch * v.font.h.toUInt64).toNat =
      v.fb.b.toNat + v.fb.pitch.toNat * v.font.h.toNat := by
    rw [UInt64.toNat_add, hrow, Nat.mod_eq_of_lt (by omega)]
  have hend : (v.fb.b + v.fb.len - v.fb.pitch * v.font.h.toUInt64).toNat =
      v.fb.b.toNat + (v.fb.len.toNat - v.fb.pitch.toNat * v.font.h.toNat) := by
    have hsum : (v.fb.b + v.fb.len).toNat = v.fb.b.toNat + v.fb.len.toNat := by
      rw [UInt64.toNat_add, Nat.mod_eq_of_lt (by omega)]
    rw [UInt64.toNat_sub_of_le _ _ (by rw [UInt64.le_iff_toNat_le, hrow, hsum]; omega), hrow, hsum]
    omega
  have hmem : (Vterm.scroll v s).mem =
      (s.mem.blit v.fb.b.toNat (v.fb.b.toNat + v.fb.pitch.toNat * v.font.h.toNat)
        (v.fb.len.toNat - v.fb.pitch.toNat * v.font.h.toNat)).fill
        (v.fb.b.toNat + (v.fb.len.toNat - v.fb.pitch.toNat * v.font.h.toNat)) 0
        (v.fb.pitch.toNat * v.font.h.toNat) := by
    simp only [Vterm.scroll, hrow, hrest, hfrom, hend]
    rw [memmove_eq_blit (by omega) (by omega)]
  rw [hmem]
  constructor
  case pixels =>
    intro x hx y hy
    have hwide := v.fb.wide
    have hsplit : v.fb.len.toNat = v.fb.pitch.toNat * (v.fb.height.toNat - v.font.h.toNat) +
        v.fb.pitch.toNat * v.font.h.toNat := by
      rw [hlen, ← Nat.mul_add, Nat.sub_add_cancel htall.le]
    split
    case isTrue hlt =>
      have habove := Nat.mul_le_mul_left v.fb.pitch.toNat (show y + 1 ≤ v.fb.height.toNat - v.font.h.toNat by omega)
      rw [Nat.mul_succ] at habove
      rw [← h.pixels x hx _ hlt, pixel, pixel, Mem.load_fill_ne (by omega), load_blit (by omega) (by omega), Nat.mul_add]
      congr 1
      omega
    case isFalse hge =>
      have hbelow := Nat.mul_le_mul_left v.fb.pitch.toNat (show v.fb.height.toNat - v.font.h.toNat ≤ y by omega)
      have hp := pixel_lt hx hy
      exact load_fill (by omega) (by omega)
  case others =>
    intro a ha
    rw [Mem.fill_not_mem (by omega), Mem.blit_not_mem (by omega)]
    exact h.others a ha

end Pixels

-- A sheet of paper without an end, on which text is typed. The part from the line `top` on is looked at.
structure Paper where
  sheet : ℕ → ℕ → ℕ
  col   : ℕ
  line  : ℕ
  top   : ℕ

namespace Paper

section Operations

variable (v : Screen) (p : Paper)

-- How many lines fit, with at least one row of pixels left.
def lines : ℕ :=
  (v.fb.height.toNat - 1) / v.font.h.toNat

def Visible : Prop :=
  (p.col + 1) * v.font.w.toNat < v.fb.width.toNat

instance : Decidable (p.Visible v) :=
  inferInstanceAs <| Decidable (_ < _)

-- The picture of a character covers what was in its place.
def stamp (picture : ℕ → ℕ → ℕ) : Paper :=
  { p with sheet := fun x y =>
      if (p.col * v.font.w.toNat ≤ x ∧ x < p.col * v.font.w.toNat + v.font.w.toNat) ∧
          p.line * v.font.h.toNat ≤ y ∧ y < p.line * v.font.h.toNat + v.font.h.toNat then
        picture (x - p.col * v.font.w.toNat) (y - p.line * v.font.h.toNat)
      else p.sheet x y }

def move (picture : ℕ → ℕ → ℕ) (c : UInt8) : Paper :=
  if c = 10 then { p with col := 0, line := p.line + 1 }
  else if c = 8 then { p with col := p.col - 1 }
  else if c = 9 then { p with col := p.col / 8 * 8 + 8 }
  else { (if p.Visible v then p.stamp v picture else p) with col := p.col + 1 }

def wrap : Paper :=
  if v.fb.width.toNat ≤ p.col * v.font.w.toNat then { p with col := 0, line := p.line + 1 } else p

-- The line which is typed on is looked at.
def follow : Paper :=
  { p with top := max p.top (p.line + 1 - lines v) }

end Operations

def type (v : Screen) (picture : UInt8 → ℕ → ℕ → ℕ) (p : Paper) (c : UInt8) : Paper :=
  ((p.move v (picture c) c).wrap v).follow v

-- The paper below the screen is empty.
def start (v : Screen) (m : Mem) : Paper where
  sheet x y := if y < v.fb.height.toNat then pixel v m x y else 0
  col  := 0
  line := 0
  top  := 0

end Paper

-- The glyph of a character. Characters the font does not have get the first one.
def glyphOf (v : Screen) (c : UInt8) : UInt32 :=
  if v.font.glyphAmt ≤ c.toInt8.toInt32.toUInt32 then 0 else c.toInt8.toInt32.toUInt32

def picture (v : Screen) (m : Mem) (c : UInt8) : ℕ → ℕ → ℕ :=
  color v m (glyphOf v c)

-- The screen shows the paper from the line `top` on, and the cursor is where it is typed.
structure Shows (v : Screen) (m₀ : Mem) (s : State) (p : Paper) : Prop where
  holds : Holds v m₀ (fun x y => p.sheet x (y + p.top * v.font.h.toNat)) s.mem
  fresh : ∀ x y, p.top * v.font.h.toNat + v.fb.height.toNat ≤ y → p.sheet x y = 0
  col   : s.cursor.x.toNat = p.col
  line  : s.cursor.y.toNat + p.top = p.line

-- The cursor is on the screen.
structure OnScreen (v : Screen) (s : State) : Prop where
  column : s.cursor.x.toNat * v.font.w.toNat < v.fb.width.toNat
  row    : (s.cursor.y.toNat + 1) * v.font.h.toNat < v.fb.height.toNat

section Steps

variable {v : Screen} {m₀ : Mem} {s : State} {p : Paper} {c : UInt8} {x y : UInt32}

theorem glyphOf_lt : glyphOf v c < v.font.glyphAmt := by
  rw [glyphOf]
  split
  case isTrue => exact UInt32.lt_iff_toNat_lt.mpr v.font.glyphs
  case isFalse h =>
    rw [UInt32.le_iff_toNat_le] at h
    exact UInt32.lt_iff_toNat_lt.mpr (not_le.mp h)

theorem toNat_add_one {a : UInt32} (h : a.toNat + 1 < 2 ^ 32) : (a + 1).toNat = a.toNat + 1 := by
  rw [UInt32.toNat_add]
  exact Nat.mod_eq_of_lt h

theorem toNat_tab {a : UInt32} (h : a.toNat + 8 < 2 ^ 32) : ((a &&& ~~~7) + 8).toNat = a.toNat / 8 * 8 + 8 := by
  have hand : (a &&& ~~~7).toNat = a.toNat / 8 * 8 := by
    have hmask : (~~~7 : UInt32).toNat = 2 ^ 32 - (7 + 1) := by decide
    rw [UInt32.toNat_and, hmask]
    refine Nat.eq_of_testBit_eq fun i => ?_
    have hshift : a.toNat / 8 * 8 = a.toNat >>> 3 <<< 3 := by
      rw [Nat.shiftLeft_eq, Nat.shiftRight_eq_div_pow]
    rw [Nat.testBit_and, Nat.testBit_two_pow_sub_succ (by decide), hshift, Nat.testBit_shiftLeft,
      Nat.testBit_shiftRight, show (7 : ℕ) = 2 ^ 3 - 1 from rfl, Nat.testBit_two_pow_sub_one]
    by_cases hi : i < 3
    case pos => simp [hi]
    case neg =>
      by_cases hb : i < 32
      case pos => simpa [hi, hb, Nat.add_sub_cancel' (not_lt.mp hi)] using fun _ => not_lt.mp hi
      case neg =>
        have hlt : a.toNat < 2 ^ i := a.toNat_lt.trans_le (Nat.pow_le_pow_right (by decide) (not_lt.mp hb))
        simp [hb, Nat.testBit_lt_two_pow hlt, Nat.add_sub_cancel' (not_lt.mp hi)]
  rw [UInt32.toNat_add, hand]
  exact Nat.mod_eq_of_lt (by change _ + 8 < _; omega)

-- The product of a coordinate and a size of the font, which is computed in 32 bits.
theorem toNat_mul {a b : UInt32} (h : a.toNat * b.toNat < 2 ^ 32) : (a * b).toUInt64.toNat = a.toNat * b.toNat := by
  rw [UInt32.toNat_toUInt64, UInt32.toNat_mul, Nat.mod_eq_of_lt h]

theorem toInt32_neg_iff {a : UInt32} : a.toInt32 < 0 ↔ 2 ^ 31 ≤ a.toNat := by
  rw [Int32.lt_iff_toInt_lt, ← Int32.toInt_toBitVec, UInt32.toBitVec_toInt32, BitVec.toInt_eq_toNat_bmod,
    UInt32.toNat_toBitVec, Int.bmod_def]
  have := a.toNat_lt
  split_ifs <;> simp <;> omega

namespace OnScreen

variable (h : OnScreen v s)

include h

theorem x_lt : s.cursor.x.toNat + 8 < 2 ^ 31 := by
  have := v.narrow
  have := h.column
  have := Nat.le_mul_of_pos_right (s.cursor.x.toNat + 8) v.font.columns
  rw [Nat.add_mul] at this
  omega

theorem y_lt : s.cursor.y.toNat + 1 < 2 ^ 31 := by
  have := v.short
  have := h.row
  have := Nat.le_mul_of_pos_right (s.cursor.y.toNat + 1) v.font.rows
  omega

-- The check of `font_blit` only depends on the column.
theorem hidden_iff : (s.cursor.x.toInt32 < 0 ∨ v.fb.width ≤ ((s.cursor.x + 1) * v.font.w).toUInt64 ∨
    s.cursor.y.toInt32 < 0 ∨ v.fb.height ≤ ((s.cursor.y + 1) * v.font.h).toUInt64) ↔
      v.fb.width.toNat ≤ (s.cursor.x.toNat + 1) * v.font.w.toNat := by
  have hx := h.x_lt
  have hy := h.y_lt
  have hcol := h.column
  have hrow := h.row
  have hn := v.narrow
  have hs := v.short
  have hcol' : (s.cursor.x.toNat + 1) * v.font.w.toNat < 2 ^ 32 := by
    rw [Nat.succ_mul]
    omega
  rw [toInt32_neg_iff, toInt32_neg_iff, UInt64.le_iff_toNat_le, UInt64.le_iff_toNat_le,
    toNat_mul (by rw [toNat_add_one (by omega)]; exact hcol'), toNat_mul (by rw [toNat_add_one (by omega)]; omega),
    toNat_add_one (by omega), toNat_add_one (by omega)]
  omega

end OnScreen

-- A character may be put where the cursor is.
theorem Shows.blit (h : Shows v m₀ s p) (ho : OnScreen v s) :
    Shows v m₀ (fontBlit v c.toInt8.toInt32.toUInt32 s.cursor.x s.cursor.y s)
      (if p.Visible v then p.stamp v (picture v m₀ c) else p) ∧
    (fontBlit v c.toInt8.toInt32.toUInt32 s.cursor.x s.cursor.y s).cursor = s.cursor := by
  have hvis : p.Visible v ↔ ¬v.fb.width.toNat ≤ (s.cursor.x.toNat + 1) * v.font.w.toNat := by
    rw [Paper.Visible, h.col, not_le]
  rw [fontBlit]
  by_cases hv : p.Visible v
  case neg =>
    rw [if_pos (ho.hidden_iff.mpr (not_not.mp (hvis.not.mp hv))), if_neg hv]
    exact ⟨h, rfl⟩
  case pos =>
    rw [if_neg (ho.hidden_iff.not.mpr (hvis.mp hv)), if_pos hv]
    refine ⟨⟨?_, ?_, h.col, h.line⟩, rfl⟩
    · have hcell : Cell v s.cursor.x s.cursor.y := ⟨not_le.mp (hvis.mp hv), ho.row⟩
      refine (h.holds.drawn hcell glyphOf_lt le_rfl).congr fun x _ y _ => ?_
      have hline : p.line * v.font.h.toNat = s.cursor.y.toNat * v.font.h.toNat + p.top * v.font.h.toNat := by
        rw [← h.line, Nat.add_mul]
      simp only [Paper.stamp, ← h.col, hline]
      split_ifs <;> first | omega | (congr 1; omega)
    · intro x y hy
      have hrow := ho.row
      rw [Nat.succ_mul] at hrow
      have hline : p.line * v.font.h.toNat = s.cursor.y.toNat * v.font.h.toNat + p.top * v.font.h.toNat := by
        rw [← h.line, Nat.add_mul]
      have hy : p.top * v.font.h.toNat + v.fb.height.toNat ≤ y := hy
      simp only [Paper.stamp]
      rw [if_neg (by omega)]
      exact h.fresh x y hy

theorem Shows.move (h : Shows v m₀ s p) (ho : OnScreen v s) :
    Shows v m₀ (Vterm.move v s c) (p.move v (picture v m₀ c) c) := by
  have hx := ho.x_lt
  have hy := ho.y_lt
  rw [Vterm.move, Paper.move]
  by_cases hnl : c = 10
  case pos =>
    rw [if_pos hnl, if_pos hnl]
    refine ⟨h.holds, h.fresh, rfl, ?_⟩
    rw [toNat_add_one (by omega), ← h.line, Nat.add_right_comm]
  case neg =>
    rw [if_neg hnl, if_neg hnl]
    by_cases hbs : c = 8
    case pos =>
      rw [if_pos hbs, if_pos hbs]
      refine ⟨h.holds, h.fresh, ?_, h.line⟩
      change UInt32.toNat (if 0 < s.cursor.x then s.cursor.x - 1 else s.cursor.x) = p.col - 1
      rw [← h.col]
      split
      case isTrue hpos =>
        rw [UInt32.toNat_sub_of_le _ _ (by rw [UInt32.le_iff_toNat_le]; exact UInt32.lt_iff_toNat_lt.mp hpos)]
        rfl
      case isFalse hz =>
        rw [UInt32.lt_iff_toNat_lt] at hz
        change ¬0 < _ at hz
        omega
    case neg =>
      rw [if_neg hbs, if_neg hbs]
      by_cases htab : c = 9
      case pos =>
        rw [if_pos htab, if_pos htab]
        refine ⟨h.holds, h.fresh, ?_, h.line⟩
        rw [toNat_tab (by omega), h.col]
      case neg =>
        rw [if_neg htab, if_neg htab]
        have ⟨hb, hcur⟩ := h.blit (c := c) ho
        have hline := hb.line
        rw [hcur] at hline
        refine ⟨hb.holds, hb.fresh, ?_, ?_⟩
        · change (UInt32.toNat (UInt32.add _ _)) = p.col + 1
          rw [hcur]
          exact (toNat_add_one (by omega)).trans (congrArg (· + 1) h.col)
        · rw [← hline]
          exact congrArg (·.y.toNat + _) hcur

-- The cursor may be somewhat off the screen.
structure Nearby (v : Screen) (s : State) (room : ℕ) : Prop where
  column : s.cursor.x.toNat * v.font.w.toNat < 2 ^ 31
  row    : (s.cursor.y.toNat + 1) * v.font.h.toNat < v.fb.height.toNat + room

theorem OnScreen.move (ho : OnScreen v s) (h : Shows v m₀ s p) : Nearby v (Vterm.move v s c) v.font.h.toNat := by
  have hx := ho.x_lt
  have hy := ho.y_lt
  have hcol := ho.column
  have hrow := ho.row
  have hn := v.narrow
  have hmoved := (h.move (c := c) ho).col
  have hadd : (s.cursor.x.toNat + 8) * v.font.w.toNat < 2 ^ 31 := by
    rw [Nat.add_mul]
    omega
  have hle : ∀ k ≤ s.cursor.x.toNat + 8, k * v.font.w.toNat < 2 ^ 31 := fun k hk =>
    (Nat.mul_le_mul_right _ hk).trans_lt hadd
  constructor
  case column =>
    rw [hmoved]
    apply hle
    rw [h.col, Paper.move]
    split_ifs
    all_goals dsimp only
    all_goals omega
  case row =>
    rw [Vterm.move]
    split_ifs
    case pos =>
      rw [toNat_add_one (by omega), Nat.succ_mul]
      omega
    case pos => exact Nat.lt_add_right _ hrow
    case neg => exact Nat.lt_add_right _ hrow
    case pos => exact Nat.lt_add_right _ hrow
    case neg =>
      have ⟨_, hcur⟩ := h.blit (c := c) ho
      dsimp only
      rw [hcur]
      exact Nat.lt_add_right _ hrow

theorem Shows.wrap (h : Shows v m₀ s p) (hn : Nearby v s v.font.h.toNat) :
    Shows v m₀ (Vterm.wrap v s) (p.wrap v) ∧ (Vterm.wrap v s).cursor.x.toNat * v.font.w.toNat < v.fb.width.toNat ∧
      ((Vterm.wrap v s).cursor.y.toNat + 1) * v.font.h.toNat < 2 ^ 31 := by
  have hs := v.short
  have hcol := hn.column
  have hrow := hn.row
  have hyle := Nat.le_mul_of_pos_right (s.cursor.y.toNat + 1) v.font.rows
  have hcond : v.fb.width ≤ (s.cursor.x * v.font.w).toUInt64 ↔ v.fb.width.toNat ≤ p.col * v.font.w.toNat := by
    rw [UInt64.le_iff_toNat_le, toNat_mul (by omega), h.col]
  rw [Vterm.wrap, Paper.wrap]
  by_cases hw : v.fb.width ≤ (s.cursor.x * v.font.w).toUInt64
  case pos =>
    rw [if_pos hw, if_pos (hcond.mp hw)]
    refine ⟨⟨h.holds, h.fresh, rfl, ?_⟩, ?_, ?_⟩
    · rw [toNat_add_one (by omega), ← h.line, Nat.add_right_comm]
    · have := v.fb.columns
      change 0 * _ < _
      omega
    · rw [toNat_add_one (by omega), Nat.succ_mul]
      omega
  case neg =>
    rw [if_neg hw, if_neg (hcond.not.mp hw)]
    refine ⟨h, ?_, by omega⟩
    rw [h.col]
    exact not_le.mp (hcond.not.mp hw)

theorem Shows.scroll (h : Shows v m₀ s p) (hy : 0 < s.cursor.y.toNat) :
    Shows v m₀ (Vterm.scroll v s) { p with top := p.top + 1 } where
  holds := by
    refine h.holds.scroll.congr fun x _ y hy => ?_
    simp only [Nat.succ_mul]
    split
    case isTrue => congr 1; omega
    case isFalse => exact (h.fresh x _ (by omega)).symm
  fresh x y hxy := by
    have hxy : (p.top + 1) * v.font.h.toNat + v.fb.height.toNat ≤ y := hxy
    rw [Nat.succ_mul] at hxy
    exact h.fresh x y (by omega)
  col  := h.col
  line := by
    have : (s.cursor.y - 1).toNat = s.cursor.y.toNat - 1 := by
      rw [UInt32.toNat_sub_of_le _ _ (by rw [UInt32.le_iff_toNat_le]; exact hy)]
      rfl
    change (s.cursor.y - 1).toNat + (p.top + 1) = p.line
    rw [this, ← h.line]
    omega

-- The loop looks for the line which is typed on.
theorem Shows.scrollLoop (h : Shows v m₀ s p) (hcol : s.cursor.x.toNat * v.font.w.toNat < v.fb.width.toNat)
    (hrow : (s.cursor.y.toNat + 1) * v.font.h.toNat < 2 ^ 31) :
    Shows v m₀ (Vterm.scrollLoop v s) (p.follow v) ∧ OnScreen v (Vterm.scrollLoop v s) := by
  fun_induction Vterm.scrollLoop v s generalizing p
  case case1 s hle hi =>
    have hyle := Nat.le_mul_of_pos_right (s.cursor.y.toNat + 1) v.font.rows
    have htall := v.tall
    rw [UInt64.le_iff_toNat_le, toNat_mul (by rw [toNat_add_one (by omega)]; omega), toNat_add_one (by omega)] at hle
    have hy : 0 < s.cursor.y.toNat := by
      by_contra hz
      rw [Nat.eq_zero_of_not_pos hz] at hle
      omega
    have hsub : (s.cursor.y - 1).toNat = s.cursor.y.toNat - 1 := by
      rw [UInt32.toNat_sub_of_le _ _ (by rw [UInt32.le_iff_toNat_le]; exact hy)]
      rfl
    have hfollow : ({ p with top := p.top + 1 } : Paper).follow v = p.follow v := by
      have hlt : Paper.lines v < s.cursor.y.toNat + 1 :=
        (Nat.div_lt_iff_lt_mul v.font.rows).mpr (by omega)
      have := h.line
      simp only [Paper.follow]
      congr 1
      omega
    rw [← hfollow]
    refine hi (h.scroll hy) hcol ?_
    change ((s.cursor.y - 1).toNat + 1) * _ < _
    rw [hsub, Nat.sub_add_cancel hy]
    rw [Nat.succ_mul] at hrow
    omega
  case case2 s hlt =>
    have hyle := Nat.le_mul_of_pos_right (s.cursor.y.toNat + 1) v.font.rows
    rw [UInt64.le_iff_toNat_le, toNat_mul (by rw [toNat_add_one (by omega)]; omega), toNat_add_one (by omega),
      not_le] at hlt
    have hfollow : p.follow v = p := by
      have hle : s.cursor.y.toNat + 1 ≤ Paper.lines v :=
        (Nat.le_div_iff_mul_le v.font.rows).mpr (by omega)
      have := h.line
      simp only [Paper.follow]
      congr 1
      omega
    rw [hfollow]
    exact ⟨h, hcol, hlt⟩

theorem Shows.inChar (h : Shows v m₀ s p) (ho : OnScreen v s) (c : UInt8) :
    Shows v m₀ (Vterm.inChar v s c) (p.type v (picture v m₀) c) ∧ OnScreen v (Vterm.inChar v s c) := by
  have ⟨hw, hcol, hrow⟩ := (h.move ho).wrap (ho.move (c := c) h)
  exact hw.scrollLoop hcol hrow

theorem Shows.inChars (h : Shows v m₀ s p) (ho : OnScreen v s) (cs : List UInt8) :
    Shows v m₀ (cs.foldl (Vterm.inChar v) s) (cs.foldl (Paper.type v (picture v m₀)) p) ∧
      OnScreen v (cs.foldl (Vterm.inChar v) s) := by
  induction cs generalizing s p
  case nil => exact ⟨h, ho⟩
  case cons c cs hi =>
    have ⟨h', ho'⟩ := h.inChar ho c
    exact hi h' ho'

end Steps

section Start

variable {v : Screen} {m : Mem} {dirty : Rect}

theorem shows_start : Shows v m ⟨m, ⟨0, 0⟩, dirty⟩ (Paper.start v m) where
  holds := by
    refine ⟨fun x _ y hy => ?_, fun _ _ => rfl⟩
    simp only [Paper.start, Nat.zero_mul, Nat.add_zero, if_pos hy]
  fresh x y hy := by
    have hy : 0 * v.font.h.toNat + v.fb.height.toNat ≤ y := hy
    simp only [Paper.start]
    exact if_neg (by omega)
  col  := rfl
  line := rfl

theorem onScreen_start : OnScreen v ⟨m, ⟨0, 0⟩, dirty⟩ where
  column := by
    have := v.fb.columns
    change 0 * _ < _
    omega
  row := by
    have := v.tall
    change (0 + 1) * _ < _
    omega

-- Whatever is typed, the screen is a window on the paper, the cursor stays on it, and nothing else is written.
theorem inChars_paper (v : Screen) (m : Mem) (dirty : Rect) (cs : List UInt8) :
    Shows v m (cs.foldl (inChar v) ⟨m, ⟨0, 0⟩, dirty⟩) (cs.foldl (Paper.type v (picture v m)) (Paper.start v m)) ∧
      OnScreen v (cs.foldl (inChar v) ⟨m, ⟨0, 0⟩, dirty⟩) :=
  shows_start.inChars onScreen_start cs

end Start

-- What was marked stays marked, and what has changed is marked.
structure Marks (v : Screen) (s s' : State) : Prop where
  mono    : ∀ x y, s.dirty.Has v.fb x y → s'.dirty.Has v.fb x y
  changed : ∀ x < v.fb.width.toNat, ∀ y < v.fb.height.toNat,
    pixel v s'.mem x y ≠ pixel v s.mem x y → s'.dirty.Has v.fb x y

namespace Marks

variable {v : Screen} {m₀ : Mem} {s s' s'' : State} {p : Paper} {c : UInt8} {d : Rect} {a b : UInt32} {x y : ℕ}

theorem trans (h : Marks v s s') (h' : Marks v s' s'') : Marks v s s'' where
  mono x y hd := h'.mono x y (h.mono x y hd)
  changed x hx y hy hne := by
    by_cases he : pixel v s''.mem x y = pixel v s'.mem x y
    case pos => exact h'.mono x y (h.changed x hx y hy fun hsame => hne (he.trans hsame))
    case neg => exact h'.changed x hx y hy he

-- Nothing is drawn.
theorem same (hm : s'.mem = s.mem) (hd : s'.dirty = s.dirty) : Marks v s s' where
  mono x y h := hd ▸ h
  changed x hx y hy hne := absurd (by rw [hm]) hne

theorem has_dirtyMark (h : d.Has v.fb x y) : (dirtyMark d a b).Has v.fb x y := by
  have ⟨hl, hr, ht, hb, hc, hrow⟩ := h
  refine ⟨?_, ?_, ?_, ?_, hc, hrow⟩
  all_goals simp only [dirtyMark, UInt32.lt_iff_toNat_lt]
  all_goals split_ifs
  all_goals omega

-- Two opposite corners are marked.
theorem has_corners {a' b' : UInt32} (hx : x < v.fb.width.toNat) (hy : y < v.fb.height.toNat) (hl : a.toNat ≤ x)
    (hr : x ≤ a'.toNat) (ht : b.toNat ≤ y) (hb : y ≤ b'.toNat) :
    (dirtyMark (dirtyMark d a b) a' b').Has v.fb x y := by
  refine ⟨?_, ?_, ?_, ?_, hx, hy⟩
  all_goals simp only [dirtyMark, UInt32.lt_iff_toNat_lt]
  all_goals split_ifs
  all_goals omega

theorem corner {k e : UInt32} (he : 0 < e.toNat) (h : (k.toNat + 1) * e.toNat < 2 ^ 32) :
    ((k + 1) * e - 1).toNat = k.toNat * e.toNat + e.toNat - 1 := by
  have hle := Nat.le_mul_of_pos_right (k.toNat + 1) he
  have hmul : ((k + 1) * e).toNat = k.toNat * e.toNat + e.toNat := by
    rw [UInt32.toNat_mul, toNat_add_one (by omega), Nat.mod_eq_of_lt h, Nat.succ_mul]
  rw [UInt32.toNat_sub_of_le _ _ (by rw [UInt32.le_iff_toNat_le, hmul]; change 1 ≤ _; omega), hmul]
  rfl

theorem blit (h : Shows v m₀ s p) (ho : OnScreen v s) :
    Marks v s (fontBlit v c.toInt8.toInt32.toUInt32 s.cursor.x s.cursor.y s) := by
  have hn := v.narrow
  have hs := v.short
  have hrow := ho.row
  rw [fontBlit]
  by_cases hv : v.fb.width.toNat ≤ (s.cursor.x.toNat + 1) * v.font.w.toNat
  case pos =>
    rw [if_pos (ho.hidden_iff.mpr hv)]
    exact .same rfl rfl
  case neg =>
    rw [if_neg (ho.hidden_iff.not.mpr hv)]
    have hcell : Cell v s.cursor.x s.cursor.y := ⟨not_le.mp hv, hrow⟩
    have hdrawn := (h.holds.drawn hcell (glyphOf_lt (c := c)) le_rfl).pixels
    have hx := corner (k := s.cursor.x) v.font.columns (by omega)
    have hy := corner (k := s.cursor.y) v.font.rows (by omega)
    rw [not_le, Nat.succ_mul] at hv
    rw [Nat.succ_mul] at hrow
    have hxl : (s.cursor.x * v.font.w).toNat = s.cursor.x.toNat * v.font.w.toNat := by
      rw [UInt32.toNat_mul, Nat.mod_eq_of_lt (by omega)]
    have hyl : (s.cursor.y * v.font.h).toNat = s.cursor.y.toNat * v.font.h.toNat := by
      rw [UInt32.toNat_mul, Nat.mod_eq_of_lt (by omega)]
    refine ⟨fun x y hd => has_dirtyMark (has_dirtyMark hd), fun x hpx y hpy hne => ?_⟩
    have hin : (s.cursor.x.toNat * v.font.w.toNat ≤ x ∧ x < s.cursor.x.toNat * v.font.w.toNat + v.font.w.toNat) ∧
        s.cursor.y.toNat * v.font.h.toNat ≤ y ∧ y < s.cursor.y.toNat * v.font.h.toNat + v.font.h.toNat := by
      by_contra hout
      refine hne ((hdrawn x hpx y hpy).trans ?_)
      rw [if_neg hout]
      exact (h.holds.pixels x hpx y hpy).symm
    exact has_corners hpx hpy (by omega) (by omega) (by omega) (by omega)

theorem move (h : Shows v m₀ s p) (ho : OnScreen v s) : Marks v s (Vterm.move v s c) := by
  rw [Vterm.move]
  by_cases hc : c = 10 ∨ c = 8 ∨ c = 9
  case pos =>
    obtain rfl | rfl | rfl := hc
    all_goals exact .same rfl rfl
  case neg =>
    have ⟨hnl, hbs, htab⟩ := not_or.mp hc |>.imp id not_or.mp
    rw [if_neg hnl, if_neg hbs, if_neg htab]
    exact (blit (c := c) h ho).trans (.same rfl rfl)

theorem wrap : Marks v s (Vterm.wrap v s) := by
  rw [Vterm.wrap]
  split
  all_goals exact .same rfl rfl

theorem scroll : Marks v s (Vterm.scroll v s) := by
  have hall : ∀ x < v.fb.width.toNat, ∀ y < v.fb.height.toNat, (Vterm.scroll v s).dirty.Has v.fb x y := by
    intro x hx y hy
    have hn := v.narrow
    have hs := v.short
    refine ⟨Nat.zero_le _, ?_, Nat.zero_le _, ?_, hx, hy⟩
    all_goals change _ ≤ 2 ^ 32 - 1
    all_goals omega
  exact ⟨fun x y hd => hall x hd.column y hd.row, fun x hx y hy _ => hall x hx y hy⟩

theorem scrollLoop : Marks v s (Vterm.scrollLoop v s) := by
  fun_induction Vterm.scrollLoop v s
  case case1 hi => exact scroll.trans hi
  case case2 => exact .same rfl rfl

theorem inChars (h : Shows v m₀ s p) (ho : OnScreen v s) (cs : List UInt8) :
    Marks v s (cs.foldl (Vterm.inChar v) s) := by
  induction cs generalizing s p
  case nil => exact .same rfl rfl
  case cons c cs hi =>
    have ⟨h', ho'⟩ := h.inChar ho c
    have hstep : Marks v s (Vterm.inChar v s c) := ((move h ho).trans wrap).trans scrollLoop
    exact hstep.trans (hi h' ho')

end Marks

-- Whatever was typed before, and whatever was left of the marks, every pixel which the next characters change is marked.
theorem inChars_dirty (v : Screen) (m : Mem) (dirty : Rect) (before : List UInt8) (d : Rect) (cs : List UInt8) :
    let s := { before.foldl (inChar v) ⟨m, ⟨0, 0⟩, dirty⟩ with dirty := d }
    ∀ x < v.fb.width.toNat, ∀ y < v.fb.height.toNat,
      pixel v (cs.foldl (inChar v) s).mem x y ≠ pixel v s.mem x y → (cs.foldl (inChar v) s).dirty.Has v.fb x y := by
  have hstart : Shows v m ⟨m, ⟨0, 0⟩, dirty⟩ (Paper.start v m) := shows_start
  have ⟨h, ho⟩ := hstart.inChars onScreen_start before
  have hd : ∀ {s : State} {p : Paper}, Shows v m s p → Shows v m { s with dirty := d } p := fun h =>
    ⟨h.holds, h.fresh, h.col, h.line⟩
  exact (Marks.inChars (hd h) ⟨ho.column, ho.row⟩ cs).changed

end Camellia.Vterm
