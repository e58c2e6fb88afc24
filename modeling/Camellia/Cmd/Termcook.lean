import Camellia.Cmd.Vterm

namespace Camellia.Termcook

open Vterm

inductive Tstate
  | normal | esc | csi
  deriving DecidableEq

-- The first `linepos` bytes of `linebuf`.
structure Line where
  text : List UInt8
  fits : text.length ≤ 256

namespace Line

def empty : Line where
  text := []
  fits := by decide

def push (l : Line) (c : UInt8) : Line :=
  if h : l.text.length < 256 then ⟨l.text ++ [c], by rw [List.length_append]; exact h⟩ else l

def pop (l : Line) : Line where
  text := l.text.dropLast
  fits := by
    have := l.fits
    rw [List.length_dropLast]
    omega

end Line

structure Editor where
  line  : Line
  state : Tstate

def Editor.start : Editor where
  line  := .empty
  state := .normal

-- What a key leads to: text on the screen, a part of the input of the other process, its end, or the end of the editor.
inductive Effect
  | echo (text : List UInt8)
  | output (text : List UInt8)
  | eof
  | exit
  deriving DecidableEq

-- `line_editor`, for a single character.
def key (e : Editor) (c : UInt8) : Editor × List Effect :=
  match e.state with
  | .normal =>
    if c = 8 ∨ c = 0x7f then
      if e.line.text = [] then (e, []) else ({ e with line := e.line.pop }, [.echo [8, 32, 8]])
    else if c = 3 then
      (e, [.exit])
    else if c = 4 then
      if e.line.text = [] then (e, [.eof]) else ({ e with line := .empty }, [.output e.line.text])
    else if c = 10 ∨ c = 13 then
      ({ e with line := .empty }, [.echo [10], .output (e.line.push 10).text])
    else if c = 27 then
      ({ e with state := .esc }, [])
    else if c = 9 then
      (e, [])
    else if e.line.text.length < 256 then
      ({ e with line := e.line.push c }, [.echo [c]])
    else
      (e, [])
  | .esc => ({ e with state := if c = 91 then .csi else .normal }, [])
  | .csi => ({ e with state := if 0x40 ≤ c.toInt8 ∧ c.toInt8 ≤ 0x7E then .normal else .csi }, [])

def Effect.shown : Effect → List UInt8
  | .echo text => text
  | _          => []

-- The keys one after the other, until the editor exits.
def edit (e : Editor) : List UInt8 → Editor × List Effect
  | []      => (e, [])
  | c :: cs =>
    if .exit ∈ (key e c).2 then
      key e c
    else
      ((edit (key e c).1 cs).1, (key e c).2 ++ (edit (key e c).1 cs).2)

-- `w_output`, as the calls of `_sys_write` with the answers of the kernel.
def wOutput (buf : List UInt8) (pos : ℕ) : (answers : List ℤ) → List (List UInt8 × ℤ)
  | []            => []
  | ret :: answers =>
    if pos < buf.length then
      (buf.drop pos, ret) :: if ret < 0 then [] else wOutput buf (pos + ret.toNat) answers
    else
      []

-- What a call has moved.
def moved (call : List UInt8 × ℤ) : List UInt8 :=
  call.1.take call.2.toNat

-- However much the reader takes at once, it gets a part of the line, without a gap.
theorem wOutput_moved {buf : List UInt8} {pos : ℕ} {answers : List ℤ} :
    ((wOutput buf pos answers).flatMap moved) <+: buf.drop pos := by
  induction answers generalizing pos
  case nil => exact List.nil_prefix
  case cons ret answers hi =>
    rw [wOutput]
    split
    case isFalse => exact List.nil_prefix
    case isTrue =>
      rw [List.flatMap_cons, moved]
      have hsplit := List.take_append_drop ret.toNat (buf.drop pos)
      split
      case isTrue => simpa using List.take_prefix _ _
      case isFalse =>
        conv_rhs => rw [← hsplit]
        apply (List.prefix_append_right_inj _).mpr
        rw [List.drop_drop]
        exact hi

-- The column in which the text of the line begins. After C-d the next line goes on where this one ends.
def margin (e : Editor) (c : UInt8) (col : ℕ) : ℕ :=
  if e.state = .normal then
    if c = 10 ∨ c = 13 then 0
    else if c = 4 then col + e.line.text.length
    else col
  else col

-- The text of the line never gets to the end of a row of the screen.
def Fits (v : Screen) (e : Editor) (col : ℕ) : List UInt8 → Prop
  | []      => True
  | c :: cs =>
    (margin e c col + (key e c).1.line.text.length) * v.font.w.toNat < v.fb.width.toNat ∧
      Fits v (key e c).1 (margin e c col) cs

-- The line stands on the paper, from the column `col` on, and the cursor behind it.
structure Mirrors (v : Screen) (picture : UInt8 → ℕ → ℕ → ℕ) (text : List UInt8) (p : Paper) (col : ℕ) : Prop where
  cursor : p.col = col + text.length
  cells  : ∀ k c, text[k]? = some c → ∀ i < v.font.w.toNat, ∀ j < v.font.h.toNat,
    p.sheet ((col + k) * v.font.w.toNat + i) (p.line * v.font.h.toNat + j) = picture c i j

-- What a key does to the line, to the screen and to the column in which the line begins.
inductive Keystroke (e : Editor) (c : UInt8) (col : ℕ) : Line → List UInt8 → ℕ → Prop
  | keep : Keystroke e c col e.line [] col
  | pop (h : e.line.text ≠ []) : Keystroke e c col e.line.pop [8, 32, 8] col
  | send : Keystroke e c col .empty [] (col + e.line.text.length)
  | newline : Keystroke e c col .empty [10] 0
  | push {line : Line} (hnl : c ≠ 10) (hbs : c ≠ 8) (htab : c ≠ 9) (h : line.text = e.line.text ++ [c]) :
    Keystroke e c col line [c] col

theorem keystroke (e : Editor) (c : UInt8) (col : ℕ) :
    Keystroke e c col (key e c).1.line ((key e c).2.flatMap Effect.shown) (margin e c col) := by
  rw [key, margin]
  cases hs : e.state
  case esc => exact .keep
  case csi => exact .keep
  case normal =>
    dsimp only
    rw [if_pos rfl]
    by_cases hbs : c = 8 ∨ c = 0x7f
    case pos =>
      have hmargin : ¬(c = 10 ∨ c = 13) ∧ c ≠ 4 := by
        obtain rfl | rfl := hbs
        all_goals decide
      rw [if_pos hbs, if_neg hmargin.left, if_neg hmargin.right]
      split
      case isTrue => exact .keep
      case isFalse h => exact .pop h
    case neg =>
      rw [if_neg hbs]
      by_cases hexit : c = 3
      case pos => subst hexit; exact .keep
      case neg =>
        rw [if_neg hexit]
        by_cases heot : c = 4
        case pos =>
          subst heot
          by_cases hempty : e.line.text = []
          case pos =>
            have := @Keystroke.keep e 4 col
            simpa [hempty, Effect.shown] using this
          case neg =>
            rw [if_pos rfl, if_neg hempty]
            exact .send
        case neg =>
          rw [if_neg heot, if_neg heot]
          by_cases hnl : c = 10 ∨ c = 13
          case pos =>
            rw [if_pos hnl, if_pos hnl]
            exact .newline
          case neg =>
            rw [if_neg hnl, if_neg hnl]
            split_ifs with hesc htab hroom
            case pos => exact .keep
            case pos => exact .keep
            case pos =>
              refine .push (fun he => hnl (.inl he)) (fun he => hbs (.inl he)) htab ?_
              rw [Line.push, dif_pos hroom]
            case neg => exact .keep

section Typing

variable {v : Screen} {picture : UInt8 → ℕ → ℕ → ℕ} {p : Paper} {text : List UInt8} {c : UInt8} {col : ℕ}

-- What a character does to the paper, as long as the row does not end.
structure Typed (p p' : Paper) (sheet : ℕ → ℕ → ℕ) (col : ℕ) : Prop where
  sheet : p'.sheet = sheet
  col   : p'.col = col
  line  : p'.line = p.line

theorem type_plain (hnl : c ≠ 10) (hbs : c ≠ 8) (htab : c ≠ 9) (hv : p.Visible v) :
    Typed p (p.type v picture c) (p.stamp v (picture c)).sheet (p.col + 1) := by
  have hw : ¬v.fb.width.toNat ≤ (p.col + 1) * v.font.w.toNat := not_le.mpr hv
  rw [Paper.type, Paper.move, if_neg hnl, if_neg hbs, if_neg htab, if_pos hv, Paper.wrap, if_neg hw]
  exact ⟨rfl, rfl, rfl⟩

theorem type_back (hv : p.col * v.font.w.toNat < v.fb.width.toNat) :
    Typed p (p.type v picture 8) p.sheet (p.col - 1) := by
  have hle : (p.col - 1) * v.font.w.toNat ≤ p.col * v.font.w.toNat := Nat.mul_le_mul_right _ (Nat.sub_le _ _)
  have hw : ¬v.fb.width.toNat ≤ (p.col - 1) * v.font.w.toNat := not_le.mpr (hle.trans_lt hv)
  rw [Paper.type, Paper.move, if_neg (by decide), if_pos rfl, Paper.wrap, if_neg hw]
  exact ⟨rfl, rfl, rfl⟩

theorem type_newline : (p.type v picture 10).col = 0 := by
  have := v.fb.columns
  have hw : ¬v.fb.width.toNat ≤ 0 * v.font.w.toNat := by omega
  rw [Paper.type, Paper.move, if_pos rfl, Paper.wrap, if_neg hw]
  rfl

-- A character in a later column covers none of the line.
theorem stamp_before {k i j : ℕ} {pic : ℕ → ℕ → ℕ} (hk : col + k < p.col) (hi : i < v.font.w.toNat) :
    (p.stamp v pic).sheet ((col + k) * v.font.w.toNat + i) (p.line * v.font.h.toNat + j) =
      p.sheet ((col + k) * v.font.w.toNat + i) (p.line * v.font.h.toNat + j) := by
  have := Nat.mul_le_mul_right v.font.w.toNat (Nat.succ_le_of_lt hk)
  rw [Nat.succ_mul] at this
  simp only [Paper.stamp]
  exact if_neg (by omega)

theorem stamp_here {i j : ℕ} {pic : ℕ → ℕ → ℕ} (hi : i < v.font.w.toNat) (hj : j < v.font.h.toNat) :
    (p.stamp v pic).sheet (p.col * v.font.w.toNat + i) (p.line * v.font.h.toNat + j) = pic i j := by
  simp only [Paper.stamp]
  rw [if_pos (by omega)]
  congr 1 <;> omega

namespace Mirrors

theorem nil : Mirrors v picture [] p p.col :=
  ⟨rfl, fun _ _ h => by cases h⟩

theorem push (h : Mirrors v picture text p col) (hnl : c ≠ 10) (hbs : c ≠ 8) (htab : c ≠ 9)
    (hfit : (col + (text.length + 1)) * v.font.w.toNat < v.fb.width.toNat) :
    Mirrors v picture (text ++ [c]) (p.type v picture c) col := by
  have hv : p.Visible v := by
    rw [Paper.Visible, h.cursor]
    exact hfit
  have ht : Typed p (p.type v picture c) _ _ := type_plain hnl hbs htab hv
  constructor
  case cursor => rw [ht.col, h.cursor, List.length_append, List.length_singleton, Nat.add_assoc]
  case cells =>
    intro k d hk i hi j hj
    rw [ht.sheet, ht.line]
    obtain hlt | hge := lt_or_ge k text.length
    case inl =>
      rw [List.getElem?_append_left hlt] at hk
      rw [stamp_before (by rw [h.cursor]; omega) hi]
      exact h.cells k d hk i hi j hj
    case inr =>
      have hklt := (List.getElem?_eq_some_iff.mp hk).choose
      rw [List.length_append, List.length_singleton] at hklt
      obtain rfl : k = text.length := by omega
      rw [List.getElem?_append_right le_rfl, Nat.sub_self] at hk
      cases hk
      rw [← h.cursor]
      exact stamp_here hi hj

-- The last character is covered by a blank.
theorem pop (h : Mirrors v picture (text ++ [c]) p col)
    (hfit : (col + (text.length + 1)) * v.font.w.toNat < v.fb.width.toNat) :
    Mirrors v picture text ([8, 32, 8].foldl (Paper.type v picture) p) col := by
  have hcur := h.cursor
  rw [List.length_append, List.length_singleton] at hcur
  have hback : Typed p (p.type v picture 8) _ _ := type_back (by rw [hcur]; exact hfit)
  rw [List.foldl_cons, List.foldl_cons, List.foldl_cons, List.foldl_nil]
  generalize p.type v picture 8 = q at hback
  have hqcol : q.col = col + text.length := by
    rw [hback.col, hcur]
    omega
  have hv : q.Visible v := by
    rw [Paper.Visible, hqcol]
    exact hfit
  have hblank : Typed q (q.type v picture 32) _ _ := type_plain (by decide) (by decide) (by decide) hv
  generalize q.type v picture 32 = r at hblank
  have hlast : Typed r (r.type v picture 8) _ _ := type_back (by rw [hblank.col]; exact hv)
  constructor
  case cursor => rw [hlast.col, hblank.col, hqcol, Nat.add_sub_cancel]
  case cells =>
    intro k d hk i hi j hj
    have hlt := (List.getElem?_eq_some_iff.mp hk).choose
    rw [hlast.sheet, hlast.line, hblank.sheet, hblank.line, stamp_before (by rw [hqcol]; omega) hi, hback.sheet,
      hback.line]
    exact h.cells k d (by rw [List.getElem?_append_left hlt]; exact hk) i hi j hj

end Mirrors

-- After every key the screen agrees with the line again.
theorem key_mirrors {e : Editor} (h : Mirrors v picture e.line.text p col)
    (hfit : (margin e c col + (key e c).1.line.text.length) * v.font.w.toNat < v.fb.width.toNat)
    (hold : (col + e.line.text.length) * v.font.w.toNat < v.fb.width.toNat) :
    Mirrors v picture (key e c).1.line.text (((key e c).2.flatMap Effect.shown).foldl (Paper.type v picture) p)
      (margin e c col) := by
  have hkey := keystroke e c col
  generalize (key e c).1.line = line, (key e c).2.flatMap Effect.shown = shown, margin e c col = col' at *
  cases hkey
  case keep => exact h
  case pop hne =>
    have hlast := List.dropLast_append_getLast hne
    rw [← hlast] at h
    refine h.pop ?_
    rwa [List.length_dropLast, Nat.sub_add_cancel (List.length_pos_of_ne_nil hne)]
  case send =>
    rw [← h.cursor]
    exact .nil
  case newline =>
    have := @Mirrors.nil v picture (p.type v picture 10)
    rwa [type_newline] at this
  case push hnl hbs htab htext =>
    rw [htext, List.length_append] at hfit
    rw [htext]
    exact h.push hnl hbs htab hfit

-- No key makes the screen and the line differ.
theorem edit_mirrors {e : Editor} {keys : List UInt8} (h : Mirrors v picture e.line.text p col)
    (hold : (col + e.line.text.length) * v.font.w.toNat < v.fb.width.toNat) (hfit : Fits v e col keys) :
    ∃ col', Mirrors v picture (edit e keys).1.line.text
      (((edit e keys).2.flatMap Effect.shown).foldl (Paper.type v picture) p) col' := by
  induction keys generalizing e p col
  case nil => exact ⟨col, h⟩
  case cons c cs hi =>
    have hkey := key_mirrors h hfit.left hold
    rw [edit]
    split
    case isTrue => exact ⟨_, hkey⟩
    case isFalse =>
      rw [List.flatMap_append, List.foldl_append]
      exact hi hkey hfit.left hfit.right

end Typing

-- What is typed is on the screen: behind the text which was there before, say a prompt, the row of the cursor shows the
-- line as it was edited so far.
theorem edit_shown (v : Screen) (m : Mem) (dirty : Draw.Rect) (before keys : List UInt8)
    (hfit : Fits v .start (before.foldl (inChar v) ⟨m, ⟨0, 0⟩, dirty⟩).cursor.x.toNat keys) :
    let e := edit .start keys
    let s := (before ++ e.2.flatMap Effect.shown).foldl (inChar v) ⟨m, ⟨0, 0⟩, dirty⟩
    ∃ col, s.cursor.x.toNat = col + e.1.line.text.length ∧
      ∀ k c, e.1.line.text[k]? = some c → ∀ i < v.font.w.toNat, ∀ j < v.font.h.toNat,
        pixel v s.mem ((col + k) * v.font.w.toNat + i) (s.cursor.y.toNat * v.font.h.toNat + j) = picture v m c i j := by
  intro e s
  have hstart : Shows v m ⟨m, ⟨0, 0⟩, dirty⟩ (.start v m) := shows_start
  have ⟨h₀, ho₀⟩ := hstart.inChars onScreen_start before
  have hcol := ho₀.column
  rw [h₀.col] at hfit hcol
  have ⟨col, hm⟩ := @edit_mirrors v (picture v m) _ _ .start _ .nil hcol hfit
  have ⟨h, ho⟩ := h₀.inChars ho₀ (e.2.flatMap Effect.shown)
  rw [← List.foldl_append] at h ho
  change Shows v m s _ at h
  change OnScreen v s at ho
  refine ⟨col, h.col.trans hm.cursor, fun k c hk i hi j hj => ?_⟩
  have hlt := (List.getElem?_eq_some_iff.mp hk).choose
  have hx : (col + k) * v.font.w.toNat + i < v.fb.width.toNat := by
    have hmax := ho.column
    have := Nat.mul_le_mul_right v.font.w.toNat (show col + k + 1 ≤ s.cursor.x.toNat by rw [h.col, hm.cursor]; exact Nat.add_lt_add_left hlt col)
    rw [Nat.succ_mul] at this
    omega
  have hy : s.cursor.y.toNat * v.font.h.toNat + j < v.fb.height.toNat := by
    have hmax := ho.row
    rw [Nat.succ_mul] at hmax
    omega
  rw [h.holds.pixels _ hx _ hy, ← hm.cells k c hk i hi j hj, ← h.line]
  congr 1
  rw [Nat.add_mul, Nat.add_right_comm]

-- 80 columns and 30 rows of eight by sixteen pixels.
def vga : Screen where
  fb := { Draw.screen with b := 0x100000, user := by decide }
  font.glyphAmt  := 256
  font.glyphSize := 16
  font.h         := 16
  font.w         := 8
  font.data      := 0x1000
  font.glyphs    := by decide
  font.rows      := by decide
  font.columns   := by decide
  font.packed    := by decide
  font.size      := by decide
  tall   := by decide
  narrow := by decide
  short  := by decide
  apart  := by decide

-- `a`, `b`, backspace
theorem edit_shown_vga :
    let s := ([97, 98, 8, 32, 8] : List UInt8).foldl (inChar vga) ⟨fun _ => 0, ⟨0, 0⟩, Draw.dirtyReset⟩
    ∃ col, s.cursor.x.toNat = col + 1 ∧ ∀ k c, [(97 : UInt8)][k]? = some c → ∀ i < 8, ∀ j < 16,
      pixel vga s.mem ((col + k) * 8 + i) (s.cursor.y.toNat * 16 + j) = picture vga (fun _ => 0) c i j :=
  edit_shown vga (fun _ => 0) Draw.dirtyReset [] [97, 98, 8] ⟨by decide, by decide, by decide, trivial⟩

end Camellia.Termcook
