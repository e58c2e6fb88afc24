import Mathlib.Logic.Function.Iterate
import Mathlib.Tactic.Common

-- A sink behind a cache, which collects short pieces until they are passed on together.
structure Cached (σ α : Type) where
  sink  : σ
  cache : List α

namespace Cached

section Operations

variable {σ α : Type} (back : σ → List α → σ) (clen : ℕ)

def flush (c : Cached σ α) : Cached σ α :=
  if c.cache.isEmpty then c else ⟨back c.sink c.cache, []⟩

-- A piece which would fill the cache goes to the sink directly.
def output (buf : List α) (c : Cached σ α) : Cached σ α :=
  if c.cache.length + buf.length < clen then
    { c with cache := c.cache ++ buf }
  else
    { c.flush back with sink := back (c.flush back).sink buf }

-- A sink which got these items, and was not called for none.
def passed (s : σ) (items : List α) : σ :=
  if items.isEmpty then s else back s items

-- A cache in front of the sink `s`, to which these items were written.
structure Holds (c : Cached σ α) (s : σ) (items : List α) : Prop where
  split : ∃ given, c.sink = passed back s given ∧ items = given ++ c.cache
  fits  : c.cache.length < clen

-- A writer appends its text, and nothing else is to be known about its pieces.
def Emits (f : Cached σ α → Cached σ α) (text : List α) : Prop :=
  ∀ c s items, Holds back clen c s items → Holds back clen (f c) s (items ++ text)

end Operations

variable {σ α : Type} {back : σ → List α → σ} {clen : ℕ} {c : Cached σ α} {f g : Cached σ α → Cached σ α}
variable {s : σ} {items text text' : List α}

theorem holds_empty (h : 0 < clen) : Holds back clen ⟨s, []⟩ s [] :=
  ⟨⟨[], rfl, rfl⟩, h⟩

-- What matters is that the sink cannot tell how its items were cut into pieces.
variable (hb : ∀ s xs ys, back (back s xs) ys = back s (xs ++ ys))
include hb

theorem back_passed (h : text ≠ []) : back (passed back s items) text = passed back s (items ++ text) := by
  cases items
  case nil => simp [passed, h]
  case cons => simp [passed, hb]

theorem Holds.flush (h : Holds back clen c s items) : c.flush back = ⟨passed back s items, []⟩ := by
  have ⟨given, hs, ht⟩ := h.split
  by_cases he : c.cache = []
  case pos =>
    rw [he, List.append_nil] at ht
    rw [Cached.flush, if_pos (by simpa using he), ht, ← hs, ← he]
  case neg =>
    rw [Cached.flush, if_neg (by simpa using he), hs, back_passed hb he, ht]

theorem emits_output : Emits back clen (output back clen text) text := by
  intro c s items h
  by_cases hl : c.cache.length + text.length < clen
  case pos =>
    have ⟨given, hs, ht⟩ := h.split
    rw [output, if_pos hl]
    exact ⟨⟨given, hs, by rw [ht, List.append_assoc]⟩, by simpa using hl⟩
  case neg =>
    have hne : text ≠ [] := fun he => hl (by simpa [he] using h.fits)
    rw [output, if_neg hl, h.flush hb]
    exact ⟨⟨items ++ text, back_passed hb hne, (List.append_nil _).symm⟩, by
      have := h.fits
      simp only [List.length_nil]
      omega⟩

omit hb

theorem emits_id : Emits back clen id [] := by
  intro c s items h
  rwa [List.append_nil]

theorem Emits.comp (hf : Emits back clen f text) (hg : Emits back clen g text') :
    Emits back clen (fun c => g (f c)) (text ++ text') := by
  intro c s items h
  rw [← List.append_assoc]
  exact hg _ _ _ (hf _ _ _ h)

theorem Emits.iterate (hf : Emits back clen f text) (n : ℕ) :
    Emits back clen f^[n] (List.replicate n text).flatten := by
  induction n
  case zero      => exact emits_id
  case succ n hi =>
    rw [List.replicate_succ, List.flatten_cons]
    exact hf.comp hi

end Cached
