import Mathlib.Data.List.Basic

-- Items are handed out to those who wait for them. What was ever joined, stored and given is recorded.
structure Handout (α β : Type) where
  waiting : List α
  pending : List β
  joined  : List α
  stored  : List β
  given   : List (α × β)

namespace Handout

variable {α β : Type} {s : Handout α β} {a : α} {xs : List β}

def join (s : Handout α β) (a : α) : Handout α β :=
  { s with waiting := s.waiting ++ [a], joined := s.joined ++ [a] }

def store (s : Handout α β) (xs : List β) : Handout α β :=
  { s with pending := s.pending ++ xs, stored := s.stored ++ xs }

-- The first one gets the oldest item.
def give (s : Handout α β) (a : α) (as : List α) (b : β) (bs : List β) : Handout α β :=
  { s with waiting := as, pending := bs, given := s.given ++ [(a, b)] }

def serve (s : Handout α β) : Handout α β :=
  match s.waiting, s.pending with
  | a :: as, b :: bs => s.give a as b bs
  | _, _             => s

-- Nobody waits beside an item.
def Matched (s : Handout α β) : Prop :=
  s.waiting = [] ∨ s.pending = []

-- Nobody is overtaken, and no item is lost or given twice.
structure Fair (s : Handout α β) : Prop where
  order : s.given.map Prod.fst ++ s.waiting = s.joined
  once  : s.given.map Prod.snd ++ s.pending = s.stored

theorem serve_matched (h : s.Matched) : s.serve = s := by
  rw [serve]
  split
  case h_1 hw hp => exact absurd h (by simp [Matched, hw, hp])
  case h_2 => rfl

theorem serve_cons {as : List α} {b : β} {bs : List β} (hw : s.waiting = a :: as) (hp : s.pending = b :: bs) :
    s.serve = s.give a as b bs := by
  rw [serve, hw, hp]

theorem matched_or : s.Matched ∨ ∃ a as b bs, s.waiting = a :: as ∧ s.pending = b :: bs := by
  cases hw : s.waiting
  case nil => exact .inl (.inl hw)
  case cons a as =>
    cases hp : s.pending
    case nil => exact .inl (.inr hp)
    case cons b bs => exact .inr ⟨a, as, b, bs, rfl, rfl⟩

namespace Fair

theorem join (h : s.Fair) : (s.join a).Fair where
  order := by rw [Handout.join, ← List.append_assoc, h.order]
  once  := h.once

theorem store (h : s.Fair) : (s.store xs).Fair where
  order := h.order
  once  := by rw [Handout.store, ← List.append_assoc, h.once]

theorem serve (h : s.Fair) : s.serve.Fair := by
  obtain hm | ⟨a, as, b, bs, hw, hp⟩ := @matched_or _ _ s
  case inl => rwa [serve_matched hm]
  case inr =>
    have horder := h.order
    have honce := h.once
    rw [serve_cons hw hp]
    rw [hw] at horder
    rw [hp] at honce
    exact ⟨by simpa [give] using horder, by simpa [give] using honce⟩

end Fair

-- Whoever joins is served at once if there is an item for him.
theorem Matched.join (h : s.Matched) : (s.join a).serve.Matched := by
  obtain hm | ⟨b, bs, c, cs, hw, hp⟩ := @matched_or _ _ (s.join a)
  case inl => rwa [serve_matched hm]
  case inr =>
    rw [serve_cons hw hp]
    obtain hnone | hnone := h
    case inl =>
      have hlast : [a] = b :: bs := by rwa [Handout.join, hnone] at hw
      exact .inl (List.cons.inj hlast).right.symm
    case inr => exact absurd (hnone.symm.trans hp) (List.cons_ne_nil c cs).symm

-- A single step does not serve two who wait with two items.
theorem Matched.store_iff (h : s.Matched) :
    (s.store xs).serve.Matched ↔ s.waiting.length ≤ 1 ∨ xs.length ≤ 1 := by
  obtain hm | ⟨a, as, b, bs, hw, hp⟩ := @matched_or _ _ (s.store xs)
  case inl =>
    rw [serve_matched hm]
    refine iff_of_true hm (hm.imp (fun hw => ?_) fun hp => ?_)
    · have hw : s.waiting = [] := hw
      simp [hw]
    · have := (List.append_eq_nil_iff.mp hp).right
      simp [this]
  case inr =>
    have hsame : s.waiting = a :: as := hw
    have hnone : s.pending = [] := h.resolve_left (hsame ▸ List.cons_ne_nil a as)
    have hnew : xs = b :: bs := by rwa [Handout.store, hnone] at hp
    rw [serve_cons hw hp, hsame, hnew]
    simp only [Matched, give, List.length_cons, ← List.length_eq_zero_iff]
    omega

end Handout
