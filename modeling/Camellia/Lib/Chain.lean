import Mathlib.Data.List.Nodup
import Mathlib.Tactic.Common

-- The nodes of a singly linked list, which starts at a pointer and is linked by `next`.
inductive Chain {α : Type*} (next : α → Option α) : Option α → List α → Prop
  | nil  : Chain next none []
  | cons : Chain next (next a) l → Chain next (some a) (a :: l)

namespace Chain

variable {α : Type*} {next next' : α → Option α} {o : Option α} {a a' b : α} {l l' : List α}

theorem of_none (h : Chain next none l) : l = [] := by
  cases h
  rfl

theorem of_nil (h : Chain next o []) : o = none := by
  cases h
  rfl

theorem of_some (h : Chain next (some a) l) : ∃ l', l = a :: l' ∧ Chain next (next a) l' := by
  cases h
  case cons l h => exact ⟨l, rfl, h⟩

-- There is only one way to follow the pointers.
theorem unique (h : Chain next o l) (h' : Chain next o l') : l = l' := by
  induction h generalizing l'
  case nil => exact h'.of_none.symm
  case cons a l _ hi =>
    obtain ⟨m, rfl, hm⟩ := h'.of_some
    rw [hi hm]

theorem congr (h : Chain next o l) (hn : ∀ a ∈ l, next' a = next a) : Chain next' o l := by
  induction h
  case nil => exact .nil
  case cons a l _ hi =>
    refine .cons ?_
    rw [hn a (List.mem_cons_self ..)]
    exact hi fun b hb => hn b (List.mem_cons_of_mem _ hb)

theorem head_mem (h : Chain next (some a) l) : a ∈ l := by
  obtain ⟨m, rfl, -⟩ := h.of_some
  exact List.mem_cons_self ..

theorem next_mem (h : Chain next o l) (ha : a ∈ l) (hb : next a = some b) : b ∈ l := by
  induction h
  case nil => contradiction
  case cons c l hc hi =>
    obtain rfl | ha := List.mem_cons.mp ha
    · rw [hb] at hc
      exact List.mem_cons_of_mem _ hc.head_mem
    · exact List.mem_cons_of_mem _ (hi ha)

theorem suffix (h : Chain next o (l ++ a :: l')) : Chain next (some a) (a :: l') := by
  induction l generalizing o
  case nil =>
    cases h
    case cons h => exact .cons h
  case cons b l hi =>
    cases h
    case cons h => exact hi h

-- A list that ends does not go in circles.
theorem nodup (h : Chain next o l) : l.Nodup := by
  induction h
  case nil => exact List.nodup_nil
  case cons a l hc hi =>
    refine List.nodup_cons.mpr ⟨fun ha => ?_, hi⟩
    obtain ⟨l₁, l₂, rfl⟩ := List.mem_iff_append.mp ha
    have heq := (Chain.cons hc).unique hc.suffix
    have := congrArg List.length heq
    simp at this
    omega

-- A node is linked to the end of a list.
theorem concat (h : Chain next o (l ++ [a])) (hn : ∀ b ∈ l, next' b = next b) (ha : next' a = some b)
    (hb : next' b = none) : Chain next' o (l ++ [a, b]) := by
  induction l generalizing o
  case nil =>
    cases h
    refine .cons ?_
    rw [ha]
    refine .cons ?_
    rw [hb]
    exact .nil
  case cons c l hi =>
    cases h
    case cons h =>
      refine .cons ?_
      rw [hn c (List.mem_cons_self ..)]
      exact hi h fun b hb => hn b (List.mem_cons_of_mem _ hb)

-- A list along which the nodes descend: each node is above the one that follows it, and there is only
-- one node which is followed by a given one.
section Sorted

variable {r : α → α → Prop}

theorem rel (h : Chain next o l) (hl : l.Pairwise r) (ha : a ∈ l) (hb : next a = some b) : r a b := by
  induction h
  case nil => contradiction
  case cons c l hc hi =>
    have ⟨hcl, hl⟩ := List.pairwise_cons.mp hl
    obtain rfl | ha := List.mem_cons.mp ha
    · rw [hb] at hc
      exact hcl b hc.head_mem
    · exact hi hl ha

variable [IsStrictOrder α r]

theorem next_ne_head (h : Chain next (some b) l) (hl : l.Pairwise r) (ha : a ∈ l) : next a ≠ some b := by
  intro hb
  obtain ⟨m, rfl, hm⟩ := h.of_some
  have hr := h.rel hl ha hb
  obtain rfl | ha := List.mem_cons.mp ha
  · exact irrefl_of r a hr
  · exact irrefl_of r a (trans_of r hr ((List.pairwise_cons.mp hl).1 a ha))

theorem next_inj (h : Chain next o l) (hl : l.Pairwise r) (ha : a ∈ l) (ha' : a' ∈ l)
    (hb : next a = some b) (hb' : next a' = some b) : a = a' := by
  induction h
  case nil => contradiction
  case cons c l hc hi =>
    have ht := (List.pairwise_cons.mp hl).2
    obtain heq | hm := List.mem_cons.mp ha <;> obtain heq' | hm' := List.mem_cons.mp ha'
    · rw [heq, heq']
    · rw [← heq, hb] at hc
      exact absurd hb' (hc.next_ne_head ht hm')
    · rw [← heq', hb'] at hc
      exact absurd hb (hc.next_ne_head ht hm)
    · exact hi ht hm hm'

end Sorted

-- Where a pointer goes after `b` was unlinked.
def skip [DecidableEq α] (next : α → Option α) (b : α) (o : Option α) : Option α :=
  if o = some b then next b else o

-- One node is unlinked: whatever points to it points to its successor instead.
theorem unlink [DecidableEq α] (h : Chain next o l) (hl : l.Nodup)
    (hn : ∀ a ∈ l, a ≠ b → next' a = skip next b (next a)) :
    Chain next' (skip next b o) (l.filter (· ≠ b)) := by
  induction h
  case nil => exact .nil
  case cons a l hc hi =>
    have ⟨ha, hl⟩ := List.nodup_cons.mp hl
    have hrest := hi hl fun c hc => hn c (List.mem_cons_of_mem _ hc)
    by_cases hab : a = b
    case neg =>
      rw [skip, if_neg (fun h => hab (Option.some_inj.mp h)), List.filter_cons_of_pos (by simpa using hab)]
      refine .cons ?_
      rwa [hn a (List.mem_cons_self ..) hab]
    case pos =>
      subst hab
      rw [skip, if_pos rfl, List.filter_cons_of_neg (by simp)]
      by_cases hnext : next a = some a
      case pos =>
        rw [hnext] at hc
        exact absurd hc.head_mem ha
      case neg => rwa [skip, if_neg hnext] at hrest

end Chain
