import Camellia.Lib.Heap
import Mathlib.Algebra.BigOperators.Ring.Finset
import Mathlib.Data.Set.Card
import Mathlib.Data.Set.Finite.Lattice

-- How often something is on a list is the number of its places there.
theorem List.count_eq_ncard {α : Type*} [DecidableEq α] {l : List α} {a : α} : 
    l.count a = { i : ℕ | l[i]? = some a }.ncard := by
  induction l
  case nil => simp
  case cons b l hi =>
    have himage : (· + 1) '' { i : ℕ | l[i]? = some a } = { i : ℕ | (b :: l)[i]? = some a } \ {0} := by
      ext i
      cases i <;> simp
    rw [List.count_cons, hi, ← Set.ncard_image_of_injective _ (add_left_injective 1), himage]
    by_cases hb : b = a
    case neg =>
      rw [if_neg (by simpa using hb), add_zero, Set.sdiff_singleton_eq_self (by simpa using hb)]
    case pos =>
      have hfin : { i : ℕ | (b :: l)[i]? = some a }.Finite := (Set.finite_lt_nat (b :: l).length).subset fun i hi =>
        (List.getElem?_eq_some_iff.mp hi).1
      rw [if_pos (by simpa using hb)]
      exact Set.ncard_sdiff_singleton_add_one (by simpa using hb) hfin

-- The number of objects on a heap with some property, and of what they have in common.
namespace Heap

variable {α β : Type*} {h : Heap α}

theorem total_eq_sum {M : Type*} [AddCommGroup M] {w : ℕ → α → M} :
    h.total w = ∑ i ∈ Finset.range h.size, (h.get i).elim 0 (w i) := by
  obtain ⟨cells⟩ := h
  induction cells using List.reverseRecOn
  case nil => rfl
  case append_singleton cells c hi =>
    have hlast : (Heap.mk (cells ++ [c])).get cells.length = c := by simp [get]
    have hget (i : ℕ) (hlt : i < cells.length) : (Heap.mk (cells ++ [c])).get i = (Heap.mk cells).get i := by
      simp [get, List.getElem?_append_left hlt]
    have hsum : (Heap.mk (cells ++ [c])).total w = (Heap.mk cells).total w + c.elim 0 (w cells.length) := by
      simp [total, List.zipIdx_append]
    rw [hsum, hi, show (Heap.mk (cells ++ [c])).size = cells.length + 1 by simp [size], Finset.sum_range_succ, hlast]
    congr 1
    exact Finset.sum_congr rfl fun i hlt => by rw [hget i (Finset.mem_range.mp hlt)]

-- What is collected from all objects, together with the address of the object it comes from.
def collect (h : Heap α) (S : ℕ → α → Set β) : Set (ℕ × β) :=
  { x | ∃ a, h.get x.1 = some a ∧ x.2 ∈ S x.1 a }

theorem finite_collect {S : ℕ → α → Set β} (hS : ∀ i a, (S i a).Finite) : (h.collect S).Finite := by
  have hsub : h.collect S ⊆ ⋃ i ∈ Finset.range h.size, (Prod.mk i) '' (h.get i).elim ∅ (S i) := by
    rintro ⟨i, b⟩ ⟨a, hi, hb⟩
    simp only [Set.mem_iUnion]
    exact ⟨i, Finset.mem_range.mpr (lt_size hi), b, by rwa [hi], rfl⟩
  refine (Set.Finite.biUnion (Finset.finite_toSet _) fun i _ => ?_).subset hsub
  refine Set.Finite.image _ ?_
  cases h.get i
  case none   => exact Set.finite_empty
  case some a => exact hS i a

theorem total_ncard {S : ℕ → α → Set β} (hS : ∀ i a, (S i a).Finite) :
    h.total (fun i a => ((S i a).ncard : ℤ)) = ((h.collect S).ncard : ℤ) := by
  classical
  have hfin (i : ℕ) : ((h.get i).elim ∅ (S i)).Finite := by
    cases h.get i
    case none   => exact Set.finite_empty
    case some a => exact hS i a
  let F (i : ℕ) : Finset (ℕ × β) := (hfin i).toFinset.map ⟨Prod.mk i, Prod.mk_right_injective i⟩
  have hF : h.collect S = ((Finset.range h.size).biUnion F : Finset (ℕ × β)) := by
    ext ⟨i, b⟩
    simp only [collect, F, Set.mem_ofPred_eq, Finset.coe_biUnion, Finset.coe_map, Set.Finite.coe_toFinset,
      Function.Embedding.coeFn_mk, Set.mem_iUnion, Set.mem_image, Prod.mk.injEq]
    constructor
    · rintro ⟨a, hi, hb⟩
      exact ⟨i, Finset.mem_range.mpr (lt_size hi), b, by rwa [hi], rfl, rfl⟩
    · rintro ⟨j, _, c, hc, rfl, rfl⟩
      cases hj : h.get j
      case none   => simp [hj] at hc
      case some a => exact ⟨a, rfl, by simpa [hj] using hc⟩
  rw [hF, Set.ncard_coe_finset, Finset.card_biUnion, total_eq_sum]
  · rw [Nat.cast_sum]
    refine Finset.sum_congr rfl fun i _ => ?_
    rw [Finset.card_map, ← Set.ncard_eq_toFinset_card _ (hfin i)]
    cases h.get i
    case none   => simp
    case some a => rfl
  · intro i _ j _ hij
    refine Finset.disjoint_left.mpr ?_
    rintro ⟨k, b⟩ hi hj
    simp only [F, Finset.mem_map, Function.Embedding.coeFn_mk, Prod.mk.injEq] at hi hj
    obtain ⟨_, _, rfl, _⟩ := hi
    obtain ⟨_, _, rfl, _⟩ := hj
    exact hij rfl

-- The addresses of the objects with a property.
def those (h : Heap α) (P : ℕ → α → Prop) : Set ℕ :=
  { i | ∃ a, h.get i = some a ∧ P i a }

theorem finite_those {P : ℕ → α → Prop} : (h.those P).Finite :=
  (Finset.finite_toSet (Finset.range h.size)).subset fun _ ⟨_, hi, _⟩ => Finset.mem_coe.mpr (Finset.mem_range.mpr (lt_size hi))

theorem total_indicator {P : ℕ → α → Prop} [∀ i a, Decidable (P i a)] :
    h.total (fun i a => if P i a then (1 : ℤ) else 0) = ((h.those P).ncard : ℤ) := by
  have htotal := total_ncard (h := h) (S := fun i a => { _u : Unit | P i a }) fun _ _ => Set.toFinite _
  have hone (i : ℕ) (a : α) : ((({ _u : Unit | P i a } : Set Unit).ncard : ℕ) : ℤ) = if P i a then 1 else 0 := by
    by_cases hp : P i a <;> simp [hp, Set.ncard_univ]
  have himage : h.collect (fun i a => { _u : Unit | P i a }) = (·, ()) '' h.those P := by
    ext ⟨i, _⟩
    simp [collect, those]
  rw [himage, Set.ncard_image_of_injective _ fun _ _ h => (Prod.mk.inj h).1] at htotal
  rw [← htotal]
  exact total_congr fun i a _ => (hone i a).symm

end Heap
