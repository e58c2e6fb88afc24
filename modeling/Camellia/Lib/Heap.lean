import Mathlib.Algebra.BigOperators.Group.List.Basic
import Mathlib.Algebra.Order.BigOperators.Group.List
import Mathlib.Algebra.Order.Ring.Int
import Mathlib.Order.Nat
import Mathlib.Tactic.Abel
import Mathlib.Tactic.Common

-- A heap of objects of one type. An object's address is the number of objects allocated before it,
-- so an address is never used twice and an object that was freed stays recognizable as such.
structure Heap (α : Type*) where
  cells : List (Option α)
  deriving DecidableEq

namespace Heap

variable {α : Type*}

def empty : Heap α :=
  ⟨[]⟩

-- The address of the next object to be allocated.
def size (h : Heap α) : ℕ :=
  h.cells.length

def get (h : Heap α) (i : ℕ) : Option α :=
  h.cells[i]?.join

def set (h : Heap α) (i : ℕ) (a : α) : Heap α :=
  ⟨h.cells.set i (some a)⟩

def free (h : Heap α) (i : ℕ) : Heap α :=
  ⟨h.cells.set i none⟩

def alloc (h : Heap α) (a : α) : Heap α :=
  ⟨h.cells ++ [some a]⟩

-- The total weight of all live objects, where an object is weighed together with its address.
def total {M : Type*} [AddCommGroup M] (h : Heap α) (w : ℕ → α → M) : M :=
  (h.cells.zipIdx.map fun c => c.1.elim 0 (w c.2)).sum

variable {h : Heap α} {a b : α} {i j : ℕ}

theorem lt_size (hi : h.get i = some a) : i < h.size := by
  by_contra hn
  simp [get, List.getElem?_eq_none (not_lt.mp hn)] at hi

theorem get_of_size_le (hi : h.size ≤ i) : h.get i = none := by
  simp [get, List.getElem?_eq_none hi]

@[simp]
theorem get_size : h.get h.size = none :=
  get_of_size_le le_rfl

@[simp]
theorem get_empty : (empty : Heap α).get i = none := by
  simp [empty, get]

@[simp]
theorem size_set : (h.set i a).size = h.size := by
  simp [size, set]

@[simp]
theorem size_free : (h.free i).size = h.size := by
  simp [size, free]

@[simp]
theorem size_alloc : (h.alloc a).size = h.size + 1 := by
  simp [size, alloc]

theorem get_set (hi : h.get i = some b) : (h.set i a).get j = if j = i then some a else h.get j := by
  have := lt_size hi
  simp only [size] at this
  by_cases hj : j = i
  case pos => simp [get, set, hj, List.getElem?_set_self this]
  case neg => simp [get, set, hj, List.getElem?_set_ne (Ne.symm hj)]

theorem get_set_self (hi : h.get i = some b) : (h.set i a).get i = some a := by
  simp [get_set hi]

-- Whether there is an object does not matter, only whether there has been one.
theorem get_set_of_size : (h.set i a).get j = if j = i then (if i < h.size then some a else none) else h.get j := by
  simp only [set, get, size, List.getElem?_set]
  by_cases hj : i = j
  case pos =>
    subst hj
    by_cases hi : i < h.cells.length <;> simp [hi]
  case neg => simp [hj, Ne.symm hj]

theorem get_set_ne (hj : j ≠ i) : (h.set i a).get j = h.get j := by
  simp [get, set, List.getElem?_set_ne hj.symm]

theorem get_free : (h.free i).get j = if j = i then none else h.get j := by
  by_cases hj : j = i
  case neg => simp [get, free, hj, List.getElem?_set_ne (Ne.symm hj)]
  case pos =>
    subst hj
    by_cases hl : j < h.cells.length
    case pos => simp [get, free, List.getElem?_set_self hl]
    case neg => simp [get, free, hl]

@[simp]
theorem get_free_self : (h.free i).get i = none := by
  simp [get_free]

theorem get_free_ne (hj : j ≠ i) : (h.free i).get j = h.get j := by
  simp [get_free, hj]

theorem get_alloc : (h.alloc a).get j = if j = h.size then some a else h.get j := by
  simp only [get, alloc, size]
  by_cases hj : j = h.cells.length
  case pos => simp [hj]
  case neg =>
    by_cases hl : j < h.cells.length
    case pos => simp [List.getElem?_append_left hl, hj]
    case neg =>
      have h₁ : (h.cells ++ [some a])[j]? = none := List.getElem?_eq_none (by simp; omega)
      have h₂ : h.cells[j]? = none := List.getElem?_eq_none (by omega)
      simp [h₁, h₂, hj]

@[simp]
theorem get_alloc_self : (h.alloc a).get h.size = some a := by
  simp [get_alloc]

theorem get_alloc_of_some (hi : h.get i = some b) : (h.alloc a).get i = some b := by
  rw [get_alloc, if_neg (lt_size hi).ne, hi]

@[simp]
theorem set_set : (h.set i a).set i b = h.set i b := by
  simp [set]

theorem set_comm (hij : i ≠ j) : (h.set i a).set j b = (h.set j b).set i a := by
  simp only [set, List.set_comm _ _ hij]

-- Two objects change in turns.
theorem set_set_set (hij : i ≠ j) {c d : α} :
    (((h.set i a).set j b).set i c).set j d = (h.set i c).set j d := by
  rw [set_comm hij.symm, set_set, set_set]

@[simp]
theorem set_alloc : (h.alloc a).set h.size b = h.alloc b := by
  simp [alloc, set, size]

theorem set_get (hi : h.get i = some a) : h.set i a = h := by
  have hl := lt_size hi
  simp only [get, Option.join_eq_some_iff] at hi
  obtain ⟨cells⟩ := h
  simp only [set]
  congr 1
  refine List.ext_getElem? fun j => ?_
  by_cases hj : i = j
  case pos => rw [← hj, List.getElem?_set_self hl, hi]
  case neg => rw [List.getElem?_set_ne hj]

-- What holds of all objects, after one of them has changed.
section Forall

variable {P : ℕ → α → Prop}

theorem forall_set (hi : h.get i = some b) (ha : P i a) (hp : ∀ j c, j ≠ i → h.get j = some c → P j c) :
    ∀ j c, (h.set i a).get j = some c → P j c := by
  intro j c hc
  rw [get_set hi] at hc
  by_cases hj : j = i
  case pos =>
    rw [if_pos hj, Option.some_inj] at hc
    exact hc ▸ hj ▸ ha
  case neg => exact hp j c hj (by rwa [if_neg hj] at hc)

theorem forall_free (hp : ∀ j c, j ≠ i → h.get j = some c → P j c) :
    ∀ j c, (h.free i).get j = some c → P j c := by
  intro j c hc
  by_cases hj : j = i
  case pos => simp [hj] at hc
  case neg => exact hp j c hj (by rwa [get_free_ne hj] at hc)

theorem forall_alloc (ha : P h.size a) (hp : ∀ j c, j < h.size → h.get j = some c → P j c) :
    ∀ j c, (h.alloc a).get j = some c → P j c := by
  intro j c hc
  rw [get_alloc] at hc
  by_cases hj : j = h.size
  case pos =>
    rw [if_pos hj, Option.some_inj] at hc
    exact hc ▸ hj ▸ ha
  case neg =>
    rw [if_neg hj] at hc
    exact hp j c (lt_size hc) hc

end Forall

section Grows

variable {R : α → α → Prop} {h' h'' : Heap α}

-- The objects of `h'` are those of `h` which were not freed, changed at most as `R` allows it, and
-- new ones.
structure Grows (R : α → α → Prop) (h h' : Heap α) : Prop where
  size : h.size ≤ h'.size
  get  : ∀ i < h.size, ∀ a', h'.get i = some a' → ∃ a, h.get i = some a ∧ R a a'

theorem Grows.refl (hr : ∀ a, R a a) : Grows R h h :=
  ⟨le_rfl, fun _ _ a ha => ⟨a, ha, hr a⟩⟩

theorem Grows.trans (ht : ∀ a b c, R a b → R b c → R a c) (h₁ : Grows R h h') (h₂ : Grows R h' h'') :
    Grows R h h'' := by
  refine ⟨h₁.size.trans h₂.size, fun i hi a'' ha'' => ?_⟩
  have ⟨a', ha', hr'⟩ := h₂.get i (lt_of_lt_of_le hi h₁.size) a'' ha''
  have ⟨a, ha, hr⟩ := h₁.get i hi a' ha'
  exact ⟨a, ha, ht _ _ _ hr hr'⟩

theorem Grows.set (hr : ∀ a, R a a) (hi : h.get i = some a) (hb : R a b) : Grows R h (h.set i b) := by
  refine ⟨size_set.ge, fun j _ a' ha' => ?_⟩
  rw [get_set hi] at ha'
  by_cases hj : j = i
  case pos =>
    rw [if_pos hj, Option.some_inj] at ha'
    exact ⟨a, hj ▸ hi, ha' ▸ hb⟩
  case neg =>
    rw [if_neg hj] at ha'
    exact ⟨a', ha', hr a'⟩

theorem Grows.free (hr : ∀ a, R a a) : Grows R h (h.free i) := by
  refine ⟨size_free.ge, fun j _ a' ha' => ?_⟩
  rw [get_free] at ha'
  by_cases hj : j = i
  case pos => simp [hj] at ha'
  case neg =>
    rw [if_neg hj] at ha'
    exact ⟨a', ha', hr a'⟩

theorem Grows.alloc (hr : ∀ a, R a a) : Grows R h (h.alloc b) := by
  refine ⟨by simp, fun j hj a' ha' => ?_⟩
  rw [get_alloc, if_neg hj.ne] at ha'
  exact ⟨a', ha', hr a'⟩

end Grows

section Related

variable {R : α → α → Prop} {h' h'' : Heap α}

-- The same objects are alive in both heaps, and each of them is related to what it was.
structure Related (R : α → α → Prop) (h h' : Heap α) : Prop where
  size : h'.size = h.size
  get  : ∀ i, Option.Rel R (h.get i) (h'.get i)

theorem Related.refl (hr : ∀ a, R a a) : Related R h h := by
  refine ⟨rfl, fun i => ?_⟩
  cases h.get i
  case none   => exact .none
  case some a => exact .some (hr a)

theorem Related.trans (ht : ∀ a b c, R a b → R b c → R a c) (h₁ : Related R h h')
    (h₂ : Related R h' h'') : Related R h h'' := by
  refine ⟨h₂.size.trans h₁.size, fun i => ?_⟩
  have h₁ := h₁.get i
  have h₂ := h₂.get i
  generalize h.get i = a, h'.get i = b, h''.get i = c at h₁ h₂
  cases h₁ <;> cases h₂
  case none.none         => exact .none
  case some.some h₁ _ h₂ => exact .some (ht _ _ _ h₁ h₂)

theorem Related.set (hr : ∀ a, R a a) (hi : h.get i = some a) (hb : R a b) :
    Related R h (h.set i b) := by
  refine ⟨size_set, fun j => ?_⟩
  rw [get_set hi]
  by_cases hj : j = i
  case pos =>
    rw [if_pos hj, hj, hi]
    exact .some hb
  case neg =>
    rw [if_neg hj]
    cases h.get j
    case none   => exact .none
    case some a => exact .some (hr a)

theorem Related.mono {R' : α → α → Prop} (hr : ∀ a b, R a b → R' a b) (hh : Related R h h') :
    Related R' h h' := by
  refine ⟨hh.size, fun i => ?_⟩
  have := hh.get i
  generalize h.get i = a, h'.get i = b at this
  cases this
  case none    => exact .none
  case some hr' => exact .some (hr _ _ hr')

theorem Related.some_iff (hh : Related R h h') : (∃ a, h'.get i = some a) ↔ ∃ a, h.get i = some a := by
  have := hh.get i
  generalize h.get i = a, h'.get i = b at this
  cases this <;> simp

theorem Related.of_get (hh : Related R h h') (hi : h.get i = some a) :
    ∃ b, h'.get i = some b ∧ R a b := by
  have := hh.get i
  rw [hi] at this
  generalize h'.get i = b at this
  cases this
  case some hr => exact ⟨_, rfl, hr⟩

theorem Related.of_get' (hh : Related R h h') (hi : h'.get i = some b) :
    ∃ a, h.get i = some a ∧ R a b := by
  have := hh.get i
  rw [hi] at this
  generalize h.get i = a at this
  cases this
  case some hr => exact ⟨_, rfl, hr⟩

end Related

section Total

variable {M : Type*} [AddCommGroup M] {w : ℕ → α → M} {k : ℕ} {cells : List (Option α)}

-- The weights of a list of cells whose first one has the address `k`.
theorem sum_zipIdx_set {c d : Option α} (hi : cells[i]? = some c) :
    (((cells.set i d).zipIdx k).map fun c => c.1.elim 0 (w c.2)).sum =
      ((cells.zipIdx k).map fun c => c.1.elim 0 (w c.2)).sum +
        (d.elim 0 (w (k + i)) - c.elim 0 (w (k + i))) := by
  induction cells generalizing i k
  case nil => simp at hi
  case cons e cells hind =>
    cases i
    case zero =>
      obtain rfl : e = c := by simpa using hi
      simp only [List.set_cons_zero, List.zipIdx_cons, List.map_cons, List.sum_cons, Nat.add_zero]
      abel
    case succ i =>
      have := hind (i := i) (k := k + 1) (by simpa using hi)
      simp only [List.set_cons_succ, List.zipIdx_cons, List.map_cons, List.sum_cons, this]
      rw [show k + 1 + i = k + (i + 1) by omega]
      abel

theorem getElem?_of_get (hi : h.get i = some a) : h.cells[i]? = some (some a) := by
  simpa [get, Option.join_eq_some_iff] using hi

theorem total_set (hi : h.get i = some b) : (h.set i a).total w = h.total w + (w i a - w i b) := by
  have := sum_zipIdx_set (k := 0) (w := w) (d := some a) (getElem?_of_get hi)
  simpa [total, set] using this

theorem total_free (hi : h.get i = some b) : (h.free i).total w = h.total w - w i b := by
  have := sum_zipIdx_set (k := 0) (w := w) (d := none) (getElem?_of_get hi)
  simpa [total, free, sub_eq_add_neg] using this

theorem total_alloc : (h.alloc a).total w = h.total w + w h.size a := by
  simp [total, alloc, size, List.zipIdx_append]

theorem total_congr {w' : ℕ → α → M} (hw : ∀ i a, h.get i = some a → w i a = w' i a) :
    h.total w = h.total w' := by
  simp only [total]
  congr 1
  refine List.map_congr_left fun c hc => ?_
  obtain ⟨c, i⟩ := c
  have hi := List.mem_zipIdx' hc
  cases c
  case none   => rfl
  case some a => exact hw i a (by simp [get, List.getElem?_eq_getElem hi.1, ← hi.2])

theorem total_zero : h.total (fun _ _ => (0 : M)) = 0 := by
  simp only [total]
  refine List.sum_eq_zero fun x hx => ?_
  obtain ⟨⟨c, i⟩, _, rfl⟩ := List.mem_map.mp hx
  cases c <;> rfl

theorem total_eq_zero (hw : ∀ i a, h.get i = some a → w i a = 0) : h.total w = 0 :=
  (total_congr hw).trans total_zero

-- The weight of the object at one address.
theorem total_single {f : α → M} : h.total (fun j a => if j = i then f a else 0) = (h.get i).elim 0 f := by
  cases hi : h.get i
  case none =>
    refine total_eq_zero fun j a hj => if_neg fun heq => ?_
    rw [heq, hi] at hj
    contradiction
  case some a =>
    have hfree := total_free (w := fun j a => if j = i then f a else 0) hi
    have hzero : (h.free i).total (fun j a => if j = i then f a else 0) = 0 := by
      refine total_eq_zero fun j a hj => if_neg fun heq => ?_
      rw [heq, get_free_self] at hj
      contradiction
    rw [hzero, if_pos rfl] at hfree
    exact (sub_eq_zero.mp hfree.symm)

theorem total_add (w w' : ℕ → α → M) : h.total (fun i a => w i a + w' i a) = h.total w + h.total w' := by
  simp only [total, ← List.sum_map_add]
  congr 1
  refine List.map_congr_left fun c _ => ?_
  obtain ⟨c, i⟩ := c
  cases c <;> simp

theorem total_neg : h.total (fun i a => -w i a) = -h.total w := by
  rw [eq_neg_iff_add_eq_zero, ← total_add]
  exact total_eq_zero fun _ _ _ => neg_add_cancel _

theorem total_sub {w' : ℕ → α → M} : h.total (fun i a => w i a - w' i a) = h.total w - h.total w' := by
  simp only [sub_eq_add_neg, total_add, total_neg]

end Total

section Count

variable {w : ℕ → α → ℤ}

theorem total_nonneg (hw : ∀ i a, 0 ≤ w i a) : 0 ≤ h.total w := by
  refine List.sum_nonneg fun x hx => ?_
  obtain ⟨⟨_ | a, i⟩, _, rfl⟩ := List.mem_map.mp hx
  · exact le_rfl
  · exact hw i a

theorem le_total (hw : ∀ i a, 0 ≤ w i a) (hi : h.get i = some a) : w i a ≤ h.total w := by
  have := total_free (w := w) hi
  have := total_nonneg (h := h.free i) hw
  omega

end Count
end Heap
