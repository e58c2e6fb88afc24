import Camellia.Lib.HeapOrder
import Camellia.Libk.Mem

namespace Camellia.Sort

-- `tmp = a[i]; a[i] = b[i]; b[i] = tmp`, for the first `size` bytes.
def memswap (m : Mem) (a b : ℕ) : (size : ℕ) → Mem
  | 0     => m
  | i + 1 =>
    let m := memswap m a b i
    (m.store (a + i) (m (b + i))).store (b + i) (m (a + i))

def arrayIndex (base elementSize index : ℕ) : ℕ :=
  base + elementSize * index

-- A comparison reads the memory, and gets the addresses of two elements.
abbrev Compare := Mem → ℕ → ℕ → ℤ

section Code

variable (compare : Compare) (base elementSize : ℕ)

-- `swapping it up the parent chain as long as it's bigger than its parent`
def swapUp (m : Mem) (element : ℕ) : Mem :=
  if 0 < element then
    let ptr := arrayIndex base elementSize element
    let parent := (element - 1) / 2
    let parentPtr := arrayIndex base elementSize parent
    if compare m parentPtr ptr < 0 then
      swapUp (memswap m parentPtr ptr elementSize) parent
    else
      m
  else
    m
termination_by element

def swapDown (size : ℕ) (m : Mem) (element : ℕ) : Mem :=
  if element < size then
    let ptr := arrayIndex base elementSize element
    let left := 2 * element + 1
    let leftPtr := arrayIndex base elementSize left
    let leftBigger := element < size / 2 ∧ compare m ptr leftPtr < 0
    let right := 2 * element + 2
    let rightPtr := arrayIndex base elementSize right
    let rightBigger := element < (size - 1) / 2 ∧ compare m ptr rightPtr < 0
    if leftBigger ∧ rightBigger then
      if compare m leftPtr rightPtr < 0 then
        swapDown size (memswap m ptr rightPtr elementSize) right
      else
        swapDown size (memswap m ptr leftPtr elementSize) left
    else if leftBigger then
      swapDown size (memswap m ptr leftPtr elementSize) left
    else if rightBigger then
      swapDown size (memswap m ptr rightPtr elementSize) right
    else
      m
  else
    m
termination_by size - element

-- `Incrementally left-to-right transform the array into a max-heap`
def heapify (m : Mem) : (numElements : ℕ) → Mem
  | 0     => m
  | i + 1 => swapUp compare base elementSize (heapify m i) i

-- `for (size_t size = num_elements; --size; )`
def sortDown (m : Mem) : (size : ℕ) → Mem
  | 0     => m
  | 1     => m
  | n + 2 =>
    let size := n + 1
    let m := memswap m (arrayIndex base elementSize size) base elementSize
    sortDown (swapDown compare base elementSize size m 0) size

def qsortR (m : Mem) (numElements : ℕ) : Mem :=
  if elementSize = 0 ∨ numElements < 2 then
    m
  else
    sortDown compare base elementSize (heapify compare base elementSize m numElements) numElements

-- The comparison takes the place of the argument which `qsort_r` passes on.
def compareWrapper (arg : Compare) : Compare :=
  fun m a b => arg m a b

def qsort (m : Mem) (numElements : ℕ) : Mem :=
  qsortR (compareWrapper compare) base elementSize m numElements

-- `Semantics of binary search`
def bsearch (m : Mem) (key base nmemb : ℕ) : Option ℕ :=
  if nmemb = 0 then
    none
  else
    let i := nmemb / 2
    let candidate := base + i * elementSize
    let rel := compare m key candidate
    if rel < 0 then
      bsearch m key base i
    else if 0 < rel then
      bsearch m key (candidate + elementSize) (nmemb - (i + 1))
    else
      some candidate
termination_by nmemb

end Code

-- The elements of an array.
def elements (base elementSize : ℕ) (m : Mem) (i : ℕ) : List UInt8 :=
  m.slice (arrayIndex base elementSize i) elementSize

-- The same elements are there, in some order, and no other memory has changed.
structure Rearranged (base elementSize n : ℕ) (m m' : Mem) : Prop where
  shuffle : Shuffle n (elements base elementSize m) (elements base elementSize m')
  others  : ∀ a, ¬(base ≤ a ∧ a < base + elementSize * n) → m' a = m a

-- The comparison is a total preorder on the bytes of the elements, whatever order they are in.
structure Orders (compare : Compare) (base elementSize n : ℕ) (m : Mem) (le : List UInt8 → List UInt8 → Prop) : Prop where
  total : ∀ x y, le x y ∨ le y x
  trans : ∀ x y z, le x y → le y z → le x z
  sign  : ∀ m', (∀ a, ¬(base ≤ a ∧ a < base + elementSize * n) → m' a = m a) → ∀ i < n, ∀ j < n,
    (compare m' (arrayIndex base elementSize i) (arrayIndex base elementSize j) < 0 ↔
      ¬le (elements base elementSize m' j) (elements base elementSize m' i))

-- Comparing with the key tells where the bytes `x` belong.
structure Keyed (compare : Compare) (base elementSize n : ℕ) (m : Mem) (le : List UInt8 → List UInt8 → Prop) (key : ℕ)
    (x : List UInt8) : Prop where
  less : ∀ m', (∀ a, ¬(base ≤ a ∧ a < base + elementSize * n) → m' a = m a) → ∀ i < n,
    (compare m' key (arrayIndex base elementSize i) < 0 ↔ ¬le (elements base elementSize m' i) x)
  more : ∀ m', (∀ a, ¬(base ≤ a ∧ a < base + elementSize * n) → m' a = m a) → ∀ i < n,
    (0 < compare m' key (arrayIndex base elementSize i) ↔ ¬le x (elements base elementSize m' i))

-- The same elements in ascending order, and all other memory as it was.
structure Sorted (le : List UInt8 → List UInt8 → Prop) (base elementSize n : ℕ) (m m' : Mem) : Prop where
  ascending : ∀ i j, i ≤ j → j < n → le (elements base elementSize m' i) (elements base elementSize m' j)
  perm      : ((List.range n).map (elements base elementSize m')).Perm ((List.range n).map (elements base elementSize m))
  others    : ∀ a, ¬(base ≤ a ∧ a < base + elementSize * n) → m' a = m a

section Memswap

variable {m : Mem} {a b n x : ℕ}

theorem memswap_apply (h : a = b ∨ a + n ≤ b ∨ b + n ≤ a) :
    memswap m a b n x =
      if a ≤ x ∧ x < a + n then m (b + (x - a))
      else if b ≤ x ∧ x < b + n then m (a + (x - b))
      else m x := by
  induction n generalizing x
  case zero => rw [memswap, if_neg (by omega), if_neg (by omega)]
  case succ n hi =>
    have hi := fun x => @hi x (by omega)
    rw [memswap, Mem.store_apply, Mem.store_apply, hi, hi, hi]
    split_ifs <;> first | omega | rfl | (congr 1; omega)

theorem memswap_others (h : a = b ∨ a + n ≤ b ∨ b + n ≤ a) (ha : ¬(a ≤ x ∧ x < a + n)) (hb : ¬(b ≤ x ∧ x < b + n)) :
    memswap m a b n x = m x := by
  rw [memswap_apply h, if_neg ha, if_neg hb]

end Memswap

section Elements

variable {m m' m'' : Mem} {base es n k i j : ℕ}

theorem arrayIndex_zero : arrayIndex base es 0 = base := by
  simp [arrayIndex]

theorem arrayIndex_succ : arrayIndex base es i + es = arrayIndex base es (i + 1) := by
  simp only [arrayIndex, Nat.mul_succ, Nat.add_assoc]

theorem arrayIndex_add_mul : arrayIndex base es i + j * es = arrayIndex base es (i + j) := by
  simp only [arrayIndex, Nat.mul_add, Nat.mul_comm j es, Nat.add_assoc]

theorem arrayIndex_le (h : i < j) : arrayIndex base es i + es ≤ arrayIndex base es j := by
  have := Nat.mul_le_mul_left es (Nat.succ_le_of_lt h)
  rw [Nat.mul_succ] at this
  simp only [arrayIndex]
  omega

theorem arrayIndex_disjoint :
    arrayIndex base es i = arrayIndex base es j ∨ arrayIndex base es i + es ≤ arrayIndex base es j ∨
      arrayIndex base es j + es ≤ arrayIndex base es i := by
  obtain h | rfl | h := lt_trichotomy i j
  case inl => exact .inr (.inl (arrayIndex_le h))
  case inr.inl => exact .inl rfl
  case inr.inr => exact .inr (.inr (arrayIndex_le h))

theorem arrayIndex_within (h : i < n) : base ≤ arrayIndex base es i ∧ arrayIndex base es i + es ≤ base + es * n :=
  ⟨Nat.le_add_right _ _, arrayIndex_le h⟩

theorem elements_eq (h : ∀ k < es, m' (arrayIndex base es j + k) = m (arrayIndex base es i + k)) :
    elements base es m' j = elements base es m i :=
  Mem.slice_congr h

theorem elements_memswap :
    elements base es (memswap m (arrayIndex base es i) (arrayIndex base es j) es) =
      elements base es m ∘ Equiv.swap i j := by
  funext k
  have hd := @arrayIndex_disjoint base es i j
  rw [Function.comp_apply]
  by_cases hi : k = i
  case pos =>
    rw [hi, Equiv.swap_apply_left]
    refine elements_eq fun x hx => ?_
    rw [memswap_apply hd, if_pos (by omega), Nat.add_sub_cancel_left]
  case neg =>
    by_cases hj : k = j
    case pos =>
      rw [hj, Equiv.swap_apply_right]
      have hle := @arrayIndex_disjoint base es i j
      refine elements_eq fun x hx => ?_
      rw [memswap_apply hd]
      split_ifs with h₁ h₂
      · congr 1
        omega
      · rw [Nat.add_sub_cancel_left]
      · omega
    case neg =>
      rw [Equiv.swap_apply_of_ne_of_ne hi hj]
      refine elements_eq fun x hx => memswap_others hd ?_ ?_
      · obtain h | h := lt_or_gt_of_ne hi
        case inl => have := @arrayIndex_le base es _ _ h; omega
        case inr => have := @arrayIndex_le base es _ _ h; omega
      · obtain h | h := lt_or_gt_of_ne hj
        case inl => have := @arrayIndex_le base es _ _ h; omega
        case inr => have := @arrayIndex_le base es _ _ h; omega

namespace Rearranged

theorem refl : Rearranged base es n m m :=
  ⟨.refl, fun _ _ => rfl⟩

theorem trans (h : Rearranged base es n m m') (h' : Rearranged base es n m' m'') : Rearranged base es n m m'' where
  shuffle    := h.shuffle.trans h'.shuffle
  others a ha := (h'.others a ha).trans (h.others a ha)

theorem mono (h : Rearranged base es k m m') (hk : k ≤ n) : Rearranged base es n m m' where
  shuffle     := h.shuffle.mono hk
  others a ha := h.others a fun ⟨hl, hu⟩ => ha ⟨hl, hu.trans_le <| Nat.add_le_add_left (Nat.mul_le_mul_left es hk) base⟩

theorem swap (hi : i < n) (hj : j < n) :
    Rearranged base es n m (memswap m (arrayIndex base es i) (arrayIndex base es j) es) where
  shuffle := by
    rw [elements_memswap]
    exact .swap hi hj
  others a ha := by
    have ⟨hil, hiu⟩ := @arrayIndex_within base es n i hi
    have ⟨hjl, hju⟩ := @arrayIndex_within base es n j hj
    exact memswap_others arrayIndex_disjoint (by omega) (by omega)

end Rearranged
end Elements

section Arbitrary

variable {compare : Compare} {base es n k size element : ℕ} {m : Mem}

-- Whatever the comparison says, elements are only exchanged.

theorem swapUp_rearranged (h : element < n) : Rearranged base es n m (swapUp compare base es m element) := by
  fun_induction swapUp compare base es m element
  case case1 m element hz ptr parent parentPtr hlt hi =>
    have hp : (element - 1) / 2 < element := by omega
    exact (Rearranged.swap (hp.trans h) h).trans (hi (hp.trans h))
  case case2 => exact .refl
  case case3 => exact .refl

theorem swapDown_rearranged (hs : size ≤ n) : Rearranged base es n m (swapDown compare base es size m element) := by
  fun_induction swapDown compare base es size m element
  case case1 element hlt _ _ _ _ _ _ _ hboth _ hi =>
    exact (Rearranged.swap (hlt.trans_le hs) (by omega)).trans hi
  case case2 element hlt _ _ _ _ _ _ _ hboth _ hi =>
    exact (Rearranged.swap (hlt.trans_le hs) (by omega)).trans hi
  case case3 element hlt _ _ _ _ _ _ _ _ hleft hi =>
    exact (Rearranged.swap (hlt.trans_le hs) (by omega)).trans hi
  case case4 element hlt _ _ _ _ _ _ _ _ _ hright hi =>
    exact (Rearranged.swap (hlt.trans_le hs) (by omega)).trans hi
  case case5 => exact .refl
  case case6 => exact .refl

theorem heapify_rearranged (h : k ≤ n) : Rearranged base es n m (heapify compare base es m k) := by
  induction k
  case zero => exact .refl
  case succ k hi => exact (hi (by omega)).trans (swapUp_rearranged (by omega))

theorem sortDown_rearranged (h : k ≤ n) : Rearranged base es n m (sortDown compare base es m k) := by
  fun_induction sortDown compare base es m k
  case case1 => exact .refl
  case case2 => exact .refl
  case case3 m k size m' hi =>
    have hswap : Rearranged base es n m m' := by
      have := @Rearranged.swap m base es n size 0 (by omega) (by omega)
      rwa [arrayIndex_zero] at this
    exact hswap.trans ((swapDown_rearranged (by omega)).trans (hi (by omega)))

theorem qsortR_rearranged : Rearranged base es n m (qsortR compare base es m n) := by
  rw [qsortR]
  split
  case isTrue => exact .refl
  case isFalse => exact (heapify_rearranged le_rfl).trans (sortDown_rearranged le_rfl)

end Arbitrary

open Heaped

section Ordered

variable {compare : Compare} {base es n k size element i j : ℕ} {m m' : Mem} {le : List UInt8 → List UInt8 → Prop}

namespace Orders

variable (h : Orders compare base es n m le) (hr : Rearranged base es n m m')

include h

theorem refl (x : List UInt8) : le x x :=
  (h.total x x).elim id id

theorem le_of_not {x y : List UInt8} (hn : ¬le y x) : le x y :=
  (h.total x y).resolve_right hn

include hr

theorem le_of_neg (hi : i < n) (hj : j < n) (hc : compare m' (arrayIndex base es i) (arrayIndex base es j) < 0) :
    le (elements base es m' i) (elements base es m' j) :=
  h.le_of_not <| (h.sign m' hr.others i hi j hj).mp hc

theorem ge_of_not_neg (hi : i < n) (hj : j < n)
    (hc : ¬compare m' (arrayIndex base es i) (arrayIndex base es j) < 0) :
    le (elements base es m' j) (elements base es m' i) :=
  not_not.mp <| (h.sign m' hr.others i hi j hj).not.mp hc

end Orders

theorem swapUp_heap (h : Orders compare base es n m le) (hr : Rearranged base es n m m') (hk : k ≤ n)
    (he : element < k) (hrise : Rising le (elements base es m') k element) :
    Heap le (elements base es (swapUp compare base es m' element)) k := by
  fun_induction swapUp compare base es m' element
  case case1 m' element hz ptr parent parentPtr hlt hi =>
    have hp : parent < element := parent_lt hz
    have hle : le (elements base es m' parent) (elements base es m' element) :=
      h.le_of_neg hr (by omega) (by omega) hlt
    apply hi (hr.trans <| .swap (by omega) (by omega)) (hp.trans he)
    rw [elements_memswap]
    exact hrise.step h.trans hz he hle
  case case2 m' element hz ptr parent parentPtr hlt =>
    have hp : parent < element := parent_lt hz
    exact hrise.stop fun _ => h.ge_of_not_neg hr (hp.trans (he.trans_le hk)) (by omega) hlt
  case case3 m' element hz => exact hrise.stop fun h => absurd h hz

theorem swapDown_heap (h : Orders compare base es n m le) (hr : Rearranged base es n m m') (hs : size ≤ n)
    (hsink : Sinking le (elements base es m') size element) :
    Heap le (elements base es (swapDown compare base es size m' element)) size := by
  fun_induction swapDown compare base es size m' element
  case case1 m' element hlt _ left _ hl right _ hr' hboth hright hi =>
    have hlr := h.le_of_neg hr (i := left) (j := right) (by omega) (by omega) hright
    have hle := h.le_of_neg hr (i := element) (j := right) (by omega) (by omega) hboth.right.right
    apply hi (hr.trans <| .swap (by omega) (by omega))
    rw [elements_memswap]
    refine hsink.step (by omega) (by omega) ((parent_eq_iff (by omega)).mpr (.inr rfl)) hle fun d hz hd hp => ?_
    obtain rfl | rfl := (parent_eq_iff hz).mp hp
    case inl => exact hlr
    case inr => exact h.refl _
  case case2 m' element hlt _ left _ hl right _ hr' hboth hright hi =>
    have hlr := h.ge_of_not_neg hr (i := left) (j := right) (by omega) (by omega) hright
    have hle := h.le_of_neg hr (i := element) (j := left) (by omega) (by omega) hboth.left.right
    apply hi (hr.trans <| .swap (by omega) (by omega))
    rw [elements_memswap]
    refine hsink.step (by omega) (by omega) ((parent_eq_iff (by omega)).mpr (.inl rfl)) hle fun d hz hd hp => ?_
    obtain rfl | rfl := (parent_eq_iff hz).mp hp
    case inl => exact h.refl _
    case inr => exact hlr
  case case3 m' element hlt _ left _ hl right _ hr' hboth hleft hi =>
    have hle := h.le_of_neg hr (i := element) (j := left) (by omega) (by omega) hleft.right
    apply hi (hr.trans <| .swap (by omega) (by omega))
    rw [elements_memswap]
    refine hsink.step (by omega) (by omega) ((parent_eq_iff (by omega)).mpr (.inl rfl)) hle fun d hz hd hp => ?_
    obtain rfl | rfl := (parent_eq_iff hz).mp hp
    case inl => exact h.refl _
    case inr =>
      -- The right child is there, so it is not bigger than the element.
      have hn : ¬compare m' (arrayIndex base es element) (arrayIndex base es right) < 0 := fun hc =>
        hboth ⟨hleft, by omega, hc⟩
      exact h.trans _ _ _ (h.ge_of_not_neg hr (by omega) (by omega) hn) hle
  case case4 m' element hlt _ left _ hl right _ hr' hboth hleft hright hi =>
    have hle := h.le_of_neg hr (i := element) (j := right) (by omega) (by omega) hright.right
    apply hi (hr.trans <| .swap (by omega) (by omega))
    rw [elements_memswap]
    refine hsink.step (by omega) (by omega) ((parent_eq_iff (by omega)).mpr (.inr rfl)) hle fun d hz hd hp => ?_
    obtain rfl | rfl := (parent_eq_iff hz).mp hp
    case inl =>
      have hn : ¬compare m' (arrayIndex base es element) (arrayIndex base es left) < 0 := fun hc =>
        hleft ⟨by omega, hc⟩
      exact h.trans _ _ _ (h.ge_of_not_neg hr (by omega) (by omega) hn) hle
    case inr => exact h.refl _
  case case5 m' element hlt _ left _ hl right _ hr' hboth hleft hright =>
    refine hsink.stop fun d hz hd hp => ?_
    obtain rfl | rfl := (parent_eq_iff hz).mp hp
    case inl => exact h.ge_of_not_neg hr (by omega) (by omega) fun hc => hleft ⟨by omega, hc⟩
    case inr => exact h.ge_of_not_neg hr (by omega) (by omega) fun hc => hright ⟨by omega, hc⟩
  case case6 m' element hlt =>
    refine hsink.stop fun d hz hd hp => ?_
    have := parent_lt hz
    omega

theorem heapify_heap (h : Orders compare base es n m le) (hk : k ≤ n) :
    Heap le (elements base es (heapify compare base es m k)) k := by
  induction k
  case zero => exact fun i _ hi => absurd hi i.not_lt_zero
  case succ k hi =>
    exact swapUp_heap h (heapify_rearranged (by omega)) hk k.lt_succ_self (.start <| hi (by omega))

-- What is taken from the heap is put before the sorted end of the array.
theorem sortDown_tail (h : Orders compare base es n m le) (hr : Rearranged base es n m m') (hs : size ≤ n)
    (hheap : Heap le (elements base es m') size) (htail : Tail le (elements base es m') size n) :
    Tail le (elements base es (sortDown compare base es m' size)) 0 n := by
  fun_induction sortDown compare base es m' size
  case case1 => exact htail
  case case2 m' =>
    refine ⟨fun i j _ hij hj => ?_, fun i j hi => absurd hi i.not_lt_zero⟩
    by_cases hi : i = 0
    case neg => exact htail.sorted i j (by omega) hij hj
    case pos =>
      by_cases hz : j = 0
      case pos => rw [hi, hz]; exact h.refl _
      case neg => exact htail.bound i j (by omega) (by omega) hj
  case case3 m' k size m'' hi =>
    have hswap := @Rearranged.swap m' base es n size 0 (by omega) (by omega)
    have helem := @elements_memswap m' base es size 0
    rw [arrayIndex_zero] at hswap helem
    have hrest : Rearranged base es size m'' (swapDown compare base es size m'' 0) := swapDown_rearranged le_rfl
    apply hi ((hr.trans hswap).trans <| hrest.mono (by omega)) (by omega)
    case hheap =>
      apply swapDown_heap h (hr.trans hswap) (by omega)
      rw [helem]
      exact .start hheap
    case htail =>
      apply htail.step hheap h.refl h.trans
      rw [← helem]
      exact hrest.shuffle

theorem qsortR_ascending (h : Orders compare base es n m le) (hij : i ≤ j) (hj : j < n) :
    le (elements base es (qsortR compare base es m n) i) (elements base es (qsortR compare base es m n) j) := by
  rw [qsortR]
  split
  case isTrue hsmall =>
    obtain hes | hn := hsmall
    case inl =>
      have hempty : ∀ k, elements base es m k = [] := fun k => by simp [elements, hes, Mem.slice]
      rw [hempty, hempty]
      exact h.refl _
    case inr =>
      rw [show i = j by omega]
      exact h.refl _
  case isFalse =>
    have hheap := heapify_heap h (Nat.le_refl n)
    have hnone : Tail le (elements base es (heapify compare base es m n)) n n :=
      ⟨fun i j hi hij hj => by omega, fun i j _ hj hl => by omega⟩
    exact (sortDown_tail h (heapify_rearranged le_rfl) le_rfl hheap hnone).sorted i j i.zero_le hij hj

theorem qsortR_sorts (h : Orders compare base es n m le) :
    Sorted le base es n m (qsortR compare base es m n) where
  ascending _ _ hij hj := qsortR_ascending h hij hj
  perm                := qsortR_rearranged.shuffle.perm
  others              := qsortR_rearranged.others

end Ordered

section Bytes

-- Arrays of bytes.
def byteCompare : Compare :=
  fun m a b => (m a).toNat - (m b).toNat

def byteLe (x y : List UInt8) : Prop :=
  x.headD 0 ≤ y.headD 0

instance : DecidableRel byteLe :=
  fun x y => inferInstanceAs <| Decidable (x.headD 0 ≤ y.headD 0)

variable {base n key i : ℕ} {m : Mem}

theorem elements_one : elements base 1 m i = [m (arrayIndex base 1 i)] := by
  simp [elements, Mem.slice]

theorem byteCompare_neg_iff {a b : ℕ} : byteCompare m a b < 0 ↔ ¬byteLe [m b] [m a] := by
  simp only [byteCompare, byteLe, List.headD_cons, UInt8.le_iff_toNat_le]
  omega

theorem byteCompare_pos_iff {a b : ℕ} : 0 < byteCompare m a b ↔ ¬byteLe [m a] [m b] := by
  simp only [byteCompare, byteLe, List.headD_cons, UInt8.le_iff_toNat_le]
  omega

theorem orders_bytes : Orders byteCompare base 1 n m byteLe where
  total _ _            := UInt8.le_total _ _
  trans _ _ _          := UInt8.le_trans
  sign m' _ i _ j _    := by rw [elements_one, elements_one, byteCompare_neg_iff]

theorem keyed_bytes (h : ¬(base ≤ key ∧ key < base + 1 * n)) : Keyed byteCompare base 1 n m byteLe key [m key] where
  less m' hm i _ := by rw [elements_one, byteCompare_neg_iff, hm key h]
  more m' hm i _ := by rw [elements_one, byteCompare_pos_iff, hm key h]

theorem qsortR_sorts_bytes :
    Sorted byteLe 2 1 5 (.ofList [9, 9, 3, 1, 4, 1, 5, 9]) (qsortR byteCompare 2 1 (.ofList [9, 9, 3, 1, 4, 1, 5, 9]) 5) :=
  qsortR_sorts orders_bytes

end Bytes

section Search

variable {compare : Compare} {base es n k l key i j p : ℕ} {m m' : Mem} {le : List UInt8 → List UInt8 → Prop}
  {x : List UInt8}

-- The elements before a smaller one are smaller than the key, and those after a bigger one are bigger.
structure Partitioned (compare : Compare) (base es n : ℕ) (m : Mem) (key : ℕ) : Prop where
  below : ∀ i j, i ≤ j → j < n → 0 < compare m key (arrayIndex base es j) → 0 < compare m key (arrayIndex base es i)
  above : ∀ i j, i ≤ j → j < n → compare m key (arrayIndex base es i) < 0 → compare m key (arrayIndex base es j) < 0

theorem bsearch_some (h : bsearch compare es m key (arrayIndex base es l) k = some p) :
    ∃ i, l ≤ i ∧ i < l + k ∧ p = arrayIndex base es i ∧ compare m key p = 0 := by
  induction k using Nat.strong_induction_on generalizing l
  case h k hi =>
    rw [bsearch] at h
    simp only [arrayIndex_add_mul] at h
    split at h
    case isTrue => cases h
    case isFalse hz =>
      split at h
      case isTrue =>
        have ⟨i, hl, hu, he⟩ := hi (k / 2) (by omega) h
        exact ⟨i, hl, by omega, he⟩
      case isFalse hneg =>
        split at h
        case isTrue =>
          rw [arrayIndex_succ] at h
          have ⟨i, hl, hu, he⟩ := hi _ (by omega) h
          exact ⟨i, by omega, by omega, he⟩
        case isFalse hpos =>
          cases h
          exact ⟨l + k / 2, by omega, by omega, rfl, by omega⟩

theorem bsearch_none (hp : Partitioned compare base es n m key) (hn : l + k ≤ n)
    (h : bsearch compare es m key (arrayIndex base es l) k = none) (hl : l ≤ i) (hu : i < l + k) :
    compare m key (arrayIndex base es i) ≠ 0 := by
  induction k using Nat.strong_induction_on generalizing l
  case h k hi =>
    rw [bsearch] at h
    simp only [arrayIndex_add_mul] at h
    split at h
    case isTrue hz => omega
    case isFalse hz =>
      split at h
      case isTrue hneg =>
        obtain hlt | hge := lt_or_ge i (l + k / 2)
        case inl => exact hi _ (by omega) (by omega) h hl hlt
        case inr => exact (hp.above _ _ hge (by omega) hneg).ne
      case isFalse hneg =>
        split at h
        case isTrue hpos =>
          rw [arrayIndex_succ] at h
          obtain hle | hgt := le_or_gt i (l + k / 2)
          case inl => exact (hp.below _ _ hle (by omega) hpos).ne'
          case inr => exact hi _ (by omega) (by omega) h hgt (by omega)
        case isFalse => cases h

theorem Sorted.partitioned (h : Sorted le base es n m m') (ho : Orders compare base es n m le)
    (hk : Keyed compare base es n m le key x) : Partitioned compare base es n m' key where
  below i j hij hj hc := by
    rw [hk.more m' h.others j hj] at hc
    rw [hk.more m' h.others i (by omega)]
    exact fun hx => hc (ho.trans _ _ _ hx (h.ascending i j hij hj))
  above i j hij hj hc := by
    rw [hk.less m' h.others i (by omega)] at hc
    rw [hk.less m' h.others j hj]
    exact fun hx => hc (ho.trans _ _ _ (h.ascending i j hij hj) hx)

theorem Keyed.zero_iff (hk : Keyed compare base es n m le key x)
    (hm : ∀ a, ¬(base ≤ a ∧ a < base + es * n) → m' a = m a) (hi : i < n) :
    compare m' key (arrayIndex base es i) = 0 ↔
      le x (elements base es m' i) ∧ le (elements base es m' i) x := by
  rw [← not_iff_not (a := compare m' key _ = 0), not_and_or, ← hk.more m' hm i hi, ← hk.less m' hm i hi]
  omega

-- The elements are searched after they were sorted: what is found belongs where the key belongs, and something is found
-- if and only if there was such an element before.
theorem bsearch_qsort_iff (ho : Orders compare base es n m le) (hk : Keyed compare base es n m le key x) :
    (∀ p, bsearch compare es (qsort compare base es m n) key base n = some p →
      ∃ i < n, p = arrayIndex base es i ∧ le x (elements base es (qsort compare base es m n) i) ∧
        le (elements base es (qsort compare base es m n) i) x) ∧
    ((bsearch compare es (qsort compare base es m n) key base n).isSome ↔
      ∃ i < n, le x (elements base es m i) ∧ le (elements base es m i) x) := by
  have hs : Sorted le base es n m (qsort compare base es m n) := qsortR_sorts ho
  generalize qsort compare base es m n = m' at hs
  have hbase := @arrayIndex_zero base es
  have hfound : ∀ p, bsearch compare es m' key base n = some p →
      ∃ i < n, p = arrayIndex base es i ∧ le x (elements base es m' i) ∧ le (elements base es m' i) x := by
    intro p hp
    rw [← hbase] at hp
    have ⟨i, _, hi, he, hz⟩ := bsearch_some hp
    rw [Nat.zero_add] at hi
    exact ⟨i, hi, he, (hk.zero_iff hs.others hi).mp (he ▸ hz)⟩
  -- The elements which belong there are the same before and after sorting.
  have hsame : (∃ i < n, le x (elements base es m i) ∧ le (elements base es m i) x) ↔
      ∃ i < n, le x (elements base es m' i) ∧ le (elements base es m' i) x := by
    have := fun y => @List.Perm.mem_iff _ y _ _ hs.perm
    simp only [List.mem_map, List.mem_range] at this
    refine ⟨fun ⟨i, hi, he⟩ => ?_, fun ⟨i, hi, he⟩ => ?_⟩
    · have ⟨j, hj, hij⟩ := (this _).mpr ⟨i, hi, rfl⟩
      exact ⟨j, hj, hij ▸ he⟩
    · have ⟨j, hj, hij⟩ := (this _).mp ⟨i, hi, rfl⟩
      exact ⟨j, hj, hij ▸ he⟩
  refine ⟨hfound, ?_⟩
  rw [hsame]
  constructor
  case mp =>
    intro hsome
    have ⟨p, hp⟩ := Option.isSome_iff_exists.mp hsome
    have ⟨i, hi, _, he⟩ := hfound p hp
    exact ⟨i, hi, he⟩
  case mpr =>
    intro ⟨i, hi, he⟩
    by_contra hnone
    rw [Bool.not_eq_true, Option.isSome_eq_false_iff, Option.isNone_iff_eq_none, ← hbase] at hnone
    exact bsearch_none (hs.partitioned ho hk) (Nat.zero_add n).le hnone i.zero_le (by omega)
      ((hk.zero_iff hs.others hi).mpr he)

-- The key stands behind the array.
theorem bsearch_qsort_iff_bytes :
    (bsearch byteCompare 1 (qsort byteCompare 2 1 (.ofList [9, 9, 3, 1, 4, 1, 5, 4]) 5) 7 2 5).isSome :=
  (bsearch_qsort_iff orders_bytes (keyed_bytes (by decide))).right.mpr ⟨2, by decide, by decide, by decide⟩

end Search
end Camellia.Sort
