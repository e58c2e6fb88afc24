import Mathlib.Data.List.Nodup
import Mathlib.Data.List.Perm.Basic
import Mathlib.Algebra.Group.End
import Mathlib.Order.Basic
import Mathlib.Algebra.Order.Ring.Nat
import Mathlib.Tactic.Common

-- Arrays as functions from the index to the entry.

-- The first `n` entries are in another order, and the remaining ones are the same.
def Shuffle {α : Type*} (n : ℕ) (f g : ℕ → α) : Prop :=
  ∃ σ : Equiv.Perm ℕ, (∀ i, n ≤ i → σ i = i) ∧ g = f ∘ σ

namespace Shuffle

variable {α : Type*} {f g h : ℕ → α} {n k i j : ℕ}

@[refl]
theorem refl : Shuffle n f f :=
  ⟨1, fun _ _ => rfl, rfl⟩

theorem trans (hf : Shuffle n f g) (hg : Shuffle n g h) : Shuffle n f h := by
  have ⟨σ, hσ, hfg⟩ := hf
  have ⟨τ, hτ, hgh⟩ := hg
  refine ⟨σ * τ, fun i hi => ?_, ?_⟩
  · rw [Equiv.Perm.mul_apply, hτ i hi, hσ i hi]
  · rw [hgh, hfg]
    rfl

theorem mono (hf : Shuffle n f g) (hk : n ≤ k) : Shuffle k f g := by
  have ⟨σ, hσ, hfg⟩ := hf
  exact ⟨σ, fun i hi => hσ i (hk.trans hi), hfg⟩

theorem swap (hi : i < n) (hj : j < n) : Shuffle n f (f ∘ Equiv.swap i j) :=
  ⟨Equiv.swap i j, fun _ hk => Equiv.swap_apply_of_ne_of_ne (by omega) (by omega), rfl⟩

theorem above (hf : Shuffle n f g) (hi : n ≤ i) : g i = f i := by
  have ⟨σ, hσ, hfg⟩ := hf
  rw [hfg, Function.comp_apply, hσ i hi]

-- The entry at a place below comes from a place below.
theorem below (hf : Shuffle n f g) (hi : i < n) : ∃ j < n, g i = f j := by
  have ⟨σ, hσ, hfg⟩ := hf
  refine ⟨σ i, ?_, by rw [hfg, Function.comp_apply]⟩
  by_contra hn
  have hfix : σ (σ i) = σ i := hσ (σ i) (not_lt.mp hn)
  have := σ.injective hfix
  omega

theorem perm (hf : Shuffle n f g) : ((List.range n).map g).Perm ((List.range n).map f) := by
  have ⟨σ, hσ, hfg⟩ := hf
  have hlt : ∀ i, σ i < n ↔ i < n := by
    intro i
    refine ⟨fun hi => ?_, fun hi => ?_⟩
    · by_contra hn
      rw [hσ i (not_lt.mp hn)] at hi
      exact hn hi
    · by_contra hn
      have := σ.injective (hσ (σ i) (not_lt.mp hn))
      omega
  have hperm : ((List.range n).map σ).Perm (List.range n) := by
    apply (List.perm_ext_iff_of_nodup (List.nodup_range.map σ.injective) List.nodup_range).mpr
    intro i
    rw [List.mem_map, List.mem_range]
    refine ⟨fun ⟨j, hj, hji⟩ => ?_, fun hi => ⟨σ.symm i, ?_, σ.apply_symm_apply i⟩⟩
    · rw [← hji, hlt]
      exact List.mem_range.mp hj
    · rw [List.mem_range, ← hlt, σ.apply_symm_apply]
      exact hi
  rw [hfg, ← List.map_map]
  exact hperm.map f

end Shuffle

-- Binary heaps in arrays, with a greatest entry at the root. The children of the entry `i` are the entries `2 * i + 1`
-- and `2 * i + 2`.
namespace Heaped

def parent (i : ℕ) : ℕ :=
  (i - 1) / 2

variable {α : Type*}

def Heap (le : α → α → Prop) (f : ℕ → α) (n : ℕ) : Prop :=
  ∀ i, 0 < i → i < n → le (f i) (f <| parent i)

-- Only the entry `k` may be greater than its parent.
structure Rising (le : α → α → Prop) (f : ℕ → α) (n k : ℕ) : Prop where
  edges : ∀ i, 0 < i → i < n → i ≠ k → le (f i) (f <| parent i)
  grand : ∀ c, 0 < c → c < n → parent c = k → 0 < k → le (f c) (f <| parent k)

-- Only the entry `k` may be less than its children.
structure Sinking (le : α → α → Prop) (f : ℕ → α) (n k : ℕ) : Prop where
  edges : ∀ i, 0 < i → i < n → parent i ≠ k → le (f i) (f <| parent i)
  grand : ∀ c, 0 < c → c < n → parent c = k → 0 < k → le (f c) (f <| parent k)

variable {le : α → α → Prop} {f : ℕ → α} {n k c i : ℕ}

theorem parent_lt (h : 0 < i) : parent i < i := by
  simp only [parent]
  omega

theorem parent_eq_iff (h : 0 < c) : parent c = k ↔ c = 2 * k + 1 ∨ c = 2 * k + 2 := by
  simp only [parent]
  omega

theorem swap_other {a b : ℕ} (ha : i ≠ a) (hb : i ≠ b) : (f ∘ Equiv.swap a b) i = f i := by
  rw [Function.comp_apply, Equiv.swap_apply_of_ne_of_ne ha hb]

theorem swap_left {a b : ℕ} : (f ∘ Equiv.swap a b) a = f b := by
  rw [Function.comp_apply, Equiv.swap_apply_left]

theorem swap_right {a b : ℕ} : (f ∘ Equiv.swap a b) b = f a := by
  rw [Function.comp_apply, Equiv.swap_apply_right]

-- Every path to the root ascends.
theorem Heap.root (h : Heap le f n) (refl : ∀ x, le x x) (trans : ∀ x y z, le x y → le y z → le x z) (hi : i < n) :
    le (f i) (f 0) := by
  induction i using Nat.strong_induction_on
  case h i hn =>
    by_cases hz : i = 0
    case pos => rw [hz]; exact refl _
    case neg =>
      have hp := parent_lt (Nat.pos_of_ne_zero hz)
      exact trans _ _ _ (h i (Nat.pos_of_ne_zero hz) hi) (hn _ hp (hp.trans hi))

namespace Rising

theorem start (h : Heap le f k) : Rising le f (k + 1) k where
  edges i hz hi hk := h i hz (by omega)
  grand c hz hc hk := by
    have := parent_lt hz
    omega

theorem stop (h : Rising le f n k) (hk : 0 < k → le (f k) (f <| parent k)) : Heap le f n := by
  intro i hz hi
  by_cases he : i = k
  case pos => exact he ▸ hk (he ▸ hz)
  case neg => exact h.edges i hz hi he

theorem step (h : Rising le f n k) (trans : ∀ x y z, le x y → le y z → le x z) (hz : 0 < k) (hk : k < n)
    (hle : le (f <| parent k) (f k)) : Rising le (f ∘ Equiv.swap (parent k) k) n (parent k) := by
  have hpk := parent_lt hz
  constructor
  case edges =>
    intro i hi hin hne
    by_cases hik : i = k
    case pos =>
      rw [hik, swap_right, swap_left]
      exact hle
    case neg =>
      rw [swap_other hne hik]
      by_cases hpar : parent i = k
      case pos =>
        rw [hpar, swap_right]
        exact h.grand i hi hin hpar hz
      case neg =>
        by_cases hsib : parent i = parent k
        case pos =>
          have := h.edges i hi hin hik
          rw [hsib] at this
          rw [hsib, swap_left]
          exact trans _ _ _ this hle
        case neg =>
          rw [swap_other hsib hpar]
          exact h.edges i hi hin hik
  case grand =>
    intro c hc hcn hpar hpos
    have hgp := parent_lt hpos
    have hedge := h.edges (parent k) hpos (hpk.trans hk) hpk.ne
    rw [swap_other (a := parent k) hgp.ne (hgp.trans hpk).ne]
    by_cases hck : c = k
    case pos =>
      rw [hck, swap_right]
      exact hedge
    case neg =>
      have := h.edges c hc hcn hck
      have hcp := parent_lt hc
      rw [swap_other (by omega) hck]
      exact trans _ _ _ (hpar ▸ this) hedge

end Rising

namespace Sinking

-- The last entry takes the place of the root.
theorem start (h : Heap le f (n + 1)) : Sinking le (f ∘ Equiv.swap n 0) n 0 where
  edges i hz hi hp := by
    have := parent_lt hz
    rw [swap_other hi.ne hz.ne', swap_other (by omega) hp]
    exact h i hz (by omega)
  grand c _ _ _ hz := absurd hz (lt_irrefl 0)

theorem stop (h : Sinking le f n k) (hk : ∀ c, 0 < c → c < n → parent c = k → le (f c) (f k)) : Heap le f n := by
  intro i hz hi
  by_cases he : parent i = k
  case pos => exact he ▸ hk i hz hi he
  case neg => exact h.edges i hz hi he

-- The greatest child rises.
theorem step (h : Sinking le f n k) (hz : 0 < c) (hc : c < n) (hpar : parent c = k) (hle : le (f k) (f c))
    (hmax : ∀ d, 0 < d → d < n → parent d = k → le (f d) (f c)) : Sinking le (f ∘ Equiv.swap k c) n c := by
  have hkc : k < c := hpar ▸ parent_lt hz
  constructor
  case edges =>
    intro i hi hin hne
    by_cases hic : i = c
    case pos =>
      rw [hic, hpar, swap_right, swap_left]
      exact hle
    case neg =>
      by_cases hik : parent i = k
      case pos =>
        have := parent_lt hi
        rw [hik, swap_left, swap_other (by omega) hic]
        exact hmax i hi hin hik
      case neg =>
        rw [swap_other hik hne]
        by_cases he : i = k
        case pos =>
          rw [he, swap_left]
          exact h.grand c hz hc hpar (he ▸ hi)
        case neg =>
          rw [swap_other he hic]
          exact h.edges i hi hin hik
  case grand =>
    intro d hd hdn hpd _
    have hcd : c < d := hpd ▸ parent_lt hd
    have := h.edges d hd hdn (by omega)
    rw [hpar, swap_left, swap_other (hkc.trans hcd).ne' hcd.ne']
    exact hpd ▸ this

end Sinking

-- The entries from `n` to `l` are in order, and none of those before them is greater.
structure Tail (le : α → α → Prop) (f : ℕ → α) (n l : ℕ) : Prop where
  sorted : ∀ i j, n ≤ i → i ≤ j → j < l → le (f i) (f j)
  bound  : ∀ i j, i < n → n ≤ j → j < l → le (f i) (f j)

namespace Tail

variable {g : ℕ → α} {l : ℕ}

-- The root goes to the end of the heap, and the other entries are ordered in some way.
theorem step (ht : Tail le f (n + 1) l) (hh : Heap le f (n + 1)) (refl : ∀ x, le x x)
    (trans : ∀ x y z, le x y → le y z → le x z) (hs : Shuffle n (f ∘ Equiv.swap n 0) g) : Tail le g n l := by
  have hend : g n = f 0 := by rw [hs.above le_rfl, swap_left]
  have habove : ∀ j, n < j → g j = f j := fun j hj => by
    rw [hs.above hj.le, swap_other hj.ne' (Nat.zero_lt_of_lt hj).ne']
  have hbelow : ∀ i < n, ∃ k < n + 1, g i = f k := by
    intro i hi
    have ⟨k, hk, hg⟩ := hs.below hi
    by_cases hz : k = 0
    case pos =>
      refine ⟨n, n.lt_succ_self, ?_⟩
      rw [hg, hz, swap_right]
    case neg =>
      refine ⟨k, hk.trans n.lt_succ_self, ?_⟩
      rw [hg, swap_other hk.ne hz]
  constructor
  case sorted =>
    intro i j hi hij hj
    obtain rfl | hi := hi.eq_or_lt
    case inl =>
      rw [hend]
      obtain rfl | hij := hij.eq_or_lt
      case inl => rw [hend]; exact refl _
      case inr => rw [habove j hij]; exact ht.bound 0 j n.succ_pos hij hj
    case inr =>
      rw [habove i hi, habove j (hi.trans_le hij)]
      exact ht.sorted i j hi hij hj
  case bound =>
    intro i j hi hj hl
    have ⟨k, hk, hg⟩ := hbelow i hi
    rw [hg]
    obtain rfl | hj := hj.eq_or_lt
    case inl => rw [hend]; exact hh.root refl trans hk
    case inr => rw [habove j hj]; exact ht.bound k j hk hj hl

end Tail
end Heaped
