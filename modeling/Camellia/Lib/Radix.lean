import Mathlib.Algebra.Group.Nat.Defs
import Mathlib.Data.Option.Basic
import Mathlib.Tactic.Common

-- A tree whose nodes have up to `b` children. The nodes at one depth are numbered from the left to the
-- right, so the digits of a number to the base `b` are the way to its node.
namespace Radix

variable {α : Type*} {b : ℕ} {child child' : α → ℕ → Option α} {root a c : α} {k l i M N : ℕ}

def node (b : ℕ) (child : α → ℕ → Option α) (root : α) : (depth N : ℕ) → Option α
  | 0, _     => some root
  | k + 1, N => (node b child root k (N / b)).bind fun a => child a (N % b)

@[simp]
theorem node_zero : node b child root 0 N = some root :=
  rfl

theorem node_child (hi : i < b) :
    node b child root (k + 1) (N * b + i) = (node b child root k N).bind fun a => child a i := by
  have hb : 0 < b := by omega
  rw [node, Nat.mul_comm, Nat.mul_add_div hb, Nat.div_eq_of_lt hi, Nat.mul_add_mod,
    Nat.mod_eq_of_lt hi, Nat.add_zero]

-- Every node but the root is a child of another one.
theorem node_succ (h : node b child root (k + 1) N = some a) :
    ∃ p, node b child root k (N / b) = some p ∧ child p (N % b) = some a :=
  Option.bind_eq_some_iff.mp h

-- A walk down from a node, one digit after the other.
theorem node_walk (child : α → ℕ → Option α) (root : α) (k N : ℕ) {ix : List ℕ} (hix : ∀ i ∈ ix, i < b) :
    node b child root (k + ix.length) (ix.foldl (· * b + ·) N) =
      (node b child root k N).bind fun a => ix.foldlM child a := by
  induction ix generalizing k N
  case nil => simp
  case cons i ix hi =>
    have hdigits : ∀ j ∈ ix, j < b := fun j hj => hix j (List.mem_cons_of_mem i hj)
    have hwalk := hi (k + 1) (N * b + i) hdigits
    rw [node_child (hix i List.mem_cons_self), Option.bind_assoc] at hwalk
    rw [List.length_cons, List.foldl_cons, Nat.add_comm ix.length, ← Nat.add_assoc, hwalk]
    rfl

-- There is nothing below a node which does not exist.
theorem node_none (h : node b child root k (N / b ^ l) = none) : node b child root (k + l) N = none := by
  induction l generalizing N
  case zero => simpa using h
  case succ l hi =>
    rw [Nat.pow_succ', ← Nat.div_div_eq_div_mul] at h
    rw [← Nat.add_assoc, node, hi h, Option.bind_none]

-- The nodes depend on nothing but the children of the nodes above them.
theorem node_congr (hN : N < b ^ k)
    (h : ∀ j < k, ∀ M < b ^ j, ∀ a, node b child root j M = some a → ∀ i < b, child' a i = child a i) :
    node b child' root k N = node b child root k N := by
  induction k generalizing N
  case zero => rfl
  case succ k hi =>
    have hb : 0 < b := Nat.pos_of_ne_zero fun hb => by simp [hb] at hN
    have hdiv : N / b < b ^ k := Nat.div_lt_of_lt_mul (by rwa [← Nat.pow_succ'])
    rw [node, node, hi hdiv fun j hj => h j (by omega)]
    cases hn : node b child root k (N / b)
    case none   => rfl
    case some a => exact h k (Nat.lt_succ_self k) _ hdiv a hn _ (Nat.mod_lt _ hb)

-- A child was added to one of the nodes of a tree of the depth `l`, at a place where it had none.
structure Graft (b : ℕ) (child child' : α → ℕ → Option α) (root : α) (l k M i : ℕ) (p c : α) : Prop where
  at_node : node b child root k M = some p
  once    : ∀ j < l, ∀ N < b ^ j, node b child root j N = some p → j = k ∧ N = M
  vacant  : child p i = none
  added   : child' p i = some c
  leaf    : ∀ j < b, child' c j = none
  others  : ∀ j < l, ∀ N < b ^ j, ∀ a, node b child root j N = some a → ∀ y < b, (a ≠ p ∨ y ≠ i) →
    child' a y = child a y

-- The new node is the only difference.
theorem node_graft (h : Graft b child child' root l k M i a c) (hi : i < b) {j : ℕ} (hj : j ≤ l)
    (hN : N < b ^ j) : node b child' root j N =
      if j = k + 1 ∧ N = M * b + i then some c else node b child root j N := by
  have hb : 0 < b := by omega
  induction j generalizing N
  case zero => rw [if_neg (by omega), node_zero, node_zero]
  case succ j hind =>
    have hN : N / b < b ^ j := Nat.div_lt_of_lt_mul (by rwa [← Nat.pow_succ'])
    rw [node, hind (by omega) hN]
    split_ifs with h₁ h₂ h₂
    case pos => omega
    case neg =>
      -- There was no node above this one.
      have hnone : node b child root j (N / b) = none := by
        rw [h₁.1, h₁.2, node_child hi, h.at_node]
        exact h.vacant
      rw [Option.bind_some, h.leaf _ (Nat.mod_lt _ hb), node, hnone, Option.bind_none]
    case pos =>
      have hdiv : N / b = M := by
        rw [h₂.2, Nat.mul_comm, Nat.mul_add_div hb, Nat.div_eq_of_lt hi, Nat.add_zero]
      have hmod : N % b = i := by rw [h₂.2, Nat.mul_comm, Nat.mul_add_mod, Nat.mod_eq_of_lt hi]
      rw [hdiv, hmod, Nat.succ_inj.mp h₂.1, h.at_node, Option.bind_some, h.added]
    case neg =>
      rw [node]
      cases hp : node b child root j (N / b)
      case none => rfl
      case some p =>
        refine h.others j (by omega) _ hN p hp _ (Nat.mod_lt _ hb) ?_
        by_contra hn
        push Not at hn
        obtain ⟨rfl, hmod⟩ := hn
        obtain ⟨rfl, hdiv⟩ := h.once j (by omega) _ hN hp
        refine h₂ ⟨rfl, ?_⟩
        rw [← hdiv, ← hmod, Nat.div_add_mod']

end Radix
