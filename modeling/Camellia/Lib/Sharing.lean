import Mathlib.Data.Set.Card

-- Resources which are shared by users. A resource gets a counter of its users only when it is shared
-- for the first time, and every user then knows the counter.
@[ext]
structure Sharing (ι ρ κ : Type*) where
  uses  : ι → Option (ρ × Option κ)
  count : κ → Option ℕ
  live  : ρ → Prop

namespace Sharing

variable {ι ρ κ : Type*} {S : Sharing ι ρ κ} {i j : ι} {r q : ρ} {k l : κ} {o : Option κ} {n : ℕ}

def users (S : Sharing ι ρ κ) (r : ρ) : Set ι :=
  { i | ∃ o, S.uses i = some (r, o) }

-- A resource is alive as long as it has users, and its counter counts them.
structure Valid (S : Sharing ι ρ κ) : Prop where
  finite  : ∀ r, (S.users r).Finite
  live    : ∀ r, S.live r ↔ (S.users r).Nonempty
  alone   : ∀ i r, S.uses i = some (r, none) → S.users r = {i}
  counted : ∀ i r k, S.uses i = some (r, some k) → S.count k = some (S.users r).ncard
  same    : ∀ i j r k l, S.uses i = some (r, some k) → S.uses j = some (r, some l) → k = l
  own     : ∀ i j r q k, S.uses i = some (r, some k) → S.uses j = some (q, some k) → r = q

-- A counter which is 1 if there is none.
def value (S : Sharing ι ρ κ) : Option κ → Option ℕ
  | none   => some 1
  | some k => S.count k

theorem Valid.value_eq (h : S.Valid) (hi : S.uses i = some (r, o)) :
    S.value o = some (S.users r).ncard := by
  cases o
  case none   => simp [value, h.alone i r hi]
  case some k => exact h.counted i r k hi

theorem Valid.congr {T : Sharing ι ρ κ} (h : S.Valid) (hu : T.uses = S.uses)
    (hc : T.count = S.count) (hl : ∀ r, T.live r ↔ S.live r) : T.Valid :=
  (Sharing.ext hu hc (funext fun r => propext (hl r)) : T = S) ▸ h

variable [DecidableEq ι] [DecidableEq κ]

-- A new user.
def join (S : Sharing ι ρ κ) (j : ι) (z : ρ × Option κ) : Sharing ι ρ κ where
  uses  := Function.update S.uses j (some z)
  count := S.count
  live  := S.live

-- A new user with a resource of its own.
def create (S : Sharing ι ρ κ) (j : ι) (r : ρ) : Sharing ι ρ κ where
  uses  := Function.update S.uses j (some (r, none))
  count := S.count
  live  := fun q => q = r ∨ S.live q

-- The new user `j` shares the resource of `i`.
def share (S : Sharing ι ρ κ) (i j : ι) (r : ρ) (k : κ) (n : ℕ) : Sharing ι ρ κ where
  uses  := Function.update (Function.update S.uses i (some (r, some k))) j (some (r, some k))
  count := Function.update S.count k (some (n + 1))
  live  := S.live

-- The last user of a resource is gone.
def release (S : Sharing ι ρ κ) (i : ι) (r : ρ) (count : κ → Option ℕ) : Sharing ι ρ κ where
  uses  := Function.update S.uses i none
  count := count
  live  := fun q => q ≠ r ∧ S.live q

-- A user of a resource is gone, but there are others.
def leave (S : Sharing ι ρ κ) (i : ι) (k : κ) (n : ℕ) : Sharing ι ρ κ where
  uses  := Function.update S.uses i none
  count := Function.update S.count k (some n)
  live  := S.live

omit [DecidableEq κ] in
theorem users_create_self (hr : S.users r = ∅) : (S.create j r).users r = {j} := by
  ext i
  have hi : ¬∃ o, S.uses i = some (r, o) := fun h => by simpa [hr] using (show i ∈ S.users r from h)
  by_cases hij : i = j
  case pos => simp [users, create, hij]
  case neg => simpa [users, create, Function.update_of_ne hij, hij] using hi

omit [DecidableEq κ] in
theorem users_create_ne (hj : S.uses j = none) (hq : q ≠ r) : (S.create j r).users q = S.users q := by
  ext i
  by_cases hij : i = j
  case pos => simp [users, create, hij, hj, Ne.symm hq]
  case neg => simp [users, create, Function.update_of_ne hij]

omit [DecidableEq κ] in
theorem Valid.create (h : S.Valid) (hj : S.uses j = none) (hr : ¬S.live r) : (S.create j r).Valid := by
  have hempty : S.users r = ∅ := Set.not_nonempty_iff_eq_empty.mp (mt (h.live r).mpr hr)
  have hself := users_create_self (j := j) hempty
  have hother {i : ι} {q : ρ} {o : Option κ} (hi : (S.create j r).uses i = some (q, o)) :
      i = j ∧ q = r ∧ o = none ∨ q ≠ r ∧ S.uses i = some (q, o) := by
    by_cases hij : i = j
    case pos =>
      simp only [Sharing.create, hij, Function.update_self, Option.some_inj, Prod.mk.injEq] at hi
      exact .inl ⟨hij, hi.1.symm, hi.2.symm⟩
    case neg =>
      simp only [Sharing.create, Function.update_of_ne hij] at hi
      refine .inr ⟨fun hq => ?_, hi⟩
      have : i ∈ S.users r := ⟨o, hq ▸ hi⟩
      simp [hempty] at this
  refine ⟨fun q => ?_, fun q => ?_, fun i q hi => ?_, fun i q k hi => ?_, ?_, ?_⟩
  · by_cases hq : q = r
    case pos => simp [hq, hself]
    case neg => simpa [users_create_ne hj hq] using h.finite q
  · by_cases hq : q = r
    case pos => exact iff_of_true (.inl hq) (by simp [hq, hself])
    case neg =>
      rw [users_create_ne hj hq, ← h.live q]
      exact or_iff_right hq
  · obtain ⟨rfl, rfl, _⟩ | ⟨hq, hi⟩ := hother hi
    · exact hself
    · rw [users_create_ne hj hq]
      exact h.alone i q hi
  · obtain ⟨_, _, hk⟩ | ⟨hq, hi⟩ := hother hi
    · contradiction
    · rw [users_create_ne hj hq]
      exact h.counted i q k hi
  · intro i i' q k l hi hi'
    obtain ⟨_, _, hk⟩ | ⟨_, hi⟩ := hother hi
    · contradiction
    · obtain ⟨_, _, hk⟩ | ⟨_, hi'⟩ := hother hi'
      · contradiction
      · exact h.same i i' q k l hi hi'
  · intro i i' q q' k hi hi'
    obtain ⟨_, _, hk⟩ | ⟨_, hi⟩ := hother hi
    · contradiction
    · obtain ⟨_, _, hk⟩ | ⟨_, hi'⟩ := hother hi'
      · contradiction
      · exact h.own i i' q q' k hi hi'

section Share

variable (hi : S.uses i = some (r, o))
include hi

theorem users_share_self : (S.share i j r k n).users r = insert j (S.users r) := by
  ext x
  have hxi : i ∈ S.users r := ⟨o, hi⟩
  by_cases hxj : x = j
  case pos => simp [users, share, hxj]
  case neg =>
    by_cases hx : x = i
    case pos => simpa [users, share, hxj, hx, Function.update_apply] using .inr hxi
    case neg => simp [users, share, hxj, hx, Function.update_apply]

theorem users_share_ne (hj : S.uses j = none) (hq : q ≠ r) : (S.share i j r k n).users q = S.users q := by
  ext x
  by_cases hxj : x = j
  case pos => simp [users, share, hxj, hj, hq.symm]
  case neg =>
    by_cases hx : x = i
    case pos =>
      have hij : i ≠ j := hx ▸ hxj
      simp [users, share, hx, hi, hq.symm, hij]
    case neg => simp [users, share, hxj, hx, Function.update_apply]

-- Everybody who shares the resource knows its counter, and nobody else does.
theorem Valid.uses_share (h : S.Valid) (hk : o = some k ∨ o = none ∧ S.count k = none)
    {x : ι} {q : ρ} {o' : Option κ} (hx : (S.share i j r k n).uses x = some (q, o')) :
    q = r ∧ o' = some k ∨ q ≠ r ∧ S.uses x = some (q, o') ∧ o' ≠ some k := by
  simp only [share, Function.update_apply] at hx
  by_cases hxj : x = j ∨ x = i
  case pos =>
    have : some (r, some k) = some (q, o') := by
      obtain h | h := hxj <;> simp_all
    simp only [Option.some_inj, Prod.mk.injEq] at this
    exact .inl ⟨this.1.symm, this.2.symm⟩
  case neg =>
    simp only [not_or] at hxj
    rw [if_neg hxj.1, if_neg hxj.2] at hx
    by_cases hq : q = r
    case pos =>
      subst hq
      -- There are two users, so there is a counter already.
      obtain rfl | ⟨rfl, _⟩ := hk
      · cases o'
        case none =>
          have : i ∈ S.users q := ⟨_, hi⟩
          rw [h.alone x q hx] at this
          exact absurd this (Ne.symm hxj.2)
        case some l => exact .inl ⟨rfl, by rw [h.same x i q l k hx hi]⟩
      · have : x ∈ S.users q := ⟨_, hx⟩
        rw [h.alone i q hi] at this
        exact absurd this hxj.2
    case neg =>
      refine .inr ⟨hq, hx, ?_⟩
      rintro rfl
      obtain rfl | ⟨_, hfresh⟩ := hk
      · exact hq (h.own x i q r k hx hi)
      · rw [h.counted x q k hx] at hfresh
        contradiction

theorem Valid.share (h : S.Valid) (hj : S.uses j = none) (hk : o = some k ∨ o = none ∧ S.count k = none)
    (hn : S.value o = some n) : (S.share i j r k n).Valid := by
  have hself := users_share_self (j := j) (k := k) (n := n) hi
  have hne {q : ρ} (hq : q ≠ r) := users_share_ne (k := k) (n := n) hi hj hq
  have hcard : (insert j (S.users r)).ncard = n + 1 := by
    have hmem : j ∉ S.users r := fun ⟨_, hju⟩ => by simp [hj] at hju
    rw [Set.ncard_insert_of_notMem hmem (h.finite r)]
    simpa [h.value_eq hi] using hn
  have hcount {l : κ} (hl : l ≠ k) : (S.share i j r k n).count l = S.count l :=
    Function.update_of_ne hl _ _
  refine ⟨fun q => ?_, fun q => ?_, fun x q hx => ?_, fun x q l hx => ?_, ?_, ?_⟩
  · by_cases hq : q = r
    case pos => simpa [hq, hself] using h.finite r
    case neg => simpa [hne hq] using h.finite q
  · by_cases hq : q = r
    case pos => exact iff_of_true ((h.live q).mpr ⟨i, o, hq ▸ hi⟩) (by simp [hq, hself])
    case neg =>
      rw [hne hq]
      exact h.live q
  · obtain ⟨_, ho⟩ | ⟨hq, hx, _⟩ := h.uses_share hi hk hx
    · contradiction
    · rw [hne hq]
      exact h.alone x q hx
  · obtain ⟨rfl, ho⟩ | ⟨hq, hx, hl⟩ := h.uses_share hi hk hx
    · obtain rfl := Option.some_inj.mp ho
      rw [hself, hcard]
      exact Function.update_self _ _ _
    · rw [hne hq, hcount (by simpa using hl)]
      exact h.counted x q l hx
  · intro x y q l l' hx hy
    obtain ⟨hq, ho⟩ | ⟨hq, hx, _⟩ := h.uses_share hi hk hx
    · obtain ⟨_, ho'⟩ | ⟨hq', _⟩ := h.uses_share hi hk hy
      · simpa using ho.trans ho'.symm
      · contradiction
    · obtain ⟨hq', _⟩ | ⟨_, hy, _⟩ := h.uses_share hi hk hy
      · contradiction
      · exact h.same x y q l l' hx hy
  · intro x y q q' l hx hy
    obtain ⟨hq, ho⟩ | ⟨hq, hx, hl⟩ := h.uses_share hi hk hx
    · obtain ⟨hq', _⟩ | ⟨_, _, hl'⟩ := h.uses_share hi hk hy
      · exact hq.trans hq'.symm
      · exact absurd ho hl'
    · obtain ⟨_, ho'⟩ | ⟨_, hy, _⟩ := h.uses_share hi hk hy
      · exact absurd ho' hl
      · exact h.own x y q q' l hx hy

end Share

section Drop

variable (hi : S.uses i = some (r, o))
include hi

omit hi [DecidableEq κ] in
-- Nobody but `i` is affected if `i` does not use anything anymore.
theorem users_update_none {count : κ → Option ℕ} {live : ρ → Prop} :
    (Sharing.mk (Function.update S.uses i none) count live).users q = S.users q \ {i} := by
  ext x
  by_cases hx : x = i
  case pos => simp [users, hx]
  case neg => simp [users, hx]

omit [DecidableEq κ] in
theorem users_update_none_ne {count : κ → Option ℕ} {live : ρ → Prop} (hq : q ≠ r) :
    (Sharing.mk (Function.update S.uses i none) count live).users q = S.users q := by
  rw [users_update_none, Set.sdiff_singleton_eq_self]
  rintro ⟨o', hi'⟩
  rw [hi, Option.some_inj, Prod.mk.injEq] at hi'
  exact hq hi'.1.symm

omit hi [DecidableEq κ] in
theorem uses_of_update_none {x : ι} {z : ρ × Option κ}
    (hx : Function.update S.uses i none x = some z) : x ≠ i ∧ S.uses x = some z := by
  by_cases hxi : x = i
  case pos => simp [hxi] at hx
  case neg => exact ⟨hxi, by simpa [hxi] using hx⟩

omit [DecidableEq κ] in
theorem Valid.release (h : S.Valid) (hn : S.value o = some 1) {count : κ → Option ℕ}
    (hc : ∀ l, o ≠ some l → count l = S.count l) : (S.release i r count).Valid := by
  have halone : S.users r = {i} := by
    have hcard : (S.users r).ncard = 1 := by simpa [h.value_eq hi] using hn
    obtain ⟨x, hx⟩ := Set.ncard_eq_one.mp hcard
    have : i ∈ S.users r := ⟨o, hi⟩
    rw [hx] at this
    rw [hx, this]
  have hself : (S.release i r count).users r = ∅ := by
    simp [Sharing.release, users_update_none, halone]
  have hne {q : ρ} (hq : q ≠ r) : (S.release i r count).users q = S.users q :=
    users_update_none_ne hi hq
  have huses {x : ι} {q : ρ} {o' : Option κ} (hx : (S.release i r count).uses x = some (q, o')) :
      S.uses x = some (q, o') ∧ q ≠ r := by
    have ⟨hxi, hx⟩ := uses_of_update_none hx
    refine ⟨hx, fun hq => hxi ?_⟩
    have : x ∈ S.users r := ⟨o', hq ▸ hx⟩
    simpa [halone] using this
  refine ⟨fun q => ?_, fun q => ?_, fun x q hx => ?_, fun x q l hx => ?_, ?_, ?_⟩
  · by_cases hq : q = r
    case pos => simp [hq, hself]
    case neg => simpa [hne hq] using h.finite q
  · by_cases hq : q = r
    case pos => exact iff_of_false (fun hl => hl.1 hq) (by simp [hq, hself])
    case neg =>
      rw [hne hq, ← h.live q]
      exact and_iff_right hq
  · have ⟨hx, hq⟩ := huses hx
    rw [hne hq]
    exact h.alone x q hx
  · have ⟨hx, hq⟩ := huses hx
    rw [hne hq]
    refine (hc l ?_).trans (h.counted x q l hx)
    rintro rfl
    exact hq (h.own x i q r l hx hi)
  · intro x y q l l' hx hy
    exact h.same x y q l l' (huses hx).1 (huses hy).1
  · intro x y q q' l hx hy
    exact h.own x y q q' l (huses hx).1 (huses hy).1

theorem Valid.leave (h : S.Valid) (ho : o = some k) (hn : S.count k = some (n + 1)) (h0 : n ≠ 0) :
    (S.leave i k n).Valid := by
  subst ho
  have hcard : (S.users r).ncard = n + 1 := by simpa [h.counted i r k hi] using hn
  have hmem : i ∈ S.users r := ⟨_, hi⟩
  have hself : (S.leave i k n).users r = S.users r \ {i} :=
    users_update_none
  have hne {q : ρ} (hq : q ≠ r) : (S.leave i k n).users q = S.users q :=
    users_update_none_ne hi hq
  have hleft : (S.users r \ {i}).ncard = n := by
    rw [Set.ncard_sdiff_singleton_of_mem hmem, hcard]
    rfl
  refine ⟨fun q => ?_, fun q => ?_, fun x q hx => ?_, fun x q l hx => ?_, ?_, ?_⟩
  · by_cases hq : q = r
    case pos => simpa [hq, hself] using (h.finite r).sdiff
    case neg => simpa [hne hq] using h.finite q
  · by_cases hq : q = r
    case pos =>
      subst hq
      refine iff_of_true ((h.live q).mpr ⟨i, hmem⟩) ?_
      rw [hself]
      exact Set.nonempty_of_ncard_ne_zero (hleft ▸ h0)
    case neg =>
      rw [hne hq]
      exact h.live q
  · have ⟨_, hx⟩ := uses_of_update_none hx
    by_cases hq : q = r
    case pos =>
      have := h.alone x q hx
      rw [hq] at this
      rw [this, Set.ncard_singleton] at hcard
      omega
    case neg =>
      rw [hne hq]
      exact h.alone x q hx
  · have ⟨_, hx'⟩ := uses_of_update_none hx
    by_cases hq : q = r
    case pos =>
      obtain rfl := h.same x i r l k (hq ▸ hx') hi
      rw [hq, hself, hleft]
      exact Function.update_self _ _ _
    case neg =>
      rw [hne hq]
      refine (Function.update_of_ne ?_ _ _).trans (h.counted x q l hx')
      rintro rfl
      exact hq (h.own x i q r l hx' hi)
  · intro x y q l l' hx hy
    exact h.same x y q l l' (uses_of_update_none hx).2 (uses_of_update_none hy).2
  · intro x y q q' l hx hy
    exact h.own x y q q' l (uses_of_update_none hx).2 (uses_of_update_none hy).2

end Drop

end Sharing
