import Camellia.Cmd.Net.Stack

namespace Camellia.Net

def arpcacheGet (cache : List (ℕ × Mac)) (ip : ℕ) : Option Mac :=
  (cache.find? (·.1 = ip)).map (·.2)

-- The cache after a sequence of calls of `arpcache_put`, the latest of which comes first.
def arpcacheOf (puts : List (ℕ × Mac)) : List (ℕ × Mac) :=
  puts.foldr (fun p cache => arpcachePut cache p.1 p.2) []

def latest (puts : List (ℕ × Mac)) (ip : ℕ) : Option Mac :=
  (puts.find? (·.1 = ip)).map (·.2)

-- Each lookup after one of the calls finds the latest mapping.
def FindsLatest (puts : List (ℕ × Mac)) : Prop :=
  ∀ ps, ps <:+ puts → ∀ ip, arpcacheGet (arpcacheOf ps) ip = latest ps ip

-- A host which is put again with the address that it has already is the last one which was put with it.
def Settled (puts : List (ℕ × Mac)) : Prop :=
  ∀ ip mac ps, (ip, mac) :: ps <:+ puts → ps.find? (·.2 = mac) = some (ip, mac) → ps.find? (·.1 = ip) = some (ip, mac)

variable {puts : List (ℕ × Mac)} {ip : ℕ} {mac : Mac} {p : ℕ × Mac}

theorem arpcachePut_of_known {cache : List (ℕ × Mac)} (h : cache.find? (·.2 = mac) = some (ip, mac)) :
    arpcachePut cache ip mac = cache := by
  simp [arpcachePut, h]

theorem arpcachePut_of_unknown {cache : List (ℕ × Mac)} (h : cache.find? (·.2 = mac) ≠ some (ip, mac)) :
    arpcachePut cache ip mac = (ip, mac) :: cache := by
  rw [arpcachePut]
  cases hf : cache.find? (·.2 = mac)
  case none   => rfl
  case some e =>
    have hm : e.2 = mac := by simpa using List.find?_some hf
    have hne : e.1 ≠ ip := fun hi => h (by rw [hf, ← hi, ← hm])
    exact if_neg hne

theorem arpcacheOf_cons : arpcacheOf (p :: puts) = arpcachePut (arpcacheOf puts) p.1 p.2 :=
  rfl

-- For each host the cache knows what it was last put with, as an entry which is left out is there already.
theorem find_arpcacheOf (mac : Mac) : (arpcacheOf puts).find? (·.2 = mac) = puts.find? (·.2 = mac) := by
  induction puts
  case nil => rfl
  case cons p puts hi =>
    rw [arpcacheOf_cons]
    by_cases hk : (arpcacheOf puts).find? (·.2 = p.2) = some (p.1, p.2)
    case pos =>
      rw [arpcachePut_of_known hk, hi, List.find?_cons]
      by_cases hm : p.2 = mac
      case pos =>
        rw [decide_eq_true hm]
        rw [hm] at hk
        rw [← hi, hk, ← hm]
      case neg => rw [decide_eq_false hm]
    case neg => rw [arpcachePut_of_unknown hk, List.find?_cons, List.find?_cons, hi]

-- One more call, if the lookups were right before.
theorem finds_cons_iff (h : ∀ ip, arpcacheGet (arpcacheOf puts) ip = latest puts ip) :
    (∀ x, arpcacheGet (arpcacheOf ((ip, mac) :: puts)) x = latest ((ip, mac) :: puts) x) ↔
      (puts.find? (·.2 = mac) = some (ip, mac) → puts.find? (·.1 = ip) = some (ip, mac)) := by
  rw [← find_arpcacheOf, arpcacheOf_cons]
  by_cases hk : (arpcacheOf puts).find? (·.2 = mac) = some (ip, mac)
  case neg =>
    rw [arpcachePut_of_unknown hk]
    refine iff_of_true (fun x => ?_) fun h => absurd h hk
    have hx := h x
    rw [arpcacheGet, latest] at hx ⊢
    by_cases hi : ip = x
    · simp [hi]
    · simpa [hi] using hx
  case pos =>
    rw [arpcachePut_of_known hk]
    have hl : latest puts ip = some mac ↔ puts.find? (·.1 = ip) = some (ip, mac) := by
      rw [latest, Option.map_eq_some_iff]
      constructor
      · intro ⟨e, he, hm⟩
        have hi : e.1 = ip := by simpa using List.find?_some he
        rw [he, ← hi, ← hm]
      · exact fun he => ⟨_, he, rfl⟩
    have hc (x : ℕ) : latest ((ip, mac) :: puts) x = if ip = x then some mac else latest puts x := by
      by_cases hi : ip = x <;> simp [latest, hi]
    simp only [h, hc, hk, forall_const, ← hl]
    refine ⟨fun h => by simpa using h ip, fun h x => ?_⟩
    split
    case isTrue hi  => exact hi ▸ h
    case isFalse hi => rfl

theorem findsLatest_iff : FindsLatest puts ↔ Settled puts := by
  induction puts
  case nil => exact iff_of_true (fun ps hp _ => by rw [List.suffix_nil.mp hp]; rfl) fun _ _ _ hp => by simp at hp
  case cons p puts hi =>
    have hs : Settled (p :: puts) ↔
        (puts.find? (·.2 = p.2) = some (p.1, p.2) → puts.find? (·.1 = p.1) = some (p.1, p.2)) ∧ Settled puts := by
      refine ⟨fun h => ⟨h _ _ _ List.suffix_rfl, fun ip mac ps hp => h ip mac ps (hp.trans (List.suffix_cons ..))⟩, fun h ip mac ps hp => ?_⟩
      cases List.suffix_cons_iff.mp hp
      case inl he =>
        obtain ⟨rfl, rfl⟩ := List.cons_eq_cons.mp he
        exact h.left
      case inr hp => exact h.right ip mac ps hp
    have hf : FindsLatest (p :: puts) ↔
        (∀ x, arpcacheGet (arpcacheOf (p :: puts)) x = latest (p :: puts) x) ∧ FindsLatest puts := by
      refine ⟨fun h => ⟨h _ List.suffix_rfl, fun ps hp => h ps (hp.trans (List.suffix_cons ..))⟩, fun h ps hp => ?_⟩
      cases List.suffix_cons_iff.mp hp
      case inl he => exact he ▸ h.left
      case inr hp => exact h.right ps hp
    rw [hs, hf, ← hi]
    exact and_congr_left fun h => finds_cons_iff (h puts List.suffix_rfl)

-- The address goes to another host and back, and the first host is not put a second time.
theorem not_findsLatest_returned : ¬∀ puts, FindsLatest puts := fun h =>
  absurd (h [(7, .replicate 6 1), (7, .replicate 6 2), (7, .replicate 6 1)] _ List.suffix_rfl 7) (by decide)

end Camellia.Net
