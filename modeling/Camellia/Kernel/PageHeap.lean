import Camellia.Kernel.PageAlloc

namespace Camellia

namespace Phys

-- There are `n` free pages one after another from the index `j` on.
def FreeRun (s : Phys) (j n : ℕ) : Prop :=
  j + n ≤ s.pbitmapLen * 8 ∧ ∀ i, j ≤ i → i < j + n → s.bitmap.get i = false

instance (s : Phys) (j n : ℕ) : Decidable (s.FreeRun j n) :=
  decidable_of_iff (j + n ≤ s.pbitmapLen * 8 ∧ ∀ i < n, s.bitmap.get (j + i) = false) <|
    and_congr Iff.rfl ⟨fun h i h₁ h₂ => Nat.add_sub_of_le h₁ ▸ h (i - j) (by omega),
      fun h i hi => h (j + i) (by omega) (by omega)⟩

-- The state after the `n` pages from the index `j` on were handed out.
def taken (s : Phys) (j n : ℕ) : Phys :=
  { s with bitmap := s.bitmap.setRange j true n, pbitmapFirstfree := j + n - 1 }

-- The state after the `n` pages from the index `j` on were given back.
def released (s : Phys) (j n : ℕ) : Phys :=
  { s with bitmap := s.bitmap.setRange j false n, pbitmapFirstfree := min s.pbitmapFirstfree j }

end Phys

section Loops

variable {s : Phys} {i j m n fuel start : ℕ} {v : Bool} {E : Fault → Prop}
variable {Q : Unit → Phys → Prop}

-- The loops over the bits of a range.
theorem wp_bitmapSet_range (h : i + n ≤ s.pbitmapLen * 8)
    (hq : Q () { s with bitmap := s.bitmap.setRange i v n }) :
    wp ((List.range n).forM fun j => discard <| bitmapSet (i + j) v) Q E s := by
  have hstep : wp ((List.range n).forM fun j => discard <| bitmapSet (i + j) v)
      (fun _ t => t = { s with bitmap := s.bitmap.setRange i v n }) E s := by
    clear hq
    induction n
    case zero => simp [Bitmap.setRange]
    case succ n hi =>
      simp only [List.range_succ, List.forM_eq_forM, List.forM_append, wp_bind, List.forM_cons,
        List.forM_nil]
      rw [List.forM_eq_forM] at hi
      refine wp_post (hi (by omega)) ?_
      intro _ t ht
      have hr : (i + n) / 8 < t.pbitmapLen := by
        rw [ht]
        show (i + n) / 8 < s.pbitmapLen
        omega
      simp only [wp_bind, wp_discard, wp_bitmapSet hr, wp_pure]
      rw [ht]
      rfl
  exact wp_post hstep fun _ t ht => ht ▸ hq

theorem wp_pageFreeBit_range (h : i + n ≤ s.pbitmapLen * 8)
    (hu : ∀ k, i ≤ k → k < i + n → s.bitmap.get k = true)
    (hq : Q () { s with bitmap := s.bitmap.setRange i false n }) :
    wp ((List.range n).forM fun j => pageFreeBit (i + j)) Q E s := by
  have hstep : wp ((List.range n).forM fun j => pageFreeBit (i + j))
      (fun _ t => t = { s with bitmap := s.bitmap.setRange i false n }) E s := by
    clear hq
    induction n
    case zero => simp [Bitmap.setRange]
    case succ n hi =>
      simp only [List.range_succ, List.forM_eq_forM, List.forM_append, wp_bind, List.forM_cons,
        List.forM_nil]
      rw [List.forM_eq_forM] at hi
      refine wp_post (hi (by omega) fun k hk hlt => hu k hk (by omega)) ?_
      intro _ t ht
      have hr : (i + n) / 8 < t.pbitmapLen := by
        rw [ht]
        show (i + n) / 8 < s.pbitmapLen
        omega
      have hbit : t.bitmap.get (i + n) = true := by
        rw [ht, Bitmap.get_setRange, if_neg (by omega)]
        exact hu (i + n) (by omega) (by omega)
      simp only [pageFreeBit, wp_bind, wp_bitmapSet hr, hbit, not_true_eq_false, if_false, wp_pure]
      rw [ht]
      rfl
  exact wp_post hstep fun _ t ht => ht ▸ hq

-- What `page_alloc` returns, when it started to look at the index `start`: the first hole which is
-- big enough.
def PageAllocated (s : Phys) (start n a : ℕ) (t : Phys) : Prop :=
  ∃ j, a = s.page j ∧ start ≤ j ∧ s.FreeRun j n ∧ (∀ k, start ≤ k → k < j → ¬s.FreeRun k n) ∧
    t = s.taken j n

def PageAllocFailed (s : Phys) (start n : ℕ) (e : Fault) : Prop :=
  e = .panic .pageAlloc ∧ ∀ j, start ≤ j → ¬s.FreeRun j n

-- The loop has seen that the last `m` pages before the index `j + m` are free, and that
-- no hole before them is big enough.
theorem pageAllocLoop_first (hfuel : j + m + fuel = s.pbitmapLen * 8) (hs : m < n)
    (hstart : start ≤ j) (hfree : ∀ k, j ≤ k → k < j + m → s.bitmap.get k = false)
    (hprev : ∀ k, start ≤ k → k < j → ¬s.FreeRun k n) :
    wp (pageAllocLoop n fuel (j + m) m) (PageAllocated s start n)
      (PageAllocFailed s start n) s := by
  induction fuel generalizing j m
  case zero =>
    simp only [pageAllocLoop, wp_throw]
    refine ⟨rfl, fun k hk hrun => ?_⟩
    have hlt : k < j := by
      have := hrun.1
      omega
    exact hprev k hk hlt hrun
  case succ fuel hi =>
    have hr : (j + m) / 8 < s.pbitmapLen := by omega
    simp only [pageAllocLoop, wp_bind, bitmapGet, wp_get, wp_passert, wp_pure, hr, true_implies,
      not_true_eq_false, false_implies, and_true, wp_ite]
    refine ⟨fun hb => ?_, fun hb => ⟨fun hn => ?_, fun hn => ?_⟩⟩
    · -- A page in use ends all the holes it could be part of.
      have hnext : ∀ k, start ≤ k → k < j + m + 1 → ¬s.FreeRun k n := by
        intro k hk hlt hrun
        by_cases hkj : k < j
        case pos => exact hprev k hk hkj hrun
        case neg =>
          have := hrun.2 (j + m) (by omega) (by omega)
          rw [hb] at this
          exact Bool.noConfusion this
      exact hi (j := j + m + 1) (m := 0) (by omega) (by omega) (by omega)
        (fun k _ _ => by omega) hnext
    · have hn' : n = m + 1 := by omega
      subst hn'
      have hrun : s.FreeRun j (m + 1) := by
        refine ⟨by omega, fun k hk hlt => ?_⟩
        by_cases hk' : k < j + m
        case pos => exact hfree k hk hk'
        case neg =>
          have hk'' : k = j + m := by omega
          rw [hk'']
          simpa using hb
      have hindex : j + m + 1 - (m + 1) = j := by omega
      rw [hindex]
      apply wp_bitmapSet_range hrun.1
      simp only [wp_bind, wp_modify, wp_get, wp_pure]
      exact ⟨j, rfl, hstart, hrun, hprev, rfl⟩
    · have hb' : s.bitmap.get (j + m) = false := by simpa using hb
      refine hi (j := j) (m := m + 1) (by omega) (by omega) hstart (fun k hk hlt => ?_) hprev
      by_cases hk' : k < j + m
      case pos => exact hfree k hk hk'
      case neg =>
        have hk'' : k = j + m := by omega
        rw [hk'', hb']

-- A request for no pages gets one.
theorem pageAllocLoop_zero : pageAllocLoop 0 fuel i m = pageAllocLoop 1 fuel i m := by
  induction fuel generalizing i m
  case zero => rfl
  case succ fuel hi => simp [pageAllocLoop, hi]

theorem pageAlloc_zero : pageAlloc 0 = pageAlloc 1 := by
  simp only [pageAlloc, pageAllocLoop_zero]

theorem pageAlloc_first (hn : 1 ≤ n) (hf : s.pbitmapFirstfree ≤ s.pbitmapLen * 8) :
    wp (pageAlloc n) (PageAllocated s s.pbitmapFirstfree n)
      (PageAllocFailed s s.pbitmapFirstfree n) s := by
  simp only [pageAlloc, wp_bind, wp_get]
  exact pageAllocLoop_first (s := s) (j := s.pbitmapFirstfree) (m := 0) (by omega) (by omega) le_rfl (fun k _ _ => by omega)
    (fun k _ _ => by omega)

theorem pageAlloc_of_run (hn : 1 ≤ n) (hj : s.FreeRun j n) (hle : s.pbitmapFirstfree ≤ j)
    (hfirst : ∀ k < j, s.pbitmapFirstfree ≤ k → ¬s.FreeRun k n) :
    pageAlloc n s = .ok (s.page j, s.taken j n) := by
  have hf : s.pbitmapFirstfree ≤ s.pbitmapLen * 8 := by
    have := hj.1
    omega
  have hwp := pageAlloc_first hn hf
  cases h : pageAlloc n s
  case error e => exact ((wp_of_error h hwp).2 j hle hj).elim
  case ok r =>
    obtain ⟨k, ha, hk, hrun, hleast, ht⟩ := wp_of_ok h hwp
    obtain hlt | rfl | hgt := Nat.lt_trichotomy j k
    · exact (hleast j hle hlt hj).elim
    · rw [← ha, ← ht]
    · exact (hfirst k hgt hk hrun).elim

theorem pageFree_run (h : i + n ≤ s.pbitmapLen * 8)
    (hu : ∀ k, i ≤ k → k < i + n → s.bitmap.get k = true) :
    wp (pageFree (s.page i) n) (fun _ t => t = s.released i n) E s := by
  have hle : s.pbitmap ≤ s.page i := Nat.le_add_right _ _
  have hidx : (s.page i - s.pbitmap) / PAGE_SIZE = i := by
    simp [Phys.page, PAGE_SIZE]
  simp only [pageFree, wp_bind, wp_get, wp_passert, hle, hidx, true_implies, not_true_eq_false,
    false_implies, and_true]
  apply wp_pageFreeBit_range h hu
  rw [wp_modify]
  rfl

theorem pageFree_of_run (h : i + n ≤ s.pbitmapLen * 8)
    (hu : ∀ k < i + n, i ≤ k → s.bitmap.get k = true) :
    pageFree (s.page i) n s = .ok ((), s.released i n) := by
  have ⟨_, t, hok, ht⟩ := wp_false_iff.mp (pageFree_run h fun k h₁ h₂ => hu k h₂ h₁)
  rw [hok, ht]

end Loops
end Camellia
