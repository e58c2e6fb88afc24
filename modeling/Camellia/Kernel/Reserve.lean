import Camellia.Kernel.PageRuns

namespace Camellia

namespace Phys

-- The allocator after `mem_init`: its pages are above the kernel, and in the lower half.
structure Managed (s : Phys) : Prop where
  aligned : s.pbitmap % PAGE_SIZE = 0
  pos     : 0 < s.pbitmap
  top     : s.pbitmap + s.managed * PAGE_SIZE < 2 ^ 63

-- The page with the index `i` overlaps the range.
def Overlaps (s : Phys) (addr len i : ℕ) : Prop :=
  0 < len ∧ s.page i < addr + len ∧ addr < s.page i + PAGE_SIZE

-- After `mem_reserve` the pages which overlap the range are in use, and the others are as before.
def ReservesExactly (s : Phys) (addr len : ℕ) : Prop :=
  ∃ t, memReserve addr len s = .ok ((), t) ∧
    ∀ k < s.managed, t.bitmap.get k = true ↔ s.bitmap.get k = true ∨ s.Overlaps addr len k

end Phys

section Reserve

variable {s : Phys} {addr len k : ℕ}

-- A range which does not begin below the managed pages.
theorem marks_iff_overlaps (hm : s.Managed) (hrange : addr + len ≤ 2 ^ 64) (hlen : 0 < len)
    (ha : s.pbitmap ≤ addr) (hk : k < s.managed) : s.Marks addr len k ↔ s.Overlaps addr len k := by
  have ⟨haligned, hpos, htop⟩ := hm
  have hpage : s.page k + PAGE_SIZE ≤ 2 ^ 63 := by
    simp only [Phys.page, PAGE_SIZE] at htop ⊢
    omega
  simp only [Phys.Marks, Phys.Overlaps, Phys.page, PAGE_SIZE] at *
  have hwrap : (len + addr % 4096) % 2 ^ 64 = len + addr % 4096 := Nat.mod_eq_of_lt (by omega)
  rw [hwrap]
  omega

theorem not_marks_of_lt (h : addr < s.pbitmap) : ¬s.Marks addr len k :=
  fun hm => absurd hm.1 (not_le.mpr h)

-- An empty range which is not aligned has its page marked nevertheless.
theorem marks_empty_iff (hm : s.Managed) (ha : s.pbitmap ≤ addr) (hk : k < s.managed) :
    s.Marks addr 0 k ↔ s.page k < addr ∧ addr < s.page k + PAGE_SIZE := by
  have ⟨haligned, _, htop⟩ := hm
  simp only [Phys.Marks, Phys.page, PAGE_SIZE] at *
  omega

-- `mem_reserve` is exact if the range does not begin below the managed pages while it overlaps one of
-- them that is free, and is not an empty range in the middle of a free page.
theorem reservesExactly_iff (hm : s.Managed) (haddr : addr < 2 ^ 64)
    (hrange : addr + len ≤ 2 ^ 64) : s.ReservesExactly addr len ↔
      (addr < s.pbitmap → ∀ k < s.managed, s.Overlaps addr len k → s.bitmap.get k = true) ∧
      (len = 0 → ∀ k < s.managed, s.page k < addr → addr < s.page k + PAGE_SIZE →
        s.bitmap.get k = true) := by
  obtain ⟨haligned, hpos, htop⟩ := id hm
  simp only [PAGE_SIZE] at htop
  obtain ⟨_, t, hrun, b, rfl, hb⟩ := wp_false_iff.mp
    (memReserve_marks (s := s) len haligned (by omega) (by omega) haddr)
  -- The bits are right if the pages which are free at first are marked as they should be.
  have hexact : s.ReservesExactly addr len ↔
      ∀ k < s.managed, s.bitmap.get k = false → (s.Marks addr len k ↔ s.Overlaps addr len k) := by
    constructor
    · rintro ⟨t, hrun', ht⟩ k hk hfree
      cases hrun.symm.trans hrun'
      have := (hb k hk).symm.trans (ht k hk)
      simpa [hfree] using this
    · refine fun h => ⟨_, hrun, fun k hk => ?_⟩
      rw [hb k hk]
      cases hbit : s.bitmap.get k
      case true  => simp
      case false => simp [h k hk hbit]
  rw [hexact]
  have hused (k : ℕ) : s.bitmap.get k = true ↔ ¬s.bitmap.get k = false := by simp
  simp only [hused]
  by_cases hbelow : addr < s.pbitmap
  case pos =>
    have hpage (k : ℕ) : ¬s.page k < addr := by
      simp only [Phys.page]
      omega
    constructor
    · refine fun h => ⟨fun _ k hk ho hfree => ?_, fun _ k _ hlt => absurd hlt (hpage k)⟩
      exact not_marks_of_lt hbelow ((h k hk hfree).mpr ho)
    · exact fun h k hk hfree => iff_of_false (not_marks_of_lt hbelow) fun ho => h.1 hbelow k hk ho hfree
  case neg =>
    have hle := not_lt.mp hbelow
    by_cases hlen : len = 0
    case pos =>
      subst hlen
      have hempty (k : ℕ) : ¬s.Overlaps addr 0 k := fun ho => absurd ho.1 (lt_irrefl 0)
      constructor
      · refine fun h => ⟨fun hlt => absurd hlt hbelow, fun _ k hk h₁ h₂ hfree => ?_⟩
        exact hempty k ((h k hk hfree).mp ((marks_empty_iff hm hle hk).mpr ⟨h₁, h₂⟩))
      · refine fun h k hk hfree => iff_of_false (fun hmarks => ?_) (hempty k)
        obtain ⟨h₁, h₂⟩ := (marks_empty_iff hm hle hk).mp hmarks
        exact h.2 rfl k hk h₁ h₂ hfree
    case neg =>
      refine iff_of_true (fun k hk _ => ?_) ⟨fun hlt => absurd hlt hbelow, fun he => absurd he hlen⟩
      exact marks_iff_overlaps hm hrange (Nat.pos_of_ne_zero hlen) hle hk

-- Eight free pages above the kernel.
def eightPages : Phys where
  mem        := fun _ => 0
  pbitmap    := 0x100000
  bitmap     := fun _ => 0
  pbitmapLen := 1

theorem eightPages_managed : eightPages.Managed :=
  ⟨by decide, by decide, by decide⟩

theorem reservesExactly_inside : eightPages.ReservesExactly 0x101800 0x1000 :=
  (reservesExactly_iff eightPages_managed (by decide) (by decide)).mpr
    ⟨fun h => absurd h (by decide), fun h => absurd h (by decide)⟩

-- A range of four pages, the last two of which are managed: none of them is marked.
theorem memReserve_straddles :
    memReserve 0xFE000 0x4000 eightPages = .ok ((), eightPages) ∧
    ¬∀ (s : Phys) (addr len : ℕ), s.Managed → addr < 2 ^ 64 → addr + len ≤ 2 ^ 64 →
      s.ReservesExactly addr len := by
  have hrun : memReserve 0xFE000 0x4000 eightPages = .ok ((), eightPages) := rfl
  refine ⟨hrun, fun h => ?_⟩
  obtain ⟨t, hrun', ht⟩ := h eightPages 0xFE000 0x4000 eightPages_managed (by decide) (by decide)
  cases hrun.symm.trans hrun'
  have := (ht 0 (by decide)).mpr (.inr ⟨by decide, by decide, by decide⟩)
  exact absurd this (by decide)

end Reserve
end Camellia
