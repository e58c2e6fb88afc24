import Camellia.Kernel.Malloc

namespace Camellia

@[simp]
theorem wp_passert {c : Prop} [Decidable c] {site : Site} {Q : Unit → Phys → Prop}
    {E : Fault → Prop} {s : Phys} :
    wp (passert c site) Q E s ↔ (c → Q () s) ∧ (¬c → E (.assert site)) := by
  by_cases h : c <;> simp [passert, h]

theorem wp_bitmapSet {i : ℕ} {v : Bool} {Q : Bool → Phys → Prop} {E : Fault → Prop} {s : Phys}
    (h : i / 8 < s.pbitmapLen) :
    wp (bitmapSet i v) Q E s ↔ Q (s.bitmap.get i) { s with bitmap := s.bitmap.set i v } := by
  simp [bitmapSet, h]

namespace Phys

-- The page with the index `i`.
def page (s : Phys) (i : ℕ) : ℕ :=
  s.pbitmap + i * PAGE_SIZE

-- The page is one of the allocator's, and it is free or in use.
def Free (s : Phys) (a : ℕ) : Prop :=
  ∃ i, a = s.page i ∧ i / 8 < s.pbitmapLen ∧ s.bitmap.get i = false

def Used (s : Phys) (a : ℕ) : Prop :=
  ∃ i, a = s.page i ∧ i / 8 < s.pbitmapLen ∧ s.bitmap.get i = true

end Phys

-- The number of free pages among the `n` pages from the index `i` on.
def freePages (b : Bitmap) : (i n : ℕ) → ℕ
  | _, 0     => 0
  | i, n + 1 => (if b.get i then 0 else 1) + freePages b (i + 1) n

-- The number of pages which `page_alloc` can find one after another.
def Phys.available (s : Phys) : ℕ :=
  freePages s.bitmap s.pbitmapFirstfree (s.pbitmapLen * 8 - s.pbitmapFirstfree)

section Alloc

variable {s : Phys} {b : Bitmap} {i j n a : ℕ} {E : Fault → Prop}

theorem page_inj (h : s.page i = s.page j) : i = j := by
  simp only [Phys.page, PAGE_SIZE] at h
  omega

-- Different pages do not overlap.
theorem page_disjoint {x : ℕ} (hne : s.page i ≠ s.page j)
    (hi : s.page i ≤ x ∧ x < s.page i + PAGE_SIZE) (hj : s.page j ≤ x ∧ x < s.page j + PAGE_SIZE) :
    False := by
  simp only [Phys.page, PAGE_SIZE] at *
  omega

theorem freePages_set (h : j < i ∨ i + n ≤ j) : freePages (b.set j true) i n = freePages b i n := by
  induction n generalizing i
  case zero => rfl
  case succ n hi =>
    have hne : i ≠ j := by omega
    have hrec : freePages (b.set j true) (i + 1) n = freePages b (i + 1) n := hi (by omega)
    simp [freePages, hrec, Bitmap.get_set, hne]

-- `page_alloc(1)` takes the first free page, and it does not lose sight of another one.
theorem pageAllocLoop_one (hi : i + n ≤ s.pbitmapLen * 8) (hf : 0 < freePages s.bitmap i n) :
    wp (pageAllocLoop 1 n i 0) (fun a t => ∃ j, a = s.page j ∧ i ≤ j ∧ j < i + n ∧
      s.bitmap.get j = false ∧
      t = { s with bitmap := s.bitmap.set j true, pbitmapFirstfree := j } ∧
      freePages (s.bitmap.set j true) j (i + n - j) + 1 = freePages s.bitmap i n) E s := by
  induction n generalizing i
  case zero => simp [freePages] at hf
  case succ n hind =>
    have hrange : i / 8 < s.pbitmapLen := by omega
    simp only [pageAllocLoop, wp_bind, bitmapGet, wp_get, wp_passert, wp_pure, hrange, true_implies,
      not_true_eq_false, false_implies, and_true, wp_ite]
    refine ⟨fun hb => ?_, fun hb => ?_⟩
    · have hfree : freePages s.bitmap i (n + 1) = freePages s.bitmap (i + 1) n := by
        simp [freePages, hb]
      rw [hfree] at hf ⊢
      refine wp_post (hind (by omega) hf) ?_
      rintro a t ⟨j, ha, hij, hjn, hbj, ht, hcount⟩
      refine ⟨j, ha, by omega, by omega, hbj, ht, ?_⟩
      rw [show i + (n + 1) - j = i + 1 + n - j by omega]
      exact hcount
    · refine ⟨fun _ => ?_, fun h => (h (by omega)).elim⟩
      have hb' : s.bitmap.get i = false := by simpa using hb
      have hfree : freePages (s.bitmap.set i true) (i + 1) n = freePages s.bitmap (i + 1) n :=
        freePages_set (by omega)
      simp only [Nat.zero_add, Nat.add_sub_cancel, List.range_one, List.forM_eq_forM, List.forM_cons,
        List.forM_nil, Nat.add_zero, wp_bind, wp_discard, wp_bitmapSet hrange, wp_pure, wp_modify,
        wp_get]
      refine ⟨i, rfl, le_rfl, by omega, hb', rfl, ?_⟩
      rw [Nat.add_sub_cancel_left, freePages, freePages, Bitmap.get_set, hfree, if_pos rfl, hb']
      simp
      omega

-- If there is no free page, then the search ends with the panic.
theorem pageAllocLoop_none (hi : n = 0 ∨ i + n ≤ s.pbitmapLen * 8) (hf : freePages s.bitmap i n = 0) :
    wp (pageAllocLoop 1 n i 0) (fun _ _ => False) (· = .panic .pageAlloc) s := by
  induction n generalizing i
  case zero => simp [pageAllocLoop]
  case succ n hind =>
    have hle : i + (n + 1) ≤ s.pbitmapLen * 8 := hi.resolve_left (Nat.succ_ne_zero n)
    have hrange : i / 8 < s.pbitmapLen := by omega
    have hb : s.bitmap.get i = true := by
      by_contra hb
      simp [freePages, hb] at hf
    simp only [pageAllocLoop, wp_bind, bitmapGet, wp_get, wp_passert, wp_pure, hrange, hb, true_implies,
      not_true_eq_false, false_implies, and_true, if_true]
    refine hind (.inr (by omega)) ?_
    simpa [freePages, hb] using hf

-- What an allocation of one page does.
structure Allocated (s : Phys) (a : ℕ) (t : Phys) : Prop where
  intro ::
  index : ∃ j, a = s.page j ∧ j / 8 < s.pbitmapLen ∧ s.bitmap.get j = false ∧
    t = { s with bitmap := s.bitmap.set j true, pbitmapFirstfree := j }
  count : t.available + 1 = s.available

theorem pageAlloc_one (h : 0 < s.available) : wp (pageAlloc 1) (Allocated s) E s := by
  simp only [pageAlloc, wp_bind, wp_get]
  have hle : s.pbitmapFirstfree ≤ s.pbitmapLen * 8 := by
    by_contra hn
    simp [Phys.available, Nat.sub_eq_zero_of_le (not_le.mp hn).le, freePages] at h
  refine wp_post (pageAllocLoop_one (by omega) h) ?_
  rintro a t ⟨j, ha, hij, hjn, hb, rfl, hcount⟩
  refine ⟨⟨j, ha, by omega, hb, rfl⟩, ?_⟩
  simp only [Phys.available]
  rwa [Nat.add_sub_of_le hle] at hcount

theorem pageAlloc_one_or : wp (pageAlloc 1) (Allocated s) (· = .panic .pageAlloc) s := by
  by_cases h : 0 < s.available
  case pos => exact pageAlloc_one h
  case neg =>
    simp only [pageAlloc, wp_bind, wp_get]
    refine wp_post (pageAllocLoop_none (by omega) (by simpa [Phys.available] using h)) ?_
    exact fun _ _ hf => hf.elim

theorem pageZalloc_one (h : 0 < s.available) :
    wp (pageZalloc 1) (fun a t => ∃ u, Allocated s a u ∧
      t = { u with mem := u.mem.fill a 0 PAGE_SIZE }) E s := by
  simp only [pageZalloc, wp_bind]
  refine wp_post (pageAlloc_one h) fun a t ht => ?_
  simp only [wp_bind, wp_modify, wp_pure, Nat.one_mul]
  exact ⟨t, ht, rfl⟩

theorem pageFree_one (hr : i / 8 < s.pbitmapLen) (hb : s.bitmap.get i = true) :
    wp (pageFree (s.page i) 1) (fun _ t => t = { s with
      bitmap           := s.bitmap.set i false
      pbitmapFirstfree := min s.pbitmapFirstfree i }) E s := by
  have hle : s.pbitmap ≤ s.page i := Nat.le_add_right _ _
  have hidx : (s.page i - s.pbitmap) / PAGE_SIZE = i := by
    simp [Phys.page, PAGE_SIZE]
  simp [pageFree, hle, hidx, List.range_succ, pageFreeBit, wp_bitmapSet hr, hb]

end Alloc
end Camellia
