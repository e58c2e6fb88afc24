import Camellia.Kernel.PageHeap

namespace Camellia

-- What the kernel gets from the linker and from the boot loader.
structure Bootable (s : Phys) (memtop : ℕ) : Prop where
  aligned   : s.pbitmap % PAGE_SIZE = 0
  below     : s.pbitmap ≤ memtop
  memtop    : memtop < 2 ^ 63
  firstfree : s.pbitmapFirstfree = 0

-- The calls at boot: `mem_init`, and then `mem_reserve` for each of the given ranges.
def bootMem (memtop : ℕ) (ranges : List (ℕ × ℕ)) : P Unit := do
  memInit memtop
  ranges.forM fun r => memReserve r.1 r.2

-- A range of pages which was handed out by `page_alloc`.
structure Block where
  addr : ℕ
  pages : ℕ

namespace Phys

-- The number of pages the allocator manages.
def managed (s : Phys) : ℕ :=
  s.pbitmapLen * 8

def Covers (s : Phys) (b : Block) (i : ℕ) : Prop :=
  b.addr ≤ s.page i ∧ s.page i < b.addr + b.pages * PAGE_SIZE

-- The page with the index `i` is one of those which `mem_reserve` marks. A range which begins below
-- the managed pages has an index that is out of range, so nothing of it is marked.
def Marks (s : Phys) (addr len i : ℕ) : Prop :=
  s.pbitmap ≤ addr ∧ addr < 2 ^ 63 ∧ addr - addr % PAGE_SIZE ≤ s.page i ∧
    s.page i < addr - addr % PAGE_SIZE + (len + addr % PAGE_SIZE) % 2 ^ 64

-- The pages which are reserved after boot, the ones of the bitmap among them.
def Reserved (s : Phys) (ranges : List (ℕ × ℕ)) (i : ℕ) : Prop :=
  s.Marks s.pbitmap s.pbitmapLen i ∨ ∃ r ∈ ranges, s.Marks r.1 r.2 i

end Phys

section Boot

variable {s t : Phys} {first n i k addr len memtop : ℕ} {ranges : List (ℕ × ℕ)} {E : Fault → Prop}

theorem memReserveLoop_marks (hlen : s.managed < 2 ^ 64) (hi : first + i < 2 ^ 64) :
    wp (memReserveLoop first n i) (fun _ t => ∃ b, t = { s with bitmap := b } ∧
      ∀ k < s.managed, b.get k = (s.bitmap.get k || decide (first + i ≤ k ∧ k < first + i + n))) E s := by
  induction n generalizing s i
  case zero =>
    simp only [memReserveLoop, wp_pure]
    refine ⟨s.bitmap, rfl, fun k hk => ?_⟩
    rw [decide_eq_false (by omega), Bool.or_false]
  case succ n hind =>
    have hmod : (first + i) % 2 ^ 64 = first + i := Nat.mod_eq_of_lt hi
    simp only [memReserveLoop, hmod, wp_bind, wp_get, wp_ite, wp_discard, wp_pure]
    simp only [Phys.managed] at hlen hind ⊢
    refine ⟨fun hout => ⟨s.bitmap, rfl, fun k hk => ?_⟩, fun hin => ?_⟩
    · rw [decide_eq_false (by omega), Bool.or_false]
    · rw [wp_bitmapSet (by omega)]
      refine wp_post (hind (i := i + 1) hlen (by omega)) ?_
      rintro _ t ⟨b, rfl, hb⟩
      refine ⟨b, rfl, fun k hk => ?_⟩
      rw [hb k hk, Bitmap.get_set]
      by_cases hk : k = first + i
      case pos =>
        rw [if_pos hk, decide_eq_true (by omega : first + i ≤ k ∧ k < first + i + (n + 1))]
        simp
      case neg =>
        rw [if_neg hk]
        congr 1
        exact decide_eq_decide.mpr (by omega)

-- The index of a page which is aligned like the bitmap.
theorem toindex_eq {q : Int} (h : toLong addr - toLong s.pbitmap = 4096 * q) : toindex s addr = q := by
  rw [toindex, h]
  exact Int.mul_tdiv_cancel_left q (by decide)

theorem toindex_of_le (ha : s.pbitmap % PAGE_SIZE = 0) (hle : s.pbitmap ≤ addr)
    (hlt : addr < 2 ^ 63) :
    toSize (toindex s (addr - addr % PAGE_SIZE)) = addr / PAGE_SIZE - s.pbitmap / PAGE_SIZE := by
  simp only [PAGE_SIZE] at *
  rw [toindex_eq (q := (addr / 4096 - s.pbitmap / 4096 : ℕ))]
  · simp only [toSize]
    omega
  · simp only [toLong]
    split_ifs <;> omega

-- An address outside of the upper half has an index far beyond the bitmap.
theorem toindex_out (ha : s.pbitmap % PAGE_SIZE = 0) (hp : s.pbitmap < 2 ^ 63)
    (hlt : addr < 2 ^ 64) (hout : ¬(s.pbitmap ≤ addr ∧ addr < 2 ^ 63)) :
    2 ^ 63 ≤ toSize (toindex s (addr - addr % PAGE_SIZE)) := by
  simp only [PAGE_SIZE] at *
  by_cases h : addr < 2 ^ 63
  case pos =>
    rw [toindex_eq (q := (addr / 4096 : Int) - s.pbitmap / 4096)]
    · simp only [toSize]
      omega
    · simp only [toLong]
      split_ifs <;> omega
  case neg =>
    rw [toindex_eq (q := (addr / 4096 : Int) - 2 ^ 52 - s.pbitmap / 4096)]
    · simp only [toSize]
      omega
    · simp only [toLong]
      split_ifs <;> omega

theorem memReserve_marks (len : ℕ) (ha : s.pbitmap % PAGE_SIZE = 0) (hp : s.pbitmap < 2 ^ 63)
    (hlen : s.managed < 2 ^ 63) (hlt : addr < 2 ^ 64) :
    wp (memReserve addr len) (fun _ t => ∃ b, t = { s with bitmap := b } ∧
      ∀ k < s.managed, b.get k = true ↔ s.bitmap.get k = true ∨ s.Marks addr len k) E s := by
  simp only [memReserve, wp_bind, wp_get]
  refine wp_post (memReserveLoop_marks (i := 0) (by omega) ?_) ?_
  · simp only [toSize]
    omega
  · rintro _ t ⟨b, rfl, hb⟩
    refine ⟨b, rfl, fun k hk => ?_⟩
    rw [hb k hk, Bool.or_eq_true, decide_eq_true_eq]
    refine or_congr Iff.rfl ?_
    by_cases hin : s.pbitmap ≤ addr ∧ addr < 2 ^ 63
    case pos =>
      rw [toindex_of_le ha hin.1 hin.2]
      simp only [Phys.Marks, hin, true_and, Phys.page]
      simp only [PAGE_SIZE] at *
      omega
    case neg =>
      have hfar := toindex_out ha hp hlt hin
      refine iff_of_false (by omega) fun hm => hin ⟨hm.1, hm.2.1⟩

-- The allocator is set up, and the pages in use are the reserved ones.
structure Booted (pbitmap : ℕ) (ranges : List (ℕ × ℕ)) (s : Phys) : Prop where
  pbitmap   : s.pbitmap = pbitmap
  firstfree : s.pbitmapFirstfree = 0
  managed   : s.managed < 2 ^ 63
  reserved  : ∀ k < s.managed, s.bitmap.get k = true ↔ s.Reserved ranges k

theorem memReserve_booted (ha : s.pbitmap % PAGE_SIZE = 0) (hp : s.pbitmap < 2 ^ 63)
    (hlt : addr < 2 ^ 64) (hb : Booted s.pbitmap ranges s) :
    wp (memReserve addr len) (fun _ => Booted s.pbitmap (ranges ++ [(addr, len)])) E s := by
  refine wp_post (memReserve_marks len ha hp hb.managed hlt) ?_
  rintro _ t ⟨b, rfl, hmarks⟩
  refine ⟨rfl, hb.firstfree, hb.managed, fun k hk => ?_⟩
  rw [hmarks k hk, hb.reserved k hk]
  simp only [Phys.Reserved, List.mem_append, List.mem_singleton]
  constructor
  · rintro ((h | ⟨r, hr, h⟩) | h)
    · exact .inl h
    · exact .inr ⟨r, .inl hr, h⟩
    · exact .inr ⟨_, .inr rfl, h⟩
  · rintro (h | ⟨r, hr | rfl, h⟩)
    · exact .inl (.inl h)
    · exact .inl (.inr ⟨r, hr, h⟩)
    · exact .inr h

theorem memInit_booted (hb : Bootable s memtop) :
    wp (memInit memtop) (fun _ => Booted s.pbitmap []) E s := by
  have hlong : toLong memtop - toLong s.pbitmap = ((memtop - s.pbitmap : ℕ) : Int) := by
    have := hb.below
    have := hb.memtop
    simp only [toLong]
    split_ifs <;> omega
  have hindex : toindex s memtop = ((memtop - s.pbitmap) / 4096 : ℕ) := by
    rw [toindex, hlong, PAGE_SIZE, Int.tdiv_eq_ediv_of_nonneg (by omega)]
    omega
  have hlen : toSize ((toindex s memtop).tdiv 8) = (memtop - s.pbitmap) / 4096 / 8 := by
    rw [hindex, toSize, Int.tdiv_eq_ediv_of_nonneg (by omega)]
    have := hb.memtop
    omega
  simp only [memInit, wp_bind, wp_get, wp_modify, hlen]
  set len := (memtop - s.pbitmap) / 4096 / 8 with hset
  set s' : Phys := { s with
    pbitmapLen := len
    bitmap     := fun i => if i < len then 0 else s.bitmap i } with hs'
  have hmanaged : s'.managed < 2 ^ 63 := by
    have := hb.memtop
    simp only [hs', Phys.managed]
    omega
  have hp : s.pbitmap < 2 ^ 63 := lt_of_le_of_lt hb.below hb.memtop
  have hclear (k : ℕ) (hk : k < s'.managed) : s'.bitmap.get k = false := by
    have : k / 8 < len := by
      simp only [hs', Phys.managed] at hk
      omega
    simp [hs', Bitmap.get, this]
  refine wp_post (memReserve_marks (s := s') _ hb.aligned hp hmanaged (show s.pbitmap < 2 ^ 64 by omega)) ?_
  rintro _ t ⟨b, rfl, hmarks⟩
  refine ⟨rfl, hb.firstfree, hmanaged, fun k hk => ?_⟩
  rw [hmarks k hk, hclear k hk]
  simp [Phys.Reserved, hs']
  rfl

theorem bootMem_booted (hb : Bootable s memtop) (hr : ∀ r ∈ ranges, r.1 < 2 ^ 64) :
    wp (bootMem memtop ranges) (fun _ => Booted s.pbitmap ranges) E s := by
  have hp : s.pbitmap < 2 ^ 63 := lt_of_le_of_lt hb.below hb.memtop
  rw [bootMem, wp_bind]
  refine wp_post (memInit_booted hb) fun _ s' hs' => ?_
  refine wp_post (wp_forM (I := fun l t => ∃ done, ranges = done ++ l ∧ Booted s.pbitmap done t) ?_
    ⟨[], rfl, hs'⟩) ?_
  · rintro r l t ⟨done, hranges, ht⟩
    have hpt := ht.pbitmap
    refine wp_post (memReserve_booted (hpt ▸ hb.aligned) (hpt ▸ hp) (hr r (by simp [hranges]))
      (hpt ▸ ht)) fun _ u hu => ?_
    exact ⟨done ++ [r], by simp [hranges], hpt ▸ hu⟩
  · rintro _ t ⟨done, hranges, ht⟩
    rw [List.append_nil] at hranges
    exact hranges ▸ ht

end Boot

-- The use of the allocator after boot, with the blocks which are live at the end. Every `page_alloc`
-- meets the condition `C`.
inductive PageRun (C : ℕ → Phys → Prop) (s₀ : Phys) : Phys → List Block → Prop
  | boot : PageRun C s₀ s₀ []
  | alloc {n a : ℕ} {s t : Phys} {live : List Block} : PageRun C s₀ s live → 1 ≤ n → C n s →
    pageAlloc n s = .ok (a, t) → PageRun C s₀ t (⟨a, n⟩ :: live)
  | free {b : Block} {s t : Phys} {l₁ l₂ : List Block} : PageRun C s₀ s (l₁ ++ b :: l₂) →
    pageFree b.addr b.pages s = .ok ((), t) → PageRun C s₀ t (l₁ ++ l₂)

-- The bitmap is the ledger of the live blocks.
structure PageLedger (s₀ s : Phys) (live : List Block) : Prop where
  pbitmap    : s.pbitmap = s₀.pbitmap
  len        : s.pbitmapLen = s₀.pbitmapLen
  firstfree  : s.pbitmapFirstfree ≤ s.managed
  blocks     : ∀ b ∈ live, ∃ j, b.addr = s.page j ∧ 1 ≤ b.pages ∧ j + b.pages ≤ s.managed
  disjoint   : live.Pairwise fun b c => ∀ i, s.Covers b i → ¬s.Covers c i
  unreserved : ∀ b ∈ live, ∀ i, s.Covers b i → s₀.bitmap.get i = false
  used       : ∀ i < s.managed, s.bitmap.get i = true ↔
    s₀.bitmap.get i = true ∨ ∃ b ∈ live, s.Covers b i

section Ledger

variable {C : ℕ → Phys → Prop} {s₀ s t : Phys} {live l₁ l₂ : List Block} {b : Block} {i j n a : ℕ}

theorem covers_iff (h : b.addr = s.page j) : s.Covers b i ↔ j ≤ i ∧ i < j + b.pages := by
  simp only [Phys.Covers, h, Phys.page, PAGE_SIZE]
  omega

namespace PageLedger

theorem boot (h : s₀.pbitmapFirstfree = 0) : PageLedger s₀ s₀ [] where
  pbitmap    := rfl
  len        := rfl
  firstfree  := h ▸ Nat.zero_le _
  blocks     := by simp
  disjoint   := .nil
  unreserved := by simp
  used       := by simp

theorem alloc (h : PageLedger s₀ s live) (hn : 1 ≤ n) (hrun : s.FreeRun j n) :
    PageLedger s₀ (s.taken j n) (⟨s.page j, n⟩ :: live) := by
  have hnew (i : ℕ) : s.Covers ⟨s.page j, n⟩ i ↔ j ≤ i ∧ i < j + n := covers_iff rfl
  have hbound : j + n ≤ s.managed := hrun.1
  -- The pages of the hole are free, so no other block has one of them.
  have hfree (i : ℕ) (hi : s.Covers ⟨s.page j, n⟩ i) : s.bitmap.get i ≠ true := by
    rw [hnew] at hi
    simp [hrun.2 i hi.1 hi.2]
  have hlive (b : Block) (hb : b ∈ live) (i : ℕ) (hi : s.Covers ⟨s.page j, n⟩ i) : ¬s.Covers b i :=
    fun hc => hfree i hi ((h.used i (by have := (hnew i).mp hi; omega)).mpr (.inr ⟨b, hb, hc⟩))
  refine ⟨h.pbitmap, h.len, ?_, fun b hb => ?_, ?_, fun b hb i hi => ?_, fun i hi => ?_⟩
  · show j + n - 1 ≤ s.managed
    omega
  · obtain rfl | hb := List.mem_cons.mp hb
    · exact ⟨j, rfl, hn, hbound⟩
    · exact h.blocks b hb
  · exact List.pairwise_cons.mpr ⟨hlive, h.disjoint⟩
  · obtain rfl | hb := List.mem_cons.mp hb
    · rw [← Bool.not_eq_true]
      exact fun hres => hfree i hi ((h.used i (by have := (hnew i).mp hi; omega)).mpr (.inl hres))
    · exact h.unreserved b hb i hi
  · have hold := h.used i hi
    show (s.bitmap.setRange j true n).get i = true ↔
      s₀.bitmap.get i = true ∨ ∃ b ∈ _ :: live, s.Covers b i
    rw [Bitmap.get_setRange]
    simp only [List.mem_cons, exists_eq_or_imp, hnew]
    by_cases hc : j ≤ i ∧ i < j + n
    case pos => simp [hc]
    case neg => simp only [hc, if_false, false_or, hold]

theorem free_ok (h : PageLedger s₀ s live) (hb : b ∈ live) :
    ∃ j, b.addr = s.page j ∧ j + b.pages ≤ s.managed ∧
      pageFree b.addr b.pages s = .ok ((), s.released j b.pages) := by
  obtain ⟨j, ha, _, hle⟩ := h.blocks b hb
  have hu (i : ℕ) (h₁ : i < j + b.pages) (h₂ : j ≤ i) : s.bitmap.get i = true :=
    (h.used i (by omega)).mpr (.inr ⟨b, hb, (covers_iff ha).mpr ⟨h₂, h₁⟩⟩)
  exact ⟨j, ha, hle, ha ▸ pageFree_of_run hle hu⟩

theorem free (h : PageLedger s₀ s (l₁ ++ b :: l₂)) (ha : b.addr = s.page j) :
    PageLedger s₀ (s.released j b.pages) (l₁ ++ l₂) := by
  have hsub (c : Block) (hc : c ∈ l₁ ++ l₂) : c ∈ l₁ ++ b :: l₂ := by
    simp only [List.mem_append, List.mem_cons] at hc ⊢
    tauto
  have hperm : (b :: (l₁ ++ l₂)).Pairwise fun b c => ∀ i, s.Covers b i → ¬s.Covers c i :=
    h.disjoint.perm List.perm_middle fun {x y} hxy i hy hx => hxy i hx hy
  have ⟨hother, hrest⟩ := List.pairwise_cons.mp hperm
  refine ⟨h.pbitmap, h.len, ?_, fun c hc => h.blocks c (hsub c hc), hrest,
    fun c hc => h.unreserved c (hsub c hc), fun i hi => ?_⟩
  · exact le_trans (min_le_left _ _) h.firstfree
  · have hold := h.used i hi
    show (s.bitmap.setRange j false b.pages).get i = true ↔
      s₀.bitmap.get i = true ∨ ∃ c ∈ l₁ ++ l₂, s.Covers c i
    rw [Bitmap.get_setRange]
    by_cases hc : j ≤ i ∧ i < j + b.pages
    case pos =>
      have hcov : s.Covers b i := (covers_iff ha).mpr hc
      rw [if_pos hc]
      refine iff_of_false (by simp) ?_
      rintro (hres | ⟨c, hmem, hcov'⟩)
      · rw [h.unreserved b (by simp) i hcov] at hres
        exact Bool.noConfusion hres
      · exact hother c hmem i hcov hcov'
    case neg =>
      have hcov : ¬s.Covers b i := fun h => hc ((covers_iff ha).mp h)
      rw [if_neg hc, hold]
      refine or_congr Iff.rfl ⟨?_, fun ⟨c, hmem, hcov'⟩ => ⟨c, hsub c hmem, hcov'⟩⟩
      rintro ⟨c, hmem, hcov'⟩
      simp only [List.mem_append, List.mem_cons] at hmem
      obtain hm | rfl | hm := hmem
      · exact ⟨c, by simp [hm], hcov'⟩
      · exact (hcov hcov').elim
      · exact ⟨c, by simp [hm], hcov'⟩

end PageLedger

theorem PageRun.ledger (hf : s₀.pbitmapFirstfree = 0) (hrun : PageRun C s₀ s live) :
    PageLedger s₀ s live := by
  induction hrun
  case boot => exact .boot hf
  case alloc n a s t live _ hn _ halloc hi =>
    have ⟨j, ha, _, hfree, _, ht⟩ := wp_of_ok halloc (pageAlloc_first hn hi.firstfree)
    rw [ha, ht]
    exact hi.alloc hn hfree
  case free b s t l₁ l₂ _ hfree hi =>
    have ⟨j, ha, _, hok⟩ := hi.free_ok (b := b) (by simp)
    rw [hfree] at hok
    cases hok
    exact hi.free ha

-- What holds of the allocator in every state it can reach.
structure PagesExact (ranges : List (ℕ × ℕ)) (s : Phys) (live : List Block) : Prop where
  allocated  : ∀ n a t, 1 ≤ n → pageAlloc n s = .ok (a, t) →
    ∃ j, a = s.page j ∧ j + n ≤ s.managed ∧ ∀ i, j ≤ i → i < j + n → s.bitmap.get i = false
  -- An allocation returns if there is a hole for it where the search looks, and only then.
  returned   : ∀ n j, 1 ≤ n → s.pbitmapFirstfree ≤ j → s.FreeRun j n →
    ∃ a t, pageAlloc n s = .ok (a, t)
  refused    : ∀ n e, 1 ≤ n → pageAlloc n s = .error e →
    e = .panic .pageAlloc ∧ ∀ j, s.pbitmapFirstfree ≤ j → ¬s.FreeRun j n
  disjoint   : live.Pairwise fun b c => ∀ i, s.Covers b i → ¬s.Covers c i
  unreserved : ∀ b ∈ live, ∀ i, s.Covers b i → ¬s.Reserved ranges i
  used       : ∀ i < s.managed, s.bitmap.get i = true ↔
    s.Reserved ranges i ∨ ∃ b ∈ live, s.Covers b i
  freed      : ∀ b ∈ live, ∃ t, pageFree b.addr b.pages s = .ok ((), t)

-- What is reserved depends on the layout alone.
theorem reserved_congr {ranges : List (ℕ × ℕ)} (hp : s.pbitmap = s₀.pbitmap)
    (hl : s.pbitmapLen = s₀.pbitmapLen) : s.Reserved ranges i ↔ s₀.Reserved ranges i := by
  simp only [Phys.Reserved, Phys.Marks, Phys.page, hp, hl]

theorem PageLedger.exact {ranges : List (ℕ × ℕ)} {pbitmap : ℕ} (hb : Booted pbitmap ranges s₀)
    (h : PageLedger s₀ s live) : PagesExact ranges s live := by
  have hmanaged : s.managed = s₀.managed := by rw [Phys.managed, h.len, Phys.managed]
  have hres (i : ℕ) (hi : i < s.managed) : s₀.bitmap.get i = true ↔ s.Reserved ranges i := by
    rw [hb.reserved i (hmanaged ▸ hi), reserved_congr h.pbitmap h.len]
  refine ⟨fun n a t hn halloc => ?_, fun n j hn hj hfree => ?_, fun n e hn halloc => ?_, h.disjoint,
    fun b hb i hi => ?_, fun i hi => ?_, fun b hb => ?_⟩
  · have ⟨j, ha, _, hfree, _⟩ := wp_of_ok halloc (pageAlloc_first hn h.firstfree)
    exact ⟨j, ha, hfree⟩
  · cases halloc : pageAlloc n s
    case ok r    => exact ⟨_, _, rfl⟩
    case error e => exact ((wp_of_error halloc (pageAlloc_first hn h.firstfree)).2 j hj hfree).elim
  · have hfail : PageAllocFailed s s.pbitmapFirstfree n e :=
      wp_of_error halloc (pageAlloc_first hn h.firstfree)
    exact hfail
  · obtain ⟨j, ha, _, hle⟩ := h.blocks b hb
    have := (covers_iff ha).mp hi
    rw [← hres i (by omega), h.unreserved b hb i hi]
    exact Bool.noConfusion
  · rw [h.used i hi, hres i hi]
  · have ⟨_, _, _, hok⟩ := h.free_ok hb
    exact ⟨_, hok⟩

theorem pageRun_exact {memtop : ℕ} {ranges : List (ℕ × ℕ)} (hb : Bootable s memtop)
    (hr : ∀ r ∈ ranges, r.1 < 2 ^ 64) :
    ∃ s₀, bootMem memtop ranges s = .ok ((), s₀) ∧
      ∀ t live, PageRun (fun _ _ => True) s₀ t live → PagesExact ranges t live := by
  obtain ⟨_, s₀, hok, hs₀⟩ := wp_false_iff.mp (bootMem_booted hb hr)
  exact ⟨s₀, hok, fun t live hrun => (hrun.ledger hs₀.firstfree).exact hs₀⟩

-- A heap at 1 MiB, before `mem_init`.
def freshHeap : Phys where
  mem        := fun _ => 0
  pbitmap    := 0x100000
  bitmap     := fun _ => 0
  pbitmapLen := 0

-- Eight pages, the first of which holds the bitmap.
def smallHeap : Phys :=
  { freshHeap with pbitmapLen := 1, bitmap := Bitmap.set (fun _ => 0) 0 true }

theorem memInit_smallHeap : wp (memInit 0x108000) (fun _ u => u = smallHeap) E freshHeap := by
  have hlen : toSize ((toindex freshHeap 0x108000).tdiv 8) = 1 := by decide
  have hfirst (s : Phys) (h : s.pbitmap = 0x100000) : toSize (toindex s 0x100000) = 0 := by
    rw [toindex, h]
    decide
  simp [memInit, memReserve, hlen]
  simp [freshHeap, smallHeap, PAGE_SIZE, hfirst, memReserveLoop, bitmapSet]

theorem bootMem_small (h : ranges.forM (fun r => memReserve r.1 r.2) smallHeap = .ok ((), t)) :
    bootMem 0x108000 ranges freshHeap = .ok ((), t) := by
  have hwp : wp (bootMem 0x108000 ranges) (fun _ u => u = t) (fun _ => False) freshHeap := by
    rw [bootMem, wp_bind]
    refine wp_post memInit_smallHeap fun _ u hu => ?_
    rw [hu]
    exact (wp_iff_of_ok h).mpr rfl
  have ⟨_, _, hok, ht⟩ := wp_false_iff.mp hwp
  rw [hok, ht]

theorem bootMem_smallHeap : bootMem 0x108000 [] freshHeap = .ok ((), smallHeap) :=
  bootMem_small rfl

-- The page with the index 2 is reserved too.
def reservedHeap : Phys :=
  { smallHeap with bitmap := smallHeap.bitmap.set 2 true }

theorem bootMem_reservedHeap : bootMem 0x108000 [(0x102100, 16)] freshHeap = .ok ((), reservedHeap) :=
  bootMem_small rfl

-- Two allocations step over the reserved page, and the first of them is given back.
theorem pageRun_exact_reservedHeap :
    ∃ s₀ t, bootMem 0x108000 [(0x102100, 16)] freshHeap = .ok ((), s₀) ∧
      PageRun (fun _ _ => True) s₀ t [⟨0x103000, 2⟩] ∧
      PagesExact [(0x102100, 16)] t [⟨0x103000, 2⟩] := by
  have h₁ : PageRun (fun _ _ => True) reservedHeap _ [⟨0x101000, 1⟩] := .alloc .boot (by decide) trivial
    (pageAlloc_of_run (n := 1) (j := 1) (by decide) (by decide) (by decide) (by decide))
  have h₂ : PageRun (fun _ _ => True) reservedHeap _ [⟨0x103000, 2⟩, ⟨0x101000, 1⟩] := h₁.alloc (by decide) trivial
    (pageAlloc_of_run (n := 2) (j := 3) (by decide) (by decide) (by decide) (by decide))
  have h₃ : PageRun (fun _ _ => True) reservedHeap _ ([⟨0x103000, 2⟩] ++ []) :=
    .free (show PageRun _ _ _ ([⟨0x103000, 2⟩] ++ [⟨0x101000, 1⟩]) from h₂)
      (pageFree_of_run (n := 1) (i := 1) (by decide) (by decide))
  have ⟨s₀, hok, hexact⟩ := @pageRun_exact freshHeap 0x108000 [(0x102100, 16)]
    ⟨by decide, by decide, by decide, rfl⟩ (by simp)
  obtain ⟨-, rfl⟩ := Prod.mk.inj (Except.ok.inj (bootMem_reservedHeap.symm.trans hok))
  exact ⟨_, _, bootMem_reservedHeap, h₃, hexact _ _ h₃⟩

-- No allocation returns without enough memory.
theorem pageAlloc_full :
    ∃ s₀, bootMem 0x108000 [] freshHeap = .ok ((), s₀) ∧ PageRun (fun _ _ => True) s₀ s₀ [] ∧
      pageAlloc 8 s₀ = .error (.panic .pageAlloc) :=
  ⟨_, bootMem_smallHeap, .boot, rfl⟩

end Ledger

section Firstfree

variable {s₀ s t : Phys} {live : List Block} {i j n : ℕ}

-- The first free page is the start of a hole of `n` pages, so that `page_alloc` does not have to skip
-- a smaller hole.
def Snug (n : ℕ) (s : Phys) : Prop :=
  ∀ j, s.FreeRun j 1 → (∀ i < j, ¬s.FreeRun i 1) → s.FreeRun j n

-- `pbitmap_firstfree` is a bound of the free pages.
def FirstfreeBound (s : Phys) : Prop :=
  ∀ i < s.pbitmapFirstfree, s.bitmap.get i = true

theorem freeRun_one : s.FreeRun i 1 ↔ i < s.managed ∧ s.bitmap.get i = false := by
  simp only [Phys.FreeRun, Phys.managed]
  refine and_congr (by omega) ⟨fun h => h i le_rfl (by omega), fun h k h₁ h₂ => ?_⟩
  rw [show k = i by omega, h]

theorem Phys.FreeRun.mono {m : ℕ} (h : s.FreeRun j n) (hm : m ≤ n) : s.FreeRun j m :=
  ⟨by have := h.1; omega, fun i h₁ h₂ => h.2 i h₁ (by omega)⟩

theorem FirstfreeBound.le (h : FirstfreeBound s) (hi : s.FreeRun i 1) : s.pbitmapFirstfree ≤ i := by
  by_contra hlt
  have := h i (by omega)
  rw [(freeRun_one.mp hi).2] at this
  exact Bool.noConfusion this

-- With the bound, `page_alloc` sees every hole there is.
theorem FirstfreeBound.sees (h : FirstfreeBound s) (hn : 1 ≤ n) (hj : s.FreeRun j n) :
    s.pbitmapFirstfree ≤ j :=
  h.le (hj.mono hn)

theorem FirstfreeBound.taken (h : FirstfreeBound s) (hn : 1 ≤ n) (hsnug : Snug n s)
    (hj : s.FreeRun j n) (hfirst : ∀ k, s.pbitmapFirstfree ≤ k → k < j → ¬s.FreeRun k n) :
    FirstfreeBound (s.taken j n) := by
  -- A free page below the hole would be the start of a hole itself.
  have hbelow (i : ℕ) (hi : i < j) : ¬s.FreeRun i 1 := by
    induction i using Nat.strong_induction_on
    case _ i hind =>
      intro hfree
      have hrun := hsnug i hfree fun k hk => hind k hk (by omega)
      exact hfirst i (h.le hfree) hi hrun
  intro i hi
  have hi' : i < j + n - 1 := hi
  show (s.bitmap.setRange j true n).get i = true
  rw [Bitmap.get_setRange]
  by_cases hc : j ≤ i ∧ i < j + n
  case pos => rw [if_pos hc]
  case neg =>
    have hnot := hbelow i (by omega)
    have hmanaged : i < s.managed := lt_of_lt_of_le (by omega : i < j + n) hj.1
    rw [freeRun_one, Bool.eq_false_iff, not_and_not_right] at hnot
    rw [if_neg hc, hnot hmanaged]

theorem FirstfreeBound.released (h : FirstfreeBound s) : FirstfreeBound (s.released j n) := by
  intro i hi
  have hi' : i < s.pbitmapFirstfree ∧ i < j := lt_min_iff.mp hi
  show (s.bitmap.setRange j false n).get i = true
  rw [Bitmap.get_setRange, if_neg (by omega)]
  exact h i hi'.1

theorem PageRun.firstfreeBound (hf : s₀.pbitmapFirstfree = 0) (hrun : PageRun Snug s₀ s live) :
    FirstfreeBound s := by
  induction hrun
  case boot => exact fun i hi => by omega
  case alloc n a s t live hrun hn hsnug halloc hi =>
    have ⟨j, _, _, hfree, hfirst, ht⟩ :=
      wp_of_ok halloc (pageAlloc_first hn (hrun.ledger hf).firstfree)
    rw [ht]
    exact hi.taken hn hsnug hfree hfirst
  case free b s t l₁ l₂ hrun hfree hi =>
    have ⟨j, _, _, hok⟩ := (hrun.ledger hf).free_ok (b := b) (by simp)
    rw [hfree] at hok
    cases hok
    exact hi.released

theorem pageRun_complete {memtop : ℕ} {ranges : List (ℕ × ℕ)} (hb : Bootable s memtop)
    (hr : ∀ r ∈ ranges, r.1 < 2 ^ 64) :
    ∃ s₀, bootMem memtop ranges s = .ok ((), s₀) ∧ ∀ t live, PageRun Snug s₀ t live →
      (∀ i < t.pbitmapFirstfree, t.bitmap.get i = true) ∧
      ∀ n e, 1 ≤ n → pageAlloc n t = .error e → ∀ j, ¬t.FreeRun j n := by
  obtain ⟨_, s₀, hok, hs₀⟩ := wp_false_iff.mp (bootMem_booted hb hr)
  refine ⟨s₀, hok, fun t live hrun => ⟨hrun.firstfreeBound hs₀.firstfree, fun n e hn halloc j hj => ?_⟩⟩
  have hbound := hrun.firstfreeBound hs₀.firstfree
  have hnone := (wp_of_error halloc (pageAlloc_first hn (hrun.ledger hs₀.firstfree).firstfree)).2
  exact hnone j (hbound.sees hn hj) hj

theorem Phys.FreeRun.snug (hj : s.FreeRun j n) (hn : 1 ≤ n) (hfirst : ∀ i < j, ¬s.FreeRun i 1) : Snug n s := by
  intro k hk hleast
  obtain hlt | rfl | hgt := Nat.lt_trichotomy k j
  · exact (hfirst k hlt hk).elim
  · exact hj
  · exact (hleast j hgt (hj.mono hn)).elim

-- The first two holes are taken, and the first of them is free again.
theorem pageRun_complete_smallHeap :
    ∃ s₀ t, bootMem 0x108000 [] freshHeap = .ok ((), s₀) ∧ PageRun Snug s₀ t [⟨0x102000, 2⟩] ∧
      t.pbitmapFirstfree = 1 ∧ (∀ i < t.pbitmapFirstfree, t.bitmap.get i = true) ∧
      ∀ n e, 1 ≤ n → pageAlloc n t = .error e → ∀ j, ¬t.FreeRun j n := by
  have h₁ : PageRun Snug smallHeap _ [⟨0x101000, 1⟩] := .alloc .boot (by decide)
    (Phys.FreeRun.snug (j := 1) (by decide) (by decide) (by decide))
    (pageAlloc_of_run (n := 1) (j := 1) (by decide) (by decide) (by decide) (by decide))
  have h₂ : PageRun Snug smallHeap _ [⟨0x102000, 2⟩, ⟨0x101000, 1⟩] := h₁.alloc (by decide)
    (Phys.FreeRun.snug (j := 2) (by decide) (by decide) (by decide))
    (pageAlloc_of_run (n := 2) (j := 2) (by decide) (by decide) (by decide) (by decide))
  have h₃ : PageRun Snug smallHeap _ ([⟨0x102000, 2⟩] ++ []) :=
    .free (show PageRun _ _ _ ([⟨0x102000, 2⟩] ++ [⟨0x101000, 1⟩]) from h₂)
      (pageFree_of_run (n := 1) (i := 1) (by decide) (by decide))
  have ⟨s₀, hok, hall⟩ := @pageRun_complete freshHeap 0x108000 []
    ⟨by decide, by decide, by decide, rfl⟩ (by simp)
  obtain ⟨-, rfl⟩ := Prod.mk.inj (Except.ok.inj (bootMem_smallHeap.symm.trans hok))
  exact ⟨_, _, bootMem_smallHeap, h₃, by decide, hall _ _ h₃⟩

-- Conversely, an allocation which skips a smaller hole leaves a free page below the bound.
theorem pageAlloc_skips {a : ℕ} (hn : 1 ≤ n) (hf : s.pbitmapFirstfree ≤ s.managed)
    (hnot : ¬Snug n s) (halloc : pageAlloc n s = .ok (a, t)) : ¬FirstfreeBound t := by
  have ⟨j, _, _, hfree, _, ht⟩ := wp_of_ok halloc (pageAlloc_first hn hf)
  simp only [Snug, not_forall] at hnot
  obtain ⟨i, hi, hleast, hrun⟩ := hnot
  have hne : i ≠ j := fun h => hrun (h ▸ hfree)
  have hlt : i < j := by
    by_contra hge
    exact hleast j (by omega) (hfree.mono hn)
  intro hbound
  have := hbound i (by rw [ht]; show i < j + n - 1; omega)
  rw [ht] at this
  change (s.bitmap.setRange j true n).get i = true at this
  rw [Bitmap.get_setRange, if_neg (by omega), (freeRun_one.mp hi).2] at this
  exact Bool.noConfusion this

-- After two single pages were taken and the first of them was given back, an allocation of two pages
-- skips it, and it is not found any more.
theorem pageAlloc_loses_page :
    ∃ s₀ t live, bootMem 0x108000 [] freshHeap = .ok ((), s₀) ∧
      PageRun (fun _ _ => True) s₀ t live ∧ pageAlloc 1 t = .error (.panic .pageAlloc) ∧
      t.FreeRun 1 1 ∧ 1 < t.pbitmapFirstfree := by
  have h₁ : PageRun (fun _ _ => True) smallHeap _ _ := .alloc .boot (by decide) trivial
    (pageAlloc_of_run (n := 1) (j := 1) (by decide) (by decide) (by decide) (by decide))
  have h₂ := h₁.alloc (by decide) trivial
    (pageAlloc_of_run (n := 1) (j := 2) (by decide) (by decide) (by decide) (by decide))
  have h₃ : PageRun (fun _ _ => True) smallHeap _ ([⟨_, 1⟩] ++ []) := .free h₂
    (pageFree_of_run (n := 1) (i := 1) (by decide) (by decide))
  have h₄ := h₃.alloc (by decide) trivial
    (pageAlloc_of_run (n := 2) (j := 3) (by decide) (by decide) (by decide) (by decide))
  have h₅ := h₄.alloc (by decide) trivial
    (pageAlloc_of_run (n := 3) (j := 5) (by decide) (by decide) (by decide) (by decide))
  exact ⟨_, _, _, bootMem_smallHeap, h₅, rfl, by decide, by decide⟩

end Firstfree
end Camellia
