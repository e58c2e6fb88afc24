import Camellia.Kernel.PageHeap

namespace Camellia

section Header

variable {s : Phys} {hdr a n w : ℕ} {Q : Unit → Phys → Prop} {E : Fault → Prop}

@[simp]
theorem wp_storeMem :
    wp (storeMem a n w) Q E s ↔ Q () { s with mem := s.mem.storeNat a n w } := by
  simp [storeMem]

-- The stack trace goes to the last 32 bytes of the header.
theorem kmallocTrace_frame :
    wp (kmallocTrace hdr) (fun _ t => ∃ m, t = { s with mem := m } ∧
      ∀ x, ¬(hdr + 24 ≤ x ∧ x < hdr + MALLOC_HDR) → m x = s.mem x) E s := by
  refine wp_post (wp_forM (I := fun l t => (∀ i ∈ l, i < 4) ∧ ∃ m, t = { s with mem := m } ∧
    ∀ x, ¬(hdr + 24 ≤ x ∧ x < hdr + MALLOC_HDR) → m x = s.mem x) ?_ ⟨by simp, s.mem, rfl, ?_⟩) ?_
  · rintro i l t ⟨hl, m, rfl, hm⟩
    simp only [wp_bind, wp_get, wp_storeMem]
    refine ⟨fun j hj => hl j (by simp [hj]), _, rfl, fun x hx => ?_⟩
    have hi : i < 4 := hl i (by simp)
    have hx' : ¬(hdr + 24 + 8 * i ≤ x ∧ x < hdr + 24 + 8 * i + 8) := by
      simp only [MALLOC_HDR] at hx
      omega
    rw [Mem.storeNat_not_mem hx', hm x hx]
  · exact fun _ _ => rfl
  · exact fun _ _ h => h.2

-- The last allocation can be found in the memory, and it is not part of the range from `hdr` to
-- `top`.
structure LastOutside (s : Phys) (hdr top : ℕ) : Prop where
  bound : s.mallocLast < 2 ^ 64
  next  : s.mallocLast ≠ 0 → hdrNext s.mem s.mallocLast = 0
  apart : s.mallocLast ≠ 0 → s.mallocLast + MALLOC_HDR ≤ hdr ∨ top ≤ s.mallocLast

-- What an allocation with the header `hdr` and the length `len` after it looks like.
structure KmallocDone (s : Phys) (hdr len a : ℕ) (t : Phys) : Prop where
  addr   : a = hdr + MALLOC_HDR
  state  : ∃ m, t = { s with mem := m, mallocLast := hdr }
  filled : ∀ x, hdr + MALLOC_HDR ≤ x → x < hdr + MALLOC_HDR + len → t.mem x = 0xCC
  next   : hdrNext t.mem hdr = 0
  frame  : ∀ x, ¬(hdr ≤ x ∧ x < hdr + MALLOC_HDR + len) →
    ¬(s.mallocLast ≠ 0 ∧ s.mallocLast + 8 ≤ x ∧ x < s.mallocLast + 16) → t.mem x = s.mem x

-- The header and the link to it, as `kmalloc_sanity` reads them.
structure HeaderDone (s : Phys) (hdr : ℕ) (t : Phys) : Prop where
  state : ∃ m, t = { s with mem := m, mallocLast := hdr }
  magic : hdrMagic t.mem hdr = MALLOC_MAGIC
  next  : hdrNext t.mem hdr = 0
  prev  : hdrPrev t.mem hdr = s.mallocLast
  link  : s.mallocLast ≠ 0 → hdrNext t.mem s.mallocLast = hdr
  frame : ∀ x, ¬(hdr ≤ x ∧ x < hdr + MALLOC_HDR) →
    ¬(s.mallocLast ≠ 0 ∧ s.mallocLast + 8 ≤ x ∧ x < s.mallocLast + 16) → t.mem x = s.mem x

theorem kmallocHeader (hh : hdr < 2 ^ 64) (hl : LastOutside s hdr (hdr + MALLOC_HDR)) :
    wp (do storeMem hdr 4 MALLOC_MAGIC; storeMem (hdr + 4) 4 n; kmallocLink hdr; kmallocTrace hdr)
      (fun _ => HeaderDone s hdr) E s := by
  have hmagic : MALLOC_MAGIC % 256 ^ 4 = MALLOC_MAGIC := by decide
  have hprev : s.mallocLast % 256 ^ 8 = s.mallocLast := Nat.mod_eq_of_lt hl.bound
  have hnext : hdr % 256 ^ 8 = hdr := Nat.mod_eq_of_lt hh
  simp only [wp_bind, wp_storeMem, kmallocLink, wp_get]
  by_cases h₀ : s.mallocLast = 0
  case pos =>
    simp only [h₀, ne_eq, not_true_eq_false, if_false, wp_modify]
    refine wp_post kmallocTrace_frame ?_
    rintro _ t ⟨m, rfl, hm⟩
    simp only [MALLOC_HDR] at hm
    refine ⟨⟨m, rfl⟩, ?_, ?_, ?_, fun h => (h h₀).elim, fun x hx _ => ?_⟩
    · rw [hdrMagic, Mem.load_congr fun i hi => hm (hdr + i) (by omega),
        Mem.load_storeNat_ne (by omega), Mem.load_storeNat_ne (by omega),
        Mem.load_storeNat_ne (by omega), Mem.load_storeNat, hmagic]
    · rw [hdrNext, Mem.load_congr fun i hi => hm (hdr + 8 + i) (by omega),
        Mem.load_storeNat_ne (by omega), Mem.load_storeNat, Nat.zero_mod]
    · rw [hdrPrev, Mem.load_congr fun i hi => hm (hdr + 16 + i) (by omega), Mem.load_storeNat,
        Nat.zero_mod, h₀]
    · simp only [MALLOC_HDR] at hx
      show m x = s.mem x
      rw [hm x (by omega), Mem.storeNat_not_mem (by omega), Mem.storeNat_not_mem (by omega),
        Mem.storeNat_not_mem (by omega), Mem.storeNat_not_mem (by omega)]
  case neg =>
    have hout := hl.apart h₀
    simp only [MALLOC_HDR] at hout
    have hfree : hdrNext ((((s.mem.storeNat hdr 4 MALLOC_MAGIC).storeNat (hdr + 4) 4 n).storeNat
        (hdr + 8) 8 0).storeNat (hdr + 16) 8 s.mallocLast) s.mallocLast = 0 := by
      rw [hdrNext, Mem.load_storeNat_ne (by omega), Mem.load_storeNat_ne (by omega),
        Mem.load_storeNat_ne (by omega), Mem.load_storeNat_ne (by omega)]
      exact hl.next h₀
    simp only [h₀, ne_eq, not_false_eq_true, if_true, wp_bind, wp_get, wp_passert, hfree, true_implies,
      not_true_eq_false, false_implies, and_true, wp_storeMem, wp_modify]
    refine wp_post kmallocTrace_frame ?_
    rintro _ t ⟨m, rfl, hm⟩
    simp only [MALLOC_HDR] at hm
    refine ⟨⟨m, rfl⟩, ?_, ?_, ?_, fun _ => ?_, fun x hx hx' => ?_⟩
    · rw [hdrMagic, Mem.load_congr fun i hi => hm (hdr + i) (by omega),
        Mem.load_storeNat_ne (by omega), Mem.load_storeNat_ne (by omega),
        Mem.load_storeNat_ne (by omega), Mem.load_storeNat_ne (by omega), Mem.load_storeNat, hmagic]
    · rw [hdrNext, Mem.load_congr fun i hi => hm (hdr + 8 + i) (by omega),
        Mem.load_storeNat_ne (by omega), Mem.load_storeNat_ne (by omega), Mem.load_storeNat,
        Nat.zero_mod]
    · rw [hdrPrev, Mem.load_congr fun i hi => hm (hdr + 16 + i) (by omega),
        Mem.load_storeNat_ne (by omega), Mem.load_storeNat, hprev]
    · rw [hdrNext, Mem.load_congr fun i hi => hm (s.mallocLast + 8 + i) (by omega),
        Mem.load_storeNat, hnext]
    · simp only [MALLOC_HDR] at hx
      show m x = s.mem x
      rw [hm x (by omega), Mem.storeNat_not_mem (by omega), Mem.storeNat_not_mem (by omega),
        Mem.storeNat_not_mem (by omega), Mem.storeNat_not_mem (by omega),
        Mem.storeNat_not_mem (by omega)]

end Header

section Kmalloc

variable {s u : Phys} {hdr len a n : ℕ} {E : Fault → Prop}

theorem kmallocSanity_ok {Q : Unit → Phys → Prop} (hm : hdrMagic s.mem hdr = MALLOC_MAGIC)
    (hn : hdrNext s.mem hdr = 0)
    (hp : hdrPrev s.mem hdr ≠ 0 → hdrNext s.mem (hdrPrev s.mem hdr) = hdr) (hq : Q () s) :
    wp (kmallocSanity (hdr + MALLOC_HDR)) Q E s := by
  have hnz : hdr + MALLOC_HDR ≠ 0 := by simp [MALLOC_HDR]
  simp only [kmallocSanity, Nat.add_sub_cancel, wp_bind, wp_get, wp_passert]
  exact ⟨fun _ => ⟨fun _ => ⟨fun _ => ⟨fun _ => hq, fun h => (h hp).elim⟩,
    fun h => (h fun h => (h hn).elim).elim⟩, fun h => (h hm).elim⟩, fun h => (h hnz).elim⟩

-- The rest of `kmalloc`, after the header was written.
theorem kmallocFill_done (ht : HeaderDone u hdr s) (hl : LastOutside u hdr (hdr + MALLOC_HDR + n)) :
    wp (kmallocSanity (hdr + MALLOC_HDR))
      (fun _ => KmallocDone u hdr n (hdr + MALLOC_HDR)) E
      { s with mem := s.mem.fill (hdr + MALLOC_HDR) 0xCC n } := by
  have hnext : hdrNext (s.mem.fill (hdr + MALLOC_HDR) 0xCC n) hdr = 0 := by
    rw [hdrNext, Mem.load_fill_ne (by simp only [MALLOC_HDR]; omega)]
    exact ht.next
  have hprev : hdrPrev (s.mem.fill (hdr + MALLOC_HDR) 0xCC n) hdr = u.mallocLast := by
    rw [hdrPrev, Mem.load_fill_ne (by simp only [MALLOC_HDR]; omega)]
    exact ht.prev
  refine kmallocSanity_ok ?_ hnext (fun h => ?_) ?_
  · rw [hdrMagic, Mem.load_fill_ne (by simp only [MALLOC_HDR]; omega)]
    exact ht.magic
  · simp only [hprev] at h ⊢
    have hout := hl.apart h
    rw [hdrNext, Mem.load_fill_ne (by simp only [MALLOC_HDR] at hout ⊢; omega)]
    exact ht.link h
  · obtain ⟨m, hm⟩ := ht.state
    refine ⟨rfl, ⟨s.mem.fill (hdr + MALLOC_HDR) 0xCC n, by rw [hm]⟩, fun x h₁ h₂ => ?_, hnext,
      fun x hx hx' => ?_⟩
    · show s.mem.fill (hdr + MALLOC_HDR) 0xCC n x = 0xCC
      simp [Mem.fill, h₁, h₂]
    · show s.mem.fill (hdr + MALLOC_HDR) 0xCC n x = u.mem x
      rw [Mem.fill_not_mem (by omega)]
      exact ht.frame x (by omega) hx'

-- As long as the fill does not leave the identity map or run into the last allocation, `kmalloc`
-- succeeds whenever `page_alloc` does.
theorem kmalloc_of_alloc (halloc : pageAlloc (kmallocPages len) s = .ok (hdr, u))
    (hfit : hdr + MALLOC_HDR + kmallocLen len ≤ IDENTITY_TOP)
    (hl : LastOutside u hdr (hdr + MALLOC_HDR + kmallocLen len)) :
    wp (kmalloc len) (KmallocDone u hdr (kmallocLen len)) E s := by
  have hh : hdr < 2 ^ 64 := by
    simp only [IDENTITY_TOP] at hfit
    omega
  have hl' : LastOutside u hdr (hdr + MALLOC_HDR) :=
    ⟨hl.bound, hl.next, fun h => (hl.apart h).imp id (by omega)⟩
  rw [kmalloc, wp_bind, wp_iff_of_ok halloc]
  have hheader := kmallocHeader (n := kmallocPages len) (E := E) hh hl'
  rw [wp_bind] at hheader ⊢
  refine wp_post hheader fun _ s₁ h₁ => ?_
  rw [wp_bind] at h₁ ⊢
  refine wp_post h₁ fun _ s₂ h₂ => ?_
  rw [wp_bind] at h₂ ⊢
  refine wp_post h₂ fun _ s₃ h₃ => ?_
  rw [wp_bind]
  refine wp_post h₃ fun _ t ht => ?_
  simp only [not_lt.mpr hfit, if_false, wp_bind, wp_modify]
  refine wp_post (kmallocFill_done ht hl) fun _ _ hdone => ?_
  rw [wp_pure]
  exact hdone

-- A fill which leaves the identity map does not return.
theorem kmalloc_fill_le :
    wp (kmalloc len) (fun a _ => a + kmallocLen len ≤ IDENTITY_TOP) (fun _ => True) s := by
  rw [kmalloc]
  refine wp_bind_forall fun hdr _ => wp_bind_forall fun _ _ => wp_bind_forall fun _ _ =>
    wp_bind_forall fun _ _ => wp_bind_forall fun _ _ => ?_
  by_cases h : IDENTITY_TOP < hdr + MALLOC_HDR + kmallocLen len
  case pos => simp [h]
  case neg =>
    simp only [h, if_false]
    refine wp_bind_forall fun _ _ => wp_bind_forall fun _ _ => ?_
    rw [wp_pure]
    exact not_lt.mp h

end Kmalloc

section Confined

-- The number of pages between the start of the kernel at 1 MiB and the end of the identity map.
def HEAP_PAGES : ℕ := 2 ^ 20 - 2 ^ 8

-- The heap lies above the start of the kernel in the identity map, and the last allocation is in use.
structure HeapSane (s : Phys) : Prop where
  kern      : 2 ^ 20 ≤ s.pbitmap
  top       : s.page (s.pbitmapLen * 8) ≤ IDENTITY_TOP
  firstfree : s.pbitmapFirstfree ≤ s.pbitmapLen * 8
  last      : s.mallocLast ≠ 0 → ∃ i < s.pbitmapLen * 8, s.mallocLast = s.page i ∧
    s.bitmap.get i = true ∧ hdrNext s.mem s.mallocLast = 0

-- Whenever there are enough pages, the allocation succeeds, its pages cover the header and the
-- requested length, and every byte it changes is in these pages. The one exception is the link from
-- the header of the last allocation to the new one.
def KmallocConfined (len : ℕ) : Prop :=
  ∀ s hdr u, HeapSane s → pageAlloc (kmallocPages len) s = .ok (hdr, u) →
    ∃ t, kmalloc len s = .ok (hdr + MALLOC_HDR, t) ∧
      MALLOC_HDR + len ≤ kmallocPages len * PAGE_SIZE ∧
      ∀ x, t.mem x ≠ s.mem x → (hdr ≤ x ∧ x < hdr + kmallocPages len * PAGE_SIZE) ∨
        (s.mallocLast ≠ 0 ∧ s.mallocLast + 8 ≤ x ∧ x < s.mallocLast + 16)

variable {s u t : Phys} {hdr len a j n : ℕ} {E : Fault → Prop}

theorem HeapSane.pages_le (h : HeapSane s) (hrun : s.FreeRun j n) : n ≤ HEAP_PAGES := by
  have := h.kern
  have := h.top
  have := hrun.1
  simp only [Phys.page, IDENTITY_TOP, PAGE_SIZE, HEAP_PAGES] at *
  omega

theorem HeapSane.page_le (h : HeapSane s) (hrun : s.FreeRun j n) :
    s.page j + n * PAGE_SIZE ≤ IDENTITY_TOP := by
  have := h.top
  have := hrun.1
  simp only [Phys.page, IDENTITY_TOP, PAGE_SIZE] at *
  omega

-- The last allocation has a page of its own.
theorem HeapSane.lastOutside (h : HeapSane s) (hrun : s.FreeRun j n) :
    LastOutside (s.taken j n) (s.page j) (s.page j + n * PAGE_SIZE) := by
  by_cases h₀ : s.mallocLast = 0
  case pos => exact ⟨show s.mallocLast < _ by omega, fun h => (h h₀).elim, fun h => (h h₀).elim⟩
  case neg =>
    obtain ⟨i, hi, hlast, hused, hnext⟩ := h.last h₀
    have hout : i < j ∨ j + n ≤ i := by
      by_contra hin
      have := hrun.2 i (by omega) (by omega)
      rw [hused] at this
      exact Bool.noConfusion this
    have htop := h.top
    refine ⟨show s.mallocLast < _ from ?_, fun _ => hnext, fun _ => ?_⟩
    · simp only [Phys.page, IDENTITY_TOP, PAGE_SIZE] at *
      omega
    · show s.mallocLast + MALLOC_HDR ≤ _ ∨ _ ≤ s.mallocLast
      simp only [Phys.page, MALLOC_HDR, PAGE_SIZE] at *
      omega

theorem LastOutside.mono {top : ℕ} (h : LastOutside s hdr top) (hle : a ≤ top) :
    LastOutside s hdr a :=
  ⟨h.bound, h.next, fun h' => (h.apart h').imp id fun h' => by omega⟩

-- There are at most as many pages as the heap has, so a request for more of them is refused.
theorem kmallocConfined_refused (h : HEAP_PAGES < kmallocPages len) : KmallocConfined len := by
  intro s hdr u hs halloc
  have hn : 1 ≤ kmallocPages len := by omega
  have ⟨j, _, _, hrun, _⟩ := wp_of_ok halloc (pageAlloc_first hn hs.firstfree)
  have := hs.pages_le hrun
  omega

theorem kmallocConfined_fits (hpages : (len + MALLOC_HDR) / PAGE_SIZE + 1 < 2 ^ 32)
    (hfill : (len + MALLOC_HDR) % PAGE_SIZE + MALLOC_HDR ≤ PAGE_SIZE) : KmallocConfined len := by
  intro s hdr u hs halloc
  have hlen : kmallocLen len = len + MALLOC_HDR := by
    simp only [kmallocLen, MALLOC_HDR, PAGE_SIZE] at *
    omega
  have hcount : kmallocPages len = (len + MALLOC_HDR) / PAGE_SIZE + 1 := by
    rw [kmallocPages, hlen, Nat.mod_eq_of_lt hpages]
  have hcover : MALLOC_HDR + kmallocLen len ≤ kmallocPages len * PAGE_SIZE := by
    rw [hcount, hlen]
    simp only [MALLOC_HDR, PAGE_SIZE] at *
    omega
  obtain ⟨j, ha, _, hrun, _, hu⟩ :=
    wp_of_ok halloc (pageAlloc_first (hcount ▸ Nat.le_add_left 1 _) hs.firstfree)
  have hlast := hs.lastOutside hrun
  rw [← ha, ← hu] at hlast
  have hfree : LastOutside u hdr (hdr + MALLOC_HDR + kmallocLen len) := hlast.mono (by omega)
  have hfit : hdr + MALLOC_HDR + kmallocLen len ≤ IDENTITY_TOP := by
    have := hs.page_le hrun
    rw [← ha] at this
    omega
  obtain ⟨_, t, hok, hdone⟩ := wp_false_iff.mp (kmalloc_of_alloc halloc hfit hfree)
  have hle : MALLOC_HDR + len ≤ kmallocPages len * PAGE_SIZE := by
    rw [hlen] at hcover
    simp only [MALLOC_HDR] at hcover ⊢
    omega
  refine ⟨t, hdone.addr ▸ hok, hle, fun x hx => ?_⟩
  have hmem : u.mem x = s.mem x := by rw [hu]; rfl
  have hlast' : u.mallocLast = s.mallocLast := by rw [hu]; rfl
  by_contra hout
  rw [not_or] at hout
  exact hx ((hdone.frame x (by omega) (hlast' ▸ hout.2)).trans hmem)

-- The largest heap there is, with nothing in use.
def emptyHeap : Phys where
  mem        := fun _ => 0
  pbitmap    := 2 ^ 20
  bitmap     := fun _ => 0
  pbitmapLen := HEAP_PAGES / 8

theorem emptyHeap_sane : HeapSane emptyHeap :=
  ⟨by decide, by decide, by decide, fun h => (h rfl).elim⟩

theorem emptyHeap_alloc (h : n ≤ HEAP_PAGES) :
    ∃ u, pageAlloc n emptyHeap = .ok (2 ^ 20, u) ∧ u.mem = emptyHeap.mem ∧ u.mallocLast = 0 := by
  have hrun (m : ℕ) (hm : m ≤ HEAP_PAGES) : emptyHeap.FreeRun 0 m := by
    refine ⟨?_, fun i _ _ => by simp [emptyHeap, Bitmap.get]⟩
    simp only [emptyHeap, HEAP_PAGES] at hm ⊢
    omega
  have hone (m : ℕ) (hm : m ≤ HEAP_PAGES) (h₁ : 1 ≤ m) :
      pageAlloc m emptyHeap = .ok (2 ^ 20, emptyHeap.taken 0 m) :=
    pageAlloc_of_run h₁ (hrun m hm) le_rfl fun k hk => by omega
  cases n
  case zero =>
    rw [pageAlloc_zero]
    exact ⟨_, hone 1 (by decide) le_rfl, rfl, rfl⟩
  case succ n => exact ⟨_, hone (n + 1) h (by omega), rfl, rfl⟩

theorem kmallocConfined_pages (h : KmallocConfined len) (hn : kmallocPages len ≤ HEAP_PAGES) :
    (len + MALLOC_HDR) / PAGE_SIZE + 1 < 2 ^ 32 := by
  have ⟨u, halloc, _⟩ := emptyHeap_alloc hn
  have ⟨_, _, hcover, _⟩ := h emptyHeap _ u emptyHeap_sane halloc
  simp only [HEAP_PAGES, MALLOC_HDR, PAGE_SIZE] at *
  omega

theorem kmallocConfined_fill (h : KmallocConfined len) (hn : kmallocPages len ≤ HEAP_PAGES) :
    (len + MALLOC_HDR) % PAGE_SIZE + MALLOC_HDR ≤ PAGE_SIZE := by
  have hpages := kmallocConfined_pages h hn
  have hlen : kmallocLen len = len + MALLOC_HDR := by
    simp only [kmallocLen, MALLOC_HDR, PAGE_SIZE] at *
    omega
  have hcount : kmallocPages len = (len + MALLOC_HDR) / PAGE_SIZE + 1 := by
    rw [kmallocPages, hlen, Nat.mod_eq_of_lt hpages]
  obtain ⟨u, halloc, hmem, hlast⟩ := emptyHeap_alloc hn
  obtain ⟨t, hok, _, hchange⟩ := h emptyHeap _ u emptyHeap_sane halloc
  have hfit := wp_of_ok hok kmalloc_fill_le
  have hout : LastOutside u (2 ^ 20) (2 ^ 20 + MALLOC_HDR + kmallocLen len) :=
    ⟨by omega, fun h => (h hlast).elim, fun h => (h hlast).elim⟩
  have hdone := wp_of_ok hok (kmalloc_of_alloc (E := fun _ => True) halloc hfit hout)
  -- The last byte of the fill was zero before.
  have hbyte : t.mem (2 ^ 20 + MALLOC_HDR + len + 55) = 0xCC :=
    hdone.filled _ (by omega) (by rw [hlen]; simp only [MALLOC_HDR]; omega)
  have hin := hchange (2 ^ 20 + MALLOC_HDR + len + 55) (by rw [hbyte]; exact (by decide : (0xCC : UInt8) ≠ 0))
  obtain hin | ⟨h₀, _⟩ := hin
  · rw [hcount] at hin
    simp only [MALLOC_HDR, PAGE_SIZE] at *
    omega
  · exact (h₀ rfl).elim

theorem kmallocConfined_iff :
    KmallocConfined len ↔ HEAP_PAGES < kmallocPages len ∨
      ((len + MALLOC_HDR) / PAGE_SIZE + 1 < 2 ^ 32 ∧
        (len + MALLOC_HDR) % PAGE_SIZE + MALLOC_HDR ≤ PAGE_SIZE) := by
  constructor
  case mp =>
    intro h
    by_cases hn : kmallocPages len ≤ HEAP_PAGES
    case pos => exact .inr ⟨kmallocConfined_pages h hn, kmallocConfined_fill h hn⟩
    case neg => exact .inl (by omega)
  case mpr =>
    rintro (h | ⟨h₁, h₂⟩)
    · exact kmallocConfined_refused h
    · exact kmallocConfined_fits h₁ h₂

-- An allocation of 4000 bytes gets one page, and fills the first 16 bytes of the next one.
theorem kmalloc_overflows :
    (∃ t, kmalloc 4000 emptyHeap = .ok (2 ^ 20 + MALLOC_HDR, t) ∧ kmallocPages 4000 = 1 ∧
      t.mem (2 ^ 20 + PAGE_SIZE) = 0xCC ∧ emptyHeap.mem (2 ^ 20 + PAGE_SIZE) = 0) ∧
    ¬∀ len, KmallocConfined len := by
  have ⟨u, halloc, _, hlast⟩ := emptyHeap_alloc (n := kmallocPages 4000) (by decide)
  have hout : LastOutside u (2 ^ 20) (2 ^ 20 + MALLOC_HDR + kmallocLen 4000) :=
    ⟨by omega, fun h => (h hlast).elim, fun h => (h hlast).elim⟩
  have ⟨a, t, hok, hdone⟩ := wp_false_iff.mp (kmalloc_of_alloc halloc (by decide) hout)
  refine ⟨⟨t, hdone.addr ▸ hok, by decide, hdone.filled _ (by decide) (by decide), rfl⟩, fun h => ?_⟩
  exact absurd (kmallocConfined_fill (h 4000) (by decide)) (by decide)

end Confined
end Camellia
