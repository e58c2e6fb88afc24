import Camellia.Kernel.Kmalloc

namespace Camellia

section Total

variable {m m' : Mem} {iter iter' di si di' si' : VirtIter} {total length k fuel : ℕ}

theorem virtIterFill_count {more : Bool} (h : virtIterFill m iter = .ok (more, iter')) :
    iter'.fragLen + iter'.remaining = iter.fragLen + iter.remaining := by
  simp only [virtIterFill] at h
  split at h
  case isFalse => cases h; rfl
  case isTrue hf =>
    simp only [virtIterNext] at h
    split at h
    case isTrue => cases h; rfl
    case isFalse =>
      cases hp : iter.pages
      case none =>
        simp only [hp, pure, Except.pure] at h
        cases h
        simp [VirtIter.advance, hf]
      case some dir =>
        simp only [hp, bind, Except.bind] at h
        cases ha : pagedirVirt2phys m dir iter.virt iter.user iter.writeable
        case error => simp [ha] at h
        case ok a =>
          simp only [ha, pure, Except.pure] at h
          split at h <;> cases h
          · rfl
          · simp only [VirtIter.advance]
            omega

theorem virtCpyLoop_le (h : virtCpyLoop fuel m di si total = .ok (m', di', si', k))
    (hl : total + (di.fragLen + di.remaining) = length) : k ≤ length := by
  induction fuel generalizing m di si total
  case zero => simp [virtCpyLoop] at h
  case succ fuel hi =>
    simp only [virtCpyLoop, bind, Except.bind] at h
    cases hd : virtIterFill m di
    case error => simp [hd] at h
    case ok x =>
      obtain ⟨more, di₁⟩ := x
      have hcount := virtIterFill_count hd
      simp only [hd] at h
      cases more
      case false =>
        simp only [pure, Except.pure] at h
        cases h
        omega
      case true =>
        cases hs : virtIterFill m si
        case error => simp [hs] at h
        case ok y =>
          obtain ⟨more, si₁⟩ := y
          simp only [hs] at h
          cases more
          case false =>
            simp only [pure, Except.pure] at h
            cases h
            omega
          case true =>
            refine hi h ?_
            simp only [VirtIter.consume]
            omega

-- Whatever is mapped, a copy writes at most as many bytes as it was asked for.
theorem virtCpy_le {dp sp : Option ℕ} {dest src : ℕ}
    (h : virtCpy m dp dest sp src length = .ok (k, m')) : k ≤ length := by
  simp only [virtCpy, bind, Except.bind] at h
  split at h
  case h_1 => contradiction
  case h_2 x hrun =>
    have : x.2.2.2 ≤ length := virtCpyLoop_le hrun (by simp [virtIterNew])
    split at h <;> split at h <;> cases h <;> exact this

end Total

section Fits

-- `(size_t)len`
def sizeOfLen (len : Int) : ℕ :=
  (len % 2 ^ 64).toNat

-- Whatever is mapped and wherever the user points to, a copied path fits into the pages which
-- `kmalloc` reserved for it.
def PathBufFits (len : Int) : Prop :=
  ∀ pages path s pathBuf n s', sysPathBuf pages path len s = .ok (some (pathBuf, n), s') →
    n ≤ kmallocPages (sizeOfLen len) * PAGE_SIZE - MALLOC_HDR

variable {len : Int} {s : Phys} {n : ℕ}

-- The fill of an allocation whose length wraps around in no way leaves the identity map.
theorem kmalloc_huge (h : IDENTITY_TOP < kmallocLen n) :
    wp (kmalloc n) (fun _ _ => False) (fun _ => True) s :=
  wp_post kmalloc_fill_le fun _ _ hle => by omega

theorem pcpyFrom_le {pages : Option ℕ} {dst src : ℕ} :
    wp (pcpyFrom pages dst src n) (fun k _ => k ≤ n) (fun _ => True) s := by
  cases pages
  case none => simp [pcpyFrom]
  case some dir =>
    simp only [pcpyFrom, wp_bind, wp_get]
    cases h : virtCpy s.mem none dst (some dir) src n
    case error => simp
    case ok x  => simpa using virtCpy_le h

theorem pathBufFits_of_wp (h : ∀ pages path s, wp (sysPathBuf pages path len)
    (fun r _ => ∀ pathBuf n, r = some (pathBuf, n) →
      n ≤ kmallocPages (sizeOfLen len) * PAGE_SIZE - MALLOC_HDR) (fun _ => True) s) :
    PathBufFits len :=
  fun pages path s pathBuf n _ hr => wp_of_ok hr (h pages path s) pathBuf n rfl

theorem pathBufFits_nonneg (h : 0 ≤ len) : PathBufFits len := by
  refine pathBufFits_of_wp fun pages path s => ?_
  simp only [sysPathBuf, wp_ite, wp_pure]
  refine ⟨fun _ => by simp, fun hlen => wp_bind_forall fun pathBuf s => ?_⟩
  rw [wp_bind]
  refine wp_post pcpyFrom_le fun k _ hk => ?_
  rw [wp_pure]
  intro pathBuf' n hr
  obtain ⟨_, rfl⟩ : pathBuf = pathBuf' ∧ k = n := by simpa using hr
  have hsize : (len % 2 ^ 64).toNat ≤ 512 := by
    simp only [PATH_MAX] at hlen
    omega
  simp only [sizeOfLen, kmallocPages, kmallocLen, PAGE_SIZE, MALLOC_HDR]
  omega

theorem pathBufFits_huge (h : len < -56) (hmin : -2 ^ 63 ≤ len) : PathBufFits len := by
  refine pathBufFits_of_wp fun pages path s => ?_
  simp only [sysPathBuf, wp_ite, wp_bind, wp_pure]
  refine ⟨fun _ => by simp, fun _ => ?_⟩
  refine wp_post (kmalloc_huge ?_) fun _ _ hf => hf.elim
  simp only [kmallocLen, MALLOC_HDR, IDENTITY_TOP]
  omega

end Fits

section Wrap

-- An empty heap above the page tables of a process with two pages.
def wrapState : Phys where
  mem        := twoPages
  pbitmap    := 0x100000
  bitmap     := fun _ => 0
  pbitmapLen := 1

theorem kmalloc_wrapState {n : ℕ} (hn : kmallocLen n < 56) :
    wp (kmalloc n) (fun a s => a = 0x100038 ∧ ∀ x < 0x100000, s.mem x = twoPages x)
      (fun _ => False) wrapState := by
  have hpages : kmallocPages n = 1 := by
    simp only [kmallocPages, PAGE_SIZE]
    omega
  obtain ⟨u, halloc, hmem, hlast⟩ : ∃ u, pageAlloc 1 wrapState = .ok (0x100000, u) ∧
      u.mem = twoPages ∧ u.mallocLast = 0 := ⟨_, rfl, rfl, rfl⟩
  rw [← hpages] at halloc
  have hfit : 0x100000 + MALLOC_HDR + kmallocLen n ≤ IDENTITY_TOP := by
    simp only [IDENTITY_TOP, MALLOC_HDR]
    omega
  refine wp_post (kmalloc_of_alloc halloc hfit ⟨?_, ?_, ?_⟩) fun a s hdone => ?_
  · simp [hlast]
  · exact fun h => (h hlast).elim
  · exact fun h => (h hlast).elim
  · refine ⟨hdone.addr, fun x hx => ?_⟩
    rw [hdone.frame x (by omega) (by simp [hlast]), hmem]

variable {m : Mem} {table index virt a : ℕ} {indices : List ℕ}

-- The tables of `twoPages` and the frames they map are all in the first 0x9000 bytes.
structure LowEntry (pe : Pe) : Prop where
  large : pe.large = false
  low   : addrExtract pe ≤ 0x8000
  page  : addrExtract pe % PAGE_SIZE = 0

theorem lowEntry_twoPages (hm : ∀ x < 0x100000, m x = twoPages x) (ht : table ≤ 0x8000)
    (hp : table % PAGE_SIZE = 0) (hi : index < 512) : LowEntry (peAt m table index) := by
  simp only [PAGE_SIZE] at hp
  have hload : peAt m table index = twoPagesWords (table / 8 + index) % 256 ^ 8 := by
    rw [peAt, ← Mem.load_ofWords, show 8 * (table / 8 + index) = table + 8 * index by omega]
    exact Mem.load_congr fun i _ => hm _ (by omega)
  rw [hload, twoPagesWords]
  split_ifs <;> exact ⟨by decide, by decide, by decide⟩

theorem getEntryWalk_twoPages (hm : ∀ x < 0x100000, m x = twoPages x) (ht : table ≤ 0x8000)
    (hp : table % PAGE_SIZE = 0) (hi : ∀ i ∈ indices, i < 512) :
    ∃ r, getEntryWalk m table indices = .ok r ∧
      ∀ t, r = some t → t ≤ 0x8000 ∧ t % PAGE_SIZE = 0 := by
  induction indices generalizing table
  case nil => exact ⟨_, rfl, fun t h => Option.some.inj h ▸ ⟨ht, hp⟩⟩
  case cons i indices hind =>
    have hl := lowEntry_twoPages hm ht hp (hi i (by simp))
    have ⟨r, hr⟩ := hind hl.low hl.page fun j hj => hi j (by simp [hj])
    by_cases hpr : (peAt m table i).present
    case neg => exact ⟨none, by simp [getEntryWalk, hpr], by simp⟩
    case pos => exact ⟨r, by simpa [getEntryWalk, hpr, hl.large] using hr.1, hr.2⟩

theorem walkReads_twoPages (hm : ∀ x < 0x100000, m x = twoPages x) (ht : table ≤ 0x8000)
    (hp : table % PAGE_SIZE = 0) (hi : ∀ i ∈ indices, i < 512) :
    ∀ e ∈ walkReads m table indices, e < 0x9000 := by
  induction indices generalizing table
  case nil => simp [walkReads]
  case cons i indices hind =>
    have hl := lowEntry_twoPages hm ht hp (hi i (by simp))
    have hrec := hind hl.low hl.page fun j hj => hi j (by simp [hj])
    have hlt := hi i (by simp)
    intro e he
    simp only [walkReads, List.mem_cons] at he
    obtain rfl | he := he
    · omega
    · split at he
      · exact hrec e he
      · simp at he

theorem virtIndex_lt (virt : ℕ) :
    ∀ i ∈ [virtPml4 virt, virtPdpt virt, virtPd virt, virtPt virt], i < 512 := by
  simp only [List.mem_cons, List.not_mem_nil, or_false, virtPml4, virtPdpt, virtPd, virtPt]
  omega

theorem getEntry_twoPages (virt : ℕ) (hm : ∀ x < 0x100000, m x = twoPages x) :
    ∃ r, getEntry m 0x1000 virt = .ok r ∧ ∀ pe, r = some pe → LowEntry pe := by
  have hidx := virtIndex_lt virt
  have hupper : ∀ i ∈ [virtPml4 virt, virtPdpt virt, virtPd virt], i < 512 :=
    fun i hi => hidx i (by simp only [List.mem_cons] at hi ⊢; tauto)
  have ⟨r, hr, ht⟩ := getEntryWalk_twoPages hm (by decide : 0x1000 ≤ 0x8000) (by decide) hupper
  by_cases hc : addrCanonical virt
  case neg => exact ⟨none, by simp [getEntry, hc, pure, Except.pure], by simp⟩
  case pos =>
    refine ⟨_, by simp only [getEntry, hc, hr, bind, Except.bind]; rfl, fun pe hpe => ?_⟩
    obtain ⟨t, rfl, rfl⟩ := Option.map_eq_some_iff.mp hpe
    exact lowEntry_twoPages hm (ht t rfl).1 (ht t rfl).2 (hidx _ (by simp))

theorem pagedirVirt2phys_twoPages (virt : ℕ) (w : Bool) (hm : ∀ x < 0x100000, m x = twoPages x) :
    ∃ a < 0x9000, pagedirVirt2phys m 0x1000 virt true w = .ok a := by
  have ⟨r, hr, hl⟩ := getEntry_twoPages virt hm
  rw [pagedirVirt2phys_eq, hr]
  refine ⟨_, ?_, rfl⟩
  cases r
  case none => simp
  case some pe =>
    have := (hl pe rfl).low
    simp only [Option.elim_some, PAGE_SIZE]
    split <;> omega

-- The first and the second page are mapped.
theorem physByte_twoPages (hm : ∀ x < 0x100000, m x = twoPages x) {i : ℕ} (hi : i < 0x2000) :
    physByte m (some 0x1000) 0x200000 false i ≠ none := by
  have hpage (virt a : ℕ) (hv : pagedirVirt2phys twoPages 0x1000 virt true false = .ok a)
      (hr : ∀ e ∈ entryReads twoPages 0x1000 virt, e < 0x9000) :
      pagedirVirt2phys m 0x1000 virt true false = .ok a := by
    rw [← hv]
    refine pagedirVirt2phys_congr fun e he i hi => hm _ ?_
    have := hr e he
    omega
  have h₀ := hpage 0x200000 0x5000 (by decide) (by decide)
  have h₁ := hpage 0x201000 0x8000 (by decide) (by decide)
  have hmod : (0x200000 + i) % 2 ^ 64 = 0x200000 + i := by omega
  simp only [physByte, hmod]
  by_cases hlt : i < 0x1000
  case pos =>
    rw [pagedirVirt2phys_page (by simp only [PAGE_SIZE]; omega) h₀ (by decide)]
    simp
  case neg =>
    rw [show 0x200000 + i = 0x201000 + (i - 0x1000) by omega,
      pagedirVirt2phys_page (by simp only [PAGE_SIZE]; omega) h₁ (by decide)]
    simp

theorem apart_twoPages (hm : ∀ x < 0x100000, m x = twoPages x) {dst len : ℕ}
    (hd : 0x100000 ≤ dst) : Apart m none dst (some 0x1000) 0x200000 len where
  images    := fun i _ j _ a hi hj => by
    obtain ⟨b, hb, h⟩ := pagedirVirt2phys_twoPages ((0x200000 + j) % 2 ^ 64) false hm
    simp only [physByte, Option.some.injEq] at hi
    simp only [physByte, h] at hj
    split at hj
    · contradiction
    · cases hj
      omega
  injective := fun i _ j _ a hi hj => by
    simp only [physByte, Option.some.injEq] at hi hj
    omega
  tables    := fun i _ a hi => by
    simp only [physByte, Option.some.injEq] at hi
    refine ⟨fun hx => by obtain ⟨dir, hdir, _⟩ := hx; simp at hdir, ?_⟩
    rintro ⟨dir, hdir, j, hj, e, he, hle, hlt⟩
    cases hdir
    have := walkReads_twoPages hm (by decide : 0x1000 ≤ 0x8000) (by decide) (virtIndex_lt _) e he
    omega

-- A length which wraps around to a small allocation is still copied as what it is.
theorem sysPathBuf_overrun {len : Int} (h₁ : -56 ≤ len) (h₂ : len < 0) :
    ∃ n s', sysPathBuf (some 0x1000) 0x200000 len wrapState = .ok (some (0x100038, n), s') ∧
      0x2000 ≤ n := by
  suffices h : wp (sysPathBuf (some 0x1000) 0x200000 len)
      (fun r _ => ∃ n, r = some (0x100038, n) ∧ 0x2000 ≤ n) (fun _ => False) wrapState by
    obtain ⟨_, s', hr, n, rfl, hn⟩ := wp_false_iff.mp h
    exact ⟨n, s', hr, hn⟩
  have hsize : 2 ^ 64 - 56 ≤ (len % 2 ^ 64).toNat := by omega
  have hlen : kmallocLen (len % 2 ^ 64).toNat < 56 := by
    simp only [kmallocLen, MALLOC_HDR]
    omega
  have hmax : ¬(PATH_MAX : Int) < len := by
    simp only [PATH_MAX]
    omega
  simp only [sysPathBuf, hmax, if_false, wp_bind]
  refine wp_post (kmalloc_wrapState hlen) fun a s hx => ?_
  obtain ⟨ha, hm⟩ := hx
  subst ha
  have hlarge : NoLarge s.mem (some 0x1000) 0x200000 (len % 2 ^ 64).toNat := fun dir hdir i _ => by
    cases hdir
    obtain ⟨r, hr, _⟩ := getEntry_twoPages ((0x200000 + i) % 2 ^ 64) hm
    exact ⟨r, hr⟩
  obtain ⟨k, m', hrun, _, hend⟩ := virtCpy_spec (by simp) (fun _ _ => by decide)
    (fun _ h => by simp at h) hlarge (.inl rfl) (apart_twoPages hm (by decide : 0x100000 ≤ 0x100038))
  simp only [pcpyFrom, wp_bind, wp_get, hrun, wp_modify, wp_pure]
  refine ⟨k, rfl, ?_⟩
  by_contra hk
  have := physByte_twoPages hm (i := k) (by omega)
  obtain rfl | ⟨_, h | h⟩ := hend
  · omega
  · simp [physByte] at h
  · exact this h

end Wrap

theorem pathBufFits_iff {len : Int} (hmin : -2 ^ 63 ≤ len) :
    PathBufFits len ↔ ¬(-56 ≤ len ∧ len < 0) := by
  constructor
  case mp =>
    intro hfits ⟨h₁, h₂⟩
    have ⟨n, s', hr, hn⟩ := sysPathBuf_overrun h₁ h₂
    have := hfits _ _ _ _ _ _ hr
    simp only [kmallocPages, kmallocLen, sizeOfLen, PAGE_SIZE, MALLOC_HDR] at this
    omega
  case mpr =>
    intro h
    by_cases h₀ : 0 ≤ len
    case pos => exact pathBufFits_nonneg h₀
    case neg => exact pathBufFits_huge (by omega) hmin

theorem pathBufFits_max : PathBufFits 512 :=
  (pathBufFits_iff (by decide)).mpr (by decide)

-- For the length -1 one page is reserved, and two pages are copied.
theorem sysPathBuf_negative :
    (∃ n s', sysPathBuf (some 0x1000) 0x200000 (-1) wrapState = .ok (some (0x100038, n), s') ∧
      kmallocPages (sizeOfLen (-1)) * PAGE_SIZE - MALLOC_HDR < n) ∧
    ¬∀ len : Int, -2 ^ 63 ≤ len → len < 2 ^ 63 → PathBufFits len := by
  have ⟨n, s', hr, hn⟩ := sysPathBuf_overrun (by decide : -56 ≤ (-1 : Int)) (by decide)
  have hlt : kmallocPages (sizeOfLen (-1)) * PAGE_SIZE - MALLOC_HDR < n := by
    have : kmallocPages (sizeOfLen (-1)) * PAGE_SIZE - MALLOC_HDR = 4040 := by decide
    omega
  refine ⟨⟨n, s', hr, hlt⟩, fun h => ?_⟩
  have := h (-1) (by decide) (by decide) _ _ _ _ _ _ hr
  omega

end Camellia
