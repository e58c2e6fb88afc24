import Camellia.Libc.Elfload

namespace Camellia.Elf

-- The pages in the lower half of the address space, where an image is loaded, are those of the page directory. What
-- they contain is not compared.
structure Shows (t : Phys) (d : ℕ) (s : Space) : Prop where
  user : ∀ n < 2 ^ 35, s.user n ↔ ∃ pe, pageAt t.mem d n = some pe ∧ pe.user
  kern : ∀ n < 2 ^ 35, s.kern n ↔ KernelPage t.mem d n

section Shows

variable {t u : Phys} {d n addr len r : ℕ} {s : Space} {flags : Flags} {l : Prop}

theorem Shows.mapped (h : Shows t d s) (hn : n < 2 ^ 35) : s.mapped n ↔ pageAt t.mem d n ≠ none := by
  rw [Space.mapped, Bool.or_eq_true, h.user n hn, h.kern n hn, KernelPage]
  cases hpe : pageAt t.mem d n
  case none    => simp
  case some pe => cases hu : pe.user <;> simp [hu]

theorem Shows.findfree_ok (h : Shows t d s) (hd : Dir t d) :
    pagedirFindfree t.mem d addr len = .ok (Elf.findfree s.mapped addr len) :=
  findfree_eq hd fun _ hn => h.mapped hn

-- In the lower half, no address is refused.
theorem contains_visits (ha : addr % PAGE_SIZE = 0) (hl : addr + len ≤ 2 ^ 47) :
    (visits addr len).contains n ↔ n ∈ memflagVisits addr len 0 := by
  have haddr {k : ℕ} (hk : k < memflagPages len) :
      memflagAddr addr k < 2 ^ 47 ∧ memflagAddr (addr - addr % PAGE_SIZE) k = memflagAddr addr k := by
    simp only [memflagPages, memflagAddr, PAGE_SIZE] at *
    omega
  have hpage {a : ℕ} (h : a < 2 ^ 47) : addrCanonical a ∧ pageOf a = a / PAGE_SIZE := by
    simp only [addrCanonical, decide_eq_true_eq, pageOf, PAGE_SIZE]
    omega
  simp only [List.contains_iff_mem, visits, List.mem_map, List.mem_range, memflagVisits, Set.mem_ofPred_eq]
  constructor
  · rintro ⟨k, hk, rfl⟩
    obtain ⟨hlt, heq⟩ := haddr hk
    rw [heq]
    exact ⟨k, Nat.zero_le _, hk, (hpage hlt).1, (hpage hlt).2.symm⟩
  · rintro ⟨k, -, hk, -, rfl⟩
    obtain ⟨hlt, heq⟩ := haddr hk
    exact ⟨k, hk, by rw [heq, (hpage hlt).2]⟩

theorem Shows.map (h : Shows t d s) (ha : addr % PAGE_SIZE = 0) (hl : addr + len ≤ 2 ^ 47)
    (hf : PagesFilled t d (memflagVisits addr len 0) l u) : Shows u d (s.map addr len) := by
  have hcontains := fun n => @contains_visits n addr len ha hl
  refine ⟨fun n hn => ?_, fun n hn => ?_⟩
  · have hn' : n < 512 ^ 4 := by omega
    have huser := h.user n hn
    have hkern := h.kern n hn
    simp only [Space.map, Bool.or_eq_true, Bool.and_eq_true, hcontains, Bool.not_eq_true', ← Bool.not_eq_true, huser,
      hkern]
    cases hpe : pageAt t.mem d n
    case none =>
      by_cases hv : n ∈ memflagVisits addr len 0
      case pos =>
        obtain ⟨pe, hpe', hu, -⟩ := hf.added n hn' hpe hv
        simp [KernelPage, hpe, hv, hpe', hu]
      case neg => simp [hv, hf.absent n hn' hpe hv]
    case some pe =>
      rw [hf.kept n hn' pe hpe]
      cases hu : pe.user <;> simp [KernelPage, hpe, hu]
  · have hn' : n < 512 ^ 4 := by omega
    refine (h.kern n hn).trans ?_
    rw [KernelPage, KernelPage]
    cases hpe : pageAt t.mem d n
    case none =>
      by_cases hv : n ∈ memflagVisits addr len 0
      case pos =>
        obtain ⟨pe, hpe', hu, -⟩ := hf.added n hn' hpe hv
        simp [hpe', hu]
      case neg => rw [hf.absent n hn' hpe hv]
    case some pe => rw [hf.kept n hn' pe hpe]

theorem Shows.unmap (h : Shows t d s) (ha : addr % PAGE_SIZE = 0) (hl : addr + len < 2 ^ 47)
    (hu : Unmapped t d (pagesBetween addr (addr + len)) u) : Shows u d (s.unmap addr len) := by
  have hin {n : ℕ} (hn : n < 2 ^ 35) : n ∈ pagesBetween addr (addr + len) ↔
      addr - addr % PAGE_SIZE ≤ n * PAGE_SIZE ∧ n * PAGE_SIZE < (addr + len) % 2 ^ 64 := by
    have haddr : pageAddr n = n * PAGE_SIZE := by
      have hlow : n * PAGE_SIZE < 2 ^ 47 := by
        simp only [PAGE_SIZE]
        omega
      rw [pageAddr, signExtend, if_neg (by omega), Nat.mod_eq_of_lt (by omega)]
    rw [pagesBetween, Set.mem_ofPred_eq, haddr, ha, Nat.sub_zero, Nat.mod_eq_of_lt (by omega)]
  refine ⟨fun n hn => ?_, fun n hn => ?_⟩
  · simp only [Space.unmap, Bool.and_eq_true, h.user n hn, ← Bool.decide_and, Bool.not_eq_true', decide_eq_false_iff_not,
      ← hin hn, hu.pageAt_iff (show n < 512 ^ 4 by omega)]
    constructor
    · rintro ⟨⟨pe, hpe, hpu⟩, hnot⟩
      exact ⟨pe, ⟨hpe, fun hr => absurd hr hnot⟩, hpu⟩
    · rintro ⟨pe, ⟨hpe, hr⟩, hpu⟩
      exact ⟨⟨pe, hpe, hpu⟩, fun hmem => hr hmem hpu⟩
  · refine (h.kern n hn).trans (exists_congr fun pe => ?_)
    rw [hu.pageAt_iff (show n < 512 ^ 4 by omega)]
    tauto

theorem Shows.wp_memflagLoop (hd : Dir t d) (hb : 0 < t.pbitmap) (h : Shows t d s) (ha : addr % PAGE_SIZE = 0)
    (hl : addr + len ≤ 2 ^ 47) :
    wp (sysMemflagLoop d addr len (memflagPages len) 0) (fun _ u => Shows u d (s.map addr len)) (fun _ => True) t := by
  have hloop := sysMemflagLoop_wp (j := 0) (n := memflagPages len) hd hb ha (show len < 2 ^ 64 by omega) (Nat.zero_add _)
  rw [Nat.zero_mul, Nat.zero_mod] at hloop
  exact wp_mono hloop (fun _ u hu => h.map ha hl hu.1) fun _ _ => trivial

theorem Shows.wp_memflag_present (hd : Dir t d) (hb : 0 < t.pbitmap) (h : Shows t d s) (hl : addr + len < 2 ^ 47)
    (hp : flags.has MEMFLAG_PRESENT) (hf : flags.has MEMFLAG_FINDFREE = false) :
    wp (sysMemflag d addr len flags) (fun r u => r = addr - addr % PAGE_SIZE ∧
      Shows u d (s.map (addr - addr % PAGE_SIZE) len)) (fun _ => True) t := by
  rw [present_not_findfree hp hf, wp_bind]
  exact wp_post (h.wp_memflagLoop hd hb (align_aligned addr) (by omega)) fun _ u hu => wp_pure.mpr ⟨rfl, hu⟩

-- If there is no free range, then the pages from the address 0 on are mapped.
theorem Shows.wp_memflag_findfree (hd : Dir t d) (hb : 0 < t.pbitmap) (h : Shows t d s) (hl : addr + len < 2 ^ 47)
    (hp : flags.has MEMFLAG_PRESENT) (hf : flags.has MEMFLAG_FINDFREE) :
    wp (sysMemflag d addr len flags) (fun r u => r = findfree s.mapped (addr - addr % PAGE_SIZE) len ∧
      Shows u d (s.map (findfree s.mapped (addr - addr % PAGE_SIZE) len) len)) (fun _ => True) t := by
  have hfree := @Shows.findfree_ok _ _ (addr - addr % PAGE_SIZE) len _ h hd
  generalize hfind : findfree s.mapped (addr - addr % PAGE_SIZE) len = a at hfree ⊢
  have hrange : a % PAGE_SIZE = 0 ∧ a + len ≤ 2 ^ 47 := by
    by_cases h0 : a = 0
    case pos =>
      subst h0
      exact ⟨rfl, by omega⟩
    case neg =>
      have hpages := findfree_free hfind h0 (align_aligned addr) (by omega)
      have hbelow := hpages.below
      simp only [FINDFREE_END, PAGE_SIZE] at hbelow
      exact ⟨hpages.aligned, by omega⟩
  rw [present_findfree hp hf, wp_bind, wp_get, wp_bind, wp_liftM hfree, wp_bind]
  exact wp_post (h.wp_memflagLoop hd hb hrange.1 hrange.2) fun _ u hu => wp_pure.mpr ⟨rfl, hu⟩

theorem Shows.wp_memflag_absent (hd : Dir t d) (h : Shows t d s) (hl : addr + len < 2 ^ 47)
    (hp : flags.has MEMFLAG_PRESENT = false) (hf : flags.has MEMFLAG_FINDFREE = false) :
    wp (sysMemflag d addr len flags) (fun r u => r = addr - addr % PAGE_SIZE ∧
      Shows u d (s.unmap (addr - addr % PAGE_SIZE) len)) (fun _ => True) t := by
  have ha := align_aligned addr
  have hle : addr - addr % PAGE_SIZE + len < 2 ^ 47 := by omega
  have hcanon {a : ℕ} (h : a < 2 ^ 47) : addrCanonical a ∧ CpuCanonical a := by
    simp only [addrCanonical, decide_eq_true_eq, CpuCanonical]
    omega
  obtain ⟨u, hu, hunmapped⟩ : UnmapsExactly t d (addr - addr % PAGE_SIZE) len :=
    (unmapsExactly_iff hd ha (by omega) (hcanon hle).1).mpr ⟨.inr (hcanon (by omega)).1,
      fun n hn _ _ _ => pagesVisited_canonical hn ha (hcanon (by omega)).2 (hcanon hle).2⟩
  simp only [sysMemflag, hf, Bool.false_eq_true, if_false, hp, not_false_eq_true, if_true, wp_bind]
  exact (wp_iff_of_ok hu).mpr (wp_pure.mpr ⟨rfl, h.unmap ha hle hunmapped⟩)

-- The system call for the space is that of the kernel, whatever it is called for.
theorem memflag_shows (hd : Dir t d) (hb : 0 < t.pbitmap) (h : Shows t d s) (hl : addr + len < 2 ^ 47)
    (hok : sysMemflag d addr len flags t = .ok (r, u)) :
    r = (memflag s addr len flags).snd ∧ Shows u d (memflag s addr len flags).fst := by
  cases hp : flags.has MEMFLAG_PRESENT <;> cases hf : flags.has MEMFLAG_FINDFREE <;>
    simp only [memflag, hp, hf, Bool.false_eq_true, not_false_eq_true, not_true_eq_false, if_true, if_false]
  case true.false =>
    have hu := wp_of_ok hok (h.wp_memflag_present hd hb hl hp hf)
    exact hu
  case true.true =>
    have hu := wp_of_ok hok (h.wp_memflag_findfree hd hb hl hp hf)
    exact hu
  case false.false =>
    have hu := wp_of_ok hok (h.wp_memflag_absent hd hl hp hf)
    exact hu
  case false.true =>
    have hfree := @Shows.findfree_ok _ _ (addr - addr % PAGE_SIZE) len _ h hd
    have hwp : wp (sysMemflag d addr len flags) (fun r u => r = findfree s.mapped (addr - addr % PAGE_SIZE) len ∧ u = t)
        (fun _ => True) t := by
      simp only [sysMemflag, hf, hp, Bool.false_eq_true, if_true, not_false_eq_true, wp_bind, wp_get, wp_liftM hfree]
      exact wp_pure.mpr ⟨rfl, rfl⟩
    obtain ⟨hr, rfl⟩ := wp_of_ok hok hwp
    exact ⟨hr, h⟩

end Shows
end Camellia.Elf
