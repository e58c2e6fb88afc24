import Camellia.Kernel.Directory
import Mathlib.Order.Interval.Set.Basic

namespace Camellia

-- `addr_canonize` without its assertion: the bit 47 is copied to the bits above it.
def signExtend (virt : ℕ) : ℕ :=
  if virt / 2 ^ 47 % 2 = 1 then 2 ^ 64 - 2 ^ 48 + virt % 2 ^ 48 else virt % 2 ^ 48

def addrCanonize (virt : ℕ) : P ℕ := do
  passert (addrCanonical virt) .addrCanonize
  pure (signExtend virt)

-- The processor only accepts addresses whose upper 17 bits are all equal.
def CpuCanonical (virt : ℕ) : Prop :=
  virt / 2 ^ 47 = 0 ∨ virt / 2 ^ 47 = 2 ^ 17 - 1

instance {virt : ℕ} : Decidable (CpuCanonical virt) :=
  inferInstanceAs (Decidable (_ ∨ _))

-- The index of an address at a level, where the level 0 is the one of the page tables.
def virtIndex (level virt : ℕ) : ℕ :=
  virt / 2 ^ (12 + 9 * level) % 512

-- The assignment of an index.
def virtSet (level i virt : ℕ) : ℕ :=
  virt - virtIndex level virt * 2 ^ (12 + 9 * level) + i * 2 ^ (12 + 9 * level)

-- The assignment at the beginning of an iteration. Only the outermost loop canonizes the address.
def virtAdvance (level i virt : ℕ) : P ℕ :=
  if level = 3 then addrCanonize (virtSet 3 i virt) else pure (virtSet level i virt)

-- A loop of `pagedir_unmap_user` with `n` iterations left. The result is the address, and whether the
-- function returns.
def unmapEntries (entry : (i virt : ℕ) → P (ℕ × Bool)) (level stop : ℕ) : (n i virt : ℕ) → P (ℕ × Bool)
  | 0, _, virt     => pure (virt, false)
  | n + 1, i, virt =>
    if ¬virt < stop then
      pure (virt, false)
    else do
      let virt ← virtAdvance level i virt
      if stop ≤ virt then
        pure (virt, true)
      else
        let (virt, done) ← entry i virt
        if done then
          pure (virt, true)
        else
          unmapEntries entry level stop n (i + 1) virt

-- The indices below a level are set to 0.
def virtClear : (level virt : ℕ) → ℕ
  | 0, virt         => virt
  | level + 1, virt => virtClear level (virtSet level 0 virt)

-- `pe.present = 0`
def Pe.withoutPresent (pe : Pe) : Pe :=
  pe - pe % 2

-- The part of an iteration after the address was set, for the levels from the innermost loop on.
def pagedirUnmapEntry (stop : ℕ) : (level table i virt : ℕ) → P (ℕ × Bool)
  | 0, table, i, virt         => do
    let pe := peAt (← get).mem table i
    if pe.present then
      if pe.user then
        pageFree (addrExtract pe) 1
        setPe table i pe.withoutPresent
    pure (virt, false)
  | level + 1, table, i, virt => do
    let pe := peAt (← get).mem table i
    if ¬pe.present then
      pure (virtClear (level + 1) virt, false)
    else
      passert (¬pe.large) .pagedirUnmapLarge
      let start := virtIndex level virt
      let (virt, done) ← unmapEntries (pagedirUnmapEntry stop level (addrExtract pe)) level stop
        (512 - start) start virt
      if done then
        pure (virt, true)
      else
        pure (virtSet level 0 virt, false)

def pagedirUnmapUser (d virt len : ℕ) : P Unit := do
  let stop ← addrCanonize ((virt + len) % 2 ^ 64)
  let virt := virt - virt % PAGE_SIZE
  let start := virtIndex 3 virt
  discard <| unmapEntries (pagedirUnmapEntry stop 3 d) 3 stop (512 - start) start virt

-- The user's pages with the numbers in `R` are gone, and their frames are free. Nothing else has
-- changed in the tables, and no other frame was freed.
structure Unmapped (s : Phys) (d : ℕ) (R : Set ℕ) (t : Phys) : Prop where
  base  : t.pbitmap = s.pbitmap
  len   : t.pbitmapLen = s.pbitmapLen
  upper : SameTables s.mem t.mem d
  gone  : ∀ n < 512 ^ 4, n ∈ R → ∀ pe, pageAt s.mem d n = some pe → pe.user →
    pteAt t.mem d n = some pe.withoutPresent
  kept  : ∀ n < 512 ^ 4, (n ∈ R → ∀ pe, pageAt s.mem d n = some pe → ¬pe.user) →
    pteAt t.mem d n = pteAt s.mem d n
  freed : ∀ i, t.bitmap.get i = true ↔ s.bitmap.get i = true ∧ ∀ n < 512 ^ 4, n ∈ R →
    ∀ pe, pageAt s.mem d n = some pe → pe.user → addrExtract pe ≠ s.page i

section Entry

variable {pe : Pe} {s t u : Phys} {d n a i : ℕ} {R Q : Set ℕ} {E : Fault → Prop}

@[simp]
theorem present_withoutPresent : pe.withoutPresent.present = false := by
  have h (w : ℕ) : (w - w % 2).testBit 0 = false := by
    rw [Nat.testBit_zero, decide_eq_false_iff_not]
    omega
  exact h pe

theorem withoutPresent_lt (h : pe < 256 ^ 8) : pe.withoutPresent < 256 ^ 8 :=
  (Nat.sub_le _ _).trans_lt h

namespace Unmapped

theorem refl : Unmapped s d ∅ s where
  base        := rfl
  len         := rfl
  upper       := fun _ _ _ _ _ _ _ _ => rfl
  gone _ _ h  := absurd h (Set.notMem_empty _)
  kept _ _ _  := rfl
  freed _     := by simp

-- Pages which are not the user's do not count.
theorem congr (h : Unmapped s d R t) (hR : ∀ n < 512 ^ 4, ∀ pe, pageAt s.mem d n = some pe → pe.user →
    (n ∈ R ↔ n ∈ Q)) : Unmapped s d Q t where
  base  := h.base
  len   := h.len
  upper := h.upper
  gone n hn hq pe hpe hu := h.gone n hn ((hR n hn pe hpe hu).mpr hq) pe hpe hu
  kept n hn hq := h.kept n hn fun hr pe hpe hu => hq ((hR n hn pe hpe hu).mp hr) pe hpe hu
  freed i := by
    rw [h.freed]
    refine and_congr_right fun _ => forall_congr' fun n => forall_congr' fun hn => ?_
    exact ⟨fun hi hq pe hpe hu => hi ((hR n hn pe hpe hu).mpr hq) pe hpe hu,
      fun hi hr pe hpe hu => hi ((hR n hn pe hpe hu).mp hr) pe hpe hu⟩

theorem page_eq (h : Unmapped s d R t) : t.page i = s.page i := by
  simp [Phys.page, h.base]

-- The pages which are left.
theorem pageAt_iff (h : Unmapped s d R t) (hn : n < 512 ^ 4) :
    pageAt t.mem d n = some pe ↔ pageAt s.mem d n = some pe ∧ (n ∈ R → ¬pe.user) := by
  by_cases hx : n ∈ R ∧ ∃ pe, pageAt s.mem d n = some pe ∧ pe.user
  case pos =>
    obtain ⟨hr, pe', hpe', hu'⟩ := hx
    rw [pageAt_some, h.gone n hn hr pe' hpe' hu', hpe']
    refine ⟨fun ⟨heq, hp⟩ => ?_, fun ⟨heq, hnu⟩ => ?_⟩
    · rw [← Option.some_inj.mp heq] at hp
      simp at hp
    · exact absurd (Option.some_inj.mp heq ▸ hu') (hnu hr)
  case neg =>
    push Not at hx
    have hk := h.kept n hn fun hr pe hpe => hx hr pe hpe
    rw [pageAt, hk]
    exact ⟨fun hpe => ⟨hpe, fun hr => hx hr pe hpe⟩, fun hpe => hpe.1⟩

theorem trans (h : Unmapped s d R u) (h' : Unmapped u d Q t) : Unmapped s d (R ∪ Q) t where
  base  := h'.base.trans h.base
  len   := h'.len.trans h.len
  upper k hk N hN a ha i hi := by
    rw [h'.upper k hk N hN a (by rwa [h.upper.tableAt hk.le hN]) i hi, h.upper k hk N hN a ha i hi]
  gone n hn hr pe hpe hu := by
    by_cases hR : n ∈ R
    case pos =>
      have hgone := h.gone n hn hR pe hpe hu
      rw [h'.kept n hn fun _ pe' hpe' => ?_, hgone]
      rw [pageAt_some, hgone] at hpe'
      rw [← Option.some_inj.mp hpe'.1] at hpe'
      simp at hpe'
    case neg =>
      exact h'.gone n hn (hr.resolve_left hR) pe ((h.pageAt_iff hn).mpr ⟨hpe, fun hr => absurd hr hR⟩) hu
  kept n hn hr := by
    rw [h'.kept n hn fun hq pe hpe => hr (.inr hq) pe ((h.pageAt_iff hn).mp hpe).1]
    exact h.kept n hn fun hR => hr (.inl hR)
  freed i := by
    rw [h'.freed, h.freed, h.page_eq]
    refine ⟨fun ⟨⟨hb, h₁⟩, h₂⟩ => ⟨hb, fun n hn hr pe hpe hu => ?_⟩, fun ⟨hb, h₁⟩ => ⟨⟨hb, ?_⟩, ?_⟩⟩
    · by_cases hR : n ∈ R
      case pos => exact h₁ n hn hR pe hpe hu
      case neg =>
        exact h₂ n hn (hr.resolve_left hR) pe ((h.pageAt_iff hn).mpr ⟨hpe, fun hr => absurd hr hR⟩) hu
    · exact fun n hn hR => h₁ n hn (.inl hR)
    · exact fun n hn hQ pe hpe => h₁ n hn (.inr hQ) pe ((h.pageAt_iff hn).mp hpe).1

theorem used (h : Unmapped s d R t) (ha : s.Used a)
    (hn : ∀ n < 512 ^ 4, n ∈ R → ∀ pe, pageAt s.mem d n = some pe → pe.user → addrExtract pe ≠ a) :
    t.Used a := by
  have ⟨i, hi, hr, hb⟩ := ha
  subst hi
  exact ⟨i, by rw [h.page_eq], by rw [h.len]; exact hr, (h.freed i).mpr ⟨hb, hn⟩⟩

-- What is left is a directory again.
theorem dir (h : Unmapped s d R t) (hd : Dir s d) : Dir t d := by
  refine hd.of_same ⟨by rw [h.base]; exact hd.pool.aligned, ?_⟩ h.upper ?_ ?_
  · rw [h.page_eq, h.len]
    exact hd.pool.fits
  · intro k hk N hN a ha
    refine h.used (hd.table k hk N hN a ha) fun n hn _ pe hpe hu heq => ?_
    exact (hd.frame n hn pe hpe hu).2 k hk N hN (heq ▸ ha)
  · intro n hn pe hpe hu
    have ⟨hold, hR⟩ := (h.pageAt_iff hn).mp hpe
    refine ⟨hold, h.used (hd.frame n hn pe hold hu).1 fun n' hn' hr' pe' hpe' hu' heq => ?_⟩
    have := hd.once n hn n' hn' pe pe' hold hpe' hu hu' heq
    subst this
    exact hR hr' hu

end Unmapped

-- One page is unmapped.
theorem unmap_page (h : Dir s d) (hn : n < 512 ^ 4) (ha : tableAt s.mem d 3 (n / 512) = some a)
    (hpe : peAt s.mem a (n % 512) = pe) (hp : pe.present) (hu : pe.user) :
    wp (do pageFree (addrExtract pe) 1; setPe a (n % 512) pe.withoutPresent)
      (fun _ => Unmapped s d {n}) E s := by
  have hpage : pageAt s.mem d n = some pe := by
    rw [pageAt_some, pteAt, ha, Option.map_some, hpe]
    exact ⟨rfl, hp⟩
  have hw : pe.withoutPresent < 256 ^ 8 := withoutPresent_lt (hpe ▸ peAt_lt)
  rw [wp_bind]
  refine wp_post (pageFree_released (h.frame n hn pe hpage hu).1) fun _ u hr => ?_
  rw [wp_setPe]
  have hmem := hr.mem
  have hone {n' : ℕ} (hn' : n' < 512 ^ 4) := h.pteAt_store hn ha hw hn'
  refine ⟨hr.base, hr.len, ?_, ?_, ?_, fun i => ?_⟩
  · simp only [hmem]
    exact h.sameTables_store (div_lt_of_page hn) (Nat.mod_lt _ (by decide)) ha
  · rintro n' hn' rfl pe' hpe' _
    simp only [hmem, hone hn', if_true]
    rw [Option.some_inj.mp (hpage.symm.trans hpe')]
  · intro n' hn' hk
    simp only [hmem, hone hn']
    refine if_neg fun heq => ?_
    exact hk heq pe (heq ▸ hpage) hu
  · simp only [hr.bits, Bool.and_eq_true, Bool.not_eq_true', decide_eq_false_iff_not,
      List.mem_singleton]
    refine and_congr_right fun _ => ⟨fun hne n' _ heq pe' hpe' _ hi => hne ?_, fun hi hne => ?_⟩
    · rw [Set.mem_singleton_iff.mp heq, hpage] at hpe'
      rw [← hi, Option.some_inj.mp hpe']
    · exact hi n hn (Set.mem_singleton n) pe hpage hu hne.symm

end Entry

-- The address of the page with the number `n`, as the processor wants to have it.
def pageAddr (n : ℕ) : ℕ :=
  signExtend (n * PAGE_SIZE)

section Address

variable {n n' N i j k r level e : ℕ}

theorem pageAddr_eq (hn : n < 512 ^ 4) :
    pageAddr n = if n < 2 ^ 35 then n * 4096 else 2 ^ 64 - 2 ^ 48 + n * 4096 := by
  rw [pageAddr, signExtend, PAGE_SIZE]
  by_cases h : n < 2 ^ 35
  case pos => rw [if_pos h, if_neg (by omega), Nat.mod_eq_of_lt (by omega)]
  case neg => rw [if_neg h, if_pos (by omega), Nat.mod_eq_of_lt (by omega)]

theorem pageOf_pageAddr (hn : n < 512 ^ 4) : pageOf (pageAddr n) = n ∧ pageAddr n % PAGE_SIZE = 0 := by
  rw [pageAddr_eq hn]
  simp only [pageOf, PAGE_SIZE]
  split_ifs <;> omega

-- The order of the addresses is the one of the numbers.
theorem pageAddr_lt_signExtend (hn : n < 512 ^ 4) :
    pageAddr n < signExtend e ↔ n < (e % 2 ^ 48 + (PAGE_SIZE - 1)) / PAGE_SIZE := by
  rw [pageAddr_eq hn]
  simp only [signExtend, PAGE_SIZE]
  split_ifs <;> omega

-- The number of a page which lies below an entry of a table at the depth `k`.
theorem page_lt (hk : k + level = 3) (hN : N < 512 ^ k) (hi : i < 512) (hr : r < 512 ^ level) :
    (N * 512 + i) * 512 ^ level + r < 512 ^ 4 := by
  obtain ⟨rfl, rfl⟩ | ⟨rfl, rfl⟩ | ⟨rfl, rfl⟩ | ⟨rfl, rfl⟩ : k = 3 ∧ level = 0 ∨ k = 2 ∧ level = 1 ∨
    k = 1 ∧ level = 2 ∨ k = 0 ∧ level = 3 := by omega
  all_goals omega

theorem virtIndex_pageAddr (hk : k + level = 3) (hN : N < 512 ^ k) (hi : i < 512)
    (hr : r < 512 ^ level) : virtIndex level (pageAddr ((N * 512 + i) * 512 ^ level + r)) = i := by
  rw [pageAddr_eq (page_lt hk hN hi hr), virtIndex]
  obtain ⟨rfl, rfl⟩ | ⟨rfl, rfl⟩ | ⟨rfl, rfl⟩ | ⟨rfl, rfl⟩ : k = 3 ∧ level = 0 ∨ k = 2 ∧ level = 1 ∨
    k = 1 ∧ level = 2 ∨ k = 0 ∧ level = 3 := by omega
  all_goals
    split
    all_goals omega

-- Below the top level, the assignment of an index leads to another page.
theorem virtSet_pageAddr (hk : k + level = 3) (hl : level < 3) (hN : N < 512 ^ k) (hi : i < 512)
    (hj : j < 512) (hr : r < 512 ^ level) :
    virtSet level j (pageAddr ((N * 512 + i) * 512 ^ level + r)) =
      pageAddr ((N * 512 + j) * 512 ^ level + r) := by
  rw [virtSet, virtIndex_pageAddr hk hN hi hr, pageAddr_eq (page_lt hk hN hi hr),
    pageAddr_eq (page_lt hk hN hj hr)]
  obtain ⟨rfl, rfl⟩ | ⟨rfl, rfl⟩ | ⟨rfl, rfl⟩ : k = 3 ∧ level = 0 ∨ k = 2 ∧ level = 1 ∨
    k = 1 ∧ level = 2 := by omega
  all_goals
    split_ifs
    all_goals omega

theorem top_page_lt (hi : i < 512) (hr : r < 512 ^ 3) : i * 512 ^ 3 + r < 512 ^ 4 := by
  omega

-- At the top level, the address is canonized after the assignment. It may enter the upper half.
theorem addrCanonize_pageAddr (hi : i < 512) (hj : j < 512) (hr : r < 512 ^ 3) :
    addrCanonize (virtSet 3 j (pageAddr (i * 512 ^ 3 + r))) = pure (pageAddr (j * 512 ^ 3 + r)) := by
  have hn := top_page_lt hi hr
  have hm := top_page_lt hj hr
  have hset : virtSet 3 j (pageAddr (i * 512 ^ 3 + r)) = (if i * 512 ^ 3 + r < 2 ^ 35 then 0 else
      2 ^ 64 - 2 ^ 48) + (j * 512 ^ 3 + r) * 4096 := by
    have hidx : virtIndex 3 (pageAddr (i * 512 ^ 3 + r)) = i := by
      have : virtIndex 3 (pageAddr ((0 * 512 + i) * 512 ^ 3 + r)) = i :=
        virtIndex_pageAddr (k := 0) rfl Nat.one_pos hi hr
      rwa [Nat.zero_mul, Nat.zero_add] at this
    rw [virtSet, hidx, pageAddr_eq hn]
    split_ifs <;> omega
  have hcanon : addrCanonical (virtSet 3 j (pageAddr (i * 512 ^ 3 + r))) = true := by
    rw [hset, addrCanonical, decide_eq_true_eq]
    split_ifs <;> omega
  have hext : signExtend (virtSet 3 j (pageAddr (i * 512 ^ 3 + r))) = pageAddr (j * 512 ^ 3 + r) := by
    rw [hset, signExtend, pageAddr_eq hm]
    by_cases h : j * 512 ^ 3 + r < 2 ^ 35
    case pos =>
      rw [if_pos h, if_neg (by split <;> omega)]
      split <;> omega
    case neg =>
      rw [if_neg h, if_pos (by split <;> omega)]
      split <;> omega
  rw [addrCanonize, passert, if_pos hcanon, hext]
  rfl

theorem virtAdvance_pageAddr (hk : k + level = 3) (hN : N < 512 ^ k) (hi : i < 512) (hj : j < 512)
    (hr : r < 512 ^ level) : virtAdvance level j (pageAddr ((N * 512 + i) * 512 ^ level + r)) =
      pure (pageAddr ((N * 512 + j) * 512 ^ level + r)) := by
  rw [virtAdvance]
  by_cases hl : level = 3
  case neg => rw [if_neg hl, virtSet_pageAddr hk (by omega) hN hi hj hr]
  case pos =>
    subst hl
    obtain rfl : k = 0 := by omega
    obtain rfl : N = 0 := by omega
    rw [if_pos rfl, Nat.zero_mul, Nat.zero_add, Nat.zero_add]
    exact addrCanonize_pageAddr hi hj hr

end Address

-- A part of the work was done from the page `n` on, and it ended before the page `e` or before the
-- page `hi`, which is the first one that is not to be unmapped.
structure Progress (s : Phys) (d n hi e last : ℕ) (x : ℕ × Bool) (t : Phys) : Prop where
  unmapped : Unmapped s d (Set.Ico n (min hi e)) t
  done     : x.2 = true → hi ≤ e
  next     : x.2 = false → x.1 = pageAddr last

section Loop

variable {s t u : Phys} {d n k N i M level stop hi table virt W : ℕ} {E : Fault → Prop}

theorem Unmapped.tableAt (h : Unmapped s d R t) (hk : k ≤ 3) (hN : N < 512 ^ k) :
    Camellia.tableAt t.mem d k N = Camellia.tableAt s.mem d k N :=
  h.upper.tableAt hk hN

-- What an iteration does after the address was set, if its entry is the one with the number `M` of
-- all entries at its depth.
def UnmapsEntry (d k level stop hi table N : ℕ) (E : Fault → Prop) : Prop :=
  ∀ s i n, Dir s d → tableAt s.mem d k N = some table → i < 512 →
    n / 512 ^ level = N * 512 + i → n < hi →
    wp (pagedirUnmapEntry stop level table i (pageAddr n))
      (Progress s d n hi ((N * 512 + i + 1) * 512 ^ level) ((N * 512 + i) * 512 ^ level)) E s

theorem unmapEntries_progress {count : ℕ} (hk : k + level = 3) (hN : N < 512 ^ k)
    (hstop : ∀ n < 512 ^ 4, pageAddr n < stop ↔ n < hi)
    (hentry : UnmapsEntry d k level stop hi table N E) (hd : Dir s d)
    (ht : tableAt s.mem d k N = some table) (hi' : i < 512) (hcount : count + i = 512)
    (hadv : virtAdvance level i virt = pure (pageAddr n)) (hn : n / 512 ^ level = N * 512 + i)
    (hlt : virt < stop) :
    wp (unmapEntries (pagedirUnmapEntry stop level table) level stop count i virt)
      (Progress s d n hi ((N * 512 + 512) * 512 ^ level) ((N * 512 + 511) * 512 ^ level)) E s := by
  have hW : 0 < 512 ^ level := Nat.pow_pos (by decide)
  induction count generalizing s i virt n
  case zero => omega
  case succ count hind =>
    have hlo : (N * 512 + i) * 512 ^ level ≤ n := hn ▸ Nat.div_mul_le_self _ _
    have hup : n < (N * 512 + i + 1) * 512 ^ level := by
      rw [← hn, Nat.mul_comm]
      exact Nat.lt_mul_div_succ n hW
    have hmono : (N * 512 + i + 1) * 512 ^ level ≤ (N * 512 + 512) * 512 ^ level :=
      Nat.mul_le_mul_right _ (by omega)
    have hnlt : n < 512 ^ 4 := by
      have := page_lt hk hN hi' (r := n % 512 ^ level) (Nat.mod_lt _ hW)
      rwa [← hn, Nat.div_add_mod'] at this
    simp only [unmapEntries, hlt, not_true_eq_false, if_false, hadv, pure_bind, wp_ite, wp_pure]
    refine ⟨fun hge => ?_, fun hnot => ?_⟩
    · have hhi : hi ≤ n := by
        by_contra hlt
        have := (hstop n hnlt).mpr (by omega)
        omega
      refine ⟨Unmapped.refl.congr fun m _ _ _ _ => ?_, fun _ => by omega, fun h => by cases h⟩
      simp only [Set.mem_empty_iff_false, Set.mem_Ico, false_iff]
      omega
    · have hnhi : n < hi := (hstop n hnlt).mp (by omega)
      rw [wp_bind]
      refine wp_post (hentry s i n hd ht hi' hn hnhi) ?_
      rintro ⟨v, done⟩ t hp
      cases done
      case true =>
        have hhi : hi ≤ (N * 512 + i + 1) * 512 ^ level := hp.done rfl
        simp only [if_true, wp_pure]
        refine ⟨?_, fun _ => hhi.trans hmono, fun h => by cases h⟩
        rw [min_eq_left (hhi.trans hmono)]
        rw [← min_eq_left hhi]
        exact hp.unmapped
      case false =>
        have hv : v = pageAddr ((N * 512 + i) * 512 ^ level) := hp.next rfl
        simp only [Bool.false_eq_true, if_false]
        by_cases hlast : i + 1 = 512
        case pos =>
          obtain rfl : count = 0 := by omega
          obtain rfl : i = 511 := by omega
          simp only [unmapEntries, wp_pure]
          exact ⟨hp.unmapped, (fun h => by cases h), fun _ => hv⟩
        case neg =>
          have hvlt : v < stop := by
            rw [hv]
            exact (hstop _ (by omega)).mpr (by omega)
          have hnext : virtAdvance level (i + 1) v = pure (pageAddr ((N * 512 + (i + 1)) * 512 ^ level)) := by
            have := virtAdvance_pageAddr hk hN hi' (j := i + 1) (r := 0) (by omega) hW
            rwa [hv]
          have hdt := hp.unmapped.dir hd
          have htt : Camellia.tableAt t.mem d k N = some table := by
            rw [hp.unmapped.tableAt (by omega) hN, ht]
          refine wp_post (hind hdt htt (by omega) (by omega) hnext (Nat.mul_div_cancel _ hW) hvlt) ?_
          intro x w hq
          refine ⟨(hp.unmapped.trans hq.unmapped).congr fun m _ _ _ _ => ?_, hq.done, hq.next⟩
          simp only [Set.mem_union, Set.mem_Ico, ← Nat.add_assoc]
          omega

-- The indices below a level are cleared one after the other.
theorem virtClear_pageAddr (hl : level ≤ 3) (hn : n < 512 ^ 4) :
    virtClear level (pageAddr n) = pageAddr (n / 512 ^ level * 512 ^ level) := by
  induction level generalizing n
  case zero => simp [virtClear]
  case succ level hind =>
    have hW : 0 < 512 ^ level := Nat.pow_pos (by decide)
    obtain ⟨k, hk⟩ : ∃ k, k + level = 3 := ⟨3 - level, by omega⟩
    have hdiv : n / 512 ^ (level + 1) = n / 512 ^ level / 512 := by
      rw [Nat.pow_succ, Nat.div_div_eq_div_mul]
    have hN : n / 512 ^ (level + 1) < 512 ^ k := by
      refine Nat.div_lt_of_lt_mul ?_
      rwa [← Nat.pow_add, Nat.add_right_comm, Nat.add_comm level, hk]
    have hsplit : (n / 512 ^ (level + 1) * 512 + n / 512 ^ level % 512) * 512 ^ level +
        n % 512 ^ level = n := by
      rw [hdiv, Nat.div_add_mod', Nat.div_add_mod']
    have hset := virtSet_pageAddr hk (by omega) hN (i := n / 512 ^ level % 512)
      (Nat.mod_lt _ (by decide)) (j := 0) (by decide) (Nat.mod_lt n hW)
    rw [hsplit, Nat.add_zero] at hset
    have hlt := page_lt hk hN (i := 0) (by decide) (Nat.mod_lt n hW)
    rw [Nat.add_zero] at hlt
    have hquot : (n / 512 ^ (level + 1) * 512 * 512 ^ level + n % 512 ^ level) / 512 ^ level =
        n / 512 ^ (level + 1) * 512 := by
      rw [Nat.mul_comm _ (512 ^ level), Nat.mul_add_div hW, Nat.div_eq_of_lt (Nat.mod_lt n hW),
        Nat.add_zero]
    rw [virtClear, hset, hind (by omega) hlt, hquot, Nat.mul_assoc, ← Nat.pow_succ']

theorem unmapsEntry_zero (hN : N < 512 ^ 3) : UnmapsEntry d 3 0 stop hi table N E := by
  intro s i n hd ht hi' hn hlt
  have hnN : n = N * 512 + i := by simpa using hn
  have hdiv : n / 512 = N := by omega
  have hmod : n % 512 = i := by omega
  have hn4 : n < 512 ^ 4 := by omega
  have hrange : Set.Ico n (min hi ((N * 512 + i + 1) * 512 ^ 0)) = {n} := by
    ext m
    simp only [Set.mem_Ico, Set.mem_singleton_iff]
    omega
  have hpost {t : Phys} (h : Unmapped s d {n} t) : Progress s d n hi ((N * 512 + i + 1) * 512 ^ 0)
      ((N * 512 + i) * 512 ^ 0) (pageAddr n, false) t :=
    ⟨by rwa [hrange], fun h => (nomatch h), fun _ => by simp [hnN]⟩
  simp only [pagedirUnmapEntry, wp_bind, wp_get]
  by_cases hx : (peAt s.mem table i).present ∧ (peAt s.mem table i).user
  case pos =>
    have := unmap_page (E := E) hd hn4 (by rwa [hdiv]) (by rw [hmod]) hx.1 hx.2
    simp only [hx, if_true, wp_bind]
    rw [wp_bind, hmod] at this
    refine wp_post this fun _ u hu => ?_
    rw [wp_bind]
    refine wp_post hu fun _ t ht => ?_
    rw [wp_pure]
    exact hpost ht
  case neg =>
    have hnone : Unmapped s d {n} s := by
      refine Unmapped.refl.congr fun m hm pe hpe hu => ?_
      simp only [Set.mem_empty_iff_false, Set.mem_singleton_iff, false_iff]
      rintro rfl
      obtain ⟨hpte, hp⟩ := pageAt_some.mp hpe
      rw [pteAt, hdiv, ht, hmod, Option.map_some] at hpte
      rw [Option.some_inj.mp hpte] at hx
      exact hx ⟨hp, hu⟩
    by_cases hp : (peAt s.mem table i).present
    case neg =>
      simp only [hp, Bool.false_eq_true, if_false, wp_pure]
      exact hpost hnone
    case pos =>
      have hu : ¬(peAt s.mem table i).user := fun hu => hx ⟨hp, hu⟩
      simp only [hp, hu, if_true, Bool.false_eq_true, if_false, wp_pure]
      exact hpost hnone

-- The pages below an entry which is not present.
theorem pageAt_absent (hi' : i < 512) (ht : Camellia.tableAt s.mem d k N = some table)
    (hp : ¬(peAt s.mem table i).present) (hk : k + level + 1 = 3)
    (hn : n / 512 ^ (level + 1) = N * 512 + i) : pageAt s.mem d n = none := by
  have hnone : Camellia.tableAt s.mem d (k + 1) (n / 512 / 512 ^ level) = none := by
    rw [Nat.div_div_eq_div_mul, ← Nat.pow_succ', hn, tableAt_child hi', ht, Option.bind_some,
      tableChild, if_neg hp]
  have hpt : Camellia.tableAt s.mem d (k + 1 + level) (n / 512) = none := Radix.node_none hnone
  rw [show k + 1 + level = 3 by omega] at hpt
  rw [pageAt, pteAt, hpt]
  rfl

theorem unmapsEntry_succ (hk : k + (level + 1) = 3) (hN : N < 512 ^ k)
    (hstop : ∀ n < 512 ^ 4, pageAddr n < stop ↔ n < hi)
    (hentry : ∀ N < 512 ^ (k + 1), ∀ table, UnmapsEntry d (k + 1) level stop hi table N E) :
    UnmapsEntry d k (level + 1) stop hi table N E := by
  intro s i n hd ht hi' hn hlt
  have hW : 0 < 512 ^ level := Nat.pow_pos (by decide)
  have hlow : n % 512 ^ (level + 1) < 512 ^ (level + 1) := Nat.mod_lt _ (Nat.pow_pos (by decide))
  have hn4 : n < 512 ^ 4 := by
    have := page_lt hk hN hi' hlow
    rwa [← hn, Nat.div_add_mod'] at this
  simp only [pagedirUnmapEntry, wp_bind, wp_get]
  by_cases hp : (peAt s.mem table i).present
  case neg =>
    simp only [hp, Bool.false_eq_true, not_false_eq_true, if_true, wp_pure]
    refine ⟨Unmapped.refl.congr fun m hm pe hpe _ => ?_, (fun h => by cases h), fun _ => ?_⟩
    · simp only [Set.mem_empty_iff_false, Set.mem_Ico, false_iff]
      rintro ⟨hnm, hmin⟩
      have hdiv : m / 512 ^ (level + 1) = N * 512 + i := by
        refine le_antisymm ?_ (hn ▸ Nat.div_le_div_right hnm)
        have hlt : m < 512 ^ (level + 1) * (N * 512 + i + 1) := by
          rw [Nat.mul_comm]
          exact hmin.trans_le (min_le_right _ _)
        exact Nat.lt_succ_iff.mp (Nat.div_lt_of_lt_mul hlt)
      rw [pageAt_absent hi' ht hp (by omega) hdiv] at hpe
      cases hpe
    · rw [virtClear_pageAddr (by omega) hn4, hn]
  case pos =>
    have hlarge := hd.small k (by omega) N hN table ht i hi' hp
    have hchild : Camellia.tableAt s.mem d (k + 1) (N * 512 + i) = some (addrExtract (peAt s.mem table i)) := by
      rw [tableAt_child hi', ht, Option.bind_some, tableChild, if_pos hp]
    have hN' : N * 512 + i < 512 ^ (k + 1) := by
      rw [Nat.pow_succ]
      omega
    have hj : n / 512 ^ level % 512 < 512 := Nat.mod_lt _ (by decide)
    have hdiv : n / 512 ^ level = (N * 512 + i) * 512 + n / 512 ^ level % 512 := by
      rw [← hn, Nat.pow_succ, ← Nat.div_div_eq_div_mul, Nat.div_add_mod']
    have hsplit : ((N * 512 + i) * 512 + n / 512 ^ level % 512) * 512 ^ level + n % 512 ^ level = n := by
      rw [← hdiv, Nat.div_add_mod']
    have hindex : virtIndex level (pageAddr n) = n / 512 ^ level % 512 := by
      have := virtIndex_pageAddr (k := k + 1) (by omega) hN' hj (Nat.mod_lt n hW)
      rwa [hsplit] at this
    have hadv : virtAdvance level (n / 512 ^ level % 512) (pageAddr n) = pure (pageAddr n) := by
      have := virtAdvance_pageAddr (k := k + 1) (by omega) hN' hj hj (Nat.mod_lt n hW)
      rwa [hsplit] at this
    simp only [hp, not_true_eq_false, if_false, hlarge, Bool.false_eq_true, not_false_eq_true,
      wp_bind, wp_passert, forall_const, false_implies, and_true, hindex]
    refine wp_post (unmapEntries_progress (by omega) hN' hstop (hentry _ hN' _) hd hchild hj
      (by omega) hadv hdiv ((hstop n hn4).mpr hlt)) ?_
    rintro ⟨v, done⟩ t hq
    have hend : (N * 512 + i + 1) * 512 ^ (level + 1) = ((N * 512 + i) * 512 + 512) * 512 ^ level := by
      rw [Nat.pow_succ', ← Nat.mul_assoc, Nat.add_mul _ 1, Nat.one_mul]
    cases done
    case true =>
      simp only [if_true, wp_pure, hend]
      exact ⟨hq.unmapped, fun _ => hq.done rfl, fun h => by cases h⟩
    case false =>
      simp only [Bool.false_eq_true, if_false, wp_pure, hend]
      refine ⟨hq.unmapped, (fun h => by cases h), fun _ => ?_⟩
      have hset := virtSet_pageAddr (k := k + 1) (by omega) (by omega) hN' (i := 511) (by decide)
        (j := 0) (by decide) hW
      simp only [Nat.add_zero] at hset
      have hv : v = pageAddr (((N * 512 + i) * 512 + 511) * 512 ^ level) := hq.next rfl
      rw [hv, hset, Nat.pow_succ', Nat.mul_assoc]

theorem unmapsEntry (hk : k + level = 3) (hN : N < 512 ^ k)
    (hstop : ∀ n < 512 ^ 4, pageAddr n < stop ↔ n < hi) :
    UnmapsEntry d k level stop hi table N E := by
  induction level generalizing k N table
  case zero =>
    obtain rfl : k = 3 := hk
    exact unmapsEntry_zero hN
  case succ level hind =>
    exact unmapsEntry_succ hk hN hstop fun _ hM _ => hind (by omega) hM

-- The number of the first page which is not below the end.
def stopPage (e : ℕ) : ℕ :=
  (e % 2 ^ 48 + (PAGE_SIZE - 1)) / PAGE_SIZE

theorem stopPage_le {e : ℕ} : stopPage e ≤ 512 ^ 4 := by
  simp only [stopPage, PAGE_SIZE]
  omega

-- The assignment of the index which an address already has.
theorem virtSet_virtIndex : virtSet level (virtIndex level virt) virt = virt := by
  have h : virtIndex level virt * 2 ^ (12 + 9 * level) ≤ virt :=
    (Nat.mul_le_mul_right _ (Nat.mod_le _ _)).trans (Nat.div_mul_le_self _ _)
  rw [virtSet, Nat.sub_add_cancel h]

theorem signExtend_page (ha : virt % PAGE_SIZE = 0) : signExtend virt = pageAddr (pageOf virt) := by
  have hlow : pageOf virt * PAGE_SIZE = virt % 2 ^ 48 := by
    simp only [pageOf, PAGE_SIZE] at ha ⊢
    omega
  have hsign : virt % 2 ^ 48 / 2 ^ 47 % 2 = virt / 2 ^ 47 % 2 := by omega
  rw [pageAddr, hlow, signExtend, signExtend, hsign, Nat.mod_mod]

theorem signExtend_canonical (hv : CpuCanonical virt) : signExtend virt = virt := by
  simp only [CpuCanonical] at hv
  simp only [signExtend]
  split <;> omega

theorem virtIndex_top : virtIndex 3 virt = pageOf virt / 512 ^ 3 := by
  simp only [virtIndex, pageOf, PAGE_SIZE]
  omega

-- What `pagedir_unmap_user` does for any address, after it was aligned, and for any end.
theorem pagedirUnmapUser_wp (virt len : ℕ) (hd : Dir s d) :
    wp (pagedirUnmapUser d virt len) (fun _ t =>
        if virt - virt % PAGE_SIZE < signExtend ((virt + len) % 2 ^ 64) then
          addrCanonical (virt - virt % PAGE_SIZE) ∧
            Unmapped s d (Set.Ico (pageOf virt) (stopPage ((virt + len) % 2 ^ 64))) t
        else
          t = s)
      (fun e => e = .assert .addrCanonize ∧ (addrCanonical ((virt + len) % 2 ^ 64) →
        ¬addrCanonical (virt - virt % PAGE_SIZE) ∧
          virt - virt % PAGE_SIZE < signExtend ((virt + len) % 2 ^ 64))) s := by
  have ha : (virt - virt % PAGE_SIZE) % PAGE_SIZE = 0 := by
    simp only [PAGE_SIZE]
    omega
  have hpage : pageOf virt = pageOf (virt - virt % PAGE_SIZE) := by
    simp only [pageOf, PAGE_SIZE]
    omega
  rw [hpage]
  simp only [pagedirUnmapUser, addrCanonize, wp_bind, wp_passert, wp_pure, wp_discard]
  refine ⟨fun hc => ?_, fun hc => ⟨trivial, fun h => absurd h hc⟩⟩
  generalize hstop : signExtend ((virt + len) % 2 ^ 64) = stop
  generalize hend : (virt + len) % 2 ^ 64 = e at hstop hc ⊢
  generalize virt - virt % PAGE_SIZE = virt at ha
  have hidx : virtIndex 3 virt < 512 := Nat.mod_lt _ (by decide)
  by_cases hlt : virt < stop
  case neg =>
    obtain ⟨n, hn⟩ : ∃ n, 512 - virtIndex 3 virt = n + 1 := ⟨511 - virtIndex 3 virt, by omega⟩
    simp only [hn, unmapEntries, hlt, not_false_eq_true, if_true, if_false, wp_pure]
  case pos =>
    by_cases hv : addrCanonical virt
    case neg =>
      obtain ⟨n, hn⟩ : ∃ n, 512 - virtIndex 3 virt = n + 1 := ⟨511 - virtIndex 3 virt, by omega⟩
      simp only [hn, unmapEntries, hlt, not_true_eq_false, if_false, virtAdvance, if_true, virtSet_virtIndex,
        addrCanonize, wp_bind, wp_passert, hv, false_implies, Bool.false_eq_true,
        not_false_eq_true, and_self, forall_const, implies_true]
    case pos =>
      have hadv : virtAdvance 3 (virtIndex 3 virt) virt = pure (pageAddr (pageOf virt)) := by
        rw [virtAdvance, if_pos rfl, virtSet_virtIndex, addrCanonize, passert, if_pos hv,
          signExtend_page ha]
        rfl
      have hstop (n : ℕ) (hn : n < 512 ^ 4) : pageAddr n < stop ↔ n < stopPage e := by
        rw [← hstop]
        exact pageAddr_lt_signExtend hn
      simp only [hlt, if_true]
      refine wp_post (unmapEntries_progress (k := 0) (N := 0) rfl Nat.one_pos hstop
        (unmapsEntry rfl Nat.one_pos hstop) hd tableAt_zero hidx (by omega) hadv ?_ hlt) ?_
      · rw [virtIndex_top, Nat.zero_mul, Nat.zero_add]
      · rintro x t hp
        have hu := hp.unmapped
        rw [Nat.zero_mul, Nat.zero_add, ← Nat.pow_succ', min_eq_left stopPage_le] at hu
        exact ⟨hv, hu⟩

end Loop

-- The numbers of the pages between two addresses: once by all 64 bits of the addresses, and once by
-- the 48 bits which lead through the tables, where the end is canonized first.
def pagesBetween (virt stop : ℕ) : Set ℕ :=
  {n | virt ≤ pageAddr n ∧ pageAddr n < stop}

def pagesVisited (virt stop : ℕ) : Set ℕ :=
  {n | virt < signExtend stop ∧ pageOf virt ≤ n ∧ n < stopPage stop}

-- The user's pages between the addresses are unmapped, and nothing else happens.
def UnmapsExactly (s : Phys) (d virt len : ℕ) : Prop :=
  ∃ t, pagedirUnmapUser d virt len s = .ok ((), t) ∧ Unmapped s d (pagesBetween virt (virt + len)) t

section Exact

variable {s t : Phys} {d n virt len stop : ℕ} {pe : Pe} {R Q : Set ℕ}

-- The pages which were unmapped are determined by the result.
theorem Unmapped.mem_of_mem (h : Unmapped s d R t) (h' : Unmapped s d Q t) (hn : n < 512 ^ 4)
    (hpe : pageAt s.mem d n = some pe) (hu : pe.user) (hr : n ∈ R) : n ∈ Q := by
  by_contra hq
  have hgone := (h.pageAt_iff hn).not.mpr fun hx => hx.2 hr hu
  exact hgone ((h'.pageAt_iff hn).mpr ⟨hpe, fun hx => absurd hx hq⟩)

-- If both addresses are ones which the processor accepts, then there is no difference.
theorem pagesVisited_canonical (hn : n < 512 ^ 4) (ha : virt % PAGE_SIZE = 0)
    (hv : CpuCanonical virt) (hs : CpuCanonical stop) :
    n ∈ pagesVisited virt stop ↔ n ∈ pagesBetween virt stop := by
  have hext := signExtend_canonical hs
  have hle : pageOf virt ≤ n ↔ virt ≤ pageAddr n := by
    simp only [CpuCanonical, PAGE_SIZE] at hv ha
    rw [pageAddr_eq hn]
    simp only [pageOf, PAGE_SIZE]
    split <;> omega
  have hlt : n < stopPage stop ↔ pageAddr n < stop := by
    have := @pageAddr_lt_signExtend n stop hn
    rw [hext] at this
    exact this.symm
  simp only [pagesVisited, pagesBetween, Set.mem_ofPred_eq, hext, hle, hlt]
  exact ⟨fun h => h.2, fun h => ⟨h.1.trans_lt h.2, h⟩⟩

theorem unmapsExactly_iff (hd : Dir s d) (hv : virt % PAGE_SIZE = 0)
    (hw : virt + len < 2 ^ 64) (hc : addrCanonical (virt + len)) :
    UnmapsExactly s d virt len ↔ (signExtend (virt + len) ≤ virt ∨ addrCanonical virt) ∧
      ∀ n < 512 ^ 4, ∀ pe, pageAt s.mem d n = some pe → pe.user →
        (n ∈ pagesVisited virt (virt + len) ↔ n ∈ pagesBetween virt (virt + len)) := by
  have hmod : (virt + len) % 2 ^ 64 = virt + len := Nat.mod_eq_of_lt hw
  have hwp := pagedirUnmapUser_wp virt len hd
  rw [hmod, hv, Nat.sub_zero] at hwp
  cases hr : pagedirUnmapUser d virt len s
  case error e =>
    have ⟨hnot, hlt⟩ := (wp_of_error hr hwp).2 hc
    refine ⟨fun ⟨t, ht, _⟩ => ?_, fun ⟨hor, _⟩ => ?_⟩
    · rw [hr] at ht
      exact nomatch ht
    · exact absurd (hor.resolve_left (by omega)) hnot
  case ok x =>
    obtain ⟨⟨⟩, t⟩ := x
    have hpost := wp_of_ok hr hwp
    have hvisited : Unmapped s d (pagesVisited virt (virt + len)) t ∧
        (signExtend (virt + len) ≤ virt ∨ addrCanonical virt) := by
      split at hpost
      case isTrue hlt =>
        refine ⟨hpost.2.congr fun n _ _ _ _ => ?_, .inr hpost.1⟩
        simp only [pagesVisited, Set.mem_Ico, Set.mem_ofPred_eq, hlt, true_and]
      case isFalse hlt =>
        subst hpost
        refine ⟨Unmapped.refl.congr fun n _ _ _ _ => ?_, .inl (by omega)⟩
        simp only [pagesVisited, Set.mem_empty_iff_false, Set.mem_ofPred_eq, hlt, false_and]
    refine ⟨fun ⟨t', ht', hu⟩ => ⟨hvisited.2, fun n hn pe hpe huser => ?_⟩, fun ⟨_, hiff⟩ => ?_⟩
    · rw [hr] at ht'
      obtain rfl : t = t' := congrArg Prod.snd (Except.ok.inj ht')
      exact ⟨hvisited.1.mem_of_mem hu hn hpe huser, hu.mem_of_mem hvisited.1 hn hpe huser⟩
    · exact ⟨t, hr, hvisited.1.congr hiff⟩

-- `pagedir_unmap_user` compares some pages by their numbers, and it gives up on addresses which it
-- does not expect. For the addresses which the processor accepts, it does what it should.
theorem pagedirUnmapUser_exact_iff (hd : Dir s d) (hv : virt % PAGE_SIZE = 0)
    (hw : virt + len < 2 ^ 64) (hc : addrCanonical (virt + len)) :
    (UnmapsExactly s d virt len ↔ (signExtend (virt + len) ≤ virt ∨ addrCanonical virt) ∧
      ∀ n < 512 ^ 4, ∀ pe, pageAt s.mem d n = some pe → pe.user →
        (n ∈ pagesVisited virt (virt + len) ↔ n ∈ pagesBetween virt (virt + len))) ∧
    (CpuCanonical virt → CpuCanonical (virt + len) → UnmapsExactly s d virt len) := by
  refine ⟨unmapsExactly_iff hd hv hw hc, fun hcv hce => (unmapsExactly_iff hd hv hw hc).mpr ⟨.inr ?_, ?_⟩⟩
  · simp only [CpuCanonical] at hcv
    simp only [addrCanonical, decide_eq_true_eq]
    omega
  · exact fun n hn _ _ _ => pagesVisited_canonical hn hv hcv hce

-- The tables of `twoPages` lie on one path.
theorem forkState_table {k N a : ℕ} (hk : k ≤ 3) (hN : N < 512 ^ k)
    (h : tableAt forkState.mem 0x1000 k N = some a) : a = 0x1000 * (k + 1) ∧ N = if k = 3 then 1 else 0 := by
  induction k generalizing N a
  case zero => exact ⟨(Option.some_inj.mp h).symm, Nat.lt_one_iff.mp hN⟩
  case succ k hi =>
    obtain ⟨p, hp, hc⟩ := Radix.node_succ h
    obtain ⟨rfl, hN⟩ := hi (by omega) (Nat.div_lt_of_lt_mul (by rwa [← Nat.pow_succ'])) hp
    obtain ⟨hpresent, rfl⟩ := tableChild_some.mp hc
    have hlt : N % 512 < 512 := Nat.mod_lt _ (by decide)
    obtain rfl | rfl | rfl : k = 0 ∨ k = 1 ∨ k = 2 := by omega
    · obtain hzero : N % 512 = 0 := by have := twoPages_present (k := 0x200) hpresent; omega
      rw [hzero]
      exact ⟨by decide, by simp at hN ⊢; omega⟩
    · obtain hzero : N % 512 = 0 := by have := twoPages_present (k := 0x400) hpresent; omega
      rw [hzero]
      exact ⟨by decide, by simp at hN ⊢; omega⟩
    · obtain hone : N % 512 = 1 := by have := twoPages_present (k := 0x600) hpresent; omega
      rw [hone]
      exact ⟨by decide, by simp at hN ⊢; omega⟩

theorem forkState_page (hn : n < 512 ^ 4) (h : pageAt forkState.mem 0x1000 n = some pe) :
    n = 0x200 ∧ pe = 0x5007 ∨ n = 0x201 ∧ pe = 0x8007 := by
  obtain ⟨hpte, hpresent⟩ := pageAt_some.mp h
  obtain ⟨a, ha, rfl⟩ := Option.map_eq_some_iff.mp hpte
  obtain ⟨rfl, hdiv⟩ := forkState_table le_rfl (div_lt_of_page hn) ha
  have := twoPages_present (k := 0x800) hpresent
  have hlt : n % 512 < 512 := Nat.mod_lt _ (by decide)
  rw [if_pos rfl] at hdiv
  obtain hmod | hmod : n % 512 = 0 ∨ n % 512 = 1 := by omega
  · rw [hmod]
    exact .inl ⟨by omega, by decide⟩
  · rw [hmod]
    exact .inr ⟨by omega, by decide⟩

theorem forkState_frames : ∀ a ∈ [0x1000, 0x2000, 0x3000, 0x4000, 0x5000, 0x8000], forkState.Used a :=
  fun a ha => forkState_used a (pagedirPages_twoPages ▸ ha : a ∈ pagedirPages twoPages 0x1000)

theorem forkState_dir : Dir forkState 0x1000 where
  pool := ⟨by decide, by decide⟩
  table k hk N hN a ha := by
    obtain ⟨rfl, -⟩ := forkState_table hk hN ha
    interval_cases k <;> exact forkState_frames _ (by decide)
  unique k hk N hN k' hk' N' hN' a ha ha' := by
    obtain ⟨rfl, rfl⟩ := forkState_table hk hN ha
    obtain ⟨heq, rfl⟩ := forkState_table hk' hN' ha'
    obtain rfl : k' = k := by omega
    exact ⟨rfl, rfl⟩
  small k hk N hN a ha i hi hp := by
    obtain ⟨rfl, -⟩ := forkState_table hk.le hN ha
    obtain rfl | rfl | rfl : k = 0 ∨ k = 1 ∨ k = 2 := by omega
    · rw [show peAt forkState.mem (0x1000 * (0 + 1)) i = 0x2007 from twoPages_pml4 hi hp]
      decide
    · rw [show peAt forkState.mem (0x1000 * (1 + 1)) i = 0x3007 from twoPages_pdpt hi hp]
      decide
    · rw [show peAt forkState.mem (0x1000 * (2 + 1)) i = 0x4007 from twoPages_pd hi hp]
      decide
  frame n hn pe hpe _ := by
    have htable {a : ℕ} (ha : 0x4000 < a) (k : ℕ) (hk : k ≤ 3) (N : ℕ) (hN : N < 512 ^ k) :
        tableAt forkState.mem 0x1000 k N ≠ some a := fun h => by
      have := (forkState_table hk hN h).1
      omega
    obtain ⟨-, rfl⟩ | ⟨-, rfl⟩ := forkState_page hn hpe
    · exact ⟨forkState_frames _ (by decide), htable (by decide)⟩
    · exact ⟨forkState_frames _ (by decide), htable (by decide)⟩
  once n hn n' hn' pe pe' hpe hpe' _ _ heq := by
    obtain ⟨rfl, rfl⟩ | ⟨rfl, rfl⟩ := forkState_page hn hpe
    · obtain ⟨rfl, rfl⟩ | ⟨-, rfl⟩ := forkState_page hn' hpe'
      · rfl
      · exact absurd heq (by decide)
    · obtain ⟨-, rfl⟩ | ⟨rfl, rfl⟩ := forkState_page hn' hpe'
      · exact absurd heq (by decide)
      · rfl

-- Of two pages which lie side by side, the first one is unmapped.
theorem pagedirUnmapUser_exact_twoPages : pageAt forkState.mem 0x1000 0x200 = some 0x5007 ∧
    pageAt forkState.mem 0x1000 0x201 = some 0x8007 ∧ UnmapsExactly forkState 0x1000 0x200000 0x1000 :=
  ⟨by decide, by decide,
    (pagedirUnmapUser_exact_iff forkState_dir (by decide) (by decide) (by decide)).2 (by decide) (by decide)⟩

-- A directory without entries, at 4096.
def bareState : Phys where
  mem        := fun _ => 0
  pbitmap    := 4096
  bitmap     := fun _ => 1
  pbitmapLen := 1

theorem bareState_dir : Dir bareState 4096 := by
  refine Dir.of_empty ⟨by decide, by decide⟩ ⟨0, by decide, by decide, by decide⟩ fun i _ => ?_
  have hzero : peAt bareState.mem 4096 i = 0 := Nat.eq_zero_of_le_zero (by simp [peAt, bareState, Mem.load])
  rw [hzero]
  rfl

-- The assertion fails for the address 2^48, no matter what is mapped.
theorem not_pagedirUnmapUser_exact : ¬∀ s d virt len, Dir s d → virt % PAGE_SIZE = 0 →
    len % PAGE_SIZE = 0 → virt + len < 2 ^ 64 → addrCanonical (virt + len) →
    UnmapsExactly s d virt len := by
  intro h
  have hx := h bareState 4096 (2 ^ 48) (2 ^ 64 - 2 ^ 12 - 2 ^ 48) bareState_dir (by decide) (by decide)
    (by decide) (by decide)
  have := ((unmapsExactly_iff bareState_dir (by decide) (by decide) (by decide)).mp hx).1
  revert this
  decide

end Exact

end Camellia
