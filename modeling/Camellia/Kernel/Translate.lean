import Camellia.Kernel.PagedirMap

namespace Camellia

-- The walk of the processor down the tables, for an access of the user. Every entry on the way has to
-- permit the access.
def cpuWalk (m : Mem) (writeable : Bool) : (table : ℕ) → List ℕ → Option ℕ
  | table, []               => some table
  | table, index :: indices =>
    let pe := peAt m table index
    if pe.permits true writeable then
      cpuWalk m writeable (addrExtract pe) indices
    else
      none

-- The physical address which the processor uses, if none of the pages is a large one.
def cpuTranslate (m : Mem) (dir virt : ℕ) (writeable : Bool) : Option ℕ :=
  if CpuCanonical virt then
    (cpuWalk m writeable dir [virtPml4 virt, virtPdpt virt, virtPd virt, virtPt virt]).map
      (· + virt % PAGE_SIZE)
  else
    none

-- `pagedir_virt2phys` returns an address if and only if the processor has a translation, and then it
-- is the same one.
def TranslationAgrees (m : Mem) (dir virt : ℕ) (writeable : Bool) : Prop :=
  ∃ a, pagedirVirt2phys m dir virt true writeable = .ok a ∧
    cpuTranslate m dir virt writeable = if a = 0 then none else some a

def pagedirNew : P ℕ :=
  pageZalloc 1

-- What happens between two calls leaves the tables of the directory alone, and it does not free the
-- user's pages.
structure Undisturbed (s : Phys) (d : ℕ) (t : Phys) : Prop where
  base   : t.pbitmap = s.pbitmap
  len    : t.pbitmapLen = s.pbitmapLen
  tables : ∀ k ≤ 3, ∀ N < 512 ^ k, ∀ a, tableAt s.mem d k N = some a → t.Used a ∧ SamePage s.mem t.mem a
  frames : ∀ n < 512 ^ 4, ∀ pe, pageAt s.mem d n = some pe → pe.user → t.Used (addrExtract pe)

-- The page directories which are built by `pagedir_map` and `pagedir_unmap_user`. The callers map
-- pages of the user to frames which they got from the allocator, and pages of the kernel to anything.
inductive Built : Phys → ℕ → Prop
  | new {s t : Phys} {d : ℕ} (pool : s.Pool) (base : 0 < s.pbitmap) (run : pagedirNew s = .ok (d, t)) :
    Built t d
  | map {s t : Phys} {d virt phys : ℕ} {user writeable : Bool} (prev : Built s d)
    (spare : user → Spare s d (addrExtract phys))
    (run : pagedirMap d virt phys user writeable s = .ok ((), t)) : Built t d
  | unmap {s t : Phys} {d virt len : ℕ} (prev : Built s d)
    (run : pagedirUnmapUser d virt len s = .ok ((), t)) : Built t d
  | other {s t : Phys} {d : ℕ} (prev : Built s d) (other : Undisturbed s d t) : Built t d

-- What the page directories have in common.
structure Sound (s : Phys) (d : ℕ) : Prop where
  dir  : Dir s d
  perm : Permissive s.mem d
  base : 0 < s.pbitmap

section Run

variable {s t : Phys} {d : ℕ}

theorem Unmapped.sound {R : Set ℕ} (hu : Unmapped s d R t) (h : Sound s d) : Sound t d where
  dir  := hu.dir h.dir
  perm := h.perm.of_same hu.upper
  base := hu.base ▸ h.base

theorem Mapped.sound {n : ℕ} {pe : Pe} (hm : Mapped s d n pe t) (hd : Dir t d) (h : Sound s d) :
    Sound t d where
  dir  := hd
  perm := hm.perm h.perm
  base := hm.base ▸ h.base

namespace Undisturbed

theorem sameTables (hu : Undisturbed s d t) : SameTables s.mem t.mem d :=
  fun k hk N hN a ha _ hi => (hu.tables k hk.le N hN a ha).2.peAt hi

theorem pageAt (hu : Undisturbed s d t) {n : ℕ} (hn : n < 512 ^ 4) :
    Camellia.pageAt t.mem d n = Camellia.pageAt s.mem d n := by
  have hpte : pteAt t.mem d n = pteAt s.mem d n := by
    rw [pteAt, pteAt, hu.sameTables.tableAt le_rfl (div_lt_of_page hn)]
    refine Option.map_congr fun a ha => ?_
    exact (hu.tables 3 le_rfl _ (div_lt_of_page hn) a ha).2.peAt (Nat.mod_lt _ (by decide))
  rw [Camellia.pageAt, Camellia.pageAt, hpte]

theorem dir (hu : Undisturbed s d t) (h : Dir s d) : Dir t d := by
  refine h.of_same ⟨by rw [hu.base]; exact h.pool.aligned, ?_⟩ hu.sameTables ?_ ?_
  · rw [Phys.page, hu.base, hu.len]
    exact h.pool.fits
  · exact fun k hk N hN a ha => (hu.tables k hk N hN a ha).1
  · intro n hn pe hpe huser
    rw [hu.pageAt hn] at hpe
    exact ⟨hpe, hu.frames n hn pe hpe huser⟩

theorem sound (hu : Undisturbed s d t) (h : Sound s d) : Sound t d where
  dir  := hu.dir h.dir
  perm := h.perm.of_same hu.sameTables
  base := hu.base ▸ h.base

end Undisturbed

theorem sound_new (hp : s.Pool) (hb : 0 < s.pbitmap) (hr : pagedirNew s = .ok (d, t)) : Sound t d := by
  have ⟨hu, hm⟩ := wp_of_ok hr pageZalloc_or
  have hempty (i : ℕ) (hi : i < 512) : (peAt t.mem d i).present = false := by
    rw [hm, peAt_fill hi]
    rfl
  refine ⟨Dir.of_empty (hu.pool hp) (hu.used_mem (List.mem_singleton_self d)) hempty, ?_, hu.base ▸ hb⟩
  intro k hk N hN a ha i hi hpres
  obtain ⟨-, rfl⟩ := tableAt_empty hempty ha
  rw [hempty i hi] at hpres
  exact nomatch hpres

theorem Built.sound (h : Built s d) : Sound s d := by
  induction h
  case new hp hb hr => exact sound_new hp hb hr
  case map hs hr hi =>
    have hpost := wp_of_ok hr (pagedirMap_wp hi.dir hs)
    split at hpost
    · have ⟨hd, pe, hm, _⟩ := hpost
      exact hm.sound hd hi
    · exact hpost ▸ hi
  case unmap hr hi =>
    have hpost := wp_of_ok hr (pagedirUnmapUser_wp _ _ hi.dir)
    split at hpost
    · exact hpost.2.sound hi
    · exact hpost ▸ hi
  case other ho hi => exact ho.sound hi

end Run

section Agree

variable {s t : Phys} {d k n N a virt : ℕ} {w : Bool}

-- Where a table is present, the processor may go on.
theorem cpuWalk_permissive {m : Mem} (h : Permissive m d) {ix : List ℕ} (hk : k + ix.length ≤ 3)
    (hN : N < 512 ^ k) (hix : ∀ i ∈ ix, i < 512) (ha : tableAt m d k N = some a) {j : ℕ} :
    cpuWalk m w a (ix ++ [j]) = (ix.foldlM (tableChild m) a).bind fun b =>
      if (peAt m b j).permits true w then some (addrExtract (peAt m b j)) else none := by
  induction ix generalizing k N a
  case nil => rfl
  case cons i ix hind =>
    rw [List.length_cons] at hk
    have hi := hix i List.mem_cons_self
    have hchild := tableAt_child (m := m) (d := d) (k := k) (N := N) hi
    rw [ha, Option.bind_some] at hchild
    rw [List.cons_append, cpuWalk, List.foldlM_cons, tableChild]
    by_cases hp : (peAt m a i).present
    case neg => simp [hp, Pe.permits]
    case pos =>
      obtain ⟨hu, hw⟩ := h k (by omega) N hN a ha i hi hp
      rw [tableChild, if_pos hp] at hchild
      simp only [hp, hu, hw, Pe.permits, Bool.not_true, Bool.false_or, Bool.or_true, Bool.and_self, if_true]
      exact hind (by omega) (child_lt hN hi) (fun j hj => hix j (List.mem_cons_of_mem i hj)) hchild

-- What is permitted at a page, with the frame of the page.
def permitted (m : Mem) (d n : ℕ) (w : Bool) : Option ℕ :=
  (pageAt m d n).bind fun pe => if pe.permits true w then some (addrExtract pe) else none

theorem permitted_eq {m : Mem} : permitted m d n w = (pteAt m d n).bind fun pe =>
    if pe.permits true w then some (addrExtract pe) else none := by
  rw [permitted, pageAt]
  cases pteAt m d n
  case none => rfl
  case some pe =>
    rw [Option.filter_some]
    by_cases hp : pe.present
    case pos => rw [if_pos hp]
    case neg =>
      have hnot : pe.permits true w = false := by simp [Pe.permits, hp]
      rw [if_neg hp, Option.bind_none, Option.bind_some, hnot, if_neg Bool.false_ne_true]

theorem Sound.cpuTranslate (h : Sound s d) : cpuTranslate s.mem d virt w =
    if CpuCanonical virt then (permitted s.mem d (pageOf virt) w).map (· + virt % PAGE_SIZE) else none := by
  have hw : virtPml4 virt < 512 := Nat.mod_lt _ (by decide)
  have hx : virtPdpt virt < 512 := Nat.mod_lt _ (by decide)
  have hy : virtPd virt < 512 := Nat.mod_lt _ (by decide)
  have hix : ∀ i ∈ [virtPml4 virt, virtPdpt virt, virtPd virt], i < 512 := by simp [hw, hx, hy]
  have hwalk := cpuWalk_permissive (w := w) h.perm le_rfl Nat.one_pos hix tableAt_zero (j := virtPt virt)
  rw [tableAt_walk hw hx hy virt_tables] at hwalk
  rw [Camellia.cpuTranslate, permitted_eq, pteAt, Option.bind_map, ← virtPt_pageOf]
  exact congrArg (fun o => if CpuCanonical virt then o.map (· + virt % PAGE_SIZE) else none) hwalk

theorem Sound.virt2phys (h : Sound s d) : pagedirVirt2phys s.mem d virt true w =
    .ok (if addrCanonical virt then
      (permitted s.mem d (pageOf virt) w).elim 0 (· + virt % PAGE_SIZE) else 0) := by
  rw [pagedirVirt2phys_eq, h.dir.getEntry]
  by_cases hc : addrCanonical virt
  case neg => simp [hc, Except.map]
  case pos =>
    rw [if_pos hc, if_pos hc, permitted_eq]
    cases pteAt s.mem d (pageOf virt)
    case none => rfl
    case some pe =>
      by_cases hp : pe.permits true w <;> simp [Except.map, hp]

-- The frames of the user's pages are not at 0, which is NULL.
theorem Sound.frame_pos (h : Sound s d) {a : ℕ} (ha : permitted s.mem d n w = some a) (hn : n < 512 ^ 4) :
    0 < a := by
  obtain ⟨pe, hpe, hif⟩ := Option.bind_eq_some_iff.mp ha
  by_cases hp : pe.permits true w
  case neg => simp [hp] at hif
  case pos =>
    rw [if_pos hp] at hif
    have hu : pe.user := by
      simp only [Pe.permits, Bool.not_true, Bool.false_or, Bool.and_eq_true] at hp
      exact hp.1.2
    obtain ⟨i, hi, _⟩ := (h.dir.frame n hn pe hpe hu).1
    rw [← Option.some_inj.mp hif, hi]
    exact Nat.add_pos_left h.base _

-- The translation is the one of the processor, except for an address which `addr_canonical` accepts and
-- the processor does not, if there is a page at the address with the same 48 bits.
theorem Sound.translationAgrees (hs : Sound s d) : TranslationAgrees s.mem d virt w ↔
    (addrCanonical virt → CpuCanonical virt ∨ permitted s.mem d (pageOf virt) w = none) := by
  have hcanon : CpuCanonical virt → addrCanonical virt := by
    intro hc
    simp only [CpuCanonical] at hc
    simp only [addrCanonical, decide_eq_true_eq]
    omega
  rw [TranslationAgrees, hs.virt2phys, hs.cpuTranslate]
  simp only [Except.ok.injEq, exists_eq_left']
  by_cases hc : addrCanonical virt
  case neg => simp [hc, mt hcanon hc]
  case pos =>
    cases hp : permitted s.mem d (pageOf virt) w
    case none => simp [hc]
    case some a =>
      have hpos := hs.frame_pos hp pageOf_lt
      by_cases hcpu : CpuCanonical virt <;> simp [hc, hcpu, hpos.ne']

theorem translationAgrees_iff (h : Built s d) : TranslationAgrees s.mem d virt w ↔
    (addrCanonical virt → CpuCanonical virt ∨ permitted s.mem d (pageOf virt) w = none) :=
  h.sound.translationAgrees

end Agree

section Examples

-- A second page of `bareState` was taken for another page directory.
def newDirState : Phys :=
  { bareState with
    mem              := bareState.mem.fill 8192 0 4096
    bitmap           := bareState.bitmap.set 1 true
    pbitmapFirstfree := 1 }

theorem newDirState_built : Built newDirState 8192 :=
  .new (s := bareState) ⟨by decide, by decide⟩ (by decide) rfl

theorem newDirState_empty (i : ℕ) (hi : i < 512) : (peAt newDirState.mem 8192 i).present = false := by
  have hzero : peAt newDirState.mem 8192 i = 0 := peAt_fill hi
  rw [hzero]
  rfl

theorem newDirState_spare : Spare newDirState 8192 4096 := by
  refine ⟨⟨0, by decide, by decide, by decide⟩, fun k hk N hN ha => ?_, fun n hn pe hpe => ?_⟩
  · exact absurd (tableAt_empty newDirState_empty ha).2 (by decide)
  · rw [pageAt_empty newDirState_empty] at hpe
    exact nomatch hpe

-- The first page was mapped at the beginning of the upper half of the address space.
theorem upperHalf_built : ∃ t, Built t 8192 ∧ permitted t.mem 8192 (2 ^ 35) true = some 4096 := by
  have hok : (pagedirMap 8192 (2 ^ 64 - 2 ^ 47) 4096 true true newDirState).isOk = true := by
    decide +kernel
  have hs : Spare newDirState 8192 (addrExtract 4096) := newDirState_spare
  cases hr : pagedirMap 8192 (2 ^ 64 - 2 ^ 47) 4096 true true newDirState
  case error e =>
    rw [hr] at hok
    exact nomatch hok
  case ok x =>
    obtain ⟨⟨⟩, t⟩ := x
    refine ⟨t, .map newDirState_built (fun _ => hs) hr, ?_⟩
    have hpost := wp_of_ok hr (pagedirMap_wp newDirState_built.sound.dir fun _ => hs)
    rw [if_pos (by decide)] at hpost
    obtain ⟨_, pe, hm, hu, hw, ha⟩ := hpost
    have hpage : pageAt t.mem 8192 (2 ^ 35) = some pe := hm.page
    have hperm : pe.permits true true := by
      simp [Pe.permits, hu, hw, (pageAt_some.mp hpage).2]
    rw [permitted, hpage, Option.bind_some, if_pos hperm, ha]
    rfl

theorem translationAgrees_upperHalf : ∃ t, Built t 8192 ∧ permitted t.mem 8192 (2 ^ 35) true = some 4096 ∧
    TranslationAgrees t.mem 8192 (2 ^ 64 - 2 ^ 47) true := by
  have ⟨t, hb, hp⟩ := upperHalf_built
  exact ⟨t, hb, hp, (translationAgrees_iff hb).mpr fun _ => .inl (by decide)⟩

-- The address 2^47 is translated in the same way, but the processor does not accept it.
theorem not_translationAgrees : ∃ t, Built t 8192 ∧ ¬TranslationAgrees t.mem 8192 (2 ^ 47) true := by
  have ⟨t, hb, hp⟩ := upperHalf_built
  refine ⟨t, hb, fun h => ?_⟩
  have hor := hb.sound.translationAgrees.mp h (by decide)
  have hpage : pageOf (2 ^ 47) = 2 ^ 35 := by decide
  rw [hpage, hp] at hor
  exact hor.elim (by decide) (fun h => nomatch h)

end Examples

end Camellia
