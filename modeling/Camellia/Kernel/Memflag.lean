import Camellia.Flags
import Camellia.Kernel.Translate

namespace Camellia

def pagedirIskern (m : Mem) (dir virt : ℕ) : Except Fault Bool := do
  let page ← getEntry m dir virt
  return page.any fun pe => pe.present && !pe.user

-- `TODO better boundary`
def FINDFREE_END : ℕ := 0xFFF00000

-- The loop of `pagedir_findfree`, with `n` iterations left. The result is 0 for NULL.
def pagedirFindfreeLoop (m : Mem) (dir len : ℕ) : (n iter start : ℕ) → Except Fault ℕ
  | 0, _, _            => .ok 0
  | n + 1, iter, start =>
    if ¬iter < FINDFREE_END then
      .ok 0
    else do
      let page ← getEntry m dir iter
      if page.any Pe.present then
        pagedirFindfreeLoop m dir len n (iter + PAGE_SIZE) (iter + PAGE_SIZE)
      else if len ≤ iter + PAGE_SIZE - start then
        return start
      else
        pagedirFindfreeLoop m dir len n (iter + PAGE_SIZE) start

def pagedirFindfree (m : Mem) (dir start len : ℕ) : Except Fault ℕ :=
  -- `round up to next page`
  let start := (start + (PAGE_SIZE - 1)) % 2 ^ 64
  let start := start - start % PAGE_SIZE
  pagedirFindfreeLoop m dir len (FINDFREE_END / PAGE_SIZE) start start

-- The part of an iteration of `_sys_memflag` after `page` was computed.
def sysMemflagPage (pages page : ℕ) : P Unit := do
  if ← pagedirIskern (← get).mem pages page then
    pure ()
  else
    let phys ← pagedirVirt2phys (← get).mem pages page false false
    if phys = 0 then
      let phys ← pageZalloc 1
      pagedirMap pages page phys true true

-- The loop of `_sys_memflag`, with `n` iterations left. If `off` has wrapped around in the meantime,
-- then the loop does not end.
def sysMemflagLoop (pages addr len : ℕ) : (n off : ℕ) → P Unit
  | 0, off     => if off < len then throw .outOfFuel else pure ()
  | n + 1, off =>
    if ¬off < len then
      pure ()
    else do
      sysMemflagPage pages ((addr + off) % 2 ^ 64)
      sysMemflagLoop pages addr len n ((off + PAGE_SIZE) % 2 ^ 64)

-- `pages` is the page directory of the current process.
def sysMemflag (pages addr len : ℕ) (flags : Flags) : P ℕ := do
  let mut addr := addr - addr % PAGE_SIZE
  if flags.has MEMFLAG_FINDFREE then
    addr ← pagedirFindfree (← get).mem pages addr len
    if ¬flags.has MEMFLAG_PRESENT then
      return addr
  if ¬flags.has MEMFLAG_PRESENT then
    pagedirUnmapUser pages addr len
    return addr
  sysMemflagLoop pages addr len ((len + (PAGE_SIZE - 1)) / PAGE_SIZE) 0
  return addr

-- The frame is one of the directory's: it is one of its tables, or a page of the user.
def OwnedBy (s : Phys) (d a : ℕ) : Prop :=
  (∃ k ≤ 3, ∃ N < 512 ^ k, tableAt s.mem d k N = some a) ∨
    ∃ n < 512 ^ 4, ∃ pe, pageAt s.mem d n = some pe ∧ pe.user ∧ addrExtract pe = a

-- The pages of `V` were mapped, unless something was mapped there. If `leak` is true, then there is a
-- new frame which was not mapped.
structure PagesFilled (s : Phys) (d : ℕ) (V : Set ℕ) (leak : Prop) (t : Phys) : Prop where
  base   : t.pbitmap = s.pbitmap
  dir    : Dir t d
  used   : ∀ a, s.Used a → t.Used a
  tables : ∀ k ≤ 3, ∀ N < 512 ^ k, ∀ a, tableAt s.mem d k N = some a → tableAt t.mem d k N = some a
  kept   : ∀ n < 512 ^ 4, ∀ pe, pageAt s.mem d n = some pe → pageAt t.mem d n = some pe
  added  : ∀ n < 512 ^ 4, pageAt s.mem d n = none → n ∈ V →
    ∃ pe, pageAt t.mem d n = some pe ∧ pe.user ∧ pe.writeable
  absent : ∀ n < 512 ^ 4, pageAt s.mem d n = none → n ∉ V → pageAt t.mem d n = none
  spare  : ∀ a, Spare s d a → Spare t d a
  owned  : ¬leak → ∀ a, t.Used a → s.Used a ∨ OwnedBy t d a
  leaked : leak → ∃ a, Spare t d a ∧ ¬s.Used a

section Fill

variable {s t u : Phys} {d n a c virt : ℕ} {V W : Set ℕ} {l l' : Prop} {E : Fault → Prop}

theorem Spare.not_owned (h : Spare s d a) : ¬OwnedBy s d a := by
  rintro (⟨k, hk, N, hN, ha⟩ | ⟨n, hn, pe, hpe, hu, ha⟩)
  · exact h.tables k hk N hN ha
  · exact h.frames n hn pe hpe hu ha

namespace PagesFilled

theorem refl (hd : Dir s d) (hV : ∀ n < 512 ^ 4, n ∈ V → pageAt s.mem d n ≠ none) :
    PagesFilled s d V False s where
  base   := rfl
  dir    := hd
  used _ := id
  tables _ _ _ _ _ := id
  kept _ _ _ := id
  added n hn hnone hv := absurd hnone (hV n hn hv)
  absent _ _ hnone _ := hnone
  spare _ := id
  owned _ _ := .inl
  leaked := False.elim

theorem ownedBy (h : PagesFilled s d V l t) (ha : OwnedBy s d a) : OwnedBy t d a := by
  refine ha.imp ?_ ?_
  · exact fun ⟨k, hk, N, hN, ha⟩ => ⟨k, hk, N, hN, h.tables k hk N hN a ha⟩
  · exact fun ⟨n, hn, pe, hpe, ha⟩ => ⟨n, hn, pe, h.kept n hn pe hpe, ha⟩

theorem trans (h : PagesFilled s d V l u) (h' : PagesFilled u d W l' t) : PagesFilled s d (V ∪ W) (l ∨ l') t where
  base   := h'.base.trans h.base
  dir    := h'.dir
  used a := h'.used a ∘ h.used a
  tables k hk N hN a := h'.tables k hk N hN a ∘ h.tables k hk N hN a
  kept n hn pe := h'.kept n hn pe ∘ h.kept n hn pe
  added n hn hnone hv := by
    by_cases hV : n ∈ V
    case pos =>
      have ⟨pe, hpe, hflags⟩ := h.added n hn hnone hV
      exact ⟨pe, h'.kept n hn pe hpe, hflags⟩
    case neg => exact h'.added n hn (h.absent n hn hnone hV) (hv.resolve_left hV)
  absent n hn hnone hv :=
    h'.absent n hn (h.absent n hn hnone fun hV => hv (.inl hV)) fun hW => hv (.inr hW)
  spare a := h'.spare a ∘ h.spare a
  owned hl a ha := by
    refine (h'.owned (fun hl' => hl (.inr hl')) a ha).elim (fun hu => ?_) .inr
    exact (h.owned (fun hl' => hl (.inl hl')) a hu).imp_right h'.ownedBy
  leaked hl := by
    obtain hl | hl := hl
    · have ⟨a, hs, hn⟩ := h.leaked hl
      exact ⟨a, h'.spare a hs, hn⟩
    · have ⟨a, hs, hn⟩ := h'.leaked hl
      exact ⟨a, hs, fun hu => hn (h.used a hu)⟩

theorem congr (h : PagesFilled s d V l t) (hV : ∀ n < 512 ^ 4, pageAt s.mem d n = none → (n ∈ V ↔ n ∈ W))
    (hl : l ↔ l') : PagesFilled s d W l' t where
  base   := h.base
  dir    := h.dir
  used   := h.used
  tables := h.tables
  kept   := h.kept
  added n hn hnone hw := h.added n hn hnone ((hV n hn hnone).mpr hw)
  absent n hn hnone hw := h.absent n hn hnone fun hv => hw ((hV n hn hnone).mp hv)
  spare  := h.spare
  owned hn := h.owned fun hl' => hn (hl.mp hl')
  leaked h' := h.leaked (hl.mpr h')

end PagesFilled

-- A page was allocated, and it is not used yet.
theorem zalloc_undisturbed (hd : Dir s d) (hu : Taken s [c] u) (hm : u.mem = s.mem.fill c 0 PAGE_SIZE) :
    Undisturbed s d u where
  base := hu.base
  len  := hu.len
  tables k hk N hN a ha := by
    have hused := hd.table k hk N hN a ha
    refine ⟨hu.used hused, fun o ho => ?_⟩
    have hc := hu.free c (List.mem_singleton_self c)
    rw [hm]
    refine Mem.fill_not_mem fun hx => ?_
    exact hused.isPage.disjoint hc.isPage (hused.ne_free hc) ⟨Nat.le_add_right a o, by omega⟩ hx
  frames n hn pe hpe huser := hu.used (hd.frame n hn pe hpe huser).1

theorem zalloc_spare (hd : Dir s d) (hu : Taken s [c] u) (hm : u.mem = s.mem.fill c 0 PAGE_SIZE) :
    Spare u d c where
  used := hu.used_mem (List.mem_singleton_self c)
  tables k hk N hN ha := by
    rw [(zalloc_undisturbed hd hu hm).sameTables.tableAt hk hN] at ha
    exact (hd.table k hk N hN c ha).not_free (hu.free c (List.mem_singleton_self c))
  frames n hn pe hpe huser heq := by
    rw [(zalloc_undisturbed hd hu hm).pageAt hn] at hpe
    exact (heq ▸ (hd.frame n hn pe hpe huser).1).not_free (hu.free c (List.mem_singleton_self c))

theorem Spare.undisturbed (h : Spare s d a) (hu : Undisturbed s d u) (ha : u.Used a) : Spare u d a where
  used := ha
  tables k hk N hN hat := h.tables k hk N hN (by rwa [← hu.sameTables.tableAt hk hN])
  frames n hn pe hpe := h.frames n hn pe (hu.pageAt hn ▸ hpe)

-- The address of a new page is not accepted by `pagedir_map`.
theorem PagesFilled.of_leak (hd : Dir s d) (hu : Taken s [c] u) (hm : u.mem = s.mem.fill c 0 PAGE_SIZE) :
    PagesFilled s d ∅ True u := by
  have hsame := zalloc_undisturbed hd hu hm
  exact {
    base := hu.base
    dir  := hsame.dir hd
    used _ := hu.used
    tables k hk N hN a ha := (hsame.sameTables.tableAt hk hN).trans ha
    kept n hn pe hpe := (hsame.pageAt hn).trans hpe
    added _ _ _ hn := absurd hn (Set.notMem_empty _)
    absent n hn hnone _ := (hsame.pageAt hn).trans hnone
    spare a ha := ha.undisturbed hsame (hu.used ha.used)
    owned h := absurd trivial h
    leaked _ := ⟨c, zalloc_spare hd hu hm, fun hc => hc.not_free (hu.free c (List.mem_singleton_self c))⟩
  }

-- The new page is mapped.
theorem PagesFilled.of_map {pe : Pe} (hd : Dir s d) (hu : Taken s [c] u) (hm : u.mem = s.mem.fill c 0 PAGE_SIZE)
    (hn : n < 512 ^ 4) (hdir : Dir t d) (hmap : Mapped u d n pe t) (huser : pe.user) (hw : pe.writeable)
    (hc : addrExtract pe = c) : PagesFilled s d {n} False t := by
  have hsame := zalloc_undisturbed hd hu hm
  have hfree := hu.free c (List.mem_singleton_self c)
  have hpage {n' : ℕ} (hn' : n' < 512 ^ 4) (hne : n' ≠ n) : pageAt t.mem d n' = pageAt s.mem d n' :=
    (hmap.others n' hn' hne).trans (hsame.pageAt hn')
  have hnone : pageAt s.mem d n = none := (hsame.pageAt hn).symm.trans hmap.vacant
  exact {
    base := hmap.base.trans hu.base
    dir  := hdir
    used a ha := hmap.used a (hu.used ha)
    tables k hk N hN a ha := hmap.tables k hk N hN a ((hsame.sameTables.tableAt hk hN).trans ha)
    kept n' hn' pe' hpe' := by
      rw [hpage hn' fun heq => ?_, hpe']
      rw [heq, hnone] at hpe'
      exact nomatch hpe'
    added n' hn' _ heq := ⟨pe, by rw [Set.mem_singleton_iff.mp heq]; exact hmap.page, huser, hw⟩
    absent n' hn' hnone' hne := (hpage hn' hne).trans hnone'
    spare a ha := by
      have hau := ha.undisturbed hsame (hu.used ha.used)
      refine ⟨hmap.used a hau.used, fun k hk N hN hat => ?_, fun n' hn' pe' hpe' hu' heq => ?_⟩
      · exact (hmap.added k hk N hN a hat).elim (hau.tables k hk N hN) hau.used.not_free
      · by_cases hne : n' = n
        case pos =>
          rw [hne, hmap.page] at hpe'
          rw [← Option.some_inj.mp hpe', hc] at heq
          exact (heq ▸ ha.used).not_free hfree
        case neg => exact ha.frames n' hn' pe' (hpage hn' hne ▸ hpe') hu' heq
    owned _ a ha := by
      refine (hmap.fresh a ha).elim (fun hau => ?_) fun htable => .inr (.inl htable)
      refine (hu.used_or_mem hau).imp_right fun hmem => .inr ⟨n, hn, pe, hmap.page, huser, ?_⟩
      rw [hc, List.mem_singleton.mp hmem]
    leaked := False.elim
  }

theorem Sound.frame_ne {pe : Pe} (hd : Dir s d) (hb : 0 < s.pbitmap) (hn : n < 512 ^ 4)
    (hpe : pageAt s.mem d n = some pe) (hu : pe.user) : addrExtract pe ≠ 0 := by
  obtain ⟨i, hi, _⟩ := (hd.frame n hn pe hpe hu).1
  rw [hi]
  exact (Nat.add_pos_left hb _).ne'

theorem wp_liftM {α : Type} {x : Except Fault α} {a : α} {Q : α → Phys → Prop} (hx : x = .ok a) :
    wp (liftM x : P α) Q E s ↔ Q a s := by
  simp only [hx, wp, liftM, monadLift, MonadLift.monadLift, StateT.lift, bind, Except.bind, pure,
    Except.pure]

theorem Dir.iskern (hd : Dir s d) : pagedirIskern s.mem d virt =
    .ok (addrCanonical virt && (pageAt s.mem d (pageOf virt)).any fun pe => !pe.user) := by
  rw [pagedirIskern, hd.getEntry, pageAt]
  by_cases hc : addrCanonical virt
  case neg => simp [hc, bind, Except.bind, pure, Except.pure]
  case pos =>
    cases pteAt s.mem d (pageOf virt)
    case none => simp [hc, bind, Except.bind, pure, Except.pure]
    case some pe =>
      rw [Option.filter_some]
      by_cases hp : pe.present <;> simp [hc, hp, bind, Except.bind, pure, Except.pure]

theorem Dir.virt2phys_present (hd : Dir s d) (ha : virt % PAGE_SIZE = 0) :
    pagedirVirt2phys s.mem d virt false false =
      .ok (if addrCanonical virt then (pageAt s.mem d (pageOf virt)).elim 0 addrExtract else 0) := by
  rw [pagedirVirt2phys_eq, hd.getEntry, pageAt, ha]
  by_cases hc : addrCanonical virt
  case neg => simp [hc, Except.map]
  case pos =>
    cases pteAt s.mem d (pageOf virt)
    case none => simp [hc, Except.map]
    case some pe =>
      rw [Option.filter_some]
      by_cases hp : pe.present <;> simp [hc, hp, Except.map, Pe.permits]

-- One page of the range.
theorem sysMemflagPage_wp (hd : Dir s d) (hb : 0 < s.pbitmap) (ha : virt % PAGE_SIZE = 0) :
    wp (sysMemflagPage d virt) (fun _ => PagesFilled s d {n | addrCanonical virt ∧ n = pageOf virt}
      (¬addrCanonical virt)) (· = .panic .pageAlloc) s := by
  have hn := @pageOf_lt virt
  rw [sysMemflagPage, wp_bind, wp_get, wp_bind, wp_liftM hd.iskern]
  by_cases hc : addrCanonical virt
  case neg =>
    simp only [hc, Bool.false_and, Bool.false_eq_true, if_false, false_and]
    rw [wp_bind, wp_get, wp_bind, wp_liftM (hd.virt2phys_present ha)]
    simp only [hc, Bool.false_eq_true, if_false, if_true]
    rw [wp_bind]
    refine wp_post pageZalloc_or fun c u ⟨hu, hm⟩ => ?_
    simp only [pagedirMap, hc, Bool.false_eq_true, not_false_eq_true, if_true, wp_pure]
    exact (PagesFilled.of_leak hd hu hm).congr (fun _ _ _ => by simp) (by simp)
  case pos =>
    have hV : {n | addrCanonical virt ∧ n = pageOf virt} = {pageOf virt} := by
      ext n
      simp [hc]
    have hl : (¬addrCanonical virt = true) = False := by simp [hc]
    rw [hV, hl]
    have hkeep (hsome : pageAt s.mem d (pageOf virt) ≠ none) : PagesFilled s d {pageOf virt} False s :=
      PagesFilled.refl hd fun n _ heq => by rwa [Set.mem_singleton_iff.mp heq]
    cases hpage : pageAt s.mem d (pageOf virt)
    case none =>
      simp only [hc, Option.any_none, Bool.and_false, Bool.false_eq_true, if_false]
      rw [wp_bind, wp_get, wp_bind, wp_liftM (hd.virt2phys_present ha)]
      simp only [hc, hpage, Option.elim_none, if_true]
      rw [wp_bind]
      refine wp_post pageZalloc_or fun c u ⟨hu, hm⟩ => ?_
      have haligned := (hu.free c (List.mem_singleton_self c)).aligned hd.pool
      have haddr : addrExtract c = c := addrExtract_aligned haligned.1 haligned.2
      have hspare : Spare u d (addrExtract c) := haddr.symm ▸ zalloc_spare hd hu hm
      have hdir := (zalloc_undisturbed hd hu hm).dir hd
      have hnone : pageAt u.mem d (pageOf virt) = none :=
        ((zalloc_undisturbed hd hu hm).pageAt hn).trans hpage
      refine wp_mono (pagedirMap_wp hdir fun _ => hspare) (fun _ t ht => ?_) fun e he => ?_
      · rw [if_pos hc] at ht
        obtain ⟨htd, pe, hmap, huser, hw, hpa⟩ := ht
        exact PagesFilled.of_map hd hu hm hn htd hmap huser hw (hpa.trans haddr)
      · exact he.resolve_right fun hx => hx.2.2 hnone
    case some pe =>
      have hsome : pageAt s.mem d (pageOf virt) ≠ none := by simp [hpage]
      by_cases hu : pe.user
      case neg =>
        simp only [hc, hu, Option.any_some, Bool.not_false, Bool.and_self, if_true, wp_pure]
        exact hkeep hsome
      case pos =>
        simp only [hc, hu, Option.any_some, Bool.not_true, Bool.and_false, Bool.false_eq_true, if_false]
        rw [wp_bind, wp_get, wp_bind, wp_liftM (hd.virt2phys_present ha)]
        simp only [hc, hpage, Option.elim_some, if_true, Sound.frame_ne hd hb hn hpage hu, if_false,
          wp_pure]
        exact hkeep hsome

end Fill

-- The address of the page with the index `k` in the loop.
def memflagAddr (addr k : ℕ) : ℕ :=
  (addr + k * PAGE_SIZE) % 2 ^ 64

-- The number of iterations.
def memflagPages (len : ℕ) : ℕ :=
  (len + (PAGE_SIZE - 1)) / PAGE_SIZE

-- The pages which are looked at from the index `j` on, and whether one of the addresses is refused.
def memflagVisits (addr len j : ℕ) : Set ℕ :=
  {n | ∃ k, j ≤ k ∧ k < memflagPages len ∧ addrCanonical (memflagAddr addr k) ∧
    n = pageOf (memflagAddr addr k)}

def MemflagRefused (addr len j : ℕ) : Prop :=
  ∃ k, j ≤ k ∧ k < memflagPages len ∧ ¬addrCanonical (memflagAddr addr k)

section Loop

variable {s t u : Phys} {d n addr len j : ℕ}

-- The first page, and the ones after it.
theorem memflagVisits_succ (hj : j < memflagPages len) : memflagVisits addr len j =
    {n | addrCanonical (memflagAddr addr j) ∧ n = pageOf (memflagAddr addr j)} ∪
      memflagVisits addr len (j + 1) := by
  ext n
  constructor
  · rintro ⟨k, hjk, hk, hx⟩
    obtain rfl | hlt := Nat.eq_or_lt_of_le hjk
    · exact .inl hx
    · exact .inr ⟨k, hlt, hk, hx⟩
  · rintro (hx | ⟨k, hjk, hk, hx⟩)
    · exact ⟨j, le_rfl, hj, hx⟩
    · exact ⟨k, Nat.le_of_succ_le hjk, hk, hx⟩

theorem memflagRefused_succ (hj : j < memflagPages len) : MemflagRefused addr len j ↔
    ¬addrCanonical (memflagAddr addr j) ∨ MemflagRefused addr len (j + 1) := by
  constructor
  · rintro ⟨k, hjk, hk, hx⟩
    obtain rfl | hlt := Nat.eq_or_lt_of_le hjk
    · exact .inl hx
    · exact .inr ⟨k, hlt, hk, hx⟩
  · rintro (hx | ⟨k, hjk, hk, hx⟩)
    · exact ⟨j, le_rfl, hj, hx⟩
    · exact ⟨k, Nat.le_of_succ_le hjk, hk, hx⟩

theorem memflagPages_lt (hlen : len < 2 ^ 64) (hj : j < memflagPages len) :
    j * PAGE_SIZE < len ∧ j * PAGE_SIZE % 2 ^ 64 = j * PAGE_SIZE := by
  simp only [memflagPages, PAGE_SIZE] at hj ⊢
  omega

theorem sysMemflagLoop_wp (hd : Dir s d) (hb : 0 < s.pbitmap) (ha : addr % PAGE_SIZE = 0)
    (hlen : len < 2 ^ 64) (hn : j + n = memflagPages len) :
    wp (sysMemflagLoop d addr len n (j * PAGE_SIZE % 2 ^ 64))
      (fun _ t => PagesFilled s d (memflagVisits addr len j) (MemflagRefused addr len j) t ∧
        len ≤ 2 ^ 64 - PAGE_SIZE)
      (fun e => e = .panic .pageAlloc ∨ e = .outOfFuel ∧ 2 ^ 64 - PAGE_SIZE < len) s := by
  induction n generalizing s j
  case zero =>
    rw [Nat.add_zero] at hn
    rw [sysMemflagLoop, wp_ite]
    have hwrap : j * PAGE_SIZE % 2 ^ 64 < len ↔ 2 ^ 64 - PAGE_SIZE < len := by
      subst hn
      simp only [memflagPages, PAGE_SIZE]
      omega
    rw [hwrap]
    refine ⟨fun hlt => ?_, fun hle => ?_⟩
    · rw [wp_throw]
      exact .inr ⟨rfl, hlt⟩
    · rw [wp_pure]
      refine ⟨?_, not_lt.mp hle⟩
      refine (PagesFilled.refl hd fun n _ (hn : n ∈ (∅ : Set ℕ)) => absurd hn (Set.notMem_empty _)).congr ?_ ?_
      · rintro m - -
        refine ⟨fun h => absurd h (Set.notMem_empty _), fun hx => ?_⟩
        obtain ⟨k, hjk, hk, _⟩ := hx
        omega
      · refine ⟨False.elim, fun hx => ?_⟩
        obtain ⟨k, hjk, hk, _⟩ := hx
        omega
  case succ n hind =>
    have hj : j < memflagPages len := by omega
    obtain ⟨hlt, hmod⟩ := memflagPages_lt hlen hj
    have hnext : (j * PAGE_SIZE % 2 ^ 64 + PAGE_SIZE) % 2 ^ 64 = (j + 1) * PAGE_SIZE % 2 ^ 64 := by
      rw [Nat.mod_add_mod, Nat.succ_mul]
    have hpage : (addr + j * PAGE_SIZE % 2 ^ 64) % 2 ^ 64 = memflagAddr addr j := by
      rw [Nat.add_mod_mod]
      rfl
    have halign : memflagAddr addr j % PAGE_SIZE = 0 := by
      simp only [memflagAddr, PAGE_SIZE] at ha ⊢
      omega
    rw [sysMemflagLoop, if_neg (by rw [hmod]; omega), hnext, hpage, wp_bind]
    refine wp_mono (sysMemflagPage_wp hd hb halign) (fun _ u hu => ?_) fun e he => .inl he
    refine wp_post (hind hu.dir (hu.base ▸ hb) (by omega)) fun _ t hx => ?_
    obtain ⟨ht, hle⟩ := hx
    refine ⟨?_, hle⟩
    refine (hu.trans ht).congr (fun n _ _ => ?_) (memflagRefused_succ hj).symm
    rw [memflagVisits_succ hj]

end Loop

-- The page has an address in the range.
def Overlaps (addr len n : ℕ) : Prop :=
  ∃ x, addr ≤ x ∧ x < addr + len ∧ pageAddr n ≤ x ∧ x < pageAddr n + PAGE_SIZE

def KernelPage (m : Mem) (d n : ℕ) : Prop :=
  ∃ pe, pageAt m d n = some pe ∧ ¬pe.user

-- The pages in the range are mapped for the user, unless they are the kernel's. The others are mapped
-- as before, and every new frame belongs to the directory.
structure MapsRequested (s : Phys) (d addr len : ℕ) (t : Phys) : Prop where
  mapped : ∀ n < 512 ^ 4, Overlaps addr len n → ¬KernelPage s.mem d n →
    ∃ pe, pageAt t.mem d n = some pe ∧ pe.user ∧ pe.writeable
  others : ∀ n < 512 ^ 4, ¬Overlaps addr len n ∨ KernelPage s.mem d n →
    pageAt t.mem d n = pageAt s.mem d n
  owned  : ∀ a, t.Used a → ¬s.Used a → OwnedBy t d a

-- A byte of the address space is mapped.
def MappedAt (m : Mem) (d x : ℕ) : Prop :=
  CpuCanonical x ∧ pageAt m d (pageOf x) ≠ none

-- The range was free and is mapped now, or NULL was returned and nothing was mapped.
def MapsFree (s : Phys) (d len r : ℕ) (t : Phys) : Prop :=
  (∀ x, r ≤ x → x < r + len → ¬MappedAt s.mem d x ∧ MappedAt t.mem d x) ∨
    r = 0 ∧ ∀ n < 512 ^ 4, pageAt t.mem d n = pageAt s.mem d n

section Range

variable {s t u : Phys} {d n addr len j r : ℕ} {V : Set ℕ} {l : Prop}

theorem PagesFilled.mapsRequested_iff (h : PagesFilled s d V l t) : MapsRequested s d addr len t ↔
    ¬l ∧ (∀ n < 512 ^ 4, pageAt s.mem d n = none → (n ∈ V ↔ Overlaps addr len n)) ∧
      ∀ n < 512 ^ 4, ∀ pe, pageAt s.mem d n = some pe → pe.user → Overlaps addr len n → pe.writeable := by
  have hnokernel {n : ℕ} (hnone : pageAt s.mem d n = none) : ¬KernelPage s.mem d n := by
    rintro ⟨pe, hpe, _⟩
    exact nomatch hnone.symm.trans hpe
  constructor
  · intro hm
    refine ⟨fun hl => ?_, fun n hn hnone => ⟨fun hv => ?_, fun ho => ?_⟩, fun n hn pe hpe hu ho => ?_⟩
    · have ⟨a, hs, hnot⟩ := h.leaked hl
      exact hs.not_owned (hm.owned a hs.used hnot)
    · by_contra ho
      have ⟨pe, hpe, _⟩ := h.added n hn hnone hv
      exact nomatch hnone.symm.trans ((hm.others n hn (.inl ho)).symm.trans hpe)
    · by_contra hv
      have ⟨pe, hpe, _⟩ := hm.mapped n hn ho (hnokernel hnone)
      exact nomatch (h.absent n hn hnone hv).symm.trans hpe
    · have hnot : ¬KernelPage s.mem d n := by
        rintro ⟨pe', hpe', hnu⟩
        rw [Option.some_inj.mp (hpe'.symm.trans hpe)] at hnu
        exact hnu hu
      have ⟨pe', hpe', _, hw⟩ := hm.mapped n hn ho hnot
      rwa [Option.some_inj.mp ((h.kept n hn pe hpe).symm.trans hpe')]
  · rintro ⟨hl, hv, hw⟩
    refine ⟨fun n hn ho hk => ?_, fun n hn hor => ?_, fun a ha hnot => (h.owned hl a ha).resolve_left hnot⟩
    · cases hpe : pageAt s.mem d n
      case none => exact h.added n hn hpe ((hv n hn hpe).mpr ho)
      case some pe =>
        have hu : pe.user := by
          by_contra hnu
          exact hk ⟨pe, hpe, hnu⟩
        exact ⟨pe, h.kept n hn pe hpe, hu, hw n hn pe hpe hu ho⟩
    · cases hpe : pageAt s.mem d n
      case none =>
        have ho := hor.resolve_right (hnokernel hpe)
        exact h.absent n hn hpe fun hx => ho ((hv n hn hpe).mp hx)
      case some pe => exact h.kept n hn pe hpe

theorem present_not_findfree {flags : Flags} (hp : flags.has MEMFLAG_PRESENT)
    (hf : flags.has MEMFLAG_FINDFREE = false) : sysMemflag d addr len flags =
      (do sysMemflagLoop d (addr - addr % PAGE_SIZE) len (memflagPages len) 0; pure (addr - addr % PAGE_SIZE)) := by
  simp [sysMemflag, hp, hf, memflagPages]

theorem present_findfree {flags : Flags} (hp : flags.has MEMFLAG_PRESENT)
    (hf : flags.has MEMFLAG_FINDFREE) : sysMemflag d addr len flags = (do
      let addr ← pagedirFindfree (← get).mem d (addr - addr % PAGE_SIZE) len
      sysMemflagLoop d addr len (memflagPages len) 0
      pure addr) := by
  simp [sysMemflag, hp, hf, memflagPages]

end Range

-- A range which `pagedir_findfree` is looking for. Even if it is empty, it has to begin with a page
-- that is free.
structure FreeRange (m : Mem) (d len r : ℕ) : Prop where
  aligned : r % PAGE_SIZE = 0
  free    : ∀ i < max 1 (memflagPages len), r + i * PAGE_SIZE < FINDFREE_END ∧
    pageAt m d (pageOf (r + i * PAGE_SIZE)) = none

section Findfree

variable {s : Phys} {d len n start j : ℕ}

theorem Dir.findfree_entry (hd : Dir s d) {iter : ℕ} (h : iter < FINDFREE_END) :
    ∃ page, Camellia.getEntry s.mem d iter = .ok page ∧
      (page.any Pe.present = true ↔ pageAt s.mem d (pageOf iter) ≠ none) := by
  have hc : addrCanonical iter := by
    simp only [FINDFREE_END] at h
    simp only [addrCanonical, decide_eq_true_eq]
    omega
  refine ⟨pteAt s.mem d (pageOf iter), ?_, ?_⟩
  · rw [hd.getEntry, if_pos hc]
  · rw [pageAt]
    cases pteAt s.mem d (pageOf iter)
    case none => simp
    case some pe =>
      rw [Option.filter_some]
      cases hp : pe.present <;> simp [hp]

-- A range which begins in front of the current page contains this page.
theorem FreeRange.covers {m : Mem} {r : ℕ} (hr : FreeRange m d len r) (hs : start % PAGE_SIZE = 0)
    (hfew : j = 0 ∨ j * PAGE_SIZE < len) (hle : start ≤ r) (hcur : r ≤ start + j * PAGE_SIZE) :
    start + j * PAGE_SIZE < FINDFREE_END ∧ pageAt m d (pageOf (start + j * PAGE_SIZE)) = none := by
  have ⟨i, hi, hlt⟩ : ∃ i, start + j * PAGE_SIZE = r + i * PAGE_SIZE ∧ i < max 1 (memflagPages len) := by
    have := hr.aligned
    refine ⟨(start + j * PAGE_SIZE - r) / PAGE_SIZE, ?_, ?_⟩
    · simp only [PAGE_SIZE] at *
      omega
    · simp only [memflagPages, PAGE_SIZE] at *
      omega
  rw [hi]
  exact hr.free i hlt

-- At the end, nothing was missed.
theorem FreeRange.not_end {m : Mem} {r : ℕ} (hs : start % PAGE_SIZE = 0) (hfew : j = 0 ∨ j * PAGE_SIZE < len)
    (hend : FINDFREE_END ≤ start + j * PAGE_SIZE) (hle : start ≤ r) : ¬FreeRange m d len r := by
  intro hr
  by_cases hcur : r ≤ start + j * PAGE_SIZE
  case pos =>
    have := (hr.covers hs hfew hle hcur).1
    omega
  case neg =>
    have := (hr.free 0 (by omega)).1
    omega

-- The pages from `start` up to the current one are free, and there are not enough of them yet.
theorem pagedirFindfreeLoop_spec (len : ℕ) (hd : Dir s d) (hs : start % PAGE_SIZE = 0)
    (hfew : j = 0 ∨ j * PAGE_SIZE < len)
    (hfree : ∀ i < j, start + i * PAGE_SIZE < FINDFREE_END ∧
      pageAt s.mem d (pageOf (start + i * PAGE_SIZE)) = none)
    (hfuel : FINDFREE_END ≤ start + j * PAGE_SIZE + n * PAGE_SIZE) :
    ∃ r, pagedirFindfreeLoop s.mem d len n (start + j * PAGE_SIZE) start = .ok r ∧
      (start ≤ r ∧ FreeRange s.mem d len r ∨ r = 0 ∧ ∀ r', start ≤ r' → ¬FreeRange s.mem d len r') := by
  induction n generalizing start j
  case zero =>
    rw [Nat.zero_mul, Nat.add_zero] at hfuel
    exact ⟨0, rfl, .inr ⟨rfl, fun _ => FreeRange.not_end hs hfew hfuel⟩⟩
  case succ n hind =>
    rw [pagedirFindfreeLoop]
    by_cases hend : start + j * PAGE_SIZE < FINDFREE_END
    case neg => exact ⟨0, by rw [if_pos hend], .inr ⟨rfl, fun _ => FreeRange.not_end hs hfew (by omega)⟩⟩
    case pos =>
      obtain ⟨page, hentry, hpresent⟩ := hd.findfree_entry hend
      rw [if_neg (not_not.mpr hend), hentry]
      simp only [bind, Except.bind, pure, Except.pure]
      have hnext : start + j * PAGE_SIZE + PAGE_SIZE = start + (j + 1) * PAGE_SIZE := by
        rw [Nat.succ_mul, Nat.add_assoc]
      by_cases hp : page.any Pe.present
      case pos =>
        rw [if_pos hp]
        have hs' : (start + j * PAGE_SIZE + PAGE_SIZE) % PAGE_SIZE = 0 := by
          simp only [PAGE_SIZE] at hs ⊢
          omega
        obtain ⟨r, hr, hpost⟩ := hind (j := 0) hs' (.inl rfl) (fun i hi => absurd hi (Nat.not_lt_zero i))
          (by rw [Nat.succ_mul] at hfuel; omega)
        rw [Nat.zero_mul, Nat.add_zero] at hr
        refine ⟨r, hr, hpost.imp (fun h => ⟨by omega, h.2⟩) fun h => ⟨h.1, fun r' hle hfr => ?_⟩⟩
        by_cases hcur : r' ≤ start + j * PAGE_SIZE
        case pos => exact hpresent.mp hp (hfr.covers hs hfew hle hcur).2
        case neg =>
          refine h.2 r' ?_ hfr
          have := hfr.aligned
          simp only [PAGE_SIZE] at *
          omega
      case neg =>
        rw [if_neg hp]
        have habsent : pageAt s.mem d (pageOf (start + j * PAGE_SIZE)) = none := by
          by_contra hne
          exact hp (hpresent.mpr hne)
        have hfree' : ∀ i < j + 1, start + i * PAGE_SIZE < FINDFREE_END ∧
            pageAt s.mem d (pageOf (start + i * PAGE_SIZE)) = none := by
          intro i hi
          obtain hlt | rfl := Nat.lt_succ_iff_lt_or_eq.mp hi
          · exact hfree i hlt
          · exact ⟨hend, habsent⟩
        by_cases hlen : len ≤ start + j * PAGE_SIZE + PAGE_SIZE - start
        case pos =>
          rw [if_pos hlen]
          refine ⟨start, rfl, .inl ⟨le_rfl, hs, fun i hi => hfree' i ?_⟩⟩
          simp only [memflagPages, PAGE_SIZE] at hi hlen
          omega
        case neg =>
          rw [if_neg hlen, hnext]
          refine hind hs (.inr ?_) hfree' ?_
          · rw [hnext] at hlen
            omega
          · rw [Nat.succ_mul] at hfuel
            omega

-- The first range behind `start` which is free, or NULL if there is none.
theorem pagedirFindfree_spec (len : ℕ) (hd : Dir s d) (hs : start % PAGE_SIZE = 0) (hlt : start < 2 ^ 64) :
    ∃ r, pagedirFindfree s.mem d start len = .ok r ∧
      (start ≤ r ∧ FreeRange s.mem d len r ∨ r = 0 ∧ ∀ r', start ≤ r' → ¬FreeRange s.mem d len r') := by
  have hround : (start + (PAGE_SIZE - 1)) % 2 ^ 64 - (start + (PAGE_SIZE - 1)) % 2 ^ 64 % PAGE_SIZE =
      start := by
    simp only [PAGE_SIZE] at hs ⊢
    omega
  have hspec := pagedirFindfreeLoop_spec len (n := FINDFREE_END / PAGE_SIZE) hd hs (.inl rfl)
    (fun i hi => absurd hi (Nat.not_lt_zero i)) (by simp only [FINDFREE_END, PAGE_SIZE]; omega)
  rw [Nat.zero_mul, Nat.add_zero] at hspec
  rw [pagedirFindfree, hround]
  exact hspec

end Findfree

-- What a call has to do, for flags with `MEMFLAG_PRESENT`.
def MemflagExact (s : Phys) (d addr len : ℕ) (flags : Flags) : Prop :=
  ∃ r t, sysMemflag d addr len flags s = .ok (r, t) ∧
    if flags.has MEMFLAG_FINDFREE then MapsFree s d len r t else MapsRequested s d addr len t

-- No address is refused, the absent pages which the loop gets to are the ones in the range, and no page
-- of the user in the range is mapped without the permission to write.
structure PlainRange (s : Phys) (d addr len : ℕ) : Prop where
  accepted  : ∀ k < memflagPages len, addrCanonical (memflagAddr (addr - addr % PAGE_SIZE) k)
  visited   : ∀ n < 512 ^ 4, pageAt s.mem d n = none →
    (n ∈ memflagVisits (addr - addr % PAGE_SIZE) len 0 ↔ Overlaps addr len n)
  writeable : ∀ n < 512 ^ 4, ∀ pe, pageAt s.mem d n = some pe → pe.user → Overlaps addr len n → pe.writeable

-- There is a free range; or there is none, but nothing can be mapped from the address 0 on, or
-- everything can.
def PlainSearch (s : Phys) (d addr len : ℕ) : Prop :=
  (∃ r, addr - addr % PAGE_SIZE ≤ r ∧ FreeRange s.mem d len r) ∨ len ≤ 2 ^ 64 - PAGE_SIZE ∧
    ((∀ n < 512 ^ 4, n ∈ memflagVisits 0 len 0 → pageAt s.mem d n ≠ none) ∨
      ∀ x < len, CpuCanonical x ∧ pageAt s.mem d (pageOf x) = none)

section Exact

variable {s t : Phys} {d addr len r : ℕ} {flags : Flags}

theorem align_aligned (addr : ℕ) : (addr - addr % PAGE_SIZE) % PAGE_SIZE = 0 := by
  simp only [PAGE_SIZE]
  omega

-- If the loop does not end, then it has got to an address which is refused.
theorem not_accepted (ha : addr % PAGE_SIZE = 0) (hlen : len < 2 ^ 64) (h : 2 ^ 64 - PAGE_SIZE < len) :
    MemflagRefused addr len 0 := by
  refine ⟨(2 ^ 48 + 2 ^ 64 - addr % 2 ^ 64) / PAGE_SIZE % 2 ^ 52, Nat.zero_le _, ?_, ?_⟩
  · simp only [memflagPages, PAGE_SIZE] at h ⊢
    omega
  · have hk : memflagAddr addr ((2 ^ 48 + 2 ^ 64 - addr % 2 ^ 64) / PAGE_SIZE % 2 ^ 52) = 2 ^ 48 := by
      simp only [memflagAddr, PAGE_SIZE] at ha ⊢
      omega
    rw [hk]
    decide

theorem memflagExact_range (hd : Dir s d) (hb : 0 < s.pbitmap) (hlen : len < 2 ^ 64)
    (hp : flags.has MEMFLAG_PRESENT) (hf : flags.has MEMFLAG_FINDFREE = false)
    (hmem : sysMemflag d addr len flags s ≠ .error (.panic .pageAlloc)) :
    MemflagExact s d addr len flags ↔ PlainRange s d addr len := by
  have hloop := sysMemflagLoop_wp (j := 0) (n := memflagPages len) hd hb (align_aligned addr) hlen
    (Nat.zero_add _)
  rw [Nat.zero_mul, Nat.zero_mod] at hloop
  have hrefused : ¬MemflagRefused (addr - addr % PAGE_SIZE) len 0 ↔
      ∀ k < memflagPages len, addrCanonical (memflagAddr (addr - addr % PAGE_SIZE) k) := by
    simp [MemflagRefused]
  have hplain (t : Phys) (h : PagesFilled s d (memflagVisits (addr - addr % PAGE_SIZE) len 0)
      (MemflagRefused (addr - addr % PAGE_SIZE) len 0) t) :
      MapsRequested s d addr len t ↔ PlainRange s d addr len := by
    rw [h.mapsRequested_iff, hrefused]
    exact ⟨fun h => ⟨h.1, h.2.1, h.2.2⟩, fun h => ⟨h.accepted, h.visited, h.writeable⟩⟩
  have hwp : wp (sysMemflag d addr len flags)
      (fun _ t => PagesFilled s d (memflagVisits (addr - addr % PAGE_SIZE) len 0)
        (MemflagRefused (addr - addr % PAGE_SIZE) len 0) t)
      (fun e => e = .panic .pageAlloc ∨ e = .outOfFuel ∧ 2 ^ 64 - PAGE_SIZE < len) s := by
    rw [present_not_findfree hp hf, wp_bind]
    exact wp_post hloop fun _ t ht => wp_pure.mpr ht.1
  rw [MemflagExact, hf]
  simp only [Bool.false_eq_true, if_false]
  constructor
  · rintro ⟨r, t, hr, hm⟩
    have hfilled := wp_of_ok hr hwp
    exact (hplain t hfilled).mp hm
  · intro h
    cases hr : sysMemflag d addr len flags s
    case error e =>
      have hlong := (wp_of_error hr hwp).resolve_left fun he => hmem (he ▸ hr)
      exact absurd (not_accepted (align_aligned _) hlen hlong.2) (hrefused.mpr h.accepted)
    case ok x =>
      have hfilled := wp_of_ok hr hwp
      exact ⟨x.1, x.2, rfl, (hplain x.2 hfilled).mpr h⟩

-- A range which was found is mapped as a whole.
theorem FreeRange.mapsFree {V : Set ℕ} {l : Prop} (hr : FreeRange s.mem d len r)
    (hV : V = memflagVisits r len 0) (h : PagesFilled s d V l t) : MapsFree s d len r t := by
  refine .inl fun x hle hlt => ?_
  have hpages : (x - r) / PAGE_SIZE < memflagPages len := by
    simp only [memflagPages, PAGE_SIZE]
    omega
  obtain ⟨hend, hnone⟩ := hr.free ((x - r) / PAGE_SIZE) (by omega)
  have haligned := hr.aligned
  have hpage : pageOf x = pageOf (r + (x - r) / PAGE_SIZE * PAGE_SIZE) := by
    simp only [pageOf, PAGE_SIZE] at haligned ⊢
    omega
  have haddr : memflagAddr r ((x - r) / PAGE_SIZE) = r + (x - r) / PAGE_SIZE * PAGE_SIZE := by
    simp only [memflagAddr, FINDFREE_END, PAGE_SIZE] at hend ⊢
    omega
  have hcanon : CpuCanonical x := by
    simp only [CpuCanonical, FINDFREE_END, PAGE_SIZE] at hend ⊢
    omega
  have hvisit : pageOf x ∈ V := by
    refine hV ▸ ⟨(x - r) / PAGE_SIZE, Nat.zero_le _, hpages, ?_, by rw [haddr, hpage]⟩
    simp only [haddr, addrCanonical, decide_eq_true_eq]
    simp only [FINDFREE_END] at hend
    omega
  rw [← hpage] at hnone
  obtain ⟨pe, hpe, _⟩ := h.added _ pageOf_lt hnone hvisit
  refine ⟨fun hx => hx.2 hnone, hcanon, ?_⟩
  rw [hpe]
  exact Option.some_ne_none pe

-- After a search without success, the pages from the address 0 on are mapped.
theorem mapsFree_null {l : Prop} (h : PagesFilled s d (memflagVisits 0 len 0) l t)
    (hlen : len ≤ 2 ^ 64 - PAGE_SIZE) : MapsFree s d len 0 t ↔
      (∀ n < 512 ^ 4, n ∈ memflagVisits 0 len 0 → pageAt s.mem d n ≠ none) ∨
        ∀ x < len, CpuCanonical x ∧ pageAt s.mem d (pageOf x) = none := by
  have hvisit {x : ℕ} (hx : x < len) (hc : CpuCanonical x) : pageOf x ∈ memflagVisits 0 len 0 := by
    have haddr : memflagAddr 0 (x / PAGE_SIZE) = x / PAGE_SIZE * PAGE_SIZE := by
      simp only [memflagAddr, PAGE_SIZE] at hlen ⊢
      omega
    refine ⟨x / PAGE_SIZE, Nat.zero_le _, ?_, ?_, ?_⟩
    · simp only [memflagPages, PAGE_SIZE]
      omega
    · rw [haddr, addrCanonical, decide_eq_true_eq]
      simp only [CpuCanonical, PAGE_SIZE] at hc ⊢
      omega
    · rw [haddr]
      simp only [pageOf, PAGE_SIZE]
      omega
  rw [MapsFree, Nat.zero_add]
  constructor
  · rintro (hall | ⟨-, hsame⟩)
    · refine .inr fun x hx => ?_
      obtain ⟨hnot, hmapped⟩ := hall x (Nat.zero_le x) hx
      refine ⟨hmapped.1, ?_⟩
      by_contra hne
      exact hnot ⟨hmapped.1, hne⟩
    · refine .inl fun n hn hv hnone => ?_
      obtain ⟨pe, hpe, _⟩ := h.added n hn hnone hv
      cases hnone.symm.trans ((hsame n hn).symm.trans hpe)
  · rintro (hkept | hall)
    · refine .inr ⟨rfl, fun n hn => ?_⟩
      cases hpe : pageAt s.mem d n
      case none => exact h.absent n hn hpe fun hv => hkept n hn hv hpe
      case some pe => exact h.kept n hn pe hpe
    · refine .inl fun x _ hx => ?_
      obtain ⟨hc, hnone⟩ := hall x hx
      obtain ⟨pe, hpe, _⟩ := h.added _ pageOf_lt hnone (hvisit hx hc)
      refine ⟨fun hm => hm.2 hnone, hc, ?_⟩
      rw [hpe]
      exact Option.some_ne_none pe

theorem memflagExact_search (hd : Dir s d) (hb : 0 < s.pbitmap) (haddr : addr < 2 ^ 64) (hlen : len < 2 ^ 64)
    (hp : flags.has MEMFLAG_PRESENT) (hf : flags.has MEMFLAG_FINDFREE)
    (hmem : sysMemflag d addr len flags s ≠ .error (.panic .pageAlloc)) :
    MemflagExact s d addr len flags ↔ PlainSearch s d addr len := by
  obtain ⟨r, hfind, hspec⟩ := pagedirFindfree_spec len hd (align_aligned addr) (by omega)
  have hra : r % PAGE_SIZE = 0 := hspec.elim (fun h => h.2.aligned) fun h => by rw [h.1]; rfl
  have hloop := sysMemflagLoop_wp (j := 0) (n := memflagPages len) hd hb hra hlen (Nat.zero_add _)
  rw [Nat.zero_mul, Nat.zero_mod] at hloop
  have hwp : wp (sysMemflag d addr len flags)
      (fun r' t => r' = r ∧ PagesFilled s d (memflagVisits r len 0) (MemflagRefused r len 0) t ∧
        len ≤ 2 ^ 64 - PAGE_SIZE)
      (fun e => e = .panic .pageAlloc ∨ e = .outOfFuel ∧ 2 ^ 64 - PAGE_SIZE < len) s := by
    rw [present_findfree hp hf, wp_bind, wp_get, wp_bind, wp_liftM hfind, wp_bind]
    exact wp_post hloop fun _ t ht => wp_pure.mpr ⟨rfl, ht⟩
  have hend (hshort : len ≤ 2 ^ 64 - PAGE_SIZE) :
      ∃ t, sysMemflag d addr len flags s = .ok (r, t) ∧
        PagesFilled s d (memflagVisits r len 0) (MemflagRefused r len 0) t := by
    cases hr : sysMemflag d addr len flags s
    case error e =>
      have hlong := (wp_of_error hr hwp).resolve_left fun he => hmem (he ▸ hr)
      omega
    case ok x =>
      obtain ⟨hx, hfilled, _⟩ := wp_of_ok hr hwp
      exact ⟨x.2, by rw [← hx], hfilled⟩
  rw [MemflagExact, hf]
  simp only [if_true]
  obtain ⟨hle, hfree⟩ | ⟨rfl, hnone⟩ := hspec
  · have hshort : len ≤ 2 ^ 64 - PAGE_SIZE := by
      have := (hfree.free (memflagPages len - 1) (by omega)).1
      simp only [memflagPages, FINDFREE_END, PAGE_SIZE] at this ⊢
      omega
    obtain ⟨t, hr, hfilled⟩ := hend hshort
    exact ⟨fun _ => .inl ⟨r, hle, hfree⟩, fun _ => ⟨r, t, hr, hfree.mapsFree rfl hfilled⟩⟩
  · constructor
    · rintro ⟨r', t, hr, hm⟩
      obtain ⟨hx, hfilled, hshort⟩ := wp_of_ok hr hwp
      subst hx
      exact .inr ⟨hshort, (mapsFree_null hfilled hshort).mp hm⟩
    · rintro (⟨r', hle, hfree⟩ | ⟨hshort, hor⟩)
      · exact absurd hfree (hnone r' hle)
      · obtain ⟨t, hr, hfilled⟩ := hend hshort
        exact ⟨0, t, hr, (mapsFree_null hfilled hshort).mpr hor⟩

-- The plain cases: all addresses are in one half of the address space, and the length reaches to the end
-- of the last page, although it is counted from the beginning of the first one.
theorem plainRange_half (hhalf : addr + len ≤ 2 ^ 47 ∨ 2 ^ 64 - 2 ^ 47 ≤ addr ∧ addr + len ≤ 2 ^ 64)
    (hcount : memflagPages (addr % PAGE_SIZE + len) = memflagPages len)
    (hw : ∀ n < 512 ^ 4, ∀ pe, pageAt s.mem d n = some pe → pe.user → pe.writeable) : PlainRange s d addr len := by
  have haddr {k : ℕ} (hk : k < memflagPages len) : memflagAddr (addr - addr % PAGE_SIZE) k =
      addr - addr % PAGE_SIZE + k * PAGE_SIZE ∧ addr - addr % PAGE_SIZE + k * PAGE_SIZE < addr + len := by
    rw [← hcount] at hk
    simp only [memflagPages, memflagAddr, PAGE_SIZE] at hk ⊢
    omega
  have hcanon {k : ℕ} (hk : k < memflagPages len) :
      addrCanonical (memflagAddr (addr - addr % PAGE_SIZE) k) := by
    obtain ⟨heq, hlt⟩ := haddr hk
    rw [heq, addrCanonical, decide_eq_true_eq]
    simp only [PAGE_SIZE] at hlt ⊢
    omega
  refine ⟨fun k hk => hcanon hk, fun n hn _ => ?_, fun n hn pe hpe hu _ => hw n hn pe hpe hu⟩
  constructor
  · rintro ⟨k, _, hk, _, rfl⟩
    obtain ⟨heq, hlt⟩ := haddr hk
    rw [heq]
    have hpage : pageAddr (pageOf (addr - addr % PAGE_SIZE + k * PAGE_SIZE)) =
        addr - addr % PAGE_SIZE + k * PAGE_SIZE := by
      rw [← signExtend_page (by simp only [PAGE_SIZE]; omega), signExtend_canonical]
      simp only [CpuCanonical, PAGE_SIZE] at hlt ⊢
      omega
    have hpos : 0 < len := by
      simp only [memflagPages, PAGE_SIZE] at hk
      omega
    refine ⟨max addr (addr - addr % PAGE_SIZE + k * PAGE_SIZE), ?_⟩
    rw [hpage]
    simp only [PAGE_SIZE] at hlt ⊢
    omega
  · rintro ⟨x, hle, hlt, hlo, hhi⟩
    obtain ⟨hof, haligned⟩ := pageOf_pageAddr hn
    have hk : (x - (addr - addr % PAGE_SIZE)) / PAGE_SIZE < memflagPages len := by
      rw [← hcount]
      simp only [memflagPages, PAGE_SIZE]
      omega
    refine ⟨(x - (addr - addr % PAGE_SIZE)) / PAGE_SIZE, Nat.zero_le _, hk, hcanon hk, ?_⟩
    have hpage : pageAddr n = addr - addr % PAGE_SIZE +
        (x - (addr - addr % PAGE_SIZE)) / PAGE_SIZE * PAGE_SIZE := by
      simp only [PAGE_SIZE] at *
      omega
    rw [(haddr hk).1, ← hpage, hof]

-- A call does what it has to do if and only if the range, or the result of the search, is a plain one.
theorem sysMemflag_iff (hd : Dir s d) (hb : 0 < s.pbitmap) (haddr : addr < 2 ^ 64) (hlen : len < 2 ^ 64)
    (hp : flags.has MEMFLAG_PRESENT) (hmem : sysMemflag d addr len flags s ≠ .error (.panic .pageAlloc)) :
    MemflagExact s d addr len flags ↔
      if flags.has MEMFLAG_FINDFREE then PlainSearch s d addr len else PlainRange s d addr len := by
  by_cases hf : flags.has MEMFLAG_FINDFREE
  case pos => rw [if_pos hf, memflagExact_search hd hb haddr hlen hp hf hmem]
  case neg => rw [if_neg hf, memflagExact_range hd hb hlen hp (Bool.not_eq_true _ ▸ hf) hmem]

-- A page which is mapped as a whole.
theorem sysMemflag_page : MemflagExact newDirState 8192 4096 4096 MEMFLAG_PRESENT := by
  have hok : (sysMemflag 8192 4096 4096 MEMFLAG_PRESENT newDirState).isOk = true := by decide +kernel
  have hmem : sysMemflag 8192 4096 4096 MEMFLAG_PRESENT newDirState ≠ .error (.panic .pageAlloc) := by
    intro h
    rw [h] at hok
    exact nomatch hok
  refine (sysMemflag_iff newDirState_built.sound.dir (by decide) (by decide) (by decide) (by decide) hmem).mpr ?_
  refine plainRange_half (.inl (by decide)) (by decide) fun n _ pe hpe => ?_
  rw [pageAt_empty newDirState_empty] at hpe
  exact nomatch hpe

-- Two bytes on both sides of the beginning of a page. Only the first of the two pages is mapped.
theorem sysMemflag_crossing :
    sysMemflag 8192 0x1FFF 2 MEMFLAG_PRESENT newDirState ≠ .error (.panic .pageAlloc) ∧
      ¬MemflagExact newDirState 8192 0x1FFF 2 MEMFLAG_PRESENT := by
  have hok : (sysMemflag 8192 0x1FFF 2 MEMFLAG_PRESENT newDirState).isOk = true := by decide +kernel
  have hmem : sysMemflag 8192 0x1FFF 2 MEMFLAG_PRESENT newDirState ≠ .error (.panic .pageAlloc) := by
    intro h
    rw [h] at hok
    exact nomatch hok
  refine ⟨hmem, fun h => ?_⟩
  have hplain := (memflagExact_range newDirState_built.sound.dir (by decide) (by decide) (by decide) (by decide)
    hmem).mp h
  obtain ⟨k, _, hk, _, hn⟩ := (hplain.visited 2 (by decide) (pageAt_empty newDirState_empty 2)).mpr
    ⟨0x2000, by decide, by decide, by decide, by decide⟩
  have hzero : k = 0 := Nat.lt_one_iff.mp hk
  subst hzero
  exact absurd hn (by decide)

end Exact

end Camellia
