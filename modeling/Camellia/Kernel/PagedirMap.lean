import Camellia.Kernel.PagedirUnmap

namespace Camellia

-- The assignment of one of the bits of an entry.
def Pe.withBit (pe : Pe) (i : ℕ) (b : Bool) : Pe :=
  pe - pe / 2 ^ i % 2 * 2 ^ i + b.toNat * 2 ^ i

def Pe.withFlags (pe : Pe) (writeable user : Bool) : Pe :=
  ((pe.withBit 0 true).withBit 1 writeable).withBit 2 user

def addrValidate (addr : ℕ) : P ℕ := do
  passert (addrExtract addr = addr) .addrValidate
  pure addr

-- The next table on the way down to a page. If it is missing, then it is created.
def pagedirMapTable (table i : ℕ) : P ℕ := do
  if ¬(peAt (← get).mem table i).present then
    let addr ← addrValidate (← pageZalloc 1)
    setPe table i (Pe.withFlags addr true true)
  passert (¬(peAt (← get).mem table i).large) .pagedirMapLarge
  pure (addrExtract (peAt (← get).mem table i))

def pagedirMap (dir virt phys : ℕ) (user writeable : Bool) : P Unit := do
  if ¬addrCanonical virt then
    pure ()
  else
    let pdpt ← pagedirMapTable dir (virtPml4 virt)
    let pd ← pagedirMapTable pdpt (virtPdpt virt)
    let pt ← pagedirMapTable pd (virtPd virt)
    let pte := peAt (← get).mem pt (virtPt virt)
    if ¬pte.present then
      setPe pt (virtPt virt) ((pte.withAddress phys).withFlags writeable user)
    else
      throw (.panic .pagedirMapPresent)

section Flags

variable {pe : Pe} {i j a w : ℕ} {b v u : Bool}

theorem testBit_withBit : (pe.withBit i b).testBit j = if j = i then b else pe.testBit j := by
  have h (x : ℕ) : (x - x / 2 ^ i % 2 * 2 ^ i + b.toNat * 2 ^ i).testBit j =
      if j = i then b else x.testBit j := by
    have hpos : 0 < 2 ^ i := Nat.two_pow_pos i
    have hlow : x % 2 ^ i < 2 ^ i := Nat.mod_lt _ hpos
    have hsplit : x = 2 ^ i * (2 * (x / 2 ^ i / 2)) + x / 2 ^ i % 2 * 2 ^ i + x % 2 ^ i := by
      rw [Nat.mul_comm (x / 2 ^ i % 2), ← Nat.mul_add, Nat.div_add_mod, Nat.div_add_mod]
    have hnew : x - x / 2 ^ i % 2 * 2 ^ i + b.toNat * 2 ^ i =
        2 ^ i * (2 * (x / 2 ^ i / 2) + b.toNat) + x % 2 ^ i := by
      rw [Nat.mul_add, Nat.mul_comm (2 ^ i) b.toNat]
      omega
    rw [hnew, Nat.testBit_two_pow_mul_add _ hlow, Nat.testBit_mod_two_pow]
    by_cases hji : j < i
    case pos => simp [hji, hji.ne]
    case neg =>
      obtain ⟨k, rfl⟩ := Nat.exists_eq_add_of_le (not_lt.mp hji)
      rw [if_neg hji, Nat.add_sub_cancel_left, Nat.mul_comm 2]
      cases k
      case zero => cases b <;> simp
      case succ k =>
        have hb : (x / 2 ^ i / 2 * 2 + b.toNat) / 2 = x / 2 ^ i / 2 := by
          cases b <;> simp only [Bool.toNat_false, Bool.toNat_true] <;> omega
        rw [if_neg (by omega), Nat.testBit_succ, hb, ← Nat.testBit_succ, Nat.testBit_div_two_pow,
          Nat.add_comm]
  exact h pe

@[simp]
theorem present_withFlags : (pe.withFlags v u).present = true := by
  simp only [Pe.present, Pe.withFlags, testBit_withBit]
  rfl

@[simp]
theorem writeable_withFlags : (pe.withFlags v u).writeable = v := by
  simp [Pe.withFlags, Pe.writeable, testBit_withBit]

@[simp]
theorem user_withFlags : (pe.withFlags v u).user = u := by
  simp [Pe.withFlags, Pe.user, testBit_withBit]

@[simp]
theorem large_withFlags : (pe.withFlags v u).large = pe.large := by
  simp [Pe.withFlags, Pe.large, testBit_withBit]

-- The flags are below the address.
theorem div_withFlags : Nat.div (pe.withFlags v u) (2 ^ 12) = Nat.div pe (2 ^ 12) := by
  have h (x i : ℕ) (hi : i = 0 ∨ i = 1 ∨ i = 2) (b : Bool) :
      (x - x / 2 ^ i % 2 * 2 ^ i + b.toNat * 2 ^ i) / 2 ^ 12 = x / 2 ^ 12 := by
    obtain rfl | rfl | rfl := hi
    all_goals
      cases b <;> simp only [Bool.toNat_false, Bool.toNat_true] <;> omega
  exact (h _ 2 (by simp) u).trans ((h _ 1 (by simp) v).trans (h pe 0 (by simp) true))

@[simp]
theorem addrExtract_withFlags : addrExtract (pe.withFlags v u) = addrExtract pe :=
  congrArg (· % 2 ^ 40 * 2 ^ 12) div_withFlags

theorem withFlags_lt (h : pe < 256 ^ 8) : pe.withFlags v u < 256 ^ 8 := by
  have hdiv : Nat.div (pe.withFlags v u) (2 ^ 12) = Nat.div pe (2 ^ 12) := div_withFlags
  have hle (x y : ℕ) (h : x / 2 ^ 12 = y / 2 ^ 12) (hy : y < 256 ^ 8) : x < 256 ^ 8 := by omega
  exact hle _ _ hdiv h

end Flags

-- A page was taken as the table for the entry `i` of another table, and it has no entries yet.
structure Adds (s : Phys) (d k N i a c : ℕ) (m : Mem) : Prop where
  depth  : k < 3
  number : N < 512 ^ k
  index  : i < 512
  parent : tableAt s.mem d k N = some a
  absent : (peAt s.mem a i).present = false
  free   : s.Free c
  entry  : peAt m a i = Pe.withFlags c true true
  empty  : ∀ j < 512, peAt m c j = 0
  same   : ∀ k' ≤ 3, ∀ N' < 512 ^ k', ∀ b, tableAt s.mem d k' N' = some b → ∀ j < 512, (b ≠ a ∨ j ≠ i) →
    peAt m b j = peAt s.mem b j

-- The entries above the page tables do not restrict what is below them.
def Permissive (m : Mem) (d : ℕ) : Prop :=
  ∀ k < 3, ∀ N < 512 ^ k, ∀ a, tableAt m d k N = some a → ∀ i < 512, (peAt m a i).present →
    (peAt m a i).user ∧ (peAt m a i).writeable

-- Tables were added to a directory, and nothing else has changed.
structure Extends (s : Phys) (d : ℕ) (t : Phys) : Prop where
  base   : t.pbitmap = s.pbitmap
  len    : t.pbitmapLen = s.pbitmapLen
  dir    : Dir t d
  used   : ∀ a, s.Used a → t.Used a
  tables : ∀ k ≤ 3, ∀ N < 512 ^ k, ∀ a, tableAt s.mem d k N = some a → tableAt t.mem d k N = some a
  added  : ∀ k ≤ 3, ∀ N < 512 ^ k, ∀ a, tableAt t.mem d k N = some a →
    tableAt s.mem d k N = some a ∨ s.Free a
  fresh  : ∀ a, t.Used a → s.Used a ∨ ∃ k ≤ 3, ∃ N < 512 ^ k, tableAt t.mem d k N = some a
  pages  : ∀ n < 512 ^ 4, pageAt t.mem d n = pageAt s.mem d n
  perm   : Permissive s.mem d → Permissive t.mem d

section Grow

variable {s t u : Phys} {m : Mem} {d k N i j a c n M : ℕ} {E : Fault → Prop}

theorem child_lt (hN : N < 512 ^ k) (hi : i < 512) : N * 512 + i < 512 ^ (k + 1) := by
  rw [Nat.pow_succ]
  omega

-- What is in use now was in use before, or the allocator handed it out.
theorem Taken.used_or_mem {F : List ℕ} (h : Taken s F t) (ha : t.Used a) : s.Used a ∨ a ∈ F := by
  have ⟨i, hi, hr, hb⟩ := ha
  rw [h.bits, Bool.or_eq_true, decide_eq_true_eq, ← h.page_eq, ← hi] at hb
  exact hb.imp_left fun hs => ⟨i, by rw [← h.page_eq, hi], by rw [← h.len]; exact hr, hs⟩

-- What is free after some other pages were taken was free before.
theorem Phys.Free.of_used (hf : u.Free a) (hb : u.pbitmap = s.pbitmap) (hl : u.pbitmapLen = s.pbitmapLen)
    (hu : s.Used a → u.Used a) : s.Free a := by
  have ⟨i, hi, hr, hb⟩ := hf
  have hpage : u.page i = s.page i := by simp [Phys.page, *]
  refine ⟨i, hi.trans hpage, hl ▸ hr, ?_⟩
  by_contra hbit
  refine (hu ⟨i, hi.trans hpage, hl ▸ hr, ?_⟩).not_free hf
  exact Bool.not_eq_false _ ▸ hbit

theorem addrExtract_aligned (ha : a % PAGE_SIZE = 0) (hlt : a < 2 ^ 52) : addrExtract a = a := by
  have : a / 2 ^ 12 % 2 ^ 40 * 2 ^ 12 = a := by
    simp only [PAGE_SIZE] at ha
    omega
  exact this

theorem large_aligned (ha : a % PAGE_SIZE = 0) : Pe.large a = false := by
  have : a.testBit 7 = false := by
    simp only [PAGE_SIZE] at ha
    rw [Nat.testBit_eq_decide_div_mod_eq, decide_eq_false_iff_not]
    omega
  exact this

namespace Adds

variable (h : Adds s d k N i a c m) (hd : Dir s d)
include h

theorem vacant : Camellia.tableAt s.mem d (k + 1) (N * 512 + i) = none := by
  rw [tableAt_child h.index, h.parent, Option.bind_some, tableChild, h.absent, if_neg Bool.false_ne_true]

include hd

theorem addr : addrExtract c = c ∧ Pe.large c = false :=
  have ⟨ha, hlt⟩ := h.free.aligned hd.pool
  ⟨addrExtract_aligned ha hlt, large_aligned ha⟩

theorem tableAt (hj : j ≤ 3) (hM : M < 512 ^ j) : Camellia.tableAt m d j M =
    if j = k + 1 ∧ M = N * 512 + i then some c else Camellia.tableAt s.mem d j M := by
  have hgraft : Radix.Graft 512 (tableChild s.mem) (tableChild m) d 3 k N i a c := {
    at_node := h.parent
    once _ hj M hM ha := hd.unique k h.depth.le N h.number _ hj.le M hM a h.parent ha
    vacant := by rw [tableChild, h.absent, if_neg Bool.false_ne_true]
    added  := by
      rw [tableChild, h.entry, present_withFlags, if_pos rfl, addrExtract_withFlags, (h.addr hd).1]
    leaf j hj := by
      rw [tableChild, h.empty j hj]
      rfl
    others j hj M hM b hb y hy hne := by
      rw [tableChild, tableChild, h.same j hj.le M hM b hb y hy hne]
  }
  exact Radix.node_graft hgraft h.index hj hM

-- The entries for pages which existed are the same.
theorem pteAt (hn : n < 512 ^ 4) : Camellia.pteAt m d n =
    if 3 = k + 1 ∧ n / 512 = N * 512 + i then some (0 : ℕ) else Camellia.pteAt s.mem d n := by
  have hdiv : n / 512 < 512 ^ 3 := div_lt_of_page hn
  have hmod : n % 512 < 512 := Nat.mod_lt _ (by decide)
  rw [Camellia.pteAt, h.tableAt hd le_rfl hdiv]
  by_cases hnew : 3 = k + 1 ∧ n / 512 = N * 512 + i
  case pos => rw [if_pos hnew, if_pos hnew, Option.map_some, h.empty _ hmod]
  case neg =>
    rw [if_neg hnew, if_neg hnew, Camellia.pteAt]
    refine Option.map_congr fun b hb => h.same 3 le_rfl _ hdiv b hb _ hmod (.inl ?_)
    rintro rfl
    have := (hd.unique k h.depth.le N h.number 3 le_rfl _ hdiv b h.parent hb).1
    have := h.depth
    omega

theorem pageAt (hn : n < 512 ^ 4) : Camellia.pageAt m d n = Camellia.pageAt s.mem d n := by
  rw [Camellia.pageAt, h.pteAt hd hn]
  split
  case isFalse => rfl
  case isTrue hnew =>
    have hvacant := h.vacant
    rw [← hnew.1, ← hnew.2] at hvacant
    rw [Camellia.pageAt, Camellia.pteAt, hvacant]
    rfl

-- A table of the directory is the new one, or it was one before.
theorem cases {j M b : ℕ} (hj : j ≤ 3) (hM : M < 512 ^ j) (hb : Camellia.tableAt m d j M = some b) :
    (j = k + 1 ∧ M = N * 512 + i ∧ b = c) ∨ Camellia.tableAt s.mem d j M = some b := by
  rw [h.tableAt hd hj hM] at hb
  split at hb
  case isTrue hx  => exact .inl ⟨hx.1, hx.2, (Option.some_inj.mp hb).symm⟩
  case isFalse hx => exact .inr hb

theorem dir (hu : Taken s [c] t) (hm : t.mem = m) : Dir t d where
  pool := hu.pool hd.pool
  table j hj M hM b hb := by
    rw [hm] at hb
    obtain ⟨_, _, rfl⟩ | hold := h.cases hd hj hM hb
    · exact hu.used_mem (List.mem_singleton_self _)
    · exact hu.used (hd.table j hj M hM b hold)
  unique j hj M hM j' hj' M' hM' b hb hb' := by
    rw [hm] at hb hb'
    have hfree {j M : ℕ} (hj : j ≤ 3) (hM : M < 512 ^ j) (hc : Camellia.tableAt s.mem d j M = some c) :
        False := (hd.table j hj M hM c hc).not_free h.free
    obtain ⟨hj₁, hM₁, hc₁⟩ | hold := h.cases hd hj hM hb
    · obtain ⟨hj₂, hM₂, hc₂⟩ | hold' := h.cases hd hj' hM' hb'
      · exact ⟨hj₂.trans hj₁.symm, hM₂.trans hM₁.symm⟩
      · exact (hfree hj' hM' (hc₁ ▸ hold')).elim
    · obtain ⟨hj₂, hM₂, hc₂⟩ | hold' := h.cases hd hj' hM' hb'
      · exact (hfree hj hM (hc₂ ▸ hold)).elim
      · exact hd.unique j hj M hM j' hj' M' hM' b hold hold'
  small j hj M hM b hb y hy hp := by
    rw [hm] at hb hp ⊢
    obtain ⟨_, _, rfl⟩ | hold := h.cases hd hj.le hM hb
    · rw [h.empty y hy] at hp
      exact nomatch hp
    · by_cases hx : b = a ∧ y = i
      case pos =>
        rw [hx.1, hx.2, h.entry, large_withFlags]
        exact (h.addr hd).2
      case neg =>
        rw [h.same j hj.le M hM b hold y hy (by tauto)] at hp ⊢
        exact hd.small j hj M hM b hold y hy hp
  frame n hn pe hpe huser := by
    rw [hm, h.pageAt hd hn] at hpe
    have ⟨hused, hnot⟩ := hd.frame n hn pe hpe huser
    refine ⟨hu.used hused, fun j hj M hM hb => ?_⟩
    rw [hm] at hb
    obtain ⟨_, _, hc⟩ | hold := h.cases hd hj hM hb
    · exact (hc ▸ hused).not_free h.free
    · exact hnot j hj M hM hold
  once n hn n' hn' pe pe' hpe hpe' := by
    rw [hm, h.pageAt hd hn] at hpe
    rw [hm, h.pageAt hd hn'] at hpe'
    exact hd.once n hn n' hn' pe pe' hpe hpe'

theorem permissive (hp : Permissive s.mem d) : Permissive m d := by
  intro j hj M hM b hb y hy hpres
  obtain ⟨_, _, rfl⟩ | hold := h.cases hd hj.le hM hb
  · rw [h.empty y hy] at hpres
    exact nomatch hpres
  · by_cases hx : b = a ∧ y = i
    case pos =>
      rw [hx.1, hx.2, h.entry]
      exact ⟨user_withFlags, writeable_withFlags⟩
    case neg =>
      rw [h.same j hj.le M hM b hold y hy (by tauto)] at hpres ⊢
      exact hp j hj M hM b hold y hy hpres

theorem extended (hu : Taken s [c] t) (hm : t.mem = m) : Extends s d t where
  base   := hu.base
  len    := hu.len
  dir    := h.dir hd hu hm
  used _ := hu.used
  tables j hj M hM b hb := by
    rw [hm, h.tableAt hd hj hM]
    refine (if_neg ?_).trans hb
    rintro ⟨rfl, rfl⟩
    exact nomatch hb.symm.trans h.vacant
  added j hj M hM b hb := by
    obtain ⟨_, _, rfl⟩ | hold := h.cases hd hj hM (hm ▸ hb)
    · exact .inr h.free
    · exact .inl hold
  fresh b hb := by
    refine (hu.used_or_mem hb).imp_right fun hmem => ?_
    refine ⟨k + 1, h.depth, N * 512 + i, child_lt h.number h.index, ?_⟩
    rw [hm, h.tableAt hd h.depth (child_lt h.number h.index), if_pos ⟨rfl, rfl⟩, List.mem_singleton.mp hmem]
  pages n hn := by rw [hm, h.pageAt hd hn]
  perm   := hm ▸ h.permissive hd

end Adds

namespace Extends

theorem refl (hd : Dir s d) : Extends s d s where
  base   := rfl
  len    := rfl
  dir    := hd
  used _ := id
  tables _ _ _ _ _ := id
  added _ _ _ _ _ := .inl
  fresh _ := .inl
  pages _ _ := rfl
  perm   := id

theorem trans (h : Extends s d u) (h' : Extends u d t) : Extends s d t where
  base   := h'.base.trans h.base
  len    := h'.len.trans h.len
  dir    := h'.dir
  used a := h'.used a ∘ h.used a
  tables k hk N hN a := h'.tables k hk N hN a ∘ h.tables k hk N hN a
  added k hk N hN a ha := by
    refine (h'.added k hk N hN a ha).elim (h.added k hk N hN a) fun hf => .inr ?_
    exact hf.of_used h.base h.len (h.used a)
  fresh a ha := by
    refine (h'.fresh a ha).elim (fun hu => ?_) .inr
    refine (h.fresh a hu).imp_right fun ⟨k, hk, N, hN, hn⟩ => ⟨k, hk, N, hN, ?_⟩
    exact h'.tables k hk N hN a hn
  pages n hn := (h'.pages n hn).trans (h.pages n hn)
  perm   := h'.perm ∘ h.perm

end Extends

theorem pageZalloc_or : wp (pageZalloc 1)
    (fun c t => Taken s [c] t ∧ t.mem = s.mem.fill c 0 PAGE_SIZE) (· = .panic .pageAlloc) s := by
  simp only [pageZalloc, wp_bind]
  refine wp_post pageAlloc_one_or fun c t ht => ?_
  simp only [wp_bind, wp_modify, wp_pure, Nat.one_mul]
  exact ⟨ht.taken.withMem, by rw [ht.mem]⟩

theorem adds_stored (hd : Dir s d) (hk : k < 3) (hN : N < 512 ^ k) (hi : i < 512)
    (ha : tableAt s.mem d k N = some a) (hp : (peAt s.mem a i).present = false) (hc : s.Free c) :
    Adds s d k N i a c ((s.mem.fill c 0 PAGE_SIZE).storeNat (a + 8 * i) 8 (Pe.withFlags c true true)) := by
  have hused := hd.table k hk.le N hN a ha
  have hlt : c < 2 ^ 52 := (hc.aligned hd.pool).2
  have hfill {b j : ℕ} (hb : s.Used b) (hj : j < 512) :
      peAt (s.mem.fill c 0 PAGE_SIZE) b j = peAt s.mem b j := by
    obtain ⟨x, rfl⟩ := hb.isPage
    obtain ⟨y, rfl⟩ := hc.isPage
    have hne := hb.ne_free hc
    refine Mem.load_fill_ne ?_
    simp only [Phys.page, PAGE_SIZE] at hne ⊢
    omega
  exact {
    depth  := hk
    number := hN
    index  := hi
    parent := ha
    absent := hp
    free   := hc
    entry  := peAt_storeNat (withFlags_lt (hlt.trans (by decide)))
    empty j hj := by
      rw [peAt_storeNat_page hused.isPage hc.isPage hi hj (hused.ne_free hc).symm, peAt_fill hj]
    same k' hk' N' hN' b hb j hj hne := by
      have hb := hd.table k' hk' N' hN' b hb
      rw [← hfill hb hj]
      by_cases hab : b = a
      case pos =>
        subst hab
        exact peAt_storeNat_ne ((hne.resolve_left (not_not.mpr rfl)).symm)
      case neg => exact peAt_storeNat_page hused.isPage hb.isPage hi hj hab
  }

-- One step down the tables.
theorem pagedirMapTable_wp (hd : Dir s d) (hk : k < 3) (hN : N < 512 ^ k) (hi : i < 512)
    (ha : tableAt s.mem d k N = some a) :
    wp (pagedirMapTable a i)
      (fun c t => Extends s d t ∧ tableAt t.mem d (k + 1) (N * 512 + i) = some c)
      (· = .panic .pageAlloc) s := by
  have hfinish {t : Phys} (h : Extends s d t) (hp : (peAt t.mem a i).present) :
      wp (do
        passert (¬(peAt (← get).mem a i).large) .pagedirMapLarge
        pure (addrExtract (peAt (← get).mem a i)))
        (fun c t => Extends s d t ∧ tableAt t.mem d (k + 1) (N * 512 + i) = some c)
        (· = .panic .pageAlloc) t := by
    have hat := h.tables k hk.le N hN a ha
    have hl := h.dir.small k hk N hN a hat i hi hp
    simp only [wp_bind, wp_get, wp_passert, wp_pure, hl, Bool.false_eq_true, not_false_eq_true,
      true_implies, not_true_eq_false, false_implies, and_true]
    refine ⟨h, ?_⟩
    rw [tableAt_child hi, hat, Option.bind_some, tableChild, if_pos hp]
  simp only [pagedirMapTable]
  rw [wp_bind, wp_get]
  by_cases hp : (peAt s.mem a i).present
  case pos =>
    simp only [hp, not_true_eq_false, if_false]
    exact hfinish (Extends.refl hd) hp
  case neg =>
    simp only [hp, Bool.false_eq_true, not_false_eq_true, if_true]
    rw [wp_bind]
    refine wp_post pageZalloc_or fun c u hx => ?_
    obtain ⟨hu, hm⟩ := hx
    have hc := hu.free c (List.mem_singleton_self c)
    obtain ⟨haligned, hlt⟩ := hc.aligned hd.pool
    have hadds := adds_stored hd hk hN hi ha (Bool.not_eq_true _ ▸ hp) hc
    simp only [addrValidate, addrExtract_aligned haligned hlt, bind_assoc, wp_bind, wp_passert, wp_pure, wp_setPe,
      true_implies, not_true_eq_false, false_implies, and_true]
    rw [hm, ← wp_bind]
    refine hfinish (hadds.extended hd (hu.withMem) rfl) ?_
    rw [hadds.entry, present_withFlags]

end Grow

-- A page was mapped, and every other one is mapped as before.
structure Mapped (s : Phys) (d n : ℕ) (pe : Pe) (t : Phys) : Prop where
  base   : t.pbitmap = s.pbitmap
  len    : t.pbitmapLen = s.pbitmapLen
  used   : ∀ a, s.Used a → t.Used a
  tables : ∀ k ≤ 3, ∀ N < 512 ^ k, ∀ a, tableAt s.mem d k N = some a → tableAt t.mem d k N = some a
  added  : ∀ k ≤ 3, ∀ N < 512 ^ k, ∀ a, tableAt t.mem d k N = some a →
    tableAt s.mem d k N = some a ∨ s.Free a
  fresh  : ∀ a, t.Used a → s.Used a ∨ ∃ k ≤ 3, ∃ N < 512 ^ k, tableAt t.mem d k N = some a
  vacant : pageAt s.mem d n = none
  page   : pageAt t.mem d n = some pe
  others : ∀ n' < 512 ^ 4, n' ≠ n → pageAt t.mem d n' = pageAt s.mem d n'
  perm   : Permissive s.mem d → Permissive t.mem d

-- The frame is in use, but not for the tables and the user's pages of the directory.
structure Spare (s : Phys) (d phys : ℕ) : Prop where
  used   : s.Used phys
  tables : ∀ k ≤ 3, ∀ N < 512 ^ k, tableAt s.mem d k N ≠ some phys
  frames : ∀ n < 512 ^ 4, ∀ pe, pageAt s.mem d n = some pe → pe.user → addrExtract pe ≠ phys

section Map

variable {s t u : Phys} {d n a virt phys : ℕ} {pe : Pe} {user writeable : Bool} {E : Fault → Prop}

theorem Spare.extends (h : Spare s d phys) (he : Extends s d t) : Spare t d phys where
  used := he.used phys h.used
  tables k hk N hN ha := (he.added k hk N hN phys ha).elim (h.tables k hk N hN) h.used.not_free
  frames n hn pe hpe := h.frames n hn pe (he.pages n hn ▸ hpe)

theorem Permissive.of_same {m m' : Mem} (h : Permissive m d) (hs : SameTables m m' d) : Permissive m' d := by
  intro k hk N hN a ha i hi hp
  rw [hs.tableAt hk.le hN] at ha
  rw [hs k hk N hN a ha i hi] at hp ⊢
  exact h k hk N hN a ha i hi hp

-- The entry of a page which was not present was written.
theorem Dir.map_page (hd : Dir s d) (hn : n < 512 ^ 4) (ha : tableAt s.mem d 3 (n / 512) = some a)
    (hpe : pe < 256 ^ 8) (hp : pe.present) (hnone : pageAt s.mem d n = none)
    (hs : pe.user → Spare s d (addrExtract pe))
    (ht : t = { s with mem := s.mem.storeNat (a + 8 * (n % 512)) 8 pe }) : Dir t d ∧ Mapped s d n pe t := by
  subst ht
  have hsame := hd.sameTables_store (w := pe) (i := n % 512) (div_lt_of_page hn) (Nat.mod_lt _ (by decide)) ha
  have hpage : pageAt (s.mem.storeNat (a + 8 * (n % 512)) 8 pe) d n = some pe := by
    rw [pageAt_some, hd.pteAt_store hn ha hpe hn, if_pos rfl]
    exact ⟨rfl, hp⟩
  have hothers (n' : ℕ) (hn' : n' < 512 ^ 4) (hne : n' ≠ n) :
      pageAt (s.mem.storeNat (a + 8 * (n % 512)) 8 pe) d n' = pageAt s.mem d n' := by
    rw [pageAt, hd.pteAt_store hn ha hpe hn', if_neg hne]
    rfl
  refine ⟨hd.of_tables ⟨hd.pool.aligned, hd.pool.fits⟩ hsame hd.table ?_ ?_, ?_⟩
  · intro n' hn' pe' hpe' hu'
    by_cases hne : n' = n
    case pos =>
      subst hne
      obtain rfl := Option.some_inj.mp (hpage.symm.trans hpe')
      exact ⟨(hs hu').used, (hs hu').tables⟩
    case neg => exact hd.frame n' hn' pe' (hothers n' hn' hne ▸ hpe') hu'
  · intro n₁ hn₁ n₂ hn₂ pe₁ pe₂ hpe₁ hpe₂ hu₁ hu₂ heq
    by_cases h₁ : n₁ = n
    case pos =>
      subst h₁
      obtain rfl := Option.some_inj.mp (hpage.symm.trans hpe₁)
      by_contra h₂
      exact (hs hu₁).frames n₂ hn₂ pe₂ (hothers n₂ hn₂ h₂ ▸ hpe₂) hu₂ heq
    case neg =>
      rw [hothers n₁ hn₁ h₁] at hpe₁
      by_cases h₂ : n₂ = n
      case pos =>
        subst h₂
        obtain rfl := Option.some_inj.mp (hpage.symm.trans hpe₂)
        exact ((hs hu₂).frames n₁ hn₁ pe₁ hpe₁ hu₁ heq.symm).elim
      case neg => exact hd.once n₁ hn₁ n₂ hn₂ pe₁ pe₂ hpe₁ (hothers n₂ hn₂ h₂ ▸ hpe₂) hu₁ hu₂ heq
  · exact {
      base   := rfl
      len    := rfl
      used _ := id
      tables k hk N hN _ ha := (hsame.tableAt hk hN).trans ha
      added k hk N hN _ ha := .inl ((hsame.tableAt hk hN).symm.trans ha)
      fresh _ := .inl
      vacant := hnone
      page   := hpage
      others := hothers
      perm h := h.of_same hsame
    }

theorem Extends.mapped (he : Extends s d u) (hm : Mapped u d n pe t) (hn : n < 512 ^ 4) :
    Mapped s d n pe t where
  base   := hm.base.trans he.base
  len    := hm.len.trans he.len
  used a := hm.used a ∘ he.used a
  tables k hk N hN a := hm.tables k hk N hN a ∘ he.tables k hk N hN a
  added k hk N hN a ha := by
    refine (hm.added k hk N hN a ha).elim (he.added k hk N hN a) fun hf => .inr ?_
    exact hf.of_used he.base he.len (he.used a)
  fresh a ha := by
    refine (hm.fresh a ha).elim (fun hu => ?_) .inr
    refine (he.fresh a hu).imp_right fun ⟨k, hk, N, hN, hat⟩ => ⟨k, hk, N, hN, ?_⟩
    exact hm.tables k hk N hN a hat
  vacant := he.pages n hn ▸ hm.vacant
  page   := hm.page
  others n' hn' hne := (hm.others n' hn' hne).trans (he.pages n' hn')
  perm   := hm.perm ∘ he.perm

theorem addrExtract_withAddress' : addrExtract (pe.withAddress phys) = addrExtract phys := by
  have (w : ℕ) : replaceAddress w phys / 2 ^ 12 % 2 ^ 40 * 2 ^ 12 = phys / 2 ^ 12 % 2 ^ 40 * 2 ^ 12 := by
    simp only [replaceAddress]
    omega
  exact this pe

theorem page_div_lt (hn : n < 512 ^ 4) : n / 512 / 512 / 512 < 512 ^ 1 ∧ n / 512 / 512 < 512 ^ 2 := by
  omega

-- The tables above a page, which are created as needed.
theorem pagedirMap_tables (hd : Dir s d) : wp (do
      let pdpt ← pagedirMapTable d (virtPml4 virt)
      let pd ← pagedirMapTable pdpt (virtPdpt virt)
      pagedirMapTable pd (virtPd virt))
    (fun pt t => Extends s d t ∧ tableAt t.mem d 3 (pageOf virt / 512) = some pt)
    (· = .panic .pageAlloc) s := by
  have h₁ : 0 * 512 + virtPml4 virt = pageOf virt / 512 / 512 / 512 := by
    simp only [virtPml4, pageOf, PAGE_SIZE]
    omega
  have h₂ : pageOf virt / 512 / 512 / 512 * 512 + virtPdpt virt = pageOf virt / 512 / 512 := by
    have : virtPdpt virt = pageOf virt / 512 / 512 % 512 := by
      simp only [virtPdpt, pageOf, PAGE_SIZE]
      omega
    rw [this, Nat.div_add_mod']
  have h₃ : pageOf virt / 512 / 512 * 512 + virtPd virt = pageOf virt / 512 := by
    have : virtPd virt = pageOf virt / 512 % 512 := by
      simp only [virtPd, pageOf, PAGE_SIZE]
      omega
    rw [this, Nat.div_add_mod']
  obtain ⟨hlt₁, hlt₂⟩ := page_div_lt (@pageOf_lt virt)
  rw [wp_bind]
  refine wp_post (pagedirMapTable_wp hd (by decide) Nat.one_pos (Nat.mod_lt _ (by decide)) tableAt_zero) ?_
  rintro pdpt t₁ ⟨he₁, ha₁⟩
  rw [h₁] at ha₁
  rw [wp_bind]
  refine wp_post (pagedirMapTable_wp he₁.dir (by decide) hlt₁ (Nat.mod_lt _ (by decide)) ha₁) ?_
  rintro pd t₂ ⟨he₂, ha₂⟩
  rw [h₂] at ha₂
  refine wp_post (pagedirMapTable_wp he₂.dir (by decide) hlt₂ (Nat.mod_lt _ (by decide)) ha₂) ?_
  rintro pt t₃ ⟨he₃, ha₃⟩
  rw [h₃] at ha₃
  exact ⟨(he₁.trans he₂).trans he₃, ha₃⟩

-- What `pagedir_map` does for a page which is not present. It may run out of memory.
theorem pagedirMap_wp (hd : Dir s d) (hs : user → Spare s d (addrExtract phys)) :
    wp (pagedirMap d virt phys user writeable)
      (fun _ t => if addrCanonical virt then
          Dir t d ∧ ∃ pe, Mapped s d (pageOf virt) pe t ∧ pe.user = user ∧ pe.writeable = writeable ∧
            addrExtract pe = addrExtract phys
        else
          t = s)
      (fun e => e = .panic .pageAlloc ∨
        e = .panic .pagedirMapPresent ∧ addrCanonical virt ∧ pageAt s.mem d (pageOf virt) ≠ none) s := by
  by_cases hc : addrCanonical virt
  case neg =>
    simp only [pagedirMap, hc, Bool.false_eq_true, not_false_eq_true, if_true, if_false, wp_pure]
  case pos =>
    have hn := @pageOf_lt virt
    have hbind : pagedirMap d virt phys user writeable = (do
        let pdpt ← pagedirMapTable d (virtPml4 virt)
        let pd ← pagedirMapTable pdpt (virtPdpt virt)
        pagedirMapTable pd (virtPd virt)) >>= (fun pt => do
          let pte := peAt (← get).mem pt (virtPt virt)
          if ¬pte.present then
            setPe pt (virtPt virt) ((pte.withAddress phys).withFlags writeable user)
          else
            throw (.panic .pagedirMapPresent)) := by
      simp only [pagedirMap, hc, not_true_eq_false, if_false, bind_assoc]
    simp only [hbind, hc, if_true, true_and]
    rw [wp_bind]
    refine wp_mono (pagedirMap_tables hd) (fun pt t₃ hx => ?_) fun e he => .inl he
    obtain ⟨he, ha⟩ := hx
    rw [wp_bind]
    have hpte : pteAt t₃.mem d (pageOf virt) = some (peAt t₃.mem pt (pageOf virt % 512)) := by
      rw [pteAt, ha, Option.map_some]
    rw [wp_get, virtPt_pageOf]
    by_cases hp : (peAt t₃.mem pt (pageOf virt % 512)).present
    case pos =>
      simp only [hp, not_true_eq_false, if_false, wp_throw]
      refine .inr ⟨trivial, ?_⟩
      rw [← he.pages _ hn, pageAt_some.mpr ⟨hpte, hp⟩]
      exact Option.some_ne_none _
    case neg =>
      simp only [hp, Bool.false_eq_true, not_false_eq_true, if_true, wp_setPe]
      have hnone : pageAt t₃.mem d (pageOf virt) = none := by
        rw [pageAt, hpte, Option.filter_some, if_neg hp]
      generalize hpe : ((peAt t₃.mem pt (pageOf virt % 512)).withAddress phys).withFlags writeable user = pe
      have hlt : pe < 256 ^ 8 := hpe ▸ withFlags_lt (withAddress_lt peAt_lt)
      have hpres : pe.present := hpe ▸ present_withFlags
      have hu : pe.user = user := hpe ▸ user_withFlags
      have hw : pe.writeable = writeable := hpe ▸ writeable_withFlags
      have haddr : addrExtract pe = addrExtract phys := by
        rw [← hpe, addrExtract_withFlags, addrExtract_withAddress']
      have hspare (h : pe.user) : Spare t₃ d (addrExtract pe) := by
        rw [hu] at h
        rw [haddr]
        exact (hs h).extends he
      obtain ⟨hdir, hmapped⟩ := he.dir.map_page hn ha hlt hpres hnone hspare rfl
      exact ⟨hdir, pe, he.mapped hmapped hn, hu, hw, haddr⟩

end Map

end Camellia
