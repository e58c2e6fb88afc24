import Camellia.Kernel.PagedirFork
import Camellia.Lib.Radix

namespace Camellia

-- The table which an entry of another table refers to.
def tableChild (m : Mem) (table i : ℕ) : Option ℕ :=
  if (peAt m table i).present then some (addrExtract (peAt m table i)) else none

-- The tables of a directory form a tree. The directory itself is at depth 0, and the page tables are
-- at depth 3.
def tableAt (m : Mem) (d k N : ℕ) : Option ℕ :=
  Radix.node 512 (tableChild m) d k N

-- The entry for the page with the number `n`, if there is a page table for it.
def pteAt (m : Mem) (d n : ℕ) : Option Pe :=
  (tableAt m d 3 (n / 512)).map (peAt m · (n % 512))

-- What is mapped as the page with the number `n`.
def pageAt (m : Mem) (d n : ℕ) : Option Pe :=
  (pteAt m d n).filter Pe.present

-- The number of the page in which an address lies. The upper 16 bits do not matter.
def pageOf (virt : ℕ) : ℕ :=
  virt / PAGE_SIZE % 512 ^ 4

-- A directory whose tables and user pages are in use, each of them at only one place, and which has
-- no large pages.
structure Dir (s : Phys) (d : ℕ) : Prop where
  pool   : s.Pool
  table  : ∀ k ≤ 3, ∀ N < 512 ^ k, ∀ a, tableAt s.mem d k N = some a → s.Used a
  unique : ∀ k ≤ 3, ∀ N < 512 ^ k, ∀ k' ≤ 3, ∀ N' < 512 ^ k', ∀ a, tableAt s.mem d k N = some a →
    tableAt s.mem d k' N' = some a → k' = k ∧ N' = N
  small  : ∀ k < 3, ∀ N < 512 ^ k, ∀ a, tableAt s.mem d k N = some a → ∀ i < 512,
    (peAt s.mem a i).present → (peAt s.mem a i).large = false
  frame  : ∀ n < 512 ^ 4, ∀ pe, pageAt s.mem d n = some pe → pe.user →
    s.Used (addrExtract pe) ∧ ∀ k ≤ 3, ∀ N < 512 ^ k, tableAt s.mem d k N ≠ some (addrExtract pe)
  once   : ∀ n < 512 ^ 4, ∀ n' < 512 ^ 4, ∀ pe pe', pageAt s.mem d n = some pe →
    pageAt s.mem d n' = some pe' → pe.user → pe'.user → addrExtract pe' = addrExtract pe → n' = n

-- The entries above the page tables are the same.
def SameTables (m m' : Mem) (d : ℕ) : Prop :=
  ∀ k < 3, ∀ N < 512 ^ k, ∀ a, tableAt m d k N = some a → ∀ i < 512, peAt m' a i = peAt m a i

section Tree

variable {m m' : Mem} {s t : Phys} {d k n N i a virt : ℕ} {pe : Pe}

theorem tableChild_some : tableChild m a i = some n ↔ (peAt m a i).present ∧ addrExtract (peAt m a i) = n := by
  rw [tableChild]
  split <;> simp_all

theorem tableAt_zero : tableAt m d 0 N = some d :=
  rfl

theorem tableAt_child (hi : i < 512) :
    tableAt m d (k + 1) (N * 512 + i) = (tableAt m d k N).bind fun a => tableChild m a i :=
  Radix.node_child hi

theorem SameTables.tableAt (h : SameTables m m' d) (hk : k ≤ 3) (hN : N < 512 ^ k) :
    tableAt m' d k N = tableAt m d k N := by
  refine Radix.node_congr hN fun j hj M hM a ha i hi => ?_
  rw [tableChild, tableChild, h j (by omega) M hM a ha i hi]

theorem pageAt_some : pageAt m d n = some pe ↔ pteAt m d n = some pe ∧ pe.present := by
  simp [pageAt, Option.filter_eq_some_iff]

theorem pageOf_lt : pageOf virt < 512 ^ 4 :=
  Nat.mod_lt _ (by decide)

-- The indices for a page lead to its page table.
theorem tableAt_walk {w x y : ℕ} (hw : w < 512) (hx : x < 512) (hy : y < 512)
    (hN : (w * 512 + x) * 512 + y = N) :
    [w, x, y].foldlM (tableChild m) d = tableAt m d 3 N := by
  have hix : ∀ i ∈ [w, x, y], i < 512 := by simp [hw, hx, hy]
  have hwalk := Radix.node_walk (tableChild m) d 0 0 hix
  simp only [List.length_cons, List.length_nil, List.foldl_cons, List.foldl_nil, Nat.zero_mul,
    Nat.zero_add, hN, Radix.node_zero, Option.bind_some] at hwalk
  exact hwalk.symm

-- A walk of `get_entry` which begins at any of the tables.
theorem Dir.getEntryWalk (h : Dir s d) {ix : List ℕ} (hk : k + ix.length ≤ 3) (hN : N < 512 ^ k)
    (hix : ∀ i ∈ ix, i < 512) (ha : tableAt s.mem d k N = some a) :
    getEntryWalk s.mem a ix = .ok (ix.foldlM (tableChild s.mem) a) := by
  induction ix generalizing k N a
  case nil => rfl
  case cons i ix hind =>
    rw [List.length_cons] at hk
    have hi := hix i List.mem_cons_self
    have hchild := tableAt_child (m := s.mem) (d := d) (k := k) (N := N) hi
    rw [ha, Option.bind_some] at hchild
    rw [Camellia.getEntryWalk, List.foldlM_cons, tableChild]
    by_cases hp : (peAt s.mem a i).present
    case neg => simp [hp]
    case pos =>
      have hl := h.small k (by omega) N hN a ha i hi hp
      rw [tableChild, if_pos hp] at hchild
      simp only [hp, hl, not_true_eq_false, Bool.false_eq_true, if_false, if_true]
      refine hind (by omega) ?_ (fun j hj => hix j (List.mem_cons_of_mem i hj)) hchild
      rw [Nat.pow_succ]
      omega

theorem virt_tables :
    (virtPml4 virt * 512 + virtPdpt virt) * 512 + virtPd virt = pageOf virt / 512 := by
  simp only [virtPml4, virtPdpt, virtPd, pageOf, PAGE_SIZE]
  omega

theorem virtPt_pageOf : virtPt virt = pageOf virt % 512 := by
  simp only [virtPt, pageOf, PAGE_SIZE]
  omega

-- What `get_entry` finds depends on the page in which the address lies.
theorem Dir.getEntry (h : Dir s d) : getEntry s.mem d virt =
    .ok (if addrCanonical virt then pteAt s.mem d (pageOf virt) else none) := by
  have hw : virtPml4 virt < 512 := Nat.mod_lt _ (by decide)
  have hx : virtPdpt virt < 512 := Nat.mod_lt _ (by decide)
  have hy : virtPd virt < 512 := Nat.mod_lt _ (by decide)
  rw [Camellia.getEntry]
  by_cases hc : addrCanonical virt
  case neg =>
    rw [if_pos hc, if_neg hc]
    rfl
  case pos =>
    rw [if_neg (not_not.mpr hc), if_pos hc, h.getEntryWalk le_rfl Nat.one_pos (by simp [hw, hx, hy])
      tableAt_zero, tableAt_walk hw hx hy virt_tables, virtPt_pageOf]
    rfl

end Tree

section Store

variable {m m' : Mem} {s t : Phys} {d k k' n N N' i j a b w : ℕ} {pe : Pe}

-- Entries of different pages do not overlap.
theorem peAt_storeNat_page (ha : s.IsPage a) (hb : s.IsPage b) (hi : i < 512) (hj : j < 512)
    (hne : b ≠ a) : peAt (m.storeNat (a + 8 * i) 8 w) b j = peAt m b j := by
  obtain ⟨x, rfl⟩ := ha
  obtain ⟨y, rfl⟩ := hb
  refine Mem.load_storeNat_ne ?_
  simp only [Phys.page, PAGE_SIZE] at hne ⊢
  omega

-- One entry of a table was written.
theorem Dir.peAt_store (h : Dir s d) (hk : k ≤ 3) (hN : N < 512 ^ k) (hi : i < 512)
    (ha : tableAt s.mem d k N = some a) (hk' : k' ≤ 3) (hN' : N' < 512 ^ k') (hj : j < 512)
    (hb : tableAt s.mem d k' N' = some b) (hne : k' = k → N' = N → j ≠ i) :
    peAt (s.mem.storeNat (a + 8 * i) 8 w) b j = peAt s.mem b j := by
  by_cases hab : b = a
  case pos =>
    subst hab
    obtain ⟨rfl, rfl⟩ := h.unique k hk N hN k' hk' N' hN' b ha hb
    exact peAt_storeNat_ne (hne rfl rfl).symm
  case neg =>
    exact peAt_storeNat_page (h.table k hk N hN a ha).isPage (h.table k' hk' N' hN' b hb).isPage hi hj hab

-- The entry for a page was written.
theorem Dir.sameTables_store (h : Dir s d) (hN : N < 512 ^ 3) (hi : i < 512)
    (ha : tableAt s.mem d 3 N = some a) :
    SameTables s.mem (s.mem.storeNat (a + 8 * i) 8 w) d :=
  fun _ hk _ hM _ hb _ hj => h.peAt_store le_rfl hN hi ha hk.le hM hj hb fun heq => by omega

theorem div_lt_of_page (hn : n < 512 ^ 4) : n / 512 < 512 ^ 3 := by
  omega

theorem Dir.pteAt_store (h : Dir s d) (hn : n < 512 ^ 4) (ha : tableAt s.mem d 3 (n / 512) = some a)
    (hw : w < 256 ^ 8) {n' : ℕ} (hn' : n' < 512 ^ 4) :
    pteAt (s.mem.storeNat (a + 8 * (n % 512)) 8 w) d n' = if n' = n then some w else pteAt s.mem d n' := by
  have hi : n % 512 < 512 := Nat.mod_lt _ (by decide)
  have hj : n' % 512 < 512 := Nat.mod_lt _ (by decide)
  have hsame := h.sameTables_store (w := w) (div_lt_of_page hn) hi ha
  have htable := hsame.tableAt (k := 3) le_rfl (div_lt_of_page hn')
  rw [pteAt, htable]
  by_cases heq : n' = n
  case pos =>
    have hpe : peAt (s.mem.storeNat (a + 8 * (n % 512)) 8 w) a (n % 512) = w := peAt_storeNat hw
    rw [if_pos heq, heq, ha]
    simp only [Option.map_some, hpe]
  case neg =>
    rw [if_neg heq]
    refine Option.map_congr fun b hb => ?_
    exact h.peAt_store le_rfl (div_lt_of_page hn) hi ha le_rfl (div_lt_of_page hn') hj hb
      fun _ hdiv => by omega

-- The tables of a directory are where they were, and the user's pages have frames of their own.
theorem Dir.of_tables (h : Dir s d) (hp : t.Pool) (hs : SameTables s.mem t.mem d)
    (hu : ∀ k ≤ 3, ∀ N < 512 ^ k, ∀ a, tableAt s.mem d k N = some a → t.Used a)
    (hf : ∀ n < 512 ^ 4, ∀ pe, pageAt t.mem d n = some pe → pe.user →
      t.Used (addrExtract pe) ∧ ∀ k ≤ 3, ∀ N < 512 ^ k, tableAt s.mem d k N ≠ some (addrExtract pe))
    (ho : ∀ n < 512 ^ 4, ∀ n' < 512 ^ 4, ∀ pe pe', pageAt t.mem d n = some pe →
      pageAt t.mem d n' = some pe' → pe.user → pe'.user → addrExtract pe' = addrExtract pe → n' = n) :
    Dir t d where
  pool   := hp
  table k hk N hN a ha := hu k hk N hN a (by rwa [← hs.tableAt hk hN])
  unique k hk N hN k' hk' N' hN' a ha ha' := by
    rw [hs.tableAt hk hN] at ha
    rw [hs.tableAt hk' hN'] at ha'
    exact h.unique k hk N hN k' hk' N' hN' a ha ha'
  small k hk N hN a ha i hi hp := by
    rw [hs.tableAt hk.le hN] at ha
    rw [hs k hk N hN a ha i hi] at hp ⊢
    exact h.small k hk N hN a ha i hi hp
  frame n hn pe hpe huser := by
    have ⟨hused, hnot⟩ := hf n hn pe hpe huser
    refine ⟨hused, fun k hk N hN => ?_⟩
    rw [hs.tableAt hk hN]
    exact hnot k hk N hN
  once := ho

-- What is mapped now was mapped before.
theorem Dir.of_same (h : Dir s d) (hp : t.Pool) (hs : SameTables s.mem t.mem d)
    (hu : ∀ k ≤ 3, ∀ N < 512 ^ k, ∀ a, tableAt s.mem d k N = some a → t.Used a)
    (hf : ∀ n < 512 ^ 4, ∀ pe, pageAt t.mem d n = some pe → pe.user →
      pageAt s.mem d n = some pe ∧ t.Used (addrExtract pe)) : Dir t d := by
  refine h.of_tables hp hs hu (fun n hn pe hpe huser => ?_) ?_
  · have ⟨hold, hused⟩ := hf n hn pe hpe huser
    exact ⟨hused, (h.frame n hn pe hold huser).2⟩
  · intro n hn n' hn' pe pe' hpe hpe' huser huser'
    have ⟨hold, _⟩ := hf n hn pe hpe huser
    have ⟨hold', _⟩ := hf n' hn' pe' hpe' huser'
    exact h.once n hn n' hn' pe pe' hold hold' huser huser'

end Store

section Empty

variable {s : Phys} {d k N a : ℕ}

-- A directory without entries has no tables but itself.
theorem tableAt_empty (h : ∀ i < 512, (peAt s.mem d i).present = false)
    (ha : tableAt s.mem d k N = some a) : k = 0 ∧ a = d := by
  induction k generalizing N a
  case zero => exact ⟨rfl, (Option.some_inj.mp ha).symm⟩
  case succ k hi =>
    obtain ⟨p, hp, hc⟩ := Radix.node_succ ha
    obtain ⟨rfl, rfl⟩ := hi hp
    have := (tableChild_some.mp hc).1
    rw [h _ (Nat.mod_lt _ (by decide))] at this
    exact nomatch this

theorem pageAt_empty (h : ∀ i < 512, (peAt s.mem d i).present = false) (n : ℕ) :
    pageAt s.mem d n = none := by
  have hnone : tableAt s.mem d 3 (n / 512) = none :=
    Option.eq_none_iff_forall_ne_some.mpr fun a ha => nomatch (tableAt_empty h ha).1
  rw [pageAt, pteAt, hnone]
  rfl

theorem Dir.of_empty (hp : s.Pool) (hu : s.Used d) (h : ∀ i < 512, (peAt s.mem d i).present = false) :
    Dir s d where
  pool := hp
  table _ _ _ _ a ha := (tableAt_empty h ha).2 ▸ hu
  unique k _ N hN k' _ N' hN' a ha ha' := by
    obtain ⟨rfl, -⟩ := tableAt_empty h ha
    obtain ⟨rfl, -⟩ := tableAt_empty h ha'
    exact ⟨rfl, by omega⟩
  small k _ N _ a ha i hi hp := by
    obtain ⟨-, rfl⟩ := tableAt_empty h ha
    rw [h i hi] at hp
    exact nomatch hp
  frame n _ pe hpe := by
    rw [pageAt_empty h] at hpe
    exact nomatch hpe
  once n _ _ _ pe _ hpe := by
    rw [pageAt_empty h] at hpe
    exact nomatch hpe

end Empty

end Camellia
