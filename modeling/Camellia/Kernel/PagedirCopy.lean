import Camellia.Kernel.Pagedir

namespace Camellia

-- The pages which belong to a page directory through the entries `l` of one of its tables.
def ownedOf (m : Mem) (level table : ℕ) (l : List ℕ) : List ℕ :=
  l.flatMap fun i => ownedEntry m level (peAt m table i)

def InPage (a x : ℕ) : Prop :=
  a ≤ x ∧ x < a + PAGE_SIZE

def InEntry (table i x : ℕ) : Prop :=
  table + 8 * i ≤ x ∧ x < table + 8 * i + 8

namespace Phys

def IsPage (s : Phys) (a : ℕ) : Prop :=
  ∃ i, a = s.page i

-- The pages are aligned, and their addresses fit into the entries of the tables.
structure Pool (s : Phys) : Prop where
  intro ::
  aligned : s.pbitmap % PAGE_SIZE = 0
  fits : s.page (s.pbitmapLen * 8) ≤ 2 ^ 52

end Phys

-- The allocator handed out the pages `F`.
structure Taken (s : Phys) (F : List ℕ) (t : Phys) : Prop where
  intro ::
  base : t.pbitmap = s.pbitmap
  len : t.pbitmapLen = s.pbitmapLen
  nodup : F.Nodup
  free : ∀ a ∈ F, s.Free a
  bits : ∀ i, t.bitmap.get i = (s.bitmap.get i || decide (s.page i ∈ F))
  count : t.available + F.length = s.available

-- Only the entries `l` of a table and the pages `F` were written to.
def Within (m m' : Mem) (table : ℕ) (l F : List ℕ) : Prop :=
  ∀ x, m' x ≠ m x → (∃ i ∈ l, InEntry table i x) ∨ ∃ a ∈ F, InPage a x

-- What `pagedir_copy` relies on when it gets to the entries `l` of two tables.
structure CopyableEntries (level old new : ℕ) (l : List ℕ) (s : Phys) : Prop where
  intro ::
  range : ∀ i ∈ l, i < 512
  pool : s.Pool
  wf : ∀ i ∈ l, WfEntry s.mem level (peAt s.mem old i)
  usedOld : s.Used old
  owned : ∀ a ∈ ownedOf s.mem level old l, s.Used a
  usedNew : s.Used new
  apart : new ∉ old :: ownedOf s.mem level old l
  empty : ∀ i ∈ l, (peAt s.mem new i).present = false
  enough : (ownedOf s.mem level old l).length ≤ s.available

-- What it did with these entries.
structure CopiedEntries (level old new : ℕ) (l : List ℕ) (s t : Phys) : Prop where
  intro ::
  taken : Taken s (ownedOf t.mem level new l) t
  within : Within s.mem t.mem new l (ownedOf t.mem level new l)
  copy : ∀ i ∈ l, CopyEntry s.mem t.mem level (peAt s.mem old i) (peAt t.mem new i)

section Pages

variable {s t u : Phys} {a b i : ℕ} {F G l k : List ℕ} {m m' m₁ : Mem} {table : ℕ}

theorem Phys.Used.isPage (h : s.Used a) : s.IsPage a :=
  have ⟨i, ha, _⟩ := h
  ⟨i, ha⟩

theorem Phys.Free.isPage (h : s.Free a) : s.IsPage a :=
  have ⟨i, ha, _⟩ := h
  ⟨i, ha⟩

theorem Phys.Used.not_free (hu : s.Used a) (hf : s.Free a) : False := by
  have ⟨i, hi, _, hb⟩ := hu
  have ⟨j, hj, _, hb'⟩ := hf
  rw [page_inj (hi.symm.trans hj), hb'] at hb
  exact Bool.false_ne_true hb

theorem Phys.Used.ne_free (hu : s.Used a) (hf : s.Free b) : a ≠ b := by
  rintro rfl
  exact hu.not_free hf

theorem Phys.IsPage.disjoint {x : ℕ} (ha : s.IsPage a) (hb : s.IsPage b) (hne : a ≠ b)
    (hx : InPage a x) : ¬InPage b x := by
  have ⟨i, hi⟩ := ha
  have ⟨j, hj⟩ := hb
  subst hi hj
  exact page_disjoint hne hx

theorem Phys.Free.aligned (hp : s.Pool) (h : s.Free a) : a % PAGE_SIZE = 0 ∧ a < 2 ^ 52 := by
  have ⟨i, hi, hr, _⟩ := h
  have ⟨haligned, hfits⟩ := hp
  simp only [Phys.page, PAGE_SIZE] at *
  omega

theorem InEntry.inPage {x : ℕ} (h : InEntry table i x) (hi : i < 512) : InPage table x := by
  simp only [InEntry, InPage, PAGE_SIZE] at *
  omega

namespace Taken

theorem refl (hb : t.pbitmap = s.pbitmap) (hl : t.pbitmapLen = s.pbitmapLen)
    (hm : t.bitmap = s.bitmap) (hf : t.pbitmapFirstfree = s.pbitmapFirstfree) : Taken s [] t where
  base  := hb
  len   := hl
  nodup := List.nodup_nil
  free  := by simp
  bits  := by simp [hm]
  count := by simp [Phys.available, hm, hf, hl]

-- The allocator does not depend on what the pages hold.
theorem withMem (h : Taken { s with mem := m } F t) : Taken s F { t with mem := m' } :=
  ⟨h.base, h.len, h.nodup, h.free, h.bits, h.count⟩

theorem page_eq (h : Taken s F t) : t.page i = s.page i := by
  simp [Phys.page, h.base]

theorem used (h : Taken s F t) (ha : s.Used a) : t.Used a := by
  have ⟨i, hi, hr, hb⟩ := ha
  refine ⟨i, by rw [h.page_eq, hi], by rw [h.len]; exact hr, ?_⟩
  rw [h.bits, hb, Bool.true_or]

theorem used_mem (h : Taken s F t) (ha : a ∈ F) : t.Used a := by
  have ⟨i, hi, hr, _⟩ := h.free a ha
  refine ⟨i, by rw [h.page_eq, hi], by rw [h.len]; exact hr, ?_⟩
  rw [h.bits, ← hi, decide_eq_true ha, Bool.or_true]

theorem free_of_free (h : Taken s F t) (ha : t.Free a) : s.Free a := by
  have ⟨i, hi, hr, hb⟩ := ha
  rw [h.bits, Bool.or_eq_false_iff] at hb
  exact ⟨i, by rw [← h.page_eq, hi], by rw [← h.len]; exact hr, hb.1⟩

theorem isPage (h : Taken s F t) : t.IsPage a ↔ s.IsPage a := by
  simp only [Phys.IsPage, h.page_eq]

theorem pool (h : Taken s F t) (hp : s.Pool) : t.Pool := by
  refine ⟨by rw [h.base]; exact hp.aligned, ?_⟩
  rw [h.page_eq, h.len]
  exact hp.fits

theorem trans (h : Taken s F u) (h' : Taken u G t) : Taken s (F ++ G) t where
  base  := h'.base.trans h.base
  len   := h'.len.trans h.len
  nodup := by
    refine List.Nodup.append h.nodup h'.nodup fun a ha hb => ?_
    exact (h.used_mem ha).not_free (h'.free a hb)
  free a ha := by
    apply (List.mem_append.mp ha).elim (h.free a)
    intro hb
    exact h.free_of_free (h'.free a hb)
  bits i := by
    rw [h'.bits, h.bits, h.page_eq, Bool.or_assoc, ← Bool.decide_or]
    simp only [List.mem_append]
  count := by
    have hs := h.count
    have hu := h'.count
    rw [List.length_append]
    omega

end Taken

theorem Allocated.taken (h : Allocated s a t) : Taken s [a] t := by
  have ⟨⟨j, ha, hr, hb, ht⟩, hcount⟩ := h
  subst ht
  refine ⟨rfl, rfl, List.nodup_singleton a, ?_, fun i => ?_, hcount⟩
  · intro b hb'
    rw [List.mem_singleton.mp hb']
    exact ⟨j, ha, hr, hb⟩
  · rw [Bitmap.get_set]
    by_cases h : i = j
    case pos => simp [h, ha]
    case neg =>
      have hne : s.page i ≠ s.page j := fun hp => h (page_inj hp)
      simp [h, ha, hne]

theorem Allocated.mem (h : Allocated s a t) : t.mem = s.mem := by
  have ⟨⟨_, _, _, _, ht⟩, _⟩ := h
  rw [ht]

theorem pageZalloc_taken {E : Fault → Prop} (h : 0 < s.available) : wp (pageZalloc 1)
    (fun a t => Taken s [a] t ∧ t.mem = s.mem.fill a 0 PAGE_SIZE) E s := by
  apply wp_post (pageZalloc_one h)
  rintro a t ⟨u, hu, rfl⟩
  refine ⟨hu.taken.withMem, ?_⟩
  rw [hu.mem]

theorem Within.refl : Within m m table l F :=
  fun _ h => absurd rfl h

theorem Within.trans (h : Within m m₁ table l F) (h' : Within m₁ m' table k G) :
    Within m m' table (l ++ k) (F ++ G) := by
  intro x hx
  by_cases hc : m₁ x = m x
  case pos =>
    apply (h' x (by rw [hc]; exact hx)).imp
    · exact fun ⟨i, hi, hin⟩ => ⟨i, List.mem_append_right l hi, hin⟩
    · exact fun ⟨a, ha, hin⟩ => ⟨a, List.mem_append_right F ha, hin⟩
  case neg =>
    apply (h x hc).imp
    · exact fun ⟨i, hi, hin⟩ => ⟨i, List.mem_append_left k hi, hin⟩
    · exact fun ⟨a, ha, hin⟩ => ⟨a, List.mem_append_left G ha, hin⟩

-- A page which is neither the one of the table nor one of the new ones is the same as before.
theorem Within.samePage (h : Within m m' table l F) (hl : ∀ i ∈ l, i < 512) (ha : s.IsPage a)
    (ht : s.IsPage table) (hne : a ≠ table) (hF : ∀ b ∈ F, s.IsPage b ∧ a ≠ b) :
    SamePage m m' a := by
  intro o ho
  by_contra hc
  have hx : InPage a (a + o) := ⟨Nat.le_add_right a o, Nat.add_lt_add_left ho a⟩
  match h _ hc with
  | .inl ⟨i, hi, hin⟩ => exact ha.disjoint ht hne hx (hin.inPage (hl i hi))
  | .inr ⟨b, hb, hin⟩ => exact ha.disjoint (hF b hb).1 (hF b hb).2 hx hin

-- So is an entry of the table which is not among the written ones.
theorem Within.peAt (h : Within m m' table l F) (hi : i < 512) (hn : i ∉ l) (ht : s.IsPage table)
    (hF : ∀ b ∈ F, s.IsPage b ∧ table ≠ b) : peAt m' table i = peAt m table i := by
  apply peAt_congr
  intro j hj
  by_contra hc
  match h _ hc with
  | .inl ⟨k, hk, hin⟩ =>
    have : i ≠ k := fun h => hn (h ▸ hk)
    simp only [InEntry] at hin
    omega
  | .inr ⟨b, hb, hin⟩ =>
    have hx : InPage table (table + 8 * i + j) := by
      simp only [InPage, PAGE_SIZE]
      omega
    exact ht.disjoint (hF b hb).1 (hF b hb).2 hx hin

end Pages

section Copy

variable {s t u : Phys} {level old new i a : ℕ} {l : List ℕ} {E : Fault → Prop}

@[simp]
theorem ownedOf_singleton {m : Mem} :
    ownedOf m level old [i] = ownedEntry m level (peAt m old i) := by
  simp [ownedOf]

theorem ownedOf_cons {m : Mem} : ownedOf m level old (i :: l) =
    ownedEntry m level (peAt m old i) ++ ownedOf m level old l :=
  rfl

theorem mem_ownedOf {m : Mem} :
    a ∈ ownedOf m level old l ↔ ∃ i ∈ l, a ∈ ownedEntry m level (peAt m old i) :=
  List.mem_flatMap

-- A page which was in use is not touched, except for the table which is filled.
theorem CopiedEntries.samePage (h : CopiedEntries level old new l s t) (hl : ∀ i ∈ l, i < 512)
    (hn : s.Used new) (ha : s.Used a) (hne : a ≠ new) : SamePage s.mem t.mem a := by
  apply h.within.samePage hl ha.isPage hn.isPage hne
  intro b hb
  have hf := h.taken.free b hb
  exact ⟨hf.isPage, ha.ne_free hf⟩

theorem CopiedEntries.peAt_ne (h : CopiedEntries level old new l s t) (hn : s.Used new)
    (hi : i < 512) (hnot : i ∉ l) : peAt t.mem new i = peAt s.mem new i := by
  apply h.within.peAt hi hnot hn.isPage
  intro b hb
  have hf := h.taken.free b hb
  exact ⟨hf.isPage, hn.ne_free hf⟩

theorem CopiedEntries.length_ownedOf (h : CopiedEntries level old new l s t) :
    (ownedOf t.mem level new l).length = (ownedOf s.mem level old l).length := by
  simp only [ownedOf, List.length_flatMap]
  refine congrArg List.sum (List.map_congr_left fun i hi => ?_)
  exact (h.copy i hi).length_ownedEntry

namespace CopyableEntries

variable (h : CopyableEntries level old new (i :: l) s)
include h

theorem head : CopyableEntries level old new [i] s where
  range   := by simpa using h.range i List.mem_cons_self
  pool    := h.pool
  wf      := by simpa using h.wf i List.mem_cons_self
  usedOld := h.usedOld
  owned   := by
    intro a ha
    rw [ownedOf_singleton] at ha
    exact h.owned a (List.mem_append_left _ ha)
  usedNew := h.usedNew
  apart   := by
    have := h.apart
    simp only [ownedOf_cons, List.mem_cons, List.mem_append, not_or] at this
    simp [this]
  empty   := by simpa using h.empty i List.mem_cons_self
  enough  := by
    have := h.enough
    simp only [ownedOf_cons, List.length_append] at this
    rw [ownedOf_singleton]
    omega

theorem new_ne_old : old ≠ new := by
  rintro rfl
  exact h.apart List.mem_cons_self

theorem ne_new (ha : a ∈ ownedOf s.mem level old (i :: l)) : a ≠ new := by
  rintro rfl
  exact h.apart (List.mem_cons_of_mem _ ha)

-- The old tables are still the same after the first entry was copied.
theorem peAt_old {j : ℕ} (hc : CopiedEntries level old new [i] s u) (hj : j < 512) :
    peAt u.mem old j = peAt s.mem old j :=
  (hc.samePage h.head.range h.usedNew h.usedOld h.new_ne_old).peAt hj

theorem same_owned (hc : CopiedEntries level old new [i] s u)
    (ha : a ∈ ownedOf s.mem level old (i :: l)) : SamePage s.mem u.mem a :=
  hc.samePage h.head.range h.usedNew (h.owned a ha) (h.ne_new ha)

theorem ownedOf_tail (hc : CopiedEntries level old new [i] s u) :
    ownedOf u.mem level old l = ownedOf s.mem level old l := by
  refine List.flatMap_congr fun j hj => ?_
  rw [h.peAt_old hc (h.range j (List.mem_cons_of_mem i hj))]
  apply ownedEntry_congr
  intro a ha
  exact h.same_owned hc (mem_ownedOf.mpr ⟨j, List.mem_cons_of_mem i hj, ha⟩)

theorem tail (hi : i ∉ l) (hc : CopiedEntries level old new [i] s u) :
    CopyableEntries level old new l u where
  range j hj := h.range j (List.mem_cons_of_mem i hj)
  pool       := hc.taken.pool h.pool
  wf j hj    := by
    rw [h.peAt_old hc (h.range j (List.mem_cons_of_mem i hj))]
    apply (h.wf j (List.mem_cons_of_mem i hj)).congr
    intro a ha
    exact h.same_owned hc (mem_ownedOf.mpr ⟨j, List.mem_cons_of_mem i hj, ha⟩)
  usedOld    := hc.taken.used h.usedOld
  owned a ha := by
    rw [h.ownedOf_tail hc] at ha
    exact hc.taken.used (h.owned a (List.mem_append_right _ ha))
  usedNew    := hc.taken.used h.usedNew
  apart      := by
    have := h.apart
    rw [h.ownedOf_tail hc]
    simp only [ownedOf_cons, List.mem_cons, List.mem_append, not_or] at this
    simp [this]
  empty j hj := by
    have hj' := List.mem_cons_of_mem i hj
    rw [hc.peAt_ne h.usedNew (h.range j hj') ?_]
    · exact h.empty j hj'
    · rw [List.mem_singleton]
      rintro rfl
      exact hi hj
  enough     := by
    have := h.enough
    have hcount := hc.taken.count
    rw [hc.length_ownedOf, ownedOf_singleton] at hcount
    rw [ownedOf_cons, List.length_append] at this
    rw [h.ownedOf_tail hc]
    omega

theorem cons (hi : i ∉ l) (hc : CopiedEntries level old new [i] s u)
    (ht : CopiedEntries level old new l u t) : CopiedEntries level old new (i :: l) s t := by
  have htail := h.tail hi hc
  have hpe : peAt t.mem new i = peAt u.mem new i :=
    ht.peAt_ne htail.usedNew (h.range i List.mem_cons_self) hi
  -- The pages of the first entry are in use when the others are copied.
  have hsame : ∀ a ∈ ownedEntry u.mem level (peAt u.mem new i), SamePage u.mem t.mem a := by
    intro a ha
    rw [← ownedOf_singleton] at ha
    have hne : a ≠ new := fun he => h.usedNew.not_free (he ▸ hc.taken.free a ha)
    exact ht.samePage htail.range htail.usedNew (hc.taken.used_mem ha) hne
  have howned : ownedOf t.mem level new (i :: l) =
      ownedOf u.mem level new [i] ++ ownedOf t.mem level new l := by
    rw [ownedOf_cons, hpe, ownedEntry_congr hsame, ownedOf_singleton]
  refine ⟨?_, ?_, ?_⟩
  · rw [howned]
    exact hc.taken.trans ht.taken
  · rw [howned]
    exact hc.within.trans ht.within
  · intro j hj
    match List.mem_cons.mp hj with
    | .inl he =>
      subst he
      rw [hpe]
      exact (hc.copy j List.mem_cons_self).congr (fun _ _ _ _ => rfl) hsame
    | .inr hj' =>
      have hold : ∀ a ∈ ownedEntry s.mem level (peAt s.mem old j), SamePage s.mem u.mem a :=
        fun a ha => h.same_owned hc (mem_ownedOf.mpr ⟨j, hj, ha⟩)
      have hcopy := ht.copy j hj'
      rw [h.peAt_old hc (h.range j hj)] at hcopy
      apply hcopy.congr
      · intro a ha
        rw [ownedEntry_congr hold] at ha
        exact (hold a ha).symm
      · exact fun _ _ _ _ => rfl

end CopyableEntries

theorem pagedirCopyEntry_forM (h : CopyableEntries level old new l s) (hl : l.Nodup)
    (hentry : ∀ s i, CopyableEntries level old new [i] s →
      wp (pagedirCopyEntry level old new i) (fun _ => CopiedEntries level old new [i] s) E s) :
    wp (l.forM (pagedirCopyEntry level old new))
      (fun _ => CopiedEntries level old new l s) E s := by
  induction l generalizing s
  case nil =>
    show wp (pure ()) _ E s
    rw [wp_pure]
    exact ⟨Taken.refl rfl rfl rfl rfl, Within.refl, by simp⟩
  case cons i l hi =>
    have ⟨hnot, hl⟩ := List.nodup_cons.mp hl
    show wp (pagedirCopyEntry level old new i >>= fun _ => l.forM _) _ E s
    rw [wp_bind]
    refine wp_post (hentry s i h.head) fun _ u hu => ?_
    exact wp_post (hi (h.tail hnot hu) hl) fun _ t ht => h.cons hnot hu ht

@[simp]
theorem wp_setPe {pe : Pe} {Q : Unit → Phys → Prop} : wp (setPe new i pe) Q E s ↔
    Q () { s with mem := s.mem.storeNat (new + 8 * i) 8 pe } := by
  simp [setPe, storeMem]

theorem within_singleton {m m' : Mem} (h : ∀ x, ¬InEntry new i x → ¬InPage a x → m' x = m x) :
    Within m m' new [i] [a] := by
  intro x hx
  by_contra hc
  simp only [List.mem_singleton, exists_eq_left, not_or] at hc
  exact hx (h x hc.1 hc.2)

-- The entry to copy, as it is before the copy.
theorem CopiedEntries.of_absent (h : CopyableEntries level old new [i] s)
    (hp : ¬(peAt s.mem old i).present) : CopiedEntries level old new [i] s s := by
  have hn := h.empty i List.mem_cons_self
  have howned : ownedOf s.mem level new [i] = [] := by
    rw [ownedOf_singleton, ownedEntry_absent (by simp [hn])]
  refine ⟨?_, Within.refl, fun j hj => ?_⟩
  · rw [howned]
    exact Taken.refl rfl rfl rfl rfl
  · rw [List.mem_singleton.mp hj]
    cases level <;> simp only [CopyEntry, hp] <;> exact hn

theorem pagedirCopyEntry_kernel (hp : (peAt s.mem old i).present)
    (hu : ¬(peAt s.mem old i).user) :
    CopiedEntries 0 old new [i] s
      { s with mem := s.mem.storeNat (new + 8 * i) 8 (peAt s.mem old i) } := by
  have hpe : peAt (s.mem.storeNat (new + 8 * i) 8 (peAt s.mem old i)) new i = peAt s.mem old i :=
    peAt_storeNat peAt_lt
  have howned : ownedOf (s.mem.storeNat (new + 8 * i) 8 (peAt s.mem old i)) 0 new [i] = [] := by
    rw [ownedOf_singleton, hpe]
    simp [ownedEntry, hu]
  refine ⟨?_, ?_, fun j hj => ?_⟩
  · rw [howned]
    exact Taken.refl rfl rfl rfl rfl
  · intro x hx
    left
    by_contra hc
    simp only [List.mem_singleton, exists_eq_left] at hc
    exact hx (Mem.storeNat_not_mem hc)
  · rw [List.mem_singleton.mp hj, hpe]
    simp only [CopyEntry, hp, hu, if_true, Bool.false_eq_true, if_false]

theorem pagedirCopyEntry_user (h : CopyableEntries 0 old new [i] s)
    (hp : (peAt s.mem old i).present) (hu : (peAt s.mem old i).user) (hs : Taken s [a] t)
    (ht : t.mem = (memcpy (s.mem.storeNat (new + 8 * i) 8 (peAt s.mem old i)) a
      (addrExtract (peAt s.mem old i)) PAGE_SIZE).storeNat (new + 8 * i) 8
        ((peAt s.mem old i).withAddress a)) : CopiedEntries 0 old new [i] s t := by
  have hi : i < 512 := h.range i List.mem_cons_self
  have hfree : s.Free a := hs.free a List.mem_cons_self
  obtain ⟨haligned, hlt⟩ := hfree.aligned h.pool
  have hmem : addrExtract (peAt s.mem old i) ∈ ownedOf s.mem 0 old [i] := by
    simp [ownedEntry, hp, hu]
  have hsrc : s.Used (addrExtract (peAt s.mem old i)) := h.owned _ hmem
  have hpe : peAt t.mem new i = (peAt s.mem old i).withAddress a := by
    rw [ht]
    exact peAt_storeNat (withAddress_lt peAt_lt)
  have howned : ownedOf t.mem 0 new [i] = [a] := by
    rw [ownedOf_singleton, hpe]
    simp [ownedEntry, hp, hu, addrExtract_withAddress haligned hlt]
  have hdis : a ≤ addrExtract (peAt s.mem old i) ∨
      addrExtract (peAt s.mem old i) + PAGE_SIZE ≤ a := by
    obtain ⟨j, hj, _⟩ := id hfree
    obtain ⟨k, hk, _⟩ := id hsrc
    have hne := hsrc.ne_free hfree
    simp only [Phys.page, PAGE_SIZE] at *
    omega
  rw [memcpy_eq_blit hdis] at ht
  refine ⟨by rw [howned]; exact hs, ?_, fun j hj => ?_⟩
  · rw [howned]
    apply within_singleton
    intro x hentry hpage
    rw [ht, Mem.storeNat_not_mem hentry, Mem.blit_not_mem hpage, Mem.storeNat_not_mem hentry]
  · rw [List.mem_singleton.mp hj, hpe]
    simp only [CopyEntry, hp, hu, if_true, addrExtract_withAddress haligned hlt, true_and]
    intro o ho
    -- The table which is filled is neither the new page nor the one it is copied from.
    have hnew : ¬InEntry new i (a + o) := fun hin => by
      apply hfree.isPage.disjoint h.usedNew.isPage (h.usedNew.ne_free hfree).symm _ (hin.inPage hi)
      exact ⟨Nat.le_add_right a o, Nat.add_lt_add_left ho a⟩
    have hold : ¬InEntry new i (addrExtract (peAt s.mem old i) + o) := fun hin => by
      apply hsrc.isPage.disjoint h.usedNew.isPage (h.ne_new hmem) _ (hin.inPage hi)
      exact ⟨Nat.le_add_right _ o, Nat.add_lt_add_left ho _⟩
    rw [ht, Mem.storeNat_not_mem hnew, Mem.blit_add ho, Mem.storeNat_not_mem hold]

theorem pagedirCopyEntry_zero (h : CopyableEntries 0 old new [i] s) :
    wp (pagedirCopyEntry 0 old new i) (fun _ => CopiedEntries 0 old new [i] s) E s := by
  simp only [pagedirCopyEntry, wp_bind, wp_get, wp_ite, wp_pure, wp_setPe]
  refine ⟨fun hp => ⟨fun hu => ?_, fun hu => ?_⟩, fun hp => ?_⟩
  · have hone : 1 ≤ s.available := by
      have := h.enough
      simpa [ownedEntry, hp, hu] using this
    refine wp_post (pageAlloc_one hone) fun a u hau => ?_
    simp only [wp_bind, wp_modify, wp_setPe]
    apply pagedirCopyEntry_user h hp hu hau.taken.withMem
    rw [hau.mem]
  · exact pagedirCopyEntry_kernel hp hu
  · exact .of_absent h hp

theorem ownedEntry_table {m : Mem} {pe : Pe} (hp : pe.present) : ownedEntry m (level + 1) pe =
    addrExtract pe :: ownedOf m level (addrExtract pe) (List.range 512) := by
  rw [ownedEntry, if_pos hp, ownedOf]

-- A table was allocated for the copy of another one, and nothing was copied yet.
structure Fresh (level old : ℕ) (s : Phys) (a : ℕ) (t : Phys) : Prop where
  intro ::
  pool : s.Pool
  wf : ∀ i < 512, WfEntry s.mem level (peAt s.mem old i)
  used : ∀ b ∈ old :: ownedOf s.mem level old (List.range 512), s.Used b
  taken : Taken s [a] t
  same : ∀ b ∈ old :: ownedOf s.mem level old (List.range 512), SamePage s.mem t.mem b
  zero : ∀ i < 512, peAt t.mem a i = 0
  enough : (old :: ownedOf s.mem level old (List.range 512)).length ≤ s.available

namespace Fresh

variable (h : Fresh level old s a t)
include h

theorem free : s.Free a :=
  h.taken.free a List.mem_cons_self

theorem peAt_old {j : ℕ} (hj : j < 512) : peAt t.mem old j = peAt s.mem old j :=
  (h.same old List.mem_cons_self).peAt hj

theorem same_below {j b : ℕ} (hj : j < 512)
    (hb : b ∈ ownedEntry s.mem level (peAt s.mem old j)) : SamePage s.mem t.mem b :=
  h.same b (List.mem_cons_of_mem _ (mem_ownedOf.mpr ⟨j, List.mem_range.mpr hj, hb⟩))

theorem ownedOf_old : ownedOf t.mem level old (List.range 512) =
    ownedOf s.mem level old (List.range 512) := by
  refine List.flatMap_congr fun j hj => ?_
  have hlt := List.mem_range.mp hj
  rw [h.peAt_old hlt]
  exact ownedEntry_congr fun b hb => h.same_below hlt hb

theorem copyable : CopyableEntries level old a (List.range 512) t where
  range j hj := List.mem_range.mp hj
  pool       := h.taken.pool h.pool
  wf j hj    := by
    have hlt := List.mem_range.mp hj
    rw [h.peAt_old hlt]
    exact (h.wf j hlt).congr fun b hb => h.same_below hlt hb
  usedOld    := h.taken.used (h.used old List.mem_cons_self)
  owned b hb := by
    rw [h.ownedOf_old] at hb
    exact h.taken.used (h.used b (List.mem_cons_of_mem _ hb))
  usedNew    := h.taken.used_mem List.mem_cons_self
  apart      := by
    rw [h.ownedOf_old]
    intro hc
    exact (h.used a hc).not_free h.free
  empty j hj := by
    rw [h.zero j (List.mem_range.mp hj)]
    rfl
  enough     := by
    have henough := h.enough
    have hcount := h.taken.count
    rw [List.length_cons] at henough
    rw [List.length_singleton] at hcount
    rw [h.ownedOf_old]
    omega

variable {u : Phys} (hc : CopiedEntries level old a (List.range 512) t u)
include hc

-- Once the entries are copied, the new table is a copy of the old one as it was in the beginning.
theorem copy {j : ℕ} (hj : j < 512) :
    CopyEntry s.mem u.mem level (peAt s.mem old j) (peAt u.mem a j) := by
  have hcopy := hc.copy j (List.mem_range.mpr hj)
  rw [h.peAt_old hj] at hcopy
  apply hcopy.congr
  · intro b hb
    rw [ownedEntry_congr fun b hb => h.same_below hj hb] at hb
    exact (h.same_below hj hb).symm
  · exact fun _ _ _ _ => rfl

theorem taken_all : Taken s (a :: ownedOf u.mem level a (List.range 512)) u := by
  rw [← List.singleton_append]
  exact h.taken.trans hc.taken

end Fresh

-- The state in which a new table was entered into the table above it.
structure Entered (level old new i : ℕ) (s : Phys) (a : ℕ) (t : Phys) : Prop where
  intro ::
  copyable : CopyableEntries (level + 1) old new [i] s
  present : (peAt s.mem old i).present
  taken : Taken s [a] t
  mem : t.mem = (s.mem.fill a 0 PAGE_SIZE).storeNat (new + 8 * i) 8
    ((peAt s.mem old i).withAddress a)

theorem peAt_fill {m : Mem} (hi : i < 512) : peAt (m.fill a 0 PAGE_SIZE) a i = 0 := by
  have : (m.fill a 0 PAGE_SIZE).load (a + 8 * i) 8 = 0 % 256 ^ 8 := by
    apply Mem.load_eq
    intro k hk
    rw [Mem.fill, if_pos (by simp only [PAGE_SIZE]; omega), Nat.zero_div]
    rfl
  rw [peAt, this, Nat.zero_mod]

namespace Entered

variable (h : Entered level old new i s a t)
include h

theorem index_lt : i < 512 :=
  h.copyable.range i List.mem_cons_self

theorem free : s.Free a :=
  h.taken.free a List.mem_cons_self

theorem new_ne : new ≠ a :=
  h.copyable.usedNew.ne_free h.free

theorem addrExtract_eq : addrExtract ((peAt s.mem old i).withAddress a) = a :=
  have ⟨haligned, hlt⟩ := h.free.aligned h.copyable.pool
  addrExtract_withAddress haligned hlt

theorem within : Within s.mem t.mem new [i] [a] := by
  apply within_singleton
  intro x hentry hpage
  rw [h.mem, Mem.storeNat_not_mem hentry, Mem.fill_not_mem hpage]

theorem ownedOf_old : ownedOf s.mem (level + 1) old [i] = addrExtract (peAt s.mem old i) ::
    ownedOf s.mem level (addrExtract (peAt s.mem old i)) (List.range 512) := by
  rw [ownedOf_singleton, ownedEntry_table h.present]

theorem same_owned {b : ℕ} (hb : b ∈ ownedOf s.mem (level + 1) old [i]) :
    SamePage s.mem t.mem b := by
  have hused := h.copyable.owned b hb
  apply h.within.samePage h.copyable.range hused.isPage h.copyable.usedNew.isPage
  · exact h.copyable.ne_new hb
  · intro c hc
    rw [List.mem_singleton.mp hc]
    exact ⟨h.free.isPage, hused.ne_free h.free⟩

theorem peAt_new : peAt t.mem new i = (peAt s.mem old i).withAddress a := by
  rw [h.mem]
  exact peAt_storeNat (withAddress_lt peAt_lt)

-- The new table is still empty, since its entry is written to a different page.
theorem peAt_table {j : ℕ} (hj : j < 512) : peAt t.mem a j = 0 := by
  have hsame : ∀ k < 8, t.mem (a + 8 * j + k) = s.mem.fill a 0 PAGE_SIZE (a + 8 * j + k) := by
    intro k hk
    have hin : InPage a (a + 8 * j + k) := by
      simp only [InPage, PAGE_SIZE]
      omega
    have hentry : ¬InEntry new i (a + 8 * j + k) := fun hc =>
      h.free.isPage.disjoint h.copyable.usedNew.isPage h.new_ne.symm hin (hc.inPage h.index_lt)
    rw [h.mem, Mem.storeNat_not_mem hentry]
  rw [peAt_congr hsame, peAt_fill hj]

theorem fresh : Fresh level (addrExtract (peAt s.mem old i)) s a t where
  pool      := h.copyable.pool
  wf        := (h.copyable.wf i List.mem_cons_self h.present).2
  used b hb := h.copyable.owned b (by rw [h.ownedOf_old]; exact hb)
  taken     := h.taken
  same b hb := h.same_owned (by rw [h.ownedOf_old]; exact hb)
  zero j hj := h.peAt_table hj
  enough    := by
    rw [← h.ownedOf_old]
    exact h.copyable.enough

theorem copied {u : Phys}
    (hc : CopiedEntries level (addrExtract (peAt s.mem old i)) a (List.range 512) t u) :
    CopiedEntries (level + 1) old new [i] s u := by
  have hcopyable := h.fresh.copyable
  have hnew : t.Used new := h.taken.used h.copyable.usedNew
  have hpe : peAt u.mem new i = (peAt s.mem old i).withAddress a := by
    rw [← h.peAt_new]
    exact (hc.samePage hcopyable.range hcopyable.usedNew hnew h.new_ne).peAt h.index_lt
  have howned : ownedOf u.mem (level + 1) new [i] =
      a :: ownedOf u.mem level a (List.range 512) := by
    rw [ownedOf_singleton, hpe, ownedEntry_table (by rw [present_withAddress, h.present]),
      h.addrExtract_eq]
  refine ⟨?_, ?_, fun j hj => ?_⟩
  · rw [howned]
    exact h.fresh.taken_all hc
  · rw [howned]
    intro x hx
    by_cases hx' : t.mem x = s.mem x
    case neg =>
      apply (h.within x hx').imp_right
      rintro ⟨b, hb, hin⟩
      rw [List.mem_singleton] at hb
      exact ⟨a, List.mem_cons_self, hb ▸ hin⟩
    case pos =>
      right
      match hc.within x (by rw [hx']; exact hx) with
      | .inl ⟨j, hj, hin⟩ => exact ⟨a, List.mem_cons_self, hin.inPage (List.mem_range.mp hj)⟩
      | .inr ⟨b, hb, hin⟩ => exact ⟨b, List.mem_cons_of_mem _ hb, hin⟩
  · rw [List.mem_singleton.mp hj, hpe]
    simp only [CopyEntry, h.present, if_true, h.addrExtract_eq, true_and]
    exact fun j hlt => h.fresh.copy hc hlt

end Entered

theorem pagedirCopyEntry_copied (h : CopyableEntries level old new [i] s) :
    wp (pagedirCopyEntry level old new i) (fun _ => CopiedEntries level old new [i] s) E s := by
  induction level generalizing s old new i
  case zero => exact pagedirCopyEntry_zero h
  case succ level hi =>
    simp only [pagedirCopyEntry, wp_bind, wp_get, wp_ite, wp_pure, wp_passert]
    refine ⟨fun hp => ⟨fun hl => ?_, fun hl => ?_⟩, fun hp => .of_absent h hp⟩
    · have hone : 0 < s.available := by
        have := h.enough
        rw [ownedOf_singleton, ownedEntry_table hp, List.length_cons] at this
        omega
      refine wp_post (pageZalloc_taken hone) fun a t ht => ?_
      simp only [wp_bind, wp_setPe]
      have hentered : Entered level old new i s a { t with
          mem := t.mem.storeNat (new + 8 * i) 8 ((peAt s.mem old i).withAddress a) } := by
        refine ⟨h, hp, ht.1.withMem, ?_⟩
        rw [ht.2]
      have hloop := pagedirCopyEntry_forM hentered.fresh.copyable List.nodup_range fun _ _ => hi
      exact wp_post hloop fun _ v hv => hentered.copied hv
    · obtain ⟨hwl, _⟩ := h.wf i List.mem_cons_self hp
      exact absurd (by simp [hwl]) hl

end Copy
end Camellia
