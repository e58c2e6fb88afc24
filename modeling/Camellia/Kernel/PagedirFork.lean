import Camellia.Kernel.PagedirCopy
import Mathlib.Data.List.Pairwise

namespace Camellia

-- The allocator took back the pages `F`.
structure Released (s : Phys) (F : List ℕ) (t : Phys) : Prop where
  intro ::
  base : t.pbitmap = s.pbitmap
  len : t.pbitmapLen = s.pbitmapLen
  mem : t.mem = s.mem
  bits : ∀ i, t.bitmap.get i = (s.bitmap.get i && !decide (s.page i ∈ F))

section Free

variable {s t u : Phys} {F G l : List ℕ} {level table i a : ℕ} {E : Fault → Prop}

namespace Released

theorem refl : Released s [] s where
  base := rfl
  len  := rfl
  mem  := rfl
  bits := by simp

theorem page_eq (h : Released s F t) : t.page i = s.page i := by
  simp [Phys.page, h.base]

theorem used (h : Released s F t) (ha : s.Used a) (hn : a ∉ F) : t.Used a := by
  have ⟨i, hi, hr, hb⟩ := ha
  refine ⟨i, by rw [h.page_eq, hi], by rw [h.len]; exact hr, ?_⟩
  rw [h.bits, hb, ← hi, decide_eq_false hn]
  rfl

theorem trans (h : Released s F u) (h' : Released u G t) : Released s (F ++ G) t where
  base   := h'.base.trans h.base
  len    := h'.len.trans h.len
  mem    := h'.mem.trans h.mem
  bits i := by
    rw [h'.bits, h.bits, h.page_eq, Bool.and_assoc, ← Bool.not_or, ← Bool.decide_or]
    simp only [List.mem_append]

-- The order in which the pages are returned does not matter.
theorem congr (h : Released s F t) (hm : ∀ a, a ∈ F ↔ a ∈ G) : Released s G t where
  base   := h.base
  len    := h.len
  mem    := h.mem
  bits i := by
    rw [h.bits]
    simp only [hm]

end Released

theorem pageFree_released (h : s.Used a) : wp (pageFree a 1) (fun _ => Released s [a]) E s := by
  have ⟨i, hi, hr, hb⟩ := h
  subst hi
  refine wp_post (pageFree_one hr hb) ?_
  rintro _ t rfl
  refine ⟨rfl, rfl, rfl, fun j => ?_⟩
  rw [Bitmap.get_set]
  by_cases hj : j = i
  case pos => simp [hj]
  case neg =>
    have hne : s.page j ≠ s.page i := fun hp => hj (page_inj hp)
    simp [hj, hne]

-- What `pagedir_free` relies on when it gets to the entries `l` of a table.
structure Freeable (level table : ℕ) (l : List ℕ) (s : Phys) : Prop where
  intro ::
  wf : ∀ i ∈ l, WfEntry s.mem level (peAt s.mem table i)
  used : ∀ a ∈ ownedOf s.mem level table l, s.Used a
  nodup : (ownedOf s.mem level table l).Nodup

theorem Freeable.head (h : Freeable level table (i :: l) s) : Freeable level table [i] s where
  wf      := by simpa using h.wf i List.mem_cons_self
  used a ha := by
    rw [ownedOf_singleton] at ha
    exact h.used a (List.mem_append_left _ ha)
  nodup   := by
    have := h.nodup
    rw [ownedOf_cons] at this
    rw [ownedOf_singleton]
    exact this.of_append_left

theorem Freeable.tail (h : Freeable level table (i :: l) s)
    (hr : Released s (ownedOf s.mem level table [i]) u) : Freeable level table l u where
  wf j hj   := by
    rw [hr.mem]
    exact h.wf j (List.mem_cons_of_mem i hj)
  used a ha := by
    rw [hr.mem] at ha
    apply hr.used (h.used a (List.mem_append_right _ ha))
    rw [ownedOf_singleton]
    intro hc
    exact List.disjoint_of_nodup_append h.nodup hc ha
  nodup     := by
    rw [hr.mem]
    exact h.nodup.of_append_right

theorem pagedirFreeEntry_forM (h : Freeable level table l s)
    (hentry : ∀ s i, Freeable level table [i] s → wp (pagedirFreeEntry level table i)
      (fun _ => Released s (ownedOf s.mem level table [i])) E s) :
    wp (l.forM (pagedirFreeEntry level table))
      (fun _ => Released s (ownedOf s.mem level table l)) E s := by
  induction l generalizing s
  case nil =>
    show wp (pure ()) _ E s
    rw [wp_pure]
    exact .refl
  case cons i l hi =>
    show wp (pagedirFreeEntry level table i >>= fun _ => l.forM _) _ E s
    rw [wp_bind]
    refine wp_post (hentry s i h.head) fun _ u hu => ?_
    refine wp_post (hi (h.tail hu)) fun _ t ht => ?_
    rw [hu.mem] at ht
    have hboth := hu.trans ht
    rw [ownedOf_singleton] at hboth
    exact hboth

theorem pagedirFreeEntry_released (h : Freeable level table [i] s) :
    wp (pagedirFreeEntry level table i)
      (fun _ => Released s (ownedOf s.mem level table [i])) E s := by
  rw [ownedOf_singleton]
  induction level generalizing s table i
  case zero =>
    simp only [pagedirFreeEntry, wp_bind, wp_get, wp_ite, wp_pure]
    refine ⟨fun hp => ⟨fun hu => ?_, fun hu => ?_⟩, fun hp => ?_⟩
    · have howned : ownedEntry s.mem 0 (peAt s.mem table i) = [addrExtract (peAt s.mem table i)] := by
        simp [ownedEntry, hp, hu]
      rw [howned]
      apply pageFree_released (h.used _ _)
      rw [ownedOf_singleton, howned]
      exact List.mem_cons_self
    · have howned : ownedEntry s.mem 0 (peAt s.mem table i) = [] := by
        simp [ownedEntry, hu]
      rw [howned]
      exact .refl
    · rw [ownedEntry_absent hp]
      exact .refl
  case succ level hi =>
    simp only [pagedirFreeEntry, wp_bind, wp_get, wp_ite, wp_pure, wp_passert]
    refine ⟨fun hp => ⟨fun hl => ?_, fun hl => ?_⟩, fun hp => ?_⟩
    · have howned : ownedOf s.mem (level + 1) table [i] = addrExtract (peAt s.mem table i) ::
          ownedOf s.mem level (addrExtract (peAt s.mem table i)) (List.range 512) := by
        rw [ownedOf_singleton, ownedEntry_table hp]
      obtain ⟨_, hw⟩ := h.wf i List.mem_cons_self hp
      have hnodup := h.nodup
      rw [howned, List.nodup_cons] at hnodup
      have hbelow : Freeable level (addrExtract (peAt s.mem table i)) (List.range 512) s := by
        refine ⟨fun j hj => hw j (List.mem_range.mp hj), fun a ha => ?_, hnodup.2⟩
        apply h.used
        rw [howned]
        exact List.mem_cons_of_mem _ ha
      have hloop := pagedirFreeEntry_forM hbelow fun u j hj => by
        rw [ownedOf_singleton]
        exact hi hj
      refine wp_post hloop fun _ u hu => ?_
      have hused : u.Used (addrExtract (peAt s.mem table i)) := by
        apply hu.used _ hnodup.1
        apply h.used
        rw [howned]
        exact List.mem_cons_self
      refine wp_post (pageFree_released hused) fun _ t ht => ?_
      rw [ownedEntry_table hp]
      apply (hu.trans ht).congr
      intro a
      rw [List.mem_append, List.mem_singleton, List.mem_cons, or_comm]
    · obtain ⟨hwl, _⟩ := h.wf i List.mem_cons_self hp
      exact absurd (by simp [hwl]) hl
    · rw [ownedEntry_absent hp]
      exact .refl

theorem pagedirFree_released {d : ℕ} (h : Freeable 3 d (List.range 512) s) (hd : s.Used d)
    (hn : d ∉ ownedOf s.mem 3 d (List.range 512)) :
    wp (pagedirFree d)
      (fun _ => Released s (d :: ownedOf s.mem 3 d (List.range 512))) E s := by
  rw [pagedirFree, wp_bind]
  have hloop := pagedirFreeEntry_forM (E := E) h fun u j hj => pagedirFreeEntry_released hj
  refine wp_post hloop fun _ u hu => ?_
  refine wp_post (pageFree_released (hu.used hd hn)) fun _ t ht => ?_
  apply (hu.trans ht).congr
  intro a
  rw [List.mem_append, List.mem_singleton, List.mem_cons, or_comm]

end Free

section Lookup

variable {m m' : Mem} {level table table' i i' a u u' virt : ℕ} {ix ix' : List ℕ}

-- A walk down the copied tables takes the same course.
theorem getEntryWalk_copy
    (hc : ∀ i < 512, CopyEntry m m' level (peAt m table i) (peAt m' table' i))
    (hw : ∀ i < 512, WfEntry m level (peAt m table i)) (hl : ix.length = level)
    (hix : ∀ i ∈ ix, i < 512) :
    (getEntryWalk m table ix = .ok none ∧ getEntryWalk m' table' ix = .ok none) ∨
    ∃ u u', getEntryWalk m table ix = .ok (some u) ∧ getEntryWalk m' table' ix = .ok (some u') ∧
      ∀ i < 512, CopyEntry m m' 0 (peAt m u i) (peAt m' u' i) := by
  induction ix generalizing level table table'
  case nil =>
    subst hl
    exact .inr ⟨table, table', rfl, rfl, hc⟩
  case cons i ix hind =>
    subst hl
    have hi : i < 512 := hix i List.mem_cons_self
    have hcopy := hc i hi
    have hpe := hcopy.present_eq
    by_cases hp : (peAt m table i).present
    case neg =>
      left
      simp [getEntryWalk, hpe, hp]
    case pos =>
      obtain ⟨hlarge, hbelow⟩ := hw i hi hp
      simp only [List.length_cons, CopyEntry, hp, if_true] at hcopy
      have hlarge' : (peAt m' table' i).large = false := by
        rw [hcopy.1, large_withAddress, hlarge]
      simp only [getEntryWalk, hpe, hp, hlarge, hlarge', not_true_eq_false, if_false,
        Bool.false_eq_true]
      exact hind hcopy.2 hbelow rfl fun j hj => hix j (List.mem_cons_of_mem i hj)

theorem getEntryWalk_cons (hu : getEntryWalk m table (i :: ix) = .ok (some u)) :
    (peAt m table i).present ∧ getEntryWalk m (addrExtract (peAt m table i)) ix = .ok (some u) := by
  by_cases hp : (peAt m table i).present
  case neg => simp [getEntryWalk, hp] at hu
  case pos =>
    by_cases hlarge : (peAt m table i).large
    case pos => simp [getEntryWalk, hp, hlarge] at hu
    case neg => exact ⟨hp, by simpa [getEntryWalk, hp, hlarge] using hu⟩

-- The pages which a table refers to belong to every directory in which a walk finds the table.
theorem mem_ownedOf_of_walk (hu : getEntryWalk m table ix = .ok (some u)) (hl : ix.length = level)
    (hix : ∀ i ∈ ix, i < 512) (hi : i < 512) (ha : a ∈ ownedEntry m 0 (peAt m u i)) :
    a ∈ ownedOf m level table (List.range 512) := by
  induction ix generalizing level table
  case nil =>
    subst hl
    simp only [getEntryWalk, Except.ok.injEq, Option.some.injEq] at hu
    subst hu
    exact mem_ownedOf.mpr ⟨i, List.mem_range.mpr hi, ha⟩
  case cons j ix hind =>
    subst hl
    have hj : j < 512 := hix j List.mem_cons_self
    obtain ⟨hp, hd⟩ := getEntryWalk_cons hu
    apply mem_ownedOf.mpr ⟨j, List.mem_range.mpr hj, _⟩
    rw [List.length_cons, ownedEntry_table hp]
    apply List.mem_cons_of_mem
    exact hind hd rfl fun k hk => hix k (List.mem_cons_of_mem j hk)

theorem eq_of_mem_ownedEntry (hn : (ownedOf m level table (List.range 512)).Nodup)
    (hi : i < 512) (hi' : i' < 512) (ha : a ∈ ownedEntry m level (peAt m table i))
    (ha' : a ∈ ownedEntry m level (peAt m table i')) : i = i' := by
  by_contra hne
  have ⟨_, hpair⟩ := List.nodup_flatMap.mp hn
  have : Std.Symm (Function.onFun List.Disjoint fun i => ownedEntry m level (peAt m table i)) :=
    ⟨fun _ _ h _ ha hb => h hb ha⟩
  exact hpair.forall (List.mem_range.mpr hi) (List.mem_range.mpr hi') hne ha ha'

-- If no page belongs to a directory twice, then there is only one way to each page.
theorem getEntryWalk_inj (hn : (ownedOf m level table (List.range 512)).Nodup)
    (hu : getEntryWalk m table ix = .ok (some u)) (hu' : getEntryWalk m table ix' = .ok (some u'))
    (hl : ix.length = level) (hl' : ix'.length = level) (hix : ∀ i ∈ ix, i < 512)
    (hix' : ∀ i ∈ ix', i < 512) (hi : i < 512) (hi' : i' < 512)
    (ha : a ∈ ownedEntry m 0 (peAt m u i)) (ha' : a ∈ ownedEntry m 0 (peAt m u' i')) :
    ix = ix' ∧ i = i' := by
  induction ix generalizing level table ix'
  case nil =>
    subst hl
    have hnil := List.length_eq_zero_iff.mp hl'
    subst hnil
    simp only [getEntryWalk, Except.ok.injEq, Option.some.injEq] at hu hu'
    subst hu hu'
    exact ⟨rfl, eq_of_mem_ownedEntry hn hi hi' ha ha'⟩
  case cons j ix hind =>
    subst hl
    cases ix'
    case nil => simp at hl'
    case cons j' ix' =>
      have hj : j < 512 := hix j List.mem_cons_self
      have hj' : j' < 512 := hix' j' List.mem_cons_self
      have hb : ∀ k ∈ ix, k < 512 := fun k hk => hix k (List.mem_cons_of_mem j hk)
      have hb' : ∀ k ∈ ix', k < 512 := fun k hk => hix' k (List.mem_cons_of_mem j' hk)
      have hlen : ix'.length = ix.length := Nat.succ.inj hl'
      obtain ⟨hp, hd⟩ := getEntryWalk_cons hu
      obtain ⟨hp', hd'⟩ := getEntryWalk_cons hu'
      have hmem := mem_ownedOf_of_walk hd rfl hb hi ha
      have hmem' := mem_ownedOf_of_walk hd' hlen hb' hi' ha'
      have he : j = j' := by
        apply eq_of_mem_ownedEntry hn hj hj' (a := a)
        · rw [List.length_cons, ownedEntry_table hp]
          exact List.mem_cons_of_mem _ hmem
        · rw [List.length_cons, ownedEntry_table hp']
          exact List.mem_cons_of_mem _ hmem'
      subst he
      have hbelow : (ownedOf m ix.length (addrExtract (peAt m table j)) (List.range 512)).Nodup := by
        have := (List.nodup_flatMap.mp hn).1 j (List.mem_range.mpr hj)
        rw [List.length_cons, ownedEntry_table hp] at this
        exact (List.nodup_cons.mp this).2
      obtain ⟨heq, hii⟩ := hind hbelow hd hd' rfl hlen hb hb'
      exact ⟨by rw [heq], hii⟩

end Lookup

-- The pages of a directory: the one it consists of, its tables, and the pages of the user.
def pagedirPages (m : Mem) (d : ℕ) : List ℕ :=
  d :: ownedOf m 3 d (List.range 512)

-- The directory is one which `pagedir_copy` may get: there are no large pages, and its pages are in
-- use. The pages of the kernel do not have to be the allocator's, but they are not free either.
structure WfPagedir (s : Phys) (d : ℕ) : Prop where
  intro ::
  pool : s.Pool
  wf : ∀ i < 512, WfEntry s.mem 3 (peAt s.mem d i)
  used : ∀ a ∈ pagedirPages s.mem d, s.Used a
  kernel : ∀ virt pe, getEntry s.mem d virt = .ok (some pe) → pe.present → ¬pe.user →
    ¬s.Free (addrExtract pe)

-- What a directory allows at a virtual address, for the user and for writes, or `none` if nothing is
-- present there.
def pageFlags (m : Mem) (d virt : ℕ) : Except Fault (Option (Bool × Bool)) :=
  (getEntry m d virt).map fun o => (o.filter Pe.present).map fun pe => (pe.user, pe.writeable)

-- In the state `t`, the directory `d'` is an isolated copy of what `d` was in the state `s`. An
-- address is translated by its bits 12 to 47 alone, so these say which page it is in.
structure Isolated (s : Phys) (d d' : ℕ) (t : Phys) : Prop where
  intro ::
  flags : ∀ virt, pageFlags t.mem d' virt = pageFlags s.mem d virt
  kernel : ∀ virt pe, getEntry s.mem d virt = .ok (some pe) → pe.present → ¬pe.user →
    getEntry t.mem d' virt = .ok (some pe)
  user : ∀ virt pe, getEntry s.mem d virt = .ok (some pe) → pe.present → pe.user →
    ∃ pe', getEntry t.mem d' virt = .ok (some pe') ∧ s.Free (addrExtract pe') ∧
      ∀ o < PAGE_SIZE, t.mem (addrExtract pe' + o) = s.mem (addrExtract pe + o)
  distinct : ∀ virt virt' pe pe', getEntry t.mem d' virt = .ok (some pe) →
    getEntry t.mem d' virt' = .ok (some pe') → pe.present → pe.user → pe'.present → pe'.user →
    addrExtract pe = addrExtract pe' → virt / PAGE_SIZE % 2 ^ 36 = virt' / PAGE_SIZE % 2 ^ 36
  tables : ∀ a ∈ pagedirPages s.mem d, SamePage s.mem t.mem a
  reachable : ∀ virt pe, getEntry s.mem d virt = .ok (some pe) → pe.present →
    SamePage s.mem t.mem (addrExtract pe)

-- What `pagedir_copy` does, in terms of the tables.
structure Duplicate (s : Phys) (d d' : ℕ) (t : Phys) : Prop where
  intro ::
  copy : ∀ i < 512, CopyEntry s.mem t.mem 3 (peAt s.mem d i) (peAt t.mem d' i)
  taken : Taken s (pagedirPages t.mem d') t
  changed : ∀ x, t.mem x ≠ s.mem x → ∃ a, s.Free a ∧ InPage a x

section Fork

variable {s t : Phys} {d d' virt : ℕ} {E : Fault → Prop}

theorem pagedirCopy_duplicate (h : WfPagedir s d)
    (henough : (pagedirPages s.mem d).length ≤ s.available) :
    wp (pagedirCopy d) (Duplicate s d) E s := by
  simp only [pagedirCopy, wp_bind]
  have hone : 0 < s.available := by
    rw [pagedirPages, List.length_cons] at henough
    omega
  refine wp_post (pageZalloc_taken hone) fun a u hu => ?_
  have hfree := hu.1.free a List.mem_cons_self
  have hfresh : Fresh 3 d s a u := by
    refine ⟨h.pool, h.wf, h.used, hu.1, fun b hb o ho => ?_, fun i hi => ?_, henough⟩
    · have hin : InPage b (b + o) := ⟨Nat.le_add_right b o, Nat.add_lt_add_left ho b⟩
      have hused := h.used b hb
      rw [hu.2]
      exact Mem.fill_not_mem (hused.isPage.disjoint hfree.isPage (hused.ne_free hfree) hin)
    · rw [hu.2]
      exact peAt_fill hi
  have hloop := pagedirCopyEntry_forM (E := E) hfresh.copyable List.nodup_range
    fun _ _ => pagedirCopyEntry_copied
  rw [wp_bind]
  apply wp_post hloop
  intro _ t ht
  rw [wp_pure]
  refine ⟨fun i hi => hfresh.copy ht hi, hfresh.taken_all ht, fun x hx => ?_⟩
  by_cases hx' : u.mem x = s.mem x
  case neg =>
    refine ⟨a, hfree, ?_⟩
    by_contra hc
    rw [hu.2] at hx'
    exact hx' (Mem.fill_not_mem hc)
  case pos =>
    obtain ⟨j, hj, hin⟩ | ⟨b, hb, hin⟩ := ht.within x (by rw [hx']; exact hx)
    · exact ⟨a, hfree, hin.inPage (List.mem_range.mp hj)⟩
    · exact ⟨b, hu.1.free_of_free (ht.taken.free b hb), hin⟩

theorem indices_lt (virt : ℕ) : ∀ i ∈ [virtPml4 virt, virtPdpt virt, virtPd virt], i < 512 := by
  simp only [List.mem_cons, List.not_mem_nil, or_false]
  rintro i (rfl | rfl | rfl) <;> exact Nat.mod_lt _ (by decide)

theorem virtPt_lt : virtPt virt < 512 :=
  Nat.mod_lt _ (by decide)

theorem getEntry_some {m : Mem} {pe : Pe} (h : getEntry m d virt = .ok (some pe)) :
    ∃ u, getEntryWalk m d [virtPml4 virt, virtPdpt virt, virtPd virt] = .ok (some u) ∧
      pe = peAt m u (virtPt virt) := by
  simp only [getEntry] at h
  split at h
  · cases h
  · cases hw : getEntryWalk m d [virtPml4 virt, virtPdpt virt, virtPd virt]
    case error e => simp [hw, bind, Except.bind] at h
    case ok o =>
      cases o
      case none => simp [hw, bind, Except.bind, pure, Except.pure] at h
      case some u =>
        simp only [hw, bind, Except.bind, pure, Except.pure, Option.map_some, Except.ok.injEq,
          Option.some.injEq] at h
        exact ⟨u, rfl, h.symm⟩

-- The pages of the user belong to the directory.
theorem getEntry_owned {m : Mem} {pe : Pe} (h : getEntry m d virt = .ok (some pe))
    (hp : pe.present) (hu : pe.user) : addrExtract pe ∈ pagedirPages m d := by
  have ⟨u, hw, he⟩ := getEntry_some h
  apply List.mem_cons_of_mem
  apply mem_ownedOf_of_walk hw rfl (indices_lt virt) virtPt_lt
  rw [← he]
  simp [ownedEntry, hp, hu]

namespace Duplicate

variable (hd : Duplicate s d d' t) (h : WfPagedir s d)
include hd h

theorem getEntry_cases (virt : ℕ) :
    (getEntry s.mem d virt = .ok none ∧ getEntry t.mem d' virt = .ok none) ∨
    ∃ pe pe', getEntry s.mem d virt = .ok (some pe) ∧ getEntry t.mem d' virt = .ok (some pe') ∧
      CopyEntry s.mem t.mem 0 pe pe' := by
  simp only [getEntry]
  by_cases hc : addrCanonical virt
  case neg => simp [hc, pure, Except.pure]
  case pos =>
    simp only [hc, not_true_eq_false, if_false]
    obtain ⟨hw, hw'⟩ | ⟨u, u', hw, hw', hcopy⟩ := getEntryWalk_copy hd.copy h.wf rfl (indices_lt virt)
    · left
      rw [hw, hw']
      exact ⟨rfl, rfl⟩
    · right
      rw [hw, hw']
      exact ⟨_, _, rfl, rfl, hcopy _ virtPt_lt⟩

theorem getEntry_copy {pe : Pe} (hpe : getEntry s.mem d virt = .ok (some pe)) :
    ∃ pe', getEntry t.mem d' virt = .ok (some pe') ∧ CopyEntry s.mem t.mem 0 pe pe' := by
  match hd.getEntry_cases h virt with
  | .inl ⟨hn, _⟩ => simp [hpe] at hn
  | .inr ⟨pe₁, pe', hs, ht, hcopy⟩ =>
    simp only [hpe, Except.ok.injEq, Option.some.injEq] at hs
    exact ⟨pe', ht, hs ▸ hcopy⟩

theorem pageFlags_eq : pageFlags t.mem d' virt = pageFlags s.mem d virt := by
  match hd.getEntry_cases h virt with
  | .inl ⟨hs, ht⟩ => rw [pageFlags, pageFlags, hs, ht]
  | .inr ⟨pe, pe', hs, ht, hcopy⟩ =>
    rw [pageFlags, pageFlags, hs, ht]
    have hpp := hcopy.present_eq
    by_cases hp : pe.present
    case neg => simp [Except.map, Option.filter, hpp, hp]
    case pos =>
      have hflags : pe'.user = pe.user ∧ pe'.writeable = pe.writeable := by
        simp only [CopyEntry, hp, if_true] at hcopy
        split at hcopy
        · rw [hcopy.1, user_withAddress, writeable_withAddress]
          exact ⟨rfl, rfl⟩
        · rw [hcopy]
          exact ⟨rfl, rfl⟩
      simp [Except.map, Option.filter, hpp, hp, hflags]

theorem samePage_owned {a : ℕ} (ha : a ∈ pagedirPages s.mem d) : SamePage s.mem t.mem a := by
  intro o ho
  by_contra hc
  have ⟨b, hb, hin⟩ := hd.changed _ hc
  have hused := h.used a ha
  have hin' : InPage a (a + o) := ⟨Nat.le_add_right a o, Nat.add_lt_add_left ho a⟩
  exact hused.isPage.disjoint hb.isPage (hused.ne_free hb) hin' hin

-- Frames are aligned, so a frame which is not free does not overlap one which is.
theorem samePage_kernel {pe : Pe} (hn : ¬s.Free (addrExtract pe)) :
    SamePage s.mem t.mem (addrExtract pe) := by
  intro o ho
  by_contra hc
  have ⟨b, hb, hin⟩ := hd.changed _ hc
  have ⟨haligned, _⟩ := hb.aligned h.pool
  have he : b = addrExtract pe := by
    simp only [InPage, PAGE_SIZE, addrExtract] at *
    omega
  exact hn (he ▸ hb)

theorem isolated : Isolated s d d' t where
  flags _ := hd.pageFlags_eq h
  kernel virt pe hpe hp hu := by
    obtain ⟨pe', hpe', hcopy⟩ := hd.getEntry_copy h hpe
    simp only [CopyEntry, hp, hu, if_true, Bool.false_eq_true, if_false] at hcopy
    rw [hpe', hcopy]
  user virt pe hpe hp hu := by
    obtain ⟨pe', hpe', hcopy⟩ := hd.getEntry_copy h hpe
    have hpp := hcopy.present_eq
    simp only [CopyEntry, hp, hu, if_true] at hcopy
    have hu' : pe'.user := by rw [hcopy.1, user_withAddress, hu]
    refine ⟨pe', hpe', ?_, hcopy.2⟩
    exact hd.taken.free _ (getEntry_owned hpe' (by rw [hpp, hp]) hu')
  distinct virt virt' pe pe' hpe hpe' hp hu hp' hu' heq := by
    obtain ⟨u, hw, he⟩ := getEntry_some hpe
    obtain ⟨u', hw', he'⟩ := getEntry_some hpe'
    have hnodup := (List.nodup_cons.mp hd.taken.nodup).2
    have ha : addrExtract pe ∈ ownedEntry t.mem 0 (peAt t.mem u (virtPt virt)) := by
      rw [← he]
      simp [ownedEntry, hp, hu]
    have ha' : addrExtract pe ∈ ownedEntry t.mem 0 (peAt t.mem u' (virtPt virt')) := by
      rw [← he', heq]
      simp [ownedEntry, hp', hu']
    obtain ⟨hix, hpt⟩ := getEntryWalk_inj hnodup hw hw' rfl rfl (indices_lt virt)
      (indices_lt virt') virtPt_lt virtPt_lt ha ha'
    simp only [List.cons.injEq, and_true, virtPml4, virtPdpt, virtPd, virtPt] at hix hpt
    simp only [PAGE_SIZE]
    omega
  tables _ ha := hd.samePage_owned h ha
  reachable virt pe hpe hp := by
    by_cases hu : pe.user
    case pos => exact hd.samePage_owned h (getEntry_owned hpe hp hu)
    case neg => exact hd.samePage_kernel h (h.kernel virt pe hpe hp hu)

theorem freeable : Freeable 3 d' (List.range 512) t where
  wf i hi   := (hd.copy i (List.mem_range.mp hi)).wf (h.wf i (List.mem_range.mp hi))
  used _ ha := hd.taken.used_mem (List.mem_cons_of_mem d' ha)
  nodup     := (List.nodup_cons.mp hd.taken.nodup).2

-- The pages which are returned are exactly those which were taken, and these were free before.
theorem pagedirFree_restores : wp (pagedirFree d') (fun _ t' => t'.bitmap = s.bitmap) E t := by
  have hd' := hd.taken.used_mem List.mem_cons_self
  have hnot := (List.nodup_cons.mp hd.taken.nodup).1
  refine wp_post (pagedirFree_released (hd.freeable h) hd' hnot) fun _ t' ht' => ?_
  apply Bitmap.ext_get
  intro i
  rw [ht'.bits, hd.taken.page_eq, hd.taken.bits]
  by_cases hi : s.page i ∈ pagedirPages t.mem d'
  case pos =>
    have ⟨j, hj, _, hb⟩ := hd.taken.free _ hi
    rw [page_inj hj, hb, ← hj]
    simp [show s.page i ∈ d' :: _ from hi]
  case neg => simp [hi, show s.page i ∉ d' :: _ from hi]

end Duplicate

-- If there are enough pages for the copy, then it is isolated from the original, and giving it up
-- leaves no trace in the allocator.
theorem pagedirCopy_isolated (h : WfPagedir s d)
    (henough : (pagedirPages s.mem d).length ≤ s.available) :
    ∃ d' t, pagedirCopy d s = .ok (d', t) ∧ Isolated s d d' t ∧
      ∃ t', pagedirFree d' t = .ok ((), t') ∧ t'.bitmap = s.bitmap := by
  have ⟨d', t, hr, hd⟩ := wp_false_iff.mp (pagedirCopy_duplicate h henough)
  have ⟨_, t', hr', ht'⟩ := wp_false_iff.mp (hd.pagedirFree_restores h)
  exact ⟨d', t, hr, hd.isolated h, t', hr', ht'⟩

end Fork

section Examples

-- The tables of `twoPages` among 16 pages, of which those in use are the first six and the ninth.
def forkState : Phys where
  mem        := twoPages
  pbitmap    := 0
  bitmap     := fun i => if i = 0 then 0x3F else 0x01
  pbitmapLen := 2

theorem twoPages_peAt {k i : ℕ} : peAt twoPages (8 * k) i = twoPagesWords (k + i) := by
  have hlt : twoPagesWords (k + i) < 256 ^ 8 := by
    unfold twoPagesWords
    split_ifs <;> decide
  rw [peAt, ← Nat.mul_add, twoPages, Mem.load_ofWords, Nat.mod_eq_of_lt hlt]

theorem twoPages_present {k i : ℕ} (h : (peAt twoPages (8 * k) i).present) :
    k + i = 0x200 ∨ k + i = 0x400 ∨ k + i = 0x601 ∨ k + i = 0x800 ∨ k + i = 0x801 := by
  rw [twoPages_peAt] at h
  by_contra hc
  simp only [not_or] at hc
  simp [twoPagesWords, hc, Pe.present] at h

theorem ownedOf_range {m : Mem} {level table k : ℕ} (hk : k ≤ 512)
    (h : ∀ i, k ≤ i → i < 512 → ¬(peAt m table i).present) :
    ownedOf m level table (List.range 512) = ownedOf m level table (List.range k) := by
  rw [← Nat.add_sub_of_le hk, List.range_add, ownedOf, List.flatMap_append, ← ownedOf]
  apply List.append_right_eq_self.mpr
  rw [List.flatMap_eq_nil_iff]
  intro i hi
  obtain ⟨j, hj, he⟩ := List.mem_map.mp hi
  have := List.mem_range.mp hj
  exact ownedEntry_absent (h i (by omega) (by omega))

-- Every table of `twoPages` has present entries only among its first two.
theorem twoPages_ownedOf {level k : ℕ} (hk : k = 0x200 ∨ k = 0x400 ∨ k = 0x600 ∨ k = 0x800) :
    ownedOf twoPages level (8 * k) (List.range 512) =
      ownedEntry twoPages level (twoPagesWords k) ++
        ownedEntry twoPages level (twoPagesWords (k + 1)) := by
  rw [ownedOf_range (k := 2) (by decide)]
  · simp [ownedOf, List.range_succ, twoPages_peAt]
  · intro i hi hlt hp
    have := twoPages_present hp
    omega

theorem pagedirPages_twoPages :
    pagedirPages twoPages 0x1000 = [0x1000, 0x2000, 0x3000, 0x4000, 0x5000, 0x8000] := by
  have h₀ : ownedOf twoPages 0 0x4000 (List.range 512) = [0x5000, 0x8000] :=
    (twoPages_ownedOf (k := 0x800) (by decide)).trans (by decide)
  have h₁ : ownedOf twoPages 1 0x3000 (List.range 512) = [0x4000, 0x5000, 0x8000] := by
    have hn : ¬Pe.present (twoPagesWords 0x600) := by decide
    have hp : Pe.present (twoPagesWords 0x601) := by decide
    apply (twoPages_ownedOf (k := 0x600) (by decide)).trans
    rw [ownedEntry_absent hn, ownedEntry_table hp, ← h₀]
    rfl
  have h₂ : ownedOf twoPages 2 0x2000 (List.range 512) = [0x3000, 0x4000, 0x5000, 0x8000] := by
    have hp : Pe.present (twoPagesWords 0x400) := by decide
    have hn : ¬Pe.present (twoPagesWords 0x401) := by decide
    apply (twoPages_ownedOf (k := 0x400) (by decide)).trans
    rw [ownedEntry_absent hn, ownedEntry_table hp, List.append_nil, ← h₁]
    rfl
  have hp : Pe.present (twoPagesWords 0x200) := by decide
  have hn : ¬Pe.present (twoPagesWords 0x201) := by decide
  rw [pagedirPages]
  apply congrArg (0x1000 :: ·)
  apply (twoPages_ownedOf (k := 0x200) (by decide)).trans
  rw [ownedEntry_absent hn, ownedEntry_table hp, List.append_nil, ← h₂]
  rfl

-- The course of each walk which does not end early.
theorem twoPages_pml4 {i : ℕ} (hi : i < 512) (hp : (peAt twoPages 0x1000 i).present) :
    peAt twoPages 0x1000 i = 0x2007 := by
  have := twoPages_present (k := 0x200) hp
  obtain rfl : i = 0 := by omega
  decide

theorem twoPages_pdpt {i : ℕ} (hi : i < 512) (hp : (peAt twoPages 0x2000 i).present) :
    peAt twoPages 0x2000 i = 0x3007 := by
  have := twoPages_present (k := 0x400) hp
  obtain rfl : i = 0 := by omega
  decide

theorem twoPages_pd {i : ℕ} (hi : i < 512) (hp : (peAt twoPages 0x3000 i).present) :
    peAt twoPages 0x3000 i = 0x4007 := by
  have := twoPages_present (k := 0x600) hp
  obtain rfl : i = 1 := by omega
  decide

theorem twoPages_pt {i : ℕ} (hi : i < 512) (hp : (peAt twoPages 0x4000 i).present) :
    (peAt twoPages 0x4000 i).user := by
  have := twoPages_present (k := 0x800) hp
  obtain rfl | rfl : i = 0 ∨ i = 1 := by omega
  · decide
  · decide

theorem forkState_wf {i : ℕ} (hi : i < 512) :
    WfEntry forkState.mem 3 (peAt forkState.mem 0x1000 i) := by
  intro hp
  rw [show peAt forkState.mem 0x1000 i = 0x2007 from twoPages_pml4 hi hp]
  refine ⟨by decide, fun j hj hp => ?_⟩
  rw [show peAt forkState.mem (addrExtract 0x2007) j = 0x3007 from twoPages_pdpt hj hp]
  refine ⟨by decide, fun k hk hp => ?_⟩
  rw [show peAt forkState.mem (addrExtract 0x3007) k = 0x4007 from twoPages_pd hk hp]
  exact ⟨by decide, fun _ _ => trivial⟩

-- There are no pages of the kernel.
theorem forkState_user {virt : ℕ} {pe : Pe}
    (h : getEntry forkState.mem 0x1000 virt = .ok (some pe)) (hp : pe.present) : pe.user := by
  have ⟨u, hw, he⟩ := getEntry_some h
  have ⟨hp₃, hw⟩ := getEntryWalk_cons hw
  rw [show peAt forkState.mem 0x1000 (virtPml4 virt) = 0x2007 from
    twoPages_pml4 (Nat.mod_lt _ (by decide)) hp₃] at hw
  have ⟨hp₂, hw⟩ := getEntryWalk_cons hw
  rw [show peAt forkState.mem (addrExtract 0x2007) (virtPdpt virt) = 0x3007 from
    twoPages_pdpt (Nat.mod_lt _ (by decide)) hp₂] at hw
  have ⟨hp₁, hw⟩ := getEntryWalk_cons hw
  rw [show peAt forkState.mem (addrExtract 0x3007) (virtPd virt) = 0x4007 from
    twoPages_pd (Nat.mod_lt _ (by decide)) hp₁] at hw
  simp only [getEntryWalk, Except.ok.injEq, Option.some.injEq] at hw
  subst hw he
  exact twoPages_pt virtPt_lt hp

theorem forkState_used : ∀ a ∈ pagedirPages forkState.mem 0x1000, forkState.Used a := by
  show ∀ a ∈ pagedirPages twoPages 0x1000, forkState.Used a
  rw [pagedirPages_twoPages]
  intro a ha
  have hpage : ∀ i < 16, forkState.bitmap.get i = true → forkState.Used (i * 4096) := fun i hi hb =>
    ⟨i, (Nat.zero_add _).symm, by simp only [forkState]; omega, hb⟩
  simp only [List.mem_cons, List.not_mem_nil, or_false] at ha
  obtain rfl | rfl | rfl | rfl | rfl | rfl := ha
  · exact hpage 1 (by decide) (by decide)
  · exact hpage 2 (by decide) (by decide)
  · exact hpage 3 (by decide) (by decide)
  · exact hpage 4 (by decide) (by decide)
  · exact hpage 5 (by decide) (by decide)
  · exact hpage 8 (by decide) (by decide)

theorem forkState_wfPagedir : WfPagedir forkState 0x1000 where
  pool   := ⟨by decide, by decide⟩
  wf i hi := forkState_wf hi
  used   := forkState_used
  kernel virt pe h hp hu := absurd (forkState_user h hp) hu

theorem pagedirCopy_isolated_twoPages :
    ∃ d' t, pagedirCopy 0x1000 forkState = .ok (d', t) ∧ Isolated forkState 0x1000 d' t ∧
      ∃ t', pagedirFree d' t = .ok ((), t') ∧ t'.bitmap = forkState.bitmap := by
  apply pagedirCopy_isolated forkState_wfPagedir
  show (pagedirPages twoPages 0x1000).length ≤ _
  rw [pagedirPages_twoPages]
  decide

-- The same tables, but there is no free page left.
def fullState : Phys :=
  { forkState with bitmap := fun _ => 0xFF }

-- Without a free page, the copy ends in a panic.
theorem pagedirCopy_full : WfPagedir fullState 0x1000 ∧
    ¬∃ d' t, pagedirCopy 0x1000 fullState = .ok (d', t) := by
  refine ⟨⟨⟨by decide, by decide⟩, fun i hi => forkState_wf hi, fun a ha => ?_, ?_⟩, ?_⟩
  · have ⟨i, hi, hr, _⟩ := forkState_used a ha
    have hget : ∀ i < 16, fullState.bitmap.get i = true := by decide
    have hlt : i < 16 := by
      simp only [forkState] at hr
      omega
    exact ⟨i, hi, hr, hget i hlt⟩
  · exact fun virt pe h hp hu => absurd (forkState_user h hp) hu
  · rintro ⟨d', t, h⟩
    have hz : pageZalloc 1 fullState = .error (.panic .pageAlloc) := rfl
    simp [pagedirCopy, bind, StateT.bind, hz, Except.bind] at h

end Examples
end Camellia
