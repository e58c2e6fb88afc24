import Camellia.Kernel.PageAlloc
import Mathlib.Data.List.Nodup

namespace Camellia

-- The bits 12 to 51 of an entry are replaced by those of an address.
def replaceAddress (w a : ℕ) : ℕ :=
  2 ^ 12 * (a / 2 ^ 12 % 2 ^ 40 + w / 2 ^ 52 * 2 ^ 40) + w % 2 ^ 12

-- `pe.address = a >> 12`
def Pe.withAddress (pe : Pe) (a : ℕ) : Pe :=
  replaceAddress pe a

def setPe (table index : ℕ) (pe : Pe) : P Unit :=
  storeMem (table + 8 * index) 8 pe

-- One iteration of a loop of `pagedir_copy`, for the entry `i` of the old and of the new table. The
-- level 0 is the innermost loop, over the entries of a page table. The three loops around it only
-- differ in how deep they are nested.
def pagedirCopyEntry : (level old new i : ℕ) → P Unit
  | 0, old, new, i => do
    let pe := peAt (← get).mem old i
    if pe.present then
      setPe new i pe
      if pe.user then
        let page ← pageAlloc 1
        modify fun s => { s with mem := memcpy s.mem page (addrExtract pe) PAGE_SIZE }
        setPe new i (pe.withAddress page)
  | level + 1, old, new, i => do
    let pe := peAt (← get).mem old i
    if pe.present then
      passert (¬pe.large) .pagedirCopyLarge
      let child ← pageZalloc 1
      setPe new i (pe.withAddress child)
      (List.range 512).forM (pagedirCopyEntry level (addrExtract pe) child)

def pagedirCopy (old : ℕ) : P ℕ := do
  let new ← pageZalloc 1
  (List.range 512).forM (pagedirCopyEntry 3 old new)
  pure new

-- One iteration of a loop of `pagedir_free`, with the levels as above.
def pagedirFreeEntry : (level table i : ℕ) → P Unit
  | 0, table, i => do
    let pe := peAt (← get).mem table i
    if pe.present then
      if pe.user then
        pageFree (addrExtract pe) 1
  | level + 1, table, i => do
    let pe := peAt (← get).mem table i
    if pe.present then
      passert (¬pe.large) .pagedirFreeLarge
      (List.range 512).forM (pagedirFreeEntry level (addrExtract pe))
      pageFree (addrExtract pe) 1

def pagedirFree (dir : ℕ) : P Unit := do
  (List.range 512).forM (pagedirFreeEntry 3 dir)
  pageFree dir 1

-- The pages which belong to a page directory through an entry of one of its tables: the tables and
-- the pages of the user.
def ownedEntry (m : Mem) : (level : ℕ) → Pe → List ℕ
  | 0, pe         => if pe.present && pe.user then [addrExtract pe] else []
  | level + 1, pe =>
    if pe.present then
      addrExtract pe ::
        (List.range 512).flatMap fun i => ownedEntry m level (peAt m (addrExtract pe) i)
    else
      []

-- No table below the entry refers to large pages.
def WfEntry (m : Mem) : (level : ℕ) → Pe → Prop
  | 0, _          => True
  | level + 1, pe => pe.present → pe.large = false ∧
    ∀ i < 512, WfEntry m level (peAt m (addrExtract pe) i)

-- The second entry is a copy of the first one: with the same flags, with copies of the tables and of
-- the user's pages, and with the same pages of the kernel.
def CopyEntry (m m' : Mem) : (level : ℕ) → Pe → Pe → Prop
  | 0, pe, pe'         =>
    if pe.present then
      if pe.user then
        pe' = pe.withAddress (addrExtract pe') ∧
          ∀ o < PAGE_SIZE, m' (addrExtract pe' + o) = m (addrExtract pe + o)
      else
        pe' = pe
    else
      pe'.present = false
  | level + 1, pe, pe' =>
    if pe.present then
      pe' = pe.withAddress (addrExtract pe') ∧ ∀ i < 512,
        CopyEntry m m' level (peAt m (addrExtract pe) i) (peAt m' (addrExtract pe') i)
    else
      pe'.present = false

section Entry

variable {pe pe' : Pe} {a i j w t : ℕ} {m m' m₁ m₁' : Mem} {level : ℕ}

theorem testBit_withAddress (h : i < 12) : (pe.withAddress a).testBit i = pe.testBit i := by
  rw [Pe.withAddress, replaceAddress, Nat.testBit_two_pow_mul_add _ (Nat.mod_lt _ (by decide)),
    if_pos h, Nat.testBit_mod_two_pow]
  simp [h]

@[simp]
theorem present_withAddress : (pe.withAddress a).present = pe.present :=
  testBit_withAddress (by decide)

@[simp]
theorem user_withAddress : (pe.withAddress a).user = pe.user :=
  testBit_withAddress (by decide)

@[simp]
theorem writeable_withAddress : (pe.withAddress a).writeable = pe.writeable :=
  testBit_withAddress (by decide)

@[simp]
theorem large_withAddress : (pe.withAddress a).large = pe.large :=
  testBit_withAddress (by decide)

theorem addrExtract_withAddress (ha : a % PAGE_SIZE = 0) (hlt : a < 2 ^ 52) :
    addrExtract (pe.withAddress a) = a := by
  have : replaceAddress pe a / 2 ^ 12 % 2 ^ 40 * 2 ^ 12 = a := by
    simp only [PAGE_SIZE] at ha
    simp only [replaceAddress]
    omega
  exact this

theorem withAddress_lt (h : pe < 256 ^ 8) : pe.withAddress a < 256 ^ 8 := by
  have (w : ℕ) (h : w < 256 ^ 8) : replaceAddress w a < 256 ^ 8 := by
    simp only [replaceAddress]
    omega
  exact this pe h

theorem load_lt {n : ℕ} : m.load a n < 256 ^ n := by
  induction n generalizing a
  case zero => simp [Mem.load]
  case succ n hi =>
    have := (m a).toNat_lt
    have := hi (a := a + 1)
    simp only [Mem.load, Nat.pow_succ]
    omega

theorem peAt_lt : peAt m t i < 256 ^ 8 :=
  load_lt

theorem peAt_storeNat (h : w < 256 ^ 8) : peAt (m.storeNat (t + 8 * i) 8 w) t i = w := by
  rw [peAt, Mem.load_storeNat, Nat.mod_eq_of_lt h]

theorem peAt_storeNat_ne (h : i ≠ j) : peAt (m.storeNat (t + 8 * i) 8 w) t j = peAt m t j :=
  Mem.load_storeNat_ne (by omega)

-- The two memories agree on the page at `a`.
def SamePage (m m' : Mem) (a : ℕ) : Prop :=
  ∀ o < PAGE_SIZE, m' (a + o) = m (a + o)

theorem SamePage.symm (h : SamePage m m' a) : SamePage m' m a :=
  fun o ho => (h o ho).symm

theorem SamePage.peAt (h : SamePage m m' t) (hi : i < 512) : peAt m' t i = peAt m t i :=
  Mem.load_congr fun j hj => by
    have := h (8 * i + j) (by simp only [PAGE_SIZE]; omega)
    rwa [← Nat.add_assoc] at this

theorem ownedEntry_absent (hp : ¬pe.present) : ownedEntry m level pe = [] := by
  cases level <;> simp [ownedEntry, hp]

theorem ownedEntry_congr (h : ∀ a ∈ ownedEntry m level pe, SamePage m m' a) :
    ownedEntry m' level pe = ownedEntry m level pe := by
  induction level generalizing pe
  case zero => rfl
  case succ level hi =>
    by_cases hp : pe.present
    case neg => rw [ownedEntry_absent hp, ownedEntry_absent hp]
    case pos =>
      simp only [ownedEntry, hp, if_true, List.mem_cons, List.mem_flatMap, List.mem_range] at h
      simp only [ownedEntry, hp, if_true]
      refine congrArg _ (List.flatMap_congr fun i hr => ?_)
      have hlt := List.mem_range.mp hr
      rw [(h _ (.inl rfl)).peAt hlt]
      exact hi fun a ha => h a (.inr ⟨i, hlt, ha⟩)

theorem WfEntry.congr (hw : WfEntry m level pe)
    (h : ∀ a ∈ ownedEntry m level pe, SamePage m m' a) : WfEntry m' level pe := by
  induction level generalizing pe
  case zero => trivial
  case succ level hi =>
    intro hp
    have ⟨hl, hw⟩ := hw hp
    simp only [ownedEntry, hp, if_true, List.mem_cons, List.mem_flatMap, List.mem_range] at h
    refine ⟨hl, fun i hlt => ?_⟩
    rw [(h _ (.inl rfl)).peAt hlt]
    exact hi (hw i hlt) fun a ha => h a (.inr ⟨i, hlt, ha⟩)

theorem CopyEntry.present_eq (hc : CopyEntry m m' level pe pe') : pe'.present = pe.present := by
  cases level <;> simp only [CopyEntry] at hc <;> cases hp : pe.present
  all_goals simp only [hp, if_true, Bool.false_eq_true, if_false] at hc
  case zero.true =>
    split at hc
    · rw [hc.1, present_withAddress, hp]
    · rw [hc, hp]
  case succ.true => rw [hc.1, present_withAddress, hp]
  all_goals exact hc

theorem CopyEntry.congr (hc : CopyEntry m m' level pe pe')
    (h : ∀ a ∈ ownedEntry m level pe, SamePage m m₁ a)
    (h' : ∀ a ∈ ownedEntry m' level pe', SamePage m' m₁' a) : CopyEntry m₁ m₁' level pe pe' := by
  have hpp := hc.present_eq
  induction level generalizing pe pe'
  case zero =>
    simp only [CopyEntry] at hc ⊢
    by_cases hp : pe.present
    case neg => simpa [hp] using hc
    case pos =>
      by_cases hu : pe.user
      case neg => simpa [hp, hu] using hc
      case pos =>
        simp only [hp, hu, if_true] at hc ⊢
        refine ⟨hc.1, fun o ho => ?_⟩
        have hu' : pe'.user = true := by rw [hc.1, user_withAddress, hu]
        rw [h _ (by simp [ownedEntry, hp, hu]) o ho, ← hc.2 o ho]
        exact h' _ (by simp [ownedEntry, hpp, hp, hu']) o ho
  case succ level hi =>
    simp only [CopyEntry] at hc ⊢
    by_cases hp : pe.present
    case neg => simpa [hp] using hc
    case pos =>
      have hp' : pe'.present := by rw [hpp, hp]
      simp only [hp, if_true] at hc ⊢
      simp only [ownedEntry, hp, if_true, List.mem_cons, List.mem_flatMap, List.mem_range] at h
      simp only [ownedEntry, hp', if_true, List.mem_cons, List.mem_flatMap, List.mem_range] at h'
      refine ⟨hc.1, fun i hlt => ?_⟩
      rw [(h _ (.inl rfl)).peAt hlt, (h' _ (.inl rfl)).peAt hlt]
      exact hi (hc.2 i hlt) (fun a ha => h a (.inr ⟨i, hlt, ha⟩))
        (fun a ha => h' a (.inr ⟨i, hlt, ha⟩)) (hc.2 i hlt).present_eq

theorem CopyEntry.length_ownedEntry (hc : CopyEntry m m' level pe pe') :
    (ownedEntry m' level pe').length = (ownedEntry m level pe).length := by
  have hpp := hc.present_eq
  induction level generalizing pe pe'
  case zero =>
    simp only [CopyEntry] at hc
    simp only [ownedEntry, hpp]
    by_cases hp : pe.present
    case neg => simp [hp]
    case pos =>
      have hu : pe'.user = pe.user := by
        simp only [hp, if_true] at hc
        split at hc
        · rw [hc.1, user_withAddress]
        · rw [hc]
      rw [hu]
      split <;> simp only [List.length_singleton]
  case succ level hi =>
    simp only [CopyEntry] at hc
    by_cases hp : pe.present
    case neg => rw [ownedEntry_absent hp, ownedEntry_absent (by rwa [hpp])]
    case pos =>
      simp only [hp, if_true] at hc
      simp only [ownedEntry, hpp, hp, if_true, List.length_cons, List.length_flatMap]
      refine congrArg (List.sum · + 1) (List.map_congr_left fun i hr => ?_)
      have hcopy := hc.2 i (List.mem_range.mp hr)
      exact hi hcopy hcopy.present_eq

theorem CopyEntry.wf (hc : CopyEntry m m' level pe pe') (hw : WfEntry m level pe) :
    WfEntry m' level pe' := by
  have hpp := hc.present_eq
  induction level generalizing pe pe'
  case zero => trivial
  case succ level hi =>
    intro hp'
    have hp : pe.present := by rw [← hpp, hp']
    simp only [CopyEntry, hp, if_true] at hc
    have ⟨hl, hw⟩ := hw hp
    refine ⟨by rw [hc.1, large_withAddress, hl], fun i hlt => ?_⟩
    exact hi (hc.2 i hlt) (hw i hlt) (hc.2 i hlt).present_eq

end Entry
end Camellia
