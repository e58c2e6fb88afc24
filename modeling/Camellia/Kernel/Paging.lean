import Camellia.Fault
import Camellia.Libk.Mem

namespace Camellia

def PAGE_SIZE : ℕ := 4096

-- `pe_generic_t`, an entry of a page table at any level.
abbrev Pe := ℕ

namespace Pe

def present (pe : Pe) : Bool :=
  pe.testBit 0

def writeable (pe : Pe) : Bool :=
  pe.testBit 1

def user (pe : Pe) : Bool :=
  pe.testBit 2

def large (pe : Pe) : Bool :=
  pe.testBit 7

def address (pe : Pe) : ℕ :=
  pe / 2 ^ 12 % 2 ^ 40

-- An access which needs the given rights may use the page.
def permits (pe : Pe) (user writeable : Bool) : Bool :=
  pe.present && (!user || pe.user) && (!writeable || pe.writeable)

end Pe

def addrExtract (pe : Pe) : ℕ :=
  pe.address * 2 ^ 12

-- The entry of a table at an index. The tables are in the same memory as the pages they describe.
def peAt (m : Mem) (table index : ℕ) : Pe :=
  m.load (table + 8 * index) 8

-- The indices in `union virt_addr`, from the top level down to the one of the page table.
def virtPml4 (virt : ℕ) : ℕ := virt / 2 ^ 39 % 512
def virtPdpt (virt : ℕ) : ℕ := virt / 2 ^ 30 % 512
def virtPd (virt : ℕ) : ℕ := virt / 2 ^ 21 % 512
def virtPt (virt : ℕ) : ℕ := virt / 2 ^ 12 % 512

def addrCanonical (virt : ℕ) : Bool :=
  virt / 2 ^ 48 = 0 ∨ virt / 2 ^ 48 = 2 ^ 16 - 1

-- The three lookups of `get_entry` above the page table itself.
def getEntryWalk (m : Mem) : (table : ℕ) → List ℕ → Except Fault (Option ℕ)
  | table, []               => .ok table
  | table, index :: indices =>
    let pe := peAt m table index
    if ¬pe.present then
      .ok none
    else if pe.large then
      .error (.assert .getEntryLarge)
    else
      getEntryWalk m (addrExtract pe) indices

-- The entry for a page is `none` if one of the tables above it is missing.
def getEntry (m : Mem) (dir virt : ℕ) : Except Fault (Option Pe) := do
  if ¬addrCanonical virt then
    return none
  else
    let pt ← getEntryWalk m dir [virtPml4 virt, virtPdpt virt, virtPd virt]
    return pt.map (peAt m · (virtPt virt))

-- The physical address for a virtual address, where 0 is NULL.
def pagedirVirt2phys (m : Mem) (dir virt : ℕ) (user writeable : Bool) : Except Fault ℕ := do
  match ← getEntry m dir virt with
  | none    => return 0
  | some pe =>
    if ¬pe.present then
      return 0
    else if user ∧ ¬pe.user then
      return 0
    else if writeable ∧ ¬pe.writeable then
      return 0
    else
      return addrExtract pe + virt % PAGE_SIZE

-- The addresses of the table entries which `get_entry` and its callers read.
def walkReads (m : Mem) : (table : ℕ) → List ℕ → List ℕ
  | _, []                   => []
  | table, index :: indices =>
    let pe := peAt m table index
    (table + 8 * index) :: if pe.present then walkReads m (addrExtract pe) indices else []

def entryReads (m : Mem) (dir virt : ℕ) : List ℕ :=
  walkReads m dir [virtPml4 virt, virtPdpt virt, virtPd virt, virtPt virt]

section Lookup

variable {m m' : Mem} {dir virt table a : ℕ} {user writeable : Bool}

theorem peAt_congr {index : ℕ} (h : ∀ i < 8, m' (table + 8 * index + i) = m (table + 8 * index + i)) :
    peAt m' table index = peAt m table index :=
  Mem.load_congr h

-- A lookup depends on nothing but the entries it reads.
theorem getEntryWalk_congr (indices : List ℕ) {index : ℕ}
    (h : ∀ a ∈ walkReads m table (indices ++ [index]), ∀ i < 8, m' (a + i) = m (a + i)) :
    (getEntryWalk m' table indices).map (·.map (peAt m' · index)) =
      (getEntryWalk m table indices).map (·.map (peAt m · index)) := by
  induction indices generalizing table
  case nil =>
    have : peAt m' table index = peAt m table index := peAt_congr (h _ (by simp [walkReads]))
    simp [getEntryWalk, Except.map, this]
  case cons i indices hi =>
    have hpe : peAt m' table i = peAt m table i := peAt_congr (h _ (by simp [walkReads]))
    by_cases hp : (peAt m table i).present
    case neg => simp [getEntryWalk, hpe, hp, Except.map]
    case pos =>
      have : ∀ a ∈ walkReads m (addrExtract (peAt m table i)) (indices ++ [index]),
          ∀ i < 8, m' (a + i) = m (a + i) := fun a ha => h a (by simp [walkReads, hp, ha])
      by_cases hl : (peAt m table i).large
      case pos => simp [getEntryWalk, hpe, hp, hl, Except.map]
      case neg => simpa [getEntryWalk, hpe, hp, hl] using hi this

theorem getEntry_congr (h : ∀ a ∈ entryReads m dir virt, ∀ i < 8, m' (a + i) = m (a + i)) :
    getEntry m' dir virt = getEntry m dir virt := by
  have hw := getEntryWalk_congr [virtPml4 virt, virtPdpt virt, virtPd virt] h
  simp only [getEntry]
  split
  · rfl
  · exact hw

theorem pagedirVirt2phys_congr
    (h : ∀ a ∈ entryReads m dir virt, ∀ i < 8, m' (a + i) = m (a + i)) :
    pagedirVirt2phys m' dir virt user writeable = pagedirVirt2phys m dir virt user writeable := by
  simp only [pagedirVirt2phys, getEntry_congr h]

-- Up to the end of its page, an address is looked up in the same way.
theorem getEntry_page {j : ℕ} (h : virt % PAGE_SIZE + j < PAGE_SIZE) :
    getEntry m dir (virt + j) = getEntry m dir virt := by
  simp only [PAGE_SIZE] at h
  have hpage : (virt + j) / 2 ^ 12 = virt / 2 ^ 12 := by omega
  have hdiv : ∀ n, (virt + j) / 2 ^ (12 + n) = virt / 2 ^ (12 + n) := fun n => by
    rw [Nat.pow_add, ← Nat.div_div_eq_div_mul, ← Nat.div_div_eq_div_mul, hpage]
  have h₁ := hdiv 9
  have h₂ := hdiv 18
  have h₃ := hdiv 27
  have h₄ := hdiv 36
  simp only [Nat.reduceAdd] at h₁ h₂ h₃ h₄
  simp only [getEntry, addrCanonical, virtPml4, virtPdpt, virtPd, virtPt, hpage, h₁, h₂, h₃]
  congr 1
  simp only [h₄]

theorem pagedirVirt2phys_eq : pagedirVirt2phys m dir virt user writeable =
    (getEntry m dir virt).map fun o => o.elim 0 fun pe =>
      if pe.permits user writeable then addrExtract pe + virt % PAGE_SIZE else 0 := by
  simp only [pagedirVirt2phys]
  cases getEntry m dir virt
  case error => rfl
  case ok o =>
    cases o
    case none => rfl
    case some pe =>
      simp only [bind, Except.bind, pure, Except.pure, Except.map, Option.elim_some, Pe.permits]
      by_cases hp : pe.present
      case neg => simp [hp]
      case pos =>
        by_cases hu : user ∧ ¬pe.user
        case pos => simp [hp, hu]
        case neg =>
          by_cases hw : writeable ∧ ¬pe.writeable
          case pos => simp [hp, hw]
          case neg => cases user <;> cases writeable <;> simp_all

theorem pagedirVirt2phys_page {j : ℕ} (h : virt % PAGE_SIZE + j < PAGE_SIZE)
    (ha : pagedirVirt2phys m dir virt user writeable = .ok a) (hn : a ≠ 0) :
    pagedirVirt2phys m dir (virt + j) user writeable = .ok (a + j) := by
  have hmod : (virt + j) % PAGE_SIZE = virt % PAGE_SIZE + j := by
    simp only [PAGE_SIZE] at h ⊢
    omega
  rw [pagedirVirt2phys_eq] at ha ⊢
  rw [getEntry_page h, hmod]
  cases hg : getEntry m dir virt
  case error e => simp [hg, Except.map] at ha
  case ok o =>
    cases o
    case none =>
      simp only [hg, Except.map, Option.elim_none, Except.ok.injEq] at ha
      exact absurd ha.symm hn
    case some pe =>
      simp only [hg, Except.map, Option.elim_some, Except.ok.injEq] at ha ⊢
      by_cases hp : pe.permits user writeable
      case pos =>
        simp only [hp, if_true] at ha ⊢
        omega
      case neg =>
        simp only [hp] at ha
        exact absurd ha.symm hn

end Lookup
end Camellia
