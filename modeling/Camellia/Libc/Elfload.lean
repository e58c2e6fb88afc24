import Camellia.Kernel.Memflag

namespace Camellia.Elf

-- The address space of a process: the pages of the user and of the kernel which are mapped, and the memory. The pages
-- which the loader has asked for and the ranges which it has written are recorded.
structure Space where
  user   : ℕ → Bool
  kern   : ℕ → Bool
  mem    : Mem
  maps   : List ℕ
  writes : List (ℕ × ℕ)

def Space.mapped (s : Space) (n : ℕ) : Bool :=
  s.user n || s.kern n

-- The loop of `pagedir_findfree`, with `n` iterations left.
def findfreeLoop (mapped : ℕ → Bool) (len : ℕ) : (n iter start : ℕ) → ℕ
  | 0, _, _            => 0
  | n + 1, iter, start =>
    if ¬iter < FINDFREE_END then
      0
    else if mapped (iter / PAGE_SIZE) then
      findfreeLoop mapped len n (iter + PAGE_SIZE) (iter + PAGE_SIZE)
    else if len ≤ iter + PAGE_SIZE - start then
      start
    else
      findfreeLoop mapped len n (iter + PAGE_SIZE) start

def findfree (mapped : ℕ → Bool) (start len : ℕ) : ℕ :=
  let start := (start + (PAGE_SIZE - 1)) % 2 ^ 64
  let start := start - start % PAGE_SIZE
  findfreeLoop mapped len (FINDFREE_END / PAGE_SIZE) start start

-- The pages which `_sys_memflag` looks at.
def visits (addr len : ℕ) : List ℕ :=
  (List.range (memflagPages len)).map fun k => memflagAddr (addr - addr % PAGE_SIZE) k / PAGE_SIZE

-- New pages are zeroed, and the pages of the kernel are passed over. What `addr_canonical` refuses is recorded as asked
-- for like the rest, and there is always enough memory.
def Space.map (s : Space) (addr len : ℕ) : Space :=
  { s with
    user := fun n => s.user n || (visits addr len).contains n && !s.kern n
    mem  := fun x => if (visits addr len).contains (x / PAGE_SIZE) && !s.mapped (x / PAGE_SIZE) then 0 else s.mem x
    maps := s.maps ++ visits addr len }

def Space.unmap (s : Space) (addr len : ℕ) : Space :=
  { s with user := fun n => s.user n &&
      !(addr - addr % PAGE_SIZE ≤ n * PAGE_SIZE && n * PAGE_SIZE < (addr + len) % 2 ^ 64) }

-- `_sys_memflag` for the address space of a process.
def memflag (s : Space) (addr len : ℕ) (flags : Flags) : Space × ℕ :=
  let addr := addr - addr % PAGE_SIZE
  if flags.has MEMFLAG_FINDFREE then
    let addr := findfree s.mapped addr len
    if ¬flags.has MEMFLAG_PRESENT then (s, addr) else (s.map addr len, addr)
  else if ¬flags.has MEMFLAG_PRESENT then
    (s.unmap addr len, addr)
  else
    (s.map addr len, addr)

def PT_LOAD : ℕ := 1
def PT_DYNAMIC : ℕ := 2
def GNU_STACK : ℕ := 0x6474e551
def ET_EXEC : ℕ := 2
def ET_DYN : ℕ := 3
def EM_X86_64 : ℕ := 62

structure Phdr where
  type   : ℕ
  offset : ℕ
  vaddr  : ℕ
  filesz : ℕ
  memsz  : ℕ

def phnum (m : Mem) (elf : ℕ) : ℕ :=
  m.load (elf + 56) 2

def phdr (m : Mem) (elf idx : ℕ) : Phdr :=
  let a := elf + m.load (elf + 32) 8 + idx * m.load (elf + 54) 2
  { type   := m.load a 4
    offset := m.load (a + 8) 8
    vaddr  := m.load (a + 16) 8
    filesz := m.load (a + 32) 8
    memsz  := m.load (a + 40) 8 }

def validEhdr (m : Mem) (elf : ℕ) : Bool :=
  m elf = 0x7f ∧ m (elf + 1) = 'E'.toUInt8 ∧ m (elf + 2) = 'L'.toUInt8 ∧ m (elf + 3) = 'F'.toUInt8 ∧
    m.load (elf + 18) 2 = EM_X86_64 ∧ m.load (elf + 20) 4 = 1

-- The loop of `elf_spread`, which computes `low` and `high`.
def spreadLoop (m : Mem) (elf : ℕ) : (n phi low high : ℕ) → ℕ × ℕ
  | 0, _, low, high       => (low, high)
  | n + 1, phi, low, high =>
    let ph := phdr m elf phi
    let bound := (ph.vaddr + ph.memsz) % 2 ^ 64
    spreadLoop m elf n (phi + 1) (if ph.vaddr < low then ph.vaddr else low) (if high < bound then bound else high)

def elfSpread (m : Mem) (elf : ℕ) : ℕ :=
  let (low, high) := spreadLoop m elf (phnum m elf) 0 (2 ^ 64 - 1) 0
  (high + 2 ^ 64 - low) % 2 ^ 64

-- The number of bytes at `dest` which are written before a page fault.
def reached (user : ℕ → Bool) (dest : ℕ) : ℕ → ℕ
  | 0     => 0
  | n + 1 => if user (dest % 2 ^ 64 / PAGE_SIZE) then reached user (dest + 1) n + 1 else 0

-- `memcpy` into the memory of the user.
def Space.copy (s : Space) (dest src n : ℕ) : Space :=
  { s with mem := memcpy s.mem dest src n, writes := s.writes ++ [(dest, n)] }

-- There is no result if the process is killed by a page fault.
def loadPhdr (s : Space) (elf exebase idx : ℕ) : Space × Option Bool :=
  let ph := phdr s.mem elf idx
  if ph.type = PT_DYNAMIC ∨ ph.type = GNU_STACK then
    (s, some true)
  else if ph.type = PT_LOAD then
    let dest := (exebase + ph.vaddr) % 2 ^ 64
    let s := (memflag s dest ph.memsz MEMFLAG_PRESENT).fst
    let n := reached s.user dest ph.filesz
    (s.copy dest (elf + ph.offset) n, if n = ph.filesz then some true else none)
  else
    (s, some false)

-- The loop of `elf_loadmem`, with at most `n` iterations left.
def loadPhdrs (elf exebase : ℕ) : (n phi : ℕ) → Space → Space × Option Bool
  | 0, _, s       => (s, some true)
  | n + 1, phi, s =>
    if phi < phnum s.mem elf then
      match loadPhdr s elf exebase phi with
      | (s, some true) => loadPhdrs elf exebase n (phi + 1) s
      | (s, r)         => (s, r)
    else
      (s, some true)

-- The part of `elf_loadmem` behind the choice of `exebase`.
def loadAt (s : Space) (elf exebase spread : ℕ) : Space × Option ℕ :=
  match loadPhdrs elf exebase (2 ^ 16) 0 s with
  | (s, some true)  => (s, some exebase)
  | (s, some false) => ((memflag s exebase spread 0).fst, some 0)
  | (s, none)       => (s, none)

-- The address is 0 for NULL.
def elfLoadmem (s : Space) (elf : ℕ) : Space × Option ℕ :=
  let spread := elfSpread s.mem elf
  let type := s.mem.load (elf + 16) 2
  if type = ET_EXEC then
    loadAt s elf 0 spread
  else if type = ET_DYN then
    let (s, exebase) := memflag s 0x1000 spread MEMFLAG_FINDFREE
    if exebase = 0 then (s, some 0) else loadAt s elf exebase spread
  else
    (s, some 0)

-- What `_freejmp` unmaps.
def freejmp (s : Space) (low imglen : ℕ) : Space :=
  let high := (low + imglen) % 2 ^ 64
  let s := (memflag s 0 low 0).fst
  (memflag s high ((2 ^ 64 - 1 - 0xF000 + 2 ^ 64 - high) % 2 ^ 64) 0).fst

-- The address space in which `elf_exec` jumps to the program, unless it returns or the process is killed.
def elfExec (s : Space) (elf : ℕ) : Option Space :=
  if ¬validEhdr s.mem elf then
    none
  else
    match elfLoadmem s elf with
    | (_, none)         => none
    | (s, some exebase) =>
      if exebase = 0 then
        none
      else
        let (s, _) := memflag s 0x11000 0x1000 (MEMFLAG_FINDFREE ||| MEMFLAG_PRESENT)
        some (freejmp s exebase (elfSpread s.mem elf + 0x1000))

-- The pages are among those which were found to be free, and no byte outside of the range is written.
structure Confined (base spread : ℕ) (t : Space) : Prop where
  maps   : ∀ p ∈ t.maps, base ≤ p * PAGE_SIZE ∧ p * PAGE_SIZE < base + spread
  writes : ∀ w ∈ t.writes, ∀ x, w.fst ≤ x → x < w.fst + w.snd → base ≤ x ∧ x < base + spread

-- An image in the memory of a process, which has mapped nothing for it yet.
structure Image (s : Space) (elf size : ℕ) : Prop where
  maps     : s.maps = []
  writes   : s.writes = []
  valid    : validEhdr s.mem elf
  type     : s.mem.load (elf + 16) 2 = ET_DYN
  header   : 64 ≤ size
  headers  : ∀ i < phnum s.mem elf, s.mem.load (elf + 32) 8 + i * s.mem.load (elf + 54) 2 + 56 ≤ size
  contents : ∀ i < phnum s.mem elf, (phdr s.mem elf i).type = PT_LOAD →
    (phdr s.mem elf i).offset + (phdr s.mem elf i).filesz ≤ size ∧ (phdr s.mem elf i).filesz ≤ (phdr s.mem elf i).memsz
  present  : ∀ x, elf ≤ x → x < elf + size → s.user (x / PAGE_SIZE)

-- What is demanded of the loader.
structure Loads (s : Space) (elf : ℕ) : Prop where
  confined : Confined (findfree s.mapped 0x1000 (elfSpread s.mem elf)) (elfSpread s.mem elf) (elfLoadmem s elf).fst
  free     : ∀ p ∈ (elfLoadmem s elf).fst.maps, ¬s.mapped p
  kept     : ∀ x, s.mapped (x / PAGE_SIZE) →
    (elfLoadmem s elf).fst.mapped (x / PAGE_SIZE) ∧ (elfLoadmem s elf).fst.mem x = s.mem x
  exec     : ∀ u, elfExec s elf = some u → ∀ p ∈ (elfLoadmem s elf).fst.maps, u.mapped p

-- A header which `load_phdr` knows.
def Phdr.Known (ph : Phdr) : Prop :=
  ph.type = PT_LOAD ∨ ph.type = PT_DYNAMIC ∨ ph.type = GNU_STACK

-- The page of the offset `x` is one of those which `load_phdr` asks for, counted from the base.
def Phdr.Covers (ph : Phdr) (x : ℕ) : Prop :=
  ph.type = PT_LOAD ∧ ph.vaddr / PAGE_SIZE ≤ x / PAGE_SIZE ∧ x / PAGE_SIZE < ph.vaddr / PAGE_SIZE + memflagPages ph.memsz

-- The page of the offset `x` is there when `i` headers have been loaded.
def Backed (s : Space) (elf base i x : ℕ) : Prop :=
  s.user ((base + x) / PAGE_SIZE) ∨ ∃ j < i, (phdr s.mem elf j).Covers x

-- The byte at the offset `x` belongs to the contents of the segment, and no byte up to it faults.
def Copied (s : Space) (elf base i x : ℕ) : Prop :=
  (phdr s.mem elf i).vaddr ≤ x ∧ x < (phdr s.mem elf i).vaddr + (phdr s.mem elf i).filesz ∧
    ∀ y, (phdr s.mem elf i).vaddr ≤ y → y ≤ x → Backed s elf base (i + 1) y

-- The last page of the segment begins below the size which was reserved, and so do the bytes which are copied.
def Fits (s : Space) (elf base spread i : ℕ) : Prop :=
  0 < (phdr s.mem elf i).memsz →
    ((phdr s.mem elf i).vaddr / PAGE_SIZE + (memflagPages (phdr s.mem elf i).memsz - 1)) * PAGE_SIZE < spread ∧
      ∀ x, Copied s elf base i x → x < spread

-- The header is loaded, and the next one is looked at.
def Passes (s : Space) (elf base i : ℕ) : Prop :=
  (phdr s.mem elf i).Known ∧ ((phdr s.mem elf i).type = PT_LOAD →
    ∀ x, (phdr s.mem elf i).vaddr ≤ x → x < (phdr s.mem elf i).vaddr + (phdr s.mem elf i).filesz →
      Backed s elf base (i + 1) x)

-- All segments fit which are loaded at the base.
def SegmentsFit (s : Space) (elf base spread : ℕ) : Prop :=
  ∀ i < phnum s.mem elf, (∀ j < i, Passes s elf base j) → (phdr s.mem elf i).type = PT_LOAD → Fits s elf base spread i

-- No range is free, or the segments fit into the one which was found.
def ImageFits (s : Space) (elf : ℕ) : Prop :=
  findfree s.mapped 0x1000 (elfSpread s.mem elf) ≠ 0 →
    SegmentsFit s elf (findfree s.mapped 0x1000 (elfSpread s.mem elf)) (elfSpread s.mem elf)

section Findfree

variable {mapped : ℕ → Bool} {len n iter start r p : ℕ}

-- The pages of the range are free.
structure FreePages (mapped : ℕ → Bool) (len start r : ℕ) : Prop where
  aligned : r % PAGE_SIZE = 0
  above   : start ≤ r
  below   : r + len < FINDFREE_END + PAGE_SIZE
  free    : ∀ p, r ≤ p * PAGE_SIZE → p * PAGE_SIZE < r + len → ¬mapped p

theorem findfreeLoop_free (hs : start % PAGE_SIZE = 0) (hi : iter % PAGE_SIZE = 0) (hle : start ≤ iter)
    (hfree : ∀ p, start ≤ p * PAGE_SIZE → p * PAGE_SIZE < iter → ¬mapped p)
    (hr : findfreeLoop mapped len n iter start = r) (h0 : r ≠ 0) : FreePages mapped len start r := by
  induction n generalizing iter start
  case zero => exact absurd hr.symm h0
  case succ n ih =>
    rw [findfreeLoop] at hr
    by_cases hend : iter < FINDFREE_END
    case neg => exact absurd ((if_pos hend).symm.trans hr).symm h0
    rw [if_neg (not_not.mpr hend)] at hr
    split_ifs at hr with hmapped hlen
    case pos =>
      have hnext : (iter + PAGE_SIZE) % PAGE_SIZE = 0 := by rw [Nat.add_mod_right, hi]
      have := ih hnext hnext le_rfl (fun p h h' => absurd h (Nat.not_le_of_lt h')) hr
      exact ⟨this.aligned, by have := this.above; omega, this.below, this.free⟩
    case pos =>
      subst hr
      refine ⟨hs, le_rfl, ?_, fun p hp hlt => ?_⟩
      · simp only [FINDFREE_END, PAGE_SIZE] at *
        omega
      · by_cases hcur : p * PAGE_SIZE < iter
        case pos => exact hfree p hp hcur
        case neg =>
          have : iter / PAGE_SIZE = p := by
            simp only [PAGE_SIZE] at *
            omega
          rwa [← this]
    case neg =>
      refine ih hs (by rw [Nat.add_mod_right, hi]) (by omega) (fun p hp hlt => ?_) hr
      by_cases hcur : p * PAGE_SIZE < iter
      case pos => exact hfree p hp hcur
      case neg =>
        have : iter / PAGE_SIZE = p := by
          simp only [PAGE_SIZE] at *
          omega
        rwa [← this]

theorem findfree_free (hr : findfree mapped start len = r) (h0 : r ≠ 0) (hs : start % PAGE_SIZE = 0)
    (hlt : start < 2 ^ 64) : FreePages mapped len start r := by
  have hround : (start + (PAGE_SIZE - 1)) % 2 ^ 64 - (start + (PAGE_SIZE - 1)) % 2 ^ 64 % PAGE_SIZE = start := by
    simp only [PAGE_SIZE] at hs ⊢
    omega
  rw [findfree, hround] at hr
  exact findfreeLoop_free hs hs le_rfl (fun p h h' => absurd h (Nat.not_le_of_lt h')) hr h0

-- It is the address which the kernel finds in the page directory.
theorem findfree_eq {s : Phys} {d : ℕ} (hd : Dir s d) (hm : ∀ n < 2 ^ 35, mapped n ↔ pageAt s.mem d n ≠ none) :
    pagedirFindfree s.mem d start len = .ok (findfree mapped start len) := by
  rw [pagedirFindfree, findfree]
  generalize FINDFREE_END / PAGE_SIZE = n
  generalize (start + (PAGE_SIZE - 1)) % 2 ^ 64 - (start + (PAGE_SIZE - 1)) % 2 ^ 64 % PAGE_SIZE = start
  suffices hloop : ∀ iter start, pagedirFindfreeLoop s.mem d len n iter start = .ok (findfreeLoop mapped len n iter start) from
    hloop start start
  induction n
  case zero => exact fun _ _ => rfl
  case succ n ih =>
    intro iter start
    rw [pagedirFindfreeLoop, findfreeLoop]
    by_cases hend : iter < FINDFREE_END
    case neg => rw [if_pos hend, if_pos hend]
    case pos =>
      obtain ⟨page, hentry, hpresent⟩ := hd.findfree_entry hend
      have hpage : pageOf iter = iter / PAGE_SIZE := by
        simp only [FINDFREE_END] at hend
        simp only [pageOf, PAGE_SIZE]
        omega
      rw [hpage, ← hm _ (by simp only [FINDFREE_END] at hend; simp only [PAGE_SIZE]; omega)] at hpresent
      rw [if_neg (not_not.mpr hend), if_neg (not_not.mpr hend), hentry]
      simp only [bind, Except.bind, pure, Except.pure, hpresent, ih]
      split_ifs <;> rfl

end Findfree

section Visits

variable {user : ℕ → Bool} {base spread vaddr len dest n k p x : ℕ}

theorem mem_visits (hb : base % PAGE_SIZE = 0) :
    p ∈ visits ((base + vaddr) % 2 ^ 64) len ↔
      ∃ k < memflagPages len, p = (base / PAGE_SIZE + vaddr / PAGE_SIZE + k) % 2 ^ 52 := by
  simp only [visits, List.mem_map, List.mem_range]
  refine exists_congr fun k => and_congr_right fun _ => ?_
  have : memflagAddr ((base + vaddr) % 2 ^ 64 - (base + vaddr) % 2 ^ 64 % PAGE_SIZE) k / PAGE_SIZE =
      (base / PAGE_SIZE + vaddr / PAGE_SIZE + k) % 2 ^ 52 := by
    simp only [memflagAddr, PAGE_SIZE] at *
    omega
  rw [this, eq_comm]

theorem memflagPages_zero : memflagPages 0 = 0 := by
  decide

theorem memflagPages_pos (h : 0 < len) : 0 < memflagPages len := by
  simp only [memflagPages, PAGE_SIZE]
  omega

theorem visits_zero : visits dest 0 = [] := by
  simp [visits, memflagPages_zero]

-- The pages are inside of the range if the last one is. The addresses of the pages do not leave the range without
-- a page behind it or in front of it.
theorem visits_inside (hb : base % PAGE_SIZE = 0) (hv : vaddr < 2 ^ 64) (hs : base + spread ≤ 2 ^ 63) (hlen : 0 < len) :
    (∀ p ∈ visits ((base + vaddr) % 2 ^ 64) len, base ≤ p * PAGE_SIZE ∧ p * PAGE_SIZE < base + spread) ↔
      (vaddr / PAGE_SIZE + (memflagPages len - 1)) * PAGE_SIZE < spread := by
  have hpos := memflagPages_pos hlen
  simp only [mem_visits hb]
  generalize memflagPages len = pages at hpos
  constructor
  case mp =>
    intro h
    by_contra hfit
    by_cases hfirst : vaddr / PAGE_SIZE * PAGE_SIZE < spread
    case pos =>
      have := h _ ⟨(spread + (PAGE_SIZE - 1)) / PAGE_SIZE - vaddr / PAGE_SIZE, by
        simp only [PAGE_SIZE] at *
        omega, rfl⟩
      simp only [PAGE_SIZE] at *
      omega
    case neg =>
      have := h _ ⟨0, hpos, rfl⟩
      simp only [PAGE_SIZE] at *
      omega
  case mpr =>
    rintro h p ⟨k, hk, rfl⟩
    simp only [PAGE_SIZE] at *
    omega

theorem mem_visits_base (hb : base % PAGE_SIZE = 0) (hv : vaddr < 2 ^ 64) (hs : base + spread ≤ 2 ^ 63)
    (hfit : 0 < len → (vaddr / PAGE_SIZE + (memflagPages len - 1)) * PAGE_SIZE < spread) :
    (base + x) / PAGE_SIZE ∈ visits ((base + vaddr) % 2 ^ 64) len ↔
      vaddr / PAGE_SIZE ≤ x / PAGE_SIZE ∧ x / PAGE_SIZE < vaddr / PAGE_SIZE + memflagPages len := by
  obtain rfl | hlen := Nat.eq_zero_or_pos len
  case inl =>
    rw [visits_zero, memflagPages_zero]
    exact iff_of_false List.not_mem_nil (by omega)
  have hfit := hfit hlen
  rw [mem_visits hb]
  generalize memflagPages len = pages at hfit
  constructor
  case mp =>
    rintro ⟨k, hk, heq⟩
    simp only [PAGE_SIZE] at *
    omega
  case mpr =>
    intro h
    refine ⟨x / PAGE_SIZE - vaddr / PAGE_SIZE, by omega, ?_⟩
    simp only [PAGE_SIZE] at *
    omega

theorem reached_le : reached user dest n ≤ n := by
  induction n generalizing dest
  case zero => exact le_rfl
  case succ n ih =>
    rw [reached]
    split_ifs
    · exact Nat.succ_le_succ ih
    · exact Nat.zero_le _

theorem lt_reached :
    k < reached user dest n ↔ k < n ∧ ∀ j ≤ k, user ((dest + j) % 2 ^ 64 / PAGE_SIZE) := by
  induction n generalizing dest k
  case zero => simp [reached]
  case succ n ih =>
    rw [reached]
    by_cases hfirst : user (dest % 2 ^ 64 / PAGE_SIZE)
    case neg =>
      rw [if_neg hfirst]
      exact iff_of_false (Nat.not_lt_zero k) fun h => hfirst (h.right 0 (Nat.zero_le k))
    case pos =>
      rw [if_pos hfirst]
      cases k
      case zero =>
        refine iff_of_true (Nat.zero_lt_succ _) ⟨Nat.zero_lt_succ _, fun j hj => ?_⟩
        rwa [Nat.le_zero.mp hj]
      case succ k =>
        rw [Nat.succ_lt_succ_iff, Nat.succ_lt_succ_iff, ih]
        refine and_congr_right fun _ => ⟨fun h j hj => ?_, fun h j hj => ?_⟩
        · cases j
          case zero => exact hfirst
          case succ j =>
            have := h j (Nat.le_of_succ_le_succ hj)
            rwa [Nat.add_right_comm] at this
        · have := h (j + 1) (Nat.succ_le_succ hj)
          rwa [← Nat.add_assoc, Nat.add_right_comm] at this

end Visits

section Headers

variable {s u : Space} {m m' : Mem} {elf size low high n phi i : ℕ}

-- The file is the same in the two memories.
def SameFile (m m' : Mem) (elf size : ℕ) : Prop :=
  ∀ x, elf ≤ x → x < elf + size → m' x = m x

theorem SameFile.load (h : SameFile m m' elf size) {a : ℕ} (ha : elf ≤ a) (hle : a + n ≤ elf + size) :
    m'.load a n = m.load a n :=
  Mem.load_congr fun i hi => h (a + i) (by omega) (by omega)

theorem SameFile.phnum (h : SameFile m m' elf size) (hsize : 64 ≤ size) : phnum m' elf = phnum m elf :=
  h.load (by omega) (by omega)

theorem SameFile.phdr (h : SameFile m m' elf size) (hsize : 64 ≤ size)
    (hin : m.load (elf + 32) 8 + i * m.load (elf + 54) 2 + 56 ≤ size) : phdr m' elf i = phdr m elf i := by
  have hoff : m'.load (elf + 32) 8 = m.load (elf + 32) 8 := h.load (by omega) (by omega)
  have hent : m'.load (elf + 54) 2 = m.load (elf + 54) 2 := h.load (by omega) (by omega)
  obtain ⟨a, ha⟩ : ∃ a, a = elf + m.load (elf + 32) 8 + i * m.load (elf + 54) 2 := ⟨_, rfl⟩
  have hfield (o k : ℕ) (hk : o + k ≤ 56) : m'.load (a + o) k = m.load (a + o) k := h.load (by omega) (by omega)
  rw [Elf.phdr, Elf.phdr, hoff, hent, ← ha]
  have htype := hfield 0 4 (by omega)
  rw [Nat.add_zero] at htype
  rw [htype, hfield 8 8 (by omega), hfield 16 8 (by omega), hfield 32 8 (by omega), hfield 40 8 (by omega)]

theorem spreadLoop_congr (h : ∀ i, phi ≤ i → i < phi + n → phdr m' elf i = phdr m elf i) :
    spreadLoop m' elf n phi low high = spreadLoop m elf n phi low high := by
  induction n generalizing phi low high
  case zero => rfl
  case succ n ih =>
    rw [spreadLoop, spreadLoop, h phi le_rfl (by omega)]
    exact ih fun i hle hlt => h i (by omega) (by omega)

namespace Image

variable (himg : Image s elf size)
include himg

theorem phnum_eq (h : SameFile s.mem u.mem elf size) : phnum u.mem elf = phnum s.mem elf :=
  h.phnum himg.header

theorem phdr_eq (h : SameFile s.mem u.mem elf size) (hi : i < phnum s.mem elf) : phdr u.mem elf i = phdr s.mem elf i :=
  h.phdr himg.header (himg.headers i hi)

theorem spread_eq (h : SameFile s.mem u.mem elf size) : elfSpread u.mem elf = elfSpread s.mem elf := by
  rw [elfSpread, elfSpread, himg.phnum_eq h]
  rw [spreadLoop_congr fun i _ hi => himg.phdr_eq h (by omega)]

end Image

theorem phnum_lt : phnum m elf < 2 ^ 16 := by
  have : phnum m elf < 256 ^ 2 := load_lt
  omega

theorem vaddr_lt : (phdr m elf i).vaddr < 2 ^ 64 := by
  have : (phdr m elf i).vaddr < 256 ^ 8 := load_lt
  omega

end Headers

section Memflag

variable {s : Space} {addr len : ℕ}

theorem visits_align : visits (addr - addr % PAGE_SIZE) len = visits addr len := by
  have : addr - addr % PAGE_SIZE - (addr - addr % PAGE_SIZE) % PAGE_SIZE = addr - addr % PAGE_SIZE := by
    simp only [PAGE_SIZE]
    omega
  rw [visits, visits, this]

theorem memflag_present : (memflag s addr len MEMFLAG_PRESENT).fst = s.map addr len := by
  rw [memflag, if_neg (by decide), if_neg (by decide)]
  simp only [Space.map, visits_align]

theorem memflag_unmap : (memflag s addr len 0).fst = s.unmap (addr - addr % PAGE_SIZE) len := by
  rw [memflag, if_neg (by decide), if_pos (by decide)]

theorem memflag_findfree : memflag s addr len MEMFLAG_FINDFREE = (s, findfree s.mapped (addr - addr % PAGE_SIZE) len) := by
  rw [memflag, if_pos (by decide), if_pos (by decide)]

theorem Space.mapped_map {n : ℕ} : (s.map addr len).mapped n = (s.mapped n || (visits addr len).contains n) := by
  simp only [Space.mapped, Space.map]
  cases s.user n <;> cases s.kern n <;> simp

end Memflag

section Load

variable {s u : Space} {elf base spread size i n x : ℕ}

-- The state of the loader in front of the header `i`.
structure Loaded (s : Space) (elf base spread i : ℕ) (u : Space) : Prop where
  confined : Confined base spread u
  kern     : u.kern = s.kern
  user     : ∀ n, s.user n → u.user n
  backed   : ∀ x, u.user ((base + x) / PAGE_SIZE) ↔ Backed s elf base i x
  maps     : ∀ p ∈ u.maps, u.user p
  mem      : ∀ x, s.mapped (x / PAGE_SIZE) → u.mem x = s.mem x

theorem loadPhdr_skip (h : (phdr u.mem elf i).type = PT_DYNAMIC ∨ (phdr u.mem elf i).type = GNU_STACK) :
    loadPhdr u elf base i = (u, some true) :=
  if_pos h

theorem loadPhdr_unknown (h : ¬(phdr u.mem elf i).Known) : loadPhdr u elf base i = (u, some false) := by
  obtain ⟨hload, hskip⟩ := not_or.mp h
  rw [loadPhdr, if_neg hskip, if_neg hload]

theorem loadPhdr_load (h : (phdr u.mem elf i).type = PT_LOAD) :
    loadPhdr u elf base i =
      let ph := phdr u.mem elf i
      let dest := (base + ph.vaddr) % 2 ^ 64
      let n := reached (u.map dest ph.memsz).user dest ph.filesz
      ((u.map dest ph.memsz).copy dest (elf + ph.offset) n, if n = ph.filesz then some true else none) := by
  have hskip : ¬((phdr u.mem elf i).type = PT_DYNAMIC ∨ (phdr u.mem elf i).type = GNU_STACK) := by
    rw [h]
    decide
  rw [loadPhdr, if_neg hskip, if_pos h]
  simp only [memflag_present]

namespace Loaded

theorem mapped (h : Loaded s elf base spread i u) (hx : s.mapped n) : u.mapped n := by
  simp only [Space.mapped, Bool.or_eq_true, h.kern] at hx ⊢
  exact hx.imp_left (h.user n)

theorem file (himg : Image s elf size) (h : Loaded s elf base spread i u) : SameFile s.mem u.mem elf size :=
  fun x hle hlt => h.mem x (by simp [Space.mapped, himg.present x hle hlt])

end Loaded

theorem backed_succ : Backed s elf base (i + 1) x ↔ Backed s elf base i x ∨ (phdr s.mem elf i).Covers x := by
  simp only [Backed, or_assoc, Nat.exists_lt_succ_right]

theorem Confined.mono {t : Space} (h : Confined base spread t) (hm : u.maps ⊆ t.maps) (hw : u.writes ⊆ t.writes) :
    Confined base spread u where
  maps p hp := h.maps p (hm hp)
  writes w hw' := h.writes w (hw hw')

-- The space with the pages of the segment.
def mapSegment (s u : Space) (elf base i : ℕ) : Space :=
  u.map ((base + (phdr s.mem elf i).vaddr) % 2 ^ 64) (phdr s.mem elf i).memsz

def PagesFit (s : Space) (elf spread i : ℕ) : Prop :=
  0 < (phdr s.mem elf i).memsz →
    ((phdr s.mem elf i).vaddr / PAGE_SIZE + (memflagPages (phdr s.mem elf i).memsz - 1)) * PAGE_SIZE < spread

-- The bytes which `load_phdr` copies.
def copies (s u : Space) (elf base i : ℕ) : ℕ :=
  reached (mapSegment s u elf base i).user ((base + (phdr s.mem elf i).vaddr) % 2 ^ 64) (phdr s.mem elf i).filesz

def loadSegment (s u : Space) (elf base i : ℕ) : Space :=
  (mapSegment s u elf base i).copy ((base + (phdr s.mem elf i).vaddr) % 2 ^ 64) (elf + (phdr s.mem elf i).offset)
    (copies s u elf base i)

theorem user_loadSegment : (loadSegment s u elf base i).user = (mapSegment s u elf base i).user :=
  rfl

theorem kern_loadSegment : (loadSegment s u elf base i).kern = u.kern :=
  rfl

theorem Confined.copied (hc : Confined base spread (loadSegment s u elf base i))
    (hle : (base + (phdr s.mem elf i).vaddr) % 2 ^ 64 ≤ x)
    (hlt : x < (base + (phdr s.mem elf i).vaddr) % 2 ^ 64 + copies s u elf base i) : base ≤ x ∧ x < base + spread := by
  have hin := hc.writes (_, _) (List.mem_append_right _ (List.mem_singleton_self _)) x
  dsimp only at hin
  exact hin hle hlt

section Segment

variable (himg : Image s elf size) (hfree : FreePages s.mapped spread 0x1000 base)
variable (h : Loaded s elf base spread i u) (hi : i < phnum s.mem elf) (htype : (phdr s.mem elf i).type = PT_LOAD)

include hfree

theorem FreePages.bound : base + spread ≤ 2 ^ 63 := by
  have := hfree.below
  simp only [FINDFREE_END, PAGE_SIZE] at this
  omega

include h

theorem Loaded.maps_mapSegment :
    (∀ p ∈ (mapSegment s u elf base i).maps, base ≤ p * PAGE_SIZE ∧ p * PAGE_SIZE < base + spread) ↔
      PagesFit s elf spread i := by
  have hold := h.confined.maps
  obtain hzero | hpos := Nat.eq_zero_or_pos (phdr s.mem elf i).memsz
  case inl =>
    refine iff_of_true ?_ fun hpos => absurd hzero hpos.ne'
    rw [mapSegment, hzero]
    simpa only [Space.map, visits_zero, List.append_nil] using hold
  case inr =>
    have hinside := visits_inside hfree.aligned (@vaddr_lt s.mem elf i) hfree.bound hpos
    rw [mapSegment, Space.map, List.forall_mem_append, hinside, PagesFit]
    simp only [hpos, forall_const]
    exact and_iff_right hold

theorem Loaded.mem_loadSegment (hc : Confined base spread (loadSegment s u elf base i)) (hx : s.mapped (x / PAGE_SIZE)) :
    (loadSegment s u elf base i).mem x = s.mem x := by
  have hold := h.mem x hx
  have hmapped := h.mapped hx
  have hout : ¬((base + (phdr s.mem elf i).vaddr) % 2 ^ 64 ≤ x ∧
      x < (base + (phdr s.mem elf i).vaddr) % 2 ^ 64 + copies s u elf base i) := by
    rintro ⟨hle, hlt⟩
    have hin := hc.copied hle hlt
    have hbelow : x / PAGE_SIZE * PAGE_SIZE < base + spread :=
      Nat.lt_of_le_of_lt (Nat.div_mul_le_self x PAGE_SIZE) hin.right
    refine absurd hx (hfree.free (x / PAGE_SIZE) ?_ hbelow)
    have haligned := hfree.aligned
    simp only [PAGE_SIZE] at *
    omega
  simp only [loadSegment, Space.copy]
  rw [memcpy_not_mem hout]
  simp [mapSegment, Space.map, hmapped, hold]

theorem Loaded.maps_loadSegment (hc : Confined base spread (loadSegment s u elf base i)) {p : ℕ}
    (hp : p ∈ (loadSegment s u elf base i).maps) : (loadSegment s u elf base i).user p := by
  have hnew := hfree.free p (hc.maps p hp).left (hc.maps p hp).right
  have hkern : ¬u.kern p := by
    rw [h.kern]
    exact fun hk => hnew (by simp [Space.mapped, hk])
  simp only [loadSegment, mapSegment, Space.copy, Space.map, Bool.or_eq_true, Bool.and_eq_true,
    List.contains_iff_mem, List.mem_append, Bool.not_eq_true', Bool.eq_false_iff.mpr hkern, and_true] at hp ⊢
  exact hp.imp_left (h.maps p)

include htype

theorem Loaded.user_mapSegment (hfit : PagesFit s elf spread i) :
    (mapSegment s u elf base i).user ((base + x) / PAGE_SIZE) ↔ Backed s elf base (i + 1) x := by
  have hcovers : (phdr s.mem elf i).Covers x ↔
      (base + x) / PAGE_SIZE ∈ visits ((base + (phdr s.mem elf i).vaddr) % 2 ^ 64) (phdr s.mem elf i).memsz := by
    rw [mem_visits_base hfree.aligned vaddr_lt hfree.bound hfit, Phdr.Covers]
    exact and_iff_right htype
  have hkern (hv : (base + x) / PAGE_SIZE ∈ visits ((base + (phdr s.mem elf i).vaddr) % 2 ^ 64) (phdr s.mem elf i).memsz) :
      ¬u.kern ((base + x) / PAGE_SIZE) := by
    have hin := (h.maps_mapSegment hfree).mpr hfit _ (List.mem_append_right _ hv)
    have := hfree.free _ hin.left hin.right
    rw [h.kern]
    exact fun hk => this (by simp [Space.mapped, hk])
  rw [backed_succ, ← h.backed, hcovers]
  simp only [mapSegment, Space.map, Bool.or_eq_true, Bool.and_eq_true, List.contains_iff_mem, Bool.not_eq_true']
  exact or_congr_right (and_iff_left_of_imp fun hv => Bool.eq_false_iff.mpr (hkern hv))

include himg hi

-- As the pages fit, the addresses of the bytes do not wrap around.
theorem Loaded.lt_reached (hfit : PagesFit s elf spread i) :
    n < reached (mapSegment s u elf base i).user ((base + (phdr s.mem elf i).vaddr) % 2 ^ 64) (phdr s.mem elf i).filesz ↔
      Copied s elf base i ((phdr s.mem elf i).vaddr + n) := by
  have hsize := (himg.contents i hi htype).right
  have hbound := hfree.bound
  have hend (hn : n < (phdr s.mem elf i).filesz) : base + (phdr s.mem elf i).vaddr + n < 2 ^ 64 := by
    have := hfit (by omega)
    simp only [memflagPages, PAGE_SIZE] at this
    omega
  rw [Elf.lt_reached, Copied]
  simp only [Nat.le_add_right, true_and, Nat.add_lt_add_iff_left]
  refine and_congr_right fun hn => ?_
  have hend := hend hn
  have haddr (j : ℕ) (hj : j ≤ n) :
      ((base + (phdr s.mem elf i).vaddr) % 2 ^ 64 + j) % 2 ^ 64 = base + ((phdr s.mem elf i).vaddr + j) := by
    omega
  constructor
  case mp =>
    intro hall y hle hlt
    have hj := hall (y - (phdr s.mem elf i).vaddr) (by omega)
    rw [haddr _ (by omega), h.user_mapSegment hfree htype hfit, Nat.add_sub_cancel' hle] at hj
    exact hj
  case mpr =>
    intro hall j hj
    rw [haddr j hj, h.user_mapSegment hfree htype hfit]
    exact hall _ (Nat.le_add_right _ _) (by omega)

omit hfree in
theorem Loaded.loadPhdr : loadPhdr u elf base i =
    (loadSegment s u elf base i, if copies s u elf base i = (phdr s.mem elf i).filesz then some true else none) := by
  have heq := himg.phdr_eq (h.file himg) hi
  rw [loadPhdr_load (heq ▸ htype), heq]
  rfl

-- The bytes which are copied are at their addresses.
theorem Loaded.copied (hfit : PagesFit s elf spread i) (hn : n < copies s u elf base i) :
    (base + (phdr s.mem elf i).vaddr) % 2 ^ 64 = base + (phdr s.mem elf i).vaddr ∧
      Copied s elf base i ((phdr s.mem elf i).vaddr + n) := by
  have hcopied := (h.lt_reached himg hfree hi htype hfit).mp hn
  refine ⟨?_, hcopied⟩
  have hsize := (himg.contents i hi htype).right
  have hbound := hfree.bound
  have hlt := hcopied.right.left
  have := hfit (by omega)
  simp only [memflagPages, PAGE_SIZE] at this
  omega

theorem Loaded.writes_loadSegment (hfit : PagesFit s elf spread i) :
    Confined base spread (loadSegment s u elf base i) ↔ ∀ x, Copied s elf base i x → x < spread := by
  constructor
  case mp =>
    intro hc x hx
    obtain ⟨k, rfl⟩ := Nat.exists_eq_add_of_le hx.left
    have hk := (h.lt_reached himg hfree hi htype hfit).mpr hx
    have haddr := (h.copied himg hfree hi htype hfit hk).left
    have := hc.copied (x := base + ((phdr s.mem elf i).vaddr + k)) (by omega) (by simp only [copies]; omega)
    omega
  case mpr =>
    intro hx
    refine ⟨(h.maps_mapSegment hfree).mpr hfit, fun w hw x hle hlt => ?_⟩
    obtain hw | hw := List.mem_append.mp hw
    case inl => exact h.confined.writes w hw x hle hlt
    case inr =>
      obtain rfl := List.mem_singleton.mp hw
      simp only at hle hlt
      obtain ⟨k, rfl⟩ := Nat.exists_eq_add_of_le hle
      obtain ⟨haddr, hcopied⟩ := h.copied himg hfree hi htype hfit (Nat.lt_of_add_lt_add_left hlt)
      have := hx _ hcopied
      omega

theorem Loaded.confined_loadSegment :
    Confined base spread (loadSegment s u elf base i) ↔ Fits s elf base spread i := by
  constructor
  case mp =>
    intro hc hpos
    have hfit := (h.maps_mapSegment hfree).mp hc.maps
    exact ⟨hfit hpos, (h.writes_loadSegment himg hfree hi htype hfit).mp hc⟩
  case mpr =>
    intro hfits
    refine (h.writes_loadSegment himg hfree hi htype fun hpos => (hfits hpos).left).mpr fun x hx => ?_
    have hsize := (himg.contents i hi htype).right
    exact (hfits (by have := hx.left; have := hx.right.left; omega)).right x hx

omit himg hi in
theorem Loaded.loadSegment (hc : Confined base spread (loadSegment s u elf base i)) :
    Loaded s elf base spread (i + 1) (loadSegment s u elf base i) where
  confined := hc
  kern := by
    rw [kern_loadSegment, h.kern]
  user n hn := by
    have := h.user n hn
    simp only [user_loadSegment, mapSegment, Space.map, this, Bool.true_or]
  backed x := by
    rw [user_loadSegment]
    exact h.user_mapSegment hfree htype ((h.maps_mapSegment hfree).mp hc.maps)
  maps _ := h.maps_loadSegment hfree hc
  mem _ := h.mem_loadSegment hfree hc

theorem Loaded.copies_eq (hfit : PagesFit s elf spread i) :
    copies s u elf base i = (phdr s.mem elf i).filesz ↔ Passes s elf base i := by
  have hiff (k : ℕ) := h.lt_reached (n := k) himg hfree hi htype hfit
  constructor
  case mp =>
    intro heq
    refine ⟨.inl htype, fun _ x hle hlt => ?_⟩
    obtain ⟨k, rfl⟩ := Nat.exists_eq_add_of_le hle
    have hk : k < copies s u elf base i := by omega
    exact ((hiff k).mp hk).right.right _ hle le_rfl
  case mpr =>
    intro hpass
    refine Nat.le_antisymm reached_le (Nat.le_of_not_lt fun hlt => ?_)
    refine Nat.lt_irrefl (copies s u elf base i) ((hiff _).mpr ⟨Nat.le_add_right _ _, by omega, fun y hle hy => ?_⟩)
    exact hpass.right htype y hle (by omega)

end Segment

theorem Loaded.skip (h : Loaded s elf base spread i u) (htype : (phdr s.mem elf i).type ≠ PT_LOAD) :
    Loaded s elf base spread (i + 1) u where
  confined := h.confined
  kern := h.kern
  user := h.user
  backed _ := by
    rw [h.backed, backed_succ, or_iff_left]
    exact fun hc => htype hc.left
  maps := h.maps
  mem := h.mem

theorem loadPhdr_extends : u.maps ⊆ (loadPhdr u elf base i).fst.maps ∧ u.writes ⊆ (loadPhdr u elf base i).fst.writes := by
  by_cases hknown : (phdr u.mem elf i).Known
  case neg => simp [loadPhdr_unknown hknown]
  case pos =>
    obtain hload | hskip := hknown
    case inl => simp [loadPhdr_load hload, Space.copy, Space.map]
    case inr => simp [loadPhdr_skip hskip]

theorem loadPhdrs_extends :
    u.maps ⊆ (loadPhdrs elf base n i u).fst.maps ∧ u.writes ⊆ (loadPhdrs elf base n i u).fst.writes := by
  induction n generalizing i u
  case zero => simp [loadPhdrs]
  case succ n ih =>
    rw [loadPhdrs]
    split_ifs
    case neg => simp
    case pos =>
      have hstep := @loadPhdr_extends u elf base i
      split
      case h_1 t ht =>
        rw [ht] at hstep
        exact ⟨List.Subset.trans hstep.left ih.left, List.Subset.trans hstep.right ih.right⟩
      case h_2 t r _ ht =>
        rwa [ht] at hstep

-- The segments from the header `i` on fit, as far as they are loaded.
def FitsFrom (s : Space) (elf base spread i : ℕ) : Prop :=
  ∀ k, i ≤ k → k < phnum s.mem elf → (∀ j, i ≤ j → j < k → Passes s elf base j) →
    (phdr s.mem elf k).type = PT_LOAD → Fits s elf base spread k

theorem fitsFrom_zero : FitsFrom s elf base spread 0 ↔ SegmentsFit s elf base spread := by
  simp [FitsFrom, SegmentsFit]

theorem fitsFrom_succ (hi : i < phnum s.mem elf) :
    FitsFrom s elf base spread i ↔ ((phdr s.mem elf i).type = PT_LOAD → Fits s elf base spread i) ∧
      (Passes s elf base i → FitsFrom s elf base spread (i + 1)) := by
  constructor
  case mp =>
    intro h
    refine ⟨h i le_rfl hi fun j hle hlt => absurd hle (Nat.not_le_of_lt hlt), fun hpass k hk hlt hall => ?_⟩
    refine h k (Nat.le_of_succ_le hk) hlt fun j hle hj => ?_
    obtain rfl | hlt := Nat.eq_or_lt_of_le hle
    · exact hpass
    · exact hall j hlt hj
  case mpr =>
    rintro ⟨hfirst, hrest⟩ k hk hlt hall
    obtain rfl | hk := Nat.eq_or_lt_of_le hk
    · exact hfirst
    · exact hrest (hall i le_rfl hk) k hk hlt fun j hle hj => hall j (Nat.le_of_succ_le hle) hj

-- The loop stays in the range exactly if the segments fit, and then nothing was overwritten.
theorem Loaded.run (himg : Image s elf size) (hfree : FreePages s.mapped spread 0x1000 base)
    (h : Loaded s elf base spread i u) (hn : phnum s.mem elf ≤ n + i) :
    (Confined base spread (loadPhdrs elf base n i u).fst ↔ FitsFrom s elf base spread i) ∧
      (Confined base spread (loadPhdrs elf base n i u).fst →
        ∃ k, Loaded s elf base spread k (loadPhdrs elf base n i u).fst) := by
  induction n generalizing i u
  case zero =>
    rw [loadPhdrs]
    refine ⟨iff_of_true h.confined fun k hk hlt => ?_, fun _ => ⟨i, h⟩⟩
    omega
  case succ n ih =>
    rw [loadPhdrs, himg.phnum_eq (h.file himg)]
    by_cases hi : i < phnum s.mem elf
    case neg =>
      rw [if_neg hi]
      refine ⟨iff_of_true h.confined fun k hk hlt => ?_, fun _ => ⟨i, h⟩⟩
      omega
    rw [if_pos hi, fitsFrom_succ hi]
    have hph := himg.phdr_eq (h.file himg) hi
    by_cases hknown : (phdr s.mem elf i).Known
    case neg =>
      rw [loadPhdr_unknown (hph ▸ hknown)]
      refine ⟨iff_of_true h.confined ⟨?_, ?_⟩, fun _ => ⟨i, h⟩⟩
      · exact fun ht => absurd (.inl ht) hknown
      · exact fun hp => absurd hp.left hknown
    by_cases htype : (phdr s.mem elf i).type = PT_LOAD
    case neg =>
      rw [loadPhdr_skip (hph ▸ hknown.resolve_left htype)]
      have hpass : Passes s elf base i := ⟨hknown, fun ht => absurd ht htype⟩
      have hrun := ih (h.skip htype) (by omega)
      simpa only [htype, hpass, false_implies, true_and, true_implies] using hrun
    case pos =>
      have hfits := h.confined_loadSegment himg hfree hi htype
      rw [h.loadPhdr himg hi htype]
      by_cases hc : Confined base spread (Elf.loadSegment s u elf base i)
      case neg =>
        have hfirst : ¬((phdr s.mem elf i).type = PT_LOAD → Fits s elf base spread i) := fun hf => hc (hfits.mpr (hf htype))
        by_cases hcopied : copies s u elf base i = (phdr s.mem elf i).filesz
        case pos =>
          rw [if_pos hcopied]
          have hnot : ¬Confined base spread (loadPhdrs elf base n (i + 1) (Elf.loadSegment s u elf base i)).fst :=
            fun hrun => hc (hrun.mono loadPhdrs_extends.left loadPhdrs_extends.right)
          exact ⟨iff_of_false hnot fun hf => hfirst hf.left, fun hrun => absurd hrun hnot⟩
        case neg =>
          rw [if_neg hcopied]
          exact ⟨iff_of_false hc fun hf => hfirst hf.left, fun hrun => absurd hrun hc⟩
      case pos =>
        have hnext := h.loadSegment hfree htype hc
        have hpass := h.copies_eq himg hfree hi htype fun hpos => (hfits.mp hc hpos).left
        by_cases hcopied : copies s u elf base i = (phdr s.mem elf i).filesz
        case pos =>
          rw [if_pos hcopied]
          have hrun := ih hnext (by omega)
          simpa only [htype, hfits.mp hc, hpass.mp hcopied, true_and, true_implies] using hrun
        case neg =>
          rw [if_neg hcopied]
          refine ⟨iff_of_true hc ⟨?_, ?_⟩, fun _ => ⟨i + 1, hnext⟩⟩
          · exact fun _ => hfits.mp hc
          · exact fun hp => absurd (hpass.mpr hp) hcopied

end Load

section Exec

variable {s t u : Space} {elf base spread size n p x : ℕ}

-- In front of the first header nothing was loaded.
theorem Image.loaded (himg : Image s elf size) : Loaded s elf base spread 0 s where
  confined := ⟨by simp [himg.maps], by simp [himg.writes]⟩
  kern := rfl
  user _ := id
  backed x := by simp [Backed]
  maps := by simp [himg.maps]
  mem _ _ := rfl

theorem loadAt_confined : Confined base spread (loadAt s elf base spread).fst ↔
    Confined base spread (loadPhdrs elf base (2 ^ 16) 0 s).fst := by
  have hunmap (t : Space) : Confined base spread (memflag t base spread 0).fst ↔ Confined base spread t := by
    rw [memflag_unmap]
    exact ⟨fun h => ⟨h.maps, h.writes⟩, fun h => ⟨h.maps, h.writes⟩⟩
  rw [loadAt]
  split
  case h_1 _ ht => rw [ht]
  case h_2 _ ht => rw [ht, hunmap]
  case h_3 _ ht => rw [ht]

theorem mapped_unmap {addr len : ℕ} (h : s.mapped n)
    (hout : n * PAGE_SIZE < addr - addr % PAGE_SIZE ∨ (addr + len) % 2 ^ 64 ≤ n * PAGE_SIZE) : (s.unmap addr len).mapped n := by
  have hrange : ¬(addr - addr % PAGE_SIZE ≤ n * PAGE_SIZE ∧ n * PAGE_SIZE < (addr + len) % 2 ^ 64) := by omega
  simp only [Space.mapped, Space.unmap, ← Bool.decide_and, decide_eq_false hrange, Bool.not_false, Bool.and_true]
  exact h

-- The two calls of `_freejmp` unmap what is in front of the range and what is behind it.
theorem mapped_freejmp (h : s.mapped p) (hb : base % PAGE_SIZE = 0) (hs : base + spread ≤ 2 ^ 63)
    (hin : base ≤ p * PAGE_SIZE ∧ p * PAGE_SIZE < base + spread) : (freejmp s base (spread + 0x1000)).mapped p := by
  simp only [freejmp, memflag_unmap]
  refine mapped_unmap (mapped_unmap h (.inr ?_)) (.inl ?_)
  · omega
  · simp only [PAGE_SIZE] at *
    omega

theorem elfLoadmem_full (himg : Image s elf size) (h : findfree s.mapped 0x1000 (elfSpread s.mem elf) = 0) :
    elfLoadmem s elf = (s, some 0) := by
  simp only [elfLoadmem, himg.type, memflag_findfree]
  rw [if_neg (by decide), if_pos trivial]
  exact if_pos h

theorem elfLoadmem_free (himg : Image s elf size) (hb : findfree s.mapped 0x1000 (elfSpread s.mem elf) = base)
    (h : base ≠ 0) : elfLoadmem s elf = loadAt s elf base (elfSpread s.mem elf) := by
  subst hb
  simp only [elfLoadmem, himg.type, memflag_findfree]
  rw [if_neg (by decide), if_pos trivial]
  exact if_neg h

-- The pages which were mapped before are outside of the range.
theorem FreePages.outside (hfree : FreePages s.mapped spread 0x1000 base) (h : s.mapped n) :
    n * PAGE_SIZE < base ∨ base + spread ≤ n * PAGE_SIZE := by
  by_contra hin
  exact hfree.free n (by omega) (by omega) h

-- The program is started after the loop has reached its end.
theorem elfExec_some (himg : Image s elf size) (hb : findfree s.mapped 0x1000 (elfSpread s.mem elf) = base) (h0 : base ≠ 0)
    (hu : elfExec s elf = some u) :
    ∃ t, loadPhdrs elf base (2 ^ 16) 0 s = (t, some true) ∧ (elfLoadmem s elf).fst = t ∧
      u = freejmp (memflag t 0x11000 0x1000 (MEMFLAG_FINDFREE ||| MEMFLAG_PRESENT)).fst base
        (elfSpread (memflag t 0x11000 0x1000 (MEMFLAG_FINDFREE ||| MEMFLAG_PRESENT)).fst.mem elf + 0x1000) := by
  rw [elfExec, if_neg (not_not.mpr himg.valid), elfLoadmem_free himg hb h0, loadAt] at hu
  rw [elfLoadmem_free himg hb h0, loadAt]
  cases hrun : loadPhdrs elf base (2 ^ 16) 0 s
  case mk t r =>
    rw [hrun] at hu
    cases r
    case none => simp at hu
    case some r =>
      cases r
      case false => simp at hu
      case true =>
        simp only [if_neg h0, Option.some.injEq] at hu
        exact ⟨t, rfl, rfl, hu.symm⟩

-- What is demanded besides of the ranges follows from the state in which the loop ends.
section Kept

variable (himg : Image s elf size) (hfree : FreePages s.mapped (elfSpread s.mem elf) 0x1000 base)
variable (hloaded : Loaded s elf base (elfSpread s.mem elf) n (loadPhdrs elf base (2 ^ 16) 0 s).fst)
include hfree hloaded

theorem loadAt_kept (hx : s.mapped (x / PAGE_SIZE)) :
    (loadAt s elf base (elfSpread s.mem elf)).fst.mapped (x / PAGE_SIZE) ∧
      (loadAt s elf base (elfSpread s.mem elf)).fst.mem x = s.mem x := by
  have hmapped := hloaded.mapped hx
  have hmem := hloaded.mem x hx
  rw [loadAt]
  split
  case h_1 _ ht => exact ⟨by rwa [ht] at hmapped, by rwa [ht] at hmem⟩
  case h_3 _ ht => exact ⟨by rwa [ht] at hmapped, by rwa [ht] at hmem⟩
  case h_2 t ht =>
    rw [ht] at hmapped hmem
    rw [memflag_unmap]
    refine ⟨mapped_unmap hmapped ?_, hmem⟩
    have hout := hfree.outside hx
    have hbound := hfree.bound
    rw [hfree.aligned, Nat.sub_zero, hfree.aligned, Nat.sub_zero]
    omega

include himg

theorem elfExec_mapped (hb : findfree s.mapped 0x1000 (elfSpread s.mem elf) = base) (h0 : base ≠ 0)
    (hu : elfExec s elf = some u) (hp : p ∈ (elfLoadmem s elf).fst.maps) : u.mapped p := by
  obtain ⟨t, hrun, ht, rfl⟩ := elfExec_some himg hb h0 hu
  rw [hrun] at hloaded
  rw [ht] at hp
  have huser : t.user p := hloaded.maps p hp
  obtain ⟨a, ha⟩ : ∃ a, (memflag t 0x11000 0x1000 (MEMFLAG_FINDFREE ||| MEMFLAG_PRESENT)).fst = t.map a 0x1000 :=
    ⟨_, by rw [memflag, if_pos (by decide), if_neg (by decide)]⟩
  rw [ha]
  have hmapped (n : ℕ) (hn : t.mapped n) : (t.map a 0x1000).mapped n := by rw [Space.mapped_map, hn, Bool.true_or]
  have hfile : SameFile s.mem (t.map a 0x1000).mem elf size := by
    intro x hle hlt
    have hx : t.mapped (x / PAGE_SIZE) := hloaded.mapped (by simp [Space.mapped, himg.present x hle hlt])
    rw [← hloaded.file himg x hle hlt]
    simp [Space.map, hx]
  rw [himg.spread_eq hfile]
  refine mapped_freejmp (hmapped p ?_) hfree.aligned hfree.bound (hloaded.confined.maps p hp)
  simp [Space.mapped, huser]

end Kept

-- The loader does what is demanded of it exactly if the image fits.
theorem loads_iff (himg : Image s elf size) : Loads s elf ↔ ImageFits s elf := by
  obtain ⟨base, hb⟩ : ∃ base, findfree s.mapped 0x1000 (elfSpread s.mem elf) = base := ⟨_, rfl⟩
  by_cases h0 : base = 0
  case pos =>
    subst h0
    have hfull := elfLoadmem_full himg hb
    refine iff_of_true ⟨?_, ?_, ?_, ?_⟩ fun h => absurd hb h
    · rw [hfull]
      exact himg.loaded.confined
    · simp [hfull, himg.maps]
    · exact fun x hx => by simp [hfull, hx]
    · simp [hfull, himg.maps]
  case neg =>
    have hfree := findfree_free hb h0 (by decide) (by decide)
    have hrun := himg.loaded.run himg hfree (n := 2 ^ 16) (Nat.le_of_lt phnum_lt)
    rw [fitsFrom_zero, ← loadAt_confined, ← elfLoadmem_free himg hb h0] at hrun
    rw [ImageFits, hb, ← hrun.left]
    constructor
    case mp =>
      intro hl _
      have := hl.confined
      rwa [hb] at this
    case mpr =>
      intro hc
      have hc := hc h0
      obtain ⟨k, hloaded⟩ := hrun.right hc
      rw [← hb] at hc
      refine ⟨hc, fun p hp => ?_, fun x hx => ?_, fun u hu p hp => ?_⟩
      · rw [hb] at hc
        exact hfree.free p (hc.maps p hp).left (hc.maps p hp).right
      · rw [elfLoadmem_free himg hb h0]
        exact loadAt_kept hfree hloaded hx
      · exact elfExec_mapped himg hfree hloaded hb h0 hu hp

end Exec

-- A process which has read a file with a single segment, of which one byte is in the file, into its only page.
def process (vaddr : ℕ) : Space :=
  let m : Mem := fun _ => 0
  let m := (m.storeNat 0x10000 4 0x464c457f).storeNat 0x10010 2 ET_DYN
  let m := (m.storeNat 0x10012 2 EM_X86_64).storeNat 0x10014 4 1
  let m := (m.storeNat 0x10020 8 64).storeNat 0x10036 2 56
  let m := (m.storeNat 0x10038 2 1).storeNat 0x10040 4 PT_LOAD
  let m := (m.storeNat 0x10048 8 1).storeNat 0x10050 8 vaddr
  { user   := fun n => n = 0x10
    kern   := fun _ => false
    mem    := (m.storeNat 0x10060 8 1).storeNat 0x10068 8 0x1000
    maps   := []
    writes := [] }

theorem process_image {vaddr : ℕ} (h : vaddr = 0 ∨ vaddr = 0xF000) : Image (process vaddr) 0x10000 120 := by
  refine ⟨rfl, rfl, ?_, ?_, by decide, ?_, ?_, fun x hle hlt => ?_⟩
  case refine_5 =>
    have : x / PAGE_SIZE = 0x10 := by
      simp only [PAGE_SIZE]
      omega
    simp [process, this]
  all_goals
    obtain rfl | rfl := h
    all_goals decide +kernel

theorem loads_iff_process : Loads (process 0) 0x10000 := by
  refine (loads_iff (process_image (.inl rfl))).mpr fun _ i hi _ _ _ => ?_
  have hnum : phnum (process 0).mem 0x10000 = 1 := by decide +kernel
  have hspread : elfSpread (process 0).mem 0x10000 = 0x1000 := by decide +kernel
  have hend : (phdr (process 0).mem 0x10000 0).vaddr + (phdr (process 0).mem 0x10000 0).filesz = 1 := by decide +kernel
  obtain rfl : i = 0 := by omega
  refine ⟨by decide +kernel, fun x hx => ?_⟩
  have := hx.right.left
  omega

-- The segment is placed at its own address, behind the range of one page, and destroys the file.
theorem not_loads_process : Image (process 0xF000) 0x10000 120 ∧ ¬Loads (process 0xF000) 0x10000 := by
  refine ⟨process_image (.inr rfl), fun h => ?_⟩
  have hkept := (h.kept 0x10000 (by decide)).right
  exact absurd hkept (by decide +kernel)

end Camellia.Elf
