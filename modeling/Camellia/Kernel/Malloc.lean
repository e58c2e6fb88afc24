import Camellia.Kernel.Pcpy
import Camellia.Lib.Bitmap
import Camellia.Lib.Wp
import Camellia.Libk.Path

namespace Camellia

-- The physical memory and the state of the page allocator. The page with index `i` of the bitmap is
-- the one at `pbitmap + i * PAGE_SIZE`. The bitmap is kept apart from the memory, since the pages
-- which hold it are never handed out.
structure Phys where
  mem : Mem
  pbitmap : ℕ
  bitmap : Bitmap
  -- The length of the bitmap in bytes.
  pbitmapLen : ℕ
  pbitmapFirstfree : ℕ := 0
  mallocLast : ℕ := 0
  -- The return addresses on the stack, from the innermost one on.
  debugCaller : ℕ → ℕ := fun _ => 0

abbrev P := StateT Phys (Except Fault)

def passert (c : Prop) [Decidable c] (site : Site) : P Unit :=
  if c then pure () else throw (.assert site)

def bitmapGet (i : ℕ) : P Bool := do
  let s ← get
  passert (i / 8 < s.pbitmapLen) .bitmapRange
  pure (s.bitmap.get i)

def bitmapSet (i : ℕ) (v : Bool) : P Bool := do
  let s ← get
  passert (i / 8 < s.pbitmapLen) .bitmapRange
  set { s with bitmap := s.bitmap.set i v }
  pure (s.bitmap.get i)

-- The conversion of a number to `size_t`.
def toSize (n : Int) : ℕ :=
  (n % 2 ^ 64).toNat

-- The conversion of a pointer to `long`.
def toLong (addr : ℕ) : Int :=
  if addr < 2 ^ 63 then addr else addr - 2 ^ 64

def toindex (s : Phys) (addr : ℕ) : Int :=
  (toLong addr - toLong s.pbitmap).tdiv PAGE_SIZE

-- The loop of `mem_reserve`, with `n` iterations left.
def memReserveLoop (first : ℕ) : (n i : ℕ) → P Unit
  | 0, _     => pure ()
  | n + 1, i => do
    let index := (first + i) % 2 ^ 64
    if (← get).pbitmapLen ≤ index / 8 then
      pure ()
    else
      discard <| bitmapSet index true
      memReserveLoop first n (i + 1)

def memReserve (addr len : ℕ) : P Unit := do
  -- `align to the previous page`
  let off := addr % PAGE_SIZE
  let first := toSize (toindex (← get) (addr - off))
  let len := (len + off) % 2 ^ 64
  memReserveLoop first ((len + (PAGE_SIZE - 1)) / PAGE_SIZE) 0

def memInit (memtop : ℕ) : P Unit := do
  let len := toSize ((toindex (← get) memtop).tdiv 8)
  modify fun s => { s with
    pbitmapLen := len
    bitmap     := fun i => if i < len then 0 else s.bitmap i }
  memReserve (← get).pbitmap len

-- The search for a hole of `pages` free pages, with `fuel` pages left to look at.
def pageAllocLoop (pages : ℕ) : (fuel i streak : ℕ) → P ℕ
  | 0, _, _                => throw (.panic .pageAlloc)
  | fuel + 1, i, streak => do
    if ← bitmapGet i then
      pageAllocLoop pages fuel (i + 1) 0
    else if pages ≤ streak + 1 then
      let streak := streak + 1
      let i := i + 1 - streak
      (List.range streak).forM fun j => discard <| bitmapSet (i + j) true
      modify fun s => { s with pbitmapFirstfree := i + streak - 1 }
      pure ((← get).pbitmap + i * PAGE_SIZE)
    else
      pageAllocLoop pages fuel (i + 1) (streak + 1)

def pageAlloc (pages : ℕ) : P ℕ := do
  let s ← get
  pageAllocLoop pages (s.pbitmapLen * 8 - s.pbitmapFirstfree) s.pbitmapFirstfree 0

def pageZalloc (pages : ℕ) : P ℕ := do
  let p ← pageAlloc pages
  modify fun s => { s with mem := s.mem.fill p 0 (pages * PAGE_SIZE) }
  pure p

def pageFreeBit (i : ℕ) : P Unit := do
  if ¬(← bitmapSet i false) then
    throw (.panic .pageFreeState)

def pageFree (addr pages : ℕ) : P Unit := do
  passert ((← get).pbitmap ≤ addr) .pageFreeRange
  let first := (addr - (← get).pbitmap) / PAGE_SIZE
  (List.range pages).forM fun i => pageFreeBit (first + i)
  modify fun s => { s with pbitmapFirstfree := min s.pbitmapFirstfree first }

-- `sizeof(struct malloc_hdr)`
def MALLOC_HDR : ℕ := 56
def MALLOC_MAGIC : ℕ := 0xA770C666

-- The kernel runs on an identity map of the first 4 GiB.
def IDENTITY_TOP : ℕ := 2 ^ 32

def hdrMagic (m : Mem) (hdr : ℕ) : ℕ := m.load hdr 4
def hdrNext (m : Mem) (hdr : ℕ) : ℕ := m.load (hdr + 8) 8
def hdrPrev (m : Mem) (hdr : ℕ) : ℕ := m.load (hdr + 16) 8

def kmallocSanity (addr : ℕ) : P Unit := do
  passert (addr ≠ 0) .kmallocSanity
  let m := (← get).mem
  let hdr := addr - MALLOC_HDR
  passert (hdrMagic m hdr = MALLOC_MAGIC) .kmallocSanity
  passert (hdrNext m hdr ≠ 0 → hdrPrev m (hdrNext m hdr) = hdr) .kmallocSanity
  passert (hdrPrev m hdr ≠ 0 → hdrNext m (hdrPrev m hdr) = hdr) .kmallocSanity

def storeMem (a n w : ℕ) : P Unit :=
  modify fun s => { s with mem := s.mem.storeNat a n w }

-- `len` after the header was added to it.
def kmallocLen (len : ℕ) : ℕ :=
  (len + MALLOC_HDR) % 2 ^ 64

-- `pages` is an `uint32_t`.
def kmallocPages (len : ℕ) : ℕ :=
  (kmallocLen len / PAGE_SIZE + 1) % 2 ^ 32

-- The part of `kmalloc` which puts the new header in front of the list of all allocations.
def kmallocLink (hdr : ℕ) : P Unit := do
  let last := (← get).mallocLast
  storeMem (hdr + 8) 8 0
  storeMem (hdr + 16) 8 last
  if last ≠ 0 then
    passert (hdrNext (← get).mem last = 0) .kmallocSanity
    storeMem (last + 8) 8 hdr
  modify fun s => { s with mallocLast := hdr }

-- The loop of `kmalloc` over `hdr->stacktrace`.
def kmallocTrace (hdr : ℕ) : P Unit :=
  (List.range 4).forM fun i => do storeMem (hdr + 24 + 8 * i) 8 ((← get).debugCaller i)

def kmalloc (len : ℕ) : P ℕ := do
  let hdr ← pageAlloc (kmallocPages len)
  storeMem hdr 4 MALLOC_MAGIC
  storeMem (hdr + 4) 4 (kmallocPages len)
  kmallocLink hdr
  kmallocTrace hdr
  let addr := hdr + MALLOC_HDR
  -- The default build fills the allocation. A fill beyond the identity map does not return.
  if IDENTITY_TOP < addr + kmallocLen len then
    throw (.panic .kmallocFill)
  modify fun s => { s with mem := s.mem.fill addr 0xCC (kmallocLen len) }
  kmallocSanity addr
  pure addr

-- Copies from the user's address space with the tables `pages` to a buffer of the kernel.
def pcpyFrom (pages : Option ℕ) (dst src len : ℕ) : P ℕ := do
  match pages with
  | none     => pure 0
  | some dir =>
    match virtCpy (← get).mem none dst (some dir) src len with
    | .ok (n, m) =>
      modify fun s => { s with mem := m }
      pure n
    | .error e   => throw e

-- How `_sys_open` and `_sys_mount` bring the path into the kernel: the address of `path_buf` and the
-- number of bytes which `pcpy_from` writes to it, or `none` if the length is refused.
def sysPathBuf (pages : Option ℕ) (path : ℕ) (len : Int) : P (Option (ℕ × ℕ)) := do
  if PATH_MAX < len then
    pure none
  else
    -- The conversion to `size_t`.
    let size := (len % 2 ^ 64).toNat
    let pathBuf ← kmalloc size
    let n ← pcpyFrom pages pathBuf path size
    pure (some (pathBuf, n))

end Camellia
