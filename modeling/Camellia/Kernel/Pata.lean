import Camellia.Kernel.Ata
import Camellia.Kernel.State
import Camellia.Libk.Fsutil

namespace Camellia.Ata

def ENOENT : Int := 8

-- What the ids of the opened files stand for: `root_id`, or the number of a drive.
inductive FileId
  | root
  | drive (n : Fin 4)
  deriving DecidableEq, Repr

-- A request to the driver. The caller may have gone away.
structure PataReq where
  op       : VfsOp
  id       : FileId
  caller   : Bool
  offset   : Int
  -- The path of an open request, which the kernel owns.
  path     : List UInt8
  outLen   : ℕ
  -- The length of the input, and the part of it from its start on which `pcpy_from` can read.
  inLen    : ℕ
  readable : List UInt8

-- What a request returns, and what is copied to the buffer of the caller.
structure Reply where
  ret : Int
  out : List UInt8

abbrev Drives := Fin 4 → Drive

-- The id of an opened file, as the number which the request returns.
def FileId.ret : FileId → Int
  | root    => 100
  | drive n => n

-- `reqpathcmp` with each of the files of the driver.
def openPath (path : List UInt8) : Option FileId :=
  if path = [] then some .root
  else if path = [48] then some (.drive 0)
  else if path = [49] then some (.drive 1)
  else if path = [50] then some (.drive 2)
  else if path = [51] then some (.drive 3)
  else none

def reqReadcopy (req : PataReq) (buf : List UInt8) : Except Fault Reply :=
  if !req.caller then
    .ok ⟨-1, []⟩
  else do
    let (offset, len) ← fsNormslice req.offset req.outLen buf.length false
    return ⟨len, (buf.drop offset).take len⟩

-- `ata_available`
def ataAvailable (drive : Drive) : Prop :=
  drive.type ≠ .DEV_UNKNOWN

instance : DecidablePred ataAvailable :=
  fun drive => inferInstanceAs <| Decidable (drive.type ≠ .DEV_UNKNOWN)

-- The list of the drives, with a zero behind each.
def driveList (drives : Drives) : List UInt8 :=
  ((List.finRange 4).filter (ataAvailable <| drives ·)).flatMap fun i => [UInt8.ofNat (48 + i), 0]

def Drives.set (drives : Drives) (n : Fin 4) (drive : Drive) : Drives :=
  Function.update drives n drive

-- The buffers `wbuf` and `sec` on the stack are not initialised.
def accept (drives : Drives) (wbuf sec : Mem) (req : PataReq) : Except Fault (Reply × Drives) :=
  match req.op, req.id with
  | .OPEN, _ => .ok (⟨((openPath req.path).map FileId.ret).getD (-ENOENT), []⟩, drives)
  | .READ, .root => do
    let reply ← reqReadcopy req (driveList drives)
    return (reply, drives)
  | .READ, .drive n => do
    let (offset, len) ← fsNormslice req.offset req.outLen (ataSize (drives n)) false
    let len := min len 4096
    let (wbuf, drive) ← ataRead (drives n) wbuf len offset
    return (⟨len, wbuf.slice 0 len⟩, drives.set n drive)
  | .WRITE, .root => .ok (⟨-EACCES, []⟩, drives)
  | .WRITE, .drive n => do
    let (offset, len) ← fsNormslice req.offset req.inLen (ataSize (drives n)) false
    let len := min len 4096
    if len ≠ 0 then
      let bytes := req.readable.take len
      let wbuf := copyInto wbuf 0 (.ofList bytes) 0 bytes.length
      let drive ← ataWrite (drives n) sec wbuf bytes.length offset
      return (⟨bytes.length, []⟩, drives.set n drive)
    else
      return (⟨len, []⟩, drives)
  | .GETSIZE, .root => .error <| .panic .pataGetsize
  | .GETSIZE, .drive n => .ok (⟨ataSize (drives n), []⟩, drives)
  | _, _ => .ok (⟨-ENOSYS, []⟩, drives)

-- The size of a drive.
def Drive.size (drive : Drive) : ℕ :=
  512 * drive.sectors

-- How many bytes a read should return.
def readLen (size : ℕ) (offset : Int) (len : ℕ) : ℕ :=
  min (min len (size - sliceStart size offset)) 4096

-- A read returns the bytes of the disk, whatever the buffer on the stack held before.
def ReadsDisk (drives : Drives) (n : Fin 4) (req : PataReq) : Prop :=
  ∀ wbuf sec, ∃ reply drives', accept drives wbuf sec req = .ok (reply, drives') ∧
    reply.ret = readLen (drives n).size req.offset req.outLen ∧
    reply.out = (List.range (readLen (drives n).size req.offset req.outLen)).map fun j =>
      (drives n).dev.bytes (sliceStart (drives n).size req.offset + j)

-- The condition under which a read of `len` bytes at `offset` returns what it should: the size of the
-- drive as the kernel computes it, modulo 2 ^ 32, gives the same bytes, and the sectors which are fetched
-- reach to the end of what is read. They may only be too few if the read starts behind the middle of a
-- sector.
structure ReadSafe (drive : Drive) (offset : Int) (len : ℕ) : Prop where
  count : readLen (ataSize drive) offset len = readLen drive.size offset len
  start : ∀ j < readLen drive.size offset len,
            drive.dev.bytes (sliceStart (ataSize drive) offset + j) =
              drive.dev.bytes (sliceStart drive.size offset + j)
  cover : readLen drive.size offset len ≠ 0 →
            2 * (sliceStart (ataSize drive) offset % 512) +
              (readLen drive.size offset len + 511 - sliceStart (ataSize drive) offset % 512) % 512 < 1024

section Read

variable {drive : Drive} {drives : Drives} {n : Fin 4} {req : PataReq} {skip len off : ℕ} {wbuf sec : Mem}

theorem readCount_eq (hs : skip < 512) (hl : len ≤ 4096) :
    readCount len skip = (len + 511 - skip) / 512 + if skip ≠ 0 then 1 else 0 := by
  unfold readCount
  split_ifs <;> omega

-- The sectors cover what is read.
theorem readCount_covers (hs : skip < 512) (hl : len ≤ 4096) :
    len + skip ≤ 512 * readCount len skip ↔ len = 0 ∧ skip = 0 ∨ 2 * skip + (len + 511 - skip) % 512 < 1024 := by
  rw [readCount_eq hs hl]
  split_ifs <;> omega

theorem ataSize_lt : ataSize drive < 2 ^ 32 :=
  Nat.mod_lt _ (by simp)

theorem accept_read (drives : Drives) (n : Fin 4) (wbuf sec : Mem) (ht : (drives n).type = .DEV_PATA)
    (ho : req.op = .READ) (hi : req.id = .drive n) :
    ∃ (wbuf' : Mem) (drives' : Drives), accept drives wbuf sec req =
        .ok (⟨readLen (ataSize (drives n)) req.offset req.outLen,
          wbuf'.slice 0 (readLen (ataSize (drives n)) req.offset req.outLen)⟩, drives') ∧
      ∀ x < readLen (ataSize (drives n)) req.offset req.outLen,
        wbuf' x = if x + sliceStart (ataSize (drives n)) req.offset % 512 <
            512 * readCount (readLen (ataSize (drives n)) req.offset req.outLen)
              (sliceStart (ataSize (drives n)) req.offset % 512)
          then (drives n).dev.bytes (sliceStart (ataSize (drives n)) req.offset + x) else wbuf x := by
  have hsize := @ataSize_lt (drives n)
  have hstart := sliceStart_le (ataSize (drives n)) req.offset
  have hn := fsNormslice_slice req.offset req.outLen
    (hsize.trans (by decide) : ataSize (drives n) < 2 ^ 63)
  have hle : readLen (ataSize (drives n)) req.offset req.outLen ≤ 4096 := Nat.min_le_right _ _
  have hc := readCount_eq (Nat.mod_lt (sliceStart (ataSize (drives n)) req.offset) (by simp)) hle
  have ⟨wbuf', d', hr, _, hb⟩ := ataRead_spec (drives n) wbuf
    (readLen (ataSize (drives n)) req.offset req.outLen) (sliceStart (ataSize (drives n)) req.offset)
    ht (by omega) (by split_ifs at hc <;> omega)
  refine ⟨wbuf', drives.set n { drives n with dev := d' }, ?_, fun x hx => ?_⟩
  · simp only [accept, ho, hi, hn, bind, Except.bind]
    rw [readLen] at hr ⊢
    simp only [hr, pure, Except.pure]
  · rw [hb]
    simp only [hx, true_and]

-- A read returns the bytes of the disk if and only if it is safe.
theorem readsDisk_iff (ht : (drives n).type = .DEV_PATA) (ho : req.op = .READ) (hi : req.id = .drive n) :
    ReadsDisk drives n req ↔ ReadSafe (drives n) req.offset req.outLen := by
  have hskip : sliceStart (ataSize (drives n)) req.offset % 512 < 512 := Nat.mod_lt _ (by simp)
  have hle : readLen (drives n).size req.offset req.outLen ≤ 4096 := Nat.min_le_right _ _
  have hcov := readCount_covers hskip hle
  constructor
  · intro h
    -- A buffer which is wrong everywhere shows which bytes were not fetched.
    let junk : Mem := fun j => (drives n).dev.bytes (sliceStart (drives n).size req.offset + j) + 1
    obtain ⟨reply, drives', ha, hret, hout⟩ := h junk junk
    obtain ⟨wbuf', drives₁, ha₁, hb⟩ := accept_read drives n junk junk ht ho hi
    simp only [ha, Except.ok.injEq, Prod.mk.injEq] at ha₁
    obtain ⟨rfl, rfl⟩ := ha₁
    have hcount : readLen (ataSize (drives n)) req.offset req.outLen =
        readLen (drives n).size req.offset req.outLen := Nat.cast_injective hret
    simp only [hcount] at hb hout
    simp only [Mem.slice, Nat.zero_add, List.map_inj_left, List.mem_range] at hout
    have hall : readLen (drives n).size req.offset req.outLen ≠ 0 →
        readLen (drives n).size req.offset req.outLen + sliceStart (ataSize (drives n)) req.offset % 512 ≤
          512 * readCount (readLen (drives n).size req.offset req.outLen)
            (sliceStart (ataSize (drives n)) req.offset % 512) := by
      intro hne
      by_contra hlt
      have hj : readLen (drives n).size req.offset req.outLen - 1 <
          readLen (drives n).size req.offset req.outLen := by omega
      have := (hb _ hj).symm.trans (hout _ hj)
      rw [if_neg (by omega)] at this
      simp [junk] at this
    refine ⟨hcount, fun j hj => ?_, fun hne => ?_⟩
    · have := hall (by omega)
      rw [← hout j hj, hb j hj, if_pos (by omega)]
    · have := hcov.mp (hall hne)
      omega
  · intro h wbuf sec
    obtain ⟨wbuf', drives', ha, hb⟩ := accept_read drives n wbuf sec ht ho hi
    refine ⟨_, drives', ha, by rw [h.count], ?_⟩
    simp only [h.count] at hb ⊢
    simp only [Mem.slice, Nat.zero_add, List.map_inj_left, List.mem_range]
    intro j hj
    have hc := hcov.mpr (.inr <| h.cover (by omega))
    rw [hb j hj, if_pos (by omega), h.start j hj]

-- Small drives are read safely up to the middle of each sector.
theorem readSafe_of_small {offset : Int} (hs : drive.sectors < 2 ^ 23)
    (h : sliceStart drive.size offset % 512 ≤ 256) : ReadSafe drive offset len := by
  have hsize : ataSize drive = drive.size := by
    unfold ataSize Drive.size
    omega
  exact { count := by rw [hsize], start := fun _ _ => by rw [hsize], cover := fun _ => by rw [hsize]; omega }

end Read

-- A read of two bytes from the file of the first drive.
def readTwo (offset : Int) : PataReq where
  op       := .READ
  id       := .drive 0
  caller   := true
  offset   := offset
  path     := []
  outLen   := 2
  inLen    := 0
  readable := []

theorem readsDisk_iff_start : ReadsDisk (fun _ => twoSectors) 0 (readTwo 0) :=
  (readsDisk_iff rfl rfl rfl).mpr <| readSafe_of_small (by decide) (by decide)

-- The second byte comes from the stack if the read crosses a sector.
theorem readTwo_leaks : ¬ReadsDisk (fun _ => twoSectors) 0 (readTwo 511) := by
  intro h
  have ⟨reply, drives', ha, _, hout⟩ := h (fun _ => 0) (fun _ => 0)
  have ho : (readTwo 511).op = .READ := rfl
  have ⟨wbuf', drives₁, ha₁, hb⟩ :=
    accept_read (fun _ => twoSectors) 0 (fun _ => 0) (fun _ => 0) rfl ho rfl
  obtain ⟨rfl, rfl⟩ := Prod.mk.inj (Except.ok.inj (ha.symm.trans ha₁))
  have hs : ataSize twoSectors = 1024 := rfl
  have hstart : sliceStart 1024 511 = 511 := by simp [sliceStart]
  have hlen : readLen 1024 511 2 = 2 := by simp [readLen, hstart]
  have h₁ : wbuf' 1 = 0 := by
    have := hb 1 (by simp only [hs, readTwo, hlen]; decide)
    simpa [hs, readTwo, hlen, hstart, readCount] using this
  have h₂ : [wbuf' 0, wbuf' 1] = [1, 2] := hout
  simp [h₁] at h₂

end Camellia.Ata
