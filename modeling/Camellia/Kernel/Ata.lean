import Camellia.Fault
import Camellia.Libk.Mem
import Mathlib.Tactic.Ring

namespace Camellia.Ata

-- The ports of a drive which the kernel writes commands to.
inductive Reg
  | FEAT | SCNT | LBAlo | LBAmid | LBAhi | DRV | CMD
  deriving DecidableEq, Repr

-- The drive behind the ports: an array of sectors of 512 bytes, and the transfer that runs.
structure Device where
  bytes : ℕ → UInt8
  regs  : Reg → UInt8
  -- The next byte which the data port transfers, and how many words are left.
  pos   : ℕ
  left  : ℕ
  -- What the data port reads as when there are none.
  idle  : UInt8

namespace Device

def lba (d : Device) : ℕ :=
  (d.regs .LBAlo).toNat + 2 ^ 8 * (d.regs .LBAmid).toNat + 2 ^ 16 * (d.regs .LBAhi).toNat +
    2 ^ 24 * ((d.regs .DRV).toNat % 16)

-- A sector count of 0 stands for 256.
def count (d : Device) : ℕ :=
  if d.regs .SCNT = 0 then 256 else (d.regs .SCNT).toNat

end Device

-- `port_out8`, where READ SECTORS and WRITE SECTORS start a transfer.
def portOut8 (d : Device) (reg : Reg) (v : ℕ) : Device :=
  let d := { d with regs := Function.update d.regs reg (UInt8.ofNat v) }
  if reg = .CMD ∧ (v = 0x20 ∨ v = 0x30) then
    { d with pos := 512 * d.lba, left := 256 * d.count }
  else
    d

def portIn16 (d : Device) : (UInt8 × UInt8) × Device :=
  match d.left with
  | 0     => ((d.idle, d.idle), d)
  | n + 1 => ((d.bytes d.pos, d.bytes (d.pos + 1)), { d with pos := d.pos + 2, left := n })

def portOut16 (d : Device) (w : UInt8 × UInt8) : Device :=
  match d.left with
  | 0     => d
  | n + 1 =>
    { d with
      bytes := Function.update (Function.update d.bytes d.pos w.1) (d.pos + 1) w.2
      pos   := d.pos + 2
      left  := n }

inductive DevType
  | DEV_UNKNOWN | DEV_PATA | DEV_PATAPI
  deriving DecidableEq, Repr

-- An entry of `ata_drives` and the drive itself. It is addressed with 28 bits, and what
-- `ata_identify` stored is its number of sectors.
structure Drive where
  type    : DevType
  sectors : ℕ
  dev     : Device
  lba28   : sectors < 2 ^ 28

-- The number which selects the drive is left out: each drive is modelled with registers of its own.
def ataDriveselect (d : Device) (lba : ℕ) : Device :=
  portOut8 d .DRV (0xE0 ||| (lba / 2 ^ 24 % 16))

def ataSize (drive : Drive) : ℕ :=
  drive.sectors * 512 % 2 ^ 32

-- How many sectors `ata_read` asks for.
def readCount (len skip : ℕ) : ℕ :=
  ((len + 2 ^ 64 - skip + 511) % 2 ^ 64 / 512 + if skip ≠ 0 then 1 else 0) % 2 ^ 32

-- The body of the loop over `k` of `ata_read`.
def storeByte (skip len : ℕ) (buf : Mem) (byte : ℕ) (b : UInt8) : Mem :=
  if byte < skip then
    buf
  else if byte - skip < len then
    buf.store (byte - skip) b
  else
    buf

-- The body of the loop over `j` of `ata_read`.
def readWord (skip len i : ℕ) (s : Mem × Device) (j : ℕ) : Mem × Device :=
  let (w, d) := portIn16 s.2
  let buf := storeByte skip len s.1 ((512 * i + 2 * j) % 2 ^ 32) w.1
  let buf := storeByte skip len buf ((512 * i + 2 * j + 1) % 2 ^ 32) w.2
  (buf, d)

def readSector (skip len : ℕ) (s : Mem × Device) (i : ℕ) : Mem × Device :=
  (List.range 256).foldl (readWord skip len i) s

-- The registers which `ata_read` and `ata_rawwrite` set for a transfer.
def command (d : Device) (lba cnt cmd : ℕ) : Device :=
  let d := portOut8 d .SCNT cnt
  let d := portOut8 d .LBAlo lba
  let d := portOut8 d .LBAmid (lba / 2 ^ 8)
  let d := portOut8 d .LBAhi (lba / 2 ^ 16)
  portOut8 d .CMD cmd

-- The drive is always ready, so `ata_poll` is left out.
def ataRead (drive : Drive) (buf : Mem) (len off : ℕ) : Except Fault (Mem × Drive) :=
  if drive.type ≠ .DEV_PATA then
    .error <| .panic .ataRead
  else
    let lba := off / 512 % 2 ^ 32
    let skip := off % 512
    let cnt := readCount len skip
    let d := ataDriveselect drive.dev lba
    let d := command d lba cnt 0x20
    let s := (List.range cnt).foldl (readSector skip len) (buf, d)
    .ok (s.1, { drive with dev := s.2 })

-- The bodies of the loops of `ata_rawwrite`, where the buffer is at the address `a`.
def writeWord (buf : Mem) (a i : ℕ) (d : Device) (j : ℕ) : Device :=
  let n := (256 * i + j) % 2 ^ 32
  portOut16 d (buf (a + 2 * n), buf (a + 2 * n + 1))

def writeSector (buf : Mem) (a : ℕ) (d : Device) (i : ℕ) : Device :=
  (List.range 256).foldl (writeWord buf a i) d

def ataRawwrite (drive : Drive) (buf : Mem) (a lba cnt : ℕ) : Drive :=
  let d := ataDriveselect drive.dev lba
  let d := portOut8 d .FEAT 0
  let d := command d lba cnt 0x30
  let d := (List.range cnt).foldl (writeSector buf a) d
  { drive with dev := portOut8 d .CMD 0xE7 }

-- `memcpy` between two buffers: `n` bytes from `s` on are copied to `d`.
def copyInto (dest : Mem) (d : ℕ) (src : Mem) (s n : ℕ) : Mem :=
  fun a => if d ≤ a ∧ a < d + n then src (s + (a - d)) else dest a

-- The part of `ata_write` for the bytes in front of the first whole sector. It returns how many bytes
-- these are.
def writeHead (drive : Drive) (sec buf : Mem) (len off : ℕ) : Except Fault (ℕ × Mem × Drive) := do
  if off % 512 ≠ 0 then
    let clen := min len (512 - off % 512)
    let (sec, drive) ← ataRead drive sec 512 (off / 512)
    let sec := copyInto sec (off % 512) buf 0 clen
    return (clen, sec, ataRawwrite drive sec 0 (off / 512 % 2 ^ 32) 1)
  else
    return (0, sec, drive)

-- The part of `ata_write` for the whole sectors.
def writeWhole (drive : Drive) (buf : Mem) (a len off : ℕ) : Drive :=
  if 512 ≤ len then
    ataRawwrite drive buf a (off / 512 % 2 ^ 32) (len / 512 % 2 ^ 32)
  else
    drive

-- The part of `ata_write` for the bytes behind the last whole sector.
def writeTail (drive : Drive) (sec buf : Mem) (a len off : ℕ) : Except Fault Drive := do
  if len % 512 ≠ 0 then
    let a := a + len / 512 * 512
    let off := off + len / 512 * 512
    let len := len % 512
    let (sec, drive) ← ataRead drive sec 512 (off / 512)
    let sec := copyInto sec 0 buf a len
    return ataRawwrite drive sec 0 (off / 512 % 2 ^ 32) 1
  else
    return drive

-- The buffer `sec` on the stack is not initialised. The buffer `buf` starts at address 0.
def ataWrite (drive : Drive) (sec buf : Mem) (len off : ℕ) : Except Fault Drive := do
  if drive.type ≠ .DEV_PATA then
    throw <| .panic .ataWrite
  let (clen, sec, drive) ← writeHead drive sec buf len off
  let off := off + clen
  let len := len - clen
  let drive := writeWhole drive buf clen len off
  writeTail drive sec buf clen len off

-- The number of sectors a drive transfers if `cnt` is written to its count register.
def sectorCount (cnt : ℕ) : ℕ :=
  if cnt % 256 = 0 then 256 else cnt % 256

section Transfer

variable {d d₀ : Device} {lba cnt cmd n i j skip len off a k : ℕ} {buf buf₀ : Mem} {reg : Reg}

-- The head of the registers is free for the bits 24 to 27 of the sector number.
theorem driveselect_bits (h : k < 16) : (0xE0 ||| k) % 256 % 16 = k := by
  revert k
  decide

theorem driveselect_regs : ((ataDriveselect d lba).regs .DRV).toNat % 16 = lba / 2 ^ 24 % 16 := by
  simp only [ataDriveselect, portOut8, reduceCtorEq, false_and, if_false, Function.update_self]
  exact driveselect_bits (Nat.mod_lt _ (by simp))

-- A transfer over the sectors from `lba` on is set up.
structure Ready (d₀ d : Device) (lba cnt : ℕ) : Prop where
  bytes : d.bytes = d₀.bytes
  pos   : d.pos = 512 * lba
  left  : d.left = 256 * sectorCount cnt

theorem count_eq (h : d.regs .SCNT = UInt8.ofNat cnt) : d.count = sectorCount cnt := by
  have h₀ : UInt8.ofNat cnt = 0 ↔ cnt % 256 = 0 := by
    rw [← UInt8.toNat_inj]
    simp
  simp [Device.count, h, h₀, sectorCount]

theorem command_ready (cnt cmd : ℕ) (hc : cmd = 0x20 ∨ cmd = 0x30) (hl : lba < 2 ^ 28)
    (hd : (d.regs .DRV).toNat % 16 = lba / 2 ^ 24 % 16) : Ready d (command d lba cnt cmd) lba cnt := by
  simp only [command, portOut8, reduceCtorEq, false_and, if_false, true_and, hc, if_true]
  refine ⟨rfl, ?_, ?_⟩
  · simp only [Device.lba, ne_eq, reduceCtorEq, not_false_eq_true, Function.update_of_ne,
      Function.update_self, UInt8.toNat_ofNat', hd]
    omega
  · refine congrArg (256 * ·) (count_eq ?_)
    simp

-- What the kernel has fetched from the drive after `n` words of a transfer.
structure Fetched (d : Device) (buf : Mem) (skip len n : ℕ) (s : Mem × Device) : Prop where
  bytes : s.2.bytes = d.bytes
  pos   : s.2.pos = d.pos + 2 * n
  left  : s.2.left + n = d.left
  buf   : ∀ x, s.1 x = if x < len ∧ x + skip < 2 * n then d.bytes (d.pos + skip + x) else buf x

variable {s : Mem × Device} {b : UInt8}

theorem Fetched.start (d : Device) (buf : Mem) (skip len : ℕ) : Fetched d buf skip len 0 (buf, d) :=
  ⟨rfl, rfl, rfl, by simp⟩

theorem storeByte_apply (x : ℕ) :
    storeByte skip len buf n b x = if x < len ∧ x + skip = n then b else buf x := by
  simp only [storeByte]
  split_ifs with h₁ h₂ h₃ h₃
  all_goals first
    | rfl
    | omega
    | (rw [Mem.store_apply]; split_ifs <;> first | rfl | omega)

theorem Fetched.word (h : Fetched d buf skip len (256 * i + j) s) (hl : 256 * i + j < d.left)
    (hw : 256 * i + j < 2 ^ 31) : Fetched d buf skip len (256 * i + (j + 1)) (readWord skip len i s j) := by
  have ⟨m, hm⟩ : ∃ m, s.2.left = m + 1 := ⟨s.2.left - 1, by have := h.left; omega⟩
  have hp : portIn16 s.2 = ((s.2.bytes s.2.pos, s.2.bytes (s.2.pos + 1)),
      { s.2 with pos := s.2.pos + 2, left := m }) := by simp only [portIn16, hm]
  have h₀ : (512 * i + 2 * j) % 2 ^ 32 = 2 * (256 * i + j) := by omega
  have h₁ : (512 * i + 2 * j + 1) % 2 ^ 32 = 2 * (256 * i + j) + 1 := by omega
  simp only [readWord, hp, h₀, h₁]
  refine ⟨h.bytes, ?_, ?_, fun x => ?_⟩
  · have := h.pos
    simp only
    omega
  · have := h.left
    simp only
    omega
  · simp only [storeByte_apply, h.bytes, h.pos, h.buf]
    split_ifs <;> first | rfl | omega | (congr 1; omega)

theorem Fetched.words (h : Fetched d buf skip len (256 * i) s) (hk : k ≤ 256)
    (hl : 256 * i + k ≤ d.left) (hw : 256 * i + k ≤ 2 ^ 31) :
    Fetched d buf skip len (256 * i + k) ((List.range k).foldl (readWord skip len i) s) := by
  induction k
  case zero => simpa using h
  case succ k hi =>
    rw [List.range_succ, List.foldl_append]
    exact (hi (by omega) (by omega) (by omega)).word (by omega) (by omega)

theorem Fetched.sectors (h : Fetched d buf skip len 0 s) (hl : 256 * n ≤ d.left) (hw : n ≤ 2 ^ 23) :
    Fetched d buf skip len (256 * n) ((List.range n).foldl (readSector skip len) s) := by
  induction n
  case zero => simpa using h
  case succ n hi =>
    rw [Nat.mul_succ] at hl ⊢
    rw [List.range_succ, List.foldl_append, List.foldl_cons, List.foldl_nil, readSector]
    exact (hi (by omega) (by omega)).words le_rfl hl (by omega)

-- `ata_read` fetches `readCount` sectors, and leaves the part of the buffer which they do not cover
-- as it was.
theorem ataRead_spec (drive : Drive) (buf : Mem) (len off : ℕ) (ht : drive.type = .DEV_PATA) (ho : off / 512 < 2 ^ 28)
    (hc : readCount len (off % 512) ≤ 256) :
    ∃ buf' d', ataRead drive buf len off = .ok (buf', { drive with dev := d' }) ∧
      d'.bytes = drive.dev.bytes ∧
      ∀ x, buf' x = if x < len ∧ x + off % 512 < 512 * readCount len (off % 512)
        then drive.dev.bytes (off + x) else buf x := by
  have hlba : off / 512 % 2 ^ 32 = off / 512 := by omega
  have hr := command_ready (readCount len (off % 512)) 0x20 (.inl rfl) ho
    (driveselect_regs (d := drive.dev))
  have hs : readCount len (off % 512) ≤ sectorCount (readCount len (off % 512)) := by
    unfold sectorCount
    split <;> omega
  have hw := (Fetched.start _ buf (off % 512) len).sectors
    (n := readCount len (off % 512)) (by rw [hr.left]; omega) (by omega)
  rw [ataRead, if_neg (not_not.mpr ht)]
  rw [hlba]
  refine ⟨_, _, rfl, hw.bytes.trans hr.bytes, fun x => ?_⟩
  rw [hw.buf, hr.bytes, hr.pos, show (ataDriveselect drive.dev (off / 512)).bytes = drive.dev.bytes from rfl]
  split_ifs <;> first | rfl | omega | (congr 1; omega)

-- What the kernel has written to the drive after `n` words of a transfer. A drive ignores the words
-- which it did not ask for.
structure Stored (d : Device) (buf : Mem) (a n : ℕ) (d' : Device) : Prop where
  bytes : ∀ x, d'.bytes x = if d.pos ≤ x ∧ x < d.pos + 2 * min n d.left
    then buf (a + (x - d.pos)) else d.bytes x
  pos   : d'.pos = d.pos + 2 * min n d.left
  left  : d'.left = d.left - n

variable {d' : Device}

theorem Stored.start (d : Device) (buf : Mem) (a : ℕ) : Stored d buf a 0 d :=
  ⟨fun x => by rw [if_neg (by omega)], by simp, rfl⟩

theorem Stored.word (h : Stored d buf a (256 * i + j) d') (hl : d.left ≤ 2 ^ 31) :
    Stored d buf a (256 * i + (j + 1)) (writeWord buf a i d' j) := by
  have hleft := h.left
  generalize hn : 256 * i + j = n at h hleft
  rw [← Nat.add_assoc, hn, writeWord, hn]
  cases hm : d'.left
  case zero =>
    have hs : portOut16 d' (buf (a + 2 * (n % 2 ^ 32)), buf (a + 2 * (n % 2 ^ 32) + 1)) = d' := by
      simp only [portOut16, hm]
    have hmin : min (n + 1) d.left = min n d.left := by omega
    simp only [hs]
    exact ⟨hmin ▸ h.bytes, hmin ▸ h.pos, by omega⟩
  case succ m =>
    have hmod : n % 2 ^ 32 = n := Nat.mod_eq_of_lt (by omega)
    have hp := h.pos
    have h₀ : min n d.left = n := by omega
    have h₁ : min (n + 1) d.left = n + 1 := by omega
    rw [h₀] at hp
    simp only [portOut16, hm, hmod]
    refine ⟨fun x => ?_, by simp only; omega, by simp only; omega⟩
    simp only [h₁, Function.update_apply, hp, h.bytes, h₀]
    split_ifs <;> first | rfl | omega | (congr 1; omega)

theorem Stored.words (h : Stored d buf a (256 * i) d') (hl : d.left ≤ 2 ^ 31) :
    Stored d buf a (256 * i + k) ((List.range k).foldl (writeWord buf a i) d') := by
  induction k
  case zero => simpa using h
  case succ k hi =>
    rw [List.range_succ, List.foldl_append]
    exact hi.word hl

theorem Stored.sectors (h : Stored d buf a 0 d') (hl : d.left ≤ 2 ^ 31) :
    Stored d buf a (256 * n) ((List.range n).foldl (writeSector buf a) d') := by
  induction n
  case zero => simpa using h
  case succ n hi =>
    rw [List.range_succ, List.foldl_append, List.foldl_cons, List.foldl_nil, writeSector, Nat.mul_succ]
    exact hi.words hl

-- `ata_rawwrite` writes as many sectors as the count register holds.
theorem ataRawwrite_spec (drive : Drive) (buf : Mem) (a lba cnt : ℕ) (hl : lba < 2 ^ 28) (hc : 0 < cnt) :
    ∃ d', ataRawwrite drive buf a lba cnt = { drive with dev := d' } ∧
      ∀ x, d'.bytes x = if 512 * lba ≤ x ∧ x < 512 * (lba + sectorCount cnt)
        then buf (a + (x - 512 * lba)) else drive.dev.bytes x := by
  have hr := command_ready (d := portOut8 (ataDriveselect drive.dev lba) .FEAT 0) cnt 0x30 (.inr rfl) hl
    (driveselect_regs (d := drive.dev))
  have hs : sectorCount cnt ≤ cnt ∧ sectorCount cnt ≤ 256 := by
    unfold sectorCount
    split <;> omega
  have hw := (Stored.start _ buf a).sectors (n := cnt) (by rw [hr.left]; omega)
  refine ⟨_, rfl, fun x => ?_⟩
  have hb := hw.bytes x
  have hmin : 2 * min (256 * cnt) (256 * sectorCount cnt) = 512 * sectorCount cnt := by omega
  rw [hr.left, hr.pos, hr.bytes, hmin, ← Nat.mul_add] at hb
  exact hb

end Transfer

-- A drive with two sectors, the first one full of ones and the second one full of twos.
def twoSectors : Drive where
  type    := .DEV_PATA
  sectors := 2
  dev     := {
    bytes := fun p => if p < 512 then 1 else 2
    regs  := fun _ => 0
    pos   := 0
    left  := 0
    idle  := 0xFF }
  lba28   := by decide

end Camellia.Ata
