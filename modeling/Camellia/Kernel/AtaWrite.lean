import Camellia.Kernel.Ata

namespace Camellia.Ata

-- How many bytes of a write lie in front of its first whole sector.
def headLen (len off : ℕ) : ℕ :=
  if off % 512 ≠ 0 then min len (512 - off % 512) else 0

-- The bytes which should be on the disk when those in front of `t` have been written.
def patched (old : ℕ → UInt8) (buf : Mem) (off t : ℕ) : ℕ → UInt8 :=
  fun p => if off ≤ p ∧ p < t then buf (p - off) else old p

-- What `ata_write` leaves on the disk, given what was there before: after its head, ...
def headBytes (old : ℕ → UInt8) (buf : Mem) (len off : ℕ) : ℕ → UInt8 := fun p =>
  if off % 512 ≠ 0 ∧ p / 512 = off / 512 then
    if off ≤ p ∧ p < off + len then buf (p - off) else old (off / 512 + p % 512)
  else
    old p

-- ... after its whole sectors ...
def wholeBytes (old : ℕ → UInt8) (buf : Mem) (len off : ℕ) : ℕ → UInt8 := fun p =>
  if 512 ≤ len - headLen len off ∧ off + headLen len off ≤ p ∧
      p < off + headLen len off + 512 * sectorCount ((len - headLen len off) / 512) then
    buf (p - off)
  else
    headBytes old buf len off p

-- ... and after its tail.
def tailBytes (old : ℕ → UInt8) (buf : Mem) (len off : ℕ) : ℕ → UInt8 := fun p =>
  if (len - headLen len off) % 512 ≠ 0 ∧ p / 512 = (off + len) / 512 then
    if p < off + len then buf (p - off) else wholeBytes old buf len off ((off + len) / 512 + p % 512)
  else
    wholeBytes old buf len off p

-- Where the last, incomplete sector of a write starts.
def tailStart (len off : ℕ) : ℕ :=
  off + headLen len off + (len - headLen len off) / 512 * 512

section Write

variable {drive : Drive} {sec buf : Mem} {len off p a : ℕ}

theorem readCount_sector (h : off < 512) : off + 512 ≤ 512 * readCount 512 off ∧ readCount 512 off ≤ 2 := by
  unfold readCount
  split_ifs <;> omega

theorem ataRead_sector (sec : Mem) (ht : drive.type = .DEV_PATA) (ho : off / 512 < 2 ^ 28) :
    ∃ sec' d', ataRead drive sec 512 off = .ok (sec', { drive with dev := d' }) ∧
      d'.bytes = drive.dev.bytes ∧ ∀ x < 512, sec' x = drive.dev.bytes (off + x) := by
  have ⟨hc, hle⟩ := readCount_sector (Nat.mod_lt off (by simp : 512 > 0))
  have ⟨sec', d', hr, hd, hs⟩ := ataRead_spec drive sec 512 off ht ho (hle.trans (by simp))
  exact ⟨sec', d', hr, hd, fun x hx => by rw [hs, if_pos (by omega)]⟩

-- Reads a sector as the code does, replaces `n` bytes of it from `k` on and writes it back.
theorem modify_sector (sec buf : Mem) (off k n s lba : ℕ) (ht : drive.type = .DEV_PATA) (ho : off / 512 < 2 ^ 28)
    (hl : lba < 2 ^ 28) : ∃ sec' d₁ d', ataRead drive sec 512 off = .ok (sec', { drive with dev := d₁ }) ∧
      ataRawwrite { drive with dev := d₁ } (copyInto sec' k buf s n) 0 lba 1 = { drive with dev := d' } ∧
      ∀ p, d'.bytes p = if p / 512 = lba
        then if k ≤ p % 512 ∧ p % 512 < k + n then buf (s + (p % 512 - k)) else drive.dev.bytes (off + p % 512)
        else drive.dev.bytes p := by
  have ⟨sec', d₁, hr, hd, hs⟩ := ataRead_sector sec ht ho
  have ⟨d', hw, hb⟩ := ataRawwrite_spec { drive with dev := d₁ } (copyInto sec' k buf s n) 0 lba 1 hl
    Nat.one_pos
  refine ⟨sec', d₁, d', hr, hw, fun p => ?_⟩
  have h₁ : sectorCount 1 = 1 := rfl
  rw [hb, h₁]
  by_cases hp : p / 512 = lba
  case pos =>
    have hx : p - 512 * lba = p % 512 := by omega
    rw [if_pos (by omega), if_pos hp, Nat.zero_add, hx]
    simp only [copyInto]
    split_ifs
    · rfl
    · exact hs _ (Nat.mod_lt _ (by simp))
  case neg =>
    rw [if_neg (by omega), if_neg hp, hd]

theorem writeHead_spec (sec buf : Mem) (len off : ℕ) (ht : drive.type = .DEV_PATA) (ho : off / 512 < 2 ^ 28) :
    ∃ sec' d', writeHead drive sec buf len off = .ok (headLen len off, sec', { drive with dev := d' }) ∧
      ∀ p, d'.bytes p = headBytes drive.dev.bytes buf len off p := by
  unfold headBytes
  by_cases h : off % 512 ≠ 0
  case neg =>
    exact ⟨sec, drive.dev, by simp [writeHead, headLen, h, pure, Except.pure], fun p => by simp [h]⟩
  case pos =>
    have hm : off / 512 % 2 ^ 32 = off / 512 := Nat.mod_eq_of_lt (by omega)
    have ⟨sec', d₁, d', hr, hw, hb⟩ := modify_sector sec buf (off / 512) (off % 512)
      (min len (512 - off % 512)) 0 (off / 512) ht (by omega) ho
    refine ⟨copyInto sec' (off % 512) buf 0 (min len (512 - off % 512)), d', ?_, fun p => ?_⟩
    · rw [writeHead, if_pos h, headLen, if_pos h, hr]
      simp only [bind, Except.bind, pure, Except.pure, hm, hw]
    · rw [hb]
      by_cases hp : p / 512 = off / 512
      case neg => simp [hp]
      case pos =>
        simp only [hp, h, ne_eq, not_false_eq_true, and_self, if_true, Nat.zero_add]
        have hi : (off % 512 ≤ p % 512 ∧ p % 512 < off % 512 + min len (512 - off % 512)) ↔
            off ≤ p ∧ p < off + len := by omega
        simp only [hi]
        split_ifs <;> first | rfl | (congr 1; omega)

-- The buffer of `ata_write` starts at the byte `off` of the disk.
theorem writeWhole_spec (drive : Drive) (buf : Mem) (len off a : ℕ) (hl : off + len ≤ 2 ^ 37) (h : 512 ≤ len → off % 512 = 0) :
    ∃ d', writeWhole drive buf a len off = { drive with dev := d' } ∧
      ∀ p, d'.bytes p = if 512 ≤ len ∧ off ≤ p ∧ p < off + 512 * sectorCount (len / 512)
        then buf (a + (p - off)) else drive.dev.bytes p := by
  by_cases hw : 512 ≤ len
  case neg => exact ⟨drive.dev, by simp [writeWhole, hw], fun p => by simp [hw]⟩
  case pos =>
    have ho := h hw
    have hm : off / 512 % 2 ^ 32 = off / 512 := Nat.mod_eq_of_lt (by omega)
    have hn : len / 512 % 2 ^ 32 = len / 512 := Nat.mod_eq_of_lt (by omega)
    have ⟨d', hw', hb⟩ := ataRawwrite_spec drive buf a (off / 512) (len / 512) (by omega) (by omega)
    refine ⟨d', by rw [writeWhole, if_pos hw, hm, hn, hw'], fun p => ?_⟩
    have hs : 512 * (off / 512) = off := by omega
    rw [hb, Nat.mul_add, hs]
    simp [hw]

theorem writeTail_spec (drive : Drive) (sec buf : Mem) (len off a : ℕ) (ht : drive.type = .DEV_PATA) (hl : off + len ≤ 2 ^ 37)
    (h : len % 512 ≠ 0 → off % 512 = 0) :
    ∃ d', writeTail drive sec buf a len off = .ok { drive with dev := d' } ∧
      ∀ p, d'.bytes p = if len % 512 ≠ 0 ∧ p / 512 = (off + len) / 512
        then if p < off + len then buf (a + (p - off))
          else drive.dev.bytes ((off + len) / 512 + p % 512)
        else drive.dev.bytes p := by
  by_cases hw : len % 512 ≠ 0
  case neg => exact ⟨drive.dev, by simp [writeTail, hw, pure, Except.pure], fun p => by simp [hw]⟩
  case pos =>
    have ho := h hw
    have hq : (off + len / 512 * 512) / 512 = (off + len) / 512 := by omega
    have hm : (off + len) / 512 % 2 ^ 32 = (off + len) / 512 := Nat.mod_eq_of_lt (by omega)
    have ⟨sec', d₁, d', hr, hb, hp⟩ := modify_sector sec buf ((off + len) / 512) 0 (len % 512)
      (a + len / 512 * 512) ((off + len) / 512) ht (by omega) (by omega)
    refine ⟨d', ?_, fun p => ?_⟩
    · rw [writeTail, if_pos hw]
      dsimp only
      rw [hq, hr, hm]
      simp only [bind, Except.bind, pure, Except.pure, hb]
    · rw [hp]
      by_cases hp : p / 512 = (off + len) / 512
      case neg => simp [hp]
      case pos =>
        simp only [hp, hw, ne_eq, not_false_eq_true, and_self, if_true, Nat.zero_le, true_and, Nat.zero_add]
        have hi : p % 512 < len % 512 ↔ p < off + len := by omega
        simp only [hi]
        split_ifs <;> first | rfl | (congr 1; omega)

theorem headLen_le : headLen len off ≤ len := by
  unfold headLen
  split <;> omega

theorem headLen_aligned (h : headLen len off < len) : (off + headLen len off) % 512 = 0 := by
  unfold headLen at h ⊢
  split_ifs at h ⊢ <;> omega

theorem ataWrite_spec (drive : Drive) (sec buf : Mem) (len off : ℕ) (ht : drive.type = .DEV_PATA) (hl : off + len ≤ 512 * drive.sectors) :
    ∃ d', ataWrite drive sec buf len off = .ok { drive with dev := d' } ∧
      ∀ p, d'.bytes p = tailBytes drive.dev.bytes buf len off p := by
  have hs := drive.lba28
  have hle := @headLen_le len off
  have hal := @headLen_aligned len off
  have hadd : off + headLen len off + (len - headLen len off) = off + len := by omega
  have ho : off / 512 < 2 ^ 28 := by omega
  have ⟨sec', d₁, h₁, hb₁⟩ := writeHead_spec sec buf len off ht ho
  have ⟨d₂, h₂, hb₂⟩ := writeWhole_spec { drive with dev := d₁ } buf (len - headLen len off)
    (off + headLen len off) (headLen len off) (by omega)
    (fun h => hal (by omega))
  have ⟨d₃, h₃, hb₃⟩ := writeTail_spec { drive with dev := d₂ } sec' buf (len - headLen len off)
    (off + headLen len off) (headLen len off) ht (by omega)
    (fun h => hal (by omega))
  have hw : ∀ p, d₂.bytes p = wholeBytes drive.dev.bytes buf len off p := fun p => by
    rw [hb₂, wholeBytes]
    split_ifs
    · congr 1
      omega
    · exact hb₁ p
  refine ⟨d₃, ?_, fun p => ?_⟩
  · rw [ataWrite, if_neg (not_not.mpr ht)]
    simp only [h₁, bind, Except.bind, h₂, h₃]
  · rw [hb₃, tailBytes, hadd]
    split_ifs
    · congr 1
      omega
    · exact hw _
    · exact hw p

end Write

-- The condition under which a write of `len` bytes at `off` does what it should: the rest of a sector
-- which the write only covers in part is read from the byte `off / 512` of the disk instead of the
-- sector `off / 512`, so the bytes there have to be the same, and of the whole sectors only as many are
-- written as the count register holds, so the others have to be on the disk already.
structure WriteSafe (old : ℕ → UInt8) (buf : Mem) (len off : ℕ) : Prop where
  head  : off % 512 ≠ 0 → ∀ p, p / 512 = off / 512 → ¬(off ≤ p ∧ p < off + len) →
            old (off / 512 + p % 512) = old p
  whole : 512 ≤ len - headLen len off →
            ∀ p, off + headLen len off + 512 * sectorCount ((len - headLen len off) / 512) ≤ p →
              p < tailStart len off → old p = buf (p - off)
  tail  : (len - headLen len off) % 512 ≠ 0 → ∀ p, p / 512 = (off + len) / 512 → off + len ≤ p →
            patched old buf off (tailStart len off) ((off + len) / 512 + p % 512) = old p

section Safe

variable {old : ℕ → UInt8} {buf : Mem} {len off : ℕ}

theorem headBytes_iff :
    (∀ p, headBytes old buf len off p = patched old buf off (off + headLen len off) p) ↔
      (off % 512 ≠ 0 → ∀ p, p / 512 = off / 512 → ¬(off ≤ p ∧ p < off + len) →
        old (off / 512 + p % 512) = old p) := by
  unfold headBytes patched headLen
  constructor
  · intro h ho p hp hn
    have := h p
    rwa [if_pos ⟨ho, hp⟩, if_neg hn, if_neg (by rw [if_pos ho]; omega)] at this
  · intro h p
    split_ifs <;> first | rfl | omega | (exact h ‹_› p (And.right ‹_›) ‹_›)

theorem wholeBytes_iff
    (hb : ∀ p, headBytes old buf len off p = patched old buf off (off + headLen len off) p) :
    (∀ p, wholeBytes old buf len off p = patched old buf off (tailStart len off) p) ↔
      (512 ≤ len - headLen len off →
        ∀ p, off + headLen len off + 512 * sectorCount ((len - headLen len off) / 512) ≤ p →
          p < tailStart len off → old p = buf (p - off)) := by
  have hs : sectorCount ((len - headLen len off) / 512) ≤ (len - headLen len off) / 512 ∨
      len - headLen len off < 512 := by
    unfold sectorCount
    split_ifs <;> omega
  simp only [wholeBytes, hb]
  unfold patched tailStart
  constructor
  · intro h hw p hp ht
    have := h p
    rw [if_neg (by omega), if_neg (by omega), if_pos (by omega)] at this
    exact this
  · intro h p
    split_ifs <;> first | rfl | omega | exact h (by omega) p (by omega) (by omega)

theorem tailBytes_iff
    (hb : ∀ p, wholeBytes old buf len off p = patched old buf off (tailStart len off) p) :
    (∀ p, tailBytes old buf len off p = patched old buf off (off + len) p) ↔
      ((len - headLen len off) % 512 ≠ 0 → ∀ p, p / 512 = (off + len) / 512 → off + len ≤ p →
        patched old buf off (tailStart len off) ((off + len) / 512 + p % 512) = old p) := by
  have hle := @headLen_le len off
  have hal := @headLen_aligned len off
  simp only [tailBytes, hb]
  constructor
  · intro h hw p hp ht
    have := h p
    rw [if_pos ⟨hw, hp⟩, if_neg (by omega)] at this
    rw [this, patched, if_neg (by omega)]
  · intro h p
    split_ifs with hc hp
    case pos => rw [patched, if_pos (by omega)]
    case neg => rw [h hc.left p hc.right (by omega), patched, if_neg (by omega)]
    case neg =>
      unfold patched tailStart
      split_ifs <;> first | rfl | omega

-- A byte which is right in the end was right before the tail ...
theorem wholeBytes_of_tailBytes
    (h : ∀ p, tailBytes old buf len off p = patched old buf off (off + len) p) (p : ℕ) :
    wholeBytes old buf len off p = patched old buf off (tailStart len off) p := by
  have hle := @headLen_le len off
  have hal := @headLen_aligned len off
  have hs : sectorCount ((len - headLen len off) / 512) ≤ (len - headLen len off) / 512 ∨
      len - headLen len off < 512 := by
    unfold sectorCount
    split_ifs <;> omega
  have hp := h p
  unfold tailBytes patched at hp
  unfold patched tailStart
  by_cases hc : (len - headLen len off) % 512 ≠ 0 ∧ p / 512 = (off + len) / 512
  case pos =>
    rw [if_neg (by omega), wholeBytes, if_neg (by omega), headBytes]
    rw [if_neg]
    unfold headLen at *
    split_ifs at * <;> omega
  case neg =>
    rw [if_neg hc] at hp
    rw [hp]
    split_ifs <;> first | rfl | omega

-- ... and before the whole sectors.
theorem headBytes_of_wholeBytes
    (h : ∀ p, wholeBytes old buf len off p = patched old buf off (tailStart len off) p) (p : ℕ) :
    headBytes old buf len off p = patched old buf off (off + headLen len off) p := by
  have hp := h p
  unfold wholeBytes patched tailStart at hp
  unfold patched
  by_cases hc : off + headLen len off ≤ p ∧ p < tailStart len off
  case pos =>
    unfold tailStart at hc
    rw [if_neg (by omega), headBytes, if_neg]
    unfold headLen at *
    split_ifs at * <;> omega
  case neg =>
    unfold tailStart at hc
    rw [if_neg] at hp
    · rw [hp]
      split_ifs <;> first | rfl | omega
    · unfold sectorCount
      split_ifs <;> omega

theorem tailBytes_iff_writeSafe :
    (∀ p, tailBytes old buf len off p = patched old buf off (off + len) p) ↔ WriteSafe old buf len off := by
  constructor
  · intro h
    have hw := wholeBytes_of_tailBytes h
    have hh := headBytes_of_wholeBytes hw
    exact ⟨headBytes_iff.mp hh, (wholeBytes_iff hh).mp hw, (tailBytes_iff hw).mp h⟩
  · intro h
    have hh := (@headBytes_iff _ buf).mpr h.head
    have hw := (wholeBytes_iff hh).mpr h.whole
    exact (tailBytes_iff hw).mpr h.tail

end Safe

-- The disk holds what `ata_write` was asked to write, and is unchanged elsewhere.
def Wrote (old new : ℕ → UInt8) (buf : Mem) (len off : ℕ) : Prop :=
  (∀ i < len, new (off + i) = buf i) ∧ ∀ p, ¬(off ≤ p ∧ p < off + len) → new p = old p

theorem wrote_iff_patched {old new : ℕ → UInt8} {buf : Mem} {len off : ℕ} :
    Wrote old new buf len off ↔ ∀ p, new p = patched old buf off (off + len) p := by
  unfold Wrote patched
  constructor
  · rintro ⟨h₁, h₂⟩ p
    split_ifs with hp
    case pos =>
      have := h₁ (p - off) (by omega)
      rwa [show off + (p - off) = p by omega] at this
    case neg => exact h₂ p hp
  · intro h
    refine ⟨fun i hi => ?_, fun p hp => by rw [h, if_neg hp]⟩
    rw [h, if_pos (by omega), Nat.add_sub_cancel_left]

-- Inside of the disk, `ata_write` changes exactly what was asked if and only if the write is safe.
theorem ataWrite_iff {drive : Drive} {sec buf : Mem} {len off : ℕ} (ht : drive.type = .DEV_PATA)
    (hl : off + len ≤ 512 * drive.sectors) :
    (∃ drive', ataWrite drive sec buf len off = .ok drive' ∧
      Wrote drive.dev.bytes drive'.dev.bytes buf len off) ↔ WriteSafe drive.dev.bytes buf len off := by
  have ⟨d', hw, hb⟩ := ataWrite_spec drive sec buf len off ht hl
  rw [← tailBytes_iff_writeSafe]
  simp only [← hb, ← wrote_iff_patched]
  constructor
  · rintro ⟨drive', hw', h⟩
    rw [hw, Except.ok.injEq] at hw'
    rwa [← hw'] at h
  · exact fun h => ⟨_, hw, h⟩

theorem ataWrite_iff_aligned :
    ∃ drive', ataWrite twoSectors (fun _ => 0) (fun _ => 7) 512 512 = .ok drive' ∧
      Wrote twoSectors.dev.bytes drive'.dev.bytes (fun _ => 7) 512 512 :=
  (ataWrite_iff rfl (by decide)).mpr {
    head  := fun h => absurd rfl h
    whole := fun _ p h₁ h₂ => by
      simp [tailStart, headLen, sectorCount] at h₁ h₂
      omega
    tail  := fun h => absurd rfl h
  }

-- Writing the byte 513 destroys the byte 512, because the rest of the sector is filled with what is at
-- the bytes from 1 on.
theorem ataWrite_destroys :
    ¬∃ drive', ataWrite twoSectors (fun _ => 0) (fun _ => 7) 1 513 = .ok drive' ∧
      Wrote twoSectors.dev.bytes drive'.dev.bytes (fun _ => 7) 1 513 := by
  have ⟨d', hw, hb⟩ := ataWrite_spec twoSectors (fun _ => 0) (fun _ => 7) 1 513 rfl (by decide)
  rintro ⟨drive', hw', h⟩
  obtain rfl := Except.ok.inj (hw.symm.trans hw')
  have h₁ : d'.bytes 512 = 2 := h.right 512 (by omega)
  have h₂ : d'.bytes 512 = 1 := hb 512
  simp [h₁] at h₂

end Camellia.Ata
