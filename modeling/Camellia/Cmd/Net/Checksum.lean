import Camellia.Cmd.Net.Ipv4

namespace Camellia.Net

def ipChecksumphdr (buf : List UInt8) (ip₁ ip₂ : UInt32) (proto : UInt16) : ℕ :=
  let c := 0xFFFF - ipChecksum buf
  let c := (c + (ip₁.toNat % 2 ^ 16 + ip₁.toNat / 2 ^ 16)) % 2 ^ 32
  let c := (c + (ip₂.toNat % 2 ^ 16 + ip₂.toNat / 2 ^ 16)) % 2 ^ 32
  let c := (c + (proto.toNat + buf.length)) % 2 ^ 32
  0xFFFF - checksumFold c

-- The header which `ip_checksumphdr` stands for.
def pseudoHeader (src dst : UInt32) (proto : UInt16) (len : ℕ) : List UInt8 :=
  nput32 src.toNat ++ nput32 dst.toNat ++ [0, proto.toUInt8] ++ nput16 len

-- The buffer after `nput16(buf + k, n)`.
def nput16At (buf : List UInt8) (k n : ℕ) : List UInt8 :=
  buf.take k ++ nput16 n ++ buf.drop (k + 2)

-- The sum of the big-endian words, the last of which is padded.
def wordSum : List UInt8 → ℕ
  | a :: b :: buf => 2 ^ 8 * a.toNat + b.toNat + wordSum buf
  | [a]           => 2 ^ 8 * a.toNat
  | []            => 0

section Sums

variable {buf : List UInt8} {c k n : ℕ}

@[simp]
theorem length_nput16 : (nput16 n).length = 2 :=
  rfl

@[simp]
theorem length_nput32 : (nput32 n).length = 4 :=
  rfl

theorem wordSum_le (buf : List UInt8) : wordSum buf ≤ 0xFFFF * ((buf.length + 1) / 2) := by
  fun_induction wordSum buf
  case case1 a b buf hi =>
    have := a.toNat_lt
    have := b.toNat_lt
    simp only [List.length_cons]
    omega
  case case2 a =>
    have := a.toNat_lt
    simp only [List.length_singleton]
    omega
  case case3 => exact Nat.zero_le _

theorem wordSum_append {hdr : List UInt8} (h : hdr.length % 2 = 0) : wordSum (hdr ++ buf) = wordSum hdr + wordSum buf := by
  fun_induction wordSum hdr
  case case1 a b hdr hi =>
    have hl : hdr.length % 2 = 0 := by
      simp only [List.length_cons] at h
      omega
    simp only [List.cons_append, wordSum, hi hl]
    omega
  case case2 => simp at h
  case case3 => simp

theorem wordSum_nput16 : wordSum (nput16 n) = n % 2 ^ 16 := by
  simp only [nput16, wordSum, UInt8.toNat_ofNat']
  omega

theorem wordSum_nput32 : wordSum (nput32 n) = n / 2 ^ 16 % 2 ^ 16 + n % 2 ^ 16 := by
  rw [nput32, wordSum_append (by simp), wordSum_nput16, wordSum_nput16]

theorem checksumAdd_eq (h : c + wordSum buf < 2 ^ 32) : checksumAdd buf c = c + wordSum buf := by
  fun_induction checksumAdd buf c
  case case1 a b buf c hi =>
    simp only [wordSum] at h ⊢
    rw [Nat.mod_eq_of_lt (by omega)] at hi ⊢
    rw [hi (by omega)]
    omega
  case case2 a c =>
    rw [wordSum] at h ⊢
    exact Nat.mod_eq_of_lt h
  case case3 => rfl

-- Folding keeps the rest modulo 65535, and zero apart from its other multiples.
theorem checksumFold_eq : checksumFold c = if c = 0 then 0 else (c - 1) % 0xFFFF + 1 := by
  fun_induction checksumFold c
  case case1 c h hi =>
    rw [hi]
    split_ifs <;> omega
  case case2 c h =>
    split_ifs <;> omega

theorem ipChecksum_eq (h : buf.length ≤ 131072) : ipChecksum buf = 0xFFFF - checksumFold (wordSum buf) := by
  have := wordSum_le buf
  rw [ipChecksum, checksumAdd_eq (by omega), Nat.zero_add]

theorem length_nput16At (h : k + 1 < buf.length) : (nput16At buf k n).length = buf.length := by
  simp [nput16At]
  omega

theorem wordSum_nput16At (hk : k % 2 = 0) (h : buf[k]? = some 0) (h' : buf[k + 1]? = some 0) :
    wordSum (nput16At buf k n) = wordSum buf + n % 2 ^ 16 := by
  obtain ⟨hl, h'⟩ := List.getElem?_eq_some_iff.mp h'
  obtain ⟨hlt, h⟩ := List.getElem?_eq_some_iff.mp h
  have ht : (buf.take k).length % 2 = 0 := by
    rw [List.length_take, Nat.min_eq_left (by omega)]
    exact hk
  have hb : wordSum buf = wordSum (buf.take k) + wordSum (buf.drop (k + 2)) := by
    conv_lhs => rw [← List.take_append_drop k buf, wordSum_append ht, List.drop_eq_getElem_cons hlt,
      List.drop_eq_getElem_cons hl, h, h']
    simp [wordSum]
  rw [nput16At, List.append_assoc, wordSum_append ht, wordSum_append (by simp), wordSum_nput16, hb]
  omega

end Sums

-- Storing the checksum makes the packet verify.
theorem ipChecksum_nput16At {buf : List UInt8} {k : ℕ} (hl : buf.length ≤ 131072) (hk : k % 2 = 0)
    (h : buf[k]? = some 0) (h' : buf[k + 1]? = some 0) : ipChecksum (nput16At buf k (ipChecksum buf)) = 0 := by
  have ⟨hlt, _⟩ := List.getElem?_eq_some_iff.mp h'
  rw [ipChecksum_eq (by rwa [length_nput16At hlt]), wordSum_nput16At hk h h', ipChecksum_eq hl, checksumFold_eq,
    checksumFold_eq]
  split_ifs <;> omega

theorem checksumFold_le (c : ℕ) : checksumFold c ≤ 0xFFFF := by
  rw [checksumFold_eq]
  split_ifs <;> omega

theorem checksumFold_add (a b : ℕ) : checksumFold (checksumFold a + b) = checksumFold (a + b) := by
  simp only [checksumFold_eq]
  split_ifs <;> omega

theorem wordSum_pseudoHeader (src dst : UInt32) {proto : UInt16} {len : ℕ} (hl : len < 65536) (hp : proto < 256) :
    wordSum (pseudoHeader src dst proto len) =
      (src.toNat % 2 ^ 16 + src.toNat / 2 ^ 16) + (dst.toNat % 2 ^ 16 + dst.toNat / 2 ^ 16) + (proto.toNat + len) := by
  have hp : proto.toNat < 256 := hp
  have := src.toNat_lt
  have := dst.toNat_lt
  rw [pseudoHeader, wordSum_append (by simp), wordSum_append (by simp), wordSum_append (by simp), wordSum_nput32,
    wordSum_nput32, wordSum_nput16]
  simp only [wordSum, UInt16.toNat_toUInt8, UInt8.toNat_zero]
  omega

theorem ipChecksumphdr_eq {buf : List UInt8} (src dst : UInt32) {proto : UInt16} (hl : buf.length < 65536) (hp : proto < 256) :
    ipChecksumphdr buf src dst proto = ipChecksum (pseudoHeader src dst proto buf.length ++ buf) := by
  have hlen : (pseudoHeader src dst proto buf.length).length = 12 := rfl
  have hf := checksumFold_le (wordSum buf)
  have hp' : proto.toNat < 256 := hp
  have hs := src.toNat_lt
  have hd := dst.toNat_lt
  rw [ipChecksumphdr, ipChecksum_eq (by omega), ipChecksum_eq (by rw [List.length_append, hlen]; omega),
    wordSum_append (by rw [hlen]), wordSum_pseudoHeader src dst hl hp, Nat.add_comm _ (wordSum buf), ← checksumFold_add]
  simp only [Nat.sub_sub_self hf, Nat.mod_add_mod]
  rw [Nat.mod_eq_of_lt]
  · simp only [Nat.add_assoc]
  · generalize checksumFold (wordSum buf) = c at hf
    omega

theorem ipChecksumphdr_comm (buf : List UInt8) (src dst : UInt32) (proto : UInt16) :
    ipChecksumphdr buf src dst proto = ipChecksumphdr buf dst src proto := by
  simp only [ipChecksumphdr, Nat.mod_add_mod]
  rw [Nat.add_right_comm (0xFFFF - ipChecksum buf)]

-- A packet verifies once its checksum is stored, and the checksum with a pseudo header is that of the bytes behind
-- this header.
theorem checksums_verify (buf : List UInt8) :
    (∀ k, buf.length ≤ 131072 → k % 2 = 0 → buf[k]? = some 0 → buf[k + 1]? = some 0 →
      ipChecksum (nput16At buf k (ipChecksum buf)) = 0) ∧
    ∀ src dst proto, buf.length < 65536 → proto < 256 →
      ipChecksumphdr buf src dst proto = ipChecksum (pseudoHeader src dst proto buf.length ++ buf) ∧
      ipChecksumphdr buf src dst proto = ipChecksumphdr buf dst src proto :=
  ⟨fun _ hl hk h h' => ipChecksum_nput16At hl hk h h',
    fun src dst proto hl hp => ⟨ipChecksumphdr_eq src dst hl hp, ipChecksumphdr_comm buf src dst proto⟩⟩

-- Three bytes, the first two of which are for the checksum.
theorem checksums_verify_odd :
    ipChecksum (nput16At [0, 0, 5] 0 (ipChecksum [0, 0, 5])) = 0 ∧
      ipChecksumphdr [0, 0, 5] 7 9 17 = ipChecksum (pseudoHeader 7 9 17 3 ++ [0, 0, 5]) :=
  ⟨(checksums_verify [0, 0, 5]).left 0 (by decide) rfl rfl rfl,
    ((checksums_verify [0, 0, 5]).right 7 9 17 (by decide) (by decide)).left⟩

-- The header of every packet that is sent verifies.
theorem ipChecksum_ipv4Packet (src dst : UInt32) (proto : UInt8) (id : UInt16) (fraginfo : ℕ) (payload : List UInt8) :
    ipChecksum ((ipv4Packet src dst proto id fraginfo payload).take 20) = 0 := by
  have h : (ipv4Packet src dst proto id fraginfo payload).take 20 =
      nput16At (ipv4Header src dst proto id (20 + payload.length) fraginfo 0) 10
        (ipChecksum (ipv4Header src dst proto id (20 + payload.length) fraginfo 0)) := by
    simp [ipv4Packet, nput16At, ipv4Header, nput16, nput32]
  rw [h]
  exact ipChecksum_nput16At (by simp [ipv4Header]) rfl rfl rfl

end Camellia.Net
