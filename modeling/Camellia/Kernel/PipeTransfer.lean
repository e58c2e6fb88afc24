import Camellia.Kernel.Pcpy
import Camellia.Kernel.Request
import Camellia.Kernel.Update

namespace Camellia

-- What `pipe_trytransfer` reads of a process which waits for a pipe.
structure Waiter where
  pages : Option ℕ
  buf   : ℕ
  len   : ℕ

-- The memory after a transfer, and what the two processes find in their registers.
structure Transfer where
  mem    : Mem
  rdrRax : ℕ
  wtrRax : ℕ

-- `pcpy_bi`
def pcpyBiMem (m : Mem) (dst src : Waiter) (len : ℕ) : Except Fault (ℕ × Mem) :=
  match dst.pages, src.pages with
  | none, _            => .ok (0, m)
  | some _, none       => .ok (0, m)
  | some dir, some dir' => virtCpy m (some dir) dst.buf (some dir') src.buf len

-- The part of `pipe_trytransfer` which moves the bytes. Both lengths are stored in an `int`.
def pipeMove (m : Mem) (rdr wtr : Waiter) : Except Fault Transfer := do
  let len := toInt32 (min rdr.len wtr.len : ℕ)
  let (total, m) ← pcpyBiMem m rdr wtr (toPtr len)
  let len := toInt32 (total : ℕ)
  return ⟨m, toPtr len, toPtr len⟩

-- The physical address of byte `i` of a buffer, if the process may access it.
def Waiter.byte (m : Mem) (w : Waiter) (writeable : Bool) (i : ℕ) : Option ℕ :=
  w.pages.bind fun dir => physByte m (some dir) w.buf writeable i

-- Byte `i` can be moved from one buffer to the other.
def Movable (m : Mem) (rdr wtr : Waiter) (i : ℕ) : Prop :=
  rdr.byte m true i ≠ none ∧ wtr.byte m false i ≠ none

instance (m : Mem) (rdr wtr : Waiter) (i : ℕ) : Decidable (Movable m rdr wtr i) :=
  inferInstanceAs <| Decidable (_ ∧ _)

-- The first `k` bytes of the buffers are different bytes of the memory.
structure Distinct (m : Mem) (rdr wtr : Waiter) (k : ℕ) : Prop where
  images    : ∀ i < k, ∀ j < k, ∀ a, rdr.byte m true i = some a → wtr.byte m false j ≠ some a
  injective : ∀ i < k, ∀ j < k, ∀ a, rdr.byte m true i = some a → rdr.byte m true j = some a → i = j

-- The page tables have no large pages, and the reader's pages are not among the tables.
structure Tables (m : Mem) (rdr wtr : Waiter) (n : ℕ) : Prop where
  dest   : NoLarge m rdr.pages rdr.buf n
  src    : NoLarge m wtr.pages wtr.buf n
  images : ∀ i < n, ∀ a, rdr.byte m true i = some a →
    ¬TableByte m rdr.pages rdr.buf n a ∧ ¬TableByte m wtr.pages wtr.buf n a

-- Only the first `k` bytes of the reader's buffer were written, and if they are not among the bytes
-- that are read, then they are those of the writer now.
structure Filled (m : Mem) (rdr wtr : Waiter) (k : ℕ) (m' : Mem) : Prop where
  frame  : ∀ a, (∀ i < k, rdr.byte m true i ≠ some a) → m' a = m a
  copied : Distinct m rdr wtr k → Copied m m' (rdr.byte m true) (wtr.byte m false) k

-- Both processes are told how many bytes were moved, and those are as many as the smaller of the two
-- lengths, up to the first byte that faults.
structure Moved (m : Mem) (rdr wtr : Waiter) (t : Transfer) (k : ℕ) : Prop where
  longest : LongestPrefix (min rdr.len wtr.len) (Movable m rdr wtr) k
  filled  : Filled m rdr wtr k t.mem
  rdrRax  : t.rdrRax = k
  wtrRax  : t.wtrRax = k

section Int

variable {n : ℕ}

-- A length which was stored in an `int`.
theorem toPtr_toInt32 :
    toPtr (toInt32 n) = if n % 2 ^ 32 < 2 ^ 31 then n % 2 ^ 32 else 2 ^ 64 - 2 ^ 32 + n % 2 ^ 32 := by
  have hb := Int.bmod_def (n : Int) (2 ^ 32)
  rw [toPtr, toInt32]
  generalize (n : Int).bmod (2 ^ 32) = b at hb
  split_ifs at hb ⊢ <;> omega

theorem toPtr_toInt32_small (h : n < 2 ^ 31) : toPtr (toInt32 n) = n := by
  rw [toPtr_toInt32, Nat.mod_eq_of_lt (by omega), if_pos h]

end Int

section Buffers

variable {m m' m₁ : Mem} {rdr wtr : Waiter} {i k n n' length : ℕ} {writeable : Bool}

theorem NoLarge.mono {pages : Option ℕ} {virt : ℕ} (h : NoLarge m pages virt n) (hle : n' ≤ n) :
    NoLarge m pages virt n' :=
  fun dir hdir i hi => h dir hdir i (by omega)

theorem TableByte.mono {pages : Option ℕ} {virt a : ℕ} (h : TableByte m pages virt n' a)
    (hle : n' ≤ n) : TableByte m pages virt n a := by
  obtain ⟨dir, hdir, i, hi, e, he⟩ := h
  exact ⟨dir, hdir, i, by omega, e, he⟩

theorem Tables.mono (h : Tables m rdr wtr n) (hle : n' ≤ n) : Tables m rdr wtr n' where
  dest   := h.dest.mono hle
  src    := h.src.mono hle
  images := fun i hi a ha => (h.images i (by omega) a ha).imp (mt (·.mono hle)) (mt (·.mono hle))

theorem Distinct.mono (h : Distinct m rdr wtr n) (hle : n' ≤ n) : Distinct m rdr wtr n' where
  images    := fun i hi j hj => h.images i (by omega) j (by omega)
  injective := fun i hi j hj => h.injective i (by omega) j (by omega)

theorem Waiter.byte_some {dir : ℕ} (h : rdr.pages = some dir) :
    rdr.byte m writeable = physByte m (some dir) rdr.buf writeable := by
  funext i
  rw [Waiter.byte, h, Option.bind_some]

-- No process can access as many bytes as this, since some of the addresses are not canonical.
theorem Waiter.exists_hole (rdr : Waiter) (m : Mem) (writeable : Bool) :
    ∃ i < 2 ^ 64 - 2 ^ 31, rdr.byte m writeable i = none := by
  have hnone {i : ℕ} (hi : ¬addrCanonical ((rdr.buf + i) % 2 ^ 64)) : rdr.byte m writeable i = none := by
    rw [Waiter.byte]
    cases rdr.pages
    case none => rfl
    case some dir =>
      rw [Option.bind_some, physByte, pagedirVirt2phys, getEntry, if_pos hi]
      rfl
  -- One of these two addresses is among those of the buffer.
  by_cases h : (2 ^ 64 + 2 ^ 48 - rdr.buf % 2 ^ 64) % 2 ^ 64 < 2 ^ 64 - 2 ^ 31
  case pos =>
    refine ⟨_, h, hnone ?_⟩
    rw [show (rdr.buf + (2 ^ 64 + 2 ^ 48 - rdr.buf % 2 ^ 64) % 2 ^ 64) % 2 ^ 64 = 2 ^ 48 by omega]
    decide
  case neg =>
    refine ⟨(2 ^ 64 + 2 ^ 49 - rdr.buf % 2 ^ 64) % 2 ^ 64, by omega, hnone ?_⟩
    rw [show (rdr.buf + (2 ^ 64 + 2 ^ 49 - rdr.buf % 2 ^ 64) % 2 ^ 64) % 2 ^ 64 = 2 ^ 49 by omega]
    decide

end Buffers

section Move

variable {m m₁ : Mem} {rdr wtr : Waiter} {k length bound : ℕ} {t : Transfer}

theorem filled_zero : Filled m rdr wtr 0 m where
  frame  := fun _ _ => rfl
  copied := fun _ => ⟨by simp, fun _ _ => rfl⟩

theorem Filled.memcpy {dir dir' len : ℕ} {di si : VirtIter} (hd : rdr.pages = some dir)
    (hs : wtr.pages = some dir') (ht : Tables m rdr wtr bound) (hf : Filled m rdr wtr k m₁)
    (hdi : di.At m (some dir) rdr.buf length true k) (hsi : si.At m (some dir') wtr.buf length false k)
    (hld : len ≤ di.fragLen) (hls : len ≤ si.fragLen) (hle : k + len ≤ bound) :
    Filled m rdr wtr (k + len) (memcpy m₁ di.frag si.frag len) where
  frame  := fun a ha => by
    rw [Waiter.byte_some hd] at ha
    rw [memcpy_not_mem fun hr => ?_]
    · refine hf.frame a fun i hi => ?_
      rw [Waiter.byte_some hd]
      exact ha i (by omega)
    · refine ha (k + (a - di.frag)) (by omega) ?_
      rw [hdi.frag (a - di.frag) (by omega)]
      congr 1
      omega
  copied := fun hdis => by
    have hc := hf.copied (hdis.mono (Nat.le_add_right _ _))
    have ht := ht.mono hle
    have ⟨himg, hinj⟩ := hdis
    have htab := ht.images
    rw [hd, hs] at htab
    rw [Waiter.byte_some hd] at hc himg hinj htab ⊢
    rw [Waiter.byte_some hs] at hc himg ⊢
    exact hc.memcpy ⟨himg, hinj, htab⟩ hdi hsi hld hls le_rfl

-- The copy goes on until all bytes were copied, or a byte of one of the buffers faults.
theorem pcpyBiMem_spec (hd : rdr.buf < 2 ^ 64) (hs : wtr.buf < 2 ^ 64) (ht : Tables m rdr wtr bound)
    (hb : bound = length ∨ ∃ i < bound, ¬Movable m rdr wtr i) :
    ∃ k m', pcpyBiMem m rdr wtr length = .ok (k, m') ∧ Filled m rdr wtr k m' ∧
      (∀ i < k, Movable m rdr wtr i) ∧ k ≤ length ∧ (k < length → ¬Movable m rdr wtr k) := by
  simp only [pcpyBiMem]
  cases hdp : rdr.pages
  case none =>
    refine ⟨0, m, rfl, filled_zero, by simp, Nat.zero_le _, fun _ h => h.1 ?_⟩
    rw [Waiter.byte, hdp, Option.bind_none]
  case some dir =>
    cases hsp : wtr.pages
    case none =>
      refine ⟨0, m, rfl, filled_zero, by simp, Nat.zero_le _, fun _ h => h.2 ?_⟩
      rw [Waiter.byte, hsp, Option.bind_none]
    case some dir' =>
      have hmov (i : ℕ) : Movable m rdr wtr i ↔ physByte m (some dir) rdr.buf true i ≠ none ∧
          physByte m (some dir') wtr.buf false i ≠ none := by
        rw [Movable, Waiter.byte_some hdp, Waiter.byte_some hsp]
      have hfault (i : ℕ) : ¬Movable m rdr wtr i ↔ physByte m (some dir) rdr.buf true i = none ∨
          physByte m (some dir') wtr.buf false i = none := by
        rw [hmov]
        tauto
      have hI : CopyInvariant m (some dir) rdr.buf (some dir') wtr.buf length bound
          (fun k m₁ => k ≤ bound ∧ Filled m rdr wtr k m₁) := by
        refine ⟨fun k m₁ a ⟨hk, hf⟩ ha => hf.frame a fun i hi hia => ?_,
          fun k m₁ di si len ⟨_, hf⟩ hdi hsi hld hls hle =>
            ⟨hle, hf.memcpy hdp hsp ht hdi hsi hld hls hle⟩⟩
        have := ht.images i (by omega) a hia
        rw [hdp, hsp] at this
        tauto
      have ⟨k, m', hrun, ⟨_, hf⟩, hmap, hend⟩ := virtCpy_rule (fun _ _ => hd) (fun _ _ => hs)
        (hdp ▸ ht.dest) (hsp ▸ ht.src) (hb.imp_right fun ⟨i, hi, hn⟩ => ⟨i, hi, (hfault i).mp hn⟩) hI
        ⟨Nat.zero_le _, filled_zero⟩
      refine ⟨k, m', hrun, hf, fun i hi => (hmov i).mpr (hmap i hi), ?_, fun hk => ?_⟩
      · exact hend.elim (fun h => h.le) fun h => h.1.le
      · exact (hfault k).mpr (hend.resolve_left hk.ne).2

theorem pipeMove_ok {len : ℕ} {m' : Mem} (hlen : toPtr (toInt32 (min rdr.len wtr.len : ℕ)) = len)
    (h : pcpyBiMem m rdr wtr len = .ok (k, m')) :
    pipeMove m rdr wtr = .ok ⟨m', toPtr (toInt32 k), toPtr (toInt32 k)⟩ := by
  simp only [pipeMove, hlen, h]
  rfl

-- What is returned is what fits into an `int`.
theorem pipeMove_rax (h : pipeMove m rdr wtr = .ok t) : ∃ total : ℕ, t.rdrRax = toPtr (toInt32 total) := by
  cases hrun : pcpyBiMem m rdr wtr (toPtr (toInt32 (min rdr.len wtr.len : ℕ)))
  case error e => simp only [pipeMove, hrun, bind, Except.bind, reduceCtorEq] at h
  case ok y =>
    obtain ⟨total, m'⟩ := y
    rw [pipeMove_ok rfl hrun] at h
    refine ⟨total, ?_⟩
    rw [← Except.ok.inj h]

-- Everything goes well if the copy ends early enough.
theorem pipeMove_moves (hd : rdr.buf < 2 ^ 64) (hs : wtr.buf < 2 ^ 64)
    (ht : Tables m rdr wtr (min rdr.len wtr.len)) (hsmall : min rdr.len wtr.len < 2 ^ 31 ∨
      ∃ i ≤ min (min rdr.len wtr.len % 2 ^ 32) (2 ^ 31 - 1), ¬Movable m rdr wtr i) :
    ∃ t k, pipeMove m rdr wtr = .ok t ∧ Moved m rdr wtr t k := by
  have hfin {k : ℕ} {m' : Mem} {len : ℕ} (hlen : toPtr (toInt32 (min rdr.len wtr.len : ℕ)) = len)
      (hrun : pcpyBiMem m rdr wtr len = .ok (k, m')) (hf : Filled m rdr wtr k m')
      (hmap : ∀ i < k, Movable m rdr wtr i) (hk : k < 2 ^ 31) (hle : k ≤ min rdr.len wtr.len)
      (hend : k < min rdr.len wtr.len → ¬Movable m rdr wtr k) :
      ∃ t k, pipeMove m rdr wtr = .ok t ∧ Moved m rdr wtr t k := by
    have hrax := toPtr_toInt32_small hk
    refine ⟨⟨m', toPtr (toInt32 k), toPtr (toInt32 k)⟩, k, pipeMove_ok hlen hrun, ?_⟩
    constructor
    case longest => exact ⟨hle, hmap, hend⟩
    case filled  => exact hf
    case rdrRax  => simpa only using hrax
    case wtrRax  => simpa only using hrax
  by_cases hlt : min rdr.len wtr.len < 2 ^ 31
  case pos =>
    have ⟨k, m', hrun, hf, hmap, hle, hend⟩ := pcpyBiMem_spec hd hs ht (.inl rfl)
    exact hfin (toPtr_toInt32_small hlt) hrun hf hmap (by omega) hle hend
  case neg =>
    obtain ⟨i, hi, hn⟩ := hsmall.resolve_left hlt
    -- The byte which faults is not behind the end of the copy.
    obtain ⟨len, hlen⟩ : ∃ len, toPtr (toInt32 (min rdr.len wtr.len : ℕ)) = len := ⟨_, rfl⟩
    have ⟨hil, hlong⟩ : i ≤ len ∧ (i = len → len ≤ min rdr.len wtr.len) := by
      rw [← hlen, toPtr_toInt32]
      split <;> omega
    have hb : ∃ bound ≤ min rdr.len wtr.len, bound = len ∨ ∃ i < bound, ¬Movable m rdr wtr i := by
      by_cases heq : i = len
      case pos => exact ⟨len, hlong heq, .inl rfl⟩
      case neg => exact ⟨i + 1, by omega, .inr ⟨i, Nat.lt_succ_self i, hn⟩⟩
    obtain ⟨bound, hbound, hb⟩ := hb
    have ⟨k, m', hrun, hf, hmap, hle, hend⟩ := pcpyBiMem_spec hd hs (ht.mono hbound) hb
    clear hb
    have hki : k ≤ i := by
      by_contra hgt
      exact hn (hmap i (by omega))
    refine hfin hlen hrun hf hmap (by omega) (by omega) fun _ => ?_
    by_cases heq : k = i
    case pos => exact heq ▸ hn
    case neg => exact hend (by omega)

-- Otherwise the truncated length is too small, or the truncated result is.
theorem pipeMove_truncates (hd : rdr.buf < 2 ^ 64) (hs : wtr.buf < 2 ^ 64)
    (ht : Tables m rdr wtr (min rdr.len wtr.len)) (hbig : 2 ^ 31 ≤ min rdr.len wtr.len)
    (hmap : ∀ i ≤ min (min rdr.len wtr.len % 2 ^ 32) (2 ^ 31 - 1), Movable m rdr wtr i)
    (hrun : pipeMove m rdr wtr = .ok t) (hm : Moved m rdr wtr t k) : False := by
  have ⟨hle, hpre, hend⟩ := hm.longest
  have hk : min (min rdr.len wtr.len % 2 ^ 32) (2 ^ 31 - 1) < k := by
    by_contra hn
    exact hend (by omega) (hmap k (by omega))
  have hlen := toPtr_toInt32 (n := min rdr.len wtr.len)
  by_cases hsmall : min rdr.len wtr.len % 2 ^ 32 < 2 ^ 31
  case pos =>
    rw [if_pos hsmall] at hlen
    have hmod : min rdr.len wtr.len % 2 ^ 32 ≤ min rdr.len wtr.len := Nat.mod_le _ _
    have ⟨k', m', hrun', _, _, hle', _⟩ := pcpyBiMem_spec hd hs (ht.mono hmod) (.inl rfl)
    rw [pipeMove_ok hlen hrun'] at hrun
    have hrax : toPtr (toInt32 (k' : ℕ)) = k := by rw [← hm.rdrRax, ← Except.ok.inj hrun]
    rw [toPtr_toInt32_small (by omega)] at hrax
    omega
  case neg =>
    obtain ⟨total, hrax⟩ := pipeMove_rax hrun
    rw [hm.rdrRax, toPtr_toInt32] at hrax
    have ⟨i, hi, hnone⟩ := rdr.exists_hole m true
    refine (hpre i ?_).1 hnone
    split_ifs at hrax <;> omega

theorem pipeMove_iff (hd : rdr.buf < 2 ^ 64) (hs : wtr.buf < 2 ^ 64)
    (ht : Tables m rdr wtr (min rdr.len wtr.len)) :
    (∃ t k, pipeMove m rdr wtr = .ok t ∧ Moved m rdr wtr t k) ↔
      min rdr.len wtr.len < 2 ^ 31 ∨
        ∃ i ≤ min (min rdr.len wtr.len % 2 ^ 32) (2 ^ 31 - 1), ¬Movable m rdr wtr i := by
  refine ⟨fun ⟨t, k, hrun, hm⟩ => ?_, pipeMove_moves hd hs ht⟩
  by_contra hn
  push Not at hn
  exact pipeMove_truncates hd hs ht hn.1 hn.2 hrun hm

end Move

section Linear

-- An entry for a page which a user may read and write.
def linearPe (n : ℕ) : Pe :=
  2 ^ 12 * n + 7

-- Page tables at 0x1000 for 2^39 bytes of memory, which are one after the other.
def linearWords (i : ℕ) : ℕ :=
  if i = 2 ^ 9 then linearPe 2
  else if 2 ^ 10 ≤ i ∧ i < 2 ^ 10 + 2 ^ 9 then linearPe (2 ^ 18 + (i - 2 ^ 10))
  else if 2 ^ 27 ≤ i ∧ i < 2 ^ 27 + 2 ^ 18 then linearPe (2 ^ 19 + (i - 2 ^ 27))
  else if 2 ^ 28 ≤ i ∧ i < 2 ^ 28 + 2 ^ 27 then linearPe (2 ^ 28 + (i - 2 ^ 28))
  else 0

def linear : Mem :=
  .ofWords linearWords

variable {n i t virt : ℕ} {rdr wtr : Waiter}

theorem testBit_linearPe (hi : i < 3) : (linearPe n).testBit i = true := by
  rw [linearPe, Nat.testBit_two_pow_mul_add _ (by decide), if_pos (by omega)]
  obtain rfl | rfl | rfl : i = 0 ∨ i = 1 ∨ i = 2 := by omega
  all_goals decide

theorem permits_linearPe {user writeable : Bool} : (linearPe n).permits user writeable = true := by
  have h₀ : (linearPe n).present = true := testBit_linearPe (by decide)
  have h₁ : (linearPe n).writeable = true := testBit_linearPe (by decide)
  have h₂ : (linearPe n).user = true := testBit_linearPe (by decide)
  simp [Pe.permits, h₀, h₁, h₂]

theorem large_linearPe : Pe.large (linearPe n) = false := by
  rw [Pe.large, linearPe, Nat.testBit_two_pow_mul_add _ (by decide), if_pos (by decide)]
  decide

theorem addrExtract_linearPe (h : n < 2 ^ 40) : addrExtract (linearPe n) = n * 2 ^ 12 := by
  simp only [addrExtract, Pe.address, linearPe]
  omega

-- The entry in a word of the memory.
theorem peAt_linear {k : ℕ} (ht : t + 8 * i = 8 * n) (hw : linearWords n = linearPe k)
    (hk : k < 2 ^ 40) : peAt linear t i = linearPe k := by
  rw [peAt, ht, linear, Mem.load_ofWords, hw, Nat.mod_eq_of_lt]
  rw [linearPe]
  omega

-- The lookup of an address, and the entries which are read for it.
theorem linear_walk (hv : virt < 2 ^ 39) :
    getEntry linear 0x1000 virt = .ok (some (linearPe (2 ^ 28 + virt / 2 ^ 12))) ∧
      ∀ e ∈ entryReads linear 0x1000 virt, e + 8 ≤ 2 ^ 39 := by
  have hp (n : ℕ) : Pe.present (linearPe n) = true := testBit_linearPe (by decide)
  obtain ⟨pd, hpd⟩ : ∃ n, n = 2 ^ 18 + virt / 2 ^ 30 := ⟨_, rfl⟩
  obtain ⟨pt, hpt⟩ : ∃ n, n = 2 ^ 19 + virt / 2 ^ 21 := ⟨_, rfl⟩
  obtain ⟨page, hpage⟩ : ∃ n, n = 2 ^ 28 + virt / 2 ^ 12 := ⟨_, rfl⟩
  have h₁ : peAt linear 0x1000 (virtPml4 virt) = linearPe 2 := by
    refine peAt_linear (n := 2 ^ 9) ?_ (if_pos rfl) (by decide)
    rw [virtPml4]
    omega
  have h₂ : peAt linear 0x2000 (virtPdpt virt) = linearPe pd := by
    refine peAt_linear (n := 2 ^ 10 + virt / 2 ^ 30) ?_ ?_ (by omega)
    · rw [virtPdpt]
      omega
    · rw [linearWords, if_neg (by omega), if_pos (by omega)]
      exact congrArg linearPe (by omega)
  have h₃ : peAt linear (pd * 2 ^ 12) (virtPd virt) = linearPe pt := by
    refine peAt_linear (n := 2 ^ 27 + virt / 2 ^ 21) ?_ ?_ (by omega)
    · rw [virtPd]
      omega
    · rw [linearWords, if_neg (by omega), if_neg (by omega), if_pos (by omega)]
      exact congrArg linearPe (by omega)
  have h₄ : peAt linear (pt * 2 ^ 12) (virtPt virt) = linearPe page := by
    refine peAt_linear (n := 2 ^ 28 + virt / 2 ^ 12) ?_ ?_ (by omega)
    · rw [virtPt]
      omega
    · rw [linearWords, if_neg (by omega), if_neg (by omega), if_neg (by omega), if_pos (by omega)]
      exact congrArg linearPe (by omega)
  have hcanon : addrCanonical virt = true := by
    simp only [addrCanonical, decide_eq_true_eq]
    omega
  have ha₁ : addrExtract (linearPe 2) = 0x2000 := addrExtract_linearPe (by decide)
  have ha₂ : addrExtract (linearPe pd) = pd * 2 ^ 12 := addrExtract_linearPe (by omega)
  have ha₃ : addrExtract (linearPe pt) = pt * 2 ^ 12 := addrExtract_linearPe (by omega)
  rw [← hpage]
  refine ⟨?_, fun e he => ?_⟩
  · simp only [getEntry, getEntryWalk, hcanon, h₁, h₂, h₃, h₄, ha₁, ha₂, ha₃, hp, large_linearPe,
      not_true_eq_false, Bool.false_eq_true, if_false, bind, Except.bind, pure, Except.pure,
      Option.map_some]
  · simp only [entryReads, walkReads, h₁, h₂, h₃, ha₁, ha₂, ha₃, hp, if_true, ite_self, List.mem_cons,
      List.not_mem_nil, or_false] at he
    simp only [virtPml4, virtPdpt, virtPd, virtPt] at he
    omega

theorem byte_linear {w : Waiter} {writeable : Bool} (hp : w.pages = some 0x1000)
    (h : w.buf + i < 2 ^ 39) : w.byte linear writeable i = some (2 ^ 40 + (w.buf + i)) := by
  have hmod : (w.buf + i) % 2 ^ 64 = w.buf + i := Nat.mod_eq_of_lt (by omega)
  have haddr : addrExtract (linearPe (2 ^ 28 + (w.buf + i) / 2 ^ 12)) + (w.buf + i) % PAGE_SIZE =
      2 ^ 40 + (w.buf + i) := by
    rw [addrExtract_linearPe (by omega), PAGE_SIZE]
    omega
  rw [Waiter.byte_some hp, physByte, hmod, pagedirVirt2phys_eq, (linear_walk h).1]
  simp only [Except.map, Option.elim_some, permits_linearPe, if_true, haddr]
  rw [if_neg (by omega)]

theorem tables_linear (hr : rdr.pages = some 0x1000) (hw : wtr.pages = some 0x1000)
    (hrb : rdr.buf + n ≤ 2 ^ 39) (hwb : wtr.buf + n ≤ 2 ^ 39) : Tables linear rdr wtr n := by
  have hlarge {w : Waiter} (hp : w.pages = some 0x1000) (hb : w.buf + n ≤ 2 ^ 39) :
      NoLarge linear w.pages w.buf n := by
    intro dir hdir i hi
    rw [hp] at hdir
    cases hdir
    rw [Nat.mod_eq_of_lt (by omega)]
    exact ⟨_, (linear_walk (by omega)).1⟩
  have hread {w : Waiter} {a : ℕ} (hp : w.pages = some 0x1000) (hb : w.buf + n ≤ 2 ^ 39)
      (ha : TableByte linear w.pages w.buf n a) : a < 2 ^ 39 := by
    obtain ⟨dir, hdir, i, hi, e, he, hle, hlt⟩ := ha
    rw [hp] at hdir
    cases hdir
    rw [Nat.mod_eq_of_lt (by omega)] at he
    have := (linear_walk (by omega)).2 e he
    omega
  refine ⟨hlarge hr hrb, hlarge hw hwb, fun i hi a ha => ?_⟩
  rw [byte_linear hr (by omega), Option.some_inj] at ha
  exact ⟨fun ht => by have := hread hr hrb ht; omega, fun ht => by have := hread hw hwb ht; omega⟩

-- A buffer of the process with these page tables.
def linearBuffer (buf len : ℕ) : Waiter :=
  ⟨some 0x1000, buf, len⟩

theorem pipeMove_short :
    (∃ t k, pipeMove linear (linearBuffer 0x10000 10) (linearBuffer 0x20000 3) = .ok t ∧
      Moved linear (linearBuffer 0x10000 10) (linearBuffer 0x20000 3) t k) ↔
      min 10 3 < 2 ^ 31 ∨ ∃ i ≤ min (min 10 3 % 2 ^ 32) (2 ^ 31 - 1),
        ¬Movable linear (linearBuffer 0x10000 10) (linearBuffer 0x20000 3) i :=
  pipeMove_iff (by decide) (by decide) (tables_linear rfl rfl (by decide) (by decide))

theorem movable_linear {buf buf' len len' : ℕ} (h : buf + i < 2 ^ 39) (h' : buf' + i < 2 ^ 39) :
    Movable linear (linearBuffer buf len) (linearBuffer buf' len') i := by
  refine ⟨?_, ?_⟩ <;> rw [byte_linear rfl (by assumption)] <;> exact Option.some_ne_none _

-- Both buffers have 4 GiB, which are no bytes at all as an `int`.
theorem pipeMove_huge :
    (∀ i < 2 ^ 32, Movable linear (linearBuffer (2 ^ 32) (2 ^ 32)) (linearBuffer (2 ^ 33) (2 ^ 32)) i) ∧
      ¬∃ t k, pipeMove linear (linearBuffer (2 ^ 32) (2 ^ 32)) (linearBuffer (2 ^ 33) (2 ^ 32)) = .ok t ∧
        Moved linear (linearBuffer (2 ^ 32) (2 ^ 32)) (linearBuffer (2 ^ 33) (2 ^ 32)) t k := by
  have hmap : ∀ i < 2 ^ 32,
      Movable linear (linearBuffer (2 ^ 32) (2 ^ 32)) (linearBuffer (2 ^ 33) (2 ^ 32)) i :=
    fun i hi => movable_linear (by omega) (by omega)
  refine ⟨hmap, fun ⟨t, k, hrun, hm⟩ => ?_⟩
  have ht : Tables linear (linearBuffer (2 ^ 32) (2 ^ 32)) (linearBuffer (2 ^ 33) (2 ^ 32)) (2 ^ 32) :=
    tables_linear rfl rfl (by decide) (by decide)
  refine pipeMove_truncates (by decide) (by decide) ht (by decide) (fun i hi => hmap i ?_) hrun hm
  exact (hi.trans (Nat.min_le_right _ _)).trans_lt (by decide)

end Linear

section Kernel

variable {s : State} {env : Env} {h sister : Hid} {p q : Pid} {v w : Proc} {len total : ℕ}
variable {m m' : Mem} {rdr wtr : Waiter}

-- If the copy between the processes transfers as many bytes as it does in the memory, then the kernel
-- returns to both of them what is said above.
theorem pipeTransfer_returns (hv : s.procs.get p = some v) (hw : s.procs.get q = some w)
    (hp : v.pages ≠ none) (hq : w.pages ≠ none) (hr : rdr.len = v.waitsLen) (hl : wtr.len = w.waitsLen)
    (hlen : toPtr (toInt32 (min v.waitsLen w.waitsLen : ℕ)) = len)
    (htotal : min (env.copied len) len = total) (hcopy : pcpyBiMem m rdr wtr len = .ok (total, m')) :
    wlp (pipeTransfer env h sister p q) (fun _ t => ∀ r, r = p ∨ r = q →
      ∃ x, t.procs.get r = some x ∧ pipeMove m rdr wtr = .ok ⟨m', toPtr x.rax, toPtr x.rax⟩) s := by
  have hmove : pipeMove m rdr wtr = .ok ⟨m', toPtr (toInt32 total), toPtr (toInt32 total)⟩ :=
    pipeMove_ok (by rw [hr, hl, hlen]) hcopy
  rw [hmove]
  clear hmove hcopy
  simp only [pipeTransfer, pcpyBi, wlp_bind, wlp_getProc, wlp_kassert, wlp_ite, wlp_pure, wlp_updHandle,
    wlp_procSetstate_running, wlp_regsSavereturn, State.withHandles_procs, State.withProcs_procs]
  intro v' hv' w' hw' _ _ x hx
  obtain rfl := Option.some_inj.mp (hv.symm.trans hv')
  obtain rfl := Option.some_inj.mp (hw.symm.trans hw')
  obtain rfl := Option.some_inj.mp (hv.symm.trans hx)
  refine ⟨fun hnone => absurd hnone hp, fun _ y hy => ?_⟩
  obtain rfl := Option.some_inj.mp (hw.symm.trans hy)
  refine ⟨fun hnone => absurd hnone hq, fun _ => ?_⟩
  rw [hlen, htotal]
  generalize toInt32 (total : ℕ) = ret
  intro _ _ _ _ _ _ _ _ _ _ y hy z hz r hr
  obtain rfl | rfl := hr
  · by_cases hpq : r = q
    case pos =>
      subst hpq
      exact ⟨_, Heap.get_set_self hz, rfl⟩
    case neg =>
      rw [Heap.get_set_ne hpq, Heap.get_set_self hy]
      exact ⟨_, rfl, rfl⟩
  · exact ⟨_, Heap.get_set_self hz, rfl⟩

end Kernel

end Camellia
