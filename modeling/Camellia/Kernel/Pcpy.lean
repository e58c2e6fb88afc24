import Camellia.Kernel.Paging
import Mathlib.Tactic.IntervalCases

namespace Camellia

structure VirtIter where
  frag : ℕ
  fragLen : ℕ
  -- The sum of all prior `fragLen`s.
  prior : ℕ
  error : Bool
  virt : ℕ
  remaining : ℕ
  pages : Option ℕ
  user : Bool
  writeable : Bool

-- Without `pages`, this is an iterator over physical memory.
def virtIterNew (virt length : ℕ) (pages : Option ℕ) (user writeable : Bool) : VirtIter where
  frag      := 0
  fragLen   := 0
  prior     := 0
  error     := false
  virt      := virt
  remaining := length
  pages     := pages
  user      := user
  writeable := writeable

def VirtIter.advance (iter : VirtIter) (frag len : ℕ) : VirtIter :=
  { iter with
    frag      := frag
    fragLen   := len
    remaining := iter.remaining - len
    virt      := (iter.virt + len) % 2 ^ 64 }

def virtIterNext (m : Mem) (iter : VirtIter) : Except Fault (Bool × VirtIter) := do
  let iter := { iter with prior := iter.prior + iter.fragLen }
  if iter.remaining = 0 then
    return (false, iter)
  else match iter.pages with
  | none     => return (true, iter.advance iter.virt iter.remaining)
  | some dir =>
    -- Page boundaries are not crossed.
    let toPage := PAGE_SIZE - iter.virt % PAGE_SIZE
    let frag ← pagedirVirt2phys m dir iter.virt iter.user iter.writeable
    if frag = 0 then
      return (false, { iter with frag := 0, error := true })
    else
      return (true, iter.advance frag (min iter.remaining toPage))

-- `frag_len <= 0 && !virt_iter_next(..)`, where `true` means that there is a fragment.
def virtIterFill (m : Mem) (iter : VirtIter) : Except Fault (Bool × VirtIter) :=
  if iter.fragLen = 0 then virtIterNext m iter else .ok (true, iter)

def VirtIter.consume (iter : VirtIter) (len : ℕ) : VirtIter :=
  { iter with fragLen := iter.fragLen - len, frag := iter.frag + len }

def virtCpyLoop : ℕ → Mem → (dest src : VirtIter) → (total : ℕ) →
    Except Fault (Mem × VirtIter × VirtIter × ℕ)
  | 0, _, _, _, _                => .error .outOfFuel
  | fuel + 1, m, dest, src, total => do
    let (more, dest) ← virtIterFill m dest
    if ¬more then
      return (m, dest, src, total)
    else
      let (more, src) ← virtIterFill m src
      if ¬more then
        return (m, dest, src, total)
      else
        let len := min src.fragLen dest.fragLen
        let m := memcpy m dest.frag src.frag len
        virtCpyLoop fuel m (dest.consume len) (src.consume len) (total + len)

def virtCpy (m : Mem) (destPages : Option ℕ) (dest : ℕ) (srcPages : Option ℕ) (src length : ℕ) :
    Except Fault (ℕ × Mem) := do
  let destIter := virtIterNew dest length destPages true true
  let srcIter := virtIterNew src length srcPages true false
  let (m, destIter, srcIter, total) ← virtCpyLoop (length + 1) m destIter srcIter 0
  if srcIter.error ∨ destIter.error then
    if total ≠ length then return (total, m) else throw (.assert .virtCpyTotal)
  else
    if total = length then return (total, m) else throw (.assert .virtCpyTotal)

-- The physical address of byte `i` of a range, if an access to it is permitted.
def physByte (m : Mem) (pages : Option ℕ) (virt : ℕ) (writeable : Bool) (i : ℕ) : Option ℕ :=
  match pages with
  | none     => some (virt + i)
  | some dir =>
    match pagedirVirt2phys m dir ((virt + i) % 2 ^ 64) true writeable with
    | .ok a    => if a = 0 then none else some a
    | .error _ => none

-- No lookup in the range meets a large page.
def NoLarge (m : Mem) (pages : Option ℕ) (virt length : ℕ) : Prop :=
  ∀ dir ∈ pages, ∀ i < length, ∃ pe, getEntry m dir ((virt + i) % 2 ^ 64) = .ok pe

-- The bytes of the tables through which the range is looked up.
def TableByte (m : Mem) (pages : Option ℕ) (virt length a : ℕ) : Prop :=
  ∃ dir ∈ pages, ∃ i < length, ∃ e ∈ entryReads m dir ((virt + i) % 2 ^ 64), e ≤ a ∧ a < e + 8

-- The state of an iterator over the range when `total` bytes were consumed, with respect to the
-- memory at the start.
structure VirtIter.At (m : Mem) (pages : Option ℕ) (virt length : ℕ) (w : Bool) (total : ℕ)
    (iter : VirtIter) : Prop where
  dir       : iter.pages = pages
  user      : iter.user = true
  writeable : iter.writeable = w
  error     : iter.error = false
  count     : total + iter.fragLen + iter.remaining = length
  frag      : ∀ j < iter.fragLen, physByte m pages virt w (total + j) = some (iter.frag + j)
  flat      : 0 < iter.remaining → pages = none → iter.virt = virt ∧ total + iter.fragLen = 0
  paged     : 0 < iter.remaining → pages ≠ none →
    iter.virt = (virt + (total + iter.fragLen)) % 2 ^ 64

section Iter

variable {m m' : Mem} {pages : Option ℕ} {virt length bound total : ℕ} {w : Bool} {iter : VirtIter}

theorem virtIterNew_at (h : 0 < length → pages ≠ none → virt < 2 ^ 64) :
    (virtIterNew virt length pages true w).At m pages virt length w 0 where
  dir       := rfl
  user      := rfl
  writeable := rfl
  error     := rfl
  count     := by simp [virtIterNew]
  frag      := by simp [virtIterNew]
  flat      := by simp [virtIterNew]
  paged     := fun hl hp => by
    have := Nat.mod_eq_of_lt (h hl hp)
    simp only [virtIterNew, Nat.add_zero, this]

theorem VirtIter.At.consume {len : ℕ} (h : iter.At m pages virt length w total)
    (hlen : len ≤ iter.fragLen) : (iter.consume len).At m pages virt length w (total + len) where
  dir       := h.dir
  user      := h.user
  writeable := h.writeable
  error     := h.error
  count     := by
    have := h.count
    simp only [VirtIter.consume]
    omega
  frag      := fun j hj => by
    simp only [VirtIter.consume] at hj ⊢
    have := h.frag (len + j) (by omega)
    simpa [Nat.add_assoc] using this
  flat      := fun hr hp => by
    have := h.flat hr hp
    simp only [VirtIter.consume]
    omega
  paged     := fun hr hp => by
    have := h.paged hr hp
    simp only [VirtIter.consume]
    rw [this]
    congr 2
    omega

theorem pagedirVirt2phys_ok {dir i : ℕ} (hl : NoLarge m (some dir) virt length) (hi : i < length) :
    ∃ a, pagedirVirt2phys m dir ((virt + i) % 2 ^ 64) true w = .ok a := by
  have ⟨pe, hpe⟩ := hl dir rfl i hi
  rw [pagedirVirt2phys_eq, hpe]
  exact ⟨_, rfl⟩

-- Either the iterator has a fragment now, or it is at the end of its range or at a fault.
theorem virtIterFill_spec (h : iter.At m pages virt length w total)
    (hl : NoLarge m pages virt bound)
    (ht : ∀ a, TableByte m pages virt bound a → m' a = m a) (hb : total < length → total < bound) :
    ∃ more iter', virtIterFill m' iter = .ok (more, iter') ∧
      (more = true → iter'.At m pages virt length w total ∧ 0 < iter'.fragLen) ∧
      (more = false → iter'.error = false ∧ total = length ∨
        iter'.error = true ∧ total < length ∧ physByte m pages virt w total = none) := by
  simp only [virtIterFill]
  split
  case isFalse hf => exact ⟨true, iter, rfl, fun _ => ⟨h, Nat.pos_of_ne_zero hf⟩, by simp⟩
  case isTrue hf =>
    have hcount := h.count
    simp only [virtIterNext]
    split
    case isTrue hr => exact ⟨false, _, rfl, by simp, fun _ => .inl ⟨h.error, by omega⟩⟩
    case isFalse hr =>
      cases pages
      case none =>
        have ⟨hv, ht⟩ := h.flat (Nat.pos_of_ne_zero hr) rfl
        simp only [h.dir]
        refine ⟨true, _, rfl, fun _ => ⟨?_, Nat.pos_of_ne_zero hr⟩, by simp⟩
        refine ⟨rfl, h.user, h.writeable, h.error, ?_, ?_, ?_, ?_⟩
        · simp only [VirtIter.advance]
          omega
        · intro j _
          simp only [VirtIter.advance, physByte, hv, Option.some.injEq]
          omega
        · simp [VirtIter.advance]
        · simp [VirtIter.advance]
      case some dir =>
        have hv := h.paged (Nat.pos_of_ne_zero hr) (by simp)
        simp only [hf, Nat.add_zero] at hv
        have hbound : total < bound := hb (by omega)
        have ⟨a, ha⟩ := pagedirVirt2phys_ok (w := w) (i := total) hl hbound
        have ha' : pagedirVirt2phys m' dir iter.virt iter.user iter.writeable = .ok a := by
          rw [h.user, h.writeable, hv, ← ha]
          refine pagedirVirt2phys_congr fun e he i hi => ht _ ?_
          exact ⟨dir, rfl, total, hbound, e, he, by omega, by omega⟩
        simp only [h.dir, ha', bind, Except.bind, pure, Except.pure]
        split
        case isTrue hz =>
          refine ⟨false, _, rfl, by simp, fun _ => .inr ⟨rfl, by omega, ?_⟩⟩
          simp only [physByte, ha, hz, if_true]
        case isFalse hz =>
          refine ⟨true, _, rfl, fun _ => ⟨?_, ?_⟩, by simp⟩
          · refine ⟨rfl, h.user, h.writeable, h.error, ?_, ?_, ?_, ?_⟩
            · simp only [VirtIter.advance]
              omega
            · intro j hj
              simp only [VirtIter.advance, Nat.lt_min] at hj ⊢
              rw [hv] at hj
              have hoff : (virt + total) % 2 ^ 64 % PAGE_SIZE + j < PAGE_SIZE := by
                simp only [PAGE_SIZE] at hj ⊢
                omega
              have hpage := pagedirVirt2phys_page hoff ha hz
              have hmod : (virt + (total + j)) % 2 ^ 64 = (virt + total) % 2 ^ 64 + j := by
                simp only [PAGE_SIZE] at hj
                omega
              simp only [physByte, hmod, hpage]
              rw [if_neg (by omega)]
            · simp
            · intro _ _
              simp only [VirtIter.advance, hv]
              omega
          · simp only [VirtIter.advance, PAGE_SIZE]
            omega

end Iter

-- The first `k` bytes were copied byte by byte, and nothing else has changed.
structure Copied (m m' : Mem) (dest src : ℕ → Option ℕ) (k : ℕ) : Prop where
  copied : ∀ i < k, ∃ a b, dest i = some a ∧ src i = some b ∧ m' a = m b
  frame  : ∀ a, (∀ i < k, dest i ≠ some a) → m' a = m a

-- The ranges do not get in each other's way: what is written is neither read, nor written twice,
-- nor a part of the page tables.
structure Apart (m : Mem) (dp : Option ℕ) (dest : ℕ) (sp : Option ℕ) (src length : ℕ) : Prop where
  images    : ∀ i < length, ∀ j < length, ∀ a,
    physByte m dp dest true i = some a → physByte m sp src false j ≠ some a
  injective : ∀ i < length, ∀ j < length, ∀ a,
    physByte m dp dest true i = some a → physByte m dp dest true j = some a → i = j
  tables    : ∀ i < length, ∀ a, physByte m dp dest true i = some a →
    ¬TableByte m dp dest length a ∧ ¬TableByte m sp src length a

section Copy

variable {m m₁ : Mem} {dp sp : Option ℕ} {dest src length bound total : ℕ} {di si : VirtIter}

theorem Copied.memcpy {len : ℕ} (ha : Apart m dp dest sp src bound)
    (hc : Copied m m₁ (physByte m dp dest true) (physByte m sp src false) total)
    (hd : di.At m dp dest length true total) (hs : si.At m sp src length false total)
    (hld : len ≤ di.fragLen) (hls : len ≤ si.fragLen) (hlen : total + len ≤ bound) :
    Copied m (memcpy m₁ di.frag si.frag len) (physByte m dp dest true) (physByte m sp src false)
      (total + len) := by
  -- The fragments do not overlap, or else a byte would be both written and read.
  have hover : di.frag ≤ si.frag ∨ si.frag + len ≤ di.frag := by
    by_contra hn
    have h₁ := hd.frag 0 (by omega)
    have h₂ := hs.frag (di.frag - si.frag) (by omega)
    refine ha.images total (by omega) (total + (di.frag - si.frag)) (by omega) _ h₁ ?_
    rw [h₂]
    congr 1
    omega
  rw [memcpy_eq_blit hover]
  have hin (i : ℕ) (hi : i < total) (a : ℕ) (hda : physByte m dp dest true i = some a) :
      ¬(di.frag ≤ a ∧ a < di.frag + len) := fun hr => by
    have := hd.frag (a - di.frag) (by omega)
    have := ha.injective i (by omega) (total + (a - di.frag)) (by omega) a hda (by
      rw [this]
      congr 1
      omega)
    omega
  refine ⟨fun i hi => ?_, fun a hna => ?_⟩
  · by_cases hit : i < total
    case pos =>
      have ⟨a, b, hda, hsb, hab⟩ := hc.copied i hit
      exact ⟨a, b, hda, hsb, by rw [Mem.blit_not_mem (hin i hit a hda), hab]⟩
    case neg =>
      have hda := hd.frag (i - total) (by omega)
      have hsb := hs.frag (i - total) (by omega)
      rw [show total + (i - total) = i by omega] at hda hsb
      refine ⟨_, _, hda, hsb, ?_⟩
      rw [Mem.blit_add (by omega)]
      refine hc.frame _ fun j hj hdj => ?_
      exact ha.images j (by omega) i (by omega) _ hdj hsb
  · have hout : ¬(di.frag ≤ a ∧ a < di.frag + len) := fun hr => by
      refine hna (total + (a - di.frag)) (by omega) ?_
      rw [hd.frag (a - di.frag) (by omega)]
      congr 1
      omega
    rw [Mem.blit_not_mem hout]
    exact hc.frame a fun i hi => hna i (by omega)

-- Bytes which can be copied come before the first one which cannot.
theorem le_bound (hb : bound = length ∨ ∃ i < bound, physByte m dp dest true i = none ∨
      physByte m sp src false i = none) (hle : total ≤ length)
    (hmap : ∀ i < total, physByte m dp dest true i ≠ none ∧ physByte m sp src false i ≠ none) :
    total ≤ bound ∧ (total < length → total < bound) := by
  obtain rfl | ⟨i, hi, hn⟩ := hb
  · exact ⟨hle, id⟩
  · have : total ≤ i := by
      by_contra hlt
      have := hmap i (by omega)
      tauto
    omega

-- What says that the page tables are as they were, and is preserved by the copy of a fragment.
structure CopyInvariant (m : Mem) (dp : Option ℕ) (dest : ℕ) (sp : Option ℕ) (src length bound : ℕ)
    (I : ℕ → Mem → Prop) : Prop where
  tables : ∀ k m₁ a, I k m₁ → TableByte m dp dest bound a ∨ TableByte m sp src bound a → m₁ a = m a
  step   : ∀ k m₁ (di si : VirtIter) len, I k m₁ → di.At m dp dest length true k →
    si.At m sp src length false k → len ≤ di.fragLen → len ≤ si.fragLen → k + len ≤ bound →
    I (k + len) (memcpy m₁ di.frag si.frag len)

-- Nothing is demanded of the addresses behind the first byte that faults.
theorem virtCpyLoop_rule {fuel : ℕ} {I : ℕ → Mem → Prop}
    (hld : NoLarge m dp dest bound) (hls : NoLarge m sp src bound)
    (hb : bound = length ∨ ∃ i < bound, physByte m dp dest true i = none ∨
      physByte m sp src false i = none)
    (hI : CopyInvariant m dp dest sp src length bound I) (hinv : I total m₁)
    (hmap : ∀ i < total, physByte m dp dest true i ≠ none ∧ physByte m sp src false i ≠ none)
    (hd : di.At m dp dest length true total) (hs : si.At m sp src length false total)
    (hfuel : length - total < fuel) :
    ∃ m' di' si' k, virtCpyLoop fuel m₁ di si total = .ok (m', di', si', k) ∧ I k m' ∧
      (∀ i < k, physByte m dp dest true i ≠ none ∧ physByte m sp src false i ≠ none) ∧
      (di'.error = false ∧ si'.error = false ∧ k = length ∨
        (di'.error = true ∨ si'.error = true) ∧ k < length ∧
          (physByte m dp dest true k = none ∨ physByte m sp src false k = none)) := by
  induction fuel generalizing m₁ di si total
  case zero => contradiction
  case succ fuel hi =>
    have hle : total ≤ length := by
      have := hd.count
      omega
    have hbound := (le_bound hb hle hmap).2
    have ⟨more, di', hdn, hdt, hdf⟩ :=
      virtIterFill_spec hd hld (fun a h => hI.tables total m₁ a hinv (.inl h)) hbound
    simp only [virtCpyLoop, hdn, bind, Except.bind]
    cases more
    case false =>
      refine ⟨_, _, _, _, rfl, hinv, hmap, (hdf rfl).imp ?_ ?_⟩
      · exact fun ⟨he, hk⟩ => ⟨he, hs.error, hk⟩
      · exact fun ⟨he, hk, hn⟩ => ⟨.inl he, hk, .inl hn⟩
    case true =>
      have ⟨hd', hdp⟩ := hdt rfl
      have ⟨more, si', hsn, hst, hsf⟩ :=
        virtIterFill_spec hs hls (fun a h => hI.tables total m₁ a hinv (.inr h)) hbound
      simp only [hsn]
      cases more
      case false =>
        refine ⟨_, _, _, _, rfl, hinv, hmap, (hsf rfl).imp ?_ ?_⟩
        · exact fun ⟨he, hk⟩ => ⟨hd'.error, he, hk⟩
        · exact fun ⟨he, hk, hn⟩ => ⟨.inr he, hk, .inr hn⟩
      case true =>
        have ⟨hs', hsp⟩ := hst rfl
        have hmd : min si'.fragLen di'.fragLen ≤ di'.fragLen := Nat.min_le_right _ _
        have hms : min si'.fragLen di'.fragLen ≤ si'.fragLen := Nat.min_le_left _ _
        have hcount := hd'.count
        have hmap' : ∀ i < total + min si'.fragLen di'.fragLen,
            physByte m dp dest true i ≠ none ∧ physByte m sp src false i ≠ none := by
          intro i hlt
          by_cases hit : i < total
          case pos => exact hmap i hit
          case neg =>
            have hda := hd'.frag (i - total) (by omega)
            have hsb := hs'.frag (i - total) (by omega)
            rw [show total + (i - total) = i by omega] at hda hsb
            simp [hda, hsb]
        have hlen := (le_bound hb (by omega) hmap').1
        exact hi (hI.step _ _ _ _ _ hinv hd' hs' hmd hms hlen) hmap' (hd'.consume hmd) (hs'.consume hms)
          (by omega)

theorem virtCpy_rule {I : ℕ → Mem → Prop} (hd : 0 < length → dp ≠ none → dest < 2 ^ 64)
    (hs : 0 < length → sp ≠ none → src < 2 ^ 64)
    (hld : NoLarge m dp dest bound) (hls : NoLarge m sp src bound)
    (hb : bound = length ∨ ∃ i < bound, physByte m dp dest true i = none ∨
      physByte m sp src false i = none)
    (hI : CopyInvariant m dp dest sp src length bound I) (hinv : I 0 m) :
    ∃ k m', virtCpy m dp dest sp src length = .ok (k, m') ∧ I k m' ∧
      (∀ i < k, physByte m dp dest true i ≠ none ∧ physByte m sp src false i ≠ none) ∧
      (k = length ∨ k < length ∧
        (physByte m dp dest true k = none ∨ physByte m sp src false k = none)) := by
  have hfuel : length - 0 < length + 1 := Nat.lt_succ_self _
  have ⟨m', di', si', k, hrun, hcopy, hmap, hend⟩ := virtCpyLoop_rule hld hls hb hI hinv
    (fun _ h => nomatch h) (virtIterNew_at hd) (virtIterNew_at hs) hfuel
  refine ⟨k, m', ?_, hcopy, hmap, ?_⟩
  · simp only [virtCpy, hrun, bind, Except.bind]
    obtain ⟨hde, hse, hk⟩ | ⟨he, hk, -⟩ := hend
    · simp [hde, hse, hk, pure, Except.pure]
    · simp [he.symm, hk.ne, pure, Except.pure]
  · exact hend.imp (fun h => h.2.2) fun h => h.2

theorem Copied.tables (ha : Apart m dp dest sp src bound) (hle : total ≤ bound)
    (hc : Copied m m₁ (physByte m dp dest true) (physByte m sp src false) total) {a : ℕ}
    (ht : TableByte m dp dest bound a ∨ TableByte m sp src bound a) : m₁ a = m a := by
  refine hc.frame a fun i hi hda => ?_
  have := ha.tables i (by omega) a hda
  tauto

theorem virtCpy_spec (hd : 0 < length → dp ≠ none → dest < 2 ^ 64)
    (hs : 0 < length → sp ≠ none → src < 2 ^ 64)
    (hld : NoLarge m dp dest bound) (hls : NoLarge m sp src bound)
    (hb : bound = length ∨ ∃ i < bound, physByte m dp dest true i = none ∨
      physByte m sp src false i = none)
    (ha : Apart m dp dest sp src bound) :
    ∃ k m', virtCpy m dp dest sp src length = .ok (k, m') ∧
      Copied m m' (physByte m dp dest true) (physByte m sp src false) k ∧
      (k = length ∨ k < length ∧
        (physByte m dp dest true k = none ∨ physByte m sp src false k = none)) := by
  have hzero : Copied m m (physByte m dp dest true) (physByte m sp src false) 0 :=
    ⟨by simp, fun _ _ => rfl⟩
  have ⟨k, m', hrun, hc, _, hend⟩ := virtCpy_rule
    (I := fun k m₁ => k ≤ bound ∧ Copied m m₁ (physByte m dp dest true) (physByte m sp src false) k)
    hd hs hld hls hb ⟨fun _ _ _ hc => hc.2.tables ha hc.1,
      fun _ _ _ _ _ hc hd hs hld hls hle => ⟨hle, hc.2.memcpy ha hd hs hld hls hle⟩⟩
    ⟨Nat.zero_le _, hzero⟩
  exact ⟨k, m', hrun, hc.2, hend⟩

-- `k` is the length of the longest prefix of `[0, length)` on which `p` holds.
structure LongestPrefix (length : ℕ) (p : ℕ → Prop) (k : ℕ) : Prop where
  le    : k ≤ length
  holds : ∀ i < k, p i
  fails : k < length → ¬p k

-- The copy between address spaces is a copy byte by byte, up to the first byte which faults.
theorem virtCpy_bytewise (hd : dest + length ≤ 2 ^ 64) (hs : src + length ≤ 2 ^ 64)
    (hld : NoLarge m dp dest length) (hls : NoLarge m sp src length)
    (ha : Apart m dp dest sp src length) :
    ∃ k m', virtCpy m dp dest sp src length = .ok (k, m') ∧
      LongestPrefix length (fun i => physByte m dp dest true i ≠ none ∧
        physByte m sp src false i ≠ none) k ∧
      Copied m m' (physByte m dp dest true) (physByte m sp src false) k := by
  have ⟨k, m', hrun, hcopy, hend⟩ :=
    virtCpy_spec (fun _ _ => by omega) (fun _ _ => by omega) hld hls (.inl rfl) ha
  refine ⟨k, m', hrun, ⟨by omega, fun i hi => ?_, fun hk hp => ?_⟩, hcopy⟩
  · have ⟨a, b, hda, hsb, _⟩ := hcopy.copied i hi
    simp [hda, hsb]
  · have := hend.resolve_left hk.ne
    tauto

end Copy

-- Page tables at 0x1000 which map the user's pages 0x200000 and 0x201000 to the frames at 0x5000
-- and 0x8000.
def twoPagesWords (i : ℕ) : ℕ :=
  if i = 0x1000 / 8 then 0x2007
  else if i = 0x2000 / 8 then 0x3007
  else if i = 0x3008 / 8 then 0x4007
  else if i = 0x4000 / 8 then 0x5007
  else if i = 0x4008 / 8 then 0x8007
  else 0

def twoPages : Mem :=
  .ofWords twoPagesWords

theorem virtCpy_bytewise_boundary :
    ∃ k m', virtCpy twoPages none 0x9000 (some 0x1000) 0x200FFF 2 = .ok (k, m') ∧
      LongestPrefix 2 (fun i => physByte twoPages none 0x9000 true i ≠ none ∧
        physByte twoPages (some 0x1000) 0x200FFF false i ≠ none) k ∧
      Copied twoPages m' (physByte twoPages none 0x9000 true)
        (physByte twoPages (some 0x1000) 0x200FFF false) k := by
  have h₀ : physByte twoPages (some 0x1000) 0x200FFF false 0 = some 0x5FFF := by decide
  have h₁ : physByte twoPages (some 0x1000) 0x200FFF false 1 = some 0x8000 := by decide
  have hlarge : NoLarge twoPages (some 0x1000) 0x200FFF 2 := by
    intro dir hdir i hi
    cases hdir
    interval_cases i <;> exact ⟨_, rfl⟩
  refine virtCpy_bytewise (by decide) (by decide) (fun _ h => nomatch h) hlarge ⟨?_, ?_, ?_⟩
  · intro i _ j hj a hi
    simp only [physByte, Option.some.injEq] at hi
    interval_cases j
    · rw [h₀]
      simp
      omega
    · rw [h₁]
      simp
      omega
  · intro i _ j _ a hi hj
    simp only [physByte, Option.some.injEq] at hi hj
    omega
  · intro i _ a hi
    simp only [physByte, Option.some.injEq] at hi
    refine ⟨fun ⟨dir, hdir, _⟩ => by simp at hdir, ?_⟩
    rintro ⟨dir, hdir, j, hj, e, he, hle, hlt⟩
    cases hdir
    have hreads : e < 0x5000 := by
      interval_cases j
      · have : entryReads twoPages 0x1000 ((0x200FFF + 0) % 2 ^ 64) =
          [0x1000, 0x2000, 0x3008, 0x4000] := by decide
        simp_all
        omega
      · have : entryReads twoPages 0x1000 ((0x200FFF + 1) % 2 ^ 64) =
          [0x1000, 0x2000, 0x3008, 0x4008] := by decide
        simp_all
        omega
    omega

end Camellia
