import Camellia.Libc.StringBasic
import Camellia.Libk.Path
import Mathlib.Algebra.Ring.Int.Defs
import Mathlib.Data.List.DropRight

namespace Camellia.Tar

def BUF_SIZE : ℕ := 64

def ustar : List UInt8 :=
  "ustar".toList.map Char.toUInt8

-- `memcmp`, for the bytes at both addresses.
def memcmp : List UInt8 → List UInt8 → Int
  | c₁ :: s₁, c₂ :: s₂ => if c₁ ≠ c₂ then if c₁ < c₂ then -1 else 1 else memcmp s₁ s₂
  | _, _               => 0

def strnlen (m : Mem) (s : ℕ) : (len : ℕ) → ℕ
  | 0       => 0
  | len + 1 => if m s = 0 then 0 else strnlen m (s + 1) len + 1

-- An `int`, which must not overflow.
def int (x : Int) : Option Int :=
  if -2 ^ 31 ≤ x ∧ x < 2 ^ 31 then some x else none

-- The loop of `oct_parse` over the characters which are left.
def octParse : (str : List UInt8) → (res : Int) → Option Int
  | [], res       => some res
  | c :: str, res => do
    let res ← int (res * 8)
    let res ← int (res + ((char c).toInt - 48))
    octParse str res

def tarSize (m : Mem) (sector : ℕ) : Option Int :=
  octParse (m.slice (sector + 124) 11) 0

-- `off += 512; off += padded & ~511;`
def advance (off : ℕ) (padded : Int) : ℕ :=
  ((off + 512 + (padded - padded % 512)) % 2 ^ 64).toNat

-- The loop of `tar_find`, with `n` iterations left. The result is `none` if an `int` overflows, and `some none` for NULL.
def tarFindLoop (m : Mem) (path : List UInt8) (base baseLen : ℕ) : (n off : ℕ) → Option (Option ℕ)
  | 0, _       => none
  | n + 1, off =>
    if off < baseLen then
      if memcmp (m.slice (base + off + 257) 5) ustar ≠ 0 then
        some none
      else if memcmp (m.slice (base + off) path.length) path = 0 ∧ m (base + off + path.length) = 0 then
        some (some (base + off))
      else do
        let size ← tarSize m (base + off)
        let padded ← int (size + 511)
        tarFindLoop m path base baseLen n (advance off padded)
    else
      some none

def tarFind (m : Mem) (path : List UInt8) (base baseLen : ℕ) : Option (Option ℕ) :=
  if 100 < path.length then some none else tarFindLoop m path base baseLen (2 ^ 64) 0

-- What `tar_open` returns, where `root` is the fake entry.
inductive Entry
  | root
  | sector (a : ℕ)
  deriving DecidableEq

def tarType (m : Mem) : Entry → UInt8
  | .root     => '5'.toUInt8
  | .sector a => m (a + 156)

-- The name in the header of a hard link.
def linkname (m : Mem) (a : ℕ) : List UInt8 :=
  m.slice (a + 157) (strnlen m (a + 157) 100)

def withoutSlash (path : List UInt8) : List UInt8 :=
  if path.head? = some slash then path.tail else path

-- The part of `tar_open` which looks for what a hard link names.
def followLink (m : Mem) (res : Option ℕ) (base baseLen : ℕ) : Option (Option ℕ) :=
  match res with
  | none   => some none
  | some a => if tarType m (.sector a) = '1'.toUInt8 then tarFind m (linkname m a) base baseLen else some (some a)

def tarOpen (m : Mem) (path : List UInt8) (base baseLen : ℕ) : Option (Option Entry) :=
  if path = [] then
    some none
  else
    let path := withoutSlash path
    if path = [] then
      some (some .root)
    else do
      let res ← tarFind m path base baseLen
      let res ← followLink m res base baseLen
      return res.map .sector

-- The part of `vfs_backend_user_accept` which copies the path to the buffer of the driver.
def accept (path : List UInt8) (maxLen : ℕ) : List UInt8 :=
  path.take (min path.length maxLen)

-- What `tar_driver` does with an open request.
def tarDriverOpen (m : Mem) (base : ℕ) (path : List UInt8) : Option (Option Entry) :=
  tarOpen m (accept path BUF_SIZE) base (2 ^ 64 - 1)

-- A member of an archive.
structure Member where
  name     : List UInt8
  linkname : List UInt8
  type     : UInt8
  size     : ℕ
  named    : name ≠ []
  nameLen  : name.length ≤ 100
  nameNul  : 0 ∉ name
  linkLen  : linkname.length ≤ 100
  linkNul  : 0 ∉ linkname
  small    : size < 2 ^ 31

-- The `n` octal digits of a number.
def octal : (n k : ℕ) → List UInt8
  | 0, _     => []
  | n + 1, k => octal n (k / 8) ++ [UInt8.ofNat (48 + k % 8)]

-- A string in a field of 100 bytes.
def field (str : List UInt8) : List UInt8 :=
  str ++ List.replicate (100 - str.length) 0

-- The sector in front of the data of a member, whose mode begins with a digit.
structure Header (m : Mem) (a : ℕ) (x : Member) : Prop where
  name     : m.slice a 100 = field x.name
  mode     : m (a + 100) ≠ 0
  size     : m.slice (a + 124) 11 = octal 11 x.size
  type     : m (a + 156) = x.type
  linkname : m.slice (a + 157) 100 = field x.linkname
  magic    : m.slice (a + 257) 5 = ustar
  pre      : m (a + 345) = 0

def sectors (size : ℕ) : ℕ :=
  512 + (size + 511) / 512 * 512

-- The members follow one another, and what is behind the last one is no header.
def Archive (m : Mem) (base : ℕ) : (off : ℕ) → List Member → Prop
  | off, []      => m.slice (base + off + 257) 5 ≠ ustar ∧ off < 2 ^ 64 - 1
  | off, x :: xs => Header m (base + off) x ∧ Archive m base (off + sectors x.size) xs

structure WellFormed (m : Mem) (base : ℕ) (xs : List Member) : Prop where
  archive : Archive m base 0 xs
  links   : ∀ x ∈ xs, x.type = '1'.toUInt8 → ∃ y ∈ xs, y.name = x.linkname

-- The first member with a property, and its offset.
def first (p : Member → Bool) : (off : ℕ) → List Member → Option (ℕ × Member)
  | _, []        => none
  | off, x :: xs => if p x then some (off, x) else first p (off + sectors x.size) xs

-- No `int` overflows on the way to the first member with a property.
def Reaches (p : Member → Bool) : List Member → Prop
  | []      => True
  | x :: xs => p x ∨ x.size + 511 < 2 ^ 31 ∧ Reaches p xs

instance decidableReaches (p : Member → Bool) : (xs : List Member) → Decidable (Reaches p xs)
  | []      => isTrue trivial
  | _ :: xs =>
    have := decidableReaches p xs
    inferInstanceAs <| Decidable (_ ∨ _)

-- The member which a name stands for, if the names are compared by `p`.
def follow (p : List UInt8 → Member → Bool) (xs : List Member) (name : List UInt8) : Option ℕ :=
  (first (p name) 0 xs).bind fun (off, x) =>
    if x.type = '1'.toUInt8 then (first (p x.linkname) 0 xs).map Prod.fst else some off

def named (name : List UInt8) (x : Member) : Bool :=
  x.name = name

-- There is no NUL behind a name of 100 bytes.
def found (name : List UInt8) (x : Member) : Bool :=
  name.length < 100 ∧ x.name = name

-- What an open should yield.
def resolve (base : ℕ) (xs : List Member) (path : List UInt8) : Option Entry :=
  if path = [slash] then some .root else (follow named xs (withoutSlash path)).map fun off => .sector (base + off)

-- The name which the driver looks for, since NULs at the end of a path match those of the field.
def seen (path : List UInt8) : List UInt8 :=
  (withoutSlash (accept path BUF_SIZE)).rdropWhile (· = 0)

-- `off` is where `p` is, or the first member of the name which it links to.
def Leads (xs : List Member) (p : ℕ × Member) (off : ℕ) : Prop :=
  if p.snd.type = '1'.toUInt8 then ∃ y, first (named p.snd.linkname) 0 xs = some (off, y) else p.fst = off

-- A link to a name of 100 bytes leads the driver to nothing.
def Followed (p : ℕ × Member) : Prop :=
  p.snd.type = '1'.toUInt8 → p.snd.linkname.length < 100

instance (p : ℕ × Member) : Decidable (Followed p) :=
  inferInstanceAs <| Decidable (_ → _)

-- The name which the driver sees stands for the same member as that of the path.
inductive Same (xs : List Member) (path : List UInt8) : Prop
  -- The driver sees the whole path.
  | whole (hlen : path.length ≤ BUF_SIZE) (hnul : path.getLast? ≠ some 0)
    (htarget : ∀ p ∈ first (named (withoutSlash path)) 0 xs, Followed p)
  -- The path names no member, and the name which is seen at most a link that leads to nothing.
  | missing (hpath : ∀ x ∈ xs, x.name ≠ withoutSlash path) (hseen : ∀ p ∈ first (named (seen path)) 0 xs, ¬Followed p)
  -- By links, both names lead to one member.
  | linked {p q : ℕ × Member} {off : ℕ} (hseen : p ∈ first (named (seen path)) 0 xs) (htarget : Followed p)
    (hpath : q ∈ first (named (withoutSlash path)) 0 xs) (hp : Leads xs p off) (hq : Leads xs q off)

-- No size on the way overflows, and what the driver sees of the path is enough.
structure Delivered (xs : List Member) (path : List UInt8) : Prop where
  reaches : Reaches (found (seen path)) xs
  links   : ∀ p ∈ first (found (seen path)) 0 xs, p.snd.type = '1'.toUInt8 → Reaches (found p.snd.linkname) xs
  same    : Same xs path

section Parse

variable {s₁ s₂ str : List UInt8} {n k : ℕ} {m : Mem} {s : ℕ}

theorem memcmp_eq_zero (h : s₁.length = s₂.length) : memcmp s₁ s₂ = 0 ↔ s₁ = s₂ := by
  induction s₁ generalizing s₂
  case nil =>
    obtain rfl := List.length_eq_zero_iff.mp h.symm
    simp [memcmp]
  case cons c₁ s₁ hi =>
    obtain ⟨c₂, s₂, rfl⟩ := List.exists_cons_of_length_eq_add_one h.symm
    rw [memcmp, List.cons.injEq, ← hi (by simpa using h)]
    split_ifs with hne <;> simp_all

theorem int_eq {x : Int} (h : -2 ^ 31 ≤ x) (h' : x < 2 ^ 31) : int x = some x :=
  if_pos ⟨h, h'⟩

theorem octParse_octal (hk : k < 8 ^ n) (h : k < 2 ^ 31) : octParse (octal n k ++ str) 0 = octParse str k := by
  induction n generalizing k str
  case zero =>
    obtain rfl : k = 0 := by omega
    rfl
  case succ n hi =>
    have hdigit : (char (UInt8.ofNat (48 + k % 8))).toInt - 48 = (k % 8 : ℕ) := by
      have hlt : 48 + k % 8 < 256 := by omega
      rw [toInt_char, UInt8.toNat_ofNat_of_lt' hlt, if_pos (by omega)]
      omega
    rw [octal, List.append_assoc, hi (by rw [Nat.pow_succ] at hk; omega) (by omega), List.singleton_append, octParse,
      hdigit, int_eq (by omega) (by omega), Option.bind_eq_bind, Option.bind_some, int_eq (by omega) (by omega),
      Option.bind_some]
    congr 1
    omega

-- What is in front of the first NUL of a field.
theorem strnlen_eq (h0 : 0 ∉ str) (hm : m.slice s n = str ++ List.replicate (n - str.length) 0) (hn : str.length ≤ n) :
    m.slice s (strnlen m s n) = str := by
  induction n generalizing s str
  case zero =>
    obtain rfl := List.length_eq_zero_iff.mp (Nat.le_zero.mp hn)
    rfl
  case succ n hi =>
    rw [Nat.add_comm n 1, Mem.slice_add] at hm
    rw [strnlen]
    cases str
    case nil =>
      have hz : m s = 0 := by simpa [Mem.slice, List.replicate_succ, Nat.add_comm 1 n] using congrArg List.head? hm
      rw [if_pos hz]
      rfl
    case cons c str =>
      rw [List.mem_cons, not_or] at h0
      rw [List.length_cons] at hn hm
      have hc : m s = c ∧ m.slice (s + 1) n = str ++ List.replicate (n - str.length) 0 := by
        simpa [Mem.slice, show 1 + n - (str.length + 1) = n - str.length by omega] using hm
      rw [if_neg (hc.left ▸ Ne.symm h0.left), Nat.add_comm (strnlen _ _ _), Mem.slice_add,
        hi h0.right hc.right (by omega)]
      simp [Mem.slice, hc.left]

-- NULs behind a name are removed from a path.
theorem rdropWhile_replicate (h0 : 0 ∉ str) : (str ++ List.replicate k 0).rdropWhile (· = 0) = str := by
  induction k
  case zero =>
    rw [List.replicate_zero, List.append_nil, List.rdropWhile_eq_self_iff]
    exact fun hl hz => h0 (of_decide_eq_true hz ▸ List.getLast_mem hl)
  case succ k hi =>
    rw [List.replicate_succ', ← List.append_assoc, List.rdropWhile_concat_pos _ _ _ (by simp), hi]

theorem exists_replicate : ∃ k, str = str.rdropWhile (· = 0) ++ List.replicate k 0 := by
  induction str using List.reverseRecOn
  case nil => exact ⟨0, rfl⟩
  case append_singleton str c hi =>
    by_cases hc : c = 0
    case pos =>
      obtain ⟨k, hk⟩ := hi
      refine ⟨k + 1, ?_⟩
      rw [List.rdropWhile_concat_pos _ _ _ (by simp [hc]), List.replicate_succ', ← List.append_assoc, ← hk, hc]
    case neg => exact ⟨0, by rw [List.rdropWhile_concat_neg _ _ _ (by simpa using hc)]; simp⟩

end Parse

section Find

variable {m : Mem} {a base off n : ℕ} {x : Member} {xs : List Member} {path name : List UInt8}

theorem slice_take (h : n ≤ 100) : m.slice a n = (m.slice a 100).take n := by
  obtain ⟨k, hk⟩ := Nat.exists_eq_add_of_le h
  rw [hk, Mem.slice_add, List.take_left' Mem.length_slice]

theorem field_take (h : name.length ≤ n) (hn : n ≤ 100) :
    (field name).take n = name ++ List.replicate (n - name.length) 0 := by
  rw [field, List.take_append, List.take_of_length_le h, List.take_replicate, Nat.min_eq_left (by omega)]

theorem Header.byte (h : Header m a x) (hn : n < 100) : m (a + n) = 0 ↔ x.name.length ≤ n := by
  have hlen : n < (field x.name).length := by
    simp [field]
    omega
  have hbyte : m (a + n) = (field x.name)[n] := by
    simp only [← h.name, Mem.getElem_slice]
  rw [hbyte]
  by_cases hle : x.name.length ≤ n
  case pos =>
    refine iff_of_true ?_ hle
    simp [field, List.getElem_append_right hle]
  case neg =>
    refine iff_of_false (fun hz => x.nameNul ?_) hle
    rw [← hz]
    simp only [field, List.getElem_append_left (Nat.lt_of_not_le hle)]
    exact List.getElem_mem _

-- A header matches a path of less than 100 bytes up to NULs, and one of 100 bytes never.
theorem Header.matches (h : Header m a x) (hp : path.length ≤ 100) (h0 : path.length = 100 → 0 ∉ path) :
    memcmp (m.slice a path.length) path = 0 ∧ m (a + path.length) = 0 ↔ found (path.rdropWhile (· = 0)) x := by
  rw [memcmp_eq_zero (by simp), found, decide_eq_true_iff]
  obtain hlt | heq := Nat.lt_or_eq_of_le hp
  case inl =>
    rw [h.byte hlt, slice_take hp, h.name]
    obtain ⟨k, hk⟩ := @exists_replicate path
    have hlen := congrArg List.length hk
    rw [List.length_append, List.length_replicate] at hlen
    constructor
    · rintro ⟨hs, hle⟩
      rw [field_take hle hp] at hs
      rw [← hs, rdropWhile_replicate x.nameNul]
      exact ⟨by omega, rfl⟩
    · rintro ⟨-, hx⟩
      rw [← hx] at hk hlen
      rw [field_take (by omega) hp, hlen, Nat.add_sub_cancel_left]
      exact ⟨hk.symm, by omega⟩
  case inr =>
    have htrim : path.rdropWhile (· = 0) = path := by
      simpa using rdropWhile_replicate (k := 0) (h0 heq)
    rw [htrim, heq]
    exact iff_of_false (fun hc => h.mode hc.right) fun hc => absurd hc.left (Nat.lt_irrefl _)

theorem advance_eq {size : ℕ} (h : off + sectors size < 2 ^ 64) : advance off (size + 511 : ℕ) = off + sectors size := by
  rw [sectors] at h ⊢
  rw [advance]
  have hmod : ((size + 511 : ℕ) : Int) - ((size + 511 : ℕ) : Int) % 512 = ((size + 511) / 512 * 512 : ℕ) := by
    omega
  rw [hmod]
  omega

theorem Archive.lt (h : Archive m base off xs) : off + 512 * xs.length < 2 ^ 64 - 1 := by
  induction xs generalizing off
  case nil => simpa using h.right
  case cons x xs hi =>
    have := hi h.right
    rw [sectors] at this
    rw [List.length_cons]
    omega

theorem Header.tarSize (h : Header m a x) : tarSize m a = some (x.size : Int) := by
  have hsmall := x.small
  have : octParse (octal 11 x.size ++ []) 0 = octParse [] x.size := octParse_octal (by omega) hsmall
  rw [List.append_nil] at this
  rw [Tar.tarSize, h.size, this]
  rfl

-- The walk over the members.
theorem tarFindLoop_eq {p : Member → Bool} (h : Archive m base off xs) (hn : xs.length < n)
    (hp : ∀ x ∈ xs, ∀ a, Header m a x → (memcmp (m.slice a path.length) path = 0 ∧ m (a + path.length) = 0 ↔ p x)) :
    (Reaches p xs → tarFindLoop m path base (2 ^ 64 - 1) n off = some ((first p off xs).map fun y => base + y.fst)) ∧
      (¬Reaches p xs → tarFindLoop m path base (2 ^ 64 - 1) n off = none) := by
  induction xs generalizing off n
  case nil =>
    obtain ⟨n, rfl⟩ : ∃ k, n = k + 1 := ⟨n - 1, by simp at hn; omega⟩
    refine ⟨fun _ => ?_, fun hr => absurd trivial hr⟩
    rw [tarFindLoop, if_pos h.right, if_pos]
    · rfl
    · rw [ne_eq, memcmp_eq_zero (by simp; rfl)]
      exact h.left
  case cons x xs hi =>
    obtain ⟨n, rfl⟩ : ∃ k, n = k + 1 := ⟨n - 1, by simp at hn; omega⟩
    have hlt := h.lt
    obtain ⟨hx, hxs⟩ := h
    have hmagic : ¬memcmp (m.slice (base + off + 257) 5) ustar ≠ 0 := by
      rw [hx.magic, ne_eq, not_not]
      decide
    rw [tarFindLoop, if_pos (by omega), if_neg hmagic]
    simp only [hp x List.mem_cons_self _ hx, Reaches, first]
    by_cases hpx : p x
    case pos =>
      rw [if_pos hpx, if_pos hpx]
      exact ⟨fun _ => rfl, fun hr => absurd (.inl hpx) hr⟩
    case neg =>
      rw [if_neg hpx, if_neg hpx, hx.tarSize, Option.bind_eq_bind, Option.bind_some]
      by_cases hsize : x.size + 511 < 2 ^ 31
      case pos =>
        have hnext := hi hxs (by simpa using hn) fun y hy => hp y (List.mem_cons_of_mem x hy)
        have hadv : advance off ((x.size : Int) + 511) = off + sectors x.size :=
          advance_eq (by have := hxs.lt; omega)
        have hiff : p x ∨ x.size + 511 < 2 ^ 31 ∧ Reaches p xs ↔ Reaches p xs :=
          ⟨fun hr => (hr.resolve_left hpx).right, fun hr => .inr ⟨hsize, hr⟩⟩
        rw [int_eq (by omega) (by omega), Option.bind_some, hadv, hiff]
        exact hnext
      case neg =>
        refine ⟨fun hr => absurd (hr.resolve_left hpx).left hsize, fun _ => ?_⟩
        rw [int, if_neg (by omega)]
        rfl

-- A search in the archive.
theorem tarFind_eq (h : WellFormed m base xs) (hp : path.length ≤ 100) (h0 : path.length = 100 → 0 ∉ path) :
    (Reaches (found (path.rdropWhile (· = 0))) xs → tarFind m path base (2 ^ 64 - 1) =
      some ((first (found (path.rdropWhile (· = 0))) 0 xs).map fun y => base + y.fst)) ∧
    (¬Reaches (found (path.rdropWhile (· = 0))) xs → tarFind m path base (2 ^ 64 - 1) = none) := by
  have hlt := h.archive.lt
  rw [tarFind, if_neg (by omega)]
  exact tarFindLoop_eq h.archive (by omega) fun x _ a ha => ha.matches hp h0

theorem first_header {p : Member → Bool} {y : ℕ × Member} (h : Archive m base off xs) (hy : y ∈ first p off xs) :
    Header m (base + y.fst) y.snd := by
  induction xs generalizing off
  case nil => exact absurd hy nofun
  case cons x xs hi =>
    rw [first] at hy
    split_ifs at hy
    · obtain rfl := Option.some_inj.mp hy
      exact h.left
    · exact hi h.right hy

theorem Header.link (h : Header m a x) : Tar.linkname m a = x.linkname :=
  strnlen_eq x.linkNul h.linkname x.linkLen

end Find

section Open

variable {m : Mem} {base : ℕ} {xs : List Member} {path : List UInt8}

theorem length_withoutSlash : (withoutSlash path).length ≤ path.length := by
  rw [withoutSlash]
  split_ifs
  · rw [List.length_tail]
    omega
  · exact le_rfl

-- What `tar_open` yields, if it yields anything.
theorem tarOpen_iff {r : Option Entry} (h : WellFormed m base xs) (hne : path ≠ []) (hroot : withoutSlash path ≠ [])
    (hp : path.length < 100) {key : List UInt8} (hkey : (withoutSlash path).rdropWhile (· = 0) = key) :
    tarOpen m path base (2 ^ 64 - 1) = some r ↔ Reaches (found key) xs ∧
      (∀ y ∈ first (found key) 0 xs, y.snd.type = '1'.toUInt8 → Reaches (found y.snd.linkname) xs) ∧
      (follow found xs key).map (fun off => .sector (base + off)) = r := by
  have hlen : (withoutSlash path).length < 100 := Nat.lt_of_le_of_lt length_withoutSlash hp
  have hfind := tarFind_eq h (Nat.le_of_lt hlen) fun he => absurd he (Nat.ne_of_lt hlen)
  rw [hkey] at hfind
  rw [tarOpen, if_neg hne, if_neg hroot, follow]
  by_cases hr : Reaches (found key) xs
  case neg =>
    rw [hfind.right hr]
    exact iff_of_false nofun fun hc => hr hc.left
  case pos =>
    rw [hfind.left hr, Option.bind_eq_bind, Option.bind_some]
    cases hfirst : first (found key) 0 xs
    case none => simp [followLink, hr]
    case some y =>
      have hy := first_header h.archive (Option.mem_def.mpr hfirst)
      have hlink := tarFind_eq h y.snd.linkLen fun _ => y.snd.linkNul
      have htrim : y.snd.linkname.rdropWhile (· = 0) = y.snd.linkname := by
        simpa using rdropWhile_replicate (k := 0) y.snd.linkNul
      rw [htrim] at hlink
      rw [Option.map_some, followLink, tarType, hy.type, hy.link]
      simp only [Option.bind_some, Option.mem_some_iff, forall_eq', hr, true_and]
      by_cases htype : y.snd.type = '1'.toUInt8
      case neg => simp [htype]
      case pos =>
        rw [if_pos htype, if_pos htype]
        by_cases hreach : Reaches (found y.snd.linkname) xs
        case neg =>
          rw [hlink.right hreach]
          exact iff_of_false nofun fun hc => hreach (hc.left htype)
        case pos =>
          rw [hlink.left hreach]
          simp [hreach, Function.comp_def]

end Open

section Same

variable {xs : List Member} {path name : List UInt8} {p : Member → Bool} {y : ℕ × Member} {off : ℕ}

theorem found_eq_named (h : name.length < 100) : found name = named name := by
  funext x
  simp [found, named, h]

theorem first_eq_none : first p off xs = none ↔ ∀ x ∈ xs, p x = false := by
  induction xs generalizing off
  case nil => simp [first]
  case cons x xs hi =>
    rw [first, List.forall_mem_cons, ← Bool.not_eq_true]
    split_ifs with hx
    · exact iff_of_false nofun fun h => h.left hx
    · exact hi.trans ⟨fun h => ⟨hx, h⟩, And.right⟩

theorem first_mem (h : y ∈ first p off xs) : y.snd ∈ xs := by
  induction xs generalizing off
  case nil => exact absurd h nofun
  case cons x xs hi =>
    rw [first] at h
    split_ifs at h
    · obtain rfl := Option.some_inj.mp h
      exact List.mem_cons_self ..
    · exact List.mem_cons_of_mem _ (hi h)

theorem length_seen : (seen path).length < 100 := by
  have hlen : (accept path BUF_SIZE).length ≤ 64 := by simp [accept, BUF_SIZE]
  have hle := (List.rdropWhile_prefix (· = 0) (withoutSlash (accept path BUF_SIZE))).length_le
  have hslash := @length_withoutSlash (accept path BUF_SIZE)
  rw [seen]
  omega

theorem getLast?_withoutSlash (h : withoutSlash path ≠ []) : (withoutSlash path).getLast? = path.getLast? := by
  rw [withoutSlash] at h ⊢
  split_ifs at h ⊢
  · have hlen := List.length_pos_iff.mpr h
    rw [List.length_tail] at hlen
    rw [List.getLast?_tail, if_neg (by omega)]
  · rfl

theorem seen_eq (hlen : path.length ≤ BUF_SIZE) (hnul : path.getLast? ≠ some 0) : seen path = withoutSlash path := by
  rw [seen, accept, Nat.min_eq_left hlen, List.take_length, List.rdropWhile_eq_self_iff]
  intro hne hz
  rw [← getLast?_withoutSlash hne, List.getLast?_eq_some_getLast hne, of_decide_eq_true hz] at hnul
  exact hnul rfl

theorem mem_follow_named : off ∈ follow named xs name ↔ ∃ q ∈ first (named name) 0 xs, Leads xs q off := by
  simp only [follow, Option.mem_def, Option.bind_eq_some_iff, Leads]
  refine exists_congr fun q => and_congr_right fun _ => ?_
  split_ifs <;> simp

-- What the driver finds is what is there, except for the targets of 100 bytes.
theorem mem_follow_found (h : name.length < 100) :
    off ∈ follow found xs name ↔ ∃ p ∈ first (named name) 0 xs, Followed p ∧ Leads xs p off := by
  simp only [follow, Option.mem_def, Option.bind_eq_some_iff, found_eq_named h, Leads, Followed]
  refine exists_congr fun p => and_congr_right fun _ => ?_
  by_cases htype : p.snd.type = '1'.toUInt8
  case neg => simp [htype]
  case pos =>
    simp only [htype, if_true, true_implies]
    by_cases hlen : p.snd.linkname.length < 100
    case pos => simp [hlen, found_eq_named hlen]
    case neg =>
      have hnone : first (found p.snd.linkname) 0 xs = none := first_eq_none.mpr fun x _ => by simp [found, hlen]
      simp [hlen, hnone]

-- In a well-formed archive, every member leads somewhere.
theorem exists_leads (h : ∀ x ∈ xs, x.type = '1'.toUInt8 → ∃ y ∈ xs, y.name = x.linkname) (hy : y ∈ first p 0 xs) :
    ∃ off, Leads xs y off := by
  by_cases htype : y.snd.type = '1'.toUInt8
  case neg => exact ⟨y.fst, by rw [Leads, if_neg htype]⟩
  case pos =>
    obtain ⟨z, hz, hname⟩ := h _ (first_mem hy) htype
    cases hfirst : first (named y.snd.linkname) 0 xs
    case none => exact absurd (first_eq_none.mp hfirst z hz) (by simp [named, hname])
    case some w => exact ⟨w.fst, by rw [Leads, if_pos htype]; exact ⟨w.snd, hfirst⟩⟩

theorem follow_named_none (h : ∀ x ∈ xs, x.type = '1'.toUInt8 → ∃ y ∈ xs, y.name = x.linkname) :
    follow named xs name = none ↔ ∀ x ∈ xs, x.name ≠ name := by
  have hfirst : first (named name) 0 xs = none ↔ ∀ x ∈ xs, x.name ≠ name := by
    rw [first_eq_none]
    simp [named]
  rw [← hfirst]
  refine ⟨fun hn => Option.eq_none_iff_forall_not_mem.mpr fun q hq => ?_, fun hn => by rw [follow, hn, Option.bind_none]⟩
  obtain ⟨off, hoff⟩ := exists_leads h hq
  exact Option.eq_none_iff_forall_not_mem.mp hn off (mem_follow_named.mpr ⟨q, hq, hoff⟩)

theorem same_iff (h : ∀ x ∈ xs, x.type = '1'.toUInt8 → ∃ y ∈ xs, y.name = x.linkname) :
    follow found xs (seen path) = follow named xs (withoutSlash path) ↔ Same xs path := by
  constructor
  case mp =>
    intro heq
    cases hpath : follow named xs (withoutSlash path)
    case none =>
      refine .missing ((follow_named_none h).mp hpath) fun p hp hf => ?_
      obtain ⟨off, hoff⟩ := exists_leads h hp
      have hmem : off ∈ follow found xs (seen path) := (mem_follow_found length_seen).mpr ⟨p, hp, hf, hoff⟩
      rw [heq, hpath] at hmem
      exact absurd hmem nofun
    case some off =>
      obtain ⟨p, hp, hf, hoff⟩ := (mem_follow_found length_seen).mp (heq.trans hpath)
      obtain ⟨q, hq, hoff'⟩ := mem_follow_named.mp hpath
      exact .linked hp hf hq hoff hoff'
  case mpr =>
    intro hsame
    cases hsame
    case whole hlen hnul htarget =>
      refine Option.ext fun off => ?_
      rw [← Option.mem_def, ← Option.mem_def, mem_follow_found length_seen, mem_follow_named, seen_eq hlen hnul]
      exact exists_congr fun q => and_congr_right fun hq => and_iff_right (htarget q hq)
    case missing hpath hseen =>
      rw [(follow_named_none h).mpr hpath, Option.eq_none_iff_forall_not_mem]
      intro off hoff
      obtain ⟨p, hp, hf, -⟩ := (mem_follow_found length_seen).mp hoff
      exact hseen p hp hf
    case linked p q off hseen htarget hpath hp hq =>
      exact ((mem_follow_found length_seen).mpr ⟨p, hseen, htarget, hp⟩).trans (mem_follow_named.mpr ⟨q, hpath, hq⟩).symm

end Same

section Driver

variable {m : Mem} {base : ℕ} {xs : List Member} {path : List UInt8}

theorem first_named_nil {off : ℕ} : first (named []) off xs = none := by
  induction xs generalizing off
  case nil => rfl
  case cons x xs hi =>
    rw [first, if_neg (by simpa [named] using x.named), hi]

theorem accept_eq_nil : accept path BUF_SIZE = [] ↔ path = [] := by
  cases path
  case nil => simp [accept]
  case cons c path => simp [accept, BUF_SIZE]

theorem withoutSlash_accept : withoutSlash (accept path BUF_SIZE) = [] ↔ path = [] ∨ path = [slash] := by
  cases path
  case nil => simp [accept, withoutSlash]
  case cons c path =>
    cases path
    case nil =>
      by_cases hc : c = slash <;>
        simp [accept, BUF_SIZE, withoutSlash, hc]
    case cons d path =>
      simp only [accept, BUF_SIZE, withoutSlash, List.length_cons,
        show min (path.length + 1 + 1) 64 = min path.length 62 + 1 + 1 by omega, List.take_succ_cons, List.head?_cons]
      split_ifs <;> simp

-- The path is cut off at the size of the buffer and at its last NULs, names of 100 bytes are not found, and what is too
-- large is not skipped.
theorem tarDriverOpen_iff (h : WellFormed m base xs) : tarDriverOpen m base path = some (resolve base xs path) ↔
    path = [] ∨ path = [slash] ∨ Delivered xs path := by
  rw [tarDriverOpen]
  by_cases hnil : path = []
  case pos =>
    subst hnil
    refine iff_of_true ?_ (.inl rfl)
    rw [resolve, if_neg nofun, follow, withoutSlash, if_neg nofun, first_named_nil]
    rfl
  case neg =>
    by_cases hroot : path = [slash]
    case pos =>
      subst hroot
      exact iff_of_true rfl (.inr (.inl rfl))
    case neg =>
      have hopen := tarOpen_iff (r := resolve base xs path) h (accept_eq_nil.not.mpr hnil)
        (withoutSlash_accept.not.mpr (by simp [hnil, hroot])) (by simp [accept, BUF_SIZE]) rfl
      have hinj : Function.Injective fun off => Entry.sector (base + off) := fun a b hab =>
        Nat.add_left_cancel (Entry.sector.inj hab)
      rw [hopen, resolve, if_neg hroot, (Option.map_injective hinj).eq_iff, ← seen, same_iff h.links]
      exact ⟨fun hc => .inr (.inr ⟨hc.left, hc.right.left, hc.right.right⟩),
        fun hd => let hd := (hd.resolve_left hnil).resolve_left hroot; ⟨hd.reaches, hd.links, hd.same⟩⟩

end Driver

section Encode

variable {bytes str post : List UInt8} {a n k : ℕ} {c : UInt8} {x : Member} {xs : List Member}

-- The sectors of a member whose data consists of NULs.
def memberSectors (x : Member) : List UInt8 :=
  field x.name ++ ('0'.toUInt8 :: List.replicate 23 0) ++ octal 11 x.size ++ List.replicate 21 0 ++ [x.type] ++
    field x.linkname ++ ustar ++ List.replicate (sectors x.size - 262) 0

def archiveMem (xs : List Member) : Mem :=
  .ofList (xs.flatMap memberSectors)

theorem slice_part (pre : List UInt8) (h : pre ++ str <+: bytes) (ha : a = pre.length) (hn : n = str.length) :
    (Mem.ofList bytes).slice a n = str := by
  obtain ⟨post, rfl⟩ := h
  subst ha hn
  refine List.ext_getElem (by simp) fun i _ hi => ?_
  rw [Mem.getElem_slice, Mem.ofList, List.append_assoc, List.getD_append_right _ _ _ _ (by omega),
    Nat.add_sub_cancel_left, List.getD_append _ _ _ _ hi, List.getD_eq_getElem _ _ hi]

theorem ofList_part (pre : List UInt8) (h : pre ++ [c] <+: bytes) (ha : a = pre.length) : Mem.ofList bytes a = c := by
  have := slice_part pre h ha (n := 1) rfl
  simpa [Mem.slice] using this

theorem ofList_behind (h : bytes.length ≤ a) : Mem.ofList bytes a = 0 :=
  List.getD_eq_default _ _ h

theorem length_octal : (octal n k).length = n := by
  induction n generalizing k
  case zero => rfl
  case succ n hi => rw [octal, List.length_append, hi, List.length_singleton]

theorem length_field {name : List UInt8} (h : name.length ≤ 100) : (field name).length = 100 := by
  rw [field, List.length_append, List.length_replicate]
  omega

theorem length_memberSectors : (memberSectors x).length = sectors x.size := by
  have : 512 ≤ sectors x.size := Nat.le_add_right _ _
  simp [memberSectors, length_field x.nameLen, length_field x.linkLen, length_octal, ustar]
  omega

theorem header_memberSectors {pre : List UInt8} (h : pre ++ memberSectors x <+: bytes) :
    Header (.ofList bytes) pre.length x := by
  have hname := length_field x.nameLen
  have hlink := length_field x.linkLen
  have hsize := length_octal (n := 11) (k := x.size)
  have hmagic : ustar.length = 5 := rfl
  obtain ⟨k, hk⟩ : ∃ k, sectors x.size - 262 = 83 + (1 + k) := ⟨sectors x.size - 346, by rw [sectors]; omega⟩
  rw [memberSectors, hk, List.replicate_add, List.replicate_add] at h
  simp only [List.append_assoc, List.cons_append, List.nil_append] at h
  generalize hrest : field x.name ++ '0'.toUInt8 :: _ = rest at h
  have hslice (l t : List UInt8) (n : ℕ) (hl : l ++ t <+: rest) (hn : l.length = n) :
      (Mem.ofList bytes).slice (pre.length + n) t.length = t := by
    refine slice_part (pre ++ l) ?_ (by rw [List.length_append, hn]) rfl
    rw [List.append_assoc]
    exact ((List.prefix_append_right_inj pre).mpr hl).trans h
  have hbyte (l : List UInt8) (c : UInt8) (n : ℕ) (hl : l ++ [c] <+: rest) (hn : l.length = n) :
      Mem.ofList bytes (pre.length + n) = c := by
    refine ofList_part (pre ++ l) ?_ (by rw [List.length_append, hn])
    rw [List.append_assoc]
    exact ((List.prefix_append_right_inj pre).mpr hl).trans h
  subst hrest
  refine ⟨?_, ?_, ?_, ?_, ?_, ?_, ?_⟩
  case refine_1 =>
    rw [← hname]
    exact hslice [] _ 0 (List.prefix_append _ _) rfl
  case refine_2 =>
    rw [hbyte (field x.name) '0'.toUInt8 100 (by simp only [List.prefix_append_right_inj, List.cons_prefix_cons,
      List.nil_prefix, and_self]) hname]
    decide
  case refine_3 =>
    rw [← hsize]
    exact hslice (field x.name ++ '0'.toUInt8 :: List.replicate 23 0) _ 124
      (by simp only [List.append_assoc, List.cons_append, List.prefix_append_right_inj, List.cons_prefix_cons,
        List.prefix_append, and_self]) (by simp [hname])
  case refine_4 =>
    exact hbyte (field x.name ++ '0'.toUInt8 :: List.replicate 23 0 ++ octal 11 x.size ++ List.replicate 21 0) _ 156
      (by simp only [List.append_assoc, List.cons_append, List.prefix_append_right_inj, List.cons_prefix_cons,
        List.nil_prefix, and_self]) (by simp [hname, hsize])
  case refine_5 =>
    rw [← hlink]
    exact hslice (field x.name ++ '0'.toUInt8 :: List.replicate 23 0 ++ octal 11 x.size ++ List.replicate 21 0 ++ [x.type])
      _ 157 (by simp only [List.append_assoc, List.cons_append, List.nil_append, List.prefix_append_right_inj,
        List.cons_prefix_cons, List.prefix_append, and_self]) (by simp [hname, hsize])
  case refine_6 =>
    exact hslice (field x.name ++ '0'.toUInt8 :: List.replicate 23 0 ++ octal 11 x.size ++ List.replicate 21 0 ++ [x.type] ++
      field x.linkname) ustar 257 (by simp only [List.append_assoc, List.cons_append, List.nil_append,
        List.prefix_append_right_inj, List.cons_prefix_cons, List.prefix_append, and_self]) (by simp [hname, hsize, hlink])
  case refine_7 =>
    exact hbyte (field x.name ++ '0'.toUInt8 :: List.replicate 23 0 ++ octal 11 x.size ++ List.replicate 21 0 ++ [x.type] ++
      field x.linkname ++ ustar ++ List.replicate 83 0) 0 345 (by simp only [List.append_assoc, List.cons_append,
        List.nil_append, List.replicate_one, List.prefix_append_right_inj, List.cons_prefix_cons, List.nil_prefix, and_self])
      (by simp [hname, hsize, hlink, ustar])

-- What is written is an archive.
theorem archive_archiveMem (h : (xs.flatMap memberSectors).length < 2 ^ 64 - 1) :
    Archive (archiveMem xs) 0 0 xs := by
  suffices hpre : ∀ (pre : List UInt8) (ys : List Member), pre ++ ys.flatMap memberSectors = xs.flatMap memberSectors →
      Archive (archiveMem xs) 0 pre.length ys from hpre [] xs rfl
  intro pre ys hys
  induction ys generalizing pre
  case nil =>
    rw [List.flatMap_nil, List.append_nil] at hys
    refine ⟨fun hm => ?_, by rw [hys]; exact h⟩
    have hzero : Mem.ofList (xs.flatMap memberSectors) (0 + pre.length + 257) = 0 :=
      ofList_behind (by rw [← hys]; omega)
    have hhead := congrArg List.head? hm
    rw [Mem.slice, List.range_succ_eq_map, List.map_cons, List.head?_cons, Nat.add_zero, archiveMem, hzero] at hhead
    exact absurd hhead (by decide)
  case cons y ys hi =>
    rw [List.flatMap_cons] at hys
    refine ⟨?_, ?_⟩
    · rw [Nat.zero_add]
      exact header_memberSectors ⟨_, by rw [← hys, List.append_assoc]⟩
    · have := hi (pre ++ memberSectors y) (by rw [List.append_assoc, hys])
      rwa [List.length_append, length_memberSectors] at this

end Encode

def file (name : List UInt8) (h : name ≠ [] ∧ name.length ≤ 100 ∧ 0 ∉ name) : Member where
  name     := name
  linkname := []
  type     := '0'.toUInt8
  size     := 3
  named    := h.left
  nameLen  := h.right.left
  nameNul  := h.right.right
  linkLen  := by decide
  linkNul  := by decide
  small    := by decide

def hardLink (name linkname : List UInt8) (h : name ≠ [] ∧ name.length ≤ 100 ∧ 0 ∉ name)
    (h' : linkname.length ≤ 100 ∧ 0 ∉ linkname) : Member where
  name     := name
  linkname := linkname
  type     := '1'.toUInt8
  size     := 0
  named    := h.left
  nameLen  := h.right.left
  nameNul  := h.right.right
  linkLen  := h'.left
  linkNul  := h'.right
  small    := by decide

-- The files "a" and "n...n" of 64 and "x...x" of 100 characters, and hard links from "b" to "a" and from "l" to "x...x".
def initrd : List Member :=
  [file [97] (by decide), file (List.replicate 64 110) (by decide), file (List.replicate 100 120) (by decide),
    hardLink [98] [97] (by decide) (by decide), hardLink [108] (List.replicate 100 120) (by decide) (by decide)]

theorem wellFormed_initrd : WellFormed (archiveMem initrd) 0 initrd where
  archive := archive_archiveMem (by
    simp only [List.length_flatMap, length_memberSectors]
    decide)
  links := by decide +kernel

theorem tarDriverOpen_iff_link : tarDriverOpen (archiveMem initrd) 0 [slash, 98] = some (some (.sector 0)) :=
  (tarDriverOpen_iff wellFormed_initrd).mpr (.inr (.inr
    ⟨by decide +kernel, by decide +kernel, .whole (by decide) (by decide) (by decide +kernel)⟩))

-- A path of 65 bytes is cut off, NULs at the end of a path are skipped, and the name of 100 bytes is not found.
theorem not_tarDriverOpen_cut : WellFormed (archiveMem initrd) 0 initrd ∧
    (resolve 0 initrd (slash :: List.replicate 64 110) = some (.sector 1024) ∧
      tarDriverOpen (archiveMem initrd) 0 (slash :: List.replicate 64 110) = some none) ∧
    (resolve 0 initrd [slash, 97, 0] = none ∧
      tarDriverOpen (archiveMem initrd) 0 [slash, 97, 0] = some (some (.sector 0))) ∧
    resolve 0 initrd [slash, 108] = some (.sector 2048) ∧
      tarDriverOpen (archiveMem initrd) 0 [slash, 108] = some none := by
  have hopen (path : List UInt8) (hne : path ≠ []) (hroot : withoutSlash (accept path BUF_SIZE) ≠ []) :=
    fun r => (tarOpen_iff (r := r) wellFormed_initrd (accept_eq_nil.not.mpr hne) hroot
      (by simp [accept, BUF_SIZE]) rfl).mpr
  refine ⟨wellFormed_initrd, ⟨by decide +kernel, ?_⟩, ⟨by decide +kernel, ?_⟩, by decide +kernel, ?_⟩
  all_goals exact hopen _ (List.cons_ne_nil _ _) (by decide) _ ⟨by decide +kernel, by decide +kernel, by decide +kernel⟩

end Camellia.Tar
