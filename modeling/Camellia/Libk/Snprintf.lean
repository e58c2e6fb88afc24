import Camellia.Lib.Cached
import Camellia.Lib.Word
import Camellia.Libk.Printf

namespace Camellia.Printf

inductive Lenmod
  | int
  | long
  | longlong
  | size
  deriving DecidableEq, Repr

structure Mods where
  fillChar   : UInt8
  fieldWidth : UInt64
  precision  : UInt64
  deriving DecidableEq, Repr

-- Every integer and every pointer is passed in 64 bits. A string is one which is used for `%s`, where `none` is NULL.
inductive Arg
  | num (n : UInt64)
  | str (s : Option (List UInt8))
  deriving DecidableEq, Repr

-- A conversion together with its argument.
inductive Conv
  | char (c : UInt8)
  | string (s : List UInt8)
  | pointer (n : UInt64)
  | hex (n : UInt64)
  | uint (n : UInt64)
  | octal (n : UInt64)
  | int (ns : Int64)
  | percent
  | unknown
  deriving DecidableEq, Repr

def byte (c : Char) : UInt8 :=
  c.toUInt8

-- The conversion of a `size_t` to an `int`.
def toInt (n : UInt64) : Int32 :=
  n.toUInt32.toInt32

-- The part of `out_state` behind the cache.
structure Sink (σ : Type) where
  backarg : σ
  written : Int

-- Every call of the backend counts as written, even if the backend ignores it.
def Sink.back (back : σ → List UInt8 → σ) (s : Sink σ) (buf : List UInt8) : Sink σ where
  backarg := back s.backarg buf
  written := (s.written + buf.length).bmod (2 ^ 32)

abbrev OutState (σ : Type) :=
  Cached (Sink σ) UInt8

def clen : ℕ := 64

section Output

variable (back : σ → List UInt8 → σ)

def flush (os : OutState σ) : OutState σ :=
  Cached.flush (Sink.back back) os

def output (buf : List UInt8) (os : OutState σ) : OutState σ :=
  Cached.output (Sink.back back) clen buf os

def outputC (c : UInt8) (amt : Int32) (os : OutState σ) : OutState σ :=
  (output back [c])^[amt.toInt.toNat] os

def pad (m : Mods) (len : UInt64) (os : OutState σ) : OutState σ :=
  outputC back m.fillChar (toInt (m.fieldWidth - len)) os

def outputSign (sign : Option UInt8) (os : OutState σ) : OutState σ :=
  match sign with
  | some c => outputC back c 1 os
  | none   => os

def padnum (m : Mods) (len : UInt64) (sign : Option UInt8) (os : OutState σ) : OutState σ :=
  let signLen : UInt64 := if sign.isSome then 1 else 0
  if len < m.precision then
    let os := outputC back m.fillChar (toInt (m.fieldWidth - m.precision - signLen)) os
    let os := outputSign back sign os
    outputC back (byte '0') (toInt (m.precision - len)) os
  else
    let os := outputC back m.fillChar (toInt (m.fieldWidth - len - signLen)) os
    outputSign back sign os

def outputNumeral (base : ℕ) (m : Mods) (n : UInt64) (sign : Option UInt8) (os : OutState σ) : OutState σ :=
  let buf := if n = 0 then [byte '0'] else numeralLoop base 24 n.toNat []
  let os := padnum back m (.ofNat buf.length) sign os
  output back buf os

def outputUint (m : Mods) (n : UInt64) (sign : Option UInt8) (os : OutState σ) : OutState σ :=
  outputNumeral back 10 m n sign os

def outputOctal (m : Mods) (n : UInt64) (os : OutState σ) : OutState σ :=
  outputNumeral back 8 m n none os

-- The first loop of `output_uint16`, which has counted `len` digits, and counts at most `left` others.
def uint16Len (n : ℕ) : (left len : ℕ) → ℕ
  | 0, len        => len
  | left + 1, len => if n >>> (len * 4) = 0 then len else uint16Len n left (len + 1)

def hexChar (d : ℕ) : UInt8 :=
  let h := digitChar d
  if h > byte '9' then h + (byte 'a' - byte '9' - 1) else h

def uint16Loop (n : ℕ) : (len : ℕ) → OutState σ → OutState σ
  | 0, os       => os
  | len + 1, os => uint16Loop n len (outputC back (hexChar (n >>> (len * 4) &&& 0xf)) 1 os)

def outputUint16 (m : Mods) (n : UInt64) (os : OutState σ) : OutState σ :=
  let len := uint16Len n.toNat 15 1
  let os := padnum back m (.ofNat len) none os
  uint16Loop back n.toNat len os

-- How much of a string is printed. A precision of 0 is none.
def strLen (m : Mods) (s : List UInt8) : ℕ :=
  let len := (s.takeWhile (· ≠ 0)).length
  if m.precision.toNat < len ∧ m.precision ≠ 0 then m.precision.toNat else len

-- The last `switch` of `__printf_internal`.
def convert (m : Mods) (conv : Conv) (os : OutState σ) : OutState σ :=
  match conv with
  | .char c    => outputC back c 1 os
  | .string s  => output back (s.take (strLen m s)) (pad back m (.ofNat (strLen m s)) os)
  | .pointer n => outputUint16 back m n (output back [byte '0', byte 'x'] os)
  | .hex n     => outputUint16 back m n os
  | .uint n    => outputUint back m n none os
  | .octal n   => outputOctal back m n os
  | .int ns    =>
    if ns < 0 then outputUint back m (-ns).toUInt64 (some minus) os else outputUint back m ns.toUInt64 none os
  | .percent   => output back [byte '%'] os
  | .unknown   => os

end Output

-- What follows reads a format from the character `c` of the source on, which is the head of the list. The list
-- ends in front of the NUL, so that there is nothing to be read where it is empty.
def flags : List UInt8 → (fillChar : UInt8) → UInt8 × List UInt8
  | [], fillChar       => (fillChar, [])
  | c :: fmt, fillChar => if c = byte '0' then flags fmt (byte '0') else (fillChar, c :: fmt)

def number : List UInt8 → UInt64 → UInt64 × List UInt8
  | [], n       => (n, [])
  | c :: fmt, n =>
    if byte '0' ≤ c ∧ c ≤ byte '9' then number fmt (n * 10 + (c - byte '0').toUInt64) else (n, c :: fmt)

def vaNum : List Arg → Option (UInt64 × List Arg)
  | .num n :: args => some (n, args)
  | _              => none

def vaStr : List Arg → Option (Option (List UInt8) × List Arg)
  | .str s :: args => some (s, args)
  | _              => none

def precision : List UInt8 → List Arg → Option (UInt64 × List UInt8 × List Arg)
  | [], args       => some (0, [], args)
  | c :: fmt, args =>
    if c ≠ byte '.' then
      some (0, c :: fmt, args)
    else if fmt.head? = some (byte '*') then
      (vaNum args).map fun (n, args) => ((toInt n).toInt64.toUInt64, fmt.tail, args)
    else
      some ((number fmt 0).1, (number fmt 0).2, args)

def lenmod : List UInt8 → Lenmod × List UInt8
  | []       => (.int, [])
  | c :: fmt =>
    match Char.ofUInt8 c with
    | 'l' => if fmt.head? = some (byte 'l') then (.longlong, fmt.tail) else (.long, fmt)
    | 'z' => (.size, fmt)
    | 'j' => (.longlong, fmt)
    | _   => (.int, c :: fmt)

def null : List UInt8 :=
  [byte '(', byte 'n', byte 'u', byte 'l', byte 'l', byte ')']

-- The argument of a conversion. Only an `int` has fewer than 64 bits.
def fetch (c : UInt8) (lm : Lenmod) (args : List Arg) : Option (Conv × List Arg) :=
  let unsigned (n : UInt64) : UInt64 := if lm = .int then n.toUInt32.toUInt64 else n
  let signed (n : UInt64) : Int64 := if lm = .int then (toInt n).toInt64 else n.toInt64
  match Char.ofUInt8 c with
  | 'c'       => (vaNum args).map fun (n, args) => (.char n.toUInt8, args)
  | 's'       => (vaStr args).map fun (s, args) => (.string (s.getD null), args)
  | 'p'       => (vaNum args).map fun (n, args) => (.pointer n, args)
  | 'x'       => (vaNum args).map fun (n, args) => (.hex (unsigned n), args)
  | 'u'       => (vaNum args).map fun (n, args) => (.uint (unsigned n), args)
  | 'o'       => (vaNum args).map fun (n, args) => (.octal (unsigned n), args)
  | 'd' | 'i' => (vaNum args).map fun (n, args) => (.int (signed n), args)
  | '%'       => some (.percent, args)
  | _         => some (.unknown, args)

structure Directive where
  mods : Mods
  conv : Conv
  fmt  : List UInt8
  args : List Arg

-- What stands behind a `%`, together with the rest of the format. There is none if the format ends before,
-- or if an argument is missing.
def directive (fmt : List UInt8) (args : List Arg) : Option Directive := do
  let (fillChar, fmt) := flags fmt (byte ' ')
  let (fieldWidth, fmt) := number fmt 0
  let (precision, fmt, args) ← precision fmt args
  let (lm, fmt) := lenmod fmt
  let c ← fmt.head?
  let (conv, args) ← fetch c lm args
  some ⟨⟨fillChar, fieldWidth, precision⟩, conv, fmt.tail, args⟩

-- The characters up to the NUL or the next `%`.
def ordinary (c : UInt8) : Bool :=
  c ≠ 0 ∧ c ≠ byte '%'

theorem length_flags_le (fmt : List UInt8) (fillChar : UInt8) : (flags fmt fillChar).2.length ≤ fmt.length := by
  induction fmt generalizing fillChar
  case nil => exact Nat.le_refl _
  case cons c fmt hi =>
    rw [flags]
    split
    · exact Nat.le_succ_of_le (hi _)
    · exact Nat.le_refl _

theorem length_number_le (fmt : List UInt8) (n : UInt64) : (number fmt n).2.length ≤ fmt.length := by
  induction fmt generalizing n
  case nil => exact Nat.le_refl _
  case cons c fmt hi =>
    rw [number]
    split
    · exact Nat.le_succ_of_le (hi _)
    · exact Nat.le_refl _

theorem length_precision_le {fmt : List UInt8} {args : List Arg} {x : UInt64 × List UInt8 × List Arg}
    (h : precision fmt args = some x) : x.2.1.length ≤ fmt.length := by
  cases fmt
  case nil =>
    obtain rfl := Option.some.inj h
    exact Nat.le_refl _
  case cons c fmt =>
    rw [precision] at h
    split_ifs at h
    · obtain rfl := Option.some.inj h
      exact Nat.le_refl _
    · obtain ⟨y, _, rfl⟩ := Option.map_eq_some_iff.mp h
      simp only [List.length_tail, List.length_cons]
      omega
    · obtain rfl := Option.some.inj h
      exact Nat.le_succ_of_le (length_number_le _ _)

theorem length_lenmod_le (fmt : List UInt8) : (lenmod fmt).2.length ≤ fmt.length := by
  cases fmt
  case nil => exact Nat.le_refl _
  case cons c fmt =>
    rw [lenmod]
    split
    · split
      · simp only [List.length_tail, List.length_cons]
        omega
      · exact Nat.le_succ _
    · exact Nat.le_succ _
    · exact Nat.le_succ _
    · exact Nat.le_refl _

theorem length_directive_lt {fmt : List UInt8} {args : List Arg} {d : Directive} (h : directive fmt args = some d) :
    d.fmt.length < fmt.length := by
  simp only [directive, Option.bind_eq_bind, Option.bind_eq_some_iff] at h
  obtain ⟨x, hx, c, hc, y, _, hd⟩ := h
  obtain rfl := Option.some.inj hd
  have h₁ := length_precision_le hx
  have h₂ := length_flags_le fmt (byte ' ')
  have h₃ := length_number_le (flags fmt (byte ' ')).2 0
  have h₄ := length_lenmod_le x.2.1
  have h₅ : 0 < (lenmod x.2.1).2.length := List.length_pos_of_mem (List.mem_of_mem_head? hc)
  change (lenmod x.2.1).2.tail.length < _
  rw [List.length_tail]
  omega

-- The loop of `__printf_internal`, of which a round goes up to the end of a conversion.
def printfLoop (back : σ → List UInt8 → σ) (fmt : List UInt8) (args : List Arg) (os : OutState σ) :
    Option (OutState σ) :=
  let os := output back (fmt.takeWhile ordinary) os
  if (fmt.dropWhile ordinary).head?.getD 0 = 0 then
    some os
  else
    match _h : directive (fmt.dropWhile ordinary).tail args with
    | none   => none
    | some d => printfLoop back d.fmt d.args (convert back d.mods d.conv os)
termination_by fmt.length
decreasing_by
  have hd := length_directive_lt _h
  have := (List.dropWhile_sublist ordinary (l := fmt)).length_le
  rw [List.length_tail] at hd
  omega

def printfInternal (fmt : List UInt8) (args : List Arg) (back : σ → List UInt8 → σ) (backarg : σ) :
    Option (σ × Int) :=
  (printfLoop back fmt args ⟨⟨backarg, 0⟩, []⟩).map fun os =>
    ((flush back os).sink.backarg, (flush back os).sink.written)

-- The pointers which the backend gets, and the memory which they point to.
structure Ptrs where
  mem  : Mem
  cur  : ℕ
  last : ℕ

-- The difference of the pointers, as a `size_t`.
def Ptrs.space (ptrs : Ptrs) : ℕ :=
  (((ptrs.last : Int) - ptrs.cur) % 2 ^ 64).toNat

def vsnprintfBackend (ptrs : Ptrs) (buf : List UInt8) : Ptrs :=
  if ptrs.cur = 0 then
    ptrs
  else
    let len := min buf.length ptrs.space
    let cur := ptrs.cur + len
    { ptrs with mem := (ptrs.mem.write ptrs.cur (buf.take len)).store cur 0, cur := cur }

def vsnprintf (m : Mem) (str len : ℕ) (fmt : List UInt8) (args : List Arg) : Option (Int × Mem) :=
  (printfInternal fmt args vsnprintfBackend ⟨m, str, str + len - 1⟩).map fun (ptrs, ret) => (ret, ptrs.mem)

def snprintf (m : Mem) (str len : ℕ) (fmt : List UInt8) (args : List Arg) : Option (Int × Mem) :=
  vsnprintf m str len fmt args

-- The number in some base, without leading zeros.
def numeral (base n : ℕ) : List UInt8 :=
  if n = 0 then [byte '0'] else (Nat.digits base n).reverse.map hexChar

-- The number with its sign, and with zeros in front of it up to the precision.
def numeralText (base : ℕ) (m : Mods) (n : ℕ) (sign : Option UInt8) : List UInt8 :=
  let digits := numeral base n
  let width := max m.precision.toNat digits.length + sign.toList.length
  List.replicate (m.fieldWidth.toNat - width) m.fillChar ++ sign.toList ++
    List.replicate (m.precision.toNat - digits.length) (byte '0') ++ digits

def stringText (m : Mods) (s : List UInt8) : List UInt8 :=
  List.replicate (m.fieldWidth.toNat - s.length) m.fillChar ++ s

-- The text of a conversion, where negative numbers have a sign.
def convText (m : Mods) : Conv → List UInt8
  | .char c    => [c]
  | .string s  => stringText m (s.take (strLen m s))
  | .pointer n => [byte '0', byte 'x'] ++ numeralText 16 m n.toNat none
  | .hex n     => numeralText 16 m n.toNat none
  | .uint n    => numeralText 10 m n.toNat none
  | .octal n   => numeralText 8 m n.toNat none
  | .int ns    => numeralText 10 m ns.toInt.natAbs (if ns.toInt < 0 then some minus else none)
  | .percent   => [byte '%']
  | .unknown   => []

-- The complete text of a format with these arguments.
def formatted (fmt : List UInt8) (args : List Arg) : Option (List UInt8) :=
  if (fmt.dropWhile ordinary).head?.getD 0 = 0 then
    some (fmt.takeWhile ordinary)
  else
    match _h : directive (fmt.dropWhile ordinary).tail args with
    | none   => none
    | some d => (formatted d.fmt d.args).map (fmt.takeWhile ordinary ++ convText d.mods d.conv ++ ·)
termination_by fmt.length
decreasing_by
  have hd := length_directive_lt _h
  have := (List.dropWhile_sublist ordinary (l := fmt)).length_le
  rw [List.length_tail] at hd
  omega

-- The writer prints a text, however much is in the cache.
abbrev Writes (back : σ → List UInt8 → σ) :=
  Cached.Emits (Sink.back back) clen

-- The same for a text which is not too long for an `int`. The others lose their padding.
def Prints (back : σ → List UInt8 → σ) (f : OutState σ → OutState σ) (txt : List UInt8) : Prop :=
  ∃ printed, Writes back f printed ∧ (txt.length < 2 ^ 31 → printed = txt)

-- What `padnum` prints, with the arithmetic of the source.
def padding (m : Mods) (len : UInt64) (sign : Option UInt8) : List UInt8 :=
  let width := if len < m.precision then m.precision else len
  List.replicate (toInt (m.fieldWidth - width - if sign.isSome then 1 else 0)).toInt.toNat m.fillChar ++
    sign.toList ++ List.replicate (toInt (width - len)).toInt.toNat (byte '0')

section Prints

variable {back : σ → List UInt8 → σ} {m : Mods} {n base pos k : ℕ} {buf txt fmt : List UInt8} {args : List Arg}
variable {c : UInt8} {amt : Int32} {len : UInt64} {sign : Option UInt8}

theorem hexChar_digit (h : n < 10) : hexChar n = digitChar n := by
  interval_cases n <;> decide

-- The digits of a base up to 10 are those of `output_uint`.
theorem numeral_eq (hb : 1 < base) (hd : base ≤ 10) (h : n < base ^ pos) :
    numeral base n = if n = 0 then [byte '0'] else numeralLoop base pos n [] := by
  rw [numeral, numeralLoop_eq hb h, List.append_nil]
  split
  · rfl
  · refine List.map_congr_left fun d hm => hexChar_digit ?_
    exact Nat.lt_of_lt_of_le (Nat.digits_lt_base hb (List.mem_reverse.mp hm)) hd

theorem length_numeral (hl : 1 < base) (h : n < base ^ 24) : (numeral base n).length ≤ 24 := by
  unfold numeral
  split
  · decide
  · rw [List.length_map, List.length_reverse]
    exact (Nat.digits_length_le_iff hl n).mpr h

theorem shift_digits : n >>> (k * 4) = n / 16 ^ k := by
  rw [Nat.shiftRight_eq_div_pow, Nat.mul_comm, pow_mul]
  rfl

theorem uint16Len_eq (hl : 16 ^ k ≤ n) (hu : n < 16 ^ (k + 1 + pos)) :
    uint16Len n pos (k + 1) = Nat.log 16 n + 1 := by
  induction pos generalizing k
  case zero => rw [uint16Len, Nat.log_eq_of_pow_le_of_lt_pow hl hu]
  case succ pos hi =>
    have hz : n / 16 ^ (k + 1) = 0 ↔ n < 16 ^ (k + 1) := Nat.div_eq_zero_iff_lt (by positivity)
    rw [uint16Len, shift_digits]
    split
    case isTrue h  => rw [Nat.log_eq_of_pow_le_of_lt_pow hl (hz.mp h)]
    case isFalse h => exact hi (Nat.le_of_not_lt (mt hz.mpr h)) (by rwa [Nat.add_right_comm _ 1 pos])

theorem digits_eq_map (hb : 2 ≤ base) :
    Nat.digits base n = (List.range (Nat.digits base n).length).map fun i => n / base ^ i % base := by
  refine List.ext_getElem (by simp) fun i h _ => ?_
  rw [List.getElem_map, List.getElem_range, ← Nat.getD_digits n i hb, List.getD_eq_getElem _ _ h]

theorem numeral_sixteen (h : n < 2 ^ 64) :
    numeral 16 n = ((List.range (uint16Len n 15 1)).map fun i => hexChar (n / 16 ^ i % 16)).reverse := by
  by_cases hn : n = 0
  case pos =>
    subst hn
    decide
  case neg =>
    have hl : (Nat.digits 16 n).length = uint16Len n 15 1 := by
      rw [Nat.length_digits 16 n (by decide) hn]
      exact (uint16Len_eq (k := 0) (by omega) (h.trans_eq (by norm_num))).symm
    rw [numeral, if_neg hn, List.map_reverse, ← hl]
    conv_lhs => rw [digits_eq_map (Nat.le_of_ble_eq_true rfl), List.map_map]
    rfl

theorem strLen_le {bytes : List UInt8} : strLen m bytes ≤ bytes.length := by
  have := (List.takeWhile_sublist (fun c : UInt8 => decide (c ≠ 0)) (l := bytes)).length_le
  simp only [strLen]
  split <;> omega

-- The smallest `long` is its own negation, but as an unsigned number this is its magnitude.
theorem magnitude (ns : Int64) : (if ns < 0 then (-ns).toUInt64 else ns.toUInt64).toNat = ns.toInt.natAbs := by
  have := ns.le_toInt
  have hlt : ns < 0 ↔ ns.toInt < 0 := Int64.lt_iff_toInt_lt
  split
  case isTrue h =>
    have := hlt.mp h
    have hn := toNat_toUInt64 (-ns)
    rw [Int64.toInt_neg, Int.bmod_def] at hn
    split at hn <;> omega
  case isFalse h =>
    have := mt hlt.mpr h
    have := toNat_toUInt64_of_nonneg (x := ns) (by omega)
    omega

theorem toNat_ofNat_length (h : n < 2 ^ 31) : (UInt64.ofNat n).toNat = n :=
  UInt64.toNat_ofNat_of_lt' (h.trans (by decide))

-- A difference of two small sizes is an `int`, and there is no padding if it is negative.
theorem toNat_toInt {x : UInt64} {a b : ℕ} (ha : a < 2 ^ 31) (hb : b < 2 ^ 31)
    (hx : (x.toNat : Int) = (a - b) % 2 ^ 64) : (toInt x).toInt.toNat = a - b := by
  have h : (toInt x).toInt = (x.toNat : Int).bmod (2 ^ 32) := by
    rw [toInt, ← Int32.toInt_toBitVec, UInt32.toBitVec_toInt32, BitVec.toInt_eq_toNat_bmod, UInt32.toNat_toBitVec,
      UInt64.toNat_toUInt32, Int.natCast_mod, Int.emod_bmod]
  rw [h, Int.bmod_def]
  split <;> omega

theorem padding_eq (hl : 1 < base) (hn : n < base ^ 24) (h : (numeralText base m n sign).length < 2 ^ 31) :
    padding m (.ofNat (numeral base n).length) sign ++ numeral base n = numeralText base m n sign := by
  have hd := length_numeral hl hn
  simp only [numeralText, List.length_append, List.length_replicate] at h ⊢
  generalize numeral base n = digits at *
  have hlen : (UInt64.ofNat digits.length).toNat = digits.length := toNat_ofNat_length (by omega)
  have hs : (if sign.isSome then 1 else 0 : UInt64).toNat = sign.toList.length := by cases sign <;> rfl
  simp only [padding, UInt64.lt_iff_toNat_lt, hlen]
  have hw : (if digits.length < m.precision.toNat then m.precision else .ofNat digits.length).toNat =
      max m.precision.toNat digits.length := by
    split <;> omega
  generalize (if digits.length < m.precision.toNat then m.precision else .ofNat digits.length) = width at *
  have hf : ((m.fieldWidth - width - if sign.isSome then 1 else 0).toNat : Int) =
      (m.fieldWidth.toNat - (max m.precision.toNat digits.length + sign.toList.length : ℕ)) % 2 ^ 64 := by
    have := m.fieldWidth.toNat_lt
    rw [UInt64.toNat_sub, UInt64.toNat_sub, hs]
    omega
  have hz : ((width - .ofNat digits.length).toNat : Int) =
      (max m.precision.toNat digits.length - digits.length) % 2 ^ 64 := by
    rw [UInt64.toNat_sub, hlen]
    omega
  have hm : max m.precision.toNat digits.length - digits.length = m.precision.toNat - digits.length := by omega
  rw [toNat_toInt (by omega) (by omega) hf, toNat_toInt (by omega) (by omega) hz, hm]

theorem Prints.comp {f g : OutState σ → OutState σ} {txt' : List UInt8} (hf : Prints back f txt)
    (hg : Prints back g txt') : Prints back (fun os => g (f os)) (txt ++ txt') := by
  have ⟨u, hu, hut⟩ := hf
  have ⟨v, hv, hvt⟩ := hg
  refine ⟨u ++ v, hu.comp hv, fun h => ?_⟩
  rw [List.length_append] at h
  rw [hut (by omega), hvt (by omega)]

variable (hb : ∀ s xs ys, Sink.back back (Sink.back back s xs) ys = Sink.back back s (xs ++ ys))
include hb

theorem writes_output (buf : List UInt8) : Writes back (output back buf) buf :=
  Cached.emits_output hb

theorem writes_outputC : Writes back (outputC back c amt) (List.replicate amt.toInt.toNat c) := by
  have := (writes_output hb [c]).iterate amt.toInt.toNat
  rwa [List.flatten_replicate_singleton] at this

theorem writes_outputSign : Writes back (outputSign back sign) sign.toList := by
  cases sign
  case none   => exact Cached.emits_id
  case some c => exact writes_outputC hb

theorem writes_padnum : Writes back (padnum back m len sign) (padding m len sign) := by
  intro os s items h
  rw [padnum, padding]
  split
  case isTrue hl =>
    exact (((writes_outputC hb).comp (writes_outputSign hb)).comp (writes_outputC hb)) os s items h
  case isFalse hl =>
    rw [UInt64.sub_self]
    exact (((writes_outputC hb).comp (writes_outputSign hb)).comp Cached.emits_id) os s items h

theorem writes_uint16Loop :
    Writes back (uint16Loop back n k) ((List.range k).map fun i => hexChar (n / 16 ^ i % 16)).reverse := by
  induction k
  case zero => exact Cached.emits_id
  case succ k hi =>
    have hd : n >>> (k * 4) &&& 0xf = n / 16 ^ k % 16 := by
      rw [shift_digits]
      exact Nat.and_two_pow_sub_one_eq_mod _ 4
    rw [List.range_succ, List.map_append, List.reverse_append]
    refine Cached.Emits.comp (g := uint16Loop back n k) ?_ hi
    rw [hd]
    exact writes_outputC hb

theorem prints_output (buf : List UInt8) : Prints back (output back buf) buf :=
  ⟨buf, writes_output hb buf, fun _ => rfl⟩

theorem prints_outputNumeral (h₁ : 1 < base) (h₁₀ : base ≤ 10) (hn : 2 ^ 64 ≤ base ^ 24) (n : UInt64) :
    Prints back (outputNumeral back base m n sign) (numeralText base m n.toNat sign) := by
  have hlt : n.toNat < base ^ 24 := n.toNat_lt.trans_le hn
  have hbuf : (if n = 0 then [byte '0'] else numeralLoop base 24 n.toNat []) = numeral base n.toNat := by
    rw [numeral_eq h₁ h₁₀ hlt]
    simp only [← UInt64.toNat_inj, UInt64.toNat_zero]
  refine ⟨_, ?_, padding_eq h₁ hlt⟩
  intro os s items h
  simp only [outputNumeral, hbuf]
  exact ((writes_padnum hb).comp (writes_output hb _)) os s items h

theorem prints_outputUint16 (n : UInt64) : Prints back (outputUint16 back m n) (numeralText 16 m n.toNat none) := by
  have hl : (numeral 16 n.toNat).length = uint16Len n.toNat 15 1 := by simp [numeral_sixteen n.toNat_lt]
  refine ⟨_, ?_, padding_eq (by decide) (n.toNat_lt.trans (by norm_num))⟩
  intro os s items h
  rw [hl, numeral_sixteen n.toNat_lt]
  exact ((writes_padnum hb).comp (writes_uint16Loop hb)) os s items h

theorem prints_string (bytes : List UInt8) :
    Prints back (fun os => output back bytes (pad back m (.ofNat bytes.length) os)) (stringText m bytes) := by
  refine ⟨_, (writes_outputC hb).comp (writes_output hb _), fun h => ?_⟩
  rw [stringText, List.length_append, List.length_replicate] at h
  have hl : (UInt64.ofNat bytes.length).toNat = bytes.length := toNat_ofNat_length (by omega)
  have hf : ((m.fieldWidth - .ofNat bytes.length).toNat : Int) = (m.fieldWidth.toNat - bytes.length) % 2 ^ 64 := by
    rw [UInt64.toNat_sub, hl]
    omega
  rw [toNat_toInt (by omega) (by omega) hf, stringText]

theorem prints_convert (m : Mods) (conv : Conv) : Prints back (convert back m conv) (convText m conv) := by
  cases conv
  case char c    => exact ⟨_, writes_outputC hb, fun _ => rfl⟩
  case string bytes =>
    have hl : (bytes.take (strLen m bytes)).length = strLen m bytes := List.length_take_of_le strLen_le
    have := prints_string hb (m := m) (bytes.take (strLen m bytes))
    rwa [hl] at this
  case pointer n => exact (prints_output hb _).comp (prints_outputUint16 hb n)
  case hex n     => exact prints_outputUint16 hb n
  case uint n    => exact prints_outputNumeral hb (by decide) (by decide) (by norm_num) n
  case octal n   => exact prints_outputNumeral hb (by decide) (by decide) (by norm_num) n
  case int ns    =>
    have hlt : ns < 0 ↔ ns.toInt < 0 := Int64.lt_iff_toInt_lt
    have hn := magnitude ns
    unfold convert
    rw [convText, ← hn]
    simp only [← hlt, outputUint]
    split
    · exact prints_outputNumeral hb (by decide) (by decide) (by norm_num) _
    · exact prints_outputNumeral hb (by decide) (by decide) (by norm_num) _
  case percent   => exact prints_output hb _
  case unknown   => exact ⟨[], Cached.emits_id, fun _ => rfl⟩

theorem printfLoop_formatted (h : formatted fmt args = some txt) :
    ∃ printed, (txt.length < 2 ^ 31 → printed = txt) ∧
      ∀ {os s items}, Cached.Holds (Sink.back back) clen os s items →
        ∃ os', printfLoop back fmt args os = some os' ∧
          Cached.Holds (Sink.back back) clen os' s (items ++ printed) := by
  induction fmt, args using formatted.induct generalizing txt
  case case1 fmt args he =>
    rw [formatted, if_pos he, Option.some.injEq] at h
    refine ⟨_, fun _ => h, fun hs => ?_⟩
    rw [printfLoop]
    exact ⟨_, if_pos he, writes_output hb _ _ _ _ hs⟩
  case case2 fmt args he hd =>
    rw [formatted, if_neg he, hd] at h
    contradiction
  case case3 fmt args he d hd hi =>
    rw [formatted, if_neg he, hd] at h
    obtain ⟨rest, hr, rfl⟩ := Option.map_eq_some_iff.mp h
    have ⟨u, hu, hut⟩ := (prints_output hb (fmt.takeWhile ordinary)).comp (prints_convert hb d.mods d.conv)
    have ⟨v, hvt, hv⟩ := hi hr
    refine ⟨u ++ v, fun hl => ?_, fun {os s items} hs => ?_⟩
    case refine_1 =>
      rw [List.length_append] at hl
      rw [hut (by omega), hvt (by omega)]
    case refine_2 =>
      have ⟨os', ho, hh⟩ := hv (hu os s items hs)
      refine ⟨os', ?_, by rwa [List.append_assoc] at hh⟩
      rw [printfLoop, if_neg he, hd]
      exact ho

end Prints

-- What a call should do to a buffer of `n` bytes.
structure Contract (m : Mem) (str n : ℕ) (txt : List UInt8) (ret : Int) (m' : Mem) : Prop where
  length     : ret = txt.length
  outside    : ∀ a, ¬(str ≤ a ∧ a < str + n) → m' a = m a
  filled     : 1 ≤ n → ∀ i < min txt.length (n - 1), m' (str + i) = txt.getD i 0
  terminated : 1 ≤ n → m' (str + min txt.length (n - 1)) = 0

section Snprintf

variable {m : Mem} {str n a : ℕ} {fmt buf txt : List UInt8} {args : List Arg} {ptrs : Ptrs} {b c : UInt8}

theorem store_write_store :
    ((m.store a b).write a buf).store (a + buf.length) c = (m.write a buf).store (a + buf.length) c := by
  funext x
  simp only [Mem.store_apply, Mem.write]
  split_ifs <;> first | rfl | omega

theorem vsnprintfBackend_eq (h : ptrs.cur ≠ 0) :
    vsnprintfBackend ptrs buf =
      ⟨(ptrs.mem.write ptrs.cur (buf.take ptrs.space)).store (ptrs.cur + (buf.take ptrs.space).length) 0,
        ptrs.cur + (buf.take ptrs.space).length, ptrs.last⟩ := by
  have hl : (buf.take ptrs.space).length = min buf.length ptrs.space := by rw [List.length_take, Nat.min_comm]
  have ht : buf.take (min buf.length ptrs.space) = buf.take ptrs.space := List.take_eq_take_iff.mpr (by omega)
  rw [vsnprintfBackend, if_neg h, hl, ← ht]

-- The 0 behind the first piece is overwritten by the second one, or stays at the end of the buffer.
theorem vsnprintfBackend_append {xs ys : List UInt8} :
    vsnprintfBackend (vsnprintfBackend ptrs xs) ys = vsnprintfBackend ptrs (xs ++ ys) := by
  by_cases h : ptrs.cur = 0
  case pos => simp [vsnprintfBackend, h]
  case neg =>
    have hne : (vsnprintfBackend ptrs xs).cur ≠ 0 := by
      rw [vsnprintfBackend_eq h]
      exact Nat.ne_of_gt (Nat.add_pos_left (Nat.pos_of_ne_zero h) _)
    have hs : (vsnprintfBackend ptrs xs).space = ptrs.space - xs.length := by
      rw [vsnprintfBackend_eq h]
      simp only [Ptrs.space, List.length_take]
      omega
    rw [vsnprintfBackend_eq hne, hs, vsnprintfBackend_eq h, vsnprintfBackend_eq h, store_write_store, Mem.write_append,
      List.take_append, List.length_append, Nat.add_assoc]

theorem back_append (s : Sink Ptrs) (xs ys : List UInt8) :
    Sink.back vsnprintfBackend (Sink.back vsnprintfBackend s xs) ys = Sink.back vsnprintfBackend s (xs ++ ys) := by
  simp only [Sink.back, vsnprintfBackend_append, Int.bmod_add_bmod, List.length_append, Int.natCast_add, Int.add_assoc]

-- What the backend leaves behind for the whole text, for which it is not called if there is none.
def stored (m : Mem) (str n : ℕ) (txt : List UInt8) : Mem :=
  if txt = [] then m else (vsnprintfBackend ⟨m, str, str + n - 1⟩ txt).mem

theorem snprintf_formatted (m : Mem) (str n : ℕ) (h : formatted fmt args = some txt) :
    ∃ printed, (txt.length < 2 ^ 31 → printed = txt) ∧
      snprintf m str n fmt args = some ((printed.length : Int).bmod (2 ^ 32), stored m str n printed) := by
  have ⟨printed, hp, hl⟩ := printfLoop_formatted back_append h
  have ⟨os, ho, hh⟩ := hl (Cached.holds_empty (s := ⟨⟨m, str, str + n - 1⟩, 0⟩) (by decide))
  refine ⟨printed, hp, ?_⟩
  have hf : flush vsnprintfBackend os = _ := hh.flush back_append
  rw [snprintf, vsnprintf, printfInternal, ho, Option.map_some, Option.map_some, hf, List.nil_append, stored]
  cases printed
  case nil  => rfl
  case cons => simp [Cached.passed, Sink.back]

-- The pieces have the effect of a call which prints the whole text at once.
theorem stored_of_pos (hs : 0 < str) (hn : 1 ≤ n) (hl : n < 2 ^ 64) (h : txt ≠ []) :
    stored m str n txt = (Camellia.snprintf m str n txt).2 := by
  have hsp : Ptrs.space ⟨m, str, str + n - 1⟩ = n - 1 := by
    simp only [Ptrs.space]
    omega
  rw [stored, if_neg h, vsnprintfBackend_eq (Nat.ne_of_gt hs), hsp]
  rfl

-- A buffer of no bytes looks like one which takes up the whole memory.
theorem stored_zero (hs : 0 < str) (h : txt ≠ []) : stored m str 0 txt str = txt.headD 0 := by
  have hsp : Ptrs.space ⟨m, str, str + 0 - 1⟩ = 2 ^ 64 - 1 := by
    simp only [Ptrs.space]
    omega
  rw [stored, if_neg h, vsnprintfBackend_eq (Nat.ne_of_gt hs), hsp]
  cases txt
  case nil => contradiction
  case cons b txt =>
    have hl : 0 < ((b :: txt).take (2 ^ 64 - 1)).length := by simp
    change ((m.write str _).store _ 0) str = b
    rw [Mem.store_ne (Nat.ne_of_lt (Nat.lt_add_of_pos_right hl)), Mem.write,
      if_pos ⟨Nat.le_refl _, Nat.lt_add_of_pos_right hl⟩, Nat.sub_self]
    rfl

theorem contract_of_pos (hs : 0 < str) (hn : 1 ≤ n) (hl : n < 2 ^ 64) (h : txt ≠ []) :
    Contract m str n txt txt.length (stored m str n txt) := by
  rw [stored_of_pos hs hn hl h, Camellia.snprintf]
  refine ⟨rfl, fun a ha => ?_, fun _ i hi => ?_, fun _ => ?_⟩
  case refine_1 =>
    simp only
    rw [Mem.store_ne (by simp; omega), Mem.write_not_mem (by simp; omega)]
  case refine_2 =>
    simp only
    rw [Mem.store_ne (by simp; omega), Mem.write, if_pos (by simp; omega)]
    rw [Nat.add_sub_cancel_left, List.getD_eq_getElem?_getD, List.getElem?_take_of_lt (by omega),
      ← List.getD_eq_getElem?_getD]
  case refine_3 =>
    simp only [List.length_take, Nat.min_comm, Mem.store_self]

theorem snprintf_short (h : formatted fmt args = some txt) (hl : txt.length < 2 ^ 31) :
    snprintf m str n fmt args = some (↑txt.length, stored m str n txt) := by
  have ⟨printed, hp, he⟩ := snprintf_formatted m str n h
  rw [he, hp hl, Int.bmod_eq_of_le (by omega) (by omega)]

-- A text of one piece is what `Camellia.snprintf` is about.
theorem snprintf_piece (hs : 0 < str) (hn : 1 ≤ n) (hl : n < 2 ^ 64) (h : formatted fmt args = some txt) (hne : txt ≠ [])
    (hlen : txt.length < 2 ^ 31) :
    snprintf m str n fmt args = some (↑(Camellia.snprintf m str n txt).1, (Camellia.snprintf m str n txt).2) := by
  rw [snprintf_short h hlen, stored_of_pos hs hn hl hne]
  rfl

theorem toInt_bmod (v : UInt64) : (toInt v).toInt64.toInt = (v.toNat : Int).bmod (2 ^ 32) := by
  have hmod : (v.toUInt32.toNat : Int) = v.toNat % (2 ^ 32 : ℕ) := by
    rw [UInt64.toNat_toUInt32, Int.natCast_emod]
  rw [Int32.toInt_toInt64, toInt, ← Int32.toInt_toBitVec, UInt32.toBitVec_toInt32, BitVec.toInt_eq_toNat_bmod,
    UInt32.toNat_toBitVec, hmod, Int.emod_bmod]

theorem numeralText_plain {k : ℕ} {sign : Option UInt8} (hk : k < 10 ^ 24) :
    numeralText 10 ⟨byte ' ', 0, 0⟩ k sign = Camellia.outputUint k sign := by
  have hzero : byte '0' = digitChar 0 := by decide
  rw [Camellia.outputUint, ← hzero, ← numeral_eq (by decide) (by decide) hk]
  simp [numeralText]

theorem convText_int {ns : Int64} : convText ⟨byte ' ', 0, 0⟩ (.int ns) = outputInt ns.toInt := by
  have hle := ns.le_toInt
  have hlt := ns.toInt_lt
  rw [convText, numeralText_plain (by omega), outputInt]
  split_ifs with hneg
  · rw [show ns.toInt.natAbs = (-ns.toInt).toNat by omega]
  · rw [show ns.toInt.natAbs = ns.toInt.toNat by omega]

theorem length_printfInt (v : UInt64) : (printfInt v.toNat).length ≤ 25 := by
  rw [printfInt, ← toInt_bmod, ← convText_int]
  generalize (toInt v).toInt64 = ns
  have hle := ns.le_toInt
  have hlt := ns.toInt_lt
  have hlen : (numeral 10 ns.toInt.natAbs).length ≤ 24 := length_numeral (by decide) (by omega)
  rw [convText]
  split_ifs <;> simp [numeralText] <;> omega

-- The format of the names which procfs lists.
theorem formatted_dir (v : UInt64) :
    formatted [byte '%', byte 'd', byte '/'] [.num v] = some (printfInt v.toNat ++ [byte '/']) := by
  have hrest : formatted [byte '/'] [] = some [byte '/'] := by decide +kernel
  have hd : directive [byte 'd', byte '/'] [.num v] = some ⟨⟨byte ' ', 0, 0⟩, .int (toInt v).toInt64, [byte '/'], []⟩ :=
    rfl
  have hdrop : ([byte '%', byte 'd', byte '/'].dropWhile ordinary).tail = [byte 'd', byte '/'] := by decide
  have htake : [byte '%', byte 'd', byte '/'].takeWhile ordinary = [] := by decide
  rw [formatted, if_neg (by decide)]
  split
  case h_1 h =>
    rw [hdrop, hd] at h
    exact nomatch h
  case h_2 d h =>
    rw [hdrop, hd] at h
    obtain rfl := Option.some.inj h
    rw [htake, hrest, Option.map_some, List.nil_append, convText_int, toInt_bmod, printfInt]

theorem snprintf_dir (v : UInt64) (hs : 0 < str) (hn : 1 ≤ n) (hl : n < 2 ^ 64) :
    snprintf m str n [byte '%', byte 'd', byte '/'] [.num v] =
      some (↑(Camellia.snprintf m str n (printfInt v.toNat ++ [byte '/'])).1,
        (Camellia.snprintf m str n (printfInt v.toNat ++ [byte '/'])).2) := by
  have hlen := length_printfInt v
  refine snprintf_piece hs hn hl (formatted_dir v) (by simp) ?_
  rw [List.length_append, List.length_singleton]
  omega

-- A call keeps to its contract for a text which is there and fits into an `int`. For an empty one the buffer is not
-- touched, and a buffer of no bytes is written to.
theorem snprintf_iff (hs : 0 < str) (hn : n < 2 ^ 64) (h : formatted fmt args = some txt) :
    (∀ m, ∃ ret m', snprintf m str n fmt args = some (ret, m') ∧ Contract m str n txt ret m') ↔
      txt.length < 2 ^ 31 ∧ (n = 0 ↔ txt = []) := by
  constructor
  case mp =>
    intro hc
    have hl : txt.length < 2 ^ 31 := by
      have ⟨ret, m', he, hm⟩ := hc (fun _ => 0)
      have ⟨printed, _, hp⟩ := snprintf_formatted (fun _ => 0) str n h
      have hlt : Int.bmod printed.length (2 ^ 32) < 2 ^ 31 := by
        rw [Int.bmod_def]
        split <;> omega
      rw [hp, Option.some.injEq, Prod.mk.injEq] at he
      have := hm.length
      omega
    have hc (m : Mem) : Contract m str n txt txt.length (stored m str n txt) := by
      have ⟨ret, m', he, hm⟩ := hc m
      obtain ⟨rfl, rfl⟩ := Prod.mk.inj <| Option.some.inj <| he.symm.trans (snprintf_short h hl)
      exact hm
    refine ⟨hl, fun hz => ?_, fun ht => ?_⟩
    case refine_1 =>
      by_contra ht
      subst hz
      -- The first byte of the text differs from what was there before.
      have := (hc fun _ => txt.headD 0 + 1).outside str (by omega)
      rw [stored_zero hs ht] at this
      exact absurd this (by simp)
    case refine_2 =>
      by_contra hz
      subst ht
      exact absurd ((hc fun _ => 1).terminated (by omega)) (by simp [stored])
  case mpr =>
    rintro ⟨hl, hz⟩ m
    refine ⟨_, _, snprintf_short h hl, ?_⟩
    by_cases hn₀ : n = 0
    case pos =>
      obtain rfl := hz.mp hn₀
      subst hn₀
      exact ⟨rfl, fun _ _ => rfl, by omega, by omega⟩
    case neg => exact contract_of_pos hs (by omega) hn (mt hz.mpr hn₀)

-- `snprintf(buf, 3, "h%d", 42)`, where the buffer is too small by a byte.
def fortyTwo : List UInt8 :=
  [byte 'h', byte '4', byte '2']

theorem snprintf_iff_fortyTwo :
    (∀ m, ∃ ret m', snprintf m 100 3 [byte 'h', byte '%', byte 'd'] [.num 42] = some (ret, m') ∧
      Contract m 100 3 fortyTwo ret m') ↔ fortyTwo.length < 2 ^ 31 ∧ (3 = 0 ↔ fortyTwo = []) :=
  snprintf_iff (by decide) (by decide) (by decide +kernel)

-- A test of the overflow handling in a buffer of 16 question marks.
example : (snprintf (fun _ => byte '?') 100 15 ("%05x %05x %05x".toList.map byte) [.num 0, .num 0, .num 0]).map
    (fun x => (x.1, x.2.slice 100 16)) = some (17, "00000 00000 00".toList.map byte ++ [0, byte '?']) := by
  decide +kernel

-- `snprintf(buf, 4, "%s", "")` leaves the buffer as it was, and `snprintf(buf, 0, "a")` stores two bytes.
theorem not_contract_empty :
    (∃ m, snprintf m 100 4 [byte '%', byte 's'] [.str (some [])] = some (0, m) ∧ ¬Contract m 100 4 [] 0 m) ∧
      ∃ m m', snprintf m 100 0 [byte 'a'] [] = some (1, m') ∧ ¬Contract m 100 0 [byte 'a'] 1 m' := by
  refine ⟨⟨fun _ => 1, ?_, fun hc => absurd (hc.terminated (by decide)) (by decide)⟩, fun _ => 1, ?_⟩
  case refine_1 =>
    have h : formatted [byte '%', byte 's'] [.str (some [])] = some [] := by decide +kernel
    exact snprintf_short h (by decide)
  case refine_2 =>
    have h : formatted [byte 'a'] [] = some [byte 'a'] := by decide +kernel
    refine ⟨_, snprintf_short h (by decide), fun hc => ?_⟩
    have := hc.outside 100 (by decide)
    rw [stored_zero (by decide) (by decide)] at this
    exact absurd this (by decide)

end Snprintf

end Camellia.Printf
