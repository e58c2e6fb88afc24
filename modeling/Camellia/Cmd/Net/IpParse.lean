import Camellia.Lib.Word
import Camellia.Libc.Strtol
import Camellia.Libk.Printf
import Mathlib.Data.Nat.Bitwise

namespace Camellia

def period : UInt8 := '.'.toUInt8

-- A `long` which is converted to `uint32_t`.
def toAddr (n : Int64) : UInt32 :=
  n.toUInt64.toUInt32

-- The loop of `ip_parse`, with `n` iterations left, and then `parts` and `ip`.
def ipParseLoop : (n parts : ℕ) → UInt32 → List UInt8 → Option (ℕ × UInt32)
  | 0, parts, ip, _          => some (parts, ip)
  | _ + 1, parts, ip, []     => some (parts, ip)
  | n + 1, parts, ip, c :: s =>
    if c ≠ period then
      none
    else
      let (v, s) := strtol s 0
      ipParseLoop n (parts + 1) ((ip <<< 8) + toAddr v) s

-- A string is a list of bytes which ends in front of its NUL.
def ipParse : Option (List UInt8) → Option UInt32
  | none   => none
  | some s => do
    let (v, s) := strtol s 0
    let (parts, ip) ← ipParseLoop 3 1 (toAddr v) s
    if 1 < parts then
      some (((ip &&& 0xFFFFFF00) <<< .ofNat (8 * (4 - parts))) ||| (ip &&& 0xFF))
    else
      some ip

section Dotted

-- A number is read by `strtol` to its end, and there is something behind the sign.
def number (seg : List UInt8) : Option Int :=
  if (strtol seg 0).2 = [] ∧ behindSign (seg.dropWhile isspace) ≠ [] then some (strtol seg 0).1.toInt else none

-- The address with four bytes, from the top byte down.
def fourBytes (a b c d : Int) : Option UInt32 :=
  if ∀ v ∈ [a, b, c, d], 0 ≤ v ∧ v < 256 then
    some ((UInt32.ofInt a <<< 24) ||| (UInt32.ofInt b <<< 16) ||| (UInt32.ofInt c <<< 8) ||| UInt32.ofInt d)
  else
    none

def address : List Int → Option UInt32
  | [v]          => if 0 ≤ v ∧ v < 2 ^ 32 then some (.ofInt v) else none
  | [a, d]       => fourBytes a 0 0 d
  | [a, b, d]    => fourBytes a b 0 d
  | [a, b, c, d] => fourBytes a b c d
  | _            => none

-- What the address of a string is, if it is one.
def dotted (s : List UInt8) : Option UInt32 :=
  ((s.splitOn period).mapM number).bind address

-- `strtol` stops inside of one of the first three parts.
def Stuck (s : List UInt8) : Prop :=
  ∃ seg ∈ (s.splitOn period).take 3, (strtol seg 0).2 ≠ []

end Dotted

section Strtol

variable {s seg t : List UInt8} {p : UInt8 → Bool} {c : UInt8} {b : ℕ}

theorem period_ne : period ≠ '-'.toUInt8 ∧ period ≠ '0'.toUInt8 ∧ period ≠ 'x'.toUInt8 ∧ period ≠ 'X'.toUInt8 := by
  decide

theorem takeWhile_stop (h : p c = false) : (s ++ c :: t).takeWhile p = s.takeWhile p := by
  induction s
  case nil => simp [h]
  case cons d s hi => by_cases hd : p d <;> simp [hd, hi]

theorem dropWhile_stop (h : p c = false) : (s ++ c :: t).dropWhile p = s.dropWhile p ++ c :: t := by
  induction s
  case nil => simp [h]
  case cons d s hi => by_cases hd : p d <;> simp [hd, hi]

theorem behindSign_period : behindSign (s ++ period :: t) = behindSign s ++ period :: t := by
  cases s
  case nil => rfl
  case cons d s => by_cases hd : signed (d :: s) <;> simp_all [behindSign, signed]

theorem withSign_period {n : ℕ} : withSign (s ++ period :: t) n = withSign s n := by
  cases s
  case nil => simp [withSign, period_ne]
  case cons d s => rfl

-- A prefix is never completed by a period.
theorem strtonBase_period : strtonBase 0 (s ++ period :: t) =
    ((strtonBase 0 s).1, (strtonBase 0 s).2 ++ period :: t) := by
  cases s
  case nil => simp [strtonBase, period_ne]
  case cons d s =>
    have hm : marked (d :: s ++ period :: t) = marked (d :: s) := by
      cases s
      case nil => simp [marked, period_ne]
      case cons e s => simp [marked]
    by_cases hd : d = '0'.toUInt8
    case neg => simp [strtonBase, hd]
    case pos =>
      subst hd
      rw [List.cons_append] at hm ⊢
      by_cases hx : marked ('0'.toUInt8 :: s) = true
      case neg => simp [strtonBase, hx, hm]
      case pos =>
        obtain ⟨x, r, hr, -⟩ := marked_iff.mp hx
        obtain rfl := (List.cons.inj hr).right
        rw [hx] at hm
        simpa [strtonBase, hx] using hm

theorem digitsOf_period : digitsOf (b, s ++ period :: t) = ((digitsOf (b, s)).1, (digitsOf (b, s)).2 ++ period :: t) := by
  have h : isDigit b period = false := rfl
  rw [digitsOf, takeWhile_stop h, dropWhile_stop h, digitsOf]

-- Nothing behind a period is read.
theorem strtol_period : strtol (s ++ period :: t) 0 = ((strtol s 0).1, (strtol s 0).2 ++ period :: t) := by
  rw [strtol_eq, strtol_eq, dropWhile_stop rfl, behindSign_period, strtonBase_period, digitsOf_period, withSign_period]

-- What is left of a string is its end.
theorem strtol_suffix : (strtol s 0).2 <:+ s := by
  have hsign : behindSign (s.dropWhile isspace) <:+ s := by
    rw [behindSign]
    split_ifs
    · exact (List.tail_suffix _).trans (List.dropWhile_suffix _)
    · exact List.dropWhile_suffix _
  have hbase (t : List UInt8) : (strtonBase 0 t).2 <:+ t := by
    rw [strtonBase]
    split_ifs
    · exact List.suffix_rfl
    · exact List.suffix_rfl
    · exact (List.tail_suffix _).trans (List.tail_suffix _)
    · exact List.tail_suffix _
  rw [strtol_eq]
  exact (List.dropWhile_suffix _).trans ((hbase _).trans hsign)

end Strtol

section Parts

variable {s seg t : List UInt8} {segs : List (List UInt8)} {n parts : ℕ} {ip : UInt32}

-- The loop of `ip_parse` seen from the parts of the string.
def readParts : (n parts : ℕ) → UInt32 → List (List UInt8) → Option (ℕ × UInt32)
  | _, _, _, []                  => none
  | 0, parts, ip, seg :: _       => some (parts, (ip <<< 8) + toAddr (strtol seg 0).1)
  | n + 1, parts, ip, seg :: segs =>
    if (strtol seg 0).2 ≠ [] then none
    else if segs = [] then some (parts, (ip <<< 8) + toAddr (strtol seg 0).1)
    else readParts n (parts + 1) ((ip <<< 8) + toAddr (strtol seg 0).1) segs

theorem splitOn_cases : period ∉ s ∧ s.splitOn period = [s] ∨
    ∃ seg t, period ∉ seg ∧ s = seg ++ period :: t ∧ s.splitOn period = seg :: t.splitOn period := by
  by_cases h : period ∈ s
  case neg => exact .inl ⟨h, List.splitOn_eq_singleton h⟩
  case pos =>
    obtain ⟨seg, t, rfl, hseg⟩ := List.eq_append_cons_of_mem h
    exact .inr ⟨seg, t, hseg, rfl, List.splitOn_append_cons_self_of_not_mem hseg t⟩

theorem ipParseLoop_eq : ipParseLoop n parts ((ip <<< 8) + toAddr (strtol s 0).1) (strtol s 0).2 =
    readParts n parts ip (s.splitOn period) := by
  induction n generalizing parts ip s
  case zero =>
    obtain ⟨-, h⟩ | ⟨seg, t, -, rfl, h⟩ := splitOn_cases (s := s)
    · rw [h]
      rfl
    · rw [h, strtol_period]
      rfl
  case succ n hi =>
    have hstop {seg r t : List UInt8} {c : UInt8} (hseg : period ∉ seg) (hr : (strtol seg 0).2 = c :: r) :
        c ≠ period := fun hc => hseg (strtol_suffix.subset (by rw [hr, hc]; exact List.mem_cons_self))
    obtain ⟨hs, h⟩ | ⟨seg, t, hseg, rfl, h⟩ := splitOn_cases (s := s)
    · rw [h, readParts]
      cases hr : (strtol s 0).2
      case nil => simp [ipParseLoop]
      case cons c r => rw [ipParseLoop, if_pos (hstop (t := []) hs hr), if_pos (List.cons_ne_nil _ _)]
    · rw [h, readParts, strtol_period]
      cases hr : (strtol seg 0).2
      case nil => simp [ipParseLoop, hi]
      case cons c r =>
        rw [List.cons_append, ipParseLoop, if_pos (hstop (t := []) hseg hr), if_pos (List.cons_ne_nil _ _)]

theorem readParts_eq_none (h : segs ≠ []) :
    readParts n parts ip segs = none ↔ ∃ seg ∈ segs.take n, (strtol seg 0).2 ≠ [] := by
  induction n generalizing parts ip segs
  case zero =>
    obtain ⟨seg, segs, rfl⟩ := List.exists_cons_of_ne_nil h
    simp [readParts]
  case succ n hi =>
    obtain ⟨seg, segs, rfl⟩ := List.exists_cons_of_ne_nil h
    rw [readParts, List.take_succ_cons]
    by_cases hseg : (strtol seg 0).2 = []
    case neg => simp [hseg]
    case pos =>
      by_cases hs : segs = []
      case pos => simp [hseg, hs]
      case neg => simp [hseg, hs, hi hs]

end Parts

section Address

variable {x y : UInt32} {i : ℕ}

theorem toNat_or_of_dvd (hx : 2 ^ i ∣ x.toNat) (hy : y.toNat < 2 ^ i) : (x ||| y).toNat = x.toNat + y.toNat := by
  obtain ⟨q, hq⟩ := hx
  rw [UInt32.toNat_or, hq, Nat.two_pow_add_eq_or_of_lt hy]

theorem toNat_shiftLeft_of_lt (hy : y.toNat < 32) (h : x.toNat * 2 ^ y.toNat < 2 ^ 32) :
    (x <<< y).toNat = x.toNat * 2 ^ y.toNat := by
  rw [UInt32.toNat_shiftLeft, Nat.mod_eq_of_lt hy, Nat.shiftLeft_eq, Nat.mod_eq_of_lt h]

theorem and_upper {n : ℕ} (h : n < 2 ^ 32) : n &&& 0xFFFFFF00 = 256 * (n / 256) := by
  have hm : 0xFFFFFF00 = (2 ^ 24 - 1) <<< 8 := by decide
  have hn : 256 * (n / 256) = n >>> 8 <<< 8 := by rw [Nat.shiftLeft_eq, Nat.shiftRight_eq_div_pow, Nat.mul_comm]
  rw [hm, hn]
  refine Nat.eq_of_testBit_eq fun i => ?_
  rw [Nat.testBit_and, Nat.testBit_shiftLeft, Nat.testBit_shiftLeft, Nat.testBit_shiftRight, Nat.testBit_two_pow_sub_one]
  by_cases hi : 8 ≤ i
  case neg => simp [hi]
  case pos =>
    by_cases hlt : i < 32
    case pos => simp [hi, show 8 + (i - 8) = i by omega, show i - 8 < 24 by omega]
    case neg =>
      have := Nat.testBit_lt_two_pow (lt_of_lt_of_le h (Nat.pow_le_pow_right Nat.two_pos (Nat.le_of_not_lt hlt)))
      simp [show 8 + (i - 8) = i by omega, this]

theorem toNat_ofInt (v : Int) : ((UInt32.ofInt v).toNat : Int) = v % 2 ^ 32 := by
  have := Int.emod_lt_of_pos v (b := 2 ^ 32) (by decide)
  rw [UInt32.ofInt, UInt32.toNat_ofNat_of_lt' (by simp only [UInt32.size]; omega)]
  exact Int.toNat_of_nonneg (Int.emod_nonneg v (by decide))

theorem ofInt_natCast (n : ℕ) : UInt32.ofInt n = .ofNat n := by
  have := toNat_ofInt n
  refine UInt32.toNat_inj.mp ?_
  rw [UInt32.toNat_ofNat']
  omega

theorem toAddr_eq (n : Int64) : toAddr n = .ofInt n.toInt := by
  have h := toNat_toUInt64 n
  have h' := toNat_ofInt n.toInt
  refine UInt32.toNat_inj.mp ?_
  rw [toAddr, UInt64.toNat_toUInt32]
  omega

-- One more part.
theorem toNat_next {ip d : UInt32} (hip : ip.toNat < 2 ^ 24) (hd : d.toNat < 256) :
    ((ip <<< 8) + d).toNat = 256 * ip.toNat + d.toNat := by
  have hs : (ip <<< 8).toNat = ip.toNat * 2 ^ 8 := toNat_shiftLeft_of_lt (by decide) (by simp; omega)
  rw [UInt32.toNat_add, hs, Nat.mod_eq_of_lt (by omega)]
  omega

-- The last part stays where it is.
theorem toNat_place {ip : UInt32} (hy : y.toNat < 32) (h : 256 * (ip.toNat / 256) * 2 ^ y.toNat < 2 ^ 32) :
    (((ip &&& 0xFFFFFF00) <<< y) ||| (ip &&& 0xFF)).toNat =
      256 * (ip.toNat / 256) * 2 ^ y.toNat + ip.toNat % 256 := by
  have hu : (ip &&& 0xFFFFFF00).toNat = 256 * (ip.toNat / 256) := by
    rw [UInt32.toNat_and]
    exact and_upper ip.toNat_lt
  have hl : (ip &&& 0xFF).toNat = ip.toNat % 256 := by
    rw [UInt32.toNat_and]
    exact Nat.and_two_pow_sub_one_eq_mod _ 8
  have hs := toNat_shiftLeft_of_lt hy (hu ▸ h)
  rw [toNat_or_of_dvd (i := 8) (by rw [hs, hu, Nat.mul_assoc]; exact ⟨_, rfl⟩) (by rw [hl]; omega), hs, hu, hl]

theorem toNat_fourBytes {a b c d : UInt32} (ha : a.toNat < 256) (hb : b.toNat < 256) (hc : c.toNat < 256) (hd : d.toNat < 256) :
    ((a <<< 24) ||| (b <<< 16) ||| (c <<< 8) ||| d).toNat =
      2 ^ 24 * a.toNat + 2 ^ 16 * b.toNat + 2 ^ 8 * c.toNat + d.toNat := by
  have hsa : (a <<< 24).toNat = a.toNat * 2 ^ 24 := toNat_shiftLeft_of_lt (by decide) (by simp; omega)
  have hsb : (b <<< 16).toNat = b.toNat * 2 ^ 16 := toNat_shiftLeft_of_lt (by decide) (by simp; omega)
  have hsc : (c <<< 8).toNat = c.toNat * 2 ^ 8 := toNat_shiftLeft_of_lt (by decide) (by simp; omega)
  have hab := toNat_or_of_dvd (x := a <<< 24) (y := b <<< 16) (i := 24) (by omega) (by omega)
  have habc := toNat_or_of_dvd (x := (a <<< 24) ||| (b <<< 16)) (y := c <<< 8) (i := 16) (by omega) (by omega)
  have habcd := toNat_or_of_dvd (x := (a <<< 24) ||| (b <<< 16) ||| (c <<< 8)) (y := d) (i := 8) (by omega) (by omega)
  omega

end Address

section Dotted

variable {s seg : List UInt8} {segs : List (List UInt8)} {vs : List Int} {v : Int} {x : UInt32}

def placed : ℕ × UInt32 → UInt32
  | (parts, ip) => if 1 < parts then ((ip &&& 0xFFFFFF00) <<< .ofNat (8 * (4 - parts))) ||| (ip &&& 0xFF) else ip

theorem ipParse_eq : ipParse (some s) = (readParts 3 1 0 (s.splitOn period)).map placed := by
  have h : ipParseLoop 3 1 (((0 : UInt32) <<< 8) + toAddr (strtol s 0).1) (strtol s 0).2 = readParts 3 1 0 (s.splitOn period) :=
    ipParseLoop_eq
  rw [show ((0 : UInt32) <<< 8) + toAddr (strtol s 0).1 = toAddr (strtol s 0).1 by simp] at h
  rw [← h]
  change (ipParseLoop 3 1 (toAddr (strtol s 0).1) (strtol s 0).2).bind _ = _
  cases ipParseLoop 3 1 (toAddr (strtol s 0).1) (strtol s 0).2
  case none => rfl
  case some r =>
    obtain ⟨parts, ip⟩ := r
    simp only [Option.bind_some, Option.map_some, placed]
    split_ifs <;> rfl

theorem number_eq_some (h : number seg = some v) : (strtol seg 0).2 = [] ∧ toAddr (strtol seg 0).1 = .ofInt v := by
  rw [number] at h
  split_ifs at h with hseg
  rw [toAddr_eq, Option.some_inj.mp h]
  exact ⟨hseg.left, rfl⟩

theorem mapM_eq_some : segs.mapM number = some vs ↔ segs.map number = vs.map some := by
  induction segs generalizing vs
  case nil => cases vs <;> simp
  case cons seg segs hi =>
    rw [List.mapM_cons]
    cases hv : number seg
    case none => cases vs <;> simp [hv]
    case some v =>
      cases vs <;> cases hvs : segs.mapM number <;> simp [hv, ← hi, hvs]

theorem toNat_byte (h : 0 ≤ v ∧ v < 256) : (UInt32.ofInt v).toNat = v.toNat ∧ (UInt32.ofInt v).toNat < 256 := by
  have := toNat_ofInt v
  omega

theorem fourBytes_eq_some {a b c d : Int} (h : fourBytes a b c d = some x) :
    (0 ≤ a ∧ a < 256) ∧ (0 ≤ b ∧ b < 256) ∧ (0 ≤ c ∧ c < 256) ∧ (0 ≤ d ∧ d < 256) ∧
      x.toNat = 2 ^ 24 * a.toNat + 2 ^ 16 * b.toNat + 2 ^ 8 * c.toNat + d.toNat := by
  rw [fourBytes] at h
  split_ifs at h with hv
  simp only [List.forall_mem_cons] at hv
  obtain ⟨ha, hb, hc, hd, -⟩ := hv
  refine ⟨ha, hb, hc, hd, ?_⟩
  rw [← Option.some_inj.mp h, toNat_fourBytes (toNat_byte ha).right (toNat_byte hb).right (toNat_byte hc).right
    (toNat_byte hd).right, (toNat_byte ha).left, (toNat_byte hb).left, (toNat_byte hc).left, (toNat_byte hd).left]

theorem address_cases (h : address vs = some x) :
    (∃ v, vs = [v] ∧ x = .ofInt v) ∨ (∃ a d, vs = [a, d] ∧ fourBytes a 0 0 d = some x) ∨
      (∃ a b d, vs = [a, b, d] ∧ fourBytes a b 0 d = some x) ∨
      ∃ a b c d, vs = [a, b, c, d] ∧ fourBytes a b c d = some x := by
  unfold address at h
  split at h
  case h_1 v =>
    split_ifs at h
    exact .inl ⟨v, rfl, (Option.some_inj.mp h).symm⟩
  case h_2 a d     => exact .inr (.inl ⟨a, d, rfl, h⟩)
  case h_3 a b d   => exact .inr (.inr (.inl ⟨a, b, d, rfl, h⟩))
  case h_4 a b c d => exact .inr (.inr (.inr ⟨a, b, c, d, rfl, h⟩))
  case h_5         => contradiction

theorem toNat_placed (parts : ℕ) {ip : UInt32} (hp : 1 < parts) (hlt : parts ≤ 4)
    (h : 256 * (ip.toNat / 256) * 2 ^ (8 * (4 - parts)) < 2 ^ 32) :
    (placed (parts, ip)).toNat = 256 * (ip.toNat / 256) * 2 ^ (8 * (4 - parts)) + ip.toNat % 256 := by
  have hs : (UInt32.ofNat (8 * (4 - parts))).toNat = 8 * (4 - parts) := by
    rw [UInt32.toNat_ofNat_of_lt' (by simp only [UInt32.size]; omega)]
  simp only [placed, if_pos hp]
  rw [toNat_place (by omega) (by rwa [hs]), hs]

theorem map_number_cons (h : segs.map number = (v :: vs).map some) :
    ∃ seg segs', segs = seg :: segs' ∧ ((strtol seg 0).2 = [] ∧ toAddr (strtol seg 0).1 = .ofInt v) ∧
      segs'.map number = vs.map some := by
  obtain ⟨seg, segs', rfl, hseg, hsegs⟩ := List.map_eq_cons_iff.mp h
  exact ⟨seg, segs', rfl, number_eq_some hseg, hsegs⟩

-- What the loop has read if there are only bytes.
theorem readParts_bytes (n parts : ℕ) (ip : UInt32) (hmap : segs.map number = vs.map some) (hne : vs ≠ [])
    (hlen : vs.length ≤ n + 1) (hv : ∀ v ∈ vs, 0 ≤ v ∧ v < 256) (hip : (ip.toNat + 1) * 256 ^ vs.length ≤ 2 ^ 32) :
    ∃ ip', readParts n parts ip segs = some (parts + (vs.length - 1), ip') ∧
      ip'.toNat = vs.foldl (fun k v => 256 * k + v.toNat) ip.toNat := by
  induction vs generalizing segs n parts ip
  case nil => contradiction
  case cons v vs hi =>
    obtain ⟨seg, segs, rfl, ⟨hseg, haddr⟩, hmap⟩ := map_number_cons hmap
    obtain ⟨hbyte, hlt⟩ := toNat_byte (hv v List.mem_cons_self)
    rw [List.length_cons, Nat.pow_succ', ← Nat.mul_assoc] at hip
    have hnext : ((ip <<< 8) + .ofInt v).toNat = 256 * ip.toNat + v.toNat := by
      rw [← hbyte]
      refine toNat_next ?_ hlt
      have := (Nat.le_mul_of_pos_right _ (Nat.pow_pos (n := vs.length) (by decide))).trans hip
      omega
    by_cases hvs : vs = []
    case pos =>
      subst hvs
      obtain rfl := List.map_eq_nil_iff.mp hmap
      refine ⟨(ip <<< 8) + .ofInt v, ?_, hnext⟩
      cases n <;> simp [readParts, hseg, haddr]
    case neg =>
      have hpos := List.length_pos_iff.mpr hvs
      rw [List.length_cons] at hlen
      obtain ⟨n, rfl⟩ : ∃ k, n = k + 1 := ⟨n - 1, by omega⟩
      have hsegs : segs ≠ [] := fun hs => hvs (List.map_eq_nil_iff.mp (by rw [← hmap, hs]; rfl))
      have hle : 256 * ip.toNat + v.toNat + 1 ≤ (ip.toNat + 1) * 256 := by omega
      obtain ⟨ip', hread, hip'⟩ := hi n (parts + 1) ((ip <<< 8) + .ofInt v) hmap hvs (Nat.le_of_succ_le_succ hlen)
        (fun v hv' => hv v (List.mem_cons_of_mem _ hv'))
        (hnext ▸ (Nat.mul_le_mul_right (256 ^ vs.length) hle).trans hip)
      refine ⟨ip', ?_, ?_⟩
      · rw [readParts, if_neg (by simp [hseg]), if_neg hsegs, haddr, hread, List.length_cons]
        congr 2
        omega
      · rw [hip', hnext]
        rfl

-- A string which is an address is parsed to it.
theorem ipParse_of_dotted (h : dotted s = some x) : ipParse (some s) = some x := by
  obtain ⟨vs, hvs, hx⟩ := Option.bind_eq_some_iff.mp h
  have hmap := mapM_eq_some.mp hvs
  rw [ipParse_eq, Option.map_eq_some_iff]
  generalize s.splitOn period = segs at hmap
  obtain ⟨v, rfl, rfl⟩ | ⟨a, d, rfl, hx⟩ | ⟨a, b, d, rfl, hx⟩ | ⟨a, b, c, d, rfl, hx⟩ := address_cases hx
  · obtain ⟨seg, _, rfl, ⟨hseg, haddr⟩, hnil⟩ := map_number_cons hmap
    obtain rfl := List.map_eq_nil_iff.mp hnil
    exact ⟨(1, .ofInt v), by simp [readParts, hseg, haddr], rfl⟩
  · obtain ⟨ha, -, -, hd, hx⟩ := fourBytes_eq_some hx
    obtain ⟨ip, hread, hip⟩ := readParts_bytes 3 1 0 hmap (List.cons_ne_nil _ _) (by simp) (by simp [ha, hd]) (by simp)
    refine ⟨_, hread, UInt32.toNat_inj.mp ?_⟩
    simp only [List.foldl_cons, List.foldl_nil, UInt32.toNat_zero] at hip
    rw [List.length_cons, List.length_singleton, toNat_placed 2 (by decide) (by decide) (by omega), hx]
    simp only [Int.toNat_zero]
    omega
  · obtain ⟨ha, hb, -, hd, hx⟩ := fourBytes_eq_some hx
    obtain ⟨ip, hread, hip⟩ := readParts_bytes 3 1 0 hmap (List.cons_ne_nil _ _) (by simp) (by simp [ha, hb, hd]) (by simp)
    refine ⟨_, hread, UInt32.toNat_inj.mp ?_⟩
    simp only [List.foldl_cons, List.foldl_nil, UInt32.toNat_zero] at hip
    rw [List.length_cons, List.length_cons, List.length_singleton, toNat_placed 3 (by decide) (by decide) (by omega), hx]
    simp only [Int.toNat_zero]
    omega
  · obtain ⟨ha, hb, hc, hd, hx⟩ := fourBytes_eq_some hx
    obtain ⟨ip, hread, hip⟩ := readParts_bytes 3 1 0 hmap (List.cons_ne_nil _ _) (by simp) (by simp [ha, hb, hc, hd])
      (by simp)
    refine ⟨_, hread, UInt32.toNat_inj.mp ?_⟩
    simp only [List.foldl_cons, List.foldl_nil, UInt32.toNat_zero] at hip
    rw [List.length_cons, List.length_cons, List.length_cons, List.length_singleton,
      toNat_placed 4 (by decide) (by decide) (by omega), hx]
    omega

theorem number_decimal {n : ℕ} (h : n < 256) : number (decimal n) = some n ∧ period ∉ decimal n := by
  have hall : ∀ n < 256, number (decimal n) = some n ∧ period ∉ decimal n := by decide +kernel
  exact hall n h

-- Decimal numbers which are separated by periods.
def dottedDecimal (a b c d : ℕ) : List UInt8 :=
  decimal a ++ period :: (decimal b ++ period :: (decimal c ++ period :: decimal d))

theorem dotted_dottedDecimal {a b c d : ℕ} (ha : a < 256) (hb : b < 256) (hc : c < 256) (hd : d < 256) :
    dotted (dottedDecimal a b c d) =
      some ((UInt32.ofNat a <<< 24) ||| (UInt32.ofNat b <<< 16) ||| (UInt32.ofNat c <<< 8) ||| UInt32.ofNat d) := by
  obtain ⟨hna, hpa⟩ := number_decimal ha
  obtain ⟨hnb, hpb⟩ := number_decimal hb
  obtain ⟨hnc, hpc⟩ := number_decimal hc
  obtain ⟨hnd, hpd⟩ := number_decimal hd
  have hsplit : (dottedDecimal a b c d).splitOn period = [decimal a, decimal b, decimal c, decimal d] := by
    rw [dottedDecimal, List.splitOn_append_cons_self_of_not_mem hpa, List.splitOn_append_cons_self_of_not_mem hpb,
      List.splitOn_append_cons_self_of_not_mem hpc, List.splitOn_eq_singleton hpd]
  have hmap : [decimal a, decimal b, decimal c, decimal d].map number = [(a : Int), b, c, d].map some := by
    simp [hna, hnb, hnc, hnd]
  have hbytes : ∀ v ∈ [(a : Int), b, c, d], 0 ≤ v ∧ v < 256 := by
    simp
    omega
  rw [dotted, hsplit, mapM_eq_some.mpr hmap, Option.bind_some, address, fourBytes, if_pos hbytes]
  simp only [ofInt_natCast]

-- A string for which the loop stops is no address, but it also lets a part pass which is empty or too large, and does not
-- look at what is behind the fourth part.
theorem ipParse_eq_dotted_iff : (ipParse (some s) = dotted s ↔ (dotted s).isSome ∨ Stuck s) ∧
    ∀ a < 256, ∀ b < 256, ∀ c < 256, ∀ d < 256, ipParse (some (dottedDecimal a b c d)) =
      some ((UInt32.ofNat a <<< 24) ||| (UInt32.ofNat b <<< 16) ||| (UInt32.ofNat c <<< 8) ||| UInt32.ofNat d) := by
  refine ⟨?_, fun a ha b hb c hc d hd => ipParse_of_dotted (dotted_dottedDecimal ha hb hc hd)⟩
  cases hd : dotted s
  case some x => simp [ipParse_of_dotted hd]
  case none =>
    rw [ipParse_eq, Option.map_eq_none_iff, readParts_eq_none (List.splitOn_ne_nil period s)]
    simp [Stuck]

-- "192.168.0.1"
theorem ipParse_eq_dotted_local : ipParse (some ("192.168.0.1".toList.map Char.toUInt8)) = some 0xC0A80001 :=
  ipParse_eq_dotted_iff (s := []).right 192 (by decide) 168 (by decide) 0 (by decide) 1 (by decide)

-- An empty part, trailing text, a part which is carried into the one in front of it, and a number which does not fit.
theorem not_ipParse_eq_dotted :
    (ipParse (some ("1..2".toList.map Char.toUInt8)) = some 0x01000002 ∧ dotted ("1..2".toList.map Char.toUInt8) = none) ∧
      (ipParse (some ("1.2.3.4x".toList.map Char.toUInt8)) = some 0x01020304 ∧
        dotted ("1.2.3.4x".toList.map Char.toUInt8) = none) ∧
      (ipParse (some ("1.256.3.4".toList.map Char.toUInt8)) = some 0x02000304 ∧
        dotted ("1.256.3.4".toList.map Char.toUInt8) = none) ∧
      ipParse (some ("4294967297".toList.map Char.toUInt8)) = some 1 ∧ dotted ("4294967297".toList.map Char.toUInt8) = none := by
  decide +kernel

end Dotted
end Camellia
