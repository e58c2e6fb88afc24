import Camellia.Libc.Strtol
import Camellia.Libk.Snprintf

namespace Camellia.Printf

-- What a backend gets which collects everything.
def printed (fmt : List UInt8) (args : List Arg) : Option (List UInt8) :=
  (printfInternal fmt args (fun txt buf => txt ++ buf) []).map (·.1)

-- `%ld` and its like with a field width, where a width of 0 is none.
def paddedFormat (zero : Bool) (w : ℕ) (conv : Char) : List UInt8 :=
  byte '%' :: (if zero then [byte '0'] else []) ++ (if w = 0 then [] else numeral 10 w) ++ [byte 'l', byte conv]

-- The minus sign, if any, is directly in front of all digits, and only spaces are in front of it.
def SignFirst (n : Int64) (txt : List UInt8) : Prop :=
  ∃ k digits, txt = List.replicate k (byte ' ') ++ (if n < 0 then [minus] else []) ++ digits ∧ ∀ c ∈ digits, isDigit 10 c = true

structure IntReadsBack (zero : Bool) (w : ℕ) (n : Int64) (txt : List UInt8) : Prop where
  length : txt.length = max w ((numeral 10 n.toInt.natAbs).length + if n < 0 then 1 else 0)
  sign   : SignFirst n txt
  value  : strtol txt 10 = (n, [])

structure UnsignedReadsBack (base w : ℕ) (n : UInt64) (txt : List UInt8) : Prop where
  length : txt.length = max w (numeral base n.toNat).length
  value  : strtoul txt base = (n, [])

-- A word is read back whether it is printed as a `long`, or in the base 16 or 8.
structure ReadsBack (zero : Bool) (w : ℕ) (n : UInt64) : Prop where
  int   : ∃ txt, printed (paddedFormat zero w 'd') [.num n] = some txt ∧ IntReadsBack zero w n.toInt64 txt
  hex   : ∃ txt, printed (paddedFormat zero w 'x') [.num n] = some txt ∧ UnsignedReadsBack 16 w n txt
  octal : ∃ txt, printed (paddedFormat zero w 'o') [.num n] = some txt ∧ UnsignedReadsBack 8 w n txt

section Digits

variable {base d n k w : ℕ} {c : UInt8} {fmt txt digits sign : List UInt8} {args : List Arg} {zero : Bool} {conv : Char}

theorem digitValue_hexChar (h : d < 16) : digitValue (hexChar d) = some d := by
  interval_cases d <;> decide

theorem value_map (l : List ℕ) (h : ∀ d ∈ l, d < 16) : value base (l.reverse.map hexChar) = Nat.ofDigits base l := by
  induction l
  case nil => rfl
  case cons d l hi =>
    have hd := digitValue_hexChar (h d (List.mem_cons_self ..))
    have hl := hi fun d hd => h d (List.mem_cons_of_mem _ hd)
    rw [value] at hl ⊢
    rw [List.reverse_cons, List.map_append, List.foldl_append, hl, Nat.ofDigits_cons]
    simp [hd, Nat.mul_comm, Nat.add_comm]

theorem digitValue_zero : digitValue (byte '0') = some 0 := by
  decide

theorem digits_lt (hb : 1 < base) (h₁₆ : base ≤ 16) : ∀ d ∈ Nat.digits base n, d < 16 :=
  fun _ hd => Nat.lt_of_lt_of_le (Nat.digits_lt_base hb hd) h₁₆

theorem value_numeral (hb : 1 < base) (h₁₆ : base ≤ 16) : value base (numeral base n) = n := by
  rw [numeral]
  split
  case isTrue h  => simp [h, value, digitValue_zero]
  case isFalse h => rw [value_map _ (digits_lt hb h₁₆), Nat.ofDigits_digits]

theorem isDigit_numeral (hb : 1 < base) (h₁₆ : base ≤ 16) : ∀ c ∈ numeral base n, isDigit base c = true := by
  intro c hc
  rw [numeral] at hc
  split at hc
  case isTrue h =>
    obtain rfl := List.mem_singleton.mp hc
    simpa [isDigit, digitValue_zero] using Nat.lt_of_succ_lt hb
  case isFalse h =>
    obtain ⟨d, hd, rfl⟩ := List.mem_map.mp hc
    have hd := List.mem_reverse.mp hd
    rw [isDigit, digitValue_hexChar (digits_lt hb h₁₆ d hd)]
    exact decide_eq_true (Nat.digits_lt_base hb hd)

theorem numeral_ne_nil : numeral base n ≠ [] := by
  rw [numeral]
  split
  · simp
  · rename_i h
    simpa using Nat.digits_ne_nil_iff_ne_zero.mpr h

-- Zeros in front of a number do not count.
theorem value_zeros (ds : List UInt8) : value base (List.replicate k (byte '0') ++ ds) = value base ds := by
  induction k
  case zero      => rfl
  case succ k hi => rwa [List.replicate_succ, List.cons_append, value, List.foldl_cons, digitValue_zero, Nat.zero_mul]

theorem isDigit_zeros (hb : 1 < base) {ds : List UInt8} (h : ∀ c ∈ ds, isDigit base c = true) :
    ∀ c ∈ List.replicate k (byte '0') ++ ds, isDigit base c = true := by
  intro c hc
  cases List.mem_append.mp hc
  case inl hc =>
    rw [List.eq_of_mem_replicate hc, isDigit, digitValue_zero]
    exact decide_eq_true (Nat.lt_of_succ_lt hb)
  case inr hc => exact h c hc

-- No digit is taken for something that may be in front of one.
theorem not_isspace_of_isDigit (h : isDigit base c = true) :
    isspace c = false ∧ c ≠ '+'.toUInt8 ∧ c ≠ '-'.toUInt8 := by
  have hn (x : UInt8) (hx : digitValue x = none) : c ≠ x := fun he => by simp [isDigit, he, hx] at h
  refine ⟨?_, hn _ (by decide), hn _ (by decide)⟩
  simp only [isspace, decide_eq_false_iff_not, not_or]
  exact ⟨hn _ (by decide), hn _ (by decide), hn _ (by decide), hn _ (by decide), hn _ (by decide), hn _ (by decide)⟩

-- What is read of a number with its sign, behind some spaces.
theorem strton_signed (neg : Bool) (hb : base ≠ 0) (hne : digits ≠ []) (h : ∀ c ∈ digits, isDigit base c = true) :
    strton (List.replicate k (byte ' ') ++ (if neg then [minus] else []) ++ digits) base =
      (.ofNat (value base digits), [], if neg then -1 else 1) := by
  obtain ⟨c, ds, rfl⟩ := List.exists_cons_of_ne_nil hne
  have ⟨hs, hp, hm⟩ := not_isspace_of_isDigit (h c (List.mem_cons_self ..))
  have hspace : ∀ c ∈ List.replicate k (byte ' '), isspace c = true := fun c hc => by
    rw [List.eq_of_mem_replicate hc]
    decide
  have hminus : isspace minus = false ∧ minus = '-'.toUInt8 := by decide
  have htake : (c :: ds).takeWhile (isDigit base) = c :: ds := List.takeWhile_eq_self_iff.mpr h
  have hdrop : (c :: ds).dropWhile (isDigit base) = [] := List.dropWhile_eq_nil_iff.mpr h
  have hd : (List.replicate k (byte ' ') ++ (if neg then [minus] else []) ++ c :: ds).dropWhile isspace =
      (if neg then [minus] else []) ++ c :: ds := by
    rw [List.append_assoc, List.dropWhile_append_of_pos hspace]
    cases neg
    · simp [hs]
    · simp [hminus.left]
  simp only [strton, hd, strtonLoop_zero]
  cases neg
  · simp [behindSign, signed, hp, hm, strtonBase, hb, htake, hdrop, strtonSign]
  · simp [behindSign, signed, hminus.right, strtonBase, hb, htake, hdrop, strtonSign]

end Digits

section Format

variable {d w : ℕ} {r : List UInt8} {zero : Bool} {conv : Char} {n : UInt64} {c : Conv}

theorem number_hexChar (h : d < 10) (m : UInt64) : number (hexChar d :: r) m = number r (m * 10 + .ofNat d) := by
  have hc : byte '0' ≤ hexChar d ∧ hexChar d ≤ byte '9' ∧ (hexChar d - byte '0').toUInt64 = .ofNat d := by
    interval_cases d <;> decide
  rw [number, if_pos ⟨hc.left, hc.right.left⟩, hc.right.right]

theorem number_map (l : List ℕ) (h : ∀ d ∈ l, d < 10) :
    number (l.reverse.map hexChar ++ r) 0 = number r (.ofNat (Nat.ofDigits 10 l)) := by
  induction l generalizing r
  case nil => rfl
  case cons d l hi =>
    rw [List.reverse_cons, List.map_append, List.append_assoc, hi fun d hd => h d (List.mem_cons_of_mem _ hd), List.map_singleton,
      List.singleton_append, number_hexChar (h d (List.mem_cons_self ..)), Nat.ofDigits_cons]
    congr 1
    rw [Nat.add_comm, UInt64.ofNat_add, UInt64.ofNat_mul, UInt64.mul_comm]
    rfl

theorem number_width : number ((if w = 0 then [] else numeral 10 w) ++ [byte 'l', byte conv]) 0 =
    (.ofNat w, [byte 'l', byte conv]) := by
  have hl (m : UInt64) : number [byte 'l', byte conv] m = (m, [byte 'l', byte conv]) := by
    rw [number, if_neg (by decide)]
  split
  case isTrue h  => rw [h]; exact hl 0
  case isFalse h =>
    rw [numeral, if_neg h, number_map _ fun d hd => Nat.digits_lt_base (by decide) hd, Nat.ofDigits_digits, hl]

-- A field width does not start with the flag.
theorem flags_width (f : UInt8) : flags ((if w = 0 then [] else numeral 10 w) ++ [byte 'l', byte conv]) f =
    (f, (if w = 0 then [] else numeral 10 w) ++ [byte 'l', byte conv]) := by
  split
  case isTrue h  => rw [List.nil_append, flags, if_neg (by decide)]
  case isFalse h =>
    have hne : Nat.digits 10 w ≠ [] := Nat.digits_ne_nil_iff_ne_zero.mpr h
    have hlast := Nat.getLast_digit_ne_zero 10 h
    have hlt := Nat.digits_lt_base (by decide : 1 < 10) (List.getLast_mem hne)
    have hz : hexChar ((Nat.digits 10 w).getLast hne) ≠ byte '0' := fun he => by
      have := digitValue_hexChar (d := (Nat.digits 10 w).getLast hne) (by omega)
      rw [he, digitValue_zero, Option.some.injEq] at this
      exact hlast this.symm
    rw [numeral, if_neg h]
    conv_lhs => rw [← List.dropLast_append_getLast hne]
    conv_rhs => rw [← List.dropLast_append_getLast hne]
    simp [flags, hz]

theorem formatted_padded (hc : byte conv ≠ byte 'l') (hf : fetch (byte conv) .long [.num n] = some (c, [])) :
    formatted (paddedFormat zero w conv) [.num n] =
      some (convText ⟨if zero then byte '0' else byte ' ', .ofNat w, 0⟩ c) := by
  have ho : ordinary (byte '%') = false := by decide
  have hflags : flags ((if zero then [byte '0'] else []) ++ ((if w = 0 then [] else numeral 10 w) ++ [byte 'l', byte conv]))
      (byte ' ') = (if zero then byte '0' else byte ' ', (if w = 0 then [] else numeral 10 w) ++ [byte 'l', byte conv]) := by
    cases zero
    case false => exact flags_width _
    case true  => exact flags_width (byte '0')
  have htake : (paddedFormat zero w conv).takeWhile ordinary = [] := by simp [paddedFormat, ho]
  have hdrop : (paddedFormat zero w conv).dropWhile ordinary = byte '%' ::
      ((if zero then [byte '0'] else []) ++ ((if w = 0 then [] else numeral 10 w) ++ [byte 'l', byte conv])) := by
    simp [paddedFormat, ho]
  have hne : ((paddedFormat zero w conv).dropWhile ordinary).head?.getD 0 ≠ 0 := by
    rw [hdrop]
    exact (by decide : byte '%' ≠ 0)
  have hd : directive ((paddedFormat zero w conv).dropWhile ordinary).tail [.num n] =
      some ⟨⟨if zero then byte '0' else byte ' ', .ofNat w, 0⟩, c, [], []⟩ := by
    have hp : precision [byte 'l', byte conv] [.num n] = some (0, [byte 'l', byte conv], [.num n]) := by
      rw [precision, if_pos (by decide)]
    have hl : lenmod [byte 'l', byte conv] = (.long, [byte conv]) := by
      have hb : Char.ofUInt8 (byte 'l') = 'l' := by decide
      simp [lenmod, hb, hc]
    rw [hdrop, List.tail_cons]
    simp [directive, hflags, number_width, hp, hl, hf]
  have hnil : formatted [] [] = some [] := by
    rw [formatted, if_pos (by decide)]
    rfl
  rw [formatted, if_neg hne, hd]
  simp only [hnil, htake, Option.map_some, List.nil_append, List.append_nil]

-- The backend gets the pieces of a text one after another.
theorem printed_eq {fmt txt : List UInt8} {args : List Arg} (h : formatted fmt args = some txt) (hl : txt.length < 2 ^ 31) :
    printed fmt args = some txt := by
  have hb (s : Sink (List UInt8)) (xs ys : List UInt8) : Sink.back (fun txt buf => txt ++ buf)
      (Sink.back (fun txt buf => txt ++ buf) s xs) ys = Sink.back (fun txt buf => txt ++ buf) s (xs ++ ys) := by
    simp only [Sink.back, Int.bmod_add_bmod, List.length_append, Int.natCast_add, Int.add_assoc, List.append_assoc]
  obtain ⟨u, hu, hrun⟩ := printfLoop_formatted hb h
  obtain ⟨os, ho, hh⟩ := hrun (Cached.holds_empty (s := ⟨[], 0⟩) (by decide))
  have hf : flush (fun txt buf => txt ++ buf) os = _ := hh.flush hb
  rw [printed, printfInternal, ho, Option.map_some, Option.map_some, hf, List.nil_append, hu hl]
  cases txt
  case nil  => rfl
  case cons => simp [Cached.passed, Sink.back]

end Format

section ReadBack

variable {base w : ℕ} {n : UInt64} {zero : Bool} {f : UInt8} {sign : Option UInt8}

-- A text without a precision.
theorem numeralText_eq (hw : w < 2 ^ 31) (m : ℕ) : numeralText base ⟨f, .ofNat w, 0⟩ m sign =
    List.replicate (w - ((numeral base m).length + sign.toList.length)) f ++ sign.toList ++ numeral base m := by
  have hl : (UInt64.ofNat w).toNat = w := toNat_ofNat_length hw
  simp [numeralText, hl]

theorem length_numeralText (hw : w < 2 ^ 31) (m : ℕ) : (numeralText base ⟨f, .ofNat w, 0⟩ m sign).length =
    max w ((numeral base m).length + sign.toList.length) := by
  rw [numeralText_eq hw]
  simp
  omega

-- The padding stays in front of an unsigned number, whether it is a space or a digit.
theorem strton_numeralText (h₁ : 1 < base) (h₁₆ : base ≤ 16) (hw : w < 2 ^ 31) (m : ℕ) :
    strton (numeralText base ⟨if zero then byte '0' else byte ' ', .ofNat w, 0⟩ m none) base = (.ofNat m, [], 1) := by
  have hb : base ≠ 0 := Nat.ne_of_gt (Nat.lt_of_succ_lt h₁)
  rw [numeralText_eq hw]
  cases zero
  case false =>
    have := strton_signed (k := w - ((numeral base m).length + 0)) false hb numeral_ne_nil (isDigit_numeral (n := m) h₁ h₁₆)
    simpa [value_numeral h₁ h₁₆] using this
  case true =>
    have hd : ∀ c ∈ List.replicate (w - ((numeral base m).length + 0)) (byte '0') ++ numeral base m, isDigit base c = true :=
      isDigit_zeros h₁ (isDigit_numeral h₁ h₁₆)
    have := strton_signed (k := 0) false hb (List.append_ne_nil_of_right_ne_nil _ numeral_ne_nil) hd
    simpa [value_zeros, value_numeral h₁ h₁₆] using this

theorem unsignedReadsBack (h₁ : 1 < base) (h₁₆ : base ≤ 16) (hw : w < 2 ^ 31) (n : UInt64) :
    UnsignedReadsBack base w n (numeralText base ⟨if zero then byte '0' else byte ' ', .ofNat w, 0⟩ n.toNat none) where
  length := by
    rw [length_numeralText hw]
    simp
  value  := by simp [strtoul, strton_numeralText h₁ h₁₆ hw]

section Int

variable {k : ℕ} {n : Int64} {txt digits : List UInt8}

theorem ofInt_natAbs : Int64.ofInt (if n < 0 then -(n.toInt.natAbs : Int) else n.toInt.natAbs) = n := by
  have hlt : n < 0 ↔ n.toInt < 0 := Int64.lt_iff_toInt_lt
  have h : (if n < 0 then -(n.toInt.natAbs : Int) else n.toInt.natAbs) = n.toInt := by
    simp only [hlt]
    split <;> omega
  rw [h, Int64.ofInt_toInt]

-- The text of a `long`, once the padding is on the right side of the sign.
theorem strtol_signed (ht : txt = List.replicate k (byte ' ') ++ (if n < 0 then [minus] else []) ++ digits)
    (hne : digits ≠ []) (hd : ∀ c ∈ digits, isDigit 10 c = true) (hv : value 10 digits = n.toInt.natAbs) :
    SignFirst n txt ∧ strtol txt 10 = (n, []) := by
  refine ⟨⟨k, digits, ht, hd⟩, ?_⟩
  have hs := strton_signed (k := k) (decide (n < 0)) (by decide : 10 ≠ 0) hne hd
  simp only [decide_eq_true_eq] at hs
  rw [strtol, ht, hs, hv, Prod.mk.injEq, and_iff_left rfl, ← Int64.ofInt_eq_ofNat]
  conv_rhs => rw [← ofInt_natAbs (n := n)]
  split
  case isTrue h  => rw [show (-1 : Int64) = .ofInt (-1) from rfl, ← Int64.ofInt_mul, Int.mul_neg_one]
  case isFalse h => rw [show (1 : Int64) = .ofInt 1 from rfl, ← Int64.ofInt_mul, Int.mul_one]

def intText (zero : Bool) (w : ℕ) (n : Int64) : List UInt8 :=
  numeralText 10 ⟨if zero then byte '0' else byte ' ', .ofNat w, 0⟩ n.toInt.natAbs (if n.toInt < 0 then some minus else none)

theorem intText_eq (zero : Bool) (hw : w < 2 ^ 31) (n : Int64) : intText zero w n =
    List.replicate (w - ((numeral 10 n.toInt.natAbs).length + if n < 0 then 1 else 0)) (if zero then byte '0' else byte ' ') ++
      (if n < 0 then [minus] else []) ++ numeral 10 n.toInt.natAbs := by
  have hlt : n < 0 ↔ n.toInt < 0 := Int64.lt_iff_toInt_lt
  rw [intText, numeralText_eq hw]
  by_cases h : n.toInt < 0 <;> simp [hlt, h]

theorem length_intText (zero : Bool) (hw : w < 2 ^ 31) (n : Int64) :
    (intText zero w n).length = max w ((numeral 10 n.toInt.natAbs).length + if n < 0 then 1 else 0) := by
  rw [intText_eq zero hw]
  split
  · simp
    omega
  · simp
    omega

-- Zeros are printed in front of the sign.
theorem intReadsBack_iff (hw : w < 2 ^ 31) (n : Int64) : IntReadsBack zero w n (intText zero w n) ↔
    ¬(zero = true ∧ n < 0 ∧ (numeral 10 n.toInt.natAbs).length + 1 < w) := by
  have hdig : ∀ c ∈ numeral 10 n.toInt.natAbs, isDigit 10 c = true := isDigit_numeral (by decide) (by decide)
  have hval : value 10 (numeral 10 n.toInt.natAbs) = n.toInt.natAbs := value_numeral (by decide) (by decide)
  have htxt := intText_eq zero hw n
  have hlen := length_intText zero hw n
  generalize hk : w - ((numeral 10 n.toInt.natAbs).length + if n < 0 then 1 else 0) = k at htxt
  cases zero
  case false =>
    have ⟨hs, hv⟩ := strtol_signed htxt numeral_ne_nil hdig hval
    exact iff_of_true ⟨hlen, hs, hv⟩ (by simp)
  case true =>
    by_cases hn : n < 0
    case neg =>
      have ht : intText true w n = List.replicate 0 (byte ' ') ++ (if n < 0 then [minus] else []) ++
          (List.replicate k (byte '0') ++ numeral 10 n.toInt.natAbs) := by
        rw [htxt]
        simp [hn]
      have ⟨hs, hv⟩ := strtol_signed ht (List.append_ne_nil_of_right_ne_nil _ numeral_ne_nil)
        (isDigit_zeros (by decide) hdig) (by rw [value_zeros, hval])
      exact iff_of_true ⟨hlen, hs, hv⟩ (by simp [hn])
    case pos =>
      rw [if_pos hn] at hk
      by_cases hw' : (numeral 10 n.toInt.natAbs).length + 1 < w
      case neg =>
        obtain rfl : k = 0 := by omega
        have ⟨hs, hv⟩ := strtol_signed (k := 0) (n := n) htxt numeral_ne_nil hdig hval
        exact iff_of_true ⟨hlen, hs, hv⟩ fun h => hw' h.right.right
      case pos =>
        refine iff_of_false (fun hr => ?_) (not_not.mpr ⟨rfl, hn, hw'⟩)
        obtain ⟨k, rfl⟩ : ∃ k', k = k' + 1 := ⟨k - 1, by omega⟩
        obtain ⟨j, digits, he, _⟩ := hr.sign
        have hh := congrArg List.head? (htxt.symm.trans he)
        cases j
        case zero   =>
          simp [List.replicate_succ, hn] at hh
          exact absurd hh (by decide)
        case succ j =>
          simp [List.replicate_succ] at hh
          exact absurd hh (by decide)

end Int

-- The arguments of the three conversions.
theorem fetch_long (n : UInt64) : fetch (byte 'd') .long [.num n] = some (.int n.toInt64, []) ∧
    fetch (byte 'x') .long [.num n] = some (.hex n, []) ∧ fetch (byte 'o') .long [.num n] = some (.octal n, []) :=
  ⟨rfl, rfl, rfl⟩

-- Padded numbers are read back, unless zeros are put in front of a minus sign.
theorem readsBack_iff (hw : w < 2 ^ 31) (n : UInt64) : ReadsBack zero w n ↔
    ¬(zero = true ∧ n.toInt64 < 0 ∧ (numeral 10 n.toInt64.toInt.natAbs).length + 1 < w) := by
  have ⟨hd, hx, ho⟩ := fetch_long n
  have hl₁₀ : (numeral 10 n.toInt64.toInt.natAbs).length ≤ 24 := by
    have := n.toInt64.le_toInt
    have := n.toInt64.toInt_lt
    exact length_numeral (by decide) (Nat.lt_of_le_of_lt (by omega : _ ≤ 2 ^ 63) (by norm_num))
  have hl₁₆ : (numeral 16 n.toNat).length ≤ 24 := length_numeral (by decide) (n.toNat_lt.trans (by norm_num))
  have hl₈ : (numeral 8 n.toNat).length ≤ 24 := length_numeral (by decide) (n.toNat_lt.trans (by norm_num))
  have hpd : printed (paddedFormat zero w 'd') [.num n] = some (intText zero w n.toInt64) := by
    refine printed_eq (formatted_padded (by decide) hd) ?_
    show (intText zero w n.toInt64).length < _
    rw [length_intText zero hw]
    split <;> omega
  have hpx : printed (paddedFormat zero w 'x') [.num n] = _ := printed_eq (formatted_padded (by decide) hx) <| by
    rw [convText, length_numeralText hw]
    simp
    omega
  have hpo : printed (paddedFormat zero w 'o') [.num n] = _ := printed_eq (formatted_padded (by decide) ho) <| by
    rw [convText, length_numeralText hw]
    simp
    omega
  rw [← intReadsBack_iff hw]
  constructor
  case mp =>
    intro h
    obtain ⟨txt, ht, hi⟩ := h.int
    rwa [Option.some.inj (hpd.symm.trans ht)]
  case mpr =>
    intro h
    exact ⟨⟨_, hpd, h⟩, ⟨_, hpx, unsignedReadsBack (by decide) (by decide) hw n⟩,
      ⟨_, hpo, unsignedReadsBack (by decide) (by decide) hw n⟩⟩

-- The smallest `long`, for which the negation overflows.
theorem readsBack_iff_smallest : ReadsBack false 25 0x8000000000000000 :=
  (readsBack_iff (by decide) 0x8000000000000000).mpr (by simp)

-- `%05ld` prints -5 as 000-5.
theorem not_readsBack_zeros : ¬∀ zero w n, w < 2 ^ 31 → ReadsBack zero w n := by
  intro h
  obtain ⟨txt, ht, hi⟩ := (h true 5 (-5) (by decide)).int
  have hp : printed (paddedFormat true 5 'd') [.num (-5)] = some ("000-5".toList.map byte) := by decide +kernel
  have hv : (strtol ("000-5".toList.map byte) 10).2 = "-5".toList.map byte := by decide +kernel
  rw [Option.some.inj (hp.symm.trans ht), hi.value] at hv
  exact absurd hv (by decide)

end ReadBack
end Camellia.Printf
