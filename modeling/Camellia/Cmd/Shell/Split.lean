import Camellia.Cmd.Shell.Grammar

namespace Camellia.Shell

section Run

variable {m : Mem} {s n argc : ℕ} {r w : List UInt8} {argv : List (Option ℕ)} {redir : Redir} {a : Heard}

theorem assign_eq {p : Option ℕ} (h : argc < argv.length) : assign argv argc p = some (argv.set argc p) :=
  if_pos h

-- What stands behind the operator at the beginning of a line.
theorem tokens_op {t : List UInt8} : ∃ (append : Bool) (op u : List UInt8), '>'.toUInt8 :: t = op ++ u ∧
    op.length = (if append then 2 else 1) ∧ (append ↔ t.head? = some '>'.toUInt8) ∧
    tokens ('>'.toUInt8 :: t) = .op append false :: tokens u := by
  rw [lex_op]
  by_cases ht : t.head? = some '>'.toUInt8
  case pos =>
    obtain ⟨u, rfl⟩ := List.head?_eq_some_iff.mp ht
    exact ⟨true, ['>'.toUInt8, '>'.toUInt8], u, rfl, rfl, by simp, by simp⟩
  case neg => exact ⟨false, ['>'.toUInt8], t, rfl, rfl, by simp [ht], by simp [ht]⟩

theorem Stored.result (h : Stored m s r argv argc redir a) :
    Result argv.length a { ret := (Int32.ofNat argc).toInt, mem := m, argv := argv.set argc none, redir := redir } where
  ret    := by rw [h.length]
  room   := h.length ▸ h.room
  words i hi := by
    rw [h.length] at hi
    obtain ⟨p, w, hp, hw, hk⟩ := h.words i hi
    exact ⟨p, w, (List.getElem?_set_ne (Nat.ne_of_gt hi)).trans hp, hw, hk.pointsTo⟩
  nul    := by
    rw [h.length]
    exact List.getElem?_set_self h.room
  stdout := h.stdout.pointsTo
  append := h.append

-- The character which is read from a string, where the NUL is `none`.
theorem char_head {t : List UInt8} (h : HoldsString m s t) {c : UInt8} (hc : c ≠ 0) :
    m s = c ↔ t.head? = some c := by
  cases t
  case nil => simp [h.nil, hc.symm]
  case cons d t => simp [h.head.left]

theorem heard_op {append : Bool} : heard (.op append false) = some (.op append false) := by
  cases append <;> rfl

theorem heard_word {w : List UInt8} : heard (.word w) = some (.word w) :=
  rfl

theorem heard_comment : heard (.comment false) = some (.comment false) :=
  rfl

theorem skipspace_begins {space t : List UInt8} (h : HoldsString m s (space ++ t)) (hspace : ∀ c ∈ space, isspace c)
    (hb : Begins t) : skipspace m s = s + space.length := by
  refine skip_append h hspace fun c hc => ?_
  cases hb
  case done ht => simp [ht] at hc
  case comment u ht =>
    obtain rfl : '#'.toUInt8 = c := by simpa [ht] using hc
    decide
  case op u ht =>
    obtain rfl : '>'.toUInt8 = c := by simpa [ht] using hc
    decide
  case word w rest ht hw hne hrest =>
    obtain ⟨d, w, rfl⟩ := List.exists_cons_of_ne_nil hne
    obtain rfl : d = c := by simpa [ht] using hc
    exact (isword_iff.mp (hw d List.mem_cons_self)).left

section Step

variable {m' : Mem} {q s' : ℕ} {p : Option ℕ} {append : Bool}

theorem parseLoop_op (hs : skipspace m s = q) (hc : m q = '>'.toUInt8) (htwice : m (q + 1) = '>'.toUInt8 ↔ append)
    (hp : parg m (q + if append then 2 else 1) = (m', s', p)) :
    parseLoop (n + 1) m s argv argc redir =
      parseLoop n m' s' argv argc { stdout := p, append := redir.append || append } := by
  rw [parseLoop, hs, hc, if_neg (by decide), if_pos rfl]
  simp only [htwice]
  cases append <;>
    simp only [Bool.false_eq_true, if_true, if_false] at hp ⊢ <;>
    rw [hp] <;>
    simp

theorem parseLoop_arg (hs : skipspace m s = q) (h0 : m q ≠ 0) (hc : m q ≠ '>'.toUInt8)
    (hp : parg m q = (m', s', p)) (hroom : argc < argv.length) :
    parseLoop (n + 1) m s argv argc redir =
      if argv.length ≤ argc + 1 then some { ret := -1, mem := m', argv := argv.set argc p, redir := redir }
      else parseLoop n m' s' (argv.set argc p) (argc + 1) redir := by
  rw [parseLoop, hs, if_neg h0, if_neg hc, hp]
  simp only [assign_eq hroom, Option.bind_eq_bind, Option.bind_some]
  rfl

end Step

-- The loop hears the tokens of the line.
def Answered (n : ℕ) (m : Mem) (s : ℕ) (r : List UInt8) (argv : List (Option ℕ)) (argc : ℕ) (redir : Redir)
    (a : Heard) : Prop :=
  ∃ x, parseLoop n m s argv argc redir = some x ∧
    Answers argv.length x (hear argv.length ((tokens r).filterMap heard) a)

-- The array has no room for the argument, or the loop goes on behind it.
theorem Stored.answered {m' : Mem} {q s' : ℕ} {p : Option ℕ} (hst : Stored m s r argv argc redir a)
    (r' : List UInt8) (v : Option (List UInt8)) (hs : skipspace m s = q) (h0 : m q ≠ 0) (hc : m q ≠ '>'.toUInt8)
    (hp : parg m q = (m', s', p))
    (hhear : hear argv.length ((tokens r).filterMap heard) a = if argv.length ≤ a.argv.length + 1 then none
      else hear argv.length ((tokens r').filterMap heard) { a with argv := a.argv ++ [v] })
    (h : argc + 1 < argv.length →
      Answered n m' s' r' (argv.set argc p) (argc + 1) redir { a with argv := a.argv ++ [v] }) :
    Answered (n + 1) m s r argv argc redir a := by
  rw [Answered, parseLoop_arg hs h0 hc hp hst.room, hhear, hst.length]
  by_cases hfull : argv.length ≤ argc + 1
  case pos =>
    rw [if_pos hfull, if_pos hfull]
    exact ⟨_, rfl, rfl⟩
  case neg =>
    rw [if_neg hfull, if_neg hfull, ← List.length_set (i := argc) (a := p)]
    exact h (Nat.lt_of_not_le hfull)

theorem parseLoop_hear (h : HoldsString m s r) (hn : r.length < n) (hq : '"'.toUInt8 ∉ r) (hf : followed (tokens r))
    (hst : Stored m s r argv argc redir a) : Answered n m s r argv argc redir a := by
  induction n generalizing m s r argv argc redir a
  case zero => omega
  case succ n hi =>
    obtain ⟨space, t, rfl, hspace, hb⟩ := exists_begins r
    have hlex := lex_space (r := t) hspace
    rw [hlex] at hf
    have hp := h.drop
    have hskip := skipspace_begins h hspace hb
    have hkept := hst.skip
    have hlen : t.length < n + 1 := by
      rw [List.length_append] at hn
      omega
    have hquote : '"'.toUInt8 ∉ t := fun hm => hq (List.mem_append_right _ hm)
    generalize s + space.length = q at *
    cases hb
    case done ht =>
      subst ht
      rw [Answered, hlex, parseLoop, hskip, if_pos hp.nil, assign_eq hst.room]
      exact ⟨_, rfl, hkept.result⟩
    case comment u ht =>
      subst ht
      obtain ⟨hc, h0⟩ := hp.head
      refine hst.answered [] none hskip (hc ▸ h0) (hc ▸ by decide) (parg_comment hp) ?_ fun hroom => ?_
      · rw [hlex, lex_comment]
        rfl
      · have hpush := hkept.push (p := none) (v := none) hroom (fun p o hk => hk.store (List.cons_ne_nil _ _)) trivial
        exact hi (HoldsString.cut (a := []) hp) (by simp at hlen ⊢; omega) (by simp) rfl hpush
    case op u ht =>
      subst ht
      have hc := hp.head.left
      have hnext := char_head hp.tail (c := '>'.toUInt8) (by decide)
      obtain ⟨append, op, v, hu, hop, htwice, htok⟩ := tokens_op (t := u)
      rw [hu] at hp hkept hlen hquote
      rw [htok] at hf hlex
      obtain ⟨hfol, w, ts, hts⟩ := followed_op hf
      have hv : v ≠ [] := by
        rintro rfl
        simp [tokens, lex, flush] at hts
      obtain ⟨m', s', p, rest, hparg, hcut, hle, hheard, hfrest, hless, hqrest⟩ :=
        parg_tokens hp.drop (fun hm => hquote (List.mem_append_right _ hm)) hts (by rwa [hts] at hfol)
      have hredir := @Stored.redirect _ _ _ _ _ _ (some p) _ _ _ _ (some w) append hkept.skip
        (fun p o hk => hk.cut hv hle hcut) ⟨hcut.cut, hcut.apart⟩
      rw [Answered, hlex, parseLoop_op hskip hc (hnext.trans htwice.symm) (hop ▸ hparg), hts]
      rw [List.filterMap_cons_some heard_op, List.filterMap_cons_some heard_word, hear, hheard]
      exact hi hcut.left (by rw [List.length_append] at hlen; omega) hqrest hfrest hredir
    case word w rest ht hw hne hrest =>
      subst ht
      have hne' : w ++ rest ≠ [] := fun he => hne (List.append_eq_nil_iff.mp he).left
      obtain ⟨c, w', rfl⟩ := List.exists_cons_of_ne_nil hne
      obtain ⟨hc, h0⟩ := hp.head
      have hop := (isword_iff.mp (hw c List.mem_cons_self)).right.left
      have hts := lex_word hw hne hrest
      rw [hts] at hf hlex
      obtain ⟨m', s', p, rest', hparg, hcut, hle, hheard, hfrest, hless, hqrest⟩ := parg_tokens hp hquote hts hf
      refine hst.answered rest' (some (c :: w')) hskip (hc ▸ h0) (hc ▸ hop) hparg ?_ fun hroom => ?_
      · rw [hlex, List.filterMap_cons_some heard_word, hear, hheard]
      · have hpush := hkept.push (p := some p) (v := some (c :: w')) hroom (fun p o hk => hk.cut hne' hle hcut)
          ⟨hcut.cut, hcut.apart⟩
        exact hi hcut.left (by omega) hqrest hfrest hpush

end Run

-- A comment ends the line.
def ended : List Token → Bool
  | []               => true
  | .comment _ :: ts => ts = []
  | _ :: ts          => ended ts

-- The words and NULLs which are put into the array.
def given : List Token → List (Option (List UInt8))
  | []                       => []
  | .word w :: ts            => some w :: given ts
  | .op _ _ :: .word _ :: ts => given ts
  | .op _ _ :: ts            => given ts
  | .comment _ :: ts         => none :: given ts

-- What the words of a line make up.
inductive Sentence : List Token → Prop
  | nil : Sentence []
  | comment {touching : Bool} : Sentence [.comment touching]
  | word {w : List UInt8} {ts : List Token} (h : Sentence ts) : Sentence (.word w :: ts)
  | op {append touching : Bool} {w : List UInt8} {ts : List Token} (h : Sentence ts) :
    Sentence (.op append touching :: .word w :: ts)

section Sentence

variable {ts : List Token} {r acc w : List UInt8} {second : Bool} {a : Heard} {k i : ℕ}

theorem ended_flush : ended (flush acc ++ ts) = ended ts := by
  rw [flush]
  split_ifs
  · rfl
  · rfl

theorem ended_lex : ended (lex second acc r) := by
  induction r generalizing second acc
  case nil =>
    rw [lex, ← List.append_nil (flush acc), ended_flush]
    rfl
  case cons c r hi =>
    rw [lex]
    split_ifs
    · exact hi
    · exact hi
    · rw [ended_flush]
      rfl
    · rw [ended_flush]
      exact hi
    · rw [ended_flush]
      exact hi

theorem sentence_cons {w : List UInt8} (h : Sentence (.word w :: ts)) : Sentence ts := by
  cases h
  case word h => exact h

theorem sentence (hf : followed ts) (he : ended ts) : Sentence ts := by
  induction ts
  case nil => exact .nil
  case cons t ts hi =>
    cases t
    case word w => exact .word (hi hf he)
    case comment touching =>
      obtain rfl : ts = [] := by simpa [ended] using he
      exact .comment
    case op append touching =>
      obtain ⟨hf', w, ts', rfl⟩ := followed_op hf
      exact .op (sentence_cons (hi hf' he))

theorem Sentence.heard (h : Sentence ts) : Sentence (ts.filterMap heard) := by
  induction h
  case nil => exact .nil
  case comment touching =>
    cases touching
    · exact .comment
    · exact .nil
  case word h hi => exact .word hi
  case op append touching w ts h hi =>
    cases append <;> cases touching
    case false.true => exact .word hi
    all_goals exact .op hi

theorem Sentence.hear (h : Sentence ts) (ha : a.argv.length < k) : hear k ts a =
    if k ≤ a.argv.length + (given ts).length then none
    else some { argv := a.argv ++ given ts, stdout := (targets ts).getLast?.or a.stdout,
                append := a.append || ts.any isAppend } := by
  induction h generalizing a
  case nil => simp [Shell.hear, given, targets, ha]
  case comment touching =>
    rw [Shell.hear, given, given, List.length_singleton]
    by_cases hfull : k ≤ a.argv.length + 1
    case pos => rw [if_pos hfull, if_pos hfull]
    case neg =>
      rw [if_neg hfull, if_neg hfull]
      simp [Shell.hear, targets, isAppend]
  case word w ts h hi =>
    rw [Shell.hear, given, List.length_cons]
    by_cases hfull : k ≤ a.argv.length + 1
    case pos => rw [if_pos hfull, if_pos (by omega)]
    case neg =>
      rw [if_neg hfull, hi (by simpa using hfull), List.length_append, List.length_singleton, Nat.add_assoc,
        Nat.add_comm 1]
      simp [targets, isAppend]
  case op append touching w ts h hi =>
    rw [Shell.hear, given, hi (a := { a with stdout := some w, append := a.append || append }) ha]
    cases hlast : (targets ts).getLast? <;>
      simp [targets, isAppend, List.getLast?_cons, Bool.or_assoc, hlast]

theorem Sentence.length_given (h : Sentence ts) : (given (ts.filterMap Shell.heard)).length =
    (args ts).length + ts.count (.op false true) + ts.count (.comment false) := by
  induction h
  case nil => rfl
  case comment touching => cases touching <;> rfl
  case word w ts h hi =>
    rw [List.filterMap_cons_some heard_word, given, args, List.length_cons, hi]
    simp
    omega
  case op append touching w ts h hi =>
    cases append <;> cases touching
    case false.true =>
      rw [List.filterMap_cons_none rfl, List.filterMap_cons_some heard_word, given, args, List.length_cons, hi]
      simp
      omega
    all_goals
      simp [Shell.heard, given, args, hi]

-- Nothing is lost, and there is no NULL.
theorem Sentence.given_eq (h : Sentence ts) (hop : .op false true ∉ ts) (hc : .comment false ∉ ts) :
    given (ts.filterMap Shell.heard) = (args ts).map some := by
  induction h
  case nil => rfl
  case comment touching =>
    cases touching
    · exact absurd List.mem_cons_self hc
    · rfl
  case word w ts h hi =>
    rw [List.filterMap_cons_some heard_word, given, args, List.map_cons,
      hi (fun hm => hop (List.mem_cons_of_mem _ hm)) fun hm => hc (List.mem_cons_of_mem _ hm)]
  case op append touching w ts h hi =>
    have hi := hi (fun hm => hop (List.mem_cons_of_mem _ (List.mem_cons_of_mem _ hm)))
      fun hm => hc (List.mem_cons_of_mem _ (List.mem_cons_of_mem _ hm))
    cases append <;> cases touching
    case false.true => exact absurd List.mem_cons_self hop
    all_goals exact hi

theorem Sentence.targets_eq (h : Sentence ts) (hop : .op false true ∉ ts) :
    targets (ts.filterMap Shell.heard) = targets ts := by
  induction h
  case nil => rfl
  case comment touching => cases touching <;> rfl
  case word w ts h hi => exact hi fun hm => hop (List.mem_cons_of_mem _ hm)
  case op append touching w ts h hi =>
    have hi := hi fun hm => hop (List.mem_cons_of_mem _ (List.mem_cons_of_mem _ hm))
    cases append <;> cases touching
    case false.true => exact absurd List.mem_cons_self hop
    all_goals exact congrArg (w :: ·) hi

-- The second character of an operator is only seen if the first one does not touch a word.
theorem any_heard : (ts.filterMap heard).any isAppend ↔ .op true false ∈ ts := by
  induction ts
  case nil => simp
  case cons t ts hi =>
    rw [List.mem_cons, ← hi]
    cases t
    case op append touching =>
      cases append <;> cases touching <;> simp [heard, isAppend]
    case comment touching => cases touching <;> simp [heard, isAppend]
    case word w => simp [heard, isAppend]

theorem Sentence.none_last (h : Sentence ts) (hi : (given ts)[i]? = some none) : i + 1 = (given ts).length := by
  induction h generalizing i
  case nil => simp [given] at hi
  case comment touching =>
    cases i
    · rfl
    · simp [given] at hi
  case word w ts h ih =>
    cases i
    case zero => simp [given] at hi
    case succ i =>
      have hi : (given ts)[i]? = some none := by simpa [given] using hi
      rw [given, List.length_cons, ih hi]
  case op h ih => exact ih hi

end Sentence

section Split

variable {m : Mem} {s n : ℕ} {line : List UInt8} {argv : List (Option ℕ)} {redir : Redir}

theorem toInt_argc (h : n < 2 ^ 31) : (Int32.ofNat n).toInt = n := by
  rw [Int32.toInt_ofNat', Int.bmod_def, Int32.size]
  split_ifs <;> omega

theorem sentence_tokens (h : followed (tokens line)) : Sentence (tokens line) :=
  sentence h ended_lex

-- What `parse` makes of a line.
theorem parse_hear (h : HoldsString m s line) (hq : '"'.toUInt8 ∉ line) (hf : followed (tokens line))
    (hlen : 0 < argv.length) : ∃ x, parse m s argv redir = some x ∧ Answers argv.length x
      (hear argv.length ((tokens line).filterMap heard) { argv := [], stdout := none, append := false }) := by
  rw [parse, if_neg (Nat.ne_of_gt hlen), assign_eq hlen, Option.bind_eq_bind, Option.bind_some,
    ← List.length_set (i := 0) (a := (none : Option ℕ))]
  refine parseLoop_hear h (by have := h.fits; omega) hq hf ?_
  exact ⟨rfl, by simpa using hlen, fun _ hi => absurd hi (Nat.not_lt_zero _), trivial, rfl⟩

-- What the scanner answers if the array has room for all it heard.
def said (ts : List Token) : Heard :=
  { argv := given (ts.filterMap heard), stdout := (targets (ts.filterMap heard)).getLast?,
    append := (ts.filterMap heard).any isAppend }

section Said

variable {ts : List Token} {x : Parsed}

-- The argument behind the last word would be a NULL, which is nowhere but at the end of the arguments.
theorem SplitAs.given_le (h : SplitAs ts x) (hs : Sentence ts) (hx : Result n (said ts) x) :
    (given (ts.filterMap heard)).length ≤ (args ts).length := by
  by_contra hgt
  obtain ⟨p, w, hp, hw, hpw⟩ := hx.words _ (Nat.lt_of_not_le hgt)
  obtain rfl : p = none := Option.some_inj.mp (hp.symm.trans h.nul)
  cases w
  case some => exact hpw
  case none =>
    have hlast := hs.heard.none_last hw
    have hret : x.ret = (Int32.ofNat (given (ts.filterMap heard)).length).toInt := hx.ret
    rw [← hlast, h.ret, Int32.toInt_ofNat', Int.bmod_def, Int32.size] at hret
    split_ifs at hret <;> omega

theorem SplitAs.scannable (h : SplitAs ts x) (hs : Sentence ts) (hx : Result n (said ts) x) :
    Scannable ts ∧ (args ts).length < 2 ^ 31 := by
  have hle := h.given_le hs hx
  have hcount := hs.length_given
  have hop : ts.count (.op false true) = 0 := by omega
  have hc : ts.count (.comment false) = 0 := by omega
  refine ⟨⟨List.count_eq_zero.mp hop, fun hm => ?_, List.count_eq_zero.mp hc⟩, ?_⟩
  case refine_1 =>
    have happend : x.redir.append = (ts.filterMap heard).any isAppend := hx.append
    rw [← any_heard, ← happend, h.append]
    exact List.any_eq_true.mpr ⟨_, hm, rfl⟩
  case refine_2 =>
    have hlen : (given (ts.filterMap heard)).length = (args ts).length := by omega
    have hret : x.ret = (Int32.ofNat (given (ts.filterMap heard)).length).toInt := hx.ret
    have := Int32.toInt_lt (Int32.ofNat (args ts).length)
    rw [← hlen, ← hret, h.ret] at this
    omega

theorem any_isAppend (hdouble : .op true true ∈ ts → .op true false ∈ ts) :
    (ts.filterMap heard).any isAppend = ts.any isAppend := by
  rw [Bool.eq_iff_iff, any_heard, List.any_eq_true]
  constructor
  case mp => exact fun hm => ⟨_, hm, rfl⟩
  case mpr =>
    rintro ⟨t, ht, happ⟩
    cases t
    case op append touching =>
      obtain rfl : append = true := happ
      cases touching
      · exact ht
      · exact hdouble ht
    all_goals exact absurd happ nofun

theorem Sentence.splitAs (hs : Sentence ts) (h : Scannable ts) (hint : (args ts).length < 2 ^ 31)
    (hx : Result n (said ts) x) : SplitAs ts x := by
  obtain ⟨hop, hdouble, hc⟩ := h
  obtain ⟨hret, hroom, hwords, hnul, hstdout, happend⟩ := hx
  simp only [said, hs.given_eq hop hc, List.length_map, hs.targets_eq hop, any_isAppend hdouble]
    at hret hwords hnul hstdout happend
  refine ⟨hret.trans (toInt_argc hint), fun i w hi => ?_, hnul, hstdout, happend⟩
  obtain ⟨p, w', hp, hw, hpw⟩ := hwords i (List.getElem?_eq_some_iff.mp hi).fst
  rw [List.getElem?_map, hi] at hw
  obtain rfl : some w = w' := Option.some_inj.mp hw
  cases p
  case none => exact absurd hpw id
  case some p => exact ⟨p, hp, hpw⟩

-- The line was scanned as its grammar says.
theorem splitAs_iff (hs : Sentence ts) (hlt : (args ts).length < argv.length)
    (hx : Answers argv.length x (hear argv.length (ts.filterMap heard)
      { argv := [], stdout := none, append := false })) :
    SplitAs ts x ↔ Scannable ts ∧ (args ts).length < 2 ^ 31 := by
  rw [hs.heard.hear (by simpa using Nat.zero_lt_of_lt hlt)] at hx
  simp only [List.length_nil, Nat.zero_add, List.nil_append, Bool.false_or, Option.or_none] at hx
  split_ifs at hx with hfull
  case pos =>
    have hret : x.ret = -1 := hx
    constructor
    case mp =>
      intro h
      have := h.ret
      omega
    case mpr =>
      rintro ⟨⟨hop, -, hc⟩, -⟩
      have hcount := hs.length_given
      rw [List.count_eq_zero_of_not_mem hop, List.count_eq_zero_of_not_mem hc] at hcount
      omega
  case neg => exact ⟨fun h => h.scannable hs hx, fun h => hs.splitAs h.left h.right hx⟩

end Said

-- The line is split by its grammar if the scanner destroys nothing it needs, or if the words do not fit anyway.
theorem splits_iff (h : HoldsString m s line) (hq : '"'.toUInt8 ∉ line) (hf : followed (tokens line)) :
    Splits m s argv redir (tokens line) ↔ argv.length ≤ (args (tokens line)).length ∨
      Scannable (tokens line) ∧ (args (tokens line)).length < 2 ^ 31 := by
  have hs := sentence_tokens hf
  by_cases hlen : argv.length = 0
  case pos =>
    have hle : argv.length ≤ (args (tokens line)).length := by omega
    refine iff_of_true ⟨_, if_pos hlen, ?_⟩ (.inl hle)
    rw [if_pos hle]
  case neg =>
    obtain ⟨x, hx, ha⟩ := parse_hear h hq hf (Nat.pos_of_ne_zero hlen)
    rw [Splits, hx]
    simp only [Option.some_inj, exists_eq_left']
    by_cases hle : argv.length ≤ (args (tokens line)).length
    case pos =>
      rw [if_pos hle]
      refine iff_of_true ?_ (.inl hle)
      rw [hs.heard.hear (by simpa using Nat.pos_of_ne_zero hlen), if_pos] at ha
      · exact ha
      · have := hs.length_given
        simp only [List.length_nil]
        omega
    case neg =>
      rw [if_neg hle, splitAs_iff hs (Nat.lt_of_not_le hle) ha]
      exact ⟨.inr, fun h => h.resolve_left hle⟩

end Split

-- An array which is as long as the one of the shell.
def emptyArgv : List (Option ℕ) :=
  List.replicate 16 none

def noRedir : Redir where
  stdout := none
  append := false

def chars (str : String) : List UInt8 :=
  str.toList.map Char.toUInt8

def lineMem (str : String) : Mem :=
  .ofList (chars str ++ [0])

theorem splits_iff_spaced : ∃ x, parse (lineMem "ls -l /bin >> out") 0 emptyArgv noRedir = some x ∧
    SplitAs [.word (chars "ls"), .word (chars "-l"), .word (chars "/bin"), .op true false, .word (chars "out")] x := by
  have ht : tokens (chars "ls -l /bin >> out") =
      [.word (chars "ls"), .word (chars "-l"), .word (chars "/bin"), .op true false, .word (chars "out")] := by
    decide +kernel
  have h : HoldsString (lineMem "ls -l /bin >> out") 0 (chars "ls -l /bin >> out") :=
    ⟨by decide +kernel, by decide +kernel, by decide +kernel, by decide +kernel⟩
  have hs := (@splits_iff _ _ _ emptyArgv noRedir h (by decide +kernel) (by decide +kernel)).mpr
    (.inr ⟨⟨by decide +kernel, by decide +kernel, by decide +kernel⟩, by decide +kernel⟩)
  obtain ⟨x, hx, hsplit⟩ := hs
  rw [ht, if_neg (by decide +kernel)] at hsplit
  exact ⟨x, hx, hsplit⟩

-- The operator behind "a" is overwritten, so that "b" becomes an argument.
theorem not_splits_touching : HoldsString (lineMem "echo a>b") 0 (chars "echo a>b") ∧
    '"'.toUInt8 ∉ chars "echo a>b" ∧ followed (tokens (chars "echo a>b")) ∧
    args (tokens (chars "echo a>b")) = [chars "echo", chars "a"] ∧
    (∃ x, parse (lineMem "echo a>b") 0 emptyArgv noRedir = some x ∧ x.ret = 3 ∧ x.redir.stdout = none) ∧
    ¬Splits (lineMem "echo a>b") 0 emptyArgv noRedir (tokens (chars "echo a>b")) := by
  have hargs : args (tokens (chars "echo a>b")) = [chars "echo", chars "a"] := by decide +kernel
  have hx : (parse (lineMem "echo a>b") 0 emptyArgv noRedir).map (fun x => (x.ret, x.redir.stdout)) = some (3, none) := by
    decide +kernel
  obtain ⟨x, hparse, hres⟩ := Option.map_eq_some_iff.mp hx
  obtain ⟨hret, hstdout⟩ := Prod.mk.inj hres
  have hmem : HoldsString (lineMem "echo a>b") 0 (chars "echo a>b") :=
    ⟨by decide +kernel, by decide +kernel, by decide +kernel, by decide +kernel⟩
  refine ⟨hmem, by decide +kernel, by decide +kernel, hargs, ⟨x, hparse, hret, hstdout⟩, ?_⟩
  rintro ⟨y, hy, hsplit⟩
  obtain rfl := Option.some_inj.mp (hparse.symm.trans hy)
  rw [hargs, if_neg (by decide +kernel)] at hsplit
  have := hsplit.ret
  rw [hret, hargs] at this
  exact absurd this (by decide)

end Camellia.Shell
