import Camellia.Cmd.Shell.Parser

namespace Camellia.Shell

-- What a line consists of. An operator or a comment touches a word if it is directly behind it.
inductive Token
  | word (w : List UInt8)
  | op (append touching : Bool)
  | comment (touching : Bool)
  deriving DecidableEq

def flush (acc : List UInt8) : List Token :=
  if acc = [] then [] else [.word acc]

-- The words and operators of a line up to the first comment. `acc` is the word which was begun, and
-- `second` is true in front of the second character of an operator.
def lex (second : Bool) (acc : List UInt8) : List UInt8 → List Token
  | []     => flush acc
  | c :: s =>
    let twice : Bool := s.head? = some '>'.toUInt8
    if second then lex false [] s
    else if isword c then lex false (acc ++ [c]) s
    else if c = '#'.toUInt8 then flush acc ++ [.comment (acc ≠ [])]
    else if c = '>'.toUInt8 then flush acc ++ .op twice (acc ≠ []) :: lex twice [] s
    else flush acc ++ lex false [] s

def tokens (line : List UInt8) : List Token :=
  lex false [] line

def startsWithWord : List Token → Bool
  | .word _ :: _ => true
  | _            => false

-- Every operator is followed by a word.
def followed : List Token → Bool
  | []            => true
  | .op _ _ :: ts => startsWithWord ts && followed ts
  | _ :: ts       => followed ts

-- The words which do not follow an operator, and those which do.
def args : List Token → List (List UInt8)
  | []                         => []
  | .word w :: ts              => w :: args ts
  | .op _ _ :: .word _ :: ts   => args ts
  | _ :: ts                    => args ts

def targets : List Token → List (List UInt8)
  | []                         => []
  | .op _ _ :: .word w :: ts   => w :: targets ts
  | _ :: ts                    => targets ts

def isAppend : Token → Bool
  | .op append _ => append
  | _            => false

-- A pointer, which may be NULL, and the string it should point to.
def PointsTo (m : Mem) : Option ℕ → Option (List UInt8) → Prop
  | some p, some w => HoldsString m p w
  | none, none     => True
  | _, _           => False

-- The line was split by its grammar.
structure SplitAs (ts : List Token) (r : Parsed) : Prop where
  ret    : r.ret = (args ts).length
  argv   : ∀ (i : ℕ) w, (args ts)[i]? = some w → ∃ p, r.argv[i]? = some (some p) ∧ HoldsString r.mem p w
  nul    : r.argv[(args ts).length]? = some none
  stdout : PointsTo r.mem r.redir.stdout (targets ts).getLast?
  append : r.redir.append = ts.any isAppend

-- What is demanded of `parse`, which is also that nothing is written outside of the array.
def Splits (m : Mem) (s : ℕ) (argv : List (Option ℕ)) (redir : Redir) (ts : List Token) : Prop :=
  ∃ r, parse m s argv redir = some r ∧
    if argv.length ≤ (args ts).length then r.ret = -1 else SplitAs ts r

-- The scanner does not destroy what it needs: an operator which is directly behind a word is overwritten, and a
-- comment which is not directly behind a word becomes an argument.
structure Scannable (ts : List Token) : Prop where
  single  : .op false true ∉ ts
  double  : .op true true ∈ ts → .op true false ∈ ts
  comment : .comment false ∉ ts

section Lex

variable {r t space word rest : List UInt8} {c : UInt8} {acc : List UInt8} {ts : List Token}

-- The tokens behind a word.
def behind : List UInt8 → List Token
  | []     => []
  | c :: t =>
    if c = '#'.toUInt8 then [.comment true]
    else if c = '>'.toUInt8 then
      if t.head? = some '>'.toUInt8 then .op true true :: tokens t.tail else .op false true :: tokens t
    else tokens t

theorem not_isword (h : isspace c) : ¬isword c := fun hw => (isword_iff.mp hw).left h

theorem lex_space (h : ∀ c ∈ space, isspace c) : tokens (space ++ r) = tokens r := by
  induction space
  case nil => rfl
  case cons c space hi =>
    have hc := h c List.mem_cons_self
    have hne : c ≠ '#'.toUInt8 ∧ c ≠ '>'.toUInt8 := by
      refine ⟨?_, ?_⟩ <;>
        rintro rfl <;> exact absurd hc (by decide)
    rw [List.cons_append, tokens, lex]
    simp only [Bool.false_eq_true, if_false, if_neg (not_isword hc), if_neg hne.left, if_neg hne.right]
    exact hi fun c hc => h c (List.mem_cons_of_mem _ hc)

theorem lex_append (h : ∀ c ∈ word, isword c) : lex false acc (word ++ rest) = lex false (acc ++ word) rest := by
  induction word generalizing acc
  case nil => simp
  case cons c word hi =>
    rw [List.cons_append, lex]
    simp only [Bool.false_eq_true, if_false, if_pos (h c List.mem_cons_self)]
    rw [hi fun c hc => h c (List.mem_cons_of_mem _ hc), List.append_assoc, List.singleton_append]

-- The second character of an operator.
theorem lex_second : lex (decide (t.head? = some '>'.toUInt8)) [] t =
    if t.head? = some '>'.toUInt8 then tokens t.tail else tokens t := by
  cases t
  case nil => rfl
  case cons d u =>
    by_cases hd : d = '>'.toUInt8
    case pos => simp [lex, hd, tokens]
    case neg => simp [hd, tokens]

theorem lex_behind (hacc : acc ≠ []) (hrest : ∀ c ∈ rest.head?, ¬isword c) :
    lex false acc rest = .word acc :: behind rest := by
  have hflush : flush acc = [.word acc] := if_neg hacc
  cases rest
  case nil => rw [lex, hflush, behind]
  case cons c t =>
    rw [lex, behind, hflush]
    simp only [Bool.false_eq_true, if_false, if_neg (hrest c rfl), lex_second, hacc, ne_eq, not_false_eq_true,
      decide_true, List.cons_append, List.nil_append]
    split_ifs <;> simp_all [tokens]

theorem lex_word (h : ∀ c ∈ word, isword c) (hne : word ≠ []) (hrest : ∀ c ∈ rest.head?, ¬isword c) :
    tokens (word ++ rest) = .word word :: behind rest := by
  rw [tokens, lex_append h, List.nil_append, lex_behind hne hrest]

theorem lex_comment : tokens ('#'.toUInt8 :: t) = [.comment false] := by
  rw [tokens, lex]
  simp only [Bool.false_eq_true, if_false, if_neg (show ¬isword '#'.toUInt8 by decide), if_true]
  rfl

theorem lex_op : tokens ('>'.toUInt8 :: t) =
    if t.head? = some '>'.toUInt8 then .op true false :: tokens t.tail else .op false false :: tokens t := by
  rw [tokens, lex]
  simp only [Bool.false_eq_true, if_false, if_neg (show ¬isword '>'.toUInt8 by decide),
    if_neg (show '>'.toUInt8 ≠ '#'.toUInt8 by decide), if_true, lex_second]
  split_ifs with h <;> simp [flush, h]

-- How a line begins behind its white space.
inductive Begins (r : List UInt8) : Prop
  | done (h : r = [])
  | comment (t : List UInt8) (h : r = '#'.toUInt8 :: t)
  | op (t : List UInt8) (h : r = '>'.toUInt8 :: t)
  | word (w rest : List UInt8) (h : r = w ++ rest) (hw : ∀ c ∈ w, isword c) (hne : w ≠ [])
      (hrest : ∀ c ∈ rest.head?, ¬isword c)

theorem exists_begins (r : List UInt8) : ∃ space t, r = space ++ t ∧ (∀ c ∈ space, isspace c) ∧ Begins t := by
  refine ⟨r.takeWhile isspace, r.dropWhile isspace, List.takeWhile_append_dropWhile.symm,
    fun c hc => List.mem_takeWhile_imp hc, ?_⟩
  cases hr : r.dropWhile isspace
  case nil => exact .done rfl
  case cons c t =>
    have hc : isspace c = false := by
      have := List.head_dropWhile_not isspace (l := r) (by simp [hr])
      simpa [hr] using this
    by_cases hhash : c = '#'.toUInt8
    case pos => exact .comment t (by rw [hhash])
    case neg =>
      by_cases hop : c = '>'.toUInt8
      case pos => exact .op t (by rw [hop])
      case neg =>
        have hw : isword c := isword_iff.mpr ⟨by simp [hc], hop, hhash⟩
        refine .word ((c :: t).takeWhile isword) ((c :: t).dropWhile isword) List.takeWhile_append_dropWhile.symm
          (fun d hd => List.mem_takeWhile_imp hd) (by simp [hw]) fun d hd => ?_
        have := List.head?_dropWhile_not isword (c :: t)
        rw [Option.mem_def.mp hd] at this
        simpa using this

end Lex

-- What `parse` makes of a token.
def heard : Token → Option Token
  | .op false true  => none
  | .op true true   => some (.op false false)
  | .comment true   => none
  | t               => some t

-- The strings which `parse` has stored, where NULL is `none`.
structure Heard where
  argv   : List (Option (List UInt8))
  stdout : Option (List UInt8)
  append : Bool

-- What `parse` makes of the tokens, which is `none` if the array is full.
def hear (argvlen : ℕ) : List Token → Heard → Option Heard
  | [], a => some a
  | .op append _ :: .word w :: ts, a =>
    hear argvlen ts { a with stdout := some w, append := a.append || append }
  | .op append _ :: ts, a => hear argvlen ts { a with stdout := none, append := a.append || append }
  | .word w :: ts, a =>
    if argvlen ≤ a.argv.length + 1 then none
    else hear argvlen ts { a with argv := a.argv ++ [some w] }
  | .comment _ :: ts, a =>
    if argvlen ≤ a.argv.length + 1 then none
    else hear argvlen ts { a with argv := a.argv ++ [none] }

section Heard

variable {r rest w : List UInt8} {ts : List Token}

theorem followed_op {append touching : Bool} (h : followed (.op append touching :: ts)) :
    followed ts ∧ ∃ w ts', ts = .word w :: ts' := by
  rw [followed, Bool.and_eq_true] at h
  refine ⟨h.right, ?_⟩
  cases ts
  case nil => exact absurd h.left (by simp [startsWithWord])
  case cons t ts =>
    cases t
    case word w => exact ⟨w, ts, rfl⟩
    all_goals exact absurd h.left (by simp [startsWithWord])

-- The character behind a word is lost.
theorem heard_behind (h : followed (behind rest)) :
    (behind rest).filterMap heard = (tokens (behindWord rest)).filterMap heard ∧
      followed (tokens (behindWord rest)) := by
  cases rest
  case nil => exact ⟨rfl, rfl⟩
  case cons c t =>
    rw [behind] at h ⊢
    rw [behindWord]
    split_ifs at h ⊢ with hhash hop htwice
    case pos => exact ⟨rfl, rfl⟩
    case pos =>
      obtain ⟨u, rfl⟩ := List.head?_eq_some_iff.mp htwice
      obtain ⟨hf, w, ts, hts⟩ := followed_op h
      have hu : ¬u.head? = some '>'.toUInt8 := by
        intro hu
        obtain ⟨v, rfl⟩ := List.head?_eq_some_iff.mp hu
        rw [List.tail_cons, lex_op] at hts
        split_ifs at hts <;> contradiction
      rw [lex_op, if_neg hu, List.tail_cons]
      refine ⟨rfl, ?_⟩
      rw [List.tail_cons] at hts hf
      rw [followed, hf, hts]
      rfl
    case neg => exact ⟨rfl, (followed_op h).left⟩
    case neg => exact ⟨rfl, h⟩

end Heard

-- A pointer to a string which is not written anymore, because it ends in front of the rest or the rest is empty.
def Kept (m : Mem) (s : ℕ) (r : List UInt8) : Option ℕ → Option (List UInt8) → Prop
  | some p, some w => HoldsString m p w ∧ (p + w.length < s ∨ r = [])
  | none, none     => True
  | _, _           => False

-- What the variables of `parse` stand for in front of an iteration.
structure Stored (m : Mem) (s : ℕ) (r : List UInt8) (argv : List (Option ℕ)) (argc : ℕ) (redir : Redir) (a : Heard) :
    Prop where
  length : a.argv.length = argc
  room   : argc < argv.length
  words  : ∀ i < argc, ∃ p w, argv[i]? = some p ∧ a.argv[i]? = some w ∧ Kept m s r p w
  stdout : Kept m s r redir.stdout a.stdout
  append : redir.append = a.append

-- The result of `parse` for what it has heard.
structure Result (argvlen : ℕ) (a : Heard) (x : Parsed) : Prop where
  ret    : x.ret = (Int32.ofNat a.argv.length).toInt
  room   : a.argv.length < argvlen
  words  : ∀ i < a.argv.length, ∃ p w, x.argv[i]? = some p ∧ a.argv[i]? = some w ∧ PointsTo x.mem p w
  nul    : x.argv[a.argv.length]? = some none
  stdout : PointsTo x.mem x.redir.stdout a.stdout
  append : x.redir.append = a.append

def Answers (argvlen : ℕ) (x : Parsed) : Option Heard → Prop
  | none   => x.ret = -1
  | some a => Result argvlen a x

section Kept

variable {m m' : Mem} {s s' q : ℕ} {r r' w word space : List UInt8} {p : Option ℕ} {o : Option (List UInt8)}
variable {argv : List (Option ℕ)} {argc : ℕ} {redir : Redir} {a : Heard}

theorem Kept.pointsTo (h : Kept m s r p o) : PointsTo m p o := by
  cases p <;> cases o
  case some.some => exact h.left
  all_goals exact h

-- White space and operators are skipped.
theorem Kept.skip (h : Kept m s (space ++ r) p o) : Kept m (s + space.length) r p o := by
  cases p <;> cases o
  case some.some => exact ⟨h.left, h.right.imp (fun hlt => by omega) fun he => (List.append_eq_nil_iff.mp he).right⟩
  all_goals exact h

-- A word behind the pointer is cut off.
theorem Kept.cut (h : Kept m s r p o) (hr : r ≠ []) (hq : s ≤ q) (hcut : Cut m q word r' m' s') : Kept m' s' r' p o := by
  cases p <;> cases o
  case some.some p w =>
    obtain ⟨hp, hlt⟩ := h
    have hlt := hlt.resolve_right hr
    refine ⟨hp.frame fun x _ hx => hcut.frame x (by omega), ?_⟩
    exact hcut.apart.imp_left fun h => by omega
  all_goals exact h

-- The end of the string is written.
theorem Kept.store (h : Kept m s r p o) (hr : r ≠ []) : Kept (m.store s 0) s [] p o := by
  cases p <;> cases o
  case some.some p w =>
    have hlt := h.right.resolve_right hr
    exact ⟨h.left.frame fun x _ hx => Mem.store_ne (by omega), .inr rfl⟩
  all_goals exact h

-- The first word of a line is cut off.
theorem parg_tokens {ts : List Token} (h : HoldsString m s r) (hq : '"'.toUInt8 ∉ r) (ht : tokens r = .word w :: ts)
    (hf : followed ts) : ∃ m' s' p rest, parg m s = (m', s', some p) ∧ Cut m p w rest m' s' ∧ s ≤ p ∧
      ts.filterMap heard = (tokens rest).filterMap heard ∧ followed (tokens rest) ∧ rest.length < r.length ∧
      '"'.toUInt8 ∉ rest := by
  obtain ⟨space, t, rfl, hspace, hb⟩ := exists_begins r
  rw [lex_space hspace] at ht
  cases hb
  case done ht' => simp [ht', tokens, lex, flush] at ht
  case comment u ht' => simp [ht', lex_comment] at ht
  case op u ht' =>
    rw [ht', lex_op] at ht
    split_ifs at ht <;> exact absurd (List.cons.inj ht).left nofun
  case word word rest ht' hw hne hrest =>
    subst ht'
    rw [lex_word hw hne hrest] at ht
    obtain ⟨hword, rfl⟩ := List.cons.inj ht
    obtain rfl := Token.word.inj hword
    obtain ⟨m', s', hparg, hcut⟩ := parg_word h hspace hw hne (fun c hc hquote => hq (by
      have := List.mem_of_mem_head? hc
      simp [← hquote, this])) hrest
    obtain ⟨hheard, hfol⟩ := heard_behind hf
    have hsub : behindWord rest <:+ rest := by
      cases rest
      case nil => exact List.suffix_rfl
      case cons c u =>
        rw [behindWord]
        split_ifs
        · exact List.nil_suffix
        · exact List.suffix_cons c u
    refine ⟨m', s', _, _, hparg, hcut, Nat.le_add_right _ _, hheard, hfol, ?_, fun hm => hq ?_⟩
    · have := hsub.length_le
      have := List.length_pos_iff.mpr hne
      simp only [List.length_append]
      omega
    · simp [hsub.subset hm]

theorem Stored.skip (h : Stored m s (space ++ r) argv argc redir a) : Stored m (s + space.length) r argv argc redir a where
  length  := h.length
  room    := h.room
  words i hi := by
    obtain ⟨p, w, hp, hw, hk⟩ := h.words i hi
    exact ⟨p, w, hp, hw, hk.skip⟩
  stdout  := h.stdout.skip
  append  := h.append

-- The next element of the array is written.
theorem Stored.push {v : Option (List UInt8)} (h : Stored m s r argv argc redir a) (hroom : argc + 1 < argv.length)
    (hkeep : ∀ p o, Kept m s r p o → Kept m' s' r' p o) (hnew : Kept m' s' r' p v) :
    Stored m' s' r' (argv.set argc p) (argc + 1) redir { a with argv := a.argv ++ [v] } where
  length  := by simp [h.length]
  room    := by simpa using hroom
  words i hi := by
    by_cases he : i = argc
    case pos =>
      subst he
      refine ⟨p, v, List.getElem?_set_self h.room, ?_, hnew⟩
      rw [← h.length, List.getElem?_concat_length]
    case neg =>
      obtain ⟨p, w, hp, hw, hk⟩ := h.words i (by omega)
      refine ⟨p, w, (List.getElem?_set_ne (by omega)).trans hp, ?_, hkeep _ _ hk⟩
      rw [List.getElem?_append_left (by have := h.length; omega), hw]
  stdout  := hkeep _ _ h.stdout
  append  := h.append

-- A redirection replaces the previous one.
theorem Stored.redirect {v : Option (List UInt8)} {append : Bool} (h : Stored m s r argv argc redir a)
    (hkeep : ∀ p o, Kept m s r p o → Kept m' s' r' p o) (hnew : Kept m' s' r' p v) :
    Stored m' s' r' argv argc { stdout := p, append := redir.append || append }
      { a with stdout := v, append := a.append || append } where
  length  := h.length
  room    := h.room
  words i hi := by
    obtain ⟨p, w, hp, hw, hk⟩ := h.words i hi
    exact ⟨p, w, hp, hw, hkeep _ _ hk⟩
  stdout  := hnew
  append  := by rw [h.append]

end Kept
end Camellia.Shell
