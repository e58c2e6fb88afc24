import Camellia.Libk.Mem
import Mathlib.Algebra.Group.Int.Defs

namespace Camellia.Fs

def ENOSYS : Int := 5

def LONG_MAX : ℕ := 2 ^ 63 - 1

-- The conversions to a `long` and to an `int`.
def toLong (n : Int) : Int :=
  n.bmod (2 ^ 64)

def toInt (n : Int) : Int :=
  n.bmod (2 ^ 32)

-- A `struct dirbuild`, where `writes` are the places in the buffer which were written to, each with the number
-- of bytes.
structure Dirbuild where
  mem    : Mem
  offset : Int
  buf    : ℕ
  bpos   : Int
  blen   : Int
  error  : Int
  writes : List (Int × ℕ)

-- What `_sys_read` returns for a number of bytes and an offset, together with the bytes it stores, and what
-- `_sys_getsize` returns.
structure Handle where
  read    : (len : ℕ) → (offset : Int) → Int × List UInt8
  getsize : Int

section Operations

def dirStart (m : Mem) (offset : Int) (buf buflen : ℕ) : Dirbuild where
  mem    := m
  offset := offset
  buf    := buf
  bpos   := 0
  blen   := toLong buflen
  error  := if offset < 0 then -ENOSYS else 0
  writes := []

-- The bytes are stored behind those which are in the buffer already.
def Dirbuild.write (db : Dirbuild) (bytes : List UInt8) : Dirbuild :=
  { db with
    mem    := db.mem.write (db.buf + db.bpos).toNat bytes
    writes := db.writes ++ [(db.bpos, bytes.length)] }

def Dirbuild.advance (db : Dirbuild) (n : Int) : Dirbuild :=
  { db with bpos := toLong (db.bpos + n), offset := 0 }

def dirAppendl (db : Dirbuild) (name : List UInt8) : Bool × Dirbuild :=
  if db.error ≠ 0 then
    (true, db)
  else if LONG_MAX < name.length then
    (true, { db with error := -1 })
  else
    let len : Int := name.length + 1
    if db.offset < toLong len then
      let rest := (name ++ [0]).drop db.offset.toNat
      let db := if db.buf ≠ 0 then db.write rest else db
      (false, db.advance rest.length)
    else
      (false, { db with offset := toLong (db.offset - len) })

def dirAppendFrom (db : Dirbuild) (h : Handle) : Bool × Dirbuild :=
  if db.error ≠ 0 then
    (true, db)
  else if db.buf ≠ 0 ∧ db.bpos = db.blen then
    (false, db)
  else
    let (res, bytes) := if db.buf ≠ 0 then h.read ((db.blen - db.bpos) % 2 ^ 64).toNat db.offset else (0, [])
    let db := if db.buf ≠ 0 then db.write bytes else db
    let ret := toInt res
    if ret < 0 then
      (true, { db with error := ret })
    else if 0 < ret then
      (false, db.advance ret)
    else
      let ret := toInt h.getsize
      if ret < 0 then
        (true, { db with error := ret })
      else if db.offset < ret then
        (false, db.advance (ret - db.offset))
      else
        (false, { db with offset := db.offset - ret })

def dirFinish (db : Dirbuild) : Int :=
  if db.error ≠ 0 then db.error else db.bpos

inductive Entry
  | name (name : List UInt8)
  | listing (h : Handle)

def append (db : Dirbuild) : Entry → Dirbuild
  | .name name => (dirAppendl db name).2
  | .listing h => (dirAppendFrom db h).2

-- The calls for all entries. A caller which stops at an error does the same, as nothing happens after it.
def build (db : Dirbuild) (entries : List Entry) : Dirbuild :=
  entries.foldl append db

end Operations

section Within

-- Nothing outside of the buffer was written, and no more bytes are announced than it has.
def Dirbuild.Within (db : Dirbuild) : Prop :=
  (∀ w ∈ db.writes, 0 ≤ w.1 ∧ w.1 + w.2 ≤ db.blen) ∧ (dirFinish db < 0 ∨ dirFinish db ≤ db.blen)

-- What is stored next has space in the buffer: the rest of a name with its NUL, or what a handle says that it has read
-- or that there is to be read.
def Entry.Fits (db : Dirbuild) : Entry → Prop
  | .name s    => db.error = 0 → db.offset ≤ s.length → db.bpos + (s.length + 1 - db.offset) ≤ db.blen
  | .listing h => db.error = 0 → db.bpos ≠ db.blen →
      let ret := toInt (h.read (db.blen - db.bpos).toNat db.offset).1
      (0 < ret → db.bpos + ret ≤ db.blen) ∧
        (ret = 0 → db.offset < toInt h.getsize → db.bpos + (toInt h.getsize - db.offset) ≤ db.blen)

def AllFit (db : Dirbuild) : List Entry → Prop
  | []      => True
  | e :: es => e.Fits db ∧ AllFit (append db e) es

-- A name does not take up the address space, and a read stores no more bytes than asked for, whatever else it does.
def Entry.Lawful : Entry → Prop
  | .name s    => s.length < LONG_MAX
  | .listing h => ∀ len offset, (h.read len offset).2.length ≤ len

-- As long as everything fits, the buffer is filled from its start.
structure Dirbuild.Ok (db : Dirbuild) (buf n : ℕ) : Prop where
  buf     : db.buf = buf
  blen    : db.blen = n
  within  : db.Within
  failed  : db.error ≤ 0
  place   : db.error = 0 → 0 ≤ db.bpos ∧ db.bpos ≤ n ∧ 0 ≤ db.offset ∧ db.offset < 2 ^ 63

variable {db : Dirbuild} {buf n : ℕ} {e : Entry} {es : List Entry} {name : List UInt8} {h : Handle}

theorem toLong_of_nonneg {x : Int} (h₀ : 0 ≤ x) (h : x < 2 ^ 63) : toLong x = x :=
  Int.bmod_eq_of_le (by omega) (by omega)

theorem toInt_lt (x : Int) : toInt x < 2 ^ 31 := by
  rw [toInt, Int.bmod_def]
  split <;> omega

-- Nothing happens after an error.
theorem append_of_error (he : db.error ≠ 0) : append db e = db := by
  cases e with
  | name name => rw [append, dirAppendl, if_pos he]
  | listing h => rw [append, dirAppendFrom, if_pos he]

theorem build_of_error (he : db.error ≠ 0) : build db es = db := by
  induction es with
  | nil          => rfl
  | cons e es ih => exact (congrArg (build · es) (append_of_error he)).trans ih

theorem dirStart_blen (m : Mem) (offset : Int) (hn : n < 2 ^ 63) : (dirStart m offset buf n).blen = n := by
  have hl : toLong n = n := toLong_of_nonneg (by omega) (by omega)
  rw [← hl, dirStart]

theorem dirStart_error (m : Mem) (offset : Int) : (dirStart m offset buf n).error = if offset < 0 then -5 else 0 :=
  rfl

theorem ok_dirStart (m : Mem) (offset : Int) (hn : n < 2 ^ 63) (ho : offset < 2 ^ 63) : (dirStart m offset buf n).Ok buf n := by
  have hb : (dirStart m offset buf n).blen = n := dirStart_blen m offset hn
  constructor
  case buf    => rfl
  case blen   => exact hb
  case within =>
    refine ⟨by simp [dirStart], ?_⟩
    rw [dirFinish, dirStart_error, hb]
    by_cases ho : offset < 0
    · simp [ho]
    · simp [ho, dirStart]
  case failed =>
    rw [dirStart_error]
    split <;> omega
  case place  =>
    intro h
    rw [dirStart_error] at h
    split at h
    · omega
    · exact ⟨le_refl 0, Int.natCast_nonneg n, by simp only [dirStart]; omega, ho⟩

theorem Dirbuild.Ok.fail (hd : db.Ok buf n) {x : Int} (hx : x < 0) : Dirbuild.Ok { db with error := x } buf n where
  buf    := hd.buf
  blen   := hd.blen
  within := ⟨hd.within.left, .inl (by simp [dirFinish]; omega)⟩
  failed := Int.le_of_lt hx
  place h := absurd h (Int.ne_of_lt hx)

theorem Dirbuild.Ok.write (hd : db.Ok buf n) (he : db.error = 0) {bytes : List UInt8} (h : db.bpos + bytes.length ≤ n) :
    (db.write bytes).Ok buf n where
  buf    := hd.buf
  blen   := hd.blen
  within := by
    refine ⟨fun w hw => ?_, hd.within.right⟩
    cases List.mem_append.mp hw
    case inl hw => exact hd.within.left w hw
    case inr hw =>
      obtain rfl := List.mem_singleton.mp hw
      exact ⟨(hd.place he).left, hd.blen ▸ h⟩
  failed := hd.failed
  place  := hd.place

theorem Dirbuild.Ok.skip (hd : db.Ok buf n) (he : db.error = 0) {x : Int} (hx : 0 ≤ x) (hx' : x < 2 ^ 63) :
    Dirbuild.Ok { db with offset := x } buf n where
  buf    := hd.buf
  blen   := hd.blen
  within := hd.within
  failed := hd.failed
  place _ := ⟨(hd.place he).left, (hd.place he).right.left, hx, hx'⟩

theorem finish_advance (hd : db.Ok buf n) (he : db.error = 0) (hn : n < 2 ^ 47) {k : Int} (hk : 0 ≤ k) (hk' : k < 2 ^ 62) :
    dirFinish (db.advance k) = db.bpos + k := by
  have ⟨hp, hpn, _, _⟩ := hd.place he
  have hl : toLong (db.bpos + k) = db.bpos + k := toLong_of_nonneg (by omega) (by omega)
  have he' : ¬(db.advance k).error ≠ 0 := not_not.mpr he
  rw [dirFinish, if_neg he', ← hl]
  rfl

theorem Dirbuild.Ok.advance (hd : db.Ok buf n) (he : db.error = 0) (hn : n < 2 ^ 47) {k : Int} (hk : 0 ≤ k) (h : db.bpos + k ≤ n) :
    (db.advance k).Ok buf n := by
  have ⟨hp, _, _, _⟩ := hd.place he
  have hl : (db.advance k).bpos = db.bpos + k := toLong_of_nonneg (by omega) (by omega)
  have hb : (db.advance k).blen = n := hd.blen
  constructor
  case buf    => exact hd.buf
  case blen   => exact hb
  case within =>
    refine ⟨hd.within.left, .inr ?_⟩
    rwa [finish_advance hd he hn hk (by omega), hb]
  case failed => exact hd.failed
  case place  =>
    intro _
    rw [hl]
    exact ⟨by omega, h, le_refl 0, (by decide : (0 : Int) < 2 ^ 63)⟩

-- What is announced shows whether it has fit.
theorem Dirbuild.Ok.of_advance (hd : db.Ok buf n) (he : db.error = 0) (hn : n < 2 ^ 47) {k : Int} (hk : 0 ≤ k) (hk' : k < 2 ^ 62)
    (h : (db.advance k).Within) : db.bpos + k ≤ n := by
  have ⟨hp, hpn, _, _⟩ := hd.place he
  have hb : (db.advance k).blen = n := hd.blen
  have := h.right
  rw [finish_advance hd he hn hk hk', hb] at this
  omega

theorem dirAppendl_eq (he : db.error = 0) (hbuf : db.buf ≠ 0) (hl : name.length < LONG_MAX) :
    dirAppendl db name =
      if db.offset < name.length + 1 then
        let rest := (name ++ [0]).drop db.offset.toNat
        (false, (db.write rest).advance rest.length)
      else
        (false, { db with offset := toLong (db.offset - (name.length + 1)) }) := by
  have hmax : LONG_MAX = 2 ^ 63 - 1 := by rw [LONG_MAX]
  have hlen : toLong (name.length + 1) = name.length + 1 := toLong_of_nonneg (by omega) (by omega)
  rw [dirAppendl, if_neg (not_not.mpr he), if_neg (Nat.lt_asymm hl)]
  dsimp only
  rw [hlen, if_pos hbuf]

-- One call keeps to the buffer if and only if what it stores fits.
theorem append_name (hd : db.Ok buf n) (hbuf : buf ≠ 0) (hn : n < 2 ^ 47) (hl : name.length < LONG_MAX) :
    ((Entry.name name).Fits db → (append db (.name name)).Ok buf n) ∧
      ((append db (.name name)).Within → (Entry.name name).Fits db) := by
  have hmax : LONG_MAX = 2 ^ 63 - 1 := by rw [LONG_MAX]
  by_cases he : db.error = 0
  case neg =>
    rw [append_of_error he]
    exact ⟨fun _ => hd, fun _ h => absurd h he⟩
  have ⟨hp, hpn, ho, ho'⟩ := hd.place he
  rw [append, dirAppendl_eq he (hd.buf ▸ hbuf) hl]
  split
  case isTrue hlt =>
    have hrest : (((name ++ [0]).drop db.offset.toNat).length : Int) = name.length + 1 - db.offset := by
      simp
      omega
    generalize (name ++ [0]).drop db.offset.toNat = rest at hrest
    have hfits : (Entry.name name).Fits db ↔ db.bpos + rest.length ≤ n := by
      rw [Entry.Fits, hd.blen, hrest]
      exact ⟨fun h => h he (by omega), fun h _ _ => h⟩
    rw [hfits]
    refine ⟨fun h => (hd.write he h).advance he hn (by omega) h, fun h => ?_⟩
    have := (h.left (db.bpos, rest.length) (by simp [Dirbuild.advance, Dirbuild.write])).right
    have hb : ((db.write rest).advance rest.length).blen = n := hd.blen
    rwa [hb] at this
  case isFalse hge =>
    have hoff : toLong (db.offset - (name.length + 1)) = db.offset - (name.length + 1) := toLong_of_nonneg (by omega) (by omega)
    have hskip := hd.skip he (x := db.offset - (name.length + 1)) (by omega) (by omega)
    rw [hoff]
    exact ⟨fun _ => hskip, fun _ _ h => by omega⟩

theorem append_listing (hd : db.Ok buf n) (hbuf : buf ≠ 0) (hn : n < 2 ^ 47) (hl : (Entry.listing h).Lawful) :
    ((Entry.listing h).Fits db → (append db (.listing h)).Ok buf n) ∧
      ((append db (.listing h)).Within → (Entry.listing h).Fits db) := by
  by_cases he : db.error = 0
  case neg =>
    rw [append_of_error he]
    exact ⟨fun _ => hd, fun _ h => absurd h he⟩
  have ⟨hp, hpn, ho, ho'⟩ := hd.place he
  rw [append, dirAppendFrom, if_neg (not_not.mpr he)]
  by_cases hfull : db.bpos = db.blen
  case pos =>
    rw [if_pos ⟨hd.buf ▸ hbuf, hfull⟩]
    exact ⟨fun _ => hd, fun _ _ h => absurd hfull h⟩
  have hspace : (db.blen - db.bpos) % 2 ^ 64 = db.blen - db.bpos := by
    rw [hd.blen]
    omega
  rw [if_neg fun h => hfull h.right]
  simp only [hspace, hd.buf, ne_eq, hbuf, not_false_eq_true, if_true]
  have hbytes := hl (db.blen - db.bpos).toNat db.offset
  have hfits : (Entry.listing h).Fits db ↔
      let ret := toInt (h.read (db.blen - db.bpos).toNat db.offset).1
      (0 < ret → db.bpos + ret ≤ n) ∧ (ret = 0 → db.offset < toInt h.getsize → db.bpos + (toInt h.getsize - db.offset) ≤ n) := by
    rw [Entry.Fits, hd.blen]
    exact ⟨fun hf => hf he (hd.blen ▸ hfull), fun hf _ _ => hf⟩
  rw [hfits]
  generalize h.read (db.blen - db.bpos).toNat db.offset = r at hbytes
  obtain ⟨res, bytes⟩ := r
  have hw : (db.write bytes).Ok buf n := hd.write he <| by
    have := hd.blen
    dsimp only at hbytes
    omega
  have hret := toInt_lt res
  have hsize := toInt_lt h.getsize
  dsimp only
  generalize toInt res = ret at *
  generalize toInt h.getsize = size at *
  by_cases hneg : ret < 0
  case pos =>
    rw [if_pos hneg]
    exact ⟨fun _ => hw.fail hneg, fun _ => ⟨fun h => by omega, fun h => by omega⟩⟩
  rw [if_neg hneg]
  by_cases hpos : 0 < ret
  case pos =>
    rw [if_pos hpos]
    exact ⟨fun hf => hw.advance he hn (by omega) (hf.left hpos),
      fun hin => ⟨fun _ => hw.of_advance he hn (by omega) (by omega) hin, fun h => by omega⟩⟩
  rw [if_neg hpos]
  by_cases hneg' : size < 0
  case pos =>
    rw [if_pos hneg']
    exact ⟨fun _ => hw.fail hneg', fun _ => ⟨fun h => by omega, fun _ h => by omega⟩⟩
  rw [if_neg hneg']
  by_cases hlt : db.offset < size
  case pos =>
    have hlt' : (db.write bytes).offset < size := hlt
    rw [if_pos hlt']
    exact ⟨fun hf => hw.advance he hn (by omega) (hf.right (by omega) hlt),
      fun hin => ⟨fun h => by omega, fun _ _ => hw.of_advance he hn (by omega) (by omega) hin⟩⟩
  case neg =>
    have hlt' : ¬(db.write bytes).offset < size := hlt
    rw [if_neg hlt']
    have hx : (db.write bytes).offset - size = db.offset - size := rfl
    exact ⟨fun _ => hw.skip he (by rw [hx]; omega) (by rw [hx]; omega), fun _ => ⟨fun h => by omega, fun _ h => absurd h hlt⟩⟩

theorem append_keeps (hd : db.Ok buf n) (hbuf : buf ≠ 0) (hn : n < 2 ^ 47) (hl : e.Lawful) :
    (e.Fits db → (append db e).Ok buf n) ∧ ((append db e).Within → e.Fits db) := by
  cases e with
  | name name => exact append_name hd hbuf hn hl
  | listing h => exact append_listing hd hbuf hn hl

theorem within_iff (hd : db.Ok buf n) (hbuf : buf ≠ 0) (hn : n < 2 ^ 47) (hl : ∀ e ∈ es, e.Lawful) :
    (∀ done, done <+: es → (build db done).Within) ↔ AllFit db es := by
  induction es generalizing db with
  | nil =>
    refine ⟨fun _ => trivial, fun _ done h => ?_⟩
    obtain rfl := List.prefix_nil.mp h
    exact hd.within
  | cons e es ih =>
    have ⟨hkeep, hneed⟩ := append_keeps hd hbuf hn (hl e List.mem_cons_self)
    have hl' := fun e' he' => hl e' (List.mem_cons_of_mem e he')
    constructor
    · intro h
      have hfits := hneed (h [e] (by simp))
      exact ⟨hfits, (ih (hkeep hfits) hl').mp fun done hdone => h (e :: done) (by simpa using hdone)⟩
    · intro ⟨hfits, hrest⟩ done hdone
      cases done with
      | nil       => exact hd.within
      | cons d ds =>
        obtain ⟨rfl, hds⟩ := List.cons_prefix_cons.mp hdone
        exact (ih (hkeep hfits) hl').mpr hrest ds hds

-- A buffer of the size of the names with their NULs, less the offset, is what the names alone need.
def total : List (List UInt8) → ℕ
  | []            => 0
  | name :: names => name.length + 1 + total names

theorem append_name_of_le (he : db.error = 0) (hbuf : db.buf ≠ 0) (hl : name.length < LONG_MAX) (ho : 0 ≤ db.offset)
    (h : db.offset ≤ name.length) :
    append db (.name name) =
      (db.write ((name ++ [0]).drop db.offset.toNat)).advance (name.length + 1 - db.offset) := by
  have hlen : (((name ++ [0]).drop db.offset.toNat).length : Int) = name.length + 1 - db.offset := by
    simp
    omega
  rw [append, dirAppendl_eq he hbuf hl, if_pos (by omega)]
  dsimp only
  rw [hlen]

theorem append_name_of_gt (he : db.error = 0) (hbuf : db.buf ≠ 0) (hl : name.length < LONG_MAX) (ho : db.offset < 2 ^ 63)
    (h : name.length < db.offset) :
    append db (.name name) = { db with offset := db.offset - (name.length + 1) } := by
  rw [append, dirAppendl_eq he hbuf hl, if_neg (by omega), toLong_of_nonneg (by omega) (by omega)]

theorem allFit_of_error (he : db.error ≠ 0) : AllFit db es := by
  induction es with
  | nil          => trivial
  | cons e es ih =>
    rw [AllFit, append_of_error he]
    refine ⟨?_, ih⟩
    cases e with
    | name name => exact fun h => absurd h he
    | listing h => exact fun h => absurd h he

theorem allFit_names {names : List (List UInt8)} (hd : db.Ok buf n) (he : db.error = 0) (hbuf : buf ≠ 0) (hn : n < 2 ^ 47)
    (hl : ∀ s ∈ names, s.length < LONG_MAX) :
    AllFit db (names.map .name) ↔ db.bpos + total names ≤ n + db.offset := by
  induction names generalizing db with
  | nil =>
    have ⟨_, hpn, ho, _⟩ := hd.place he
    simp [AllFit, total]
    omega
  | cons name names ih =>
    have ⟨hp, hpn, ho, ho'⟩ := hd.place he
    have hbuf' : db.buf ≠ 0 := hd.buf ▸ hbuf
    have hl₀ := hl name List.mem_cons_self
    have hl' := fun s hs => hl s (List.mem_cons_of_mem name hs)
    have htotal : total (name :: names) = name.length + 1 + total names := rfl
    rw [List.map_cons, AllFit, Entry.Fits, htotal, hd.blen]
    rcases lt_or_ge (name.length : Int) db.offset with h | h
    · have hskip : Dirbuild.Ok { db with offset := db.offset - (name.length + 1) } buf n := hd.skip he (by omega) (by omega)
      rw [append_name_of_gt he hbuf' hl₀ ho' h, ih hskip he hl']
      dsimp only
      omega
    · have hlen : (((name ++ [0]).drop db.offset.toNat).length : Int) = name.length + 1 - db.offset := by
        simp
        omega
      have hiff (hfits : db.bpos + (name.length + 1 - db.offset) ≤ n) :
          AllFit (append db (.name name)) (names.map .name) ↔ db.bpos + (name.length + 1 - db.offset) + total names ≤ n := by
        have hw := hd.write he (hlen ▸ hfits)
        have hbpos : toLong (db.bpos + (name.length + 1 - db.offset)) = db.bpos + (name.length + 1 - db.offset) :=
          toLong_of_nonneg (by omega) (by omega)
        rw [append_name_of_le he hbuf' hl₀ ho h, ih (hw.advance he hn (by omega) hfits) he hl']
        simp only [Dirbuild.advance, Dirbuild.write, hbpos, Int.add_zero]
      constructor
      · intro ⟨hfits, hrest⟩
        have := (hiff (hfits he h)).mp hrest
        omega
      · intro htotal
        have hfits : db.bpos + (name.length + 1 - db.offset) ≤ n := by omega
        exact ⟨fun _ _ => hfits, (hiff hfits).mpr (by omega)⟩

-- What was appended so far is within the buffer at every time if and only if it fits at every time.
theorem build_within_iff (m : Mem) (offset : Int) (entries : List Entry) (hbuf : buf ≠ 0) (hn : n < 2 ^ 47) (ho : offset < 2 ^ 63)
    (hl : ∀ e ∈ entries, e.Lawful) :
    (∀ done, done <+: entries → (build (dirStart m offset buf n) done).Within) ↔ AllFit (dirStart m offset buf n) entries :=
  within_iff (ok_dirStart m offset (by omega) ho) hbuf hn hl

theorem build_within_iff_short :
    (∀ done, done <+: [.name [97, 98]] → (build (dirStart (fun _ => 0) 1 4096 2) done).Within) ↔
      AllFit (dirStart (fun _ => 0) 1 4096 2) [.name [97, 98]] :=
  build_within_iff (fun _ => 0) 1 [.name [97, 98]] (by decide) (by decide) (by decide) (by simp [Entry.Lawful, LONG_MAX])

-- The NUL of a name which is as long as the buffer.
theorem not_within_name : ¬(build (dirStart (fun _ => 0) 0 4096 2) [.name [97, 98]]).Within := by
  intro h
  have := h.right
  simp [build, append, dirAppendl, dirStart, dirFinish, Dirbuild.advance, Dirbuild.write, toLong, LONG_MAX] at this

-- For names alone, the buffer has to be large enough for all of them, less the offset.
theorem names_within_iff (m : Mem) (offset : Int) (names : List (List UInt8)) (hbuf : buf ≠ 0) (hn : n < 2 ^ 47) (ho : offset < 2 ^ 63)
    (hl : ∀ s ∈ names, s.length < LONG_MAX) :
    (∀ done, done <+: names.map .name → (build (dirStart m offset buf n) done).Within) ↔ offset < 0 ∨ total names ≤ n + offset := by
  have hd : (dirStart m offset buf n).Ok buf n := ok_dirStart m offset (by omega) ho
  have he : (dirStart m offset buf n).error = if offset < 0 then -5 else 0 := dirStart_error m offset
  have hl' : ∀ e ∈ names.map Entry.name, e.Lawful := by
    intro e he
    obtain ⟨s, hs, rfl⟩ := List.mem_map.mp he
    exact hl s hs
  rw [within_iff hd hbuf hn hl']
  by_cases hneg : offset < 0
  case pos =>
    rw [if_pos hneg] at he
    exact iff_of_true (allFit_of_error (by omega)) (.inl hneg)
  case neg =>
    rw [if_neg hneg] at he
    rw [allFit_names hd he hbuf hn hl]
    simp [hneg, dirStart]

end Within
end Camellia.Fs
