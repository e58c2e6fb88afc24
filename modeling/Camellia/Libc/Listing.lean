import Camellia.Libc.Dir

namespace Camellia.Fs

-- A file with the given contents. All bytes from the offset on which fit are returned.
def Handle.ofData (data : List UInt8) : Handle where
  read len offset := let bytes := (data.drop offset.toNat).take len; (bytes.length, bytes)
  getsize         := data.length

inductive Item
  | name (name : List UInt8)
  | listing (data : List UInt8)

namespace Item

def entry : Item → Entry
  | .name s       => .name s
  | .listing data => .listing (.ofData data)

def bytes : Item → List UInt8
  | .name s       => s ++ [0]
  | .listing data => data

def Short : Item → Prop
  | .name _       => True
  | .listing data => data.length < 2 ^ 31

end Item

def contents (items : List Item) : List UInt8 :=
  items.flatMap Item.bytes

def list (db : Dirbuild) (items : List Item) : Dirbuild :=
  build db (items.map Item.entry)

-- What a read of a directory and what its size should be.
structure Sliceable (items : List Item) : Prop where
  read (m : Mem) {offset : Int} {buf n : ℕ} (hbuf : buf ≠ 0) (hn : n < 2 ^ 47) (h₀ : 0 ≤ offset) (ho : offset < 2 ^ 63)
    (h : ((contents items).drop offset.toNat).length ≤ n) :
    let rest := (contents items).drop offset.toNat
    let db := list (dirStart m offset buf n) items
    dirFinish db = rest.length ∧ db.mem.slice buf rest.length = rest
  size (m : Mem) (n : ℕ) : dirFinish (list (dirStart m 0 0 n) items) = (contents items).length

variable {db : Dirbuild} {buf n : ℕ} {item : Item} {items : List Item} {name data : List UInt8}

@[simp]
theorem contents_nil : contents [] = [] :=
  rfl

@[simp]
theorem contents_cons : contents (item :: items) = item.bytes ++ contents items :=
  rfl

@[simp]
theorem list_nil : list db [] = db :=
  rfl

@[simp]
theorem list_cons : list db (item :: items) = list (append db item.entry) items :=
  rfl

theorem toInt_of_nonneg {x : Int} (h₀ : 0 ≤ x) (h : x < 2 ^ 31) : toInt x = x :=
  Int.bmod_eq_of_le (by omega) (by omega)

-- The cut of a length can only lose something.
theorem toInt_le {k : ℕ} : toInt k ≤ k := by
  rw [toInt, Int.bmod_def]
  split <;> omega

theorem toInt_eq_iff {k : ℕ} : toInt k = k ↔ k < 2 ^ 31 := by
  refine ⟨fun h => ?_, fun h => toInt_of_nonneg (by omega) (by omega)⟩
  have := toInt_lt k
  omega

section Size

-- Only sizes are counted.
structure Dirbuild.Counts (db : Dirbuild) : Prop where
  buf    : db.buf = 0
  error  : db.error = 0
  offset : db.offset = 0
  bpos   : 0 ≤ db.bpos

theorem Dirbuild.Counts.advance (hd : db.Counts) {k : ℕ} (h : db.bpos + k < 2 ^ 63) :
    (db.advance k).Counts ∧ (db.advance k).bpos = db.bpos + k := by
  have hp := hd.bpos
  have hpos : (db.advance k).bpos = db.bpos + k := toLong_of_nonneg (by omega) (by omega)
  exact ⟨⟨hd.buf, hd.error, rfl, hpos ▸ by omega⟩, hpos⟩

theorem append_name_counts (hd : db.Counts) (h : name.length < LONG_MAX) :
    append db (.name name) = db.advance (name.length + 1 : ℕ) := by
  have hmax : LONG_MAX = 2 ^ 63 - 1 := by rw [LONG_MAX]
  have hlen : toLong (name.length + 1) = name.length + 1 := toLong_of_nonneg (by omega) (by omega)
  have heq : dirAppendl db name = (false, db.advance (name.length + 1 : ℕ)) := by
    rw [dirAppendl, if_neg (not_not.mpr hd.error), if_neg (Nat.lt_asymm h)]
    dsimp only
    rw [hlen, if_pos (by rw [hd.offset]; omega), if_neg (not_not.mpr hd.buf), hd.offset]
    simp
  rw [append, heq]

theorem append_listing_counts (hd : db.Counts) :
    append db (.listing (.ofData data)) =
      if toInt data.length < 0 then { db with error := toInt data.length }
      else if 0 < toInt data.length then db.advance (toInt data.length)
      else db := by
  obtain ⟨mem, offset, buf, bpos, blen, error, writes⟩ := db
  obtain ⟨rfl, rfl, rfl, -⟩ := hd
  have h0 : toInt 0 = 0 := by decide
  rw [append, dirAppendFrom, if_neg (not_not.mpr rfl), if_neg fun h => h.left rfl]
  simp only [ne_eq, not_true_eq_false, if_false, h0, Int.lt_irrefl, Handle.ofData, Int.sub_zero]
  split
  · rfl
  · split
    · rfl
    · have hz : 0 - toInt data.length = 0 := by omega
      rw [hz]

-- A size is never counted as more than it is, and everything is counted if and only if all listings are short.
theorem size_of_counts (hd : db.Counts) (h : db.bpos + (contents items).length < 2 ^ 63) :
    dirFinish (list db items) ≤ db.bpos + (contents items).length ∧
      (dirFinish (list db items) = db.bpos + (contents items).length ↔ ∀ item ∈ items, item.Short) := by
  induction items generalizing db with
  | nil =>
    have hf : dirFinish db = db.bpos := if_neg (not_not.mpr hd.error)
    simp [hf]
  | cons item items ih =>
    rw [contents_cons, List.length_append] at h ⊢
    rw [list_cons, List.forall_mem_cons]
    have hp := hd.bpos
    cases item with
    | name name =>
      have hlen : (Item.name name).bytes.length = name.length + 1 := List.length_append
      have hmax : LONG_MAX = 2 ^ 63 - 1 := by rw [LONG_MAX]
      obtain ⟨hd', hpos⟩ := hd.advance (k := name.length + 1) (by omega)
      obtain ⟨hle, hiff⟩ := ih hd' (by omega)
      rw [Item.entry, append_name_counts hd (by omega), hlen]
      rw [hpos] at hle hiff
      have hshort : (Item.name name).Short := trivial
      refine ⟨by omega, ?_⟩
      rw [and_iff_right hshort, ← hiff]
      omega
    | listing data =>
      have hlen : (Item.listing data).bytes.length = data.length := rfl
      have hcut : toInt data.length ≤ data.length := toInt_le
      have hiff₀ : (Item.listing data).Short ↔ toInt data.length = data.length := toInt_eq_iff.symm
      rw [Item.entry, append_listing_counts hd, hiff₀, hlen]
      rw [hlen] at h
      generalize toInt data.length = ret at hcut
      by_cases hneg : ret < 0
      case pos =>
        have he : ({ db with error := ret } : Dirbuild).error ≠ 0 := Int.ne_of_lt hneg
        have hf : dirFinish { db with error := ret } = ret := if_pos he
        rw [if_pos hneg, list, build_of_error he, hf]
        exact ⟨by omega, fun h => by omega, fun h => by omega⟩
      rw [if_neg hneg]
      by_cases hpos : 0 < ret
      case pos =>
        obtain ⟨k, rfl⟩ := Int.eq_ofNat_of_zero_le (Int.le_of_lt hpos)
        obtain ⟨hd', hbpos⟩ := hd.advance (k := k) (by omega)
        obtain ⟨hle, hiff⟩ := ih hd' (by omega)
        rw [if_pos hpos, ← hiff]
        rw [hbpos] at hle
        exact ⟨by omega, fun h => ⟨by omega, by omega⟩, fun h => by omega⟩
      case neg =>
        obtain ⟨hle, hiff⟩ := ih hd (by omega)
        rw [if_neg hpos, ← hiff]
        exact ⟨by omega, fun h => ⟨by omega, by omega⟩, fun h => by omega⟩

end Size

section Read

-- A buffer which can take more bytes.
structure Dirbuild.Reads (db : Dirbuild) : Prop where
  buf    : db.buf ≠ 0
  error  : db.error = 0
  bpos   : 0 ≤ db.bpos ∧ db.bpos ≤ db.blen
  blen   : db.blen < 2 ^ 47
  offset : 0 ≤ db.offset ∧ db.offset < 2 ^ 63

-- What is left of some bytes behind the offset was put into the buffer, and what is left of the offset is enough for
-- everything which follows and still fits.
structure Appends (db db' : Dirbuild) (bytes : List UInt8) : Prop where
  reads : db'.Reads
  buf   : db'.buf = db.buf
  blen  : db'.blen = db.blen
  bpos  : db'.bpos = db.bpos + (bytes.drop db.offset.toNat).length
  mem   : db'.mem = db.mem.write (db.buf + db.bpos).toNat (bytes.drop db.offset.toNat)
  rest {more : List UInt8} (h : db.bpos + ((bytes ++ more).drop db.offset.toNat).length ≤ db.blen) :
    (bytes ++ more).drop db.offset.toNat = bytes.drop db.offset.toNat ++ more.drop db'.offset.toNat

variable {bytes : List UInt8} {writes : List (Int × ℕ)}

theorem appends_of_lt (hd : db.Reads) (hlt : db.offset < bytes.length)
    (h : db.bpos + (bytes.drop db.offset.toNat).length ≤ db.blen) :
    Appends db ((db.write (bytes.drop db.offset.toNat)).advance (bytes.drop db.offset.toNat).length) bytes := by
  have hp := hd.bpos
  have hb := hd.blen
  have ho := hd.offset
  have hbpos : toLong (db.bpos + (bytes.drop db.offset.toNat).length) = db.bpos + (bytes.drop db.offset.toNat).length :=
    toLong_of_nonneg (by omega) (by omega)
  have hin : 0 ≤ toLong (db.bpos + (bytes.drop db.offset.toNat).length) ∧
      toLong (db.bpos + (bytes.drop db.offset.toNat).length) ≤ db.blen := by omega
  refine ⟨⟨hd.buf, hd.error, hin, hb, le_refl 0, (by decide : (0 : Int) < 2 ^ 63)⟩, rfl, rfl, hbpos, rfl, fun {more} _ => ?_⟩
  have hz : db.offset.toNat - bytes.length = 0 := by omega
  rw [List.drop_append, hz]
  rfl

theorem appends_of_ge (hd : db.Reads) (hge : bytes.length ≤ db.offset) :
    Appends db { db with offset := db.offset - bytes.length, writes := writes } bytes := by
  have ho := hd.offset
  have hnil : bytes.drop db.offset.toNat = [] := List.drop_eq_nil_of_le (by omega)
  have ho' : 0 ≤ db.offset - bytes.length ∧ db.offset - bytes.length < 2 ^ 63 := by omega
  refine ⟨⟨hd.buf, hd.error, hd.bpos, hd.blen, ho'⟩, rfl, rfl, ?_, ?_, fun {more} _ => ?_⟩
  · simp [hnil]
  · simp [hnil]
  · have hsub : (db.offset - bytes.length).toNat = db.offset.toNat - bytes.length := by omega
    rw [List.drop_append, hsub]

-- Nothing is left if the buffer is full.
theorem appends_of_full (hd : db.Reads) (hfull : db.bpos = db.blen) (h : db.bpos + (bytes.drop db.offset.toNat).length ≤ db.blen) :
    Appends db db bytes := by
  have hnil : bytes.drop db.offset.toNat = [] := List.eq_nil_of_length_eq_zero (by omega)
  refine ⟨hd, rfl, rfl, by simp [hnil], by simp [hnil], fun {more} hmore => ?_⟩
  have hnil' : (bytes ++ more).drop db.offset.toNat = [] := List.eq_nil_of_length_eq_zero (by omega)
  have hle := List.drop_eq_nil_iff.mp hnil'
  rw [List.length_append] at hle
  rw [hnil', hnil, List.drop_eq_nil_of_le (by omega), List.append_nil]

theorem append_name_appends (hd : db.Reads) (hl : name.length < LONG_MAX)
    (h : db.bpos + ((name ++ [0]).drop db.offset.toNat).length ≤ db.blen) :
    Appends db (append db (.name name)) (name ++ [0]) := by
  have ⟨h₀, ho⟩ := hd.offset
  have hlen : ((name ++ [0]).length : Int) = name.length + 1 := by simp
  by_cases hlt : db.offset ≤ name.length
  case pos =>
    have hrest : (((name ++ [0]).drop db.offset.toNat).length : Int) = name.length + 1 - db.offset := by
      simp
      omega
    rw [append_name_of_le hd.error hd.buf hl h₀ hlt, ← hrest]
    exact appends_of_lt hd (by omega) h
  case neg =>
    rw [append_name_of_gt hd.error hd.buf hl ho (by omega), ← hlen]
    exact appends_of_ge hd (by omega)

theorem append_listing_appends (hd : db.Reads) (hl : data.length < 2 ^ 31)
    (h : db.bpos + (data.drop db.offset.toNat).length ≤ db.blen) :
    Appends db (append db (.listing (.ofData data))) data := by
  have hp := hd.bpos
  have hb := hd.blen
  have ho := hd.offset
  rw [append, dirAppendFrom, if_neg (not_not.mpr hd.error)]
  by_cases hfull : db.bpos = db.blen
  case pos =>
    rw [if_pos ⟨hd.buf, hfull⟩]
    exact appends_of_full hd hfull h
  have hspace : (db.blen - db.bpos) % 2 ^ 64 = db.blen - db.bpos := by omega
  have htake : (data.drop db.offset.toNat).take (db.blen - db.bpos).toNat = data.drop db.offset.toNat :=
    List.take_of_length_le (by omega)
  have hret : toInt (data.drop db.offset.toNat).length = (data.drop db.offset.toNat).length :=
    toInt_of_nonneg (by omega) (by simp; omega)
  have hsize : toInt data.length = data.length := toInt_of_nonneg (by omega) (by omega)
  rw [if_neg fun h => hfull h.right]
  simp only [ne_eq, hd.buf, not_false_eq_true, if_true, Handle.ofData, hspace, htake, hret, hsize]
  have hnn : ¬((data.drop db.offset.toNat).length : Int) < 0 := by omega
  rw [if_neg hnn]
  by_cases hlt : db.offset < data.length
  case pos =>
    have hpos : 0 < ((data.drop db.offset.toNat).length : Int) := by
      simp
      omega
    rw [if_pos hpos]
    exact appends_of_lt hd hlt h
  case neg =>
    have hnil : data.drop db.offset.toNat = [] := List.drop_eq_nil_of_le (by omega)
    have hsize' : ¬(data.length : Int) < 0 := by omega
    have hge : ¬(db.write []).offset < data.length := hlt
    have hmem : (db.write []).mem = db.mem := Mem.write_nil
    rw [hnil, if_neg (by simp), if_neg hsize', if_neg hge, hmem]
    exact appends_of_ge hd (by omega)

theorem append_appends (hd : db.Reads) (hshort : item.Short) (hlen : item.bytes.length < 2 ^ 63)
    (h : db.bpos + (item.bytes.drop db.offset.toNat).length ≤ db.blen) :
    Appends db (append db item.entry) item.bytes := by
  cases item with
  | name s       =>
    have hlen' : (s ++ [0]).length < 2 ^ 63 := hlen
    have hmax : LONG_MAX = 2 ^ 63 - 1 := by rw [LONG_MAX]
    rw [List.length_append, List.length_singleton] at hlen'
    exact append_name_appends hd (by omega) h
  | listing data => exact append_listing_appends hd hshort h

-- The buffer is filled from where it ends, with what is left of the entries.
theorem read_of_short (hd : db.Reads) (hshort : ∀ item ∈ items, item.Short) (hlen : (contents items).length < 2 ^ 63)
    (h : db.bpos + ((contents items).drop db.offset.toNat).length ≤ db.blen) :
    dirFinish (list db items) = db.bpos + ((contents items).drop db.offset.toNat).length ∧
      (list db items).mem = db.mem.write (db.buf + db.bpos).toNat ((contents items).drop db.offset.toNat) := by
  induction items generalizing db with
  | nil =>
    have hf : dirFinish db = db.bpos := if_neg (not_not.mpr hd.error)
    simp [hf]
  | cons item items ih =>
    have ⟨hshort₀, hshort'⟩ := List.forall_mem_cons.mp hshort
    rw [contents_cons] at h ⊢
    rw [contents_cons, List.length_append] at hlen
    have hle : (item.bytes.drop db.offset.toNat).length ≤ ((item.bytes ++ contents items).drop db.offset.toNat).length := by
      rw [List.drop_append, List.length_append]
      omega
    have ha := append_appends hd hshort₀ (by omega) (by omega)
    have hrest := ha.rest h
    have hrest' := congrArg List.length hrest
    rw [List.length_append] at hrest'
    have hfit : (append db item.entry).bpos + ((contents items).drop (append db item.entry).offset.toNat).length ≤
        (append db item.entry).blen := by
      rw [ha.bpos, ha.blen]
      omega
    have ⟨hfin, hmem⟩ := ih ha.reads hshort' (by omega) hfit
    have hp := hd.bpos
    have haddr : ((db.buf : Int) + (append db item.entry).bpos).toNat =
        (db.buf + db.bpos).toNat + (item.bytes.drop db.offset.toNat).length := by
      rw [ha.bpos]
      omega
    constructor
    · rw [list_cons, hfin, ha.bpos, hrest']
      omega
    · rw [list_cons, hmem, ha.mem, ha.buf, haddr, Mem.write_append, hrest]

end Read

section Bounded

-- Everything which is returned is a `long`.
def Dirbuild.Bounded (db : Dirbuild) : Prop :=
  db.error < 2 ^ 63 ∧ db.bpos < 2 ^ 63

theorem toLong_lt (x : Int) : toLong x < 2 ^ 63 := by
  rw [toLong, Int.bmod_def]
  split <;> omega

theorem toInt_lt_long (x : Int) : toInt x < 2 ^ 63 :=
  Int.lt_trans (toInt_lt x) (by decide)

theorem Dirbuild.Bounded.advance (h : db.Bounded) (x : Int) : (db.advance x).Bounded :=
  ⟨h.left, toLong_lt _⟩

theorem Dirbuild.Bounded.fail (h : db.Bounded) {x : Int} (hx : x < 2 ^ 63) : Dirbuild.Bounded { db with error := x } :=
  ⟨hx, h.right⟩

theorem dirAppendl_bounded (h : db.Bounded) : ∀ r, dirAppendl db name = r → r.2.Bounded := by
  intro r hr
  rw [dirAppendl] at hr
  dsimp only at hr
  split at hr
  · exact hr ▸ h
  split at hr
  · exact hr ▸ h.fail (by decide)
  split at hr
  · split at hr <;> exact hr ▸ Dirbuild.Bounded.advance h _
  · exact hr ▸ h

theorem dirAppendFrom_bounded {f : Handle} (h : db.Bounded) : ∀ r, dirAppendFrom db f = r → r.2.Bounded := by
  intro r hr
  rw [dirAppendFrom] at hr
  dsimp only at hr
  split at hr
  · exact hr ▸ h
  split at hr
  · exact hr ▸ h
  generalize (if db.buf ≠ 0 then f.read _ _ else (0, [])) = res at hr
  have hw : (if db.buf ≠ 0 then db.write res.2 else db).Bounded := by
    split
    · exact h
    · exact h
  generalize (if db.buf ≠ 0 then db.write res.2 else db) = db' at hr hw
  split at hr
  · exact hr ▸ hw.fail (toInt_lt_long _)
  split at hr
  · exact hr ▸ hw.advance _
  split at hr
  · exact hr ▸ hw.fail (toInt_lt_long _)
  split at hr
  · exact hr ▸ hw.advance _
  · exact hr ▸ hw

theorem append_bounded {e : Entry} (h : db.Bounded) : (append db e).Bounded := by
  cases e with
  | name s    => exact dirAppendl_bounded h _ rfl
  | listing f => exact dirAppendFrom_bounded h _ rfl

theorem finish_lt (h : db.Bounded) : dirFinish (list db items) < 2 ^ 63 := by
  induction items generalizing db with
  | nil =>
    rw [list_nil, dirFinish]
    split
    · exact h.left
    · exact h.right
  | cons item items ih => exact ih (append_bounded h)

end Bounded

theorem bounded_dirStart (m : Mem) (offset : Int) (buf n : ℕ) : (dirStart m offset buf n).Bounded := by
  refine ⟨?_, (by decide : (0 : Int) < 2 ^ 63)⟩
  change (if offset < 0 then -ENOSYS else 0) < 2 ^ 63
  split <;> decide

theorem counts_dirStart (m : Mem) (n : ℕ) : (dirStart m 0 0 n).Counts where
  buf    := rfl
  error  := rfl
  offset := rfl
  bpos   := le_refl 0

theorem size_iff (m : Mem) (n : ℕ) (h : (contents items).length < 2 ^ 63) :
    dirFinish (list (dirStart m 0 0 n) items) = (contents items).length ↔ ∀ item ∈ items, item.Short := by
  have hpos : (dirStart m 0 0 n).bpos = 0 := rfl
  have hlt : (dirStart m 0 0 n).bpos + (contents items).length < 2 ^ 63 := by
    rw [hpos]
    omega
  have hiff := (size_of_counts (counts_dirStart m n) hlt).right
  rwa [hpos, Int.zero_add] at hiff

theorem reads_dirStart (m : Mem) {offset : Int} (hbuf : buf ≠ 0) (hn : n < 2 ^ 47) (h₀ : 0 ≤ offset) (ho : offset < 2 ^ 63) :
    (dirStart m offset buf n).Reads := by
  have hb : (dirStart m offset buf n).blen = n := dirStart_blen m offset (by omega)
  refine ⟨hbuf, if_neg (by omega), ⟨le_refl 0, ?_⟩, ?_, h₀, ho⟩
  · rw [hb]
    exact Int.natCast_nonneg n
  · rw [hb]
    omega

-- Each read of a directory gives the rest of its contents if and only if no file which is listed in it has 2^31 bytes or more.
theorem sliceable_iff (items : List Item) :
    Sliceable items ↔ (∀ item ∈ items, item.Short) ∧ (contents items).length < 2 ^ 63 := by
  constructor
  · intro h
    have hsize := h.size (fun _ => 0) 0
    have hlen : dirFinish (list (dirStart (fun _ => 0) 0 0 0) items) < 2 ^ 63 := finish_lt (bounded_dirStart _ 0 0 0)
    exact ⟨(size_iff (fun _ => 0) 0 (by omega)).mp hsize, by omega⟩
  · intro ⟨hshort, hlen⟩
    constructor
    case size =>
      intro m n
      exact (size_iff m n hlen).mpr hshort
    case read =>
      intro m offset buf n hbuf hn h₀ ho h
      have hb : (dirStart m offset buf n).blen = n := dirStart_blen m offset (by omega)
      have hfit : (dirStart m offset buf n).bpos + ((contents items).drop (dirStart m offset buf n).offset.toNat).length ≤
          (dirStart m offset buf n).blen := by
        rw [hb]
        change (0 : Int) + ((contents items).drop offset.toNat).length ≤ n
        omega
      have ⟨hfin, hmem⟩ := read_of_short (reads_dirStart m hbuf hn h₀ ho) hshort hlen hfit
      simp only [dirStart, Int.add_zero, Int.toNat_natCast, Int.zero_add] at hfin hmem
      refine ⟨hfin, ?_⟩
      rw [dirStart, hmem]
      exact Mem.slice_write

-- The size of a file which is listed is cut to an `int`.
theorem not_sliceable_long : ¬Sliceable [.listing (List.replicate (2 ^ 31) 0)] := by
  intro h
  have hsize := h.size (fun _ => 0) 0
  have hlen : (contents [.listing (List.replicate (2 ^ 31) 0)]).length = 2 ^ 31 := by
    rw [contents_cons, contents_nil, List.append_nil]
    exact List.length_replicate
  have hshort := (size_iff (fun _ => 0) 0 (by rw [hlen]; decide)).mp hsize _ List.mem_cons_self
  rw [Item.Short, List.length_replicate] at hshort
  exact Nat.lt_irrefl _ hshort
end Camellia.Fs
