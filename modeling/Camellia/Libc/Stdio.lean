import Mathlib.Algebra.Group.Nat.Defs
import Mathlib.Data.List.DropRight
import Mathlib.Tactic.Common

namespace Camellia.Stdio

def EOF : Int := -1

def BUFSIZ : ℕ := 4096

def FEXT_NOFILL : ℕ := 1

def SEEK_SET : ℕ := 1

def SEEK_CUR : ℕ := 2

def SEEK_END : ℕ := 3

def IONBF : ℕ := 0

def IOFBF : ℕ := 1

-- The results of `_sys_read`, where the first argument counts the calls: an error, or the bytes which were stored.
abbrev SysRead := (call : ℕ) → (pos : Int) → (len : ℕ) → Except Int (List UInt8)

-- A `FILE`, where `readbuf` holds only the `rblen` bytes which are in the buffer. It counts its calls of `_sys_read`.
structure FILE where
  fd       : Int
  pos      : Int
  eof      : Bool
  error    : Bool
  extflags : ℕ
  readbuf  : Option (List UInt8)
  rbcap    : ℕ
  pushback : Option UInt8
  reads    : ℕ

section Operations

def setvbuf (f : FILE) (type : ℕ) : Int × FILE :=
  if type = IONBF then
    (0, { f with readbuf := none })
  else if type = IOFBF then
    (0, { f with readbuf := some [], rbcap := BUFSIZ })
  else
    (-1, f)

def fadvance (amt : Int) (f : FILE) : FILE :=
  let pos := f.pos + amt
  { f with pos := if f.pos < 0 ∧ 0 ≤ pos then -1 else pos }

-- A call of `_sys_read` at the position of the stream, and the flag which is set for its result. No bytes end the loop.
def FILE.sysRead (read : SysRead) (f : FILE) (len : ℕ) : List UInt8 × FILE :=
  let f' := { f with reads := f.reads + 1 }
  match read f.reads f.pos len with
  | .error _      => ([], { f' with error := true })
  | .ok []        => ([], { f' with eof := true })
  | .ok (b :: bs) => (b :: bs, f')

-- The buffer is filled only if it is empty and less than half of it is missing.
def FILE.refill (read : SysRead) (f : FILE) (n : ℕ) : Bool × FILE :=
  if f.readbuf = some [] ∧ n < f.rbcap / 2 then
    match f.sysRead read f.rbcap with
    | ([], f)      => (false, f)
    | (b :: bs, f) => (true, { f with readbuf := some (b :: bs) })
  else
    (true, f)

-- One pass of the loop of `fread` while `n` bytes are missing: the bytes which it stores, and whether there is another.
def freadStep (read : SysRead) (f : FILE) (n : ℕ) : List UInt8 × Bool × FILE :=
  match f.pushback with
  | some c => ([c], true, { f with pushback := none })
  | none   =>
    match f.refill read n with
    | (false, f) => ([], false, f)
    | (true, f)  =>
      match f.readbuf.getD [] with
      | b :: bs =>
        let bytes := (b :: bs).take n
        (bytes, f.extflags &&& FEXT_NOFILL = 0, fadvance bytes.length { f with readbuf := some ((b :: bs).drop n) })
      | [] =>
        match f.sysRead read n with
        | ([], f)      => ([], false, f)
        | (b :: bs, f) => (b :: bs, f.extflags &&& FEXT_NOFILL = 0, fadvance (b :: bs).length f)

theorem freadStep_ne_nil {read : SysRead} {f f' : FILE} {n : ℕ} {bytes : List UInt8} (hn : n ≠ 0)
    (h : freadStep read f n = (bytes, true, f')) : bytes ≠ [] := by
  rw [freadStep] at h
  split at h
  · exact (Prod.mk.inj h).left ▸ List.cons_ne_nil _ _
  split at h
  · exact absurd (Prod.mk.inj (Prod.mk.inj h).right).left Bool.false_ne_true
  split at h
  · rw [← (Prod.mk.inj h).left]
    simp [hn]
  split at h
  · exact absurd (Prod.mk.inj (Prod.mk.inj h).right).left Bool.false_ne_true
  · exact (Prod.mk.inj h).left ▸ List.cons_ne_nil _ _

def freadLoop (read : SysRead) (f : FILE) (n : ℕ) : List UInt8 × FILE :=
  if _hn : n = 0 then
    ([], f)
  else
    match _h : freadStep read f n with
    | (bytes, false, f) => (bytes, f)
    | (bytes, true, f)  =>
      let (bytes', f) := freadLoop read f (n - bytes.length)
      (bytes ++ bytes', f)
termination_by n
decreasing_by
  have := List.length_pos_iff.mpr (freadStep_ne_nil _hn _h)
  omega

-- The bytes which were stored, and the value which is returned.
def fread (read : SysRead) (size nitems : ℕ) (f : FILE) : (List UInt8 × ℕ) × FILE :=
  if f.fd < 0 ∨ size = 0 then
    (([], 0), f)
  else
    let total := size * nitems % 2 ^ 64
    let (bytes, f) := freadLoop read f total
    ((bytes, if bytes.length = total then nitems else bytes.length / size), f)

def ungetc (c : Int) (f : FILE) : Int × FILE :=
  if f.pushback.isSome then
    (EOF, f)
  else
    (c, { f with pushback := some (UInt8.ofInt c) })

def fseeko (getsize : Int) (f : FILE) (offset : Int) (whence : ℕ) : Int × FILE :=
  let base? :=
    if whence = SEEK_SET then some 0
    else if whence = SEEK_CUR then some f.pos
    else if whence = SEEK_END then some (if getsize < 0 then -1 else getsize)
    else none
  match base? with
  | none      => (-1, f)
  | some base =>
    let f := { f with readbuf := f.readbuf.map fun _ => [], pushback := none }
    if 0 ≤ base ∧ base + offset < 0 then
      (-1, f)
    else if base < 0 ∧ 0 ≤ base + offset then
      (-1, f)
    else
      (0, { f with pos := base + offset, eof := false })

end Operations

section Stream

-- A file which does not change: inside of it, each call which does not fail returns something.
def Readable (file : List UInt8) (read : SysRead) : Prop :=
  ∀ call pos len, 0 ≤ pos → 0 < len →
    (∃ e, read call pos len = .error e) ∨ ∃ k, 0 < k ∧ k ≤ len ∧ read call pos len = .ok ((file.drop pos.toNat).take k)

def Fails (read : SysRead) : Prop :=
  ∃ call pos len e, read call pos len = .error e

-- The bytes which a stream has still to deliver.
def FILE.rest (f : FILE) (file : List UInt8) : List UInt8 :=
  f.pushback.toList ++ file.drop f.pos.toNat

-- The buffer holds the bytes from the position on.
structure FILE.Coherent (f : FILE) (file : List UInt8) : Prop where
  pos     : 0 ≤ f.pos
  readbuf : ∀ {buf}, f.readbuf = some buf → buf <+: file.drop f.pos.toNat

-- A stream without its buffer.
def FILE.view (f : FILE) : FILE :=
  { f with readbuf := none, rbcap := 0, reads := 0 }

inductive Reads (file : List UInt8) (read : SysRead) (f : FILE) (len : ℕ) : List UInt8 × FILE → Prop
  | bytes {bytes f'} (hne : bytes ≠ []) (hlen : bytes.length ≤ len) (hpre : bytes <+: file.drop f.pos.toNat)
    (hf : f' = { f with reads := f.reads + 1 }) : Reads file read f len (bytes, f')
  | eof {f'} (hend : file.drop f.pos.toNat = []) (hf : f' = { f with reads := f.reads + 1, eof := true }) : Reads file read f len ([], f')
  | failed {f'} (hfail : Fails read) (hf : f' = { f with reads := f.reads + 1, error := true }) : Reads file read f len ([], f')

-- What one pass of the loop does for a stream.
inductive Step (file : List UInt8) (read : SysRead) (f : FILE) (n : ℕ) : List UInt8 × Bool × FILE → Prop
  | bytes {bytes more f'} (hne : bytes ≠ []) (hlen : bytes.length ≤ n) (hc : f'.Coherent file)
    (hrest : f.rest file = bytes ++ f'.rest file) (hmore : f.extflags &&& FEXT_NOFILL = 0 → more = true)
    (hview : f'.view = { f.view with pos := f.pos + bytes.length - f.pushback.toList.length, pushback := none }) :
    Step file read f n (bytes, more, f')
  | eof {f'} (hc : f'.Coherent file) (hend : f.rest file = []) (hview : f'.view = { f.view with eof := true }) :
    Step file read f n ([], false, f')
  | failed {f'} (hfail : Fails read) (hc : f'.Coherent file) (hview : f'.view = { f.view with error := true }) :
    Step file read f n ([], false, f')

variable {file bytes : List UInt8} {read : SysRead} {f f' : FILE} {n len : ℕ}

theorem sysRead_reads (h : Readable file read) (hp : 0 ≤ f.pos) (hl : 0 < len) : Reads file read f len (f.sysRead read len) := by
  rw [FILE.sysRead]
  rcases h f.reads f.pos len hp hl with ⟨e, he⟩ | ⟨k, hk, hkl, he⟩
  · rw [he]
    exact .failed ⟨_, _, _, _, he⟩ rfl
  · rw [he]
    have hpre : (file.drop f.pos.toNat).take k <+: file.drop f.pos.toNat := List.take_prefix k _
    have hlen : ((file.drop f.pos.toNat).take k).length ≤ len := (List.length_take_le k _).trans hkl
    have hnil : (file.drop f.pos.toNat).take k = [] → file.drop f.pos.toNat = [] := by simp; omega
    generalize (file.drop f.pos.toNat).take k = bytes at *
    cases bytes with
    | nil       => exact .eof (hnil rfl) rfl
    | cons b bs => exact .bytes (List.cons_ne_nil b bs) hlen hpre rfl

theorem fadvance_of_nonneg (f : FILE) (hp : 0 ≤ f.pos) (k : Int) : fadvance k f = { f with pos := f.pos + k } := by
  have hn : ¬(f.pos < 0 ∧ 0 ≤ f.pos + k) := by omega
  rw [fadvance]
  simp only [hn, if_false]

-- Bytes from the position on were delivered.
theorem step_advance {buf : Option (List UInt8)} {more : Bool} (hc : f.Coherent file) (hpb : f.pushback = none) (hne : bytes ≠ [])
    (hlen : bytes.length ≤ n) (hpre : bytes <+: file.drop f.pos.toNat) (hmore : f.extflags &&& FEXT_NOFILL = 0 → more = true)
    (hbuf : ∀ {b}, buf = some b → b <+: (file.drop f.pos.toNat).drop bytes.length) :
    Step file read f n (bytes, more, fadvance bytes.length { f with readbuf := buf }) := by
  have hp := hc.pos
  have hpos : (f.pos + bytes.length).toNat = f.pos.toNat + bytes.length := by omega
  have hadv : fadvance bytes.length { f with readbuf := buf } = { f with readbuf := buf, pos := f.pos + bytes.length } :=
    fadvance_of_nonneg { f with readbuf := buf } hp _
  rw [hadv]
  refine .bytes hne hlen ⟨by simp only; omega, fun hb => ?_⟩ ?_ hmore ?_
  · rw [hpos, ← List.drop_drop]
    exact hbuf hb
  · rw [FILE.rest, FILE.rest, hpb, hpos, ← List.drop_drop]
    exact (List.prefix_iff_eq_append.mp hpre).symm
  · simp [FILE.view, hpb]

-- The buffer is empty if it was not filled, and nothing else but the buffer changes if it was.
theorem refill_spec (h : Readable file read) (hc : f.Coherent file) :
    (∃ f', f.refill read n = (true, f') ∧ f'.Coherent file ∧ f'.view = f.view) ∨
      ∃ f', f.refill read n = (false, f') ∧ f'.Coherent file ∧
        (file.drop f.pos.toNat = [] ∧ f'.view = { f.view with eof := true } ∨ Fails read ∧ f'.view = { f.view with error := true }) := by
  rw [FILE.refill]
  by_cases hempty : f.readbuf = some [] ∧ n < f.rbcap / 2
  case neg => exact .inl ⟨f, if_neg hempty, hc, rfl⟩
  rw [if_pos hempty]
  have hr : Reads file read f f.rbcap (f.sysRead read f.rbcap) := sysRead_reads h hc.pos (by omega)
  generalize f.sysRead read f.rbcap = r at hr
  cases hr with
  | @bytes bytes f' hne hlen hpre hf =>
    subst hf
    obtain ⟨b, bs, rfl⟩ := List.exists_cons_of_ne_nil hne
    exact .inl ⟨_, rfl, ⟨hc.pos, fun hb => Option.some.inj hb ▸ hpre⟩, rfl⟩
  | eof hend hf     => exact .inr ⟨_, rfl, hf ▸ ⟨hc.pos, hc.readbuf⟩, .inl ⟨hend, hf ▸ rfl⟩⟩
  | failed hfail hf => exact .inr ⟨_, rfl, hf ▸ ⟨hc.pos, hc.readbuf⟩, .inr ⟨hfail, hf ▸ rfl⟩⟩

theorem view_eq_iff : f'.view = f.view ↔
    f'.fd = f.fd ∧ f'.pos = f.pos ∧ f'.eof = f.eof ∧ f'.error = f.error ∧ f'.extflags = f.extflags ∧ f'.pushback = f.pushback := by
  simp [FILE.view]

theorem rest_of_view (hv : f'.view = f.view) : f'.rest file = f.rest file := by
  have ⟨_, hpos, _, _, _, hpb⟩ := view_eq_iff.mp hv
  rw [FILE.rest, FILE.rest, hpos, hpb]

theorem Step.of_view {r : List UInt8 × Bool × FILE} (hv : f'.view = f.view) (hs : Step file read f' n r) : Step file read f n r := by
  have ⟨_, hpos, _, _, hext, hpb⟩ := view_eq_iff.mp hv
  cases hs with
  | bytes hne hlen hc hrest hmore hview =>
    rw [rest_of_view hv] at hrest
    rw [hext] at hmore
    rw [hv, hpos, hpb] at hview
    exact .bytes hne hlen hc hrest hmore hview
  | eof hc hend hview     => exact .eof hc (rest_of_view hv ▸ hend) (hv ▸ hview)
  | failed hfail hc hview => exact .failed hfail hc (hv ▸ hview)

theorem freadStep_step (h : Readable file read) (hc : f.Coherent file) (hn : n ≠ 0) : Step file read f n (freadStep read f n) := by
  rw [freadStep]
  cases hpb : f.pushback with
  | some c =>
    refine .bytes (List.cons_ne_nil c []) (by simp; omega) ⟨hc.pos, hc.readbuf⟩ ?_ (fun _ => rfl) ?_
    · rw [FILE.rest, hpb]
      rfl
    · simp [FILE.view, hpb]
  | none =>
    have hrest : f.rest file = file.drop f.pos.toNat := by
      rw [FILE.rest, hpb]
      rfl
    rcases refill_spec (n := n) h hc with ⟨f', hr, hc', hv⟩ | ⟨f', hr, hc', hflag⟩
    case inr =>
      rw [hr]
      rcases hflag with ⟨hend, hv⟩ | ⟨hfail, hv⟩
      · exact .eof hc' (hrest ▸ hend) hv
      · exact .failed hfail hc' hv
    rw [hr]
    refine .of_view hv ?_
    have ⟨_, _, _, _, _, hpb'⟩ := view_eq_iff.mp hv
    rw [hpb] at hpb'
    dsimp only
    cases hb : f'.readbuf.getD [] with
    | cons b bs =>
      have hbuf : f'.readbuf = some (b :: bs) := by
        cases hrb : f'.readbuf with
        | none     => simp [hrb] at hb
        | some buf => simpa [hrb] using hb
      have hpre := hc'.readbuf hbuf
      refine step_advance hc' hpb' (by simp [hn]) (List.length_take_le n _) ((List.take_prefix n _).trans hpre) (fun h => decide_eq_true h) ?_
      intro buf heq
      obtain ⟨tail, htail⟩ := hpre
      obtain rfl := Option.some.inj heq
      rw [← htail, List.length_take]
      rcases Nat.le_total n (b :: bs).length with hle | hle
      · rw [Nat.min_eq_left hle, List.drop_append_of_le_length hle]
        exact List.prefix_append _ tail
      · rw [List.drop_eq_nil_of_le hle]
        exact List.nil_prefix
    | nil =>
      have hr := sysRead_reads h hc'.pos (Nat.pos_of_ne_zero hn)
      generalize f'.sysRead read n = r at hr
      cases hr with
      | @bytes bytes f₁ hne hlen hpre hf =>
        subst hf
        obtain ⟨c, cs, rfl⟩ := List.exists_cons_of_ne_nil hne
        have hc₁ : FILE.Coherent { f' with reads := f'.reads + 1 } file := ⟨hc'.pos, hc'.readbuf⟩
        have hbuf {buf : List UInt8} (heq : f'.readbuf = some buf) : buf <+: (file.drop f'.pos.toNat).drop (c :: cs).length := by
          obtain rfl : buf = [] := by simpa [heq] using hb
          exact List.nil_prefix
        have hv₁ : FILE.view { f' with reads := f'.reads + 1 } = f'.view := rfl
        exact .of_view hv₁ (step_advance hc₁ hpb' hne hlen hpre (fun h => decide_eq_true h) hbuf)
      | eof hend hf =>
        have hend' : f'.rest file = [] := by
          rw [FILE.rest, hpb', hend]
          rfl
        exact .eof (hf ▸ ⟨hc'.pos, hc'.readbuf⟩) hend' (hf ▸ rfl)
      | failed hfail hf => exact .failed hfail (hf ▸ ⟨hc'.pos, hc'.readbuf⟩) (hf ▸ rfl)

end Stream
end Camellia.Stdio
