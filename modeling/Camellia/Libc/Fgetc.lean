import Camellia.Libc.Buffering

namespace Camellia.Stdio

section Operations

-- A byte as a `char`, which is signed.
def toChar (b : UInt8) : Int :=
  (b.toNat : Int).bmod 256

def fgetc (read : SysRead) (f : FILE) : Int × FILE :=
  let ((bytes, ret), f) := fread read 1 1 f
  (if ret ≠ 0 then toChar (bytes.headD 0) else EOF, f)

-- The calls until the first one which returns `EOF`.
def fgetcs (read : SysRead) (f : FILE) : (calls : ℕ) → Option (List Int × FILE)
  | 0         => none
  | calls + 1 =>
    let (c, f) := fgetc read f
    if c = EOF then
      some ([], f)
    else
      (fgetcs read f calls).map fun (cs, f) => (c :: cs, f)

-- The loop of `fgets` for as many bytes as it may still store.
def fgetsLoop (read : SysRead) (f : FILE) : (n : ℕ) → List UInt8 × FILE
  | 0     => ([], f)
  | n + 1 =>
    let (c, f) := fgetc read f
    if c = EOF then
      ([], f)
    else if c = 10 then
      ([UInt8.ofInt c], f)
    else
      let (bytes, f) := fgetsLoop read f n
      (UInt8.ofInt c :: bytes, f)

def fgets (read : SysRead) (size : Int) (f : FILE) : Option (List UInt8) × FILE :=
  let (bytes, f) := fgetsLoop read f (size - 1).toNat
  (if bytes = [] ∨ f.error then none else some bytes, f)

-- What `readdir` returns: a name, or `NULL`, for which `errno` may be `ENAMETOOLONG`.
inductive Dirent
  | dent (d_name : List UInt8)
  | null
  | toolong

-- The rest of a name which is too long.
def skipName (read : SysRead) (f : FILE) : (calls : ℕ) → Option FILE
  | 0         => none
  | calls + 1 =>
    let (c, f) := fgetc read f
    if c = EOF ∨ c = 0 then some f else skipName read f calls

-- The loop of `readdir`, with the bytes which are in `d_name`, and how many more fit into it.
def readdirLoop (read : SysRead) (calls : ℕ) (f : FILE) (d_name : List UInt8) (n : ℕ) : Option (Dirent × FILE) :=
  let (c, f) := fgetc read f
  if c = EOF then
    some (if d_name = [] then .null else .dent d_name, f)
  else if c = 0 then
    some (.dent d_name, f)
  else
    match n with
    | 0     => (skipName read f calls).map (.toolong, ·)
    | n + 1 => readdirLoop read calls f (d_name ++ [UInt8.ofInt c]) n

def readdir (read : SysRead) (calls : ℕ) (f : FILE) : Option (Dirent × FILE) :=
  readdirLoop read calls f [] 255

end Operations

section Spec

-- A line up to and including its newline, or as much as there is and as fits.
def piece (n : ℕ) (rest : List UInt8) : List UInt8 :=
  (rest.take ((rest.takeWhile (· ≠ 10)).length + 1)).take n

-- What successive calls of `fgets` should return.
def pieces (rest : List UInt8) : (sizes : List Int) → List (Option (List UInt8))
  | []            => []
  | size :: sizes =>
    let bytes := piece (size - 1).toNat rest
    (if bytes = [] then none else some bytes) :: pieces (rest.drop bytes.length) sizes

def fgetss (read : SysRead) (f : FILE) : (sizes : List Int) → List (Option (List UInt8)) × FILE
  | []            => ([], f)
  | size :: sizes =>
    let (res, f) := fgets read size f
    let (ress, f) := fgetss read f sizes
    (res :: ress, f)

-- The name up to the next NUL, and what follows it.
def dirent (rest : List UInt8) : Dirent :=
  let d_name := rest.takeWhile (· ≠ 0)
  if rest = [] then .null else if d_name.length ≤ 255 then .dent d_name else .toolong

def dirents (rest : List UInt8) : (n : ℕ) → List Dirent
  | 0     => []
  | n + 1 => dirent rest :: dirents (rest.drop ((rest.takeWhile (· ≠ 0)).length + 1)) n

def readdirs (read : SysRead) (calls : ℕ) (f : FILE) : (n : ℕ) → Option (List Dirent × FILE)
  | 0     => some ([], f)
  | n + 1 =>
    (readdir read calls f).bind fun (d, f) =>
      (readdirs read calls f n).map fun (ds, f) => (d :: ds, f)

-- A stream which was just opened, with or without a buffer.
structure FILE.Opened (f : FILE) : Prop where
  fd       : 0 ≤ f.fd
  pos      : f.pos = 0
  error    : f.error = false
  readbuf  : ∀ {buf}, f.readbuf = some buf → buf = []
  pushback : f.pushback = none

-- Every byte of a file is told apart from its end.
structure Faithful (file : List UInt8) : Prop where
  fgetc {read : SysRead} {f : FILE} {calls : ℕ} (h : Readable file read) (hf : f.Opened) (hcalls : file.length < calls) :
    ∃ cs f', fgetcs read f calls = some (cs, f') ∧
      (cs = file.map (fun b => (b.toNat : Int)) ∧ f'.eof = true ∨
        cs <+: file.map (fun b => (b.toNat : Int)) ∧ f'.error = true ∧ Fails read)
  fgets {read : SysRead} {f : FILE} (h : Readable file read) (hf : f.Opened) (sizes : List Int) :
    (fgetss read f sizes).1 = pieces file sizes ∨ (fgetss read f sizes).2.error = true ∧ Fails read
  readdir {read : SysRead} {f : FILE} {calls : ℕ} (h : Readable file read) (hf : f.Opened) (hcalls : file.length < calls) (n : ℕ) :
    ∃ ds f', readdirs read calls f n = some (ds, f') ∧ (ds = dirents file n ∨ f'.error = true ∧ Fails read)

end Spec

variable {file bytes line : List UInt8} {read : SysRead} {f f' : FILE} {b : UInt8} {n : ℕ} {c : Int}

section Fgetc

theorem toChar_lt (b : UInt8) : toChar b < 128 :=
  Int.bmod_lt (x := (b.toNat : Int)) (m := 256) (by decide)

theorem toChar_of_lt (h : b < 128) : toChar b = b.toNat := by
  have : b.toNat < 128 := by simpa [UInt8.lt_iff_toNat_lt] using h
  exact Int.bmod_eq_of_le (by omega) (by omega)

theorem ofInt_toChar (b : UInt8) : UInt8.ofInt (toChar b) = b := by
  have hb := b.toNat_lt
  have hchar : toChar b % 256 = (b.toNat : Int) % 256 := Int.bmod_emod
  have hmod : (toChar b % 2 ^ 8).toNat = b.toNat := by omega
  rw [UInt8.ofInt, hmod, UInt8.ofNat_toNat]

attribute [irreducible] toChar

-- What one call does: it returns the next byte as a `char`, or there is none, or a read fails.
inductive Getc (file : List UInt8) (read : SysRead) (f : FILE) : Int × FILE → Prop
  | char {b : UInt8} {f' : FILE} (hc : f'.Coherent file) (hfd : f'.fd = f.fd) (hrest : f.rest file = b :: f'.rest file) (herr : f'.error = f.error) :
    Getc file read f (toChar b, f')
  | eof {f' : FILE} (hc : f'.Coherent file) (hfd : f'.fd = f.fd) (hend : f.rest file = []) (hend' : f'.rest file = []) (heof : f'.eof = true)
    (herr : f'.error = f.error) : Getc file read f (EOF, f')
  | failed {f' : FILE} (hc : f'.Coherent file) (hfd : f'.fd = f.fd) (hrest : f'.rest file = f.rest file) (hfail : Fails read)
    (herr : f'.error = true) : Getc file read f (EOF, f')

theorem fgetc_of_loop (hfd : 0 ≤ f.fd) (hr : freadLoop read f 1 = (bytes, f')) :
    fgetc read f = (bytes.head?.elim EOF toChar, f') := by
  have hfd' : ¬(f.fd < 0 ∨ 1 = 0) := by omega
  have htotal : 1 * 1 % 2 ^ 64 = 1 := by decide
  rw [fgetc, fread, if_neg hfd', htotal]
  dsimp only
  rw [hr]
  cases bytes with
  | nil       => simp
  | cons b bs =>
    have hret : (if (b :: bs).length = 1 then 1 else (b :: bs).length / 1) ≠ 0 := by
      split <;> simp
    rw [if_pos hret]
    rfl

theorem fgetc_getc (h : Readable file read) (hc : f.Coherent file) (hfd : 0 ≤ f.fd) : Getc file read f (fgetc read f) := by
  have hs := freadStep_step h hc Nat.one_ne_zero
  have hloop (bytes : List UInt8) (more : Bool) (f' : FILE) (hstep : freadStep read f 1 = (bytes, more, f')) (hlen : more = true → bytes.length = 1) :
      freadLoop read f 1 = (bytes, f') := by
    rw [freadLoop, dif_neg Nat.one_ne_zero]
    split
    case h_1 bytes₁ f₁ heq =>
      rw [hstep] at heq
      cases heq
      rfl
    case h_2 bytes₁ f₁ heq =>
      rw [hstep] at heq
      cases heq
      rw [hlen rfl, Nat.sub_self, freadLoop, dif_pos rfl]
      exact congrArg (·, f') (List.append_nil bytes)
  generalize hr : freadStep read f 1 = r at hs
  cases hs with
  | @bytes bytes more f' hne hlen hc' hrest hmore hview =>
    have hlen' := List.length_pos_iff.mpr hne
    obtain ⟨b, rfl⟩ := List.length_eq_one_iff.mp (by omega : bytes.length = 1)
    rw [fgetc_of_loop hfd (hloop [b] more f' hr fun _ => rfl)]
    simp [FILE.view] at hview
    exact .char hc' hview.left hrest hview.right.right.right.left
  | @eof f' hc' hend hview =>
    rw [fgetc_of_loop hfd (hloop [] false f' hr fun h => absurd h Bool.false_ne_true)]
    simp [FILE.view] at hview
    obtain ⟨hfd', hpos, heof, herr, _, hpb⟩ := hview
    have hend' : f'.rest file = [] := by rwa [FILE.rest, hpos, hpb]
    exact .eof hc' hfd' hend hend' heof herr
  | @failed f' hfail hc' hview =>
    rw [fgetc_of_loop hfd (hloop [] false f' hr fun h => absurd h Bool.false_ne_true)]
    simp [FILE.view] at hview
    obtain ⟨hfd', hpos, _, herr, _, hpb⟩ := hview
    have hrest : f'.rest file = f.rest file := by rw [FILE.rest, hpos, hpb, FILE.rest]
    exact .failed hc' hfd' hrest hfail herr

theorem fgetc_lt (read : SysRead) (f : FILE) : (fgetc read f).1 < 128 := by
  rw [fgetc]
  dsimp only
  split
  · exact toChar_lt _
  · decide

theorem toChar_ne_EOF (h : b < 128) : toChar b ≠ EOF := by
  rw [toChar_of_lt h, EOF]
  omega

theorem toChar_eq_iff (h : b < 128) (k : UInt8) : toChar b = k.toNat ↔ b = k := by
  rw [toChar_of_lt h, Int.natCast_inj, UInt8.toNat_inj]

end Fgetc

section Sequences

-- What no sequence of calls does: the stream stays one of the file, and neither goes back nor forgets an error.
structure Follows (file : List UInt8) (f f' : FILE) : Prop where
  coherent : f'.Coherent file
  fd       : f'.fd = f.fd
  rest     : f'.rest file <:+ f.rest file
  error    : f.error = true → f'.error = true

def Failed (read : SysRead) (f : FILE) : Prop :=
  f.error = true ∧ Fails read

-- The bytes of a stream are told apart from its end as long as none of them is negative as a `char`.
def Ascii (bytes : List UInt8) : Prop :=
  ∀ b ∈ bytes, b < 128

theorem Follows.trans {f'' : FILE} (h : Follows file f f') (h' : Follows file f' f'') : Follows file f f'' where
  coherent := h'.coherent
  fd       := h'.fd.trans h.fd
  rest     := h'.rest.trans h.rest
  error    := h'.error ∘ h.error

theorem Follows.ascii (h : Follows file f f') (ha : Ascii (f.rest file)) : Ascii (f'.rest file) :=
  fun b hb => ha b (h.rest.subset hb)

-- A call on a stream without negative bytes.
theorem fgetc_cases (h : Readable file read) (hc : f.Coherent file) (hfd : 0 ≤ f.fd) (ha : Ascii (f.rest file)) :
    ∃ c f', fgetc read f = (c, f') ∧ Follows file f f' ∧
      ((∃ b, b < 128 ∧ c = toChar b ∧ f.rest file = b :: f'.rest file ∧ f'.error = f.error) ∨
        (c = EOF ∧ f.rest file = [] ∧ f'.rest file = [] ∧ f'.eof = true ∧ f'.error = f.error) ∨
        (c = EOF ∧ Failed read f')) := by
  have hg := fgetc_getc h hc hfd
  generalize fgetc read f = r at hg
  cases hg with
  | @char b f' hc' hfd' hrest herr =>
    have hb : b < 128 := ha b (hrest ▸ List.mem_cons_self)
    exact ⟨_, f', rfl, ⟨hc', hfd', hrest ▸ List.suffix_cons b _, fun h => herr ▸ h⟩, .inl ⟨b, hb, rfl, hrest, herr⟩⟩
  | @eof f' hc' hfd' hend hend' heof herr =>
    exact ⟨_, f', rfl, ⟨hc', hfd', hend' ▸ List.nil_suffix, fun h => herr ▸ h⟩, .inr (.inl ⟨rfl, hend, hend', heof, herr⟩)⟩
  | @failed f' hc' hfd' hrest hfail herr =>
    exact ⟨_, f', rfl, ⟨hc', hfd', hrest ▸ List.suffix_rfl, fun _ => herr⟩, .inr (.inr ⟨rfl, herr, hfail⟩)⟩

theorem fgetcs_spec {calls : ℕ} (h : Readable file read) (hc : f.Coherent file) (hfd : 0 ≤ f.fd) (ha : Ascii (f.rest file))
    (hcalls : (f.rest file).length < calls) :
    ∃ cs f', fgetcs read f calls = some (cs, f') ∧
      (cs = (f.rest file).map (fun b => (b.toNat : Int)) ∧ f'.eof = true ∨
        cs <+: (f.rest file).map (fun b => (b.toNat : Int)) ∧ Failed read f') := by
  induction calls generalizing f with
  | zero          => omega
  | succ calls ih =>
    obtain ⟨c, f', hf, hfol, ⟨b, hb, rfl, hrest, herr⟩ | ⟨rfl, hend, -, heof, -⟩ | ⟨rfl, hfail⟩⟩ := fgetc_cases h hc hfd ha
    case inl =>
      rw [hrest, List.length_cons] at hcalls
      obtain ⟨cs, f'', hcs, hres⟩ := ih hfol.coherent (hfol.fd ▸ hfd) (hfol.ascii ha) (by omega)
      refine ⟨toChar b :: cs, f'', ?_, ?_⟩
      · rw [fgetcs, hf]
        dsimp only
        rw [if_neg (toChar_ne_EOF hb), hcs]
        rfl
      · rw [hrest, List.map_cons, toChar_of_lt hb]
        rcases hres with ⟨rfl, heof⟩ | ⟨hpre, hfail⟩
        · exact .inl ⟨rfl, heof⟩
        · exact .inr ⟨List.cons_prefix_cons.mpr ⟨rfl, hpre⟩, hfail⟩
    case inr.inl =>
      refine ⟨[], f', ?_, .inl ⟨by rw [hend]; rfl, heof⟩⟩
      rw [fgetcs, hf]
      exact if_pos rfl
    case inr.inr =>
      refine ⟨[], f', ?_, .inr ⟨List.nil_prefix, hfail⟩⟩
      rw [fgetcs, hf]
      exact if_pos rfl

@[simp]
theorem piece_nil : piece n [] = [] := by
  simp [piece]

@[simp]
theorem piece_newline : piece (n + 1) (10 :: line) = [10] := by
  simp [piece]

theorem piece_cons (h : b ≠ 10) : piece (n + 1) (b :: line) = b :: piece n line := by
  simp [piece, h]

theorem fgetsLoop_spec (h : Readable file read) (hc : f.Coherent file) (hfd : 0 ≤ f.fd) (ha : Ascii (f.rest file)) :
    ∃ bytes f', fgetsLoop read f n = (bytes, f') ∧ Follows file f f' ∧
      ((bytes = piece n (f.rest file) ∧ f'.rest file = (f.rest file).drop bytes.length ∧ f'.error = f.error) ∨ Failed read f') := by
  induction n generalizing f with
  | zero      =>
    refine ⟨[], f, rfl, ⟨hc, rfl, List.suffix_rfl, id⟩, .inl ⟨?_, rfl, rfl⟩⟩
    simp [piece]
  | succ n ih =>
    obtain ⟨c, f', hf, hfol, ⟨b, hb, rfl, hrest, herr⟩ | ⟨rfl, hend, hend', -, herr⟩ | ⟨rfl, hfail⟩⟩ := fgetc_cases h hc hfd ha
    case inl =>
      rw [fgetsLoop, hf]
      dsimp only
      rw [if_neg (toChar_ne_EOF hb), ofInt_toChar]
      by_cases hline : b = 10
      case pos =>
        refine ⟨[b], f', if_pos ((toChar_eq_iff hb 10).mpr hline), hfol, .inl ⟨?_, by rw [hrest]; rfl, herr⟩⟩
        rw [hrest, hline, piece_newline]
      case neg =>
        obtain ⟨bytes, f'', hloop, hfol', hres⟩ := ih hfol.coherent (hfol.fd ▸ hfd) (hfol.ascii ha)
        refine ⟨b :: bytes, f'', ?_, hfol.trans hfol', ?_⟩
        · have hne : ¬toChar b = 10 := (toChar_eq_iff hb 10).not.mpr hline
          rw [if_neg hne, hloop]
        · rw [hrest, piece_cons hline]
          rcases hres with ⟨rfl, hrest', herr'⟩ | hfail
          · exact .inl ⟨rfl, hrest', herr'.trans herr⟩
          · exact .inr hfail
    case inr.inl =>
      refine ⟨[], f', ?_, hfol, .inl ⟨by rw [hend, piece_nil], by rw [hend, hend']; rfl, herr⟩⟩
      rw [fgetsLoop, hf]
      exact if_pos rfl
    case inr.inr =>
      refine ⟨[], f', ?_, hfol, .inr hfail⟩
      rw [fgetsLoop, hf]
      exact if_pos rfl

theorem Failed.follows (hfail : Failed read f) (h : Follows file f f') : Failed read f' :=
  ⟨h.error hfail.left, hfail.right⟩

theorem fgetss_spec (sizes : List Int) (h : Readable file read) (hc : f.Coherent file) (hfd : 0 ≤ f.fd) (ha : Ascii (f.rest file)) :
    ∃ ress f', fgetss read f sizes = (ress, f') ∧ Follows file f f' ∧
      (f.error = false → ress = pieces (f.rest file) sizes ∨ Failed read f') := by
  induction sizes generalizing f with
  | nil             => exact ⟨[], f, rfl, ⟨hc, rfl, List.suffix_rfl, id⟩, fun _ => .inl rfl⟩
  | cons size sizes ih =>
    obtain ⟨bytes, f', hloop, hfol, hres⟩ := fgetsLoop_spec (n := (size - 1).toNat) h hc hfd ha
    obtain ⟨ress, f'', hress, hfol', hres'⟩ := ih hfol.coherent (hfol.fd ▸ hfd) (hfol.ascii ha)
    refine ⟨(if bytes = [] ∨ f'.error then none else some bytes) :: ress, f'', ?_, hfol.trans hfol', fun herr => ?_⟩
    · rw [fgetss, fgets, hloop]
      dsimp only
      rw [hress]
    rcases hres with ⟨rfl, hrest, herr'⟩ | hfail
    case inr => exact .inr (hfail.follows hfol')
    rw [herr] at herr'
    rcases hres' herr' with rfl | hfail
    case inr => exact .inr hfail
    left
    rw [pieces, herr', hrest]
    simp

section Readdir

variable {d_name : List UInt8} {calls : ℕ}

theorem skipName_spec (h : Readable file read) (hc : f.Coherent file) (hfd : 0 ≤ f.fd) (ha : Ascii (f.rest file))
    (hcalls : (f.rest file).length < calls) :
    ∃ f', skipName read f calls = some f' ∧ Follows file f f' ∧
      ((f'.rest file = (f.rest file).drop (((f.rest file).takeWhile (· ≠ 0)).length + 1) ∧ f'.error = f.error) ∨ Failed read f') := by
  induction calls generalizing f with
  | zero          => omega
  | succ calls ih =>
    obtain ⟨c, f', hf, hfol, ⟨b, hb, rfl, hrest, herr⟩ | ⟨rfl, hend, hend', -, herr⟩ | ⟨rfl, hfail⟩⟩ := fgetc_cases h hc hfd ha
    case inl =>
      rw [skipName, hf]
      dsimp only
      by_cases hnul : b = 0
      case pos =>
        have hz : toChar b = 0 := (toChar_eq_iff hb 0).mpr hnul
        refine ⟨f', if_pos (.inr hz), hfol, .inl ⟨?_, herr⟩⟩
        simp [hrest, hnul]
      case neg =>
        have hnz : ¬(toChar b = EOF ∨ toChar b = 0) := not_or.mpr ⟨toChar_ne_EOF hb, (toChar_eq_iff hb 0).not.mpr hnul⟩
        rw [hrest, List.length_cons] at hcalls
        obtain ⟨f'', hskip, hfol', hres⟩ := ih hfol.coherent (hfol.fd ▸ hfd) (hfol.ascii ha) (by omega)
        refine ⟨f'', by rw [if_neg hnz, hskip], hfol.trans hfol', ?_⟩
        rcases hres with ⟨hrest', herr'⟩ | hfail
        · refine .inl ⟨?_, herr'.trans herr⟩
          simp [hrest, hnul, hrest']
        · exact .inr hfail
    case inr.inl =>
      refine ⟨f', ?_, hfol, .inl ⟨by simp [hend, hend'], herr⟩⟩
      rw [skipName, hf]
      exact if_pos (.inl rfl)
    case inr.inr =>
      refine ⟨f', ?_, hfol, .inr hfail⟩
      rw [skipName, hf]
      exact if_pos (.inl rfl)

-- With the bytes which are in `d_name` already.
theorem readdirLoop_spec (h : Readable file read) (hc : f.Coherent file) (hfd : 0 ≤ f.fd) (ha : Ascii (f.rest file))
    (hcalls : (f.rest file).length < calls) :
    ∃ d f', readdirLoop read calls f d_name n = some (d, f') ∧ Follows file f f' ∧
      ((d = (if d_name ++ f.rest file = [] then .null
          else if ((f.rest file).takeWhile (· ≠ 0)).length ≤ n then .dent (d_name ++ (f.rest file).takeWhile (· ≠ 0)) else .toolong) ∧
        f'.rest file = (f.rest file).drop (((f.rest file).takeWhile (· ≠ 0)).length + 1) ∧ f'.error = f.error) ∨ Failed read f') := by
  induction n using Nat.strongRecOn generalizing f d_name with
  | ind n ih =>
    obtain ⟨c, f', hf, hfol, ⟨b, hb, rfl, hrest, herr⟩ | ⟨rfl, hend, hend', -, herr⟩ | ⟨rfl, hfail⟩⟩ := fgetc_cases h hc hfd ha
    case inl =>
      rw [readdirLoop, hf]
      dsimp only
      rw [if_neg (toChar_ne_EOF hb), ofInt_toChar]
      by_cases hnul : b = 0
      case pos =>
        have hz : toChar b = 0 := (toChar_eq_iff hb 0).mpr hnul
        refine ⟨_, f', if_pos hz, hfol, .inl ⟨?_, ?_, herr⟩⟩
        · simp [hrest, hnul]
        · simp [hrest, hnul]
      have hnz : ¬toChar b = 0 := (toChar_eq_iff hb 0).not.mpr hnul
      rw [if_neg hnz]
      rw [hrest, List.length_cons] at hcalls
      have hcalls' : (f'.rest file).length < calls := by omega
      cases n with
      | zero   =>
        obtain ⟨f'', hskip, hfol', hres⟩ := skipName_spec h hfol.coherent (hfol.fd ▸ hfd) (hfol.ascii ha) hcalls'
        refine ⟨.toolong, f'', by rw [hskip]; rfl, hfol.trans hfol', ?_⟩
        rcases hres with ⟨hrest', herr'⟩ | hfail
        · refine .inl ⟨?_, ?_, herr'.trans herr⟩
          · simp [hrest, hnul]
          · simp [hrest, hnul, hrest']
        · exact .inr hfail
      | succ n =>
        obtain ⟨d, f'', hloop, hfol', hres⟩ := ih n (Nat.lt_succ_self n) hfol.coherent (hfol.fd ▸ hfd) (hfol.ascii ha) hcalls'
        refine ⟨d, f'', hloop, hfol.trans hfol', ?_⟩
        rcases hres with ⟨rfl, hrest', herr'⟩ | hfail
        · refine .inl ⟨?_, ?_, herr'.trans herr⟩
          · simp [hrest, hnul]
          · simp [hrest, hnul, hrest']
        · exact .inr hfail
    case inr.inl =>
      refine ⟨if d_name = [] then .null else .dent d_name, f', ?_, hfol, .inl ⟨?_, ?_, herr⟩⟩
      · rw [readdirLoop, hf]
        exact if_pos rfl
      · simp [hend]
      · simp [hend, hend']
    case inr.inr =>
      refine ⟨if d_name = [] then .null else .dent d_name, f', ?_, hfol, .inr hfail⟩
      rw [readdirLoop, hf]
      exact if_pos rfl

theorem readdirs_spec (h : Readable file read) (hc : f.Coherent file) (hfd : 0 ≤ f.fd) (ha : Ascii (f.rest file))
    (hcalls : (f.rest file).length < calls) :
    ∃ ds f', readdirs read calls f n = some (ds, f') ∧ Follows file f f' ∧
      (f.error = false → ds = dirents (f.rest file) n ∨ Failed read f') := by
  induction n generalizing f with
  | zero   => exact ⟨[], f, rfl, ⟨hc, rfl, List.suffix_rfl, id⟩, fun _ => .inl rfl⟩
  | succ n ih =>
    obtain ⟨d, f', hloop, hfol, hres⟩ := readdirLoop_spec (n := 255) h hc hfd ha hcalls
    have hlen := hfol.rest.length_le
    obtain ⟨ds, f'', hds, hfol', hres'⟩ := ih hfol.coherent (hfol.fd ▸ hfd) (hfol.ascii ha) (by omega)
    refine ⟨d :: ds, f'', ?_, hfol.trans hfol', fun herr => ?_⟩
    · rw [readdirs, readdir, hloop, Option.bind_some]
      dsimp only
      rw [hds]
      rfl
    rcases hres with ⟨rfl, hrest, herr'⟩ | hfail
    case inr => exact .inr (hfail.follows hfol')
    rcases hres' (herr'.trans herr) with rfl | hfail
    case inr => exact .inr hfail
    left
    rw [dirents, hrest, dirent]
    simp

end Readdir
end Sequences

theorem FILE.Opened.coherent (hf : f.Opened) : f.Coherent file where
  pos        := hf.pos ▸ Int.le_refl 0
  readbuf hb := hf.readbuf hb ▸ List.nil_prefix

theorem FILE.Opened.rest (hf : f.Opened) : f.rest file = file := by
  rw [FILE.rest, hf.pushback, hf.pos]
  rfl

theorem fgetcs_lt {cs : List Int} {calls : ℕ} (h : fgetcs read f calls = some (cs, f')) : ∀ c ∈ cs, c < 128 := by
  induction calls generalizing f cs with
  | zero          => cases h
  | succ calls ih =>
    rw [fgetcs] at h
    dsimp only at h
    split at h
    · obtain ⟨rfl, -⟩ := Prod.mk.inj (Option.some.inj h)
      exact fun c hc => absurd hc List.not_mem_nil
    · obtain ⟨⟨cs', f₁⟩, hcs, heq⟩ := Option.map_eq_some_iff.mp h
      obtain ⟨rfl, rfl⟩ := Prod.mk.inj heq
      exact List.forall_mem_cons.mpr ⟨fgetc_lt read f, ih hcs⟩

def opened : FILE :=
  ⟨3, 0, false, false, 0, none, 0, none, 0⟩

theorem opened_opened : opened.Opened where
  fd       := by decide
  pos      := rfl
  error    := rfl
  readbuf  := fun hb => absurd hb.symm (Option.some_ne_none _)
  pushback := rfl

-- The input is faithful for exactly the files without bytes from 128 on.
theorem faithful_iff (file : List UInt8) : Faithful file ↔ ∀ b ∈ file, b < 128 := by
  constructor
  · intro h b hb
    have hreg : Regular file (policy file id) := policy_regular id
    obtain ⟨cs, f', hcs, ⟨rfl, -⟩ | ⟨-, -, hfail⟩⟩ := h.fgetc hreg.readable opened_opened (Nat.lt_succ_self _)
    · have := fgetcs_lt hcs _ (List.mem_map_of_mem hb)
      rw [UInt8.lt_iff_toNat_lt]
      exact Int.ofNat_lt.mp this
    · exact absurd hfail hreg.succeeds
  · intro h
    constructor
    case fgetc =>
      intro read f calls hr hf hcalls
      have ha : Ascii (f.rest file) := by rwa [hf.rest]
      have hlen : (f.rest file).length < calls := by rwa [hf.rest]
      have hspec := fgetcs_spec hr hf.coherent hf.fd ha hlen
      rwa [hf.rest] at hspec
    case fgets =>
      intro read f hr hf sizes
      have ha : Ascii (f.rest file) := by rwa [hf.rest]
      obtain ⟨ress, f', hress, -, hres⟩ := fgetss_spec sizes hr hf.coherent hf.fd ha
      rw [hress]
      rw [hf.rest] at hres
      exact hres hf.error
    case readdir =>
      intro read f calls hr hf hcalls n
      have ha : Ascii (f.rest file) := by rwa [hf.rest]
      have hlen : (f.rest file).length < calls := by rwa [hf.rest]
      obtain ⟨ds, f', hds, -, hres⟩ := readdirs_spec (n := n) hr hf.coherent hf.fd ha hlen
      rw [hf.rest] at hres
      exact ⟨ds, f', hds, hres hf.error⟩

-- The byte 255 ends a file early.
theorem not_faithful_latin1 : ¬Faithful [97, 255, 98] := by
  intro h
  have hreg : Regular [97, 255, 98] (policy [97, 255, 98] id) := policy_regular id
  have heval : (fgetcs (policy [97, 255, 98] id) opened 4).map (·.1) = some [97] := by decide +kernel
  obtain ⟨cs, f', hcs, ⟨hall, -⟩ | ⟨-, -, hfail⟩⟩ := h.fgetc hreg.readable opened_opened (Nat.lt_succ_self 3)
  · simp [hcs, hall] at heval
  · exact absurd hfail hreg.succeeds

end Camellia.Stdio
