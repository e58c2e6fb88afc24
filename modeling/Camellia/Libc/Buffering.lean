import Camellia.Libc.Stdio

namespace Camellia.Stdio

inductive Op
  | fread (size nitems : ℕ)
  | ungetc (c : Int)
  | fseeko (offset : Int) (whence : ℕ)

-- The bytes which a call delivers, and the value which it returns.
def Op.exec (read : SysRead) (getsize : Int) (f : FILE) : Op → (List UInt8 × Int) × FILE
  | .fread size nitems =>
    let ((bytes, ret), f) := Stdio.fread read size nitems f
    ((bytes, ret), f)
  | .ungetc c =>
    let (ret, f) := Stdio.ungetc c f
    (([], ret), f)
  | .fseeko offset whence =>
    let (ret, f) := Stdio.fseeko getsize f offset whence
    (([], ret), f)

-- What can be seen of each call: what it delivers and returns, and the position and the flag after it.
def run (read : SysRead) (getsize : Int) (f : FILE) : List Op → List ((List UInt8 × Int) × Int × Bool)
  | []        => []
  | op :: ops =>
    let (res, f) := op.exec read getsize f
    (res, f.pos, f.eof) :: run read getsize f ops

-- A regular file which does not change, under any policy of short reads.
structure Regular (file : List UInt8) (read : SysRead) : Prop where
  readable : Readable file read
  succeeds : ¬Fails read

-- A read of `n` bytes as if they were taken from the file at once.
def deliver (file : List UInt8) (f : FILE) (n : ℕ) : List UInt8 × FILE :=
  let bytes := (f.rest file).take n
  (bytes, { f.view with
    pos      := f.pos + bytes.length - min n f.pushback.toList.length
    eof      := f.eof || bytes.length < n
    pushback := if n = 0 then f.pushback else none })

variable {file bytes : List UInt8} {read read₁ read₂ : SysRead} {f f' f₁ f₂ : FILE} {n : ℕ}

theorem deliver_congr (hv : f₁.view = f₂.view) : deliver file f₁ n = deliver file f₂ n := by
  have ⟨_, hpos, heof, _, _, hpb⟩ := view_eq_iff.mp hv
  rw [deliver, deliver, rest_of_view hv, hv, hpos, heof, hpb]

theorem deliver_zero : deliver file f 0 = ([], f.view) := by
  simp [deliver, FILE.view]

theorem deliver_of_end (hn : n ≠ 0) (hend : f.rest file = []) : deliver file f n = ([], { f.view with eof := true }) := by
  have hpb : f.pushback = none := by
    cases hpb : f.pushback with
    | none   => rfl
    | some c => simp [FILE.rest, hpb] at hend
  have hlt : 0 < n := Nat.pos_of_ne_zero hn
  simp [deliver, hend, FILE.view, hpb, hlt]

-- A read of some bytes, and then the read of those which are missing.
theorem deliver_bytes (hn : n ≠ 0) (hlen : bytes.length ≤ n) (hrest : f.rest file = bytes ++ f'.rest file)
    (hview : f'.view = { f.view with pos := f.pos + bytes.length - f.pushback.toList.length, pushback := none }) :
    deliver file f n = (bytes ++ (deliver file f' (n - bytes.length)).1, (deliver file f' (n - bytes.length)).2) := by
  have htake : (bytes ++ f'.rest file).take n = bytes ++ (f'.rest file).take (n - bytes.length) := by
    rw [List.take_append, List.take_of_length_le hlen]
  have ⟨hpos, heof, hpb⟩ : f'.pos = f.pos + bytes.length - f.pushback.toList.length ∧ f'.eof = f.eof ∧ f'.pushback = none := by
    simp [FILE.view] at hview
    exact ⟨hview.2.1, hview.2.2.1, hview.2.2.2.2.2⟩
  have hle : f.pushback.toList.length ≤ n := by
    cases f.pushback <;> simp
    omega
  rw [deliver, deliver, hrest, htake, hview, hpos, heof, hpb]
  simp only [List.length_append, hn, if_false, ite_self, Option.toList_none, List.length_nil]
  generalize (f'.rest file).take (n - bytes.length) = more
  have hpos' : f.pos + (bytes.length + more.length : ℕ) - (min n f.pushback.toList.length : ℕ) =
      f.pos + bytes.length - f.pushback.toList.length + more.length - (min (n - bytes.length) 0 : ℕ) := by omega
  have heof' : decide (bytes.length + more.length < n) = decide (more.length < n - bytes.length) :=
    decide_eq_decide.mpr (by omega)
  rw [hpos', heof']

-- The bytes are the same in whichever pieces they come, from the buffer or not.
theorem freadLoop_delivers (h : Regular file read) (hc : f.Coherent file) (hx : f.extflags &&& FEXT_NOFILL = 0) :
    (freadLoop read f n).1 = (deliver file f n).1 ∧ (freadLoop read f n).2.view = (deliver file f n).2 ∧
      (freadLoop read f n).2.Coherent file := by
  induction n using Nat.strongRecOn generalizing f with
  | ind n ih =>
    rw [freadLoop]
    split
    case isTrue hn =>
      rw [hn, deliver_zero]
      exact ⟨rfl, rfl, hc⟩
    case isFalse hn =>
      have hs := freadStep_step h.readable hc hn
      split
      case h_1 bytes f' heq =>
        rw [heq] at hs
        cases hs with
        | bytes hne hlen hc' hrest hmore hview => exact absurd (hmore hx) Bool.false_ne_true
        | eof hc' hend hview                   => exact deliver_of_end hn hend ▸ ⟨rfl, hview, hc'⟩
        | failed hfail hc' hview               => exact absurd hfail h.succeeds
      case h_2 bytes f' heq =>
        rw [heq] at hs
        cases hs with
        | bytes hne hlen hc' hrest hmore hview =>
          have hx' : f'.extflags &&& FEXT_NOFILL = 0 := by
            have hext : f'.view.extflags = f.extflags := by rw [hview]; rfl
            exact hext ▸ hx
          have hpos := List.length_pos_iff.mpr hne
          obtain ⟨hbytes, hview', hc''⟩ := ih (n - bytes.length) (by omega) hc' hx'
          rw [deliver_bytes hn hlen hrest hview]
          exact ⟨congrArg (bytes ++ ·) hbytes, hview', hc''⟩

-- Two streams which differ in their buffers only.
structure Same (file : List UInt8) (f₁ f₂ : FILE) : Prop where
  view  : f₁.view = f₂.view
  left  : f₁.Coherent file
  right : f₂.Coherent file
  fill  : f₁.extflags &&& FEXT_NOFILL = 0

theorem fread_same (h₁ : Regular file read₁) (h₂ : Regular file read₂) (h : Same file f₁ f₂) (size nitems : ℕ) :
    (fread read₁ size nitems f₁).1 = (fread read₂ size nitems f₂).1 ∧
      Same file (fread read₁ size nitems f₁).2 (fread read₂ size nitems f₂).2 := by
  have ⟨hfd, _, _, _, hext, _⟩ := view_eq_iff.mp h.view
  rw [fread, fread, hfd]
  split
  · exact ⟨rfl, h⟩
  have ⟨hb₁, hv₁, hc₁⟩ := freadLoop_delivers (n := size * nitems % 2 ^ 64) h₁ h.left h.fill
  have ⟨hb₂, hv₂, hc₂⟩ := freadLoop_delivers (n := size * nitems % 2 ^ 64) h₂ h.right (hext ▸ h.fill)
  rw [deliver_congr h.view] at hb₁ hv₁
  have hext₁ : (freadLoop read₁ f₁ (size * nitems % 2 ^ 64)).2.view.extflags = f₂.extflags := by
    rw [hv₁]
    rfl
  have hbytes := hb₁.trans hb₂.symm
  constructor
  · dsimp only
    rw [hbytes]
  · exact ⟨hv₁.trans hv₂.symm, hc₁, hc₂, (congrArg (· &&& FEXT_NOFILL) hext₁).trans (hext ▸ h.fill)⟩

theorem ungetc_same (h : Same file f₁ f₂) (c : Int) :
    (ungetc c f₁).1 = (ungetc c f₂).1 ∧ Same file (ungetc c f₁).2 (ungetc c f₂).2 := by
  have ⟨hfd, hpos, heof, herr, hext, hpb⟩ := view_eq_iff.mp h.view
  rw [ungetc, ungetc, hpb]
  split
  · exact ⟨rfl, h⟩
  · exact ⟨rfl, view_eq_iff.mpr ⟨hfd, hpos, heof, herr, hext, rfl⟩, ⟨h.left.pos, h.left.readbuf⟩, ⟨h.right.pos, h.right.readbuf⟩, h.fill⟩

-- After a seek, nothing is buffered or pushed back.
theorem coherent_empty {pos : Int} {eof : Bool} (hp : 0 ≤ pos) :
    FILE.Coherent { f with readbuf := f.readbuf.map fun _ => [], pushback := none, pos := pos, eof := eof } file where
  pos        := hp
  readbuf hb := by
    obtain ⟨_, _, rfl⟩ := Option.map_eq_some_iff.mp hb
    exact List.nil_prefix

theorem fseeko_same (h : Same file f₁ f₂) (offset : Int) (whence : ℕ) :
    (fseeko file.length f₁ offset whence).1 = (fseeko file.length f₂ offset whence).1 ∧
      Same file (fseeko file.length f₁ offset whence).2 (fseeko file.length f₂ offset whence).2 := by
  have ⟨hfd, hpos, heof, herr, hext, _⟩ := view_eq_iff.mp h.view
  have hp := h.right.pos
  have hbase (b : Int) (hb : (if whence = SEEK_SET then some 0 else if whence = SEEK_CUR then some f₂.pos
      else if whence = SEEK_END then some (if (file.length : Int) < 0 then -1 else (file.length : Int)) else none) = some b) : 0 ≤ b := by
    split at hb
    · exact Option.some.inj hb ▸ Int.le_refl 0
    split at hb
    · exact Option.some.inj hb ▸ hp
    split at hb
    · rw [if_neg (by omega)] at hb
      exact Option.some.inj hb ▸ Int.natCast_nonneg _
    · cases hb
  rw [fseeko, fseeko, hpos]
  dsimp only
  generalize (if whence = SEEK_SET then some 0 else _ : Option Int) = base? at hbase
  cases base? with
  | none      => exact ⟨rfl, h⟩
  | some base =>
    have hb := hbase base rfl
    have hsame {pos : Int} {eof₁ eof₂ : Bool} (hpos : 0 ≤ pos) (heof : eof₁ = eof₂) :
        Same file { f₁ with readbuf := f₁.readbuf.map fun _ => [], pushback := none, pos := pos, eof := eof₁ }
          { f₂ with readbuf := f₂.readbuf.map fun _ => [], pushback := none, pos := pos, eof := eof₂ } :=
      ⟨view_eq_iff.mpr ⟨hfd, rfl, heof, herr, hext, rfl⟩, coherent_empty hpos, coherent_empty hpos, h.fill⟩
    dsimp only
    by_cases hneg : 0 ≤ base ∧ base + offset < 0
    case pos =>
      rw [if_pos hneg, if_pos hneg]
      exact ⟨rfl, hsame hp heof⟩
    case neg =>
      have hpos' : ¬(base < 0 ∧ 0 ≤ base + offset) := by omega
      rw [if_neg hneg, if_neg hneg, if_neg hpos', if_neg hpos']
      exact ⟨rfl, hsame (by omega) rfl⟩

theorem exec_same (h₁ : Regular file read₁) (h₂ : Regular file read₂) (h : Same file f₁ f₂) (op : Op) :
    (op.exec read₁ file.length f₁).1 = (op.exec read₂ file.length f₂).1 ∧
      Same file (op.exec read₁ file.length f₁).2 (op.exec read₂ file.length f₂).2 := by
  cases op with
  | fread size nitems =>
    have ⟨hr, hs⟩ := fread_same h₁ h₂ h size nitems
    exact ⟨congrArg (fun r => (r.1, (r.2 : Int))) hr, hs⟩
  | ungetc c =>
    have ⟨hr, hs⟩ := ungetc_same h c
    exact ⟨congrArg (([], ·)) hr, hs⟩
  | fseeko offset whence =>
    have ⟨hr, hs⟩ := fseeko_same h offset whence
    exact ⟨congrArg (([], ·)) hr, hs⟩

theorem run_same (h₁ : Regular file read₁) (h₂ : Regular file read₂) (h : Same file f₁ f₂) (ops : List Op) :
    run read₁ file.length f₁ ops = run read₂ file.length f₂ ops := by
  induction ops generalizing f₁ f₂ with
  | nil            => rfl
  | cons op ops ih =>
    have ⟨hr, hs⟩ := exec_same h₁ h₂ h op
    have ⟨_, hpos, heof, _⟩ := view_eq_iff.mp hs.view
    simp only [run, hr, hpos, heof, ih hs]

-- Whether a stream has a buffer cannot be seen in what it reads, whatever is read, pushed back and sought, and however
-- short the reads of the file are.
theorem buffering_transparent (h₁ : Regular file read₁) (h₂ : Regular file read₂) (f : FILE) (hp : 0 ≤ f.pos)
    (hx : f.extflags &&& FEXT_NOFILL = 0) (ops : List Op) :
    run read₁ file.length (setvbuf f IOFBF).2 ops = run read₂ file.length (setvbuf f IONBF).2 ops := by
  have hbuf : (setvbuf f IOFBF).2 = { f with readbuf := some [], rbcap := BUFSIZ } := rfl
  have hnobuf : (setvbuf f IONBF).2 = { f with readbuf := none } := rfl
  have hsame : Same file { f with readbuf := some [], rbcap := BUFSIZ } { f with readbuf := none } := by
    refine ⟨rfl, ⟨hp, fun hb => ?_⟩, ⟨hp, fun hb => ?_⟩, hx⟩
    · exact Option.some.inj hb ▸ List.nil_prefix
    · exact absurd hb.symm (Option.some_ne_none _)
  rw [hbuf, hnobuf]
  exact run_same h₁ h₂ hsame ops

-- Reads which give at most `limit + 1` bytes each.
def policy (file : List UInt8) (limit : ℕ → ℕ) : SysRead :=
  fun call pos len => .ok ((file.drop pos.toNat).take (min len (limit call + 1)))

theorem policy_regular (limit : ℕ → ℕ) : Regular file (policy file limit) where
  readable call _ len _ hl := .inr ⟨min len (limit call + 1), by omega, Nat.min_le_left .., rfl⟩
  succeeds := fun ⟨_, _, _, _, he⟩ => by cases he

theorem buffering_transparent_hello :
    let f : FILE := ⟨3, 0, false, false, 0, none, 0, none, 0⟩
    let ops := [.fread 1 2, .ungetc 72, .fread 2 2, .fseeko (-1) SEEK_END, .fread 1 2]
    run (policy [104, 101, 108, 108, 111] id) 5 (setvbuf f IOFBF).2 ops =
      run (policy [104, 101, 108, 108, 111] fun _ => 0) 5 (setvbuf f IONBF).2 ops :=
  buffering_transparent (policy_regular id) (policy_regular fun _ => 0) ⟨3, 0, false, false, 0, none, 0, none, 0⟩ (by decide) (by decide)
    [.fread 1 2, .ungetc 72, .fread 2 2, .fseeko (-1) SEEK_END, .fread 1 2]

end Camellia.Stdio
