import Camellia.Libc.Cwd

namespace Camellia

open Buffer

-- The path of a directory, which ends with a slash.
def directory (path : List UInt8) : List UInt8 :=
  if path.getLast? = some slash then path else path ++ [slash]

-- A string, which has no NUL in front of its end.
abbrev CString := { str : List UInt8 // 0 ∉ str }

-- A call of `chdir`, and the answers of the kernel to what it opens.
structure Chdir where
  path    : CString
  sysOpen : List UInt8 → Flags → Int

-- `path_simplify` leaves the path as it is.
def Unchanged (path : List UInt8) : Prop :=
  ∃ m', pathSimplify (.ofList path) 0 0 path.length = .ok (path.length, m') ∧ m'.slice 0 path.length = path

-- How a call should change the working directory `dir`.
structure Moves (dir : List UInt8) (c : Chdir) (ret : Int) (dir' : List UInt8) : Prop where
  fails  : ret ≠ 0 ↔ ∀ p, Paths.simplify (Cwd.joined dir c.path) = some p → c.sysOpen (directory p) OPEN_READ < 0
  failed : ret ≠ 0 → ret = -1 ∧ dir' = dir
  moved  : ret = 0 → ∃ p, Paths.simplify (Cwd.joined dir c.path) = some p ∧ dir' = directory p
  ends   : ret = 0 → dir'.getLast? = some slash ∧ Unchanged dir'

namespace Cwd

def start (initial : CString) : Cwd where
  initialcwd := some initial
  cwd        := none
  cwd2       := none
  capacity   := 0

def Shows (st : Cwd) (dir : List UInt8) : Prop :=
  ∀ capacity, st.getcwd capacity = some (if capacity < dir.length + 1 then none else some dir)

-- What is demanded of a run, where every call stays inside of its buffers and reads no byte which was not written.
def Behaves (st : Cwd) (dir : List UInt8) : List Chdir → Prop
  | []      => st.Shows dir
  | c :: cs => st.Shows dir ∧ ∃ ret st' dir', st.chdir (some c.path) c.sysOpen = some (ret, st') ∧
      Moves dir c ret dir' ∧ st'.Behaves dir' cs

-- How large `cwd2` is when the path is written to it.
def room (st : Cwd) (raw : List UInt8) : ℕ :=
  if st.capacity < raw.length + 2 then
    if st.cwd.isSome then raw.length + 2 else (st.initialcwd.getD []).length + 1
  else
    (st.cwd2.getD []).length

-- The path does not climb above the root, and there is room for it and for what it is simplified to. A relative path
-- needs a directory, and a call which fails must not have cut off the current one.
structure Fits (st : Cwd) (dir : List UInt8) (c : Chdir) : Prop where
  front : c.path.val.head? = some slash ∨ dir ≠ []
  raw   : (joined dir c.path).length ≤ st.room (joined dir c.path)
  path  : ∃ p ∈ Paths.simplify (joined dir c.path), (directory p).length < st.room (joined dir c.path) ∧
    (c.sysOpen (directory p) OPEN_READ < 0 → st.cwd.isSome → st.capacity < (joined dir c.path).length + 2 →
      dir.length < (joined dir c.path).length + 2)

instance {st : Cwd} {dir : List UInt8} {c : Chdir} : Decidable (st.Fits dir c) :=
  decidable_of_iff
    ((c.path.val.head? = some slash ∨ dir ≠ []) ∧ (joined dir c.path).length ≤ st.room (joined dir c.path) ∧
      ∃ p ∈ Paths.simplify (joined dir c.path), (directory p).length < st.room (joined dir c.path) ∧
        (c.sysOpen (directory p) OPEN_READ < 0 → st.cwd.isSome → st.capacity < (joined dir c.path).length + 2 →
          dir.length < (joined dir c.path).length + 2))
    ⟨fun ⟨front, raw, path⟩ => ⟨front, raw, path⟩, fun ⟨front, raw, path⟩ => ⟨front, raw, path⟩⟩

-- Every call of a run fits.
def AllFit (st : Cwd) : List Chdir → Prop
  | []      => True
  | c :: cs => (∀ dir ∈ st.getrealcwd.text, st.Fits dir c) ∧
      ∀ r ∈ st.chdir (some c.path) c.sysOpen, r.snd.AllFit cs

instance decidableAllFit : (cs : List Chdir) → (st : Cwd) → Decidable (st.AllFit cs)
  | [], _      => isTrue trivial
  | _ :: cs, _ =>
    have := decidableAllFit cs
    inferInstanceAs <| Decidable (_ ∧ _)

-- What holds between two calls.
structure Ready (st : Cwd) (dir : List UInt8) : Prop where
  text : st.getrealcwd.text = some dir
  init : st.cwd = none → st.initialcwd = some dir ∧ st.capacity = 0
  pair : ∀ b, st.cwd = some b → ∃ b₂, st.cwd2 = some b₂ ∧ b₂.length = b.length

section Directory

variable {p raw : List UInt8} {b : Buffer}

theorem directory_getLast : (directory p).getLast? = some slash := by
  rw [directory]
  split_ifs with h
  · exact h
  · exact List.getLast?_concat

theorem simplify_directory (h : Paths.simplify raw = some p) : Paths.simplify (directory p) = some (directory p) := by
  rw [directory]
  split_ifs with hp
  · exact Paths.simplify_idem h
  · exact Paths.simplify_directory h hp

theorem unchanged (h : Paths.simplify p = some p) : Unchanged p := by
  obtain ⟨n, m', hr, -, hs⟩ := pathSimplify_spec (m := .ofList p) (.inl rfl : Layout 0 0 p.length)
  rw [Mem.slice_ofList, h] at hs
  obtain ⟨rfl, -, -, hp⟩ := hs
  exact ⟨m', hr, hp⟩

theorem simplify_head (h : Paths.simplify raw = some p) : raw.head? = some slash := by
  by_contra hn
  have := Paths.simplify_eq_none.mpr (.inl hn)
  simp [this] at h

theorem simplify_ne_nil (h : Paths.simplify raw = some p) : p ≠ [] := by
  rintro rfl
  simpa using simplify_head (Paths.simplify_idem h)

theorem simplify_no_nul (h : Paths.simplify raw = some p) (h0 : 0 ∉ raw) : 0 ∉ p := by
  intro hp
  obtain hc | hc := Paths.mem_of_mem_simplify h hp
  · exact absurd hc (by decide)
  · exact h0 hc

theorem directory_no_nul (h : 0 ∉ p) : 0 ∉ directory p := by
  rw [directory]
  split_ifs
  · exact h
  · simpa using ⟨h, by decide⟩

theorem closeDirectory_starts (h : b.Starts (p ++ [0])) (h0 : 0 ∉ p) (hne : p ≠ []) (hl : (directory p).length < b.length) :
    ∃ b', closeDirectory b = some b' ∧ b'.length = b.length ∧ b'.Starts (directory p ++ [0]) := by
  obtain ⟨c, hc⟩ := exists_getLast hne
  rw [closeDirectory, text_of_starts h h0]
  simp only [Option.bind_eq_bind, Option.bind_some, hc]
  by_cases hslash : c = slash
  case pos =>
    rw [if_neg (by simpa using hslash), directory, if_pos (by rw [hc, hslash])]
    exact ⟨b, rfl, rfl, h⟩
  case neg =>
    have hdir : directory p = p ++ [slash] := if_neg (by simpa [hc] using hslash)
    rw [hdir, List.length_append, List.length_singleton] at hl
    rw [if_pos hslash, hdir, List.append_assoc]
    exact h.of_append.write hl

end Directory

section Step

variable {st st₁ : Cwd} {dir raw p q path : List UInt8} {b b₂ : Buffer} {c : Chdir} {initial : CString}

theorem Ready.shows (h : Ready st dir) : st.Shows dir := by
  intro capacity
  rw [getcwd, h.text]
  simp only [Option.bind_eq_bind, Option.bind_some]
  split_ifs <;> rfl

theorem ready_start : Ready (start initial) initial where
  text   := text_of_starts (List.prefix_refl _) initial.property
  init _ := ⟨rfl, rfl⟩
  pair _ := nofun

theorem getrealcwd_some (h : st.cwd = some b) : st.getrealcwd = b := by
  simp only [getrealcwd, h]

-- The buffers are large enough for the length, but the working directory may have been cut off.
structure Allocated (st : Cwd) (dir raw : List UInt8) (st₁ : Cwd) (b b₂ : Buffer) : Prop where
  cwd      : st₁.cwd = some b
  cwd2     : st₁.cwd2 = some b₂
  same     : b₂.length = b.length
  room     : b₂.length = st.room raw
  capacity : raw.length + 2 ≤ st₁.capacity
  text     : (st.cwd.isSome → st.capacity < raw.length + 2 → dir.length < raw.length + 2) → b.text = some dir

theorem Ready.allocate (h : Ready st dir) :
    ∃ st₁ b b₂, st.allocate (raw.length + 1 + 1) = some st₁ ∧ Allocated st dir raw st₁ b b₂ := by
  rw [Cwd.allocate]
  cases hcwd : st.cwd
  case none =>
    obtain ⟨hinit, hcap⟩ := h.init hcwd
    have h0 := (text_eq_some h.text).right
    have hnil : (malloc (dir.length + 1)).Starts [] := starts_nil
    obtain ⟨b, hb, hlen, hst⟩ : ∃ b, (malloc (dir.length + 1)).write ([] : List UInt8).length (dir ++ [0]) = some b ∧
      b.length = (malloc (dir.length + 1)).length ∧ b.Starts ([] ++ (dir ++ [0])) := hnil.write (by simp)
    rw [if_pos (by omega)]
    simp only [hinit, Option.bind_eq_bind, Option.bind_some]
    rw [List.length_nil] at hb
    rw [hb]
    refine ⟨_, b, malloc (dir.length + 1), rfl, ⟨rfl, rfl, hlen.symm, ?_, le_rfl, fun _ => text_of_starts hst h0⟩⟩
    rw [room, if_pos (by omega), hcwd, hinit]
    simp
  case some b =>
    obtain ⟨b₂, hb₂, hlen⟩ := h.pair b hcwd
    have htext := h.text
    rw [getrealcwd_some hcwd] at htext
    by_cases hcap : st.capacity < raw.length + 1 + 1
    case pos =>
      rw [if_pos hcap]
      refine ⟨_, b.realloc (raw.length + 2), b₂.realloc (raw.length + 2), rfl, ⟨rfl, by simp [hb₂], ?_, ?_, le_rfl, ?_⟩⟩
      · simp
      · rw [room, if_pos hcap, hcwd]
        simp
      · intro hkept
        obtain ⟨hstarts, h0⟩ := text_eq_some htext
        have := hkept (by simp [hcwd]) hcap
        exact text_of_starts (hstarts.realloc (by simpa using Nat.le_of_lt_succ this)) h0
    case neg =>
      rw [if_neg hcap]
      refine ⟨st, b, b₂, rfl, ⟨hcwd, hb₂, hlen, ?_, by omega, fun _ => htext⟩⟩
      rw [room, if_neg hcap, hb₂]
      rfl

-- A simplified path is opened as it is.
theorem camelliaOpen_eq {flags : Flags} {sysOpen : List UInt8 → Flags → Int} (h : Paths.simplify q = some q) (h0 : 0 ∉ q)
    (hf : ¬flags.has OPEN_CREATE) : st.camelliaOpen (some q) flags sysOpen = some (sysOpen q flags) := by
  have hj : Joins st q q := .inl ⟨simplify_head h, rfl⟩
  obtain ⟨buf, hbuf, -, hst⟩ : ∃ b, st.absolutepath (malloc (q.length + 1)) (some q) (q.length + 1) =
      some (q.length + 1, b) ∧ b.length = (malloc (q.length + 1)).length ∧ b.Starts (q ++ [0]) :=
    absolutepath_starts hj h (Nat.lt_succ_self _) (by simp) (by simp)
  rw [camelliaOpen, absolutepath_null hj]
  simp only [Option.bind_eq_bind, Option.bind_some, hbuf, text_of_starts hst h0, if_neg hf]
  rfl

theorem length_le_directory : p.length ≤ (directory p).length := by
  rw [directory]
  split_ifs <;> simp

theorem joined_no_nul (h : 0 ∉ dir) (h' : 0 ∉ path) : 0 ∉ joined dir path := by
  rw [joined]
  split_ifs
  · exact h'
  · simp [h, h']
  · simpa [h, h'] using by decide

theorem length_le_joined (h : path.head? ≠ some slash) : dir.length ≤ (joined dir path).length := by
  rw [joined, if_neg h]
  split_ifs <;> simp

theorem Fits.joins (hf : Fits st dir c) (h : st₁.getrealcwd.text = some dir ∨ c.path.val.head? = some slash) :
    Joins st₁ c.path (joined dir c.path) := by
  by_cases hslash : c.path.val.head? = some slash
  case pos => exact .inl ⟨hslash, if_pos hslash⟩
  case neg => exact .inr ⟨hslash, dir, h.resolve_right hslash, hf.front.resolve_left hslash, rfl⟩

-- What one call does.
theorem chdir_eq (h : Ready st dir) (hf : Fits st dir c) (hp : Paths.simplify (joined dir c.path) = some p)
    (hroom : (directory p).length < st.room (joined dir c.path)) : ∃ (st₁ : Cwd) (b b₂ b₃ : Buffer),
    Allocated st dir (joined dir c.path) st₁ b b₂ ∧ b₃.length = b.length ∧ b₃.text = some (directory p) ∧
      st.chdir (some c.path) c.sysOpen = if c.sysOpen (directory p) OPEN_READ < 0
        then some (-1, { st₁ with cwd2 := b₃ }) else some (0, { st₁ with cwd := b₃, cwd2 := b }) := by
  have h0 := simplify_no_nul hp (joined_no_nul (text_eq_some h.text).right c.path.property)
  have hraw := hf.raw
  have hj₀ := hf.joins (.inl h.text)
  obtain ⟨st₁, b, b₂, halloc, ha⟩ : ∃ st₁ b b₂, st.allocate ((joined dir c.path).length + 1 + 1) = some st₁ ∧
      Allocated st dir (joined dir c.path) st₁ b b₂ := h.allocate
  have hj : Joins st₁ c.path (joined dir c.path) := hf.joins <| by
    by_cases hslash : c.path.val.head? = some slash
    case pos => exact .inr hslash
    case neg =>
      rw [getrealcwd_some ha.cwd]
      exact .inl (ha.text fun _ _ => by have : dir.length ≤ (joined dir c.path).length := length_le_joined hslash; omega)
  have hle := length_le_directory (p := p)
  have hcap := ha.capacity
  rw [← ha.room] at hraw hroom
  obtain ⟨b₃, hb₃, hlen₃, hst₃⟩ : ∃ b₃, st₁.absolutepath b₂ (some c.path) st₁.capacity = some (p.length + 1, b₃) ∧
      b₃.length = b₂.length ∧ b₃.Starts (p ++ [0]) := absolutepath_starts hj hp (by omega) hraw (by omega)
  obtain ⟨b₄, hb₄, hlen₄, hst₄⟩ := closeDirectory_starts hst₃ h0 (simplify_ne_nil hp) (by rwa [hlen₃])
  have htext := text_of_starts hst₄ (directory_no_nul h0)
  refine ⟨st₁, b, b₂, b₄, ha, hlen₄.trans (hlen₃.trans ha.same), htext, ?_⟩
  rw [chdir, absolutepath_null hj₀]
  simp only [Option.bind_eq_bind, Option.bind_some, halloc, ha.cwd2, hb₃, hb₄, htext, ha.cwd,
    camelliaOpen_eq (simplify_directory hp) (directory_no_nul h0) (show ¬OPEN_READ.has OPEN_CREATE by decide)]
  rfl

theorem chdir_moves (h : Ready st dir) (hf : Fits st dir c) : ∃ ret st' dir',
    st.chdir (some c.path) c.sysOpen = some (ret, st') ∧ Moves dir c ret dir' ∧ Ready st' dir' := by
  obtain ⟨p, hp, hroom, hkept⟩ := hf.path
  obtain ⟨st₁, b, b₂, b₃, ha, hlen, htext, heq⟩ := chdir_eq h hf hp hroom
  by_cases hopen : c.sysOpen (directory p) OPEN_READ < 0
  case pos =>
    refine ⟨-1, { st₁ with cwd2 := b₃ }, dir, by rw [heq, if_pos hopen], ?_, ?_⟩
    case refine_1 =>
      refine ⟨iff_of_true (by decide) fun q hq => ?_, fun _ => ⟨rfl, rfl⟩, nofun, nofun⟩
      rwa [← Option.some_inj.mp (hp.symm.trans hq)]
    case refine_2 =>
      refine ⟨?_, fun hn => ?_, fun d hd => ?_⟩
      · have hreal : ({ st₁ with cwd2 := b₃ } : Cwd).getrealcwd = b := getrealcwd_some ha.cwd
        rw [hreal]
        exact ha.text (hkept hopen)
      · exact absurd (ha.cwd.symm.trans hn) nofun
      · obtain rfl := Option.some_inj.mp (ha.cwd.symm.trans hd)
        exact ⟨b₃, rfl, hlen⟩
  case neg =>
    refine ⟨0, { st₁ with cwd := b₃, cwd2 := b }, directory p, by rw [heq, if_neg hopen], ?_, ?_⟩
    case refine_1 =>
      refine ⟨iff_of_false (by decide) fun hall => hopen (hall p hp), fun hn => absurd rfl hn,
        fun _ => ⟨p, hp, rfl⟩, fun _ => ⟨directory_getLast, unchanged (simplify_directory hp)⟩⟩
    case refine_2 =>
      refine ⟨?_, nofun, fun d hd => ?_⟩
      · rw [getrealcwd_some rfl]
        exact htext
      · obtain rfl := Option.some_inj.mp hd
        exact ⟨b, rfl, hlen.symm⟩

theorem Ready.behaves {cs : List Chdir} (h : Ready st dir) (hf : st.AllFit cs) : st.Behaves dir cs := by
  induction cs generalizing st dir
  case nil => exact h.shows
  case cons c cs hi =>
    obtain ⟨hc, hcs⟩ := hf
    obtain ⟨ret, st', dir', hrun, hm, hr⟩ := chdir_moves h (hc dir h.text)
    exact ⟨h.shows, ret, st', dir', hrun, hm, hi hr (hcs _ hrun)⟩

-- Every run behaves if all of its calls fit.
theorem start_behaves {cs : List Chdir} (h : (start initial).AllFit cs) : (start initial).Behaves initial cs :=
  ready_start.behaves h

end Step

def cstring (str : String) (h : 0 ∉ str.toList.map Char.toUInt8) : CString :=
  ⟨str.toList.map Char.toUInt8, h⟩

-- From "/home/user/" to "/home/", where "user" exists and "nothing" does not.
theorem start_behaves_home : (start (cstring "/home/user/" (by decide))).Behaves (cstring "/home/user/" (by decide)).val
    [{ path := cstring "/home" (by decide), sysOpen := fun _ _ => 3 },
     { path := cstring "nothing" (by decide), sysOpen := fun _ _ => -2 },
     { path := cstring "./user//" (by decide), sysOpen := fun _ _ => 3 }] :=
  start_behaves (by decide +kernel)

-- The first path is longer than the initial directory, so that it does not fit into `cwd2`. A path which climbs above
-- the root leaves an unterminated string, and a call which fails may cut off the working directory.
theorem not_behaves_bin :
    (start (cstring "/" (by decide))).chdir (some (cstring "/bin" (by decide)).val) (fun _ _ => 3) = none ∧
      ¬(start (cstring "/" (by decide))).Behaves (cstring "/" (by decide)).val
        [{ path := cstring "/bin" (by decide), sysOpen := fun _ _ => 3 }] ∧
      (start (cstring "/home/user/" (by decide))).chdir (some (cstring "/.." (by decide)).val) (fun _ _ => -2) = none ∧
      ((start (cstring "/home/user/" (by decide))).chdir (some (cstring "/a" (by decide)).val) (fun _ _ => -2)).bind
        (fun r => (r.snd.chdir (some (cstring "/bin" (by decide)).val) fun _ _ => -2).map
          fun r' => (r.fst, r'.fst, r'.snd.getrealcwd.text)) = some (-1, -1, none) := by
  have hnone : (start (cstring "/" (by decide))).chdir (some (cstring "/bin" (by decide)).val) (fun _ _ => 3) = none := by
    decide +kernel
  refine ⟨hnone, fun h => ?_, by decide +kernel, by decide +kernel⟩
  obtain ⟨-, ret, st', dir', hrun, -⟩ := h
  exact absurd (hnone.symm.trans hrun) nofun

end Cwd
end Camellia
