import Camellia.Cmd.TmpfsLife

namespace Camellia.Tmpfs

-- What a request wrote to a file, and where.
structure Written where
  offset : ℕ
  src : List UInt8
  truncate : Bool

def Written.stop (w : Written) : ℕ :=
  w.offset + w.src.length

-- The writes to a file have the last one first.

-- The byte which was written to a position since it was last cut off.
def lastWritten : List Written → ℕ → Option UInt8
  | [], _      => none
  | w :: ws, i =>
    if w.offset ≤ i ∧ i < w.stop then
      w.src[i - w.offset]?
    else if w.truncate ∧ w.stop ≤ i then
      none
    else
      lastWritten ws i

def fileSize : List Written → ℕ
  | []      => 0
  | w :: ws => if w.truncate then w.stop else max (fileSize ws) w.stop

theorem lastWritten_inside {w : Written} {ws : List Written} (hi : w.offset ≤ i ∧ i < w.stop) :
    lastWritten (w :: ws) i = w.src[i - w.offset]? := by
  rw [lastWritten, if_pos hi]

theorem lastWritten_outside {w : Written} {ws : List Written} (hi : ¬(w.offset ≤ i ∧ i < w.stop))
    (hc : ¬(w.truncate ∧ w.stop ≤ i)) : lastWritten (w :: ws) i = lastWritten ws i := by
  rw [lastWritten, if_neg hi, if_neg hc]

section Bytes

variable {dst src buf : List UInt8} {junk : ℕ → UInt8} {offset n i : ℕ}

theorem getElem?_memcpyAt (src : List UInt8) (hd : offset ≤ dst.length) :
    (memcpyAt dst offset src)[i]? =
      if offset ≤ i ∧ i < offset + src.length then src[i - offset]? else dst[i]? := by
  simp only [memcpyAt, List.append_assoc, List.getElem?_append, List.length_take, min_eq_left hd,
    List.getElem?_take, List.getElem?_drop]
  grind

theorem length_memcpyAt (hd : offset + src.length ≤ dst.length) :
    (memcpyAt dst offset src).length = dst.length := by
  simp [memcpyAt]
  omega

-- A buffer which grows keeps its contents.
theorem getElem?_realloc (hn : buf.length ≤ n) (hi : i < buf.length) : (realloc junk buf n)[i]? = buf[i]? := by
  rw [realloc, List.take_of_length_le hn, List.getElem?_append_left hi]

theorem length_realloc (hn : buf.length ≤ n) : (realloc junk buf n).length = n := by
  simp [realloc]
  omega

end Bytes

-- The size of a file and the bytes below it are as they were written.
structure FileOk (v : Node) (ws : List Written) : Prop where
  size : v.size = fileSize ws
  buf  : v.size ≤ v.buf.length
  byte : ∀ i < v.size, ∃ b, v.buf[i]? = some b ∧ lastWritten ws i = some b

section Write

variable {v : Node} {ws : List Written} {flags : Flags} {offset : ℕ} {src : List UInt8} {junk : ℕ → UInt8}

-- The buffer has room for what is written.
theorem exists_room (junk : ℕ → UInt8) (stop : ℕ) :
    ∃ buf, buf = (if v.buf.length ≤ stop then realloc junk v.buf ((stop + 511) / 512 * 512) else v.buf) ∧
      v.buf.length ≤ buf.length ∧ stop ≤ buf.length ∧ ∀ i < v.buf.length, buf[i]? = v.buf[i]? := by
  refine ⟨_, rfl, ?_⟩
  split
  case isTrue hc =>
    have hr : stop ≤ (stop + 511) / 512 * 512 := by omega
    rw [length_realloc (hc.trans hr)]
    exact ⟨hc.trans hr, hr, fun i hi => getElem?_realloc (hc.trans hr) hi⟩
  case isFalse hc => exact ⟨le_rfl, by omega, fun _ _ => rfl⟩

theorem FileOk.write (h : FileOk v ws) (ho : offset ≤ v.size) :
    FileOk (v.write junk flags offset src) (⟨offset, src, flags.has WRITE_TRUNCATE⟩ :: ws) := by
  obtain ⟨buf, hbuf, hlen, hstop, hget⟩ := exists_room (v := v) junk (offset + src.length)
  have hw : v.write junk flags offset src = { v with
      buf  := memcpyAt buf offset src
      size := if flags.has WRITE_TRUNCATE ∨ v.size < offset + src.length then offset + src.length else v.size } := by
    rw [hbuf]
    rfl
  have hcpy := length_memcpyAt hstop
  have hold := h.buf
  rw [hw]
  refine ⟨?_, ?_, fun i hi => ?_⟩
  · simp only [fileSize, Written.stop, ← h.size]
    grind
  · simp only [hcpy]
    grind
  · simp only at hi
    have hcopy := getElem?_memcpyAt (i := i) src (Nat.le_of_add_right_le hstop)
    by_cases hin : offset ≤ i ∧ i < offset + src.length
    case pos =>
      have hlt : i - offset < src.length := by omega
      refine ⟨src[i - offset], ?_, ?_⟩
      · rw [hcopy, if_pos hin, List.getElem?_eq_getElem hlt]
      · rw [lastWritten_inside hin, List.getElem?_eq_getElem hlt]
    case neg =>
      -- What is not written now is below the old size.
      have hcut : ¬(flags.has WRITE_TRUNCATE = true ∧ offset + src.length ≤ i) := by grind
      have hi' : i < v.size := by grind
      obtain ⟨b, hb, hl⟩ := h.byte i hi'
      refine ⟨b, ?_, ?_⟩
      · rw [hcopy, if_neg hin, hget i (by omega), hb]
      · rw [lastWritten_outside hin hcut, hl]

end Write

-- The file is the same one with the same contents, or it is new and empty.
structure Untouched (n : Nid) (s t : Heap Node) : Prop where
  size : s.size ≤ t.size
  file : ∀ w, t.get n = some w →
    (∃ v, s.get n = some v ∧ w.buf = v.buf ∧ w.size = v.size ∧ w.directory = v.directory) ∨
      s.size ≤ n ∧ w.buf = [] ∧ w.size = 0

section Untouched

variable {s t : Heap Node} {n m : Nid} {alloc : Alloc} {flags : Flags} {req : UfsRequest}

instance : IsPreorder (Heap Node) (Untouched n) where
  refl s := ⟨le_rfl, fun w hw => .inl ⟨w, hw, rfl, rfl, rfl⟩⟩
  trans s t u h₁ h₂ := by
    refine ⟨h₁.size.trans h₂.size, fun x hx => ?_⟩
    obtain ⟨w, hw, hb, hs, hd⟩ | ⟨hn, hb, hs⟩ := h₂.file x hx
    · obtain ⟨v, hv, hb', hs', hd'⟩ | ⟨hn, hb', hs'⟩ := h₁.file w hw
      · exact .inl ⟨v, hv, hb.trans hb', hs.trans hs', hd.trans hd'⟩
      · exact .inr ⟨hn, hb.trans hb', hs.trans hs'⟩
    · exact .inr ⟨h₁.size.trans hn, hb, hs⟩

theorem getNode_untouched : Respects (Untouched n) (getNode m) := by
  refine respects_get.bind fun s => ?_
  cases s.get m
  case none   => exact respects_throw
  case some v => exact respects_pure

-- A change of another node, or of what does not matter here.
theorem updNode_untouched {f : Node → Node}
    (hf : m = n → ∀ v, (f v).buf = v.buf ∧ (f v).size = v.size ∧ (f v).directory = v.directory) :
    Respects (Untouched n) (updNode m f) := fun s => by
  rw [wlp, wp_updNode]
  cases hv : s.get m
  case none   => trivial
  case some v =>
    refine ⟨Heap.size_set.ge, fun w hw => .inl ?_⟩
    rw [Heap.get_set hv] at hw
    by_cases hn : n = m
    case pos =>
      rw [if_pos hn, Option.some_inj] at hw
      exact ⟨v, hn ▸ hv, hw ▸ hf hn.symm v⟩
    case neg => exact ⟨w, by rwa [if_neg hn] at hw, rfl, rfl, rfl⟩

theorem free_untouched : Untouched n s (s.free m) := by
  refine ⟨Heap.size_free.ge, fun w hw => .inl ⟨w, ?_, rfl, rfl, rfl⟩⟩
  by_cases hn : n = m
  case pos => simp [hn] at hw
  case neg => rwa [Heap.get_free_ne hn] at hw

theorem alloc_untouched {v : Node} (hb : v.buf = []) (hs : v.size = 0) : Untouched n s (s.alloc v) := by
  refine ⟨by simp, fun w hw => ?_⟩
  rw [Heap.get_alloc] at hw
  by_cases hn : n = s.size
  case pos =>
    rw [if_pos hn, Option.some_inj] at hw
    exact .inr ⟨hn.ge, hw ▸ hb, hw ▸ hs⟩
  case neg => exact .inl ⟨w, by rwa [if_neg hn] at hw, rfl, rfl, rfl⟩

theorem nodeGetchild_untouched {name : List UInt8} : Respects (Untouched n) (nodeGetchild m name) := by
  have hloop (fuel : ℕ) (o : Option Nid) : Respects (Untouched n) (nodeGetchildLoop name fuel o) := by
    induction fuel generalizing o
    case zero => cases o <;> first | exact respects_pure | exact respects_throw
    case succ fuel hi =>
      cases o
      case none      => exact respects_pure
      case some iter => exact getNode_untouched.bind fun v => .ite respects_pure (hi _)
  exact respects_get.bind fun s => getNode_untouched.bind fun v => hloop _ _

theorem nodeCreate_untouched {name : List UInt8} {directory : Bool} :
    Respects (Untouched n) (nodeCreate m name directory) := by
  refine getNode_untouched.bind fun v => respects_get.bind fun s => ?_
  refine (respects_modify fun _ => alloc_untouched rfl rfl).bind fun _ => ?_
  have hlast : Respects (Untouched n) (do
      updNode m ({ · with child := some s.size })
      pure s.size) :=
    (updNode_untouched (by simp)).bind fun _ => respects_pure
  cases v.child
  case none       => exact hlast
  case some first => exact (updNode_untouched (by simp)).bind fun _ => hlast

theorem nodeOpen_untouched : Respects (Untouched n) (nodeOpen m) :=
  (updNode_untouched (by simp)).bind fun _ => respects_pure

theorem tmpfsOpenLoop_untouched {fuel : ℕ} {path : List UInt8} :
    Respects (Untouched n) (tmpfsOpenLoop alloc flags fuel m path) := by
  induction fuel generalizing m path
  case zero => exact respects_throw
  case succ fuel hi =>
    rw [tmpfsOpenLoop]
    obtain ⟨seg, directory, rest⟩ := segment path
    refine nodeGetchild_untouched.bind fun o => ?_
    cases o
    case some node => exact .ite hi nodeOpen_untouched
    case none      =>
      exact .ite (nodeCreate_untouched.bind fun _ => nodeOpen_untouched) respects_pure

theorem tmpfsOpen_untouched {path : List UInt8} : Respects (Untouched n) (tmpfsOpen alloc path flags) :=
  match path with
  | []          => respects_pure
  | [_]         => respects_pure
  | _ :: _ :: _ => tmpfsOpenLoop_untouched

theorem nodeClose_untouched : Respects (Untouched n) (nodeClose m) := by
  refine (updNode_untouched (by simp)).bind fun _ => getNode_untouched.bind fun v => ?_
  exact .ite (respects_modify fun _ => free_untouched) respects_pure

theorem nodeRemove_untouched : Respects (Untouched n) (nodeRemove m) := by
  refine .ite respects_pure <| getNode_untouched.bind fun v => ?_
  match v.ref with
  | none      => exact respects_pure
  | some link =>
    refine .ite respects_pure (Respects.bind ?_ fun _ => ?_)
    · cases link <;> exact updNode_untouched (by simp)
    · refine (updNode_untouched (by simp)).bind fun _ => ?_
      exact nodeClose_untouched.bind fun _ => respects_pure

theorem nodeList_untouched {v : Node} : Respects (Untouched n) (nodeList v) := by
  have hloop (fuel : ℕ) (o : Option Nid) : Respects (Untouched n) (dirNames fuel o) := by
    induction fuel generalizing o
    case zero => cases o <;> first | exact respects_pure | exact respects_throw
    case succ fuel hi =>
      cases o
      case none      => exact respects_pure
      case some iter => exact getNode_untouched.bind fun v => (hi _).bind fun _ => respects_pure
  exact respects_get.bind fun s => (hloop _ _).bind fun _ => respects_pure

theorem fsNormslice_untouched {offset : Int} {length max : ℕ} {expand : Bool} :
    Respects (Untouched n) (fsNormslice offset length max expand) := by
  have hassert {c : Prop} [Decidable c] {site : Site} : Respects (Untouched n) (tassert c site) :=
    .ite respects_pure respects_throw
  exact hassert.bind fun _ => hassert.bind fun _ => hassert.bind fun _ => respects_pure

-- Only a write to the file itself changes it.
theorem serve_untouched (hn : req.op = .WRITE → req.id ≠ n) : Respects (Untouched n) (serve alloc req) := by
  rw [serve]
  cases ho : req.op
  case OPEN    => exact tmpfsOpen_untouched.bind fun _ => respects_pure
  case READ    =>
    refine getNode_untouched.bind fun v => .ite nodeList_untouched ?_
    exact fsNormslice_untouched.bind fun _ => respects_pure
  case WRITE   =>
    refine getNode_untouched.bind fun v => .ite respects_pure ?_
    refine fsNormslice_untouched.bind fun _ => ?_
    exact (updNode_untouched fun heq => absurd heq (hn ho)).bind fun _ => respects_pure
  case GETSIZE => exact getNode_untouched.bind fun v => .ite nodeList_untouched respects_pure
  case REMOVE  => exact nodeRemove_untouched.bind fun _ => respects_pure
  case CLOSE   => exact nodeClose_untouched.bind fun _ => respects_pure

end Untouched

-- The writes to the node `n`, each of which was allowed, among whatever else is requested.
inductive History (allowed : Node → UfsRequest → Prop) (n : Nid) : Heap Node → List Written → Prop
  | init : History allowed n init []
  | other : History allowed n s ws →
    (req.op = .WRITE → req.id = n → ∀ v, s.get n = some v → v.directory = true) →
    serve alloc req s = .ok (r, t) → History allowed n t ws
  | write : History allowed n s ws → req.op = .WRITE → req.id = n → s.get n = some v → v.directory = false →
    allowed v req → fsNormslice req.offset req.buf.length v.size true s = .ok ((offset, len), s) →
    serve alloc req s = .ok (r, t) →
    History allowed n t (⟨offset, req.buf.take len, req.flags.has WRITE_TRUNCATE⟩ :: ws)

-- The write starts in the file or at its end.
def NoGap (v : Node) (req : UfsRequest) : Prop :=
  req.offset ≤ v.size

-- The size of a file, and what is read from it.
structure Reads (s : Heap Node) (n : Nid) (ws : List Written) (v : Node) : Prop where
  size : v.size = fileSize ws
  read : ∀ alloc req, req.op = .READ → req.id = n → v.size < 2 ^ 63 → ∃ start len,
    fsNormslice req.offset req.len v.size false s = .ok ((start, len), s) ∧
    serve alloc req s = .ok (.bytes ((List.range' start len).map fun i => (lastWritten ws i).getD 0), s)

section History

variable {s t : Heap Node} {n : Nid} {ws : List Written} {v : Node} {alloc : Alloc} {req : UfsRequest}
variable {offset : Int} {length max : ℕ} {expand : Bool} {r : Reply} {start len : ℕ}

theorem fsNormslice_start (ho : offset ≤ max) :
    wlp (fsNormslice offset length max expand) (fun r _ => r.1 ≤ max) s := by
  rw [wlp]
  simp only [fsNormslice, wp_bind, wp_tassert, wp_pure]
  refine ⟨fun _ => ⟨fun _ => ⟨fun _ => ?_, fun _ => trivial⟩, fun _ => trivial⟩, fun _ => trivial⟩
  grind

theorem fsNormslice_slice (offset : Int) (length : ℕ) (hm : max < 2 ^ 63) :
    wp (fsNormslice offset length max false) (fun r t => t = s ∧ r.1 + r.2 ≤ max) (fun _ => False) s := by
  simp only [fsNormslice, wp_bind, wp_tassert, wp_pure]
  refine ⟨fun _ => ⟨fun _ => ⟨fun _ => ?_, fun h => h ?_⟩, fun h => h ?_⟩, fun h => h hm⟩
  · refine ⟨trivial, ?_⟩
    grind
  · grind
  · grind

theorem write_eq (ho : req.op = .WRITE) (hv : s.get req.id = some v) (hd : v.directory = false)
    (hn : fsNormslice req.offset req.buf.length v.size true s = .ok ((start, len), s))
    (hr : serve alloc req s = .ok (r, t)) :
    t = s.set req.id (v.write alloc.junk req.flags start (req.buf.take len)) := by
  refine wp_of_ok (E := fun _ => True) (Q := fun _ t => t = s.set req.id _) hr ?_
  simp only [serve, ho, nodeWrite, wp_bind, wp_getNode, hv, Option.elim_some, hd, Bool.false_eq_true, if_false,
    wp_iff_of_ok hn, wp_updNode, wp_pure]

-- A directory refuses to be written.
theorem write_directory (ho : req.op = .WRITE) (hd : ∀ v, s.get req.id = some v → v.directory = true)
    (hr : serve alloc req s = .ok (r, t)) : t = s := by
  refine wp_of_ok (E := fun _ => True) (Q := fun _ t => t = s) hr ?_
  simp only [serve, ho, nodeWrite, wp_bind, wp_getNode]
  match hv : s.get req.id with
  | none   => trivial
  | some v => simp [hd v hv]

theorem history_fileOk (h : History NoGap n s ws) :
    (∀ v, s.get n = some v → v.directory = false → FileOk v ws) ∧ (s.size ≤ n → ws = []) := by
  induction h
  case init =>
    refine ⟨fun v hv hd => ?_, fun _ => rfl⟩
    have hn := Heap.lt_size hv
    obtain rfl : n = 0 := Nat.lt_one_iff.mp hn
    obtain rfl := Option.some_inj.mp hv
    contradiction
  case other s ws alloc req r t _ ho hr hi =>
    by_cases hw : req.op = .WRITE ∧ req.id = n
    case pos =>
      rw [write_directory hw.1 (hw.2 ▸ ho hw.1 hw.2) hr]
      exact hi
    case neg =>
      have hu := (serve_untouched fun ho heq => hw ⟨ho, heq⟩).of_ok hr
      refine ⟨fun w hw hd => ?_, fun hn => hi.2 (hu.size.trans hn)⟩
      obtain ⟨v, hv, hb, hs, hd'⟩ | ⟨hn, hb, hs⟩ := hu.file w hw
      · have hf := hi.1 v hv (hd'.symm.trans hd)
        exact ⟨hs.trans hf.size, by rw [hs, hb]; exact hf.buf, by rw [hs, hb]; exact hf.byte⟩
      · rw [hi.2 hn]
        exact ⟨hs, by rw [hs]; exact Nat.zero_le _, fun i hi => by rw [hs] at hi; contradiction⟩
  case write s ws v req offset len alloc r t _ ho hid hv hd hgap hn hr hi =>
    subst hid
    have hstart := wlp_of_ok (Q := fun r _ => r.1 ≤ v.size) hn (fsNormslice_start hgap)
    rw [write_eq ho hv hd hn hr]
    refine ⟨fun w hw _ => ?_, fun hn => ?_⟩
    · rw [Heap.get_set_self hv, Option.some_inj] at hw
      rw [← hw]
      exact (hi.1 v hv hd).write hstart
    · rw [Heap.size_set] at hn
      exact absurd (Heap.lt_size hv) (not_lt.mpr hn)

-- If no write leaves a gap behind the end of the file, then each read gets the bytes that were written
-- last.
theorem history_reads (h : History NoGap n s ws) (hv : s.get n = some v) (hd : v.directory = false) :
    Reads s n ws v := by
  have hf := (history_fileOk h).1 v hv hd
  refine ⟨hf.size, fun alloc req ho hid hm => ?_⟩
  subst hid
  obtain ⟨⟨start, len⟩, t, hn, ht, hle⟩ := wp_false_iff.mp
    (fsNormslice_slice (s := s) req.offset req.len hm)
  rw [ht] at hn
  refine ⟨start, len, hn, ?_⟩
  have hbytes : (v.buf.drop start).take len = (List.range' start len).map fun i => (lastWritten ws i).getD 0 := by
    refine List.ext_getElem? fun i => ?_
    simp only [List.getElem?_take, List.getElem?_drop, List.getElem?_map]
    by_cases hi : i < len
    case neg => simp [hi]
    case pos =>
      obtain ⟨b, hb, hl⟩ := hf.byte (start + i) (lt_of_lt_of_le (Nat.add_lt_add_left hi start) hle)
      simp [hi, hb, hl]
  have hserve : wp (serve alloc req) (fun r t => r = .bytes ((v.buf.drop start).take len) ∧ t = s)
      (fun _ => False) s := by
    simp only [serve, ho, nodeRead, wp_bind, wp_getNode, hv, Option.elim_some, hd, Bool.false_eq_true, if_false,
      wp_iff_of_ok hn, wp_pure]
    exact ⟨trivial, trivial⟩
  obtain ⟨_, _, hr, rfl, rfl⟩ := wp_false_iff.mp hserve
  rw [hr, hbytes]

-- A file which was written once.
theorem history_reads_once : ∃ s v, Reads s 1 [⟨0, [97, 98], false⟩] v ∧ s.get 1 = some v := by
  have h₀ : History NoGap 1 init [] := .init
  have h₁ := @History.other _ _ _ _ file ⟨.OPEN, 0, [slash, 97], 0, 0, OPEN_RW ||| OPEN_CREATE⟩ _ _ h₀
    (fun h => nomatch h) rfl
  have h₂ := @History.write _ _ _ _ _ ⟨.WRITE, 1, [97, 98], 0, 0, 0⟩ _ _ file _ _ h₁ rfl rfl rfl rfl
    (le_refl (0 : Int)) rfl rfl
  exact ⟨_, _, history_reads h₂ rfl rfl, rfl⟩

set_option maxRecDepth 4000 in
-- The first write is cut off by an empty one. The next one starts behind the end, and the byte before it
-- is still the one that was cut off.
theorem read_gap : ∃ s v, History (fun _ _ => True) 1 s
      [⟨1, [99], false⟩, ⟨0, [], true⟩, ⟨0, [97, 98], false⟩] ∧
    s.get 1 = some v ∧ v.directory = false ∧
    serve file ⟨.READ, 1, [], 2, 0, 0⟩ s = .ok (.bytes [97, 99], s) ∧
    ¬Reads s 1 [⟨1, [99], false⟩, ⟨0, [], true⟩, ⟨0, [97, 98], false⟩] v := by
  have h₀ : History (fun _ _ => True) 1 init [] := .init
  have h₁ := @History.other _ _ _ _ file ⟨.OPEN, 0, [slash, 97], 0, 0, OPEN_RW ||| OPEN_CREATE⟩ _ _ h₀
    (fun h => nomatch h) rfl
  have h₂ := @History.write _ _ _ _ _ ⟨.WRITE, 1, [97, 98], 0, 0, 0⟩ _ _ file _ _ h₁ rfl rfl rfl rfl
    trivial rfl rfl
  have h₃ := @History.write _ _ _ _ _ ⟨.WRITE, 1, [], 0, 0, WRITE_TRUNCATE⟩ _ _ file _ _ h₂ rfl rfl rfl rfl
    trivial rfl rfl
  have h₄ := @History.write _ _ _ _ _ ⟨.WRITE, 1, [99], 0, 1, 0⟩ _ _ file _ _ h₃ rfl rfl rfl rfl
    trivial rfl rfl
  have hread {s : Heap Node} (hs : serve file ⟨.READ, 1, [], 2, 0, 0⟩ s = .ok (.bytes [97, 99], s)) {v : Node}
      (hv : v.size = 2) : ¬Reads s 1 [⟨1, [99], false⟩, ⟨0, [], true⟩, ⟨0, [97, 98], false⟩] v := fun h => by
    obtain ⟨start, len, hn, hr⟩ := h.read file ⟨.READ, 1, [], 2, 0, 0⟩ rfl rfl (by rw [hv]; decide)
    rw [hv] at hn
    obtain ⟨⟨rfl, rfl⟩, -⟩ : ((0, 2) : ℕ × ℕ) = (start, len) ∧ s = s := by simpa using Except.ok.inj hn
    have hbytes := Reply.bytes.inj (Prod.mk.inj (Except.ok.inj (hs.symm.trans hr))).1
    exact absurd hbytes (by decide)
  exact ⟨_, _, h₄, rfl, rfl, rfl, hread rfl rfl⟩

end History
end Camellia.Tmpfs
