import Camellia.Cmd.Net.TcpStream

namespace Camellia.Net

open Tcp

-- The bytes which the reads of a handle returned.
def readBytes (h : ℕ) (log : List TcpEvent) : List UInt8 :=
  log.flatMap fun
    | .read h' _ bytes => if h' = h then bytes else []
    | _                => []

-- The reads of a handle returned what its connection got before a FIN.
def Returned (h : ℕ) (log : List TcpEvent) : Prop :=
  ∀ c q, .opened h c q ∈ log → ∀ pre post, log = pre ++ .fin c :: post → storedBytes c pre <+: readBytes h log

-- This is the case whenever a read fails.
def Readable (log : List TcpEvent) : Prop :=
  ∀ pre post h q, log = pre ++ .connreset h q :: post → Returned h pre

-- How many bytes the read takes which waits for the data of a connection.
def waiting (s : Tcp) (c h : ℕ) : ℕ :=
  (s.handles.get h).elim 0 fun w => if w.c = some c ∧ 0 ≤ w.reqh then min w.readcap 1024 else 0

def awaited (s : Tcp) (c : ℕ) (v : TcpConn) (seg : Segment) : ℕ :=
  if v.onRecv = true ∧ seg.payload ≠ [] then waiting s c v.carg else 0

-- The FIN of the segment is processed.
def TcpConn.Finishes (v : TcpConn) (seg : Segment) : Prop :=
  v.state ≠ .SYN_SENT ∧ ¬(v.state = .LISTEN ∧ seg.flags &&& FlagAll = FlagSYN) ∧
    ¬(seg.has FlagACK = true ∧ v.state = .LAST_ACK) ∧ v.InSequence seg ∧ seg.has FlagFIN = true

-- The condition: a FIN for an open connection leaves nothing in the ring.
def Drained (s : Tcp) (i : TcpInput) : Prop :=
  ∀ buf ip seg c v, i = .segment buf ip → tcpSegment buf ip = some seg → receiver s seg = some c →
    s.conns.get c = some v → v.uclosed = false → v.Finishes seg →
    v.rx.used + (v.rx.fitting seg.payload).length ≤ awaited s c v seg

-- Events which are not about bytes, and do not link a handle.
def TcpEvent.Idle : TcpEvent → Prop
  | stored .. | fin _ | opened .. | read .. | connreset .. => False
  | _                                                      => True

-- The handles are linked to open connections, whose bytes are either in the ring or were read.
structure Reading (s : Tcp) : Prop where
  readable : Readable s.log
  live     : ∀ h w c, s.handles.get h = some w → w.c = some c →
               ∃ v, s.conns.get c = some v ∧ v.carg = h ∧ v.Past ∧ v.uclosed = false
  past     : ∀ c v, s.conns.get c = some v → v.uclosed = true → v.Past
  cargs    : ∀ c v, s.conns.get c = some v → v.carg < s.handles.size
  inj      : ∀ c c' v v', s.conns.get c = some v → s.conns.get c' = some v' → v.carg = v'.carg → c = c'
  opened   : ∀ h c q, .opened h c q ∈ s.log →
               h < s.handles.size ∧ ∀ w, s.handles.get h = some w → w.c = some c
  bytes    : ∀ c v, s.conns.get c = some v → v.uclosed = false →
               readBytes v.carg s.log ++ v.rx.contents = storedBytes c s.log
  fins     : ∀ c v, s.conns.get c = some v → v.uclosed = false → ∀ pre post, s.log = pre ++ .fin c :: post →
               storedBytes c pre <+: readBytes v.carg s.log
  unstored : ∀ c, s.conns.size ≤ c → storedBytes c s.log = []
  unread   : ∀ h, s.handles.size ≤ h → readBytes h s.log = []

-- The same handles are linked to the same connections.
structure Shape (s t : Tcp) : Prop where
  conns   : ∀ c v', t.conns.get c = some v' → ∃ v, s.conns.get c = some v ∧
              v'.carg = v.carg ∧ v'.uclosed = v.uclosed ∧ (v.Past → v'.Past)
  live    : ∀ c v, s.conns.get c = some v → ∃ v', t.conns.get c = some v'
  size    : t.conns.size = s.conns.size
  handles : ∀ h w', t.handles.get h = some w' → ∃ w, s.handles.get h = some w ∧ w'.c = w.c
  hsize   : t.handles.size = s.handles.size

-- The bytes stay where they are as well.
structure Idle (s t : Tcp) : Prop extends Shape s t where
  rx  : ∀ c v v', s.conns.get c = some v → t.conns.get c = some v' → v'.rx.contents = v.rx.contents
  log : ∃ es, t.log = s.log ++ es ∧ ∀ e ∈ es, e.Idle

section Idle

variable {s t u : Tcp} {c h : ℕ} {v v' : TcpConn} {w w' : TcpHandle} {e : TcpEvent} {flags : UInt16}
variable {buf bytes : List UInt8} {seg : Segment} {reqh : Int} {log es : List TcpEvent}

theorem readBytes_append : readBytes h (log ++ es) = readBytes h log ++ readBytes h es := by
  simp [readBytes]

theorem readBytes_eq_nil (es : List TcpEvent) (hn : ∀ e ∈ es, ∀ q bytes, e ≠ .read h q bytes) : readBytes h es = [] := by
  refine List.flatMap_eq_nil_iff.mpr fun e he => ?_
  have hn := hn e he
  cases e
  case read h' q bytes => exact if_neg fun hh => hn q bytes (by rw [hh])
  all_goals rfl

theorem storedBytes_idle (log : List TcpEvent) (he : ∀ e ∈ es, e.Idle) : storedBytes c (log ++ es) = storedBytes c log := by
  rw [storedBytes_append, storedBytes_eq_nil es ?_, List.append_nil]
  rintro e hm bytes rfl
  exact he _ hm

theorem readBytes_idle (log : List TcpEvent) (he : ∀ e ∈ es, e.Idle) : readBytes h (log ++ es) = readBytes h log := by
  rw [readBytes_append, readBytes_eq_nil es ?_, List.append_nil]
  rintro e hm q bytes rfl
  exact he _ hm

theorem Shape.refl : Shape s s :=
  ⟨fun _ v hv => ⟨v, hv, rfl, rfl, id⟩, fun _ v hv => ⟨v, hv⟩, rfl, fun _ w hw => ⟨w, hw, rfl⟩, rfl⟩

theorem Shape.trans (h₁ : Shape s t) (h₂ : Shape t u) : Shape s u where
  conns c v'' hv'' := by
    have ⟨v', hv', hc', hu', hp'⟩ := h₂.conns c v'' hv''
    have ⟨v, hv, hc, hu, hp⟩ := h₁.conns c v' hv'
    exact ⟨v, hv, hc'.trans hc, hu'.trans hu, hp' ∘ hp⟩
  live c v hv := by
    have ⟨v', hv'⟩ := h₁.live c v hv
    exact h₂.live c v' hv'
  size := h₂.size.trans h₁.size
  handles h w'' hw'' := by
    have ⟨w', hw', hc'⟩ := h₂.handles h w'' hw''
    have ⟨w, hw, hc⟩ := h₁.handles h w' hw'
    exact ⟨w, hw, hc'.trans hc⟩
  hsize := h₂.hsize.trans h₁.hsize

theorem Shape.emit : Shape s (s.emit e) :=
  { Shape.refl with }

theorem Shape.setConn (hc : s.conns.get c = some v)
    (ha : v'.carg = v.carg ∧ v'.uclosed = v.uclosed ∧ (v.Past → v'.Past)) : Shape s (s.setConn c v') := by
  refine { Shape.refl with conns := fun c' x hx => ?_, live := fun c' x hx => ?_, size := Heap.size_set }
  · rw [Tcp.setConn, Heap.get_set hc] at hx
    split at hx
    case isTrue he =>
      obtain rfl := Option.some.inj hx
      exact ⟨v, he ▸ hc, ha⟩
    case isFalse => exact ⟨x, hx, rfl, rfl, id⟩
  · rw [Tcp.setConn, Heap.get_set hc]
    split
    · exact ⟨_, rfl⟩
    · exact ⟨x, hx⟩

theorem Shape.setHandle (hw : s.handles.get h = some w) (hc : w'.c = w.c) : Shape s (s.setHandle h w') := by
  refine { Shape.refl with handles := fun h' x hx => ?_, hsize := Heap.size_set }
  rw [Tcp.setHandle, Heap.get_set hw] at hx
  split at hx
  case isTrue he =>
    obtain rfl := Option.some.inj hx
    exact ⟨w, he ▸ hw, hc⟩
  case isFalse => exact ⟨x, hx, rfl⟩

-- The same connections, without any event.
theorem Shape.idle (hs : Shape s t) (hc : t.conns = s.conns) (hl : t.log = s.log) : Idle s t where
  toShape := hs
  rx c v v' hv hv' := by
    rw [hc] at hv'
    rw [Option.some.inj (hv.symm.trans hv')]
  log := ⟨[], by simp [hl], by simp⟩

theorem Idle.refl : Idle s s :=
  Shape.refl.idle rfl rfl

theorem Idle.trans (h₁ : Idle s t) (h₂ : Idle t u) : Idle s u where
  toShape := h₁.toShape.trans h₂.toShape
  rx c v v'' hv hv'' := by
    have ⟨v', hv', _⟩ := h₂.conns c v'' hv''
    exact (h₂.rx c v' v'' hv' hv'').trans (h₁.rx c v v' hv hv')
  log := by
    have ⟨es₁, hl₁, hn₁⟩ := h₁.log
    have ⟨es₂, hl₂, hn₂⟩ := h₂.log
    refine ⟨es₁ ++ es₂, by rw [hl₂, hl₁, List.append_assoc], fun e he => ?_⟩
    exact (List.mem_append.mp he).elim (hn₁ e) (hn₂ e)

theorem Idle.crash : Idle s s.crash :=
  { Idle.refl with }

theorem Idle.emit (he : e.Idle) : Idle s (s.emit e) :=
  { Idle.refl with log := ⟨[e], rfl, by simpa using he⟩ }

theorem Idle.emits (hi : Idle s t) (he : e.Idle) : Idle s (t.emit e) :=
  hi.trans (.emit he)

theorem Idle.setConn (hc : s.conns.get c = some v)
    (ha : v'.carg = v.carg ∧ v'.uclosed = v.uclosed ∧ (v.Past → v'.Past)) (hr : v'.rx.contents = v.rx.contents) :
    Idle s (s.setConn c v') where
  toShape := .setConn hc ha
  rx c' x x' hx hx' := by
    rw [Tcp.setConn, Heap.get_set hc] at hx'
    split at hx'
    case isTrue he =>
      obtain rfl := Option.some.inj hx'
      rw [hr, Option.some.inj (hx.symm.trans (he ▸ hc))]
    case isFalse => rw [Option.some.inj (hx.symm.trans hx')]
  log := ⟨[], by simp [Tcp.setConn], by simp⟩

theorem Idle.setHandle (hw : s.handles.get h = some w) (hc : w'.c = w.c) : Idle s (s.setHandle h w') :=
  (Shape.setHandle hw hc).idle rfl rfl

theorem Idle.withConn {f : TcpConn → Tcp} (hf : ∀ v, s.conns.get c = some v → Idle s (f v)) :
    Idle s (s.withConn c f) := by
  unfold Tcp.withConn
  cases hc : s.conns.get c
  case none   => exact .crash
  case some v => exact hf v hc

theorem tcpcSendraw_idle : Idle s (tcpcSendraw s c flags buf) := by
  refine .withConn fun _ hc => ?_
  exact Idle.emits (.setConn hc ⟨rfl, rfl, id⟩ rfl) trivial

end Idle

section Reading

variable {s t u : Tcp} {c h : ℕ} {v v' : TcpConn} {w w' : TcpHandle} {e : TcpEvent} {flags : UInt16}
variable {buf bytes : List UInt8} {seg : Segment} {reqh : Int} {log es : List TcpEvent}

theorem readable_snoc : Readable (log ++ [e]) ↔ Readable log ∧ ∀ h q, e = .connreset h q → Returned h log := by
  constructor
  · refine fun hr => ⟨fun pre post h q hl => ?_, fun h q he => ?_⟩
    · exact hr pre (post ++ [e]) h q (by simp [hl])
    · exact hr log [] h q (by simp [he])
  · rintro ⟨hr, he⟩ pre post h q hl
    obtain rfl | ⟨post', e', rfl⟩ := post.eq_nil_or_concat
    · obtain ⟨rfl, he'⟩ := List.append_inj' hl rfl
      exact he h q (List.singleton_inj.mp he')
    · rw [List.concat_eq_append, ← List.cons_append, ← List.append_assoc] at hl
      obtain ⟨rfl, _⟩ := List.append_inj' hl rfl
      exact hr pre post' h q rfl

theorem readable_append (hr : Readable log) (he : ∀ e ∈ es, ∀ h q, e ≠ .connreset h q) :
    Readable (log ++ es) := by
  induction es generalizing log
  case nil => simpa using hr
  case cons e es hi =>
    rw [show log ++ e :: es = log ++ [e] ++ es by simp]
    refine hi (readable_snoc.mpr ⟨hr, fun h q hc => ?_⟩) fun e' he' => he e' (List.mem_cons_of_mem e he')
    exact absurd hc (he e (by simp) h q)

-- An old FIN stays where it is.
theorem fin_mem_left (es : List TcpEvent) {pre post : List TcpEvent} (hn : .fin c ∉ es) (hl : log ++ es = pre ++ .fin c :: post) :
    ∃ post', log = pre ++ .fin c :: post' := by
  obtain ⟨pre', _, rfl⟩ | ⟨post', rfl, hp⟩ := List.append_eq_append_iff.mp hl
  · simp at hn
  · cases post'
    case nil =>
      simp only [List.nil_append] at hp
      simp [← hp] at hn
    case cons e post' =>
      obtain ⟨rfl, rfl⟩ := List.cons_eq_cons.mp hp
      exact ⟨post', rfl⟩

-- A change which leaves the links as they are, where the bytes are accounted for.
theorem Reading.shape (hr : Reading s) (hs : Shape s t) (hl : t.log = s.log ++ es)
    (hes : ∀ e ∈ es, ∀ h c q, e ≠ .opened h c q) (hreadable : Readable t.log)
    (hbytes : ∀ c v v', s.conns.get c = some v → t.conns.get c = some v' → v.uclosed = false →
      readBytes v.carg t.log ++ v'.rx.contents = storedBytes c t.log)
    (hfins : ∀ c v v', s.conns.get c = some v → t.conns.get c = some v' → v.uclosed = false →
      ∀ pre post, t.log = pre ++ .fin c :: post → storedBytes c pre <+: readBytes v.carg t.log)
    (hunstored : ∀ c, s.conns.size ≤ c → storedBytes c es = [])
    (hunread : ∀ h, s.handles.size ≤ h → readBytes h es = []) : Reading t where
  readable := hreadable
  live h w' c hw' hc := by
    have ⟨w, hw, hwc⟩ := hs.handles h w' hw'
    have ⟨v, hv, hcarg, hp, hu⟩ := hr.live h w c hw (hwc ▸ hc)
    have ⟨v', hv'⟩ := hs.live c v hv
    have ⟨x, hx, hcarg', hu', hp'⟩ := hs.conns c v' hv'
    obtain rfl := Option.some.inj (hv.symm.trans hx)
    exact ⟨v', hv', hcarg'.trans hcarg, hp' hp, hu'.trans hu⟩
  past c v' hv' hu' := by
    have ⟨v, hv, _, hu, hp⟩ := hs.conns c v' hv'
    exact hp (hr.past c v hv (hu ▸ hu'))
  cargs c v' hv' := by
    have ⟨v, hv, hcarg, _⟩ := hs.conns c v' hv'
    rw [hcarg, hs.hsize]
    exact hr.cargs c v hv
  inj c₁ c₂ v₁' v₂' hv₁' hv₂' he := by
    have ⟨v₁, hv₁, hcarg₁, _⟩ := hs.conns c₁ v₁' hv₁'
    have ⟨v₂, hv₂, hcarg₂, _⟩ := hs.conns c₂ v₂' hv₂'
    exact hr.inj c₁ c₂ v₁ v₂ hv₁ hv₂ (by rw [← hcarg₁, ← hcarg₂, he])
  opened h c q hm := by
    rw [hl, List.mem_append] at hm
    have ⟨hlt, ho⟩ := hr.opened h c q (hm.elim id fun hm => absurd rfl (hes _ hm h c q))
    refine ⟨hs.hsize ▸ hlt, fun w' hw' => ?_⟩
    have ⟨w, hw, hwc⟩ := hs.handles h w' hw'
    exact hwc.trans (ho w hw)
  bytes c v' hv' hu' := by
    have ⟨v, hv, hcarg, hu, _⟩ := hs.conns c v' hv'
    exact hcarg ▸ hbytes c v v' hv hv' (hu ▸ hu')
  fins c v' hv' hu' := by
    have ⟨v, hv, hcarg, hu, _⟩ := hs.conns c v' hv'
    exact hcarg ▸ hfins c v v' hv hv' (hu ▸ hu')
  unstored c hc := by
    rw [hl, storedBytes_append, hr.unstored c (hs.size ▸ hc), hunstored c (hs.size ▸ hc), List.nil_append]
  unread h hh := by
    rw [hl, readBytes_append, hr.unread h (hs.hsize ▸ hh), hunread h (hs.hsize ▸ hh), List.nil_append]

theorem Reading.idle (hr : Reading s) (hs : Idle s t) : Reading t := by
  have ⟨es, hl, hes⟩ := hs.log
  refine hr.shape hs.toShape hl ?_ ?_ (fun c v v' hv hv' hu => ?_) (fun c v v' hv hv' hu pre post hp => ?_) ?_ ?_
  · rintro e he h c q rfl
    exact hes _ he
  · refine hl ▸ readable_append hr.readable fun e he h q hc => ?_
    exact (hc ▸ hes e he : TcpEvent.Idle (.connreset h q))
  · rw [hl, readBytes_idle _ hes, storedBytes_idle _ hes, hs.rx c v v' hv hv', hr.bytes c v hv hu]
  · rw [hl] at hp
    have ⟨post', hp'⟩ := fin_mem_left _ (fun hm => hes _ hm) hp
    rw [hl, readBytes_idle _ hes]
    exact hr.fins c v hv hu pre post' hp'
  · intro c _
    simpa [storedBytes] using storedBytes_idle (c := c) [] hes
  · intro h _
    simpa [readBytes] using readBytes_idle (h := h) [] hes

-- Bytes are put into the ring of a connection.
theorem Reading.store (hr : Reading s) (hc : s.conns.get c = some v)
    (ha : v'.carg = v.carg ∧ v'.uclosed = v.uclosed ∧ (v.Past → v'.Past))
    (hrx : v'.rx.contents = v.rx.contents ++ bytes) : Reading ((s.setConn c v').emit (.stored c bytes)) := by
  have hlog : ((s.setConn c v').emit (.stored c bytes)).log = s.log ++ [.stored c bytes] := rfl
  have hread : ∀ h, readBytes h ((s.setConn c v').emit (.stored c bytes)).log = readBytes h s.log := by
    simp [hlog, readBytes]
  have hstored : ∀ c', storedBytes c' ((s.setConn c v').emit (.stored c bytes)).log =
      storedBytes c' s.log ++ if c = c' then bytes else [] := by
    simp [hlog, storedBytes]
  refine hr.shape ((Shape.setConn hc ha).trans .emit) hlog (by simp) ?_ ?_ ?_ ?_ (by simp [readBytes])
  · exact readable_append hr.readable (by simp)
  · intro c' x x' hx hx' hu
    rw [hread, hstored, ← hr.bytes c' x hx hu]
    rw [Tcp.emit, Tcp.setConn, Heap.get_set hc] at hx'
    split at hx'
    case isTrue he =>
      obtain rfl := Option.some.inj hx'
      rw [if_pos he.symm, hrx, Option.some.inj (hx.symm.trans (he ▸ hc)), List.append_assoc]
    case isFalse he =>
      rw [if_neg (Ne.symm he), Option.some.inj (hx.symm.trans hx'), List.append_nil]
  · intro c' x _ hx _ hu pre post hp
    obtain ⟨post', hp'⟩ := fin_mem_left [.stored c bytes] (by simp) hp
    rw [hread]
    exact hr.fins c' x hx hu pre post' hp'
  · intro c' hc'
    have hne : c ≠ c' := (Heap.lt_size hc).trans_le hc' |>.ne
    simp [storedBytes, hne]

-- A read takes bytes out of the ring of the connection of its handle.
theorem Reading.read (hr : Reading s) (hc : s.conns.get c = some v) (hw : s.handles.get v.carg = some w)
    (ha : v'.carg = v.carg ∧ v'.uclosed = v.uclosed ∧ (v.Past → v'.Past)) (hwc : w'.c = w.c)
    (hrx : v.rx.contents = bytes ++ v'.rx.contents) :
    Reading (((s.setConn c v').setHandle v.carg w').emit (.read v.carg reqh bytes)) := by
  have hlog : (((s.setConn c v').setHandle v.carg w').emit (.read v.carg reqh bytes)).log =
      s.log ++ [.read v.carg reqh bytes] := rfl
  have hread : ∀ h, readBytes h (((s.setConn c v').setHandle v.carg w').emit (.read v.carg reqh bytes)).log =
      readBytes h s.log ++ if v.carg = h then bytes else [] := by
    simp [hlog, readBytes]
  have hstored : ∀ c', storedBytes c' (((s.setConn c v').setHandle v.carg w').emit
      (.read v.carg reqh bytes)).log = storedBytes c' s.log := by
    simp [hlog, storedBytes]
  have hshape := ((Shape.setConn hc ha).trans (@Shape.setHandle _ _ _ w' hw hwc)).trans
    (.emit (e := .read v.carg reqh bytes))
  refine hr.shape hshape hlog (by simp) ?_ ?_ ?_ (by simp [storedBytes]) ?_
  · exact readable_append hr.readable (by simp)
  · intro c' x x' hx hx' hu
    rw [hread, hstored, ← hr.bytes c' x hx hu]
    rw [Tcp.emit, Tcp.setHandle, Tcp.setConn, Heap.get_set hc] at hx'
    split at hx'
    case isTrue he =>
      obtain rfl := Option.some.inj hx'
      obtain rfl := Option.some.inj (hx.symm.trans (he ▸ hc))
      rw [if_pos rfl, hrx, List.append_assoc]
    case isFalse he =>
      obtain rfl := Option.some.inj (hx.symm.trans hx')
      rw [if_neg fun hcarg => he (hr.inj c' c x v hx hc hcarg.symm), List.append_nil]
  · intro c' x _ hx _ hu pre post hp
    obtain ⟨post', hp'⟩ := fin_mem_left [.read v.carg reqh bytes] (by simp) hp
    rw [hread]
    exact (hr.fins c' x hx hu pre post' hp').trans (List.prefix_append _ _)
  · intro h hh
    have hne : v.carg ≠ h := ((hr.cargs c v hc).trans_le hh).ne
    simp [readBytes, hne]

-- A FIN for a connection of which everything was read.
theorem Reading.fin (hr : Reading s)
    (hd : ∀ v, s.conns.get c = some v → v.uclosed = false → v.rx.contents = []) : Reading (s.emit (.fin c)) := by
  have hlog : (s.emit (.fin c)).log = s.log ++ [.fin c] := rfl
  have hread : ∀ h, readBytes h (s.emit (.fin c)).log = readBytes h s.log := by simp [hlog, readBytes]
  have hstored : ∀ c', storedBytes c' (s.emit (.fin c)).log = storedBytes c' s.log := by
    simp [hlog, storedBytes]
  refine hr.shape .emit hlog (by simp) ?_ ?_ ?_ (by simp [storedBytes]) (by simp [readBytes])
  · exact readable_append hr.readable (by simp)
  · intro c' x x' hx hx' hu
    rw [hread, hstored, ← hr.bytes c' x hx hu, Option.some.inj (hx.symm.trans hx')]
  · intro c' x _ hx _ hu pre post hp
    rw [hread]
    obtain rfl | ⟨post', e', rfl⟩ := post.eq_nil_or_concat
    · obtain ⟨rfl, he⟩ := List.append_inj' hp rfl
      obtain rfl := TcpEvent.fin.inj (List.singleton_inj.mp he)
      have heq : storedBytes c s.log = readBytes x.carg s.log := by
        rw [← hr.bytes c x hx hu, hd x hx hu, List.append_nil]
      exact heq ▸ List.prefix_rfl
    · rw [List.concat_eq_append, ← List.cons_append, ← List.append_assoc, hlog] at hp
      obtain ⟨hp', _⟩ := List.append_inj' hp rfl
      exact hr.fins c' x hx hu pre post' hp'

theorem Reading.returned (hr : Reading s) (hw : s.handles.get h = some w) : Returned h s.log := by
  intro c q ho pre post hl
  have ⟨v, hv, hcarg, _, hu⟩ := hr.live h w c hw ((hr.opened h c q ho).right w hw)
  exact hcarg ▸ hr.fins c v hv hu pre post hl

-- A read fails.
theorem Reading.reset (hr : Reading s) (hw : s.handles.get h = some w) : Reading (s.emit (.connreset h reqh)) := by
  have hlog : (s.emit (.connreset h reqh)).log = s.log ++ [.connreset h reqh] := rfl
  have hread : ∀ h', readBytes h' (s.emit (.connreset h reqh)).log = readBytes h' s.log := by
    simp [hlog, readBytes]
  have hstored : ∀ c, storedBytes c (s.emit (.connreset h reqh)).log = storedBytes c s.log := by
    simp [hlog, storedBytes]
  refine hr.shape .emit hlog (by simp) ?_ ?_ ?_ (by simp [storedBytes]) (by simp [readBytes])
  · refine readable_snoc.mpr ⟨hr.readable, fun h' q he => ?_⟩
    rw [← (TcpEvent.connreset.inj he).left]
    exact hr.returned hw
  · intro c x x' hx hx' hu
    rw [hread, hstored, ← hr.bytes c x hx hu, Option.some.inj (hx.symm.trans hx')]
  · intro c x _ hx _ hu pre post hp
    obtain ⟨post', hp'⟩ := fin_mem_left [.connreset h reqh] (by simp) hp
    rw [hread]
    exact hr.fins c x hx hu pre post' hp'

-- A handle is linked to its connection.
theorem tcpConnCallback_reading (hr : Reading s) (hc : s.conns.get c = some v) (hp : v.Past)
    (hu : v.uclosed = false) : Reading (tcpConnCallback s c v.carg) := by
  unfold tcpConnCallback Tcp.withHandle
  cases hw : s.handles.get v.carg
  case none => exact hr.idle .crash
  case some w =>
    dsimp only [Option.elim]
    generalize hw' : ({ w with c := some c, reqh := -1 } : TcpHandle) = w'
    have hwc : w'.c = some c := by rw [← hw']
    have hlog : ((s.setHandle v.carg w').emit (.opened v.carg c w.reqh)).log =
        s.log ++ [.opened v.carg c w.reqh] := rfl
    have hread : ∀ h, readBytes h ((s.setHandle v.carg w').emit (.opened v.carg c w.reqh)).log =
        readBytes h s.log := by simp [hlog, readBytes]
    have hstored : ∀ c', storedBytes c' ((s.setHandle v.carg w').emit (.opened v.carg c w.reqh)).log =
        storedBytes c' s.log := by simp [hlog, storedBytes]
    exact {
      readable := readable_append hr.readable (by simp)
      live := fun h x c' hx hxc => by
        rw [Tcp.emit, Tcp.setHandle, Heap.get_set hw] at hx
        split at hx
        case isTrue he =>
          obtain rfl := Option.some.inj hx
          obtain rfl := Option.some.inj (hwc.symm.trans hxc)
          exact ⟨v, hc, he.symm, hp, hu⟩
        case isFalse => exact hr.live h x c' hx hxc
      past   := hr.past
      cargs  := fun c' x hx => by simpa [Tcp.emit, Tcp.setHandle] using hr.cargs c' x hx
      inj    := hr.inj
      opened := fun h c' q hm => by
        simp only [hlog, List.mem_append, List.mem_singleton, TcpEvent.opened.injEq] at hm
        obtain hm | ⟨rfl, rfl, -⟩ := hm
        · obtain ⟨hlt, ho⟩ := hr.opened h c' q hm
          refine ⟨by simpa [Tcp.emit, Tcp.setHandle] using hlt, fun x hx => ?_⟩
          rw [Tcp.emit, Tcp.setHandle, Heap.get_set hw] at hx
          split at hx
          case isFalse => exact ho x hx
          case isTrue he =>
            -- The handle was linked before, so its connection is the same.
            subst he
            obtain ⟨v', hv', hcarg, _⟩ := hr.live v.carg w c' hw (ho w hw)
            rw [← Option.some.inj hx, hwc, hr.inj c c' v v' hc hv' hcarg.symm]
        · refine ⟨by simpa [Tcp.emit, Tcp.setHandle] using hr.cargs c' v hc, fun x hx => ?_⟩
          rw [Tcp.emit, Tcp.setHandle, Heap.get_set_self hw] at hx
          rw [← Option.some.inj hx, hwc]
      bytes  := fun c' x hx hux => by rw [hread, hstored, hr.bytes c' x hx hux]
      fins   := fun c' x hx hux pre post hp => by
        obtain ⟨post', hp'⟩ := fin_mem_left [.opened v.carg c w.reqh] (by simp) hp
        rw [hread]
        exact hr.fins c' x hx hux pre post' hp'
      unstored := fun c' hc' => by rw [hstored, hr.unstored c' hc']
      unread := fun h hh => by
        rw [hread, hr.unread h (by simpa [Tcp.emit, Tcp.setHandle] using hh)] }

theorem tcpRecvCallback_reading (hr : Reading s) : Reading (tcpRecvCallback s h) := by
  unfold tcpRecvCallback Tcp.withHandle
  cases hw : s.handles.get h
  case none => exact hr.idle .crash
  case some w =>
    dsimp only [Option.elim]
    split
    case isFalse => exact hr
    case isTrue =>
      cases hwc : w.c
      case none => exact hr.idle .crash
      case some c =>
        have ⟨v, hc, hcarg, _⟩ := hr.live h w c hw hwc
        subst hcarg
        simp only [Tcp.withConn, hc, Option.elim]
        have hcontents : (v.rx.get (min w.readcap 1024)).1 ++ (v.rx.get (min w.readcap 1024)).2.contents =
            v.rx.contents := by
          rw [Ring.get_fst, Ring.contents_get, List.take_append_drop]
        split
        case isTrue => exact hr.read hc hw ⟨rfl, rfl, id⟩ hwc.symm hcontents.symm
        case isFalse he =>
          rw [not_not.mp he, List.nil_append] at hcontents
          have hi : Idle s (s.setConn c { v with rx := (v.rx.get (min w.readcap 1024)).2 }) :=
            .setConn hc ⟨rfl, rfl, id⟩ hcontents
          refine hr.idle (hi.trans (.setHandle hw ?_))
          exact hwc.symm

theorem tcpCloseCallback_reading (hr : Reading s) : Reading (tcpCloseCallback s h) := by
  unfold tcpCloseCallback Tcp.withHandle
  cases hw : s.handles.get h
  case none => exact hr.idle .crash
  case some w =>
    dsimp only [Option.elim]
    split
    · exact (hr.idle (@Idle.setHandle _ _ _ { w with dead := true, reqh := -1 } hw rfl)).reset (Heap.get_set_self hw)
    · exact hr.idle (.setHandle hw rfl)

theorem onConn_reading (hr : Reading s) (hc : ∀ v, s.conns.get c = some v → v.Past ∧ v.uclosed = false) :
    Reading (onConn s c) := by
  unfold onConn Tcp.withConn
  cases hv : s.conns.get c
  case none => exact hr.idle .crash
  case some v =>
    dsimp only [Option.elim]
    split
    · exact tcpConnCallback_reading (hr.idle (.emit trivial)) hv (hc v hv).left (hc v hv).right
    · exact hr

theorem onRecv_reading (hr : Reading s) : Reading (onRecv s c) := by
  unfold onRecv Tcp.withConn
  cases s.conns.get c
  case none => exact hr.idle .crash
  case some v =>
    dsimp only [Option.elim]
    split
    · exact tcpRecvCallback_reading (hr.idle (.emit trivial))
    · exact hr

theorem onClose_reading (hr : Reading s) : Reading (onClose s c) := by
  unfold onClose Tcp.withConn
  cases s.conns.get c
  case none => exact hr.idle .crash
  case some v =>
    dsimp only [Option.elim]
    split
    · exact tcpCloseCallback_reading (hr.idle (.emit trivial))
    · exact hr

theorem withConn_lseq_idle : Idle s (s.withConn c fun v => s.setConn c { v with lseq := v.lseq + 1 }) :=
  .withConn fun _ hv => .setConn hv ⟨rfl, rfl, id⟩ rfl

theorem Alike.open {v v' : TcpConn} (ha : Alike v v') (h : v.Past ∧ v.uclosed = false) :
    v'.Past ∧ v'.uclosed = false :=
  ⟨ha.past.mpr h.left, ha.uclosed.trans h.right⟩

-- A connection which has not finished its handshake was not closed.
theorem Reading.open (hr : Reading s) (hc : s.conns.get c = some v) (hp : ¬v.Past) : v.uclosed = false :=
  Bool.eq_false_iff.mpr fun hu => hp (hr.past c v hc hu)

theorem tcpAccept_reading (hr : Reading s) (hc : s.conns.get c = some v) (hs : v.state = .LISTEN) :
    Reading (tcpAccept s c v seg) := by
  have hu := hr.open hc fun hp => hp.left hs
  unfold tcpAccept
  generalize hv' : { v with
    state := .SYN_RCVD, rip := seg.src, rport := seg.srcport, lack := seg.seq + 1, rmac := seg.mac } = v'
  have hp : v'.Past ∧ v'.uclosed = false := by simp [← hv', TcpConn.Past, hu]
  have hi : Idle s (s.setConn c v') := .setConn hc (by simp [← hv', TcpConn.Past]) (by simp [← hv'])
  have hk := (@tcpcSendraw_keeps (s.setConn c v') c (FlagSYN ||| FlagACK) []).trans
    (withConn_lseq_keeps (c := c))
  refine onConn_reading (hr.idle (hi.trans (tcpcSendraw_idle.trans withConn_lseq_idle))) ?_
  exact hk.forall (fun _ _ ha => ha.open) (forall_setConn hc hp)

theorem tcpConnected_reading (hr : Reading s) (hc : s.conns.get c = some v) (hs : v.state = .SYN_SENT) :
    Reading (tcpConnected s c v seg) := by
  have hu := hr.open hc fun hp => hp.right hs
  unfold tcpConnected
  generalize hv' : { v with state := .ESTABILISHED, lack := seg.seq + 1 } = v'
  have hp : v'.Past ∧ v'.uclosed = false := by simp [← hv', TcpConn.Past, hu]
  have hi : Idle s (s.setConn c v') := .setConn hc (by simp [← hv', TcpConn.Past]) (by simp [← hv'])
  have hk : Keeps (s.setConn c v') (tcpcSendraw (s.setConn c v') c FlagACK []) := tcpcSendraw_keeps
  refine onConn_reading (hr.idle (hi.trans tcpcSendraw_idle)) ?_
  exact hk.forall (fun _ _ ha => ha.open) (forall_setConn hc hp)

-- The callback does not leave more in a ring than there was, and takes what the waiting read asks for.
theorem tcpRecvCallback_drained (hc : s.conns.get c = some v) (hd : v.rx.used ≤ waiting s c h) :
    ∀ x, (tcpRecvCallback s h).conns.get c = some x → x.rx.contents = [] := by
  have hself : v.rx.used = 0 → ∀ x, s.conns.get c = some x → x.rx.contents = [] := by
    rintro hu x hx
    rw [← Option.some.inj (hc.symm.trans hx), ← List.length_eq_zero_iff, Ring.length_contents, hu]
  intro x hx
  unfold waiting at hd
  unfold tcpRecvCallback Tcp.withHandle at hx
  cases hw : s.handles.get h
  case none =>
    rw [hw] at hd hx
    exact hself (Nat.le_zero.mp hd) x hx
  case some w =>
    simp only [hw, Option.elim] at hd hx
    split at hx
    case isFalse hq => exact hself (by simpa [hq] using hd) x hx
    case isTrue hq =>
      cases hwc : w.c
      case none =>
        rw [hwc] at hd hx
        exact hself (by simpa using hd) x hx
      case some c' =>
        simp only [hwc, Option.some_inj, hq, and_true, Tcp.withConn] at hd hx
        cases hc' : s.conns.get c'
        case none =>
          rw [hc'] at hx
          rw [if_neg fun he => by simp [← he, hc'] at hc] at hd
          exact hself (Nat.le_zero.mp hd) x hx
        case some v' =>
          simp only [hc', Option.elim] at hx
          have hx' : (s.setConn c' { v' with rx := (v'.rx.get (min w.readcap 1024)).2 }).conns.get c = some x := by
            split at hx <;> exact hx
          rw [Tcp.setConn, Heap.get_set hc'] at hx'
          split at hx'
          case isTrue he =>
            subst he
            rw [if_pos rfl] at hd
            rw [← Option.some.inj hx', Ring.contents_get, List.drop_eq_nil_iff, Ring.length_contents,
              ← Option.some.inj (hc.symm.trans hc')]
            exact hd
          case isFalse he =>
            rw [if_neg (Ne.symm he)] at hd
            exact hself (Nat.le_zero.mp hd) x hx'

theorem onRecv_drained (hc : s.conns.get c = some v)
    (hd : v.rx.used ≤ if v.onRecv = true then waiting s c v.carg else 0) :
    ∀ x, (onRecv s c).conns.get c = some x → x.rx.contents = [] := by
  simp only [onRecv, Tcp.withConn, hc, Option.elim]
  split
  case isTrue ho =>
    rw [if_pos ho] at hd
    exact tcpRecvCallback_drained (s := s.emit (.callback c)) hc hd
  case isFalse ho =>
    rw [if_neg ho] at hd
    intro x hx
    rw [← Option.some.inj (hc.symm.trans hx), ← List.length_eq_zero_iff, Ring.length_contents]
    exact Nat.le_zero.mp hd

theorem tcpPayload_reading (hr : Reading s) (hc : s.conns.get c = some v) (ha : Alike v v')
    (hrx : v'.rx = v.rx) : Reading (tcpPayload s c v' seg) := by
  unfold tcpPayload
  have hs : Reading ((s.setConn c { v' with
      lack := seg.seq + UInt32.ofNat seg.payload.length, rx := v'.rx.put seg.payload }).emit
      (.stored c (v'.rx.fitting seg.payload))) := by
    refine hr.store hc ⟨ha.carg, ha.uclosed, ?_⟩ ?_
    · exact ha.past.mpr
    · rw [Ring.contents_put, hrx]
  exact (onRecv_reading hs).idle tcpcSendraw_idle

theorem Idle.drained (hi : Idle s t) (hd : ∀ x, s.conns.get c = some x → x.rx.contents = []) (x : TcpConn)
    (hx : t.conns.get c = some x) : x.rx.contents = [] := by
  have ⟨v, hv, _⟩ := hi.conns c x hx
  rw [hi.rx c v x hv hx, hd v hv]

theorem tcpPayload_drained (hc : s.conns.get c = some v)
    (hd : v'.rx.used + (v'.rx.fitting seg.payload).length ≤ if v'.onRecv = true then waiting s c v'.carg else 0) :
    ∀ x, (tcpPayload s c v' seg).conns.get c = some x → x.rx.contents = [] := by
  unfold tcpPayload
  refine tcpcSendraw_idle.drained (onRecv_drained (Heap.get_set_self hc) ?_)
  rw [← Ring.length_contents, Ring.contents_put, List.length_append, Ring.length_contents]
  exact hd

theorem tcpFin_reading (hr : Reading s)
    (hd : ∀ v, s.conns.get c = some v → v.uclosed = false → v.rx.contents = []) : Reading (tcpFin s c) := by
  unfold tcpFin
  have h₁ : Reading (tcpcSendraw s c (FlagFIN ||| FlagACK) []) := hr.idle tcpcSendraw_idle
  have hd₁ : ∀ v, (tcpcSendraw s c (FlagFIN ||| FlagACK) []).conns.get c = some v → v.uclosed = false →
      v.rx.contents = [] := by
    intro v hv hu
    have ⟨x, hx, _, hux, _⟩ := tcpcSendraw_idle.conns c v hv
    rw [tcpcSendraw_idle.rx c x v hx hv, hd x hx (hux ▸ hu)]
  generalize tcpcSendraw s c (FlagFIN ||| FlagACK) [] = s₁ at h₁ hd₁
  cases hv : s₁.conns.get c
  case none =>
    simp only [Tcp.withConn, hv, Option.elim]
    exact onClose_reading (h₁.idle .crash)
  case some v =>
    simp only [Tcp.withConn, hv, Option.elim]
    refine onClose_reading (Reading.fin (h₁.idle (.setConn hv ⟨rfl, rfl, ?_⟩ rfl)) ?_)
    · simp [TcpConn.Past]
    · exact forall_setConn (P := fun x => x.uclosed = false → x.rx.contents = []) hv (hd₁ v hv)

-- The connection of no handle is freed.
theorem tcpcTryfree_reading (hr : Reading s) : Reading (tcpcTryfree s c) := by
  unfold tcpcTryfree Tcp.withConn
  cases hc : s.conns.get c
  case none => exact hr.idle .crash
  case some v =>
    dsimp only [Option.elim]
    split
    case isFalse => exact hr
    case isTrue hf =>
      have hget : ∀ c' x, (s.conns.free c).get c' = some x → s.conns.get c' = some x := fun c' x hx => by
        rw [Heap.get_free] at hx
        split at hx
        · simp at hx
        · exact hx
      exact {
        readable := hr.readable
        live := fun h w c' hw hwc => by
          have ⟨x, hx, hl⟩ := hr.live h w c' hw hwc
          have hne : c' ≠ c := by
            rintro rfl
            rw [← Option.some.inj (hc.symm.trans hx), hf.right] at hl
            exact absurd hl.right.right (by simp)
          exact ⟨x, (Heap.get_free_ne hne).trans hx, hl⟩
        past     := fun c' x hx => hr.past c' x (hget c' x hx)
        cargs    := fun c' x hx => hr.cargs c' x (hget c' x hx)
        inj      := fun c₁ c₂ x y hx hy => hr.inj c₁ c₂ x y (hget c₁ x hx) (hget c₂ y hy)
        opened   := hr.opened
        bytes    := fun c' x hx => hr.bytes c' x (hget c' x hx)
        fins     := fun c' x hx => hr.fins c' x (hget c' x hx)
        unstored := fun c' hc' => hr.unstored c' (by simpa using hc')
        unread   := hr.unread }

theorem tcpReceive_reading (hr : Reading s) (hc : s.conns.get c = some v)
    (hd : v.uclosed = false → ¬(seg.has FlagACK = true ∧ v.state = .LAST_ACK) → v.InSequence seg →
      seg.has FlagFIN = true → v.rx.used + (v.rx.fitting seg.payload).length ≤ awaited s c v seg) :
    Reading (tcpReceive s c v seg) := by
  unfold tcpReceive
  generalize hv' : (if seg.has FlagACK = true ∧ v.rack < seg.acknum then { v with rack := seg.acknum } else v) = v'
  have ha : Alike v v' := by rw [← hv']; split <;> exact ⟨rfl, rfl, rfl, rfl, rfl⟩
  have hrx : v'.rx = v.rx ∧ v'.onRecv = v.onRecv := by rw [← hv']; split <;> exact ⟨rfl, rfl⟩
  have hi : v'.InSequence seg ↔ v.InSequence seg := by rw [TcpConn.InSequence, ha.lack]; rfl
  have hk : Idle s (s.setConn c v') := .setConn hc ⟨ha.carg, ha.uclosed, ha.past.mpr⟩ (by rw [hrx.left])
  dsimp only
  split
  case isTrue =>
    refine tcpcTryfree_reading (hr.idle (.setConn hc ⟨ha.carg, ha.uclosed, ?_⟩ ?_))
    · simp [TcpConn.Past]
    · rw [hrx.left]
  case isFalse hack =>
    split
    case isTrue => exact hr.idle (hk.trans tcpcSendraw_idle)
    case isFalse hseq =>
      have hd := fun hu => hd hu (fun hf => hack ⟨hf.left, ha.state.trans hf.right⟩) (hi.mp (not_not.mp hseq))
      have hp : Reading (if seg.payload ≠ [] then tcpPayload s c v' seg else s.setConn c v') ∧
          ∀ x, (if seg.payload ≠ [] then tcpPayload s c v' seg else s.setConn c v').conns.get c = some x →
            seg.has FlagFIN = true → x.uclosed = false → x.rx.contents = [] := by
        split
        case isTrue hne =>
          refine ⟨tcpPayload_reading hr hc ha hrx.left, fun x hx hf hux => tcpPayload_drained hc ?_ x hx⟩
          have hu : v.uclosed = false := Bool.eq_false_iff.mpr fun hu => by
            have hux' := tcpPayload_forall (P := (TcpConn.uclosed · = true)) hc
              (fun y y' ha hy => ha.uclosed.trans hy) (ha.uclosed.trans hu) x hx
            simp [hux] at hux'
          have hz := hd hu hf
          rw [awaited] at hz
          simp only [hne, ne_eq, not_false_eq_true, and_true] at hz
          rwa [hrx.left, hrx.right, ha.carg]
        case isFalse hne =>
          refine ⟨hr.idle hk, forall_setConn hc fun hf hu => ?_⟩
          have hz := hd (ha.uclosed.symm.trans hu) hf
          rw [awaited, if_neg fun h => hne h.right] at hz
          rw [hrx.left, ← List.length_eq_zero_iff, Ring.length_contents]
          omega
      split
      case isTrue hf => exact tcpFin_reading hp.left fun x hx => hp.right x hx hf
      case isFalse   => exact hp.left

theorem tcpParse_reading {ip : Ipv4} (hr : Reading s) (hd : Drained s (.segment buf ip)) :
    Reading (tcpParse s buf ip) := by
  unfold tcpParse
  cases hseg : tcpSegment buf ip
  case none => exact hr
  case some seg =>
    simp only [Option.elim, tcpInput]
    split
    case h_2 =>
      split
      · exact hr
      · exact hr.idle (.emit trivial)
    case h_1 c hrec =>
      unfold Tcp.withConn
      cases hc : s.conns.get c
      case none   => exact hr.idle .crash
      case some v =>
        dsimp only [Option.elim]
        unfold tcpDispatch
        split_ifs with hl hs hf
        · exact tcpAccept_reading hr hc hl.left
        · exact tcpConnected_reading hr hc hs
        · exact hr
        · refine tcpReceive_reading hr hc fun hu hack hseq hfin => ?_
          exact hd buf ip seg c v rfl hseg hrec hc hu ⟨hs, hl, hack, hseq, hfin⟩

-- A handle is closed together with its connection.
theorem fsClose_reading (hr : Reading s) : Reading (fsClose s h reqh) := by
  unfold fsClose Tcp.withHandle
  cases hw : s.handles.get h
  case none => exact hr.idle .crash
  case some w =>
    cases hwc : w.c
    case none => simpa [hwc] using hr.idle .crash
    case some c =>
      obtain ⟨v, hc, hcarg, hp, hu⟩ := hr.live h w c hw hwc
      have hs := tcpcClose_closes hc hu hp.left
      simp only [Option.elim, hwc]
      generalize tcpcClose s c = t at hs
      obtain ⟨es, hlog, hes⟩ := hs.log
      have hidle : ∀ e ∈ .closed c :: es, e.Idle := by
        intro e he
        obtain rfl | he := List.mem_cons.mp he
        · trivial
        · obtain ⟨_, _, _, _, _, rfl⟩ := hes e he
          trivial
      -- The connections which are still open are the ones before.
      have hopen : ∀ c' x, t.conns.get c' = some x → x.uclosed = false → s.conns.get c' = some x := by
        intro c' x hx hux
        by_cases he : c' = c
        · subst he
          simp [(hs.self x hx).left] at hux
        · exact hs.other c' he ▸ hx
      have hfree : ∀ h' x, (t.handles.free h).get h' = some x → h' ≠ h ∧ s.handles.get h' = some x := by
        intro h' x hx
        rw [hs.handles, Heap.get_free] at hx
        split at hx
        · simp at hx
        case isFalse he => exact ⟨he, hx⟩
      have hstay : ∀ c' x, t.conns.get c' = some x → ∃ y, s.conns.get c' = some y ∧ x.carg = y.carg := by
        intro c' x hx
        by_cases he : c' = c
        · subst he
          exact ⟨v, hc, (hs.self x hx).right.right⟩
        · exact ⟨x, hs.other c' he ▸ hx, rfl⟩
      refine Reading.idle (s := { t with handles := t.handles.free h }) ?_ (.emit trivial)
      exact {
        readable := by
          refine hlog ▸ readable_append hr.readable fun e he h' q hc' => ?_
          exact (hc' ▸ hidle e he : TcpEvent.Idle (.connreset h' q))
        live := fun h' x c' hx hxc => by
          obtain ⟨hne, hx⟩ := hfree h' x hx
          obtain ⟨y, hy, hyc, hl⟩ := hr.live h' x c' hx hxc
          refine ⟨y, ?_, hyc, hl⟩
          rw [hs.other c' ?_, hy]
          rintro rfl
          obtain rfl := Option.some.inj (hc.symm.trans hy)
          exact hne (hyc.symm.trans hcarg)
        past := fun c' x hx hux => by
          by_cases he : c' = c
          · subst he
            simp [TcpConn.Past, (hs.self x hx).right.left]
          · exact hr.past c' x (hs.other c' he ▸ hx) hux
        cargs := fun c' x hx => by
          obtain ⟨y, hy, hcy⟩ := hstay c' x hx
          rw [hs.handles, Heap.size_free, hcy]
          exact hr.cargs c' y hy
        inj := fun c₁ c₂ x₁ x₂ hx₁ hx₂ he => by
          obtain ⟨y₁, hy₁, hcy₁⟩ := hstay c₁ x₁ hx₁
          obtain ⟨y₂, hy₂, hcy₂⟩ := hstay c₂ x₂ hx₂
          exact hr.inj c₁ c₂ y₁ y₂ hy₁ hy₂ (by rw [← hcy₁, ← hcy₂, he])
        opened := fun h' c' q hm => by
          rw [hlog, List.mem_append] at hm
          obtain ⟨hlt, ho⟩ := hr.opened h' c' q (hm.elim id fun hm => (hidle _ hm).elim)
          exact ⟨by rwa [hs.handles, Heap.size_free], fun x hx => ho x (hfree h' x hx).right⟩
        bytes := fun c' x hx hux => by
          rw [hlog, readBytes_idle _ hidle, storedBytes_idle _ hidle]
          exact hr.bytes c' x (hopen c' x hx hux) hux
        fins := fun c' x hx hux pre post hp' => by
          obtain ⟨post', hp''⟩ := fin_mem_left _ (fun hm => hidle _ hm) (hlog ▸ hp')
          rw [hlog, readBytes_idle _ hidle]
          exact hr.fins c' x (hopen c' x hx hux) hux pre post' hp''
        unstored := fun c' hc' => by
          rw [hlog, storedBytes_idle _ hidle, hr.unstored c' (hs.size ▸ hc')]
        unread := fun h' hh' => by
          rw [hlog, readBytes_idle _ hidle, hr.unread h' (by rwa [hs.handles, Heap.size_free] at hh')] }

theorem tcpOpen_reading (hr : Reading s) : Reading (tcpOpen s reqh) where
  readable := hr.readable
  live h w c hw hc := by
    rw [tcpOpen, Heap.get_alloc] at hw
    split at hw
    · obtain rfl := Option.some.inj hw
      simp at hc
    · exact hr.live h w c hw hc
  past := hr.past
  cargs c v hv := (hr.cargs c v hv).trans (by simp [tcpOpen])
  inj := hr.inj
  opened h c q hm := by
    obtain ⟨hlt, ho⟩ := hr.opened h c q hm
    refine ⟨hlt.trans (by simp [tcpOpen]), fun w hw => ho w ?_⟩
    rwa [tcpOpen, Heap.get_alloc, if_neg hlt.ne] at hw
  bytes := hr.bytes
  fins := hr.fins
  unstored := hr.unstored
  unread h hh := hr.unread h (by simp only [tcpOpen, Heap.size_alloc] at hh; omega)

-- A new connection belongs to a handle which has not been used.
theorem connsAppend_reading (hr : Reading s) (hu : v.uclosed = false) (hrx : v.rx.contents = [])
    (hcarg : v.carg < s.handles.size) (hfresh : ∀ c x, s.conns.get c = some x → x.carg ≠ v.carg)
    (hread : readBytes v.carg s.log = []) : Reading (connsAppend s v) := by
  have hget : ∀ c x, (connsAppend s v).conns.get c = some x →
      c = s.conns.size ∧ x = v ∨ c ≠ s.conns.size ∧ s.conns.get c = some x := by
    intro c x hx
    rw [connsAppend, Heap.get_alloc] at hx
    split at hx
    case isTrue he  => exact .inl ⟨he, (Option.some.inj hx).symm⟩
    case isFalse he => exact .inr ⟨he, hx⟩
  have hstored := hr.unstored s.conns.size le_rfl
  exact {
    readable := hr.readable
    live := fun h w c hw hc => by
      obtain ⟨x, hx, hl⟩ := hr.live h w c hw hc
      exact ⟨x, Heap.get_alloc_of_some hx, hl⟩
    past := fun c x hx hux => by
      obtain ⟨rfl, rfl⟩ | ⟨_, hx⟩ := hget c x hx
      · simp [hu] at hux
      · exact hr.past c x hx hux
    cargs := fun c x hx => by
      obtain ⟨rfl, rfl⟩ | ⟨_, hx⟩ := hget c x hx
      · exact hcarg
      · exact hr.cargs c x hx
    inj := fun c₁ c₂ x₁ x₂ hx₁ hx₂ he => by
      obtain ⟨rfl, rfl⟩ | ⟨_, hy₁⟩ := hget c₁ x₁ hx₁ <;> obtain ⟨rfl, rfl⟩ | ⟨_, hy₂⟩ := hget c₂ x₂ hx₂
      · rfl
      · exact absurd he.symm (hfresh c₂ x₂ hy₂)
      · exact absurd he (hfresh c₁ x₁ hy₁)
      · exact hr.inj c₁ c₂ x₁ x₂ hy₁ hy₂ he
    opened := hr.opened
    bytes := fun c x hx hux => by
      obtain ⟨rfl, rfl⟩ | ⟨_, hx⟩ := hget c x hx
      · change readBytes x.carg s.log ++ x.rx.contents = storedBytes s.conns.size s.log
        rw [hread, hrx, hstored, List.append_nil]
      · exact hr.bytes c x hx hux
    fins := fun c x hx hux pre post hl => by
      obtain ⟨rfl, rfl⟩ | ⟨_, hx⟩ := hget c x hx
      · change s.log = _ at hl
        rw [hl, storedBytes_append, List.append_eq_nil_iff] at hstored
        rw [hstored.left]
        exact List.nil_prefix
      · exact hr.fins c x hx hux pre post hl
    unstored := fun c hc => hr.unstored c (by simp only [connsAppend, Heap.size_alloc] at hc; omega)
    unread := hr.unread }

-- The new connection of a new handle.
theorem connsAppend_tcpOpen_reading (hr : Reading s) (hu : v.uclosed = false) (hrx : v.rx.contents = [])
    (hcarg : v.carg = s.handles.size) : Reading (connsAppend (tcpOpen s reqh) v) := by
  refine connsAppend_reading (tcpOpen_reading hr) hu hrx ?_ (fun c x hx => ?_) ?_
  · simp [hcarg, tcpOpen]
  · exact hcarg ▸ (hr.cargs c x hx).ne
  · exact hr.unread v.carg hcarg.ge

theorem fsConnect_reading {mem : Mem} {rmac : Option Mac} {dst : UInt32} {port : UInt16} (hr : Reading s) :
    Reading (fsConnect s mem rmac reqh dst port) := by
  unfold fsConnect tcpConnect
  split
  · exact tcpCloseCallback_reading (tcpOpen_reading hr)
  · refine (connsAppend_tcpOpen_reading hr ?_ ?_ ?_).idle (tcpcSendraw_idle.trans withConn_lseq_idle)
    · rfl
    · simp [tcpConn]
    · rfl

theorem fsRead_reading {capacity : ℕ} (hr : Reading s) : Reading (fsRead s h reqh capacity) := by
  unfold fsRead Tcp.withHandle
  cases hw : s.handles.get h
  case none => exact hr.idle .crash
  case some w =>
    dsimp only [Option.elim]
    split
    · exact hr.reset hw
    · unfold recvEnqueue
      split
      · exact hr.idle (.emit trivial)
      · exact tcpRecvCallback_reading (hr.idle (.setHandle hw rfl))

theorem fsWrite_reading (hr : Reading s) : Reading (fsWrite s h reqh buf) := by
  unfold fsWrite Tcp.withHandle
  cases s.handles.get h
  case none => exact hr.idle .crash
  case some w =>
    dsimp only [Option.elim]
    split
    · exact hr.idle (.emit trivial)
    · cases w.c
      · exact hr.idle .crash
      · exact hr.idle (.emits tcpcSendraw_idle trivial)

theorem tcpStep_reading {i : TcpInput} (hr : Reading s) (hd : Drained s i) : Reading (tcpStep s i) := by
  cases i
  case segment => exact tcpParse_reading hr hd
  case listen  => exact connsAppend_tcpOpen_reading hr rfl (by simp [tcpConn]) rfl
  case connect => exact fsConnect_reading hr
  case read    => exact fsRead_reading hr
  case write   => exact fsWrite_reading hr
  case close   => exact fsClose_reading hr

theorem Reading.init {ip : UInt32} : Reading (.init ip) where
  readable := by simp [Readable, Tcp.init]
  live     := by simp [Tcp.init]
  past     := by simp [Tcp.init]
  cargs    := by simp [Tcp.init]
  inj      := by simp [Tcp.init]
  opened   := by simp [Tcp.init]
  bytes    := by simp [Tcp.init]
  fins     := by simp [Tcp.init]
  unstored := fun _ _ => rfl
  unread   := fun _ _ => rfl

theorem TcpRun.reading {ip : UInt32} (r : TcpRun Drained ip s) : Reading s := by
  induction r
  case init           => exact .init
  case step _ _ hi ih => exact tcpStep_reading ih hi

end Reading

-- In every run in which no FIN finds bytes which were not read, no read fails before all bytes were returned.
theorem TcpRun.readable {s : Tcp} {ip : UInt32} (r : TcpRun Drained ip s) : Readable s.log :=
  r.reading.readable

section Unread

variable {s : Tcp} {c : ℕ} {buf : List UInt8} {ip : Ipv4} {seg : Segment} {v : TcpConn}

theorem drained_of_segment (hseg : tcpSegment buf ip = some seg) (hrec : receiver s seg = some c)
    (hc : s.conns.get c = some v)
    (hd : v.Finishes seg → v.rx.used + (v.rx.fitting seg.payload).length ≤ awaited s c v seg) :
    Drained s (.segment buf ip) := by
  intro _ _ seg' c' v' hi hseg' hrec' hc' _
  cases hi
  obtain rfl := Option.some.inj (hseg.symm.trans hseg')
  obtain rfl := Option.some.inj (hrec.symm.trans hrec')
  obtain rfl := Option.some.inj (hc.symm.trans hc')
  exact hd

-- A read of up to five bytes waits when two bytes and a FIN arrive, and the next read fails.
theorem readable_waiting :
    Readable (tcpStep (tcpStep (tcpStep tcpAccepted (.read 0 5 5)) (fromPeer (FlagACK ||| FlagFIN) 101 1 [1, 2]))
      (.read 0 6 5)).log := by
  refine @TcpRun.readable _ 9
    (.step (.step (.step (.step (.step .init rfl ?_) rfl ?_) rfl ?_) rfl ?_) rfl ?_)
  · simp [Drained]
  · exact drained_of_segment rfl rfl rfl fun hf => absurd ⟨rfl, by decide⟩ hf.right.left
  · simp [Drained]
  · exact drained_of_segment rfl rfl rfl fun _ => by decide
  · simp [Drained]

-- The bytes arrive before the read, and the FIN as well.
theorem not_readable_unread : ∃ s, TcpRun (fun _ _ => True) 9 s ∧ ¬Readable s.log := by
  refine ⟨tcpStep (tcpStep tcpAccepted (fromPeer (FlagACK ||| FlagFIN) 101 1 [1, 2])) (.read 0 5 5), ?_, fun h => ?_⟩
  · exact .step (.step (.step (.step .init rfl trivial) rfl trivial) rfl trivial) rfl trivial
  · have hr := h [.sent 0 18 0 101 4096 [], .callback 0, .opened 0 0 3, .stored 0 [1, 2], .callback 0,
      .sent 0 16 1 103 4094 [], .sent 0 17 1 103 4094 [], .fin 0, .callback 0] [] 0 5 (by decide) 0 3 (by decide)
      [.sent 0 18 0 101 4096 [], .callback 0, .opened 0 0 3, .stored 0 [1, 2], .callback 0,
        .sent 0 16 1 103 4094 [], .sent 0 17 1 103 4094 []] [.callback 0] rfl
    exact absurd hr (by decide)

end Unread
end Camellia.Net
