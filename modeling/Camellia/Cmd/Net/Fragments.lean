import Camellia.Cmd.Net.Ipv4

namespace Camellia.Net

section Rules

variable {α : Type} {Q : α → Stack → Prop} {R : PUnit → Stack → Prop} {E : NetFault → Prop} {s : Stack}
variable {buf : List UInt8} {i n a b : ℕ}

@[simp]
theorem wp_emit {e : NetEvent} : wp (emit e) R E s ↔ R ⟨⟩ { s with log := s.log ++ [e] } :=
  wp_modify

@[simp]
theorem wp_within : wp (within buf i n) R E s ↔ if n = 0 ∨ i + n ≤ buf.length then R ⟨⟩ s else E .overread := by
  unfold within
  split <;> simp

@[simp]
theorem wp_load8 {Q : ℕ → Stack → Prop} :
    wp (load8 buf i) Q E s ↔ if i + 1 ≤ buf.length then Q (buf.getD i 0).toNat s else E .overread := by
  simp [load8]

@[simp]
theorem wp_load16 {Q : ℕ → Stack → Prop} :
    wp (load16 buf i) Q E s ↔ if i + 2 ≤ buf.length then Q (nget16 buf i) s else E .overread := by
  simp [load16]

@[simp]
theorem wp_load32 {Q : ℕ → Stack → Prop} :
    wp (load32 buf i) Q E s ↔ if i + 4 ≤ buf.length then Q (nget32 buf i) s else E .overread := by
  simp [load32]

@[simp]
theorem wp_copy {Q : List UInt8 → Stack → Prop} : wp (copy buf i n) Q E s ↔
    if n = 0 ∨ i + n ≤ buf.length then Q ((buf.drop i).take n) s else E .overread := by
  simp [copy]

@[simp]
theorem wp_lengthSub {Q : ℕ → Stack → Prop} :
    wp (lengthSub a b) Q E s ↔ if b ≤ a then Q (a - b) s else E .underflow := by
  unfold lengthSub
  split <;> simp

@[simp]
theorem wp_getInc {Q : Fragmented → Stack → Prop} :
    wp (getInc i) Q E s ↔ (s.incs.get i).elim (E .stale) (Q · s) := by
  simp only [getInc, wp_bind, wp_get]
  cases s.incs.get i <;> simp

@[simp]
theorem wp_setInc {inc : Fragmented} : wp (setInc i inc) R E s ↔ R ⟨⟩ { s with incs := s.incs.set i inc } :=
  wp_modify

@[simp]
theorem wp_fragmentedFree : wp (fragmentedFree i) R E s ↔ (s.incs.get i).elim (E .stale) fun _ =>
    R ⟨⟩ { s with incs := s.incs.free i, fragmenteds := s.fragmenteds.erase i } := by
  simp only [fragmentedFree, wp_bind, wp_getInc, wp_modify]

end Rules

def NetEvent.datagram : NetEvent → Option (Key × List UInt8)
  | .dispatch key buf => some (key, buf)
  | _                 => none

-- The datagrams which were passed on to the protocols.
def Stack.datagrams (s : Stack) : List (Key × List UInt8) :=
  s.log.filterMap NetEvent.datagram

-- What the protocols above and below leave alone.
structure Untouched (s t : Stack) : Prop where
  incs        : t.incs = s.incs
  fragmenteds : t.fragmenteds = s.fragmenteds
  kept        : t.kept = s.kept
  datagrams   : t.datagrams = s.datagrams

instance : IsPreorder Stack Untouched where
  refl _ := ⟨rfl, rfl, rfl, rfl⟩
  trans _ _ _ h₁ h₂ := {
    incs        := h₂.incs.trans h₁.incs
    fragmenteds := h₂.fragmenteds.trans h₁.fragmenteds
    kept        := h₂.kept.trans h₁.kept
    datagrams   := h₂.datagrams.trans h₁.datagrams }

section Untouched

variable {buf payload : List UInt8} {i n a b len : ℕ} {ip : Packet}

theorem emit_untouched {e : NetEvent} (h : e.datagram = none) : Respects Untouched (emit e) :=
  respects_modify fun _ => ⟨rfl, rfl, rfl, by simp [Stack.datagrams, h]⟩

@[grind ←]
theorem within_untouched : Respects Untouched (within buf i n) :=
  .ite respects_pure respects_throw

@[grind ←]
theorem load8_untouched : Respects Untouched (load8 buf i) :=
  .bind within_untouched fun _ => respects_pure

@[grind ←]
theorem load16_untouched : Respects Untouched (load16 buf i) :=
  .bind within_untouched fun _ => respects_pure

@[grind ←]
theorem load32_untouched : Respects Untouched (load32 buf i) :=
  .bind within_untouched fun _ => respects_pure

@[grind ←]
theorem copy_untouched : Respects Untouched (copy buf i n) :=
  .bind within_untouched fun _ => respects_pure

@[grind ←]
theorem lengthSub_untouched : Respects Untouched (lengthSub a b) :=
  .ite respects_pure respects_throw

@[grind ←]
theorem etherFinish_untouched {dst : Mac} {type : ℕ} {pkt : List UInt8} :
    Respects Untouched (etherFinish dst type pkt) :=
  .bind respects_get fun _ => emit_untouched rfl

@[grind ←]
theorem ipv4Send_untouched {ip : Outgoing} : Respects Untouched (ipv4Send payload ip) := by
  refine .bind respects_get fun s => .bind ?_ fun _ => .forM fun pkt => ?_
  · exact respects_modify fun _ => ⟨rfl, rfl, rfl, rfl⟩
  · split
    · exact etherFinish_untouched
    · exact respects_throw

@[grind ←]
theorem icmpSend_untouched {type code : UInt8} : Respects Untouched (icmpSend type code payload ip) :=
  ipv4Send_untouched

theorem arpParse_untouched : Respects Untouched (arpParse buf len) := by
  unfold arpParse
  refine .ite respects_pure (.bind load16_untouched fun _ => .bind load16_untouched fun _ =>
    .bind load16_untouched fun _ => .ite respects_pure (.ite respects_pure ?_))
  refine .bind load32_untouched fun _ => .bind copy_untouched fun _ => .bind ?_ fun _ => ?_
  · exact respects_modify fun _ => ⟨rfl, rfl, rfl, rfl⟩
  · refine .ite ?_ respects_pure
    refine .bind load32_untouched fun _ => .bind respects_get fun _ => .ite ?_ respects_pure
    exact .bind copy_untouched fun _ => .bind copy_untouched fun _ => etherFinish_untouched

theorem icmpParse_untouched : Respects Untouched (icmpParse buf len ip) := by
  unfold icmpParse
  refine .ite respects_pure (.bind load8_untouched fun _ => .bind respects_get fun _ => .ite ?_ respects_pure)
  exact .bind copy_untouched fun _ => icmpSend_untouched

theorem tcpReceived_untouched : Respects Untouched (tcpReceived buf len ip) := by
  unfold tcpReceived
  refine .ite respects_pure (.bind load16_untouched fun _ => .bind load16_untouched fun _ =>
    .bind load32_untouched fun _ => .bind load32_untouched fun _ => .bind load16_untouched fun _ =>
    .ite respects_pure (.bind copy_untouched fun _ => ?_))
  exact respects_modify fun _ => ⟨rfl, rfl, rfl, rfl⟩

theorem udpArrived_untouched : Respects Untouched (udpArrived buf len ip) := by
  refine .bind load16_untouched fun _ => .bind load16_untouched fun _ => .bind respects_get fun _ => .ite ?_ ?_
  · refine .bind lengthSub_untouched fun _ => .bind copy_untouched fun _ => ?_
    exact respects_modify fun _ => ⟨rfl, rfl, rfl, rfl⟩
  · refine .bind ?_ fun _ => .bind copy_untouched fun _ => icmpSend_untouched
    exact respects_modify fun _ => ⟨rfl, rfl, rfl, rfl⟩

end Untouched

section Progress

-- What is to be done with the fragments of a datagram.
inductive Verdict
  | wait | discard | finish
  deriving DecidableEq, Repr

-- The checks of the loop in `fragmented_tryfinish`.
def progress : List Fragment → Verdict
  | []           => .wait
  | [f]          => if f.last then .finish else .wait
  | f :: g :: fs =>
    if f.iterend < g.offset then .wait
    else if g.offset < f.iterend then .discard
    else progress (g :: fs)

def verdict (fs : List Fragment) : Verdict :=
  if fs.head?.any (·.offset = 0) then progress fs else .wait

def whole (fs : List Fragment) : List UInt8 :=
  fs.flatMap Fragment.buf

-- The state without the record `i`.
def Stack.remove (s : Stack) (i : ℕ) : Stack :=
  { s with incs := s.incs.free i, fragmenteds := s.fragmenteds.erase i }

variable {Q : PUnit → Stack → Prop} {E : NetFault → Prop} {s : Stack} {i n : ℕ} {e : Ethernet} {m : Mem}
variable {f : Fragment} {fs : List Fragment} {inc : Fragmented}

-- The fragments of a datagram which is finished follow each other without gaps.
theorem assemble_of_finish (h : progress (f :: fs) = .finish) :
    (f :: fs).foldl (fun m f => m.write f.offset f.buf) m = m.write f.offset (whole (f :: fs)) := by
  induction fs generalizing f m
  case nil => simp [whole]
  case cons g fs hi =>
    simp only [progress] at h
    split_ifs at h with h₁ h₂
    have hg : g.offset = f.offset + f.buf.length := by
      simp only [Fragment.iterend] at h₁ h₂
      omega
    rw [List.foldl_cons, hi h, hg, Mem.write_append]
    rfl

theorem iterend_of_finish (h : progress (f :: fs) = .finish) :
    ((f :: fs).getLast (by simp)).iterend = f.offset + (whole (f :: fs)).length := by
  induction fs generalizing f
  case nil => simp [whole, Fragment.iterend]
  case cons g fs hi =>
    simp only [progress] at h
    split_ifs at h with h₁ h₂
    have hw : whole (f :: g :: fs) = f.buf ++ whole (g :: fs) := rfl
    rw [List.getLast_cons (by simp), hi h, hw, List.length_append]
    simp only [Fragment.iterend] at h₁ h₂
    omega

theorem iterend_le_of_finish (h : progress (f :: fs) = .finish) (x : Fragment) (hx : x ∈ f :: fs) :
    x.iterend ≤ f.offset + (whole (f :: fs)).length := by
  induction fs generalizing f
  case nil => simp_all [whole, Fragment.iterend]
  case cons g fs hi =>
    simp only [progress] at h
    split_ifs at h with h₁ h₂
    have hw : (whole (f :: g :: fs)).length = f.buf.length + (whole (g :: fs)).length := List.length_append
    simp only [Fragment.iterend] at h₁ h₂ hi ⊢
    obtain rfl | hx := List.mem_cons.mp hx
    · omega
    · have := hi h hx
      omega

theorem wp_assemble {Q : Mem → Stack → Prop} (h : ∀ f ∈ fs, f.iterend ≤ n) :
    wp (assemble n fs m) Q E s ↔ Q (fs.foldl (fun m f => m.write f.offset f.buf) m) s := by
  induction fs generalizing m
  case nil => exact wp_pure
  case cons f fs hi =>
    rw [assemble, if_pos (h f (by simp)), hi fun x hx => h x (by simp [hx])]
    rfl

theorem wp_follow (h : s.incs.get i = some inc) : wp (follow i) Q E s ↔ Q ⟨⟩ s := by
  simp [follow, h]

-- The loop does what the checks say, and leaves the fragments as they are before.
theorem wp_tryfinishLoop (h : s.incs.get i = some inc) : wp (tryfinishLoop i e fs) Q E s ↔
    match progress fs with
    | .wait    => Q ⟨⟩ s
    | .discard => Q ⟨⟩ (s.remove i)
    | .finish  => wp (deliver i e (fs.getLast?.elim 0 Fragment.iterend) >>= fun _ => follow i) Q E s := by
  induction fs
  case nil => exact wp_pure
  case cons f fs hi =>
    cases fs
    case nil =>
      simp only [tryfinishLoop, progress, wp_bind, wp_getInc, h, Option.elim_some]
      cases hl : f.last
      · simp [wp_follow h]
      · simp
    case cons g fs =>
      simp only [tryfinishLoop, progress, wp_bind, wp_getInc, h, Option.elim_some]
      split
      · exact wp_pure
      split
      · simp only [wp_fragmentedFree, h, Option.elim_some]
        rfl
      · rw [wp_bind, wp_follow h, hi, List.getLast?_cons_cons]
        simp only [wp_bind]

theorem wp_fragmentedTryfinish (h : s.incs.get i = some inc) (hf : inc.first ≠ []) :
    wp (fragmentedTryfinish i e) Q E s ↔
      match verdict inc.first with
      | .wait    => Q ⟨⟩ s
      | .discard => Q ⟨⟩ (s.remove i)
      | .finish  => wp (ipv4Dispatch (whole inc.first) (whole inc.first).length { inc.h with e := e })
                      (fun _ => wp (fragmentedFree i) (fun _ => wp (follow i) Q E) E) E s := by
  obtain ⟨f, fs, hfs⟩ := List.exists_cons_of_ne_nil hf
  simp only [fragmentedTryfinish, wp_bind, wp_getInc, h, Option.elim_some, verdict, hfs, List.head?_cons, Option.any_some]
  by_cases hz : f.offset = 0
  case neg => simp [hz]
  rw [if_neg (not_not.mpr hz), if_pos (decide_eq_true hz), wp_tryfinishLoop h]
  cases hp : progress (f :: fs)
  case wait    => rfl
  case discard => rfl
  case finish  =>
    have hend : (f :: fs).getLast?.elim 0 Fragment.iterend = (whole (f :: fs)).length := by
      rw [List.getLast?_eq_some_getLast (by simp)]
      exact (iterend_of_finish hp).trans (by omega)
    have hall : ∀ x ∈ f :: fs, x.iterend ≤ (whole (f :: fs)).length := fun x hx => by
      have := iterend_le_of_finish hp x hx
      omega
    simp only [hend, deliver, wp_bind, wp_getInc, h, Option.elim_some, hfs, wp_assemble hall, assemble_of_finish hp, hz,
      Mem.slice_write]

end Progress

section Insert

variable {off : ℕ} {fs front back : List Fragment}

theorem insertAt_some (hs : fs.Pairwise (·.offset < ·.offset)) (h : insertAt off fs = some (front, back)) :
    fs = front ++ back ∧ (∀ f ∈ front, f.offset < off) ∧ ∀ f ∈ back, off < f.offset := by
  induction fs generalizing front
  case nil =>
    simp only [insertAt, Option.some.injEq, Prod.mk.injEq] at h
    simp [← h.left, ← h.right]
  case cons f fs hi =>
    have ⟨hf, hs⟩ := List.pairwise_cons.mp hs
    rw [insertAt] at h
    split_ifs at h with hlt heq
    · simp only [Option.some.injEq, Prod.mk.injEq] at h
      obtain ⟨rfl, rfl⟩ := h
      refine ⟨rfl, by simp, fun g hg => ?_⟩
      obtain rfl | hg := List.mem_cons.mp hg
      · exact hlt
      · exact hlt.trans (hf g hg)
    · obtain ⟨⟨front', back'⟩, hp, he⟩ := Option.map_eq_some_iff.mp h
      simp only [Prod.mk.injEq] at he
      obtain ⟨rfl, rfl⟩ := he
      have ⟨hfs, hfront, hback⟩ := hi hs hp
      refine ⟨by rw [hfs, List.cons_append], fun g hg => ?_, hback⟩
      obtain rfl | hg := List.mem_cons.mp hg
      · omega
      · exact hfront g hg

theorem pairwise_insertAt (hs : fs.Pairwise (·.offset < ·.offset)) (h : insertAt off fs = some (front, back))
    {f : Fragment} (hf : f.offset = off) : (front ++ f :: back).Pairwise (·.offset < ·.offset) := by
  have ⟨hfs, hfront, hback⟩ := insertAt_some hs h
  rw [hfs, List.pairwise_append] at hs
  refine List.pairwise_append.mpr ⟨hs.left, List.pairwise_cons.mpr ⟨fun g hg => hf ▸ hback g hg, hs.right.left⟩, ?_⟩
  intro g hg x hx
  obtain rfl | hx := List.mem_cons.mp hx
  · exact hf ▸ hfront g hg
  · exact hs.right.right g hg x hx

end Insert

-- The records which may be found are live, and there is at most one for a datagram.
structure Fragmented.Ok (inc : Fragmented) : Prop where
  sorted : inc.first.Pairwise (·.offset < ·.offset)
  header : inc.header = true → ∃ f ∈ inc.first, f.offset = 0
  hlen   : inc.h.header.length ≤ inc.h.hlen

def Stack.Has (s : Stack) (key : Key) (i : ℕ) (inc : Fragmented) : Prop :=
  i ∈ s.fragmenteds ∧ s.incs.get i = some inc ∧ inc.h.key = key

structure Stack.Ok (s : Stack) : Prop where
  live   : ∀ i ∈ s.fragmenteds, ∃ inc, s.incs.get i = some inc ∧ inc.Ok
  nodup  : s.fragmenteds.Nodup
  unique : ∀ {key i j inc inc'}, s.Has key i inc → s.Has key j inc' → i = j

-- Nothing changes about the records of other datagrams.
def Others (key : Key) (s t : Stack) : Prop :=
  ∀ key', key' ≠ key → ∀ i inc, t.Has key' i inc ↔ s.Has key' i inc

-- The record of a datagram, which is the next one to be allocated if there is none yet.
def Stack.record (s : Stack) (key : Key) : ℕ :=
  (s.fragmenteds.find? fun i => (s.incs.get i).any (·.h.key = key)).getD s.incs.size

def Stack.fragments (s : Stack) (key : Key) : List Fragment :=
  (s.incs.get (s.record key)).elim [] Fragmented.first

def Stack.put (s : Stack) (i : ℕ) (inc : Fragmented) : Stack :=
  { s with incs := s.incs.set i inc }

section Records

variable {s t : Stack} {key key' : Key} {i j : ℕ} {inc inc' : Fragmented}

theorem Stack.Has.record (hs : s.Ok) (h : s.Has key i inc) : s.record key = i := by
  have ⟨hi, hg, hk⟩ := h
  cases hf : s.fragmenteds.find? fun i => (s.incs.get i).any (·.h.key = key)
  case none =>
    have := List.find?_eq_none.mp hf i hi
    simp [hg, hk] at this
  case some j =>
    have hj := List.find?_some hf
    have ⟨inc', hg', hk'⟩ := (Option.any_eq_true _ _).mp hj
    rw [Stack.record, hf, Option.getD_some]
    exact hs.unique ⟨List.mem_of_find?_eq_some hf, hg', by simpa using hk'⟩ h

theorem Stack.Has.fragments (hs : s.Ok) (h : s.Has key i inc) : s.fragments key = inc.first := by
  rw [Stack.fragments, h.record hs, h.right.left]
  rfl

theorem record_of_lacks (h : ∀ i inc, ¬s.Has key i inc) : s.record key = s.incs.size := by
  have hf : (s.fragmenteds.find? fun i => (s.incs.get i).any (·.h.key = key)) = none := by
    refine List.find?_eq_none.mpr fun i hi ha => ?_
    have ⟨inc, hg, hk⟩ := (Option.any_eq_true _ _).mp ha
    exact h i inc ⟨hi, hg, by simpa using hk⟩
  rw [Stack.record, hf, Option.getD_none]

theorem fragments_of_lacks (h : ∀ i inc, ¬s.Has key i inc) : s.fragments key = [] := by
  rw [Stack.fragments, record_of_lacks h, Heap.get_size]
  rfl

theorem Stack.Has.inc_eq (h : s.Has key i inc) (h' : s.Has key' i inc') : inc = inc' ∧ key = key' := by
  have he := Option.some.inj (h.right.left.symm.trans h'.right.left)
  exact ⟨he, h.right.right.symm.trans ((congrArg (·.h.key) he).trans h'.right.right)⟩

theorem has_put (h : s.Has key i inc) (hk : inc'.h.key = key) : (s.put i inc').Has key' j x ↔
    if j = i then key' = key ∧ x = inc' else s.Has key' j x := by
  unfold Stack.Has Stack.put
  rw [Heap.get_set h.right.left]
  split
  case isTrue he =>
    subst he
    refine ⟨fun ⟨_, hx, hk'⟩ => ?_, fun ⟨hk', hx⟩ => ⟨h.left, hx ▸ rfl, hx ▸ hk' ▸ hk⟩⟩
    obtain rfl := Option.some.inj hx
    exact ⟨hk'.symm.trans hk, rfl⟩
  case isFalse => rfl

theorem has_remove (hs : s.Ok) : (s.remove i).Has key' j x ↔ j ≠ i ∧ s.Has key' j x := by
  unfold Stack.Has Stack.remove
  rw [Heap.get_free, hs.nodup.mem_erase_iff]
  by_cases he : j = i
  case pos => simp [he]
  case neg => simp [he]

theorem others_put (h : s.Has key i inc) (hk : inc'.h.key = key) : Others key s (s.put i inc') := by
  intro key' hne j x
  rw [has_put h hk]
  split
  case isTrue he =>
    subst he
    refine ⟨fun ⟨hk', _⟩ => absurd hk' hne, fun hx => absurd (hx.inc_eq h).right hne⟩
  case isFalse => rfl

theorem others_remove (hs : s.Ok) (h : s.Has key i inc) : Others key s (s.remove i) := by
  intro key' hne j x
  rw [has_remove hs]
  refine ⟨And.right, fun hx => ⟨fun he => ?_, hx⟩⟩
  subst he
  exact hne (hx.inc_eq h).right

theorem lacks_remove (hs : s.Ok) (h : s.Has key i inc) (j : ℕ) (x : Fragmented) : ¬(s.remove i).Has key j x := by
  rw [has_remove hs]
  exact fun ⟨hne, hx⟩ => hne (hs.unique hx h)

theorem Stack.Ok.put (hs : s.Ok) (h : s.Has key i inc) (hk : inc'.h.key = key) (hi : inc'.Ok) : (s.put i inc').Ok where
  live j hj := by
    by_cases he : j = i
    case pos =>
      subst he
      exact ⟨inc', Heap.get_set_self h.right.left, hi⟩
    case neg =>
      have ⟨x, hx, ho⟩ := hs.live j hj
      exact ⟨x, (Heap.get_set_ne he).trans hx, ho⟩
  nodup := hs.nodup
  unique {key' j l x y} hj hl := by
    rw [has_put h hk] at hj hl
    split_ifs at hj hl with h₁ h₂ h₂
    · exact h₁.trans h₂.symm
    · exact absurd (hs.unique hl (hj.left ▸ h)) h₂
    · exact absurd (hs.unique hj (hl.left ▸ h)) h₁
    · exact hs.unique hj hl

theorem Stack.Ok.remove (hs : s.Ok) : (s.remove i).Ok where
  live j hj := by
    have ⟨hne, hj⟩ := hs.nodup.mem_erase_iff.mp hj
    have ⟨x, hx, ho⟩ := hs.live j hj
    exact ⟨x, (Heap.get_free_ne hne).trans hx, ho⟩
  nodup := hs.nodup.erase i
  unique hj hl := hs.unique ((has_remove hs).mp hj).right ((has_remove hs).mp hl).right

end Records

-- The record of a datagram was found, or a new one was made for it.
structure Entered (s t : Stack) (key : Key) (i : ℕ) (inc : Fragmented) : Prop where
  has    : t.Has key i inc
  ok     : t.Ok
  first  : inc.first = s.fragments key
  others : Others key s t
  rest   : t = { s with incs := t.incs, fragmenteds := t.fragmenteds }

-- The record once a fragment is inserted.
def Fragmented.insert (inc : Fragmented) (ip : Packet) (front back : List Fragment) (buf : List UInt8) : Fragmented where
  h      := if ip.off = 0 then { ip with header := ip.header.take ip.hlen } else inc.h
  header := inc.header || decide (ip.off = 0)
  first  := front ++ ⟨ip.off, ip.last, buf⟩ :: back

section Tryinsert

variable {s t : Stack} {key : Key} {i plen : ℕ} {inc : Fragmented} {ip : Packet} {front back : List Fragment}
variable {payload buf : List UInt8} {Q : PUnit → Stack → Prop} {E : NetFault → Prop}

theorem wp_fragmentedSearch {Q : Option ℕ → Stack → Prop} {l : List ℕ} (h : ∀ i ∈ l, ∃ inc, s.incs.get i = some inc) :
    wp (fragmentedSearch key l) Q E s ↔ Q (l.find? fun i => (s.incs.get i).any (·.h.key = key)) s := by
  induction l
  case nil => exact wp_pure
  case cons i l hi =>
    have ⟨inc, hinc⟩ := h i (List.mem_cons_self ..)
    simp only [fragmentedSearch, wp_bind, wp_getInc, hinc, Option.elim_some, List.find?_cons, Option.any_some]
    by_cases hk : inc.h.key = key
    · simp [hk]
    · simpa [hk] using hi fun j hj => h j (List.mem_cons_of_mem _ hj)

theorem wp_fragmentedFind (ip : Packet) (hs : s.Ok) : ∃ t inc, Entered s t ip.key (s.record ip.key) inc ∧
    ∀ {Q : ℕ → Stack → Prop} {E}, wp (fragmentedFind ip) Q E s ↔ Q (s.record ip.key) t := by
  have hlive : ∀ i ∈ s.fragmenteds, ∃ inc, s.incs.get i = some inc := fun i hi => by
    obtain ⟨inc, hg, _⟩ := hs.live i hi
    exact ⟨inc, hg⟩
  by_cases hex : ∃ i inc, s.Has ip.key i inc
  case pos =>
    obtain ⟨i, inc, h⟩ := hex
    have hr := h.record hs
    have hfind : (s.fragmenteds.find? fun i => (s.incs.get i).any (·.h.key = ip.key)) = some i := by
      cases hf : s.fragmenteds.find? fun i => (s.incs.get i).any (·.h.key = ip.key)
      case none =>
        have := List.find?_eq_none.mp hf i h.left
        simp [h.right.left, h.right.right] at this
      case some j => rwa [Stack.record, hf, Option.getD_some, ← Option.some_inj] at hr
    refine ⟨s, inc, ⟨hr ▸ h, hs, (h.fragments hs).symm, fun _ _ _ _ => Iff.rfl, rfl⟩, fun {Q E} => ?_⟩
    simp only [fragmentedFind, wp_bind, wp_get, wp_fragmentedSearch hlive, hfind, hr, wp_pure]
  case neg =>
    simp only [not_exists] at hex
    have hr := record_of_lacks hex
    have hfind : (s.fragmenteds.find? fun i => (s.incs.get i).any (·.h.key = ip.key)) = none := by
      refine List.find?_eq_none.mpr fun i hi ha => ?_
      obtain ⟨inc, hg, hk⟩ := (Option.any_eq_true _ _).mp ha
      exact hex i inc ⟨hi, hg, by simpa using hk⟩
    generalize hinc : Fragmented.new ip = inc
    have hk : inc.h.key = ip.key := hinc ▸ rfl
    generalize ht : { s with incs := s.incs.alloc inc, fragmenteds := s.incs.size :: s.fragmenteds } = t
    have hnew : s.incs.size ∉ s.fragmenteds := fun hm => by
      obtain ⟨inc, hg, _⟩ := hs.live _ hm
      simp at hg
    have hhas {key j x} : t.Has key j x ↔ j = s.incs.size ∧ x = inc ∧ key = ip.key ∨ s.Has key j x := by
      simp only [← ht, Stack.Has, List.mem_cons, Heap.get_alloc]
      by_cases hj : j = s.incs.size
      case neg => simp [hj]
      case pos =>
        subst hj
        simp only [true_or, if_true, Option.some.injEq, true_and, Heap.get_size, reduceCtorEq, false_and, and_false, or_false]
        constructor
        · rintro ⟨rfl, rfl⟩
          exact ⟨rfl, hk⟩
        · rintro ⟨rfl, rfl⟩
          exact ⟨rfl, hk⟩
    refine ⟨t, inc, ⟨?_, ⟨?_, ?_, ?_⟩, ?_, ?_, ?_⟩, fun {Q E} => ?_⟩
    · exact hr ▸ hhas.mpr (.inl ⟨rfl, rfl, rfl⟩)
    · intro j hj
      simp only [← ht, List.mem_cons] at hj
      obtain rfl | hj := hj
      · exact ⟨inc, ht ▸ Heap.get_alloc_self, hinc ▸ ⟨.nil, (fun h => by cases h), Nat.zero_le _⟩⟩
      · obtain ⟨x, hx, ho⟩ := hs.live j hj
        exact ⟨x, ht ▸ Heap.get_alloc_of_some hx, ho⟩
    · exact ht ▸ List.nodup_cons.mpr ⟨hnew, hs.nodup⟩
    · intro key j l x y hj hl
      rw [hhas] at hj hl
      obtain ⟨rfl, rfl, rfl⟩ | hj := hj <;> obtain ⟨rfl, rfl, hk'⟩ | hl := hl
      · rfl
      · exact absurd hl (hex _ _)
      · exact absurd (hk' ▸ hj) (hex _ _)
      · exact hs.unique hj hl
    · rw [fragments_of_lacks hex, ← hinc]
      rfl
    · intro key hne j x
      rw [hhas]
      simp [hne]
    · simp [← ht]
    · simp only [fragmentedFind, wp_bind, wp_get, wp_fragmentedSearch hlive, hfind, wp_modify, wp_pure, hr, hinc, ht]

theorem Fragmented.Ok.insert (buf : List UInt8) (ho : inc.Ok) (h : insertAt ip.off inc.first = some (front, back)) :
    (inc.insert ip front back buf).Ok where
  sorted := pairwise_insertAt ho.sorted h rfl
  header hh := by
    simp only [Fragmented.insert, List.mem_append, List.mem_cons]
    by_cases hz : ip.off = 0
    case pos => exact ⟨_, .inr (.inl rfl), hz⟩
    case neg =>
      simp only [Fragmented.insert, hz, decide_false, Bool.or_false] at hh
      have ⟨f, hf, hz⟩ := ho.header hh
      rw [(insertAt_some ho.sorted h).left, List.mem_append] at hf
      exact ⟨f, hf.imp_right .inr, hz⟩
  hlen := by
    simp only [Fragmented.insert]
    split
    · exact List.length_take_le _ _
    · exact ho.hlen

-- Where nothing has its offset yet, there is no header either.
theorem Fragmented.Ok.header_false (ho : inc.Ok) (h : insertAt 0 inc.first = some (front, back)) : inc.header = false := by
  by_contra hh
  have ⟨f, hf, hz⟩ := ho.header (by simpa using hh)
  have ⟨hfs, hfront, hback⟩ := insertAt_some ho.sorted h
  rw [hfs, List.mem_append] at hf
  obtain hf | hf := hf
  · exact absurd (hfront f hf) (by omega)
  · exact absurd (hback f hf) (by omega)

theorem key_insert (front back : List Fragment) (buf : List UInt8) (hk : inc.h.key = ip.key) : (inc.insert ip front back buf).h.key = ip.key := by
  simp only [Fragmented.insert]
  split
  · rfl
  · exact hk

theorem wp_fragmentedTryinsert (payload : List UInt8) (plen : ℕ) (ip : Packet) (hs : s.Ok) : ∃ t inc, Entered s t ip.key (s.record ip.key) inc ∧
    ∀ {Q E}, wp (fragmentedTryinsert payload plen ip) Q E s ↔
      match insertAt ip.off inc.first with
      | none               => Q ⟨⟩ t
      | some (front, back) =>
        if ip.last ∧ back ≠ [] then
          Q ⟨⟩ t
        else if ¬(plen = 0 ∨ plen ≤ payload.length) then
          E .overread
        else if ip.off = 0 ∧ ¬(ip.hlen = 0 ∨ ip.hlen ≤ ip.header.length) then
          E .overread
        else
          wp (fragmentedTryfinish (s.record ip.key) ip.e) Q E
            (t.put (s.record ip.key) (inc.insert ip front back (payload.take plen))) := by
  have ⟨t, inc, he, hfind⟩ := wp_fragmentedFind ip hs
  have hg := he.has.right.left
  have ⟨x, hx, ho⟩ := he.ok.live _ he.has.left
  obtain rfl := Option.some.inj (hg.symm.trans hx)
  refine ⟨t, inc, he, fun {Q E} => ?_⟩
  simp only [fragmentedTryinsert, wp_bind, hfind, wp_getInc, hg, Option.elim_some]
  cases hi : insertAt ip.off inc.first
  case none => exact wp_pure
  case some p =>
    obtain ⟨front, back⟩ := p
    dsimp only
    by_cases hl : ip.last = true ∧ back ≠ []
    case pos => simp [hl]
    case neg =>
      rw [if_neg hl, if_neg hl, wp_bind, wp_copy, Nat.zero_add]
      by_cases hp : plen = 0 ∨ plen ≤ payload.length
      case neg => rw [if_neg hp, if_pos hp]
      case pos =>
        rw [if_pos hp, if_neg (not_not.mpr hp), List.drop_zero, wp_bind, wp_setInc]
        by_cases hz : ip.off = 0
        case neg => simp [hz, Fragmented.insert, Stack.put]
        case pos =>
          have hh := ho.header_false (hz ▸ hi)
          simp only [hz, if_true, hh, Bool.false_eq_true, if_false, wp_bind, wp_copy, Nat.zero_add, List.drop_zero,
            true_and, wp_setInc, Heap.set_set]
          by_cases hc : ip.hlen = 0 ∨ ip.hlen ≤ ip.header.length
          case neg => rw [if_neg hc, if_pos hc]
          case pos =>
            rw [if_pos hc, if_neg (not_not.mpr hc)]
            simp [Fragmented.insert, Stack.put, hz]

end Tryinsert

-- What a datagram leaves behind which was passed on to its protocol.
structure Dispatched (key : Key) (buf : List UInt8) (s t : Stack) : Prop where
  incs        : t.incs = s.incs
  fragmenteds : t.fragmenteds = s.fragmenteds
  kept        : t.kept = s.kept
  datagrams   : t.datagrams = s.datagrams ++ [(key, buf)]

section Dispatch

variable {s t u : Stack} {key : Key} {buf : List UInt8} {len i : ℕ} {inc : Fragmented} {ip : Packet}
variable {R : PUnit → Stack → Prop} {E : NetFault → Prop}

theorem ipv4Dispatch_dispatched : wlp (ipv4Dispatch buf len ip) (fun _ t => Dispatched ip.key (buf.take len) s t) s := by
  have hu {t : Stack} (h : Untouched { s with log := s.log ++ [.dispatch ip.key (buf.take len)] } t) :
      Dispatched ip.key (buf.take len) s t :=
    ⟨h.incs, h.fragmenteds, h.kept, h.datagrams.trans (by simp [Stack.datagrams, NetEvent.datagram])⟩
  simp only [ipv4Dispatch, emit, wlp_bind, wlp_modify]
  split
  · exact wlp_post (icmpParse_untouched _) fun _ _ => hu
  · exact wlp_post (tcpReceived_untouched _) fun _ _ => hu
  · exact wlp_post (udpArrived_untouched _) fun _ _ => hu
  · exact wlp_pure.mpr (hu ⟨rfl, rfl, rfl, rfl⟩)

-- The end of the loop reads the link of a fragment which was freed.
theorem wp_freed (h : s.incs.get i = some inc) : wp (fragmentedFree i) (fun _ => wp (follow i) R E) E s ↔
    if s.kept i then R ⟨⟩ { s.remove i with stale := true } else E .stale := by
  rw [wp_fragmentedFree, h, Option.elim_some]
  simp only [follow, wp_bind, wp_get, Heap.get_free_self, Option.isNone_none, if_true, wp_modify, wp_ite, wp_pure, wp_throw]
  split <;> simp_all [Stack.remove]

theorem has_congr (hi : t.incs = s.incs) (hf : t.fragmenteds = s.fragmenteds) : t.Has key i inc ↔ s.Has key i inc := by
  rw [Stack.Has, Stack.Has, hi, hf]

theorem Stack.Ok.congr (hs : s.Ok) (hi : t.incs = s.incs) (hf : t.fragmenteds = s.fragmenteds) : t.Ok where
  live i h := by
    rw [hf] at h
    exact hi ▸ hs.live i h
  nodup := hf ▸ hs.nodup
  unique h h' := hs.unique ((has_congr hi hf).mp h) ((has_congr hi hf).mp h')

theorem Untouched.ok (h : Untouched s t) (hs : s.Ok) : t.Ok :=
  hs.congr h.incs h.fragmenteds

theorem Dispatched.ok (h : Dispatched key buf s t) (hs : s.Ok) : t.Ok :=
  hs.congr h.incs h.fragmenteds

theorem fragmentedTryfinish_ok {e : Ethernet} (hs : s.Ok) (h : s.incs.get i = some inc) (hf : inc.first ≠ []) :
    wlp (fragmentedTryfinish i e) (fun _ t => t.Ok) s := by
  rw [wlp_iff_wp, wp_fragmentedTryfinish h hf]
  cases verdict inc.first
  case wait    => exact hs
  case discard => exact hs.remove
  case finish  =>
    refine wp_post (wlp_iff_wp.mp ipv4Dispatch_dispatched) fun _ t ht => ?_
    refine (wp_freed (ht.incs ▸ h)).mpr ?_
    split
    · exact ((ht.ok hs).remove (i := i)).congr rfl rfl
    · trivial

theorem fragmentedTryinsert_ok {payload : List UInt8} {plen : ℕ} (hs : s.Ok) :
    wlp (fragmentedTryinsert payload plen ip) (fun _ t => t.Ok) s := by
  have ⟨t, inc, he, hw⟩ := wp_fragmentedTryinsert payload plen ip hs
  have hg := he.has.right.left
  have ⟨x, hx, ho⟩ := he.ok.live _ he.has.left
  obtain rfl := Option.some.inj (hg.symm.trans hx)
  rw [wlp_iff_wp, hw]
  split
  case h_1 => exact he.ok
  case h_2 front back hi =>
    split_ifs
    · exact he.ok
    · have ho' := he.ok.put he.has (key_insert front back _ he.has.right.right) (ho.insert (payload.take plen) hi)
      exact wlp_iff_wp.mp (fragmentedTryfinish_ok ho' (Heap.get_set_self hg) (List.append_ne_nil_of_right_ne_nil _ (by simp)))

end Dispatch

section Parse

def version (buf : List UInt8) : ℕ :=
  (buf.getD 0 0).toNat / 2 ^ 4

def headerlen (buf : List UInt8) : ℕ :=
  (buf.getD 0 0).toNat % 2 ^ 4 * 4

def totallen (buf : List UInt8) : ℕ :=
  nget16 buf 2

def packet (buf : List UInt8) (e : Ethernet) : Packet where
  e        := e
  src      := nget32 buf 12
  dst      := nget32 buf 16
  id       := nget16 buf 4
  fraginfo := nget16 buf 6
  proto    := (buf.getD 9 0).toNat
  header   := buf
  hlen     := headerlen buf

-- Everything but EvilBit and DontFrag.
def Packet.Fragmented (ip : Packet) : Prop :=
  ip.fraginfo % 2 ^ 14 ≠ 0

instance (ip : Packet) : Decidable ip.Fragmented :=
  inferInstanceAs <| Decidable (_ ≠ _)

variable {s t : Stack} {buf : List UInt8} {len : ℕ} {e : Ethernet} {R : PUnit → Stack → Prop} {E : NetFault → Prop}

theorem wp_ipv4Parse : wp (ipv4Parse buf len e) R E s ↔
    if buf.length < 1 then E .overread
    else if version buf ≠ 4 then R ⟨⟩ s
    else if buf.length < 4 then E .overread
    else if totallen buf < headerlen buf then R ⟨⟩ s
    else if buf.length < 20 then E .overread
    else if (packet buf e).Fragmented then
      wp (fragmentedTryinsert (buf.drop (headerlen buf)) (totallen buf - headerlen buf) (packet buf e)) R E s
    else if len < totallen buf then R ⟨⟩ s
    else wp (ipv4Dispatch (buf.drop (headerlen buf)) (totallen buf - headerlen buf) (packet buf e)) R E s := by
  simp only [ipv4Parse, wp_bind, wp_load8]
  by_cases h1 : buf.length < 1
  case pos => rw [if_neg (by omega), if_pos h1]
  rw [if_pos (by omega), if_neg h1]
  by_cases hv : version buf ≠ 4
  case pos =>
    rw [if_pos hv, if_pos (by exact hv)]
    exact wp_pure
  rw [if_neg hv, if_neg (by exact hv)]
  simp only [wp_bind, wp_load8, wp_load16]
  rw [if_pos (by omega)]
  by_cases h4 : buf.length < 4
  case pos => rw [if_neg (by omega), if_pos h4]
  rw [if_pos (by omega), if_neg h4]
  by_cases ht : totallen buf < headerlen buf
  case pos =>
    rw [if_pos ht, if_pos (by exact ht)]
    exact wp_pure
  rw [if_neg ht, if_neg (by exact ht)]
  simp only [wp_bind, wp_load8, wp_load16, wp_load32]
  by_cases h20 : buf.length < 20
  case pos =>
    rw [if_pos h20]
    split_ifs <;> first | rfl | omega
  rw [if_neg h20]
  repeat rw [if_pos (by omega)]
  by_cases hf : (packet buf e).Fragmented
  case pos =>
    rw [if_pos hf, if_pos (by exact hf)]
    rfl
  rw [if_neg hf, if_neg (by exact hf)]
  by_cases hl : len < totallen buf
  case pos =>
    rw [if_pos hl, if_pos (by exact hl)]
    exact wp_pure
  rw [if_neg hl, if_neg (by exact hl)]
  rfl

theorem ipv4Parse_ok (hs : s.Ok) : wlp (ipv4Parse buf len e) (fun _ t => t.Ok) s := by
  rw [wlp_iff_wp, wp_ipv4Parse]
  -- The reads which leave the packet end in an error, of which nothing is demanded.
  split_ifs
  · exact hs
  · exact hs
  · exact wlp_iff_wp.mp (fragmentedTryinsert_ok hs)
  · exact hs
  · exact wlp_iff_wp.mp (wlp_post ipv4Dispatch_dispatched fun _ _ ht => ht.ok hs)

theorem etherParse_ok (hs : s.Ok) : wlp (etherParse buf) (fun _ t => t.Ok) s := by
  simp only [etherParse, wlp_bind]
  refine wlp_post (load16_untouched s) fun type t ht => ?_
  rw [wlp_modify]
  generalize hu : { t with queue := [], log := t.log ++ t.queue.map (NetEvent.respond · buf) } = u
  have hu : u.Ok := (ht.ok hs).congr (hu ▸ rfl) (hu ▸ rfl)
  split
  · rw [wlp_bind]
    exact wlp_post (lengthSub_untouched u) fun _ _ h => ipv4Parse_ok (h.ok hu)
  · rw [wlp_bind]
    refine wlp_post (lengthSub_untouched u) fun _ v h => ?_
    exact wlp_post (arpParse_untouched v) fun _ _ h' => h'.ok (h.ok hu)
  · exact wlp_pure.mpr hu

theorem NetRun.ok (r : NetRun s) : s.Ok := by
  induction r
  case init                 => exact ⟨nofun, .nil, fun h => absurd h.left List.not_mem_nil⟩
  case frame _ h hs         => exact wlp_of_ok (Q := fun _ t => t.Ok) h (etherParse_ok hs)
  case requests _ hi hf hs  => exact hs.congr hi hf

end Parse
end Camellia.Net
