import Camellia.Cmd.Net.Wire
import Camellia.Cmd.Net.Within

namespace Camellia.Net

-- There is no reassembly state for a datagram.
def Stack.Lacks (s : Stack) (key : Key) : Prop :=
  ∀ i inc, ¬s.Has key i inc

-- The payloads of a datagram which were passed on to its protocol.
def Stack.delivered (s : Stack) (key : Key) : List (List UInt8) :=
  (s.datagrams.filter (·.1 = key)).map Prod.snd

-- What a packet does to the datagram it belongs to: it is dropped, or the fragments are `fs` now.
def Outcome (key : Key) (s t : Stack) : Option (List Fragment) → Prop
  | none    => t.fragments key = s.fragments key ∧ t.datagrams = s.datagrams
  | some fs =>
    match verdict fs with
    | .wait    => t.fragments key = fs ∧ t.datagrams = s.datagrams
    | .discard => t.Lacks key ∧ t.datagrams = s.datagrams
    | .finish  => t.Lacks key ∧ t.datagrams = s.datagrams ++ [(key, whole fs)]

section Outcome

variable {s t u : Stack} {key key' : Key} {buf payload : List UInt8} {len plen i : ℕ} {inc : Fragmented}
variable {ip : Packet} {e : Ethernet} {fs : List Fragment}

theorem Others.trans (h₁ : Others key s t) (h₂ : Others key t u) : Others key s u :=
  fun key' hne i inc => (h₂ key' hne i inc).trans (h₁ key' hne i inc)

theorem others_congr (hi : t.incs = s.incs) (hf : t.fragmenteds = s.fragmenteds) : Others key s t :=
  fun _ _ _ _ => has_congr hi hf

theorem Others.lacks (h : Others key s t) (hne : key' ≠ key) (hl : s.Lacks key') : t.Lacks key' :=
  fun i inc hi => hl i inc ((h key' hne i inc).mp hi)

theorem Others.fragments (h : Others key s t) (hne : key' ≠ key) (hs : s.Ok) (ht : t.Ok) :
    t.fragments key' = s.fragments key' := by
  by_cases hl : s.Lacks key'
  case pos => rw [fragments_of_lacks hl, fragments_of_lacks (h.lacks hne hl)]
  case neg =>
    simp only [Stack.Lacks, not_forall, not_not] at hl
    have ⟨i, inc, hi⟩ := hl
    rw [hi.fragments hs, ((h key' hne i inc).mpr hi).fragments ht]

theorem fragmentedTryfinish_outcome (hs : s.Ok) (h : s.Has ip.key i inc) (hf : inc.first ≠ []) :
    wlp (fragmentedTryfinish i e) (fun _ t => Others ip.key s t ∧
      match verdict inc.first with
      | .wait    => t = s
      | .discard => t = s.remove i
      | .finish  => t.Lacks ip.key ∧ t.datagrams = s.datagrams ++ [(ip.key, whole inc.first)]) s := by
  have hg := h.right.left
  rw [wlp_iff_wp, wp_fragmentedTryfinish hg hf]
  cases verdict inc.first
  case wait    => exact ⟨others_congr rfl rfl, rfl⟩
  case discard => exact ⟨others_remove hs h, rfl⟩
  case finish  =>
    refine wp_post (wlp_iff_wp.mp ipv4Dispatch_dispatched) fun _ t ht => ?_
    refine (wp_freed (ht.incs ▸ hg)).mpr ?_
    have ht' : t.Has ip.key i inc := (has_congr ht.incs ht.fragmenteds).mpr h
    have hok := ht.ok hs
    split
    case isFalse => trivial
    case isTrue =>
      refine ⟨(others_congr ht.incs ht.fragmenteds).trans (others_remove hok ht'), fun j x => ?_, ?_⟩
      · exact lacks_remove hok ht' j x
      · refine ht.datagrams.trans ?_
        have hk : ({ inc.h with e := e } : Packet).key = ip.key := h.right.right
        rw [hk, List.take_length]

theorem fragmentedTryinsert_outcome (payload : List UInt8) (plen : ℕ) (ip : Packet) (hs : s.Ok) : wlp (fragmentedTryinsert payload plen ip)
    (fun _ t => Others ip.key s t ∧ Outcome ip.key s t (s.inserted payload plen ip)) s := by
  obtain ⟨t, inc, he, hw⟩ := wp_fragmentedTryinsert payload plen ip hs
  obtain ⟨x, hx, hok⟩ := he.ok.live _ he.has.left
  obtain rfl := Option.some.inj (he.has.right.left.symm.trans hx)
  have hdrop (hn : s.inserted payload plen ip = none) : Others ip.key s t ∧ Outcome ip.key s t (s.inserted payload plen ip) := by
    rw [hn]
    refine ⟨he.others, (he.has.fragments he.ok).trans he.first, ?_⟩
    rw [he.rest]
    rfl
  rw [wlp_iff_wp, hw]
  cases hi : insertAt ip.off inc.first
  case none => exact hdrop (by rw [Stack.inserted, ← he.first, hi, Option.bind_none])
  case some p =>
    obtain ⟨front, back⟩ := p
    dsimp only
    by_cases hl : ip.last = true ∧ back ≠ []
    case pos =>
      rw [if_pos hl]
      exact hdrop (by rw [Stack.inserted, ← he.first, hi, Option.bind_some, if_pos hl])
    rw [if_neg hl]
    split_ifs
    generalize hfs : front ++ ⟨ip.off, ip.last, payload.take plen⟩ :: back = fs
    have hins : s.inserted payload plen ip = some fs := by
      rw [Stack.inserted, ← he.first, hi, Option.bind_some, if_neg hl, hfs]
    generalize hinc' : inc.insert ip front back (payload.take plen) = inc'
    have hfirst : inc'.first = fs := hinc' ▸ hfs
    have hk : inc'.h.key = ip.key := hinc' ▸ key_insert front back _ he.has.right.right
    have hok' := he.ok.put he.has hk (hinc' ▸ hok.insert (payload.take plen) hi)
    have hhas : (t.put (s.record ip.key) inc').Has ip.key (s.record ip.key) inc' :=
      (has_put he.has hk).mpr (by simp)
    have hnil : inc'.first ≠ [] := by rw [hfirst, ← hfs]; simp
    have hd : (t.put (s.record ip.key) inc').datagrams = s.datagrams := by rw [he.rest]; rfl
    refine wlp_iff_wp.mp (wlp_post (fragmentedTryfinish_outcome hok' hhas hnil) fun _ u hx => ?_)
    obtain ⟨ho, hu⟩ := hx
    refine ⟨he.others.trans ((others_put he.has hk).trans ho), ?_⟩
    rw [hins]
    simp only [Outcome]
    rw [hfirst] at hu
    cases hv : verdict fs <;> simp only [hv] at hu
    case wait    => exact hu ▸ ⟨(hhas.fragments hok').trans hfirst, hd⟩
    case discard => exact hu ▸ ⟨lacks_remove hok' hhas, hd⟩
    case finish  => exact ⟨hu.left, hu.right.trans (by rw [hd])⟩

end Outcome

section Collect

variable {fs gs : List Fragment} {f : Fragment} {p : Fragment → Bool}

theorem insertAt_of_lt {off : ℕ} (h : ∀ g ∈ gs, off < g.offset) : insertAt off gs = some ([], gs) := by
  cases gs
  case nil          => rfl
  case cons g gs => rw [insertAt, if_pos (h g (List.mem_cons_self ..))]

-- Some of the fragments are there, and another one finds its place among them, unless it is there already.
theorem insertAt_filter_none (hs : fs.Pairwise (·.offset < ·.offset)) (hf : f ∈ fs) (hp : p f = true) :
    insertAt f.offset (fs.filter p) = none := by
  induction fs
  case nil => simp at hf
  case cons g gs hi =>
    have ⟨hg, hs⟩ := List.pairwise_cons.mp hs
    obtain rfl | hf := List.mem_cons.mp hf
    case inl => rw [List.filter_cons_of_pos hp, insertAt, if_neg (lt_irrefl _), if_pos rfl]
    have := hg f hf
    by_cases hpg : p g = true
    case pos => rw [List.filter_cons_of_pos hpg, insertAt, if_neg (by omega), if_neg (by omega), hi hs hf, Option.map_none]
    case neg => rw [List.filter_cons_of_neg hpg, hi hs hf]

theorem insertAt_filter_some (hs : fs.Pairwise (·.offset < ·.offset)) (hf : f ∈ fs) (hp : p f = false) :
    ∃ front back, insertAt f.offset (fs.filter p) = some (front, back) ∧
      front ++ f :: back = fs.filter fun g => p g || decide (g = f) := by
  induction fs
  case nil => simp at hf
  case cons g gs hi =>
    have ⟨hg, hs⟩ := List.pairwise_cons.mp hs
    obtain rfl | hf := List.mem_cons.mp hf
    case inl =>
      have hne : ∀ x ∈ gs, x ≠ f := fun x hx he => (hg x hx).ne (by rw [he])
      have hfilter : gs.filter (fun x => p x || decide (x = f)) = gs.filter p :=
        List.filter_congr fun x hx => by simp [hne x hx]
      refine ⟨[], gs.filter p, ?_, ?_⟩
      · rw [List.filter_cons_of_neg (by simp [hp])]
        exact insertAt_of_lt fun x hx => hg x (List.mem_of_mem_filter hx)
      · rw [List.filter_cons_of_pos (by simp), hfilter, List.nil_append]
    have hlt := hg f hf
    have hne : g ≠ f := fun he => hlt.ne (by rw [he])
    have ⟨front, back, hi, hfb⟩ := hi hs hf
    by_cases hpg : p g = true
    case pos =>
      refine ⟨g :: front, back, ?_, ?_⟩
      · rw [List.filter_cons_of_pos hpg, insertAt, if_neg (by omega), if_neg (by omega), hi, Option.map_some]
      · rw [List.filter_cons_of_pos (by simp [hpg]), ← hfb, List.cons_append]
    case neg =>
      refine ⟨front, back, ?_, ?_⟩
      · rw [List.filter_cons_of_neg hpg, hi]
      · rw [List.filter_cons_of_neg (by simp [hpg, hne]), hfb]

theorem Tiles.verdict_filter (h : Tiles fs) (hz : ∃ f, fs.head? = some f ∧ f.offset = 0) (hm : ∃ g ∈ fs, p g = false) :
    verdict (fs.filter p) = .wait := by
  have ⟨f, hf, hz⟩ := hz
  obtain ⟨gs, rfl⟩ := List.head?_eq_some_iff.mp hf
  by_cases hp : p f = true
  case pos =>
    have hm' : ∃ g ∈ gs, p g = false := by
      have ⟨x, hx, hpx⟩ := hm
      obtain rfl | hx := List.mem_cons.mp hx
      · exact absurd hp (by simp [hpx])
      · exact ⟨x, hx, hpx⟩
    rw [List.filter_cons_of_pos hp, verdict, h.progress_filter hm', ite_self]
  case neg =>
    rw [List.filter_cons_of_neg hp, verdict]
    cases hgs : gs.filter p
    case nil => rfl
    case cons x xs =>
      have hx : x ∈ gs := List.mem_of_mem_filter (hgs ▸ List.mem_cons_self ..)
      have := (List.pairwise_cons.mp h.sorted).left x hx
      exact if_neg (by simp; omega)

theorem Tiles.verdict (h : Tiles fs) (hz : ∃ f, fs.head? = some f ∧ f.offset = 0) : Net.verdict fs = .finish := by
  have ⟨f, hf, hz⟩ := hz
  rw [Net.verdict, hf, if_pos (by simpa using hz), h.progress]

-- A fragment which is the whole datagram is the only one.
theorem Tiles.eq_singleton (h : Tiles fs) (hf : f ∈ fs) (hz : f.offset = 0) (hl : f.last = true) : fs = [f] := by
  cases fs
  case nil => exact h.elim
  case cons g gs =>
    cases gs
    case nil => rw [List.mem_singleton.mp hf]
    case cons x gs =>
      have := (List.pairwise_cons.mp h.sorted).left x (List.mem_cons_self ..)
      have := h.last hf hl (List.mem_cons_of_mem _ (List.mem_cons_self ..))
      omega

end Collect

section Pieces

variable {s t : Stack} {key : Key} {h : Sender} {fs : List Fragment} {f : Fragment} {p : Fragment → Bool}
variable {buf : List UInt8} {len : ℕ} {e : Ethernet}

theorem inserted_none (ht : Tiles fs) (hf : f ∈ fs) (hsm : f.Small) (hg : s.fragments h.key = fs.filter p) (hp : p f = true) :
    s.inserted ((h.wire f).drop 20) f.buf.length (packet (h.wire f) e) = none := by
  have r := reads_wire (h := h) hsm
  rw [Stack.inserted, r.key, hg, r.off hsm, insertAt_filter_none ht.sorted hf hp, Option.bind_none]

theorem inserted_some (ht : Tiles fs) (hf : f ∈ fs) (hsm : f.Small) (hg : s.fragments h.key = fs.filter p) (hp : p f = false) :
    s.inserted ((h.wire f).drop 20) f.buf.length (packet (h.wire f) e) = some (fs.filter fun g => p g || decide (g = f)) := by
  have r := reads_wire (h := h) hsm
  have ⟨front, back, hi, hfb⟩ := insertAt_filter_some ht.sorted hf hp
  have hlast : ¬(f.last = true ∧ back ≠ []) := by
    rintro ⟨hl, hne⟩
    obtain ⟨x, xs, rfl⟩ := List.exists_cons_of_ne_nil hne
    have hs : (fs.filter p).Pairwise (·.offset < ·.offset) := ht.sorted.filter _
    have hx : x ∈ fs.filter p := (insertAt_some hs hi).left ▸ by simp
    have := (insertAt_some hs hi).right.right x (List.mem_cons_self ..)
    have := ht.last hf hl (List.mem_of_mem_filter hx)
    omega
  rw [Stack.inserted, r.key, hg, r.off hsm, hi, Option.bind_some, r.last hsm, if_neg hlast, r.payload, ← hfb]

theorem ipv4Parse_piece (len : ℕ) (hs : s.Ok) (hsm : f.Small) (hn : ¬(f.offset = 0 ∧ f.last = true)) :
    wlp (ipv4Parse (h.wire f) len e) (fun _ t => Others h.key s t ∧
      Outcome h.key s t (s.inserted ((h.wire f).drop 20) f.buf.length (packet (h.wire f) e))) s := by
  have r := reads_wire (h := h) hsm
  have hl := r.length
  have hp : totallen (h.wire f) - headerlen (h.wire f) = f.buf.length := by
    rw [totallen, r.totallen, r.headerlen]
    omega
  rw [wlp_iff_wp, wp_ipv4Parse, if_neg (by omega), if_neg (not_not.mpr r.version), if_neg (by omega),
    if_neg (by rw [totallen, r.totallen, r.headerlen]; omega), if_neg (by omega), if_pos ((r.fragmented hsm).mpr hn),
    hp, r.headerlen]
  have ho := fragmentedTryinsert_outcome ((h.wire f).drop 20) f.buf.length (packet (h.wire f) e) hs
  rw [r.key] at ho
  exact wlp_iff_wp.mp ho

-- The only packet of a datagram is passed on at once.
theorem ipv4Parse_single (hsm : f.Small) (hz : f.offset = 0) (hl : f.last = true) :
    wlp (ipv4Parse (h.wire f) (h.wire f).length e) (fun _ t => Dispatched h.key f.buf s t) s := by
  have r := reads_wire (h := h) hsm
  have hlen := r.length
  have hp : totallen (h.wire f) - headerlen (h.wire f) = f.buf.length := by
    rw [totallen, r.totallen, r.headerlen]
    omega
  have hfr : ¬(packet (h.wire f) e).Fragmented := fun hfr => (r.fragmented hsm).mp hfr ⟨hz, hl⟩
  rw [wlp_iff_wp, wp_ipv4Parse, if_neg (by omega), if_neg (not_not.mpr r.version), if_neg (by omega),
    if_neg (by rw [totallen, r.totallen, r.headerlen]; omega), if_neg (by omega), if_neg hfr,
    if_neg (by rw [totallen, r.totallen]; omega), hp, r.headerlen]
  refine wlp_iff_wp.mp (wlp_post ipv4Dispatch_dispatched fun _ t ht => ?_)
  rwa [r.key, r.payload] at ht

-- A packet of another datagram changes nothing about this one.
structure Aside (key : Key) (s t : Stack) : Prop where
  ok        : t.Ok
  lacks     : s.Lacks key → t.Lacks key
  fragments : t.fragments key = s.fragments key
  delivered : t.delivered key = s.delivered key

theorem Aside.trans {u : Stack} (h₁ : Aside key s t) (h₂ : Aside key t u) : Aside key s u where
  ok        := h₂.ok
  lacks     := h₂.lacks ∘ h₁.lacks
  fragments := h₂.fragments.trans h₁.fragments
  delivered := h₂.delivered.trans h₁.delivered

theorem delivered_append {ds : List (Key × List UInt8)} (h : t.datagrams = s.datagrams ++ ds) :
    t.delivered key = s.delivered key ++ (ds.filter (·.1 = key)).map Prod.snd := by
  rw [Stack.delivered, h, List.filter_append, List.map_append]
  rfl

theorem Outcome.delivered_eq {key' : Key} {o : Option (List Fragment)} (h : Outcome key' s t o) (hne : key' ≠ key) :
    t.delivered key = s.delivered key := by
  have he {ds : List (Key × List UInt8)} (hd : t.datagrams = s.datagrams ++ ds) (hds : ∀ d ∈ ds, d.1 = key') :
      t.delivered key = s.delivered key := by
    rw [delivered_append hd, List.filter_eq_nil_iff.mpr fun d hd => by simp [hds d hd, hne], List.map_nil, List.append_nil]
  cases o
  case none => exact he (h.right.trans (List.append_nil _).symm) (by simp)
  case some fs =>
    simp only [Outcome] at h
    cases hv : Net.verdict fs <;> simp only [hv] at h
    case wait    => exact he (h.right.trans (List.append_nil _).symm) (by simp)
    case discard => exact he (h.right.trans (List.append_nil _).symm) (by simp)
    case finish  => exact he h.right (by simp)

theorem ipv4Parse_aside (hs : s.Ok) (hne : (packet buf e).key ≠ key) :
    wlp (ipv4Parse buf len e) (fun _ t => Aside key s t) s := by
  have haside {t : Stack} (ht : t.Ok) (ho : Others (packet buf e).key s t) (hd : t.delivered key = s.delivered key) :
      Aside key s t := ⟨ht, ho.lacks hne.symm, ho.fragments hne.symm hs ht, hd⟩
  have hrefl : Aside key s s := haside hs (others_congr rfl rfl) rfl
  rw [wlp_iff_wp, wp_ipv4Parse]
  split_ifs
  · exact hrefl
  · exact hrefl
  · refine wlp_iff_wp.mp (wlp_post (wlp_and (fragmentedTryinsert_outcome _ _ _ hs) (fragmentedTryinsert_ok hs)) ?_)
    exact fun _ t ⟨⟨ho, hout⟩, ht⟩ => haside ht ho (hout.delivered_eq hne)
  · exact hrefl
  · refine wlp_iff_wp.mp (wlp_post ipv4Dispatch_dispatched fun _ t ht => ?_)
    refine haside (ht.ok hs) (others_congr ht.incs ht.fragmenteds) ?_
    rw [delivered_append ht.datagrams]
    simp [hne]

end Pieces

-- A packet as it is received, with the addresses of its frame.
abbrev Received := Ethernet × List UInt8

def Received.key (x : Received) : Key :=
  (packet x.2 x.1).key

def parse (x : Received) : NetM PUnit :=
  ipv4Parse x.2 x.2.length x.1

-- The packet is parsed within its bytes. If it finishes a datagram, then the link of the freed fragment
-- still is what it was before.
def Sound (s : Stack) (x : Received) : Prop :=
  PacketFits s x.2 x.1 ∧ (PacketFinishes s x.2 x.1 → s.kept (s.record x.key) = true)

-- All packets are sound in the states in which they arrive.
inductive Fair : Stack → List Received → Prop
  | nil {s : Stack} : Fair s []
  | cons {s : Stack} {x : Received} {xs : List Received} (hx : Sound s x)
    (h : ∀ t, parse x s = .ok (⟨⟩, t) → Fair t xs) : Fair s (x :: xs)

section Run

variable {s t : Stack} {key : Key} {h : Sender} {fs : List Fragment} {payload : List UInt8} {x z : Received}
variable {xs ys before after : List Received} {seen : List (List UInt8)}

theorem exists_parse (hs : s.Ok) (hx : Sound s x) : ∃ t, parse x s = .ok (⟨⟩, t) := by
  have hw : wp (parse x) (fun _ _ => True) (fun _ => False) s :=
    (wp_ipv4Parse_iff hs id id).mpr ⟨hx.left, fun hf => .inl (hx.right hf)⟩
  have ⟨_, t, ht, _⟩ := wp_false_iff.mp hw
  exact ⟨t, ht⟩

-- Packets arrive one after the other, and the stack gets through all of them.
inductive Arrives : Stack → List Received → Stack → Prop
  | nil {s : Stack} : Arrives s [] s
  | cons {s t u : Stack} {x : Received} {xs : List Received} (h : parse x s = .ok (⟨⟩, t)) (hxs : Arrives t xs u) :
    Arrives s (x :: xs) u

theorem arrives_aside (ys : List Received) (hs : s.Ok) (hf : Fair s (xs ++ ys)) (hk : ∀ x ∈ xs, x.key ≠ key) :
    ∃ t, Arrives s xs t ∧ Aside key s t ∧ Fair t ys := by
  induction xs generalizing s
  case nil => exact ⟨s, .nil, ⟨hs, id, rfl, rfl⟩, hf⟩
  case cons x xs hi =>
    cases hf
    case cons hx hf =>
      have ⟨t, ht⟩ := exists_parse hs hx
      have ha := wlp_of_ok ht (ipv4Parse_aside hs (hk x (List.mem_cons_self ..)))
      have ⟨u, hu, ha', hf'⟩ := hi ha.ok (hf t ht) fun y hy => hk y (List.mem_cons_of_mem _ hy)
      exact ⟨u, .cons ht hu, ha.trans ha', hf'⟩

-- A datagram as it is cut into fragments.
structure Cut (h : Sender) (fs : List Fragment) : Prop where
  tiles : Tiles fs
  head  : ∃ f, fs.head? = some f ∧ f.offset = 0
  small : ∀ f ∈ fs, f.Small

-- What is there of a datagram after some packets were seen.
def seenOf (h : Sender) (fs : List Fragment) (seen : List (List UInt8)) : List Fragment :=
  fs.filter (h.wire · ∈ seen)

theorem eq_of_offset {f g : Fragment} (hs : fs.Pairwise (·.offset < ·.offset)) (hf : f ∈ fs) (hg : g ∈ fs)
    (he : f.offset = g.offset) : f = g := by
  induction fs
  case nil => simp at hf
  case cons x xs hi =>
    have ⟨hx, hs⟩ := List.pairwise_cons.mp hs
    obtain rfl | hf' := List.mem_cons.mp hf <;> obtain rfl | hg' := List.mem_cons.mp hg
    · rfl
    · exact absurd (hx g hg') (by omega)
    · exact absurd (hx f hf') (by omega)
    · exact hi hs hf' hg'

theorem Cut.wire_inj {f g : Fragment} (c : Cut h fs) (hf : f ∈ fs) (hg : g ∈ fs) (he : h.wire f = h.wire g) : f = g :=
  eq_of_offset c.tiles.sorted hf hg (Net.wire_inj (c.small f hf) (c.small g hg) he)

theorem seenOf_insert {f : Fragment} (c : Cut h fs) (hf : f ∈ fs) :
    (fs.filter fun g => decide (h.wire g ∈ seen) || decide (g = f)) = seenOf h fs (seen ++ [h.wire f]) := by
  refine List.filter_congr fun g hg => ?_
  have hi : h.wire g = h.wire f ↔ g = f := ⟨c.wire_inj hg hf, congrArg h.wire⟩
  simp [hi]

theorem seenOf_of_mem {buf : List UInt8} (hb : buf ∈ seen) : seenOf h fs (seen ++ [buf]) = seenOf h fs seen := by
  refine List.filter_congr fun g _ => ?_
  simp only [List.mem_append, List.mem_singleton, decide_eq_decide]
  exact ⟨fun ho => ho.elim id fun he => he ▸ hb, .inl⟩

theorem seenOf_of_key (c : Cut h fs) (hx : x.key ≠ h.key) : seenOf h fs (seen ++ [x.2]) = seenOf h fs seen := by
  refine List.filter_congr fun g hg => ?_
  have hne : h.wire g ≠ x.2 := fun he => hx (by rw [Received.key, ← he]; exact (reads_wire (c.small g hg)).key)
  simp [hne]

variable (c : Cut h fs)
include c

-- The datagram is not complete yet, so its fragments are collected.
theorem parse_collect (hs : s.Ok) (hx : Sound s x) (hn : ∀ f ∈ fs, ¬(f.offset = 0 ∧ f.last = true))
    (ho : (∃ f ∈ fs, x.2 = h.wire f) ∨ x.key ≠ h.key) (hg : s.fragments h.key = seenOf h fs seen)
    (hm : ∃ f ∈ fs, h.wire f ∉ seen ++ [x.2]) :
    ∃ t, parse x s = .ok (⟨⟩, t) ∧ t.Ok ∧ t.fragments h.key = seenOf h fs (seen ++ [x.2]) ∧
      t.delivered h.key = s.delivered h.key := by
  have ⟨t, ht⟩ := exists_parse hs hx
  have hok := wlp_of_ok (Q := fun _ (t : Stack) => t.Ok) ht (ipv4Parse_ok hs)
  refine ⟨t, ht, hok, ?_⟩
  obtain ⟨f, hf, he⟩ | hk := ho
  case inr =>
    have ha := wlp_of_ok ht (ipv4Parse_aside hs hk)
    exact ⟨by rw [ha.fragments, hg, seenOf_of_key c hk], ha.delivered⟩
  obtain ⟨e, buf⟩ := x
  subst he
  have ⟨_, hout⟩ := wlp_of_ok ht (ipv4Parse_piece (h.wire f).length hs (c.small f hf) (hn f hf))
  have hd (hd : t.datagrams = s.datagrams) : t.delivered h.key = s.delivered h.key := by rw [Stack.delivered, hd]; rfl
  by_cases hin : h.wire f ∈ seen
  case pos =>
    rw [inserted_none c.tiles hf (c.small f hf) hg (by simpa using hin)] at hout
    exact ⟨by rw [hout.left, hg, seenOf_of_mem hin], hd hout.right⟩
  case neg =>
    have hv : verdict (seenOf h fs (seen ++ [h.wire f])) = .wait :=
      c.tiles.verdict_filter c.head (by simpa using hm)
    rw [inserted_some c.tiles hf (c.small f hf) hg (by simpa using hin), seenOf_insert c hf] at hout
    simp only [Outcome, hv] at hout
    exact ⟨hout.left, hd hout.right⟩

theorem arrives_collect (hs : s.Ok) (hf : Fair s (xs ++ ys)) (hn : ∀ f ∈ fs, ¬(f.offset = 0 ∧ f.last = true))
    (ho : ∀ x ∈ xs, (∃ f ∈ fs, x.2 = h.wire f) ∨ x.key ≠ h.key) (hg : s.fragments h.key = seenOf h fs seen)
    (hm : ∃ f ∈ fs, h.wire f ∉ seen ++ xs.map Prod.snd) :
    ∃ t, Arrives s xs t ∧ t.Ok ∧ Fair t ys ∧ t.fragments h.key = seenOf h fs (seen ++ xs.map Prod.snd) ∧
      t.delivered h.key = s.delivered h.key := by
  induction xs generalizing s seen
  case nil => exact ⟨s, .nil, hs, hf, by simpa using hg, rfl⟩
  case cons x xs hi =>
    cases hf
    case cons hx hf =>
      have hl : seen ++ (x :: xs).map Prod.snd = seen ++ [x.2] ++ xs.map Prod.snd := by simp
      rw [hl] at hm ⊢
      have hm' : ∃ f ∈ fs, h.wire f ∉ seen ++ [x.2] :=
        have ⟨f, hf, hm⟩ := hm
        ⟨f, hf, fun hin => hm (List.mem_append_left _ hin)⟩
      have ⟨t, ht, hok, hg', hd⟩ := parse_collect c hs hx hn (ho x (List.mem_cons_self ..)) hg hm'
      have ⟨u, hu, hok', hfair, hg'', hd'⟩ := hi hok (hf t ht) (fun y hy => ho y (List.mem_cons_of_mem _ hy)) hg' hm
      exact ⟨u, .cons ht hu, hok', hfair, hg'', hd'.trans hd⟩

-- The last missing fragment completes the datagram.
theorem parse_complete (hs : s.Ok) (hx : Sound s x) (hn : ∀ f ∈ fs, ¬(f.offset = 0 ∧ f.last = true))
    (hz : ∃ f ∈ fs, x.2 = h.wire f) (hg : s.fragments h.key = seenOf h fs seen) (hnew : x.2 ∉ seen)
    (hall : ∀ f ∈ fs, h.wire f ∈ seen ++ [x.2]) :
    ∃ t, parse x s = .ok (⟨⟩, t) ∧ t.Ok ∧ t.Lacks h.key ∧ t.delivered h.key = s.delivered h.key ++ [whole fs] := by
  have ⟨t, ht⟩ := exists_parse hs hx
  refine ⟨t, ht, wlp_of_ok (Q := fun _ (t : Stack) => t.Ok) ht (ipv4Parse_ok hs), ?_⟩
  obtain ⟨f, hf, he⟩ := hz
  obtain ⟨e, buf⟩ := x
  subst he
  have ⟨_, hout⟩ := wlp_of_ok ht (ipv4Parse_piece (h.wire f).length hs (c.small f hf) (hn f hf))
  have hseen : seenOf h fs (seen ++ [h.wire f]) = fs := List.filter_eq_self.mpr fun g hg => by simpa using hall g hg
  rw [inserted_some c.tiles hf (c.small f hf) hg (by simpa using hnew), seenOf_insert c hf, hseen] at hout
  simp only [Outcome, c.tiles.verdict c.head] at hout
  refine ⟨hout.left, ?_⟩
  rw [delivered_append hout.right]
  simp

omit c

theorem cut_pieces (hl : payload ≠ []) (hu : payload.length < 2 ^ 16) : Cut h (pieces payload payload.length 0) where
  tiles := tiles_pieces (List.length_pos_iff.mpr hl) (by omega)
  head  := head_pieces (List.length_pos_iff.mpr hl) (List.length_pos_iff.mpr hl)
  small := fun _ hf => small_of_mem_pieces hu (Nat.dvd_zero 8) hf

-- The datagram is passed on with its payload when its last missing fragment arrives, neither earlier nor
-- again, and there is no state left for it.
def Delivers (key : Key) (payload : List UInt8) (s : Stack) (before : List Received) (z : Received)
    (after : List Received) : Prop :=
  ∃ t u v, Arrives s before t ∧ parse z t = .ok (⟨⟩, u) ∧ Arrives u after v ∧
    t.delivered key = s.delivered key ∧ u.delivered key = s.delivered key ++ [payload] ∧
    v.delivered key = u.delivered key ∧ u.Lacks key ∧ v.Lacks key

-- The packets of a datagram arrive in any order, among packets of other datagrams and some of them more
-- often than once, where `z` is the one which is missing until then.
structure Arrival (frames : List (List UInt8)) (key : Key) (s : Stack) (before : List Received) (z : Received)
    (after : List Received) : Prop where
  unused  : s.Lacks key
  early   : ∀ x ∈ before, x.2 ∈ frames.map (·.drop 14) ∨ x.key ≠ key
  last    : z.2 ∈ frames.map (·.drop 14)
  missing : z.2 ∉ before.map Prod.snd
  all     : ∀ pkt ∈ frames.map (·.drop 14), pkt ∈ before.map Prod.snd ++ [z.2]
  late    : ∀ x ∈ after, x.key ≠ key

theorem ipv4Send_delivers {s₁ t₁ : Stack} {ip : Outgoing} {frames : List (List UInt8)} (r : NetRun s)
    (hl : 1 ≤ payload.length) (hu : payload.length ≤ 65535) (hsend : ipv4Send payload ip s₁ = .ok (⟨⟩, t₁))
    (hlog : t₁.log = s₁.log ++ frames.map .frame) (ha : Arrival frames (s₁.sender ip).key s before z after)
    (hf : Fair s (before ++ z :: after)) : Delivers (s₁.sender ip).key payload s before z after := by
  have ⟨hid, hbefore, hz, hmissing, hall, hafter⟩ := ha
  have hne : payload ≠ [] := List.length_pos_iff.mp hl
  generalize hh : s₁.sender ip = h at *
  have hw : frames.map (·.drop 14) = (pieces payload payload.length 0).map h.wire := hh ▸ wires_of_send hne hsend hlog
  have c : Cut h (pieces payload payload.length 0) := cut_pieces hne (by omega)
  have hwhole : whole (pieces payload payload.length 0) = payload := whole_pieces (by omega)
  rw [hw] at hz hall hbefore
  generalize pieces payload payload.length 0 = fs at *
  have ⟨f, hff, hzf⟩ := List.mem_map.mp hz
  have hours (x : Received) (hx : x ∈ before) : (∃ g ∈ fs, x.2 = h.wire g) ∨ x.key ≠ h.key :=
    (hbefore x hx).imp_left fun hm => (List.mem_map.mp hm).imp fun _ ⟨hg, he⟩ => ⟨hg, he.symm⟩
  have hlast {t : Stack} (ht : t.Ok) (hd : t.delivered h.key = s.delivered h.key) (ha : Arrives s before t)
      (hfair : Fair t (z :: after)) (hp : ∃ u, parse z t = .ok (⟨⟩, u) ∧ u.Ok ∧ u.Lacks h.key ∧
        u.delivered h.key = t.delivered h.key ++ [whole fs]) : Delivers h.key payload s before z after := by
    have ⟨u, hu, hok, hlack, hdu⟩ := hp
    cases hfair
    case cons _ hfair =>
      have ⟨v, hv, hav, _⟩ := arrives_aside [] hok (by simpa using hfair u hu) hafter
      exact ⟨t, u, v, ha, hu, hv, hd, by rw [hdu, hd, hwhole], hav.delivered, hlack, hav.lacks hlack⟩
  by_cases hn : ∀ g ∈ fs, ¬(g.offset = 0 ∧ g.last = true)
  case pos =>
    have hg : s.fragments h.key = seenOf h fs [] := by
      rw [fragments_of_lacks hid]
      exact (List.filter_eq_nil_iff.mpr (by simp)).symm
    have ⟨t, ha, hok, hfair, hgt, hd⟩ := arrives_collect c r.ok hf hn hours hg ⟨f, hff, by rw [hzf]; simpa using hmissing⟩
    refine hlast hok hd ha hfair ?_
    have hx : Sound t z := by
      cases hfair
      case cons hx _ => exact hx
    refine parse_complete c hok hx hn ⟨f, hff, hzf.symm⟩ hgt (by simpa using hmissing) fun g hg => ?_
    simpa using hall _ (List.mem_map_of_mem hg)
  case neg =>
    -- A single packet which is not a fragment.
    simp only [not_forall, not_not] at hn
    have ⟨g, hg, hz0, hl⟩ := hn
    have hfs := c.tiles.eq_singleton hg hz0 hl
    subst hfs
    obtain rfl := List.mem_singleton.mp hff
    have hforeign : ∀ x ∈ before, x.key ≠ h.key := fun x hx => (hours x hx).resolve_left fun ⟨y, hy, he⟩ => by
      rw [List.mem_singleton.mp hy, hzf] at he
      exact hmissing (he ▸ List.mem_map_of_mem hx)
    have ⟨t, ha, has, hfair⟩ := arrives_aside (z :: after) r.ok hf hforeign
    refine hlast has.ok has.delivered ha hfair ?_
    have hx : Sound t z := by
      cases hfair
      case cons hx _ => exact hx
    have ⟨u, hu⟩ := exists_parse has.ok hx
    obtain ⟨e, buf⟩ := z
    dsimp only at hzf
    subst hzf
    have hd := wlp_of_ok hu (ipv4Parse_single (c.small f hff) hz0 hl)
    refine ⟨u, hu, hd.ok has.ok, fun i inc hi => has.lacks hid i inc ((has_congr hd.incs hd.fragmenteds).mp hi), ?_⟩
    rw [delivered_append hd.datagrams]
    simp [whole]

-- Packets of a protocol which the stack does not know are always parsed within their bytes.
theorem packetFits_wire {f : Fragment} {e : Ethernet} (hsm : f.Small) (hp : h.proto ≠ 0x11) : PacketFits s (h.wire f) e := by
  have r := reads_wire (h := h) hsm
  have hl := r.length
  have hproto : (packet (h.wire f) e).proto ≠ 0x11 := fun he => hp (UInt8.toNat_inj.mp (r.proto.symm.trans he))
  refine ⟨by omega, fun _ => ⟨by omega, fun _ => ⟨by omega, ?_⟩⟩⟩
  split
  · refine fun fs _ => ⟨?_, fun _ => ?_, fun _ he => absurd he hproto⟩
    · rw [totallen, r.totallen, r.headerlen, List.length_drop]
      omega
    · show headerlen (h.wire f) ≤ (h.wire f).length
      rw [r.headerlen]
      omega
  · exact fun _ he => absurd he hproto

theorem exists_send (s : Stack) (ip : Outgoing) (hl : payload ≠ []) (hm : ip.mac ≠ none) :
    ∃ (frames : List (List UInt8)) (t : Stack), ipv4Send payload ip s = .ok (⟨⟩, t) ∧
      t.log = s.log ++ frames.map .frame ∧
      frames.map (·.drop 14) = (pieces payload payload.length 0).map (s.sender ip).wire := by
  have hw : wp (ipv4Send payload ip) (fun _ _ => True) (fun _ => False) s := wp_ipv4Send hm
  have ⟨_, t, ht, _⟩ := wp_false_iff.mp hw
  have ⟨mac, hlog⟩ := wlp_of_ok ht (ipv4Send_log hl)
  have hlog' : t.log = s.log ++ ((pieces payload payload.length 0).map fun f =>
      etherFrame s.mac mac ET_IPv4 ((s.sender ip).packet f)).map .frame := by
    rw [hlog, List.map_map]
    rfl
  exact ⟨_, t, ht, hlog', wires_of_send hl ht hlog'⟩

end Run

-- A payload for which two packets are needed.
def longPayload : List UInt8 :=
  List.replicate 1481 0

def longFragments : Fragment × Fragment :=
  (⟨0, false, List.replicate 1480 0⟩, ⟨1480, true, [0]⟩)

theorem pieces_longPayload : pieces longPayload longPayload.length 0 = [longFragments.1, longFragments.2] := by
  decide +kernel

def receiver9 (kept : Bool) : Stack :=
  .init [] 9 fun _ => kept

theorem receiver9_kept {kept : Bool} {i : ℕ} : (receiver9 kept).kept i = kept :=
  rfl

def longOutgoing : Outgoing :=
  ⟨7, 9, 42, some []⟩

def longSender : Sender :=
  (receiver9 true).sender longOutgoing

def received (f : Fragment) : Received :=
  (⟨[], [], ET_IPv4⟩, longSender.wire f)

theorem small_long : longFragments.1.Small ∧ longFragments.2.Small :=
  ⟨⟨by decide, by decide, by decide +kernel⟩, ⟨by decide, by decide, by decide⟩⟩

theorem received_snd {f : Fragment} : (received f).2 = longSender.wire f :=
  rfl

theorem sound_received {s : Stack} {f : Fragment} (hsm : f.Small) (hk : s.kept (s.record (received f).key) = true) :
    Sound s (received f) :=
  ⟨packetFits_wire hsm (by decide), fun _ => hk⟩

-- The fragments arrive in the wrong order.
theorem exists_arrival (kept : Bool) : ∃ (frames : List (List UInt8)) (t : Stack),
    ipv4Send longPayload longOutgoing (receiver9 true) = .ok (⟨⟩, t) ∧ t.log = (receiver9 true).log ++ frames.map .frame ∧
      Arrival frames longSender.key (receiver9 kept) [received longFragments.2] (received longFragments.1) [] := by
  have hl : longPayload ≠ [] := by decide +kernel
  have ⟨frames, t, hsend, hlog, hw⟩ := exists_send (receiver9 true) longOutgoing hl (by decide)
  rw [pieces_longPayload, List.map_cons, List.map_singleton] at hw
  refine ⟨frames, t, hsend, hlog, ⟨fun _ _ h => absurd h.left List.not_mem_nil, ?_, ?_, ?_, ?_, nofun⟩⟩
  · intro x hx
    rw [List.mem_singleton.mp hx, hw, received_snd]
    exact .inl (List.mem_cons_of_mem _ (List.mem_cons_self ..))
  · rw [hw, received_snd]
    exact List.mem_cons_self ..
  · exact fun hm => absurd (wire_inj small_long.left small_long.right (List.mem_singleton.mp hm)) (by decide)
  · intro pkt hm
    rw [hw] at hm
    rw [List.map_singleton, received_snd, received_snd]
    exact (List.mem_cons.mp hm).elim (fun he => List.mem_append_right _ (List.mem_singleton.mpr he))
      (List.mem_append_left _)

theorem ipv4Send_delivers_reversed : Delivers longSender.key longPayload (receiver9 true)
    [received longFragments.2] (received longFragments.1) [] := by
  obtain ⟨frames, t, hsend, hlog, ha⟩ := exists_arrival true
  refine ipv4Send_delivers .init (by decide +kernel) (by decide +kernel) hsend hlog ha ?_
  refine .cons (sound_received small_long.right receiver9_kept) fun t ht => ?_
  have hk : (parse (received longFragments.2) (receiver9 true)).toOption.all
      (fun r => r.snd.kept (r.snd.record (received longFragments.1).key)) := by decide +kernel
  rw [ht] at hk
  exact .cons (sound_received small_long.left hk) fun _ _ => .nil

-- The loop goes on with the link of the last fragment, although it was freed. If there is something else
-- in its memory by then, then anything may happen.
theorem not_delivers_overwritten : ¬∀ {s s₁ t₁ : Stack} {ip : Outgoing} {payload : List UInt8} {frames : List (List UInt8)}
    {before after : List Received} {z : Received}, NetRun s → 1 ≤ payload.length → payload.length ≤ 65535 →
      ipv4Send payload ip s₁ = .ok (⟨⟩, t₁) → t₁.log = s₁.log ++ frames.map .frame →
      Arrival frames (s₁.sender ip).key s before z after → Delivers (s₁.sender ip).key payload s before z after := by
  intro h
  obtain ⟨frames, t, hsend, hlog, ha⟩ := exists_arrival false
  obtain ⟨t, u, v, hbefore, hz, _⟩ := @h (receiver9 false) _ _ _ _ _ _ _ _ .init (by decide +kernel) (by decide +kernel) hsend hlog ha
  cases hbefore
  case cons hx hnil =>
    cases hnil
    have hk : (parse (received longFragments.2) (receiver9 false)).toOption.all
        (fun r => (parse (received longFragments.1) r.snd).toOption.isNone) := by decide +kernel
    rw [hx] at hk
    simp only [Except.toOption, Option.all_some] at hk
    rw [hz] at hk
    exact Bool.false_ne_true hk

end Camellia.Net
