import Camellia.Kernel.ProcfsOpen

namespace Camellia

-- The id of a process in a namespace, if it is a member.
def nsIdOf (s : State) (ns q : Pid) : ℕ :=
  match procNsId ns q s with
  | .ok (id, _) => id
  | .error _    => 0

-- The NUL-terminated names of the directories of some processes.
def listing (s : State) (root : Pid) (l : List Pid) : List UInt8 :=
  l.flatMap fun q => decimal (nsIdOf s root q) ++ [slash, 0]

-- What is printed instead: `%d` is meant for an `int`.
def printed (s : State) (root : Pid) (l : List Pid) : List UInt8 :=
  l.flatMap fun q => printfInt (nsIdOf s root q) ++ [slash, 0]

-- A read of the root finishes its request once, and leaves the memory behind the buffer alone. The
-- caller gets a slice of the listing.
structure ListsOnce (s : State) (root : Pid) (l : List Pid) (req : VfsReq) (buf : Mem) (d : Readdir) :
    Prop where
  run    : procfsReaddir root .root req buf s = .ok (d, s)
  once   : d.finished.length = 1
  inside : ∀ a, DIR_MAX ≤ a → d.buf a = buf a
  slice  : req.caller ≠ none →
    let text := listing s root l
    let start := sliceStart text.length req.offset
    let n := min req.outputLen (text.length - start)
    d.finished = [(n : Int)] ∧ d.copied = (text.drop start).take n

section Print

variable {d : Readdir} {pos n : ℕ} {text : List UInt8} {ret : Int}

-- What is printed to the buffer while it fits.
theorem print_fits (pos : ℕ) (text : List UInt8) (h : pos + (text.length + 1) < DIR_MAX) : d.print pos text =
    (pos + (text ++ [0]).length, { d with buf := d.buf.write pos (text ++ [0]) }) := by
  rw [Readdir.print, snprintf_fits (by omega)]
  simp [Nat.add_assoc]

theorem print_fst : (d.print pos text).1 = pos + text.length + 1 :=
  rfl

end Print

section Loop

variable {s : State} {root : Pid} {o : Option Pid} {l : List Pid} {fuel pos : ℕ} {d : Readdir}

theorem nsIdOf_of_member (hin : NsInherited s) (hq : NsMember s root q) :
    procNsId root q s = .ok (nsIdOf s root q, s) := by
  obtain ⟨id, hid⟩ := hq.exists_id hin
  rw [nsIdOf, hid]

-- As long as everything fits, the names are behind each other in the buffer.
theorem procfsListLoop_fits (hin : NsInherited s) (h : Visits (procNsNext root) s o l)
    (hl : ∀ q ∈ l, NsMember s root q) (hfuel : l.length ≤ fuel)
    (hfits : pos + (printed s root l).length < DIR_MAX) :
    wp (procfsListLoop root fuel o pos d) (fun x t => t = s ∧
      x.1 = pos + (printed s root l).length ∧ x.2 = { d with buf := d.buf.write pos (printed s root l) })
      (fun _ => False) s := by
  induction h generalizing fuel pos d
  case done => cases fuel <;> exact wp_pure.mpr (by simp [printed])
  case step it o l hnext _ hi =>
    cases fuel
    case zero      => simp at hfuel
    case succ fuel =>
      have hprinted : printed s root (it :: l) =
          ((printfInt (nsIdOf s root it) ++ [slash]) ++ [0]) ++ printed s root l := by simp [printed]
      rw [hprinted, List.length_append] at hfits
      have hprint := print_fits (d := d) pos (printfInt (nsIdOf s root it) ++ [slash])
        (by rw [List.length_append] at hfits; exact lt_of_le_of_lt (by simp) hfits)
      simp only [procfsListLoop, wp_bind, wp_kassert]
      refine ⟨fun _ => ?_, fun h => absurd (by omega) h⟩
      rw [wp_iff_of_ok (nsIdOf_of_member hin (hl it List.mem_cons_self))]
      simp only [hprint, wp_bind]
      rw [wp_iff_of_ok hnext, if_neg (by omega), hprinted]
      refine wp_post (hi (fun q hq => hl q (List.mem_cons_of_mem _ hq)) (Nat.le_of_succ_le_succ hfuel)
        (by omega)) ?_
      rintro ⟨pos', d'⟩ t ⟨ht, hpos, hd'⟩
      simp only at hpos hd'
      refine ⟨ht, ?_, ?_⟩
      · rw [hpos]
        simp only [List.length_append]
        omega
      · rw [hd', Mem.write_append]

-- If it does not fit, the request is finished on the way or an assertion fails.
theorem procfsListLoop_overflow (hin : NsInherited s) (h : Visits (procNsNext root) s o l)
    (hl : ∀ q ∈ l, NsMember s root q) (hfull : DIR_MAX ≤ pos + (printed s root l).length)
    (hd : d.finished ≠ [] ∨ pos < DIR_MAX) :
    wp (procfsListLoop root fuel o pos d) (fun x _ => x.2.finished ≠ []) (fun _ => True) s := by
  induction h generalizing fuel pos d
  case done =>
    have : d.finished ≠ [] := hd.resolve_right (by simpa [printed] using hfull)
    cases fuel <;> exact wp_pure.mpr this
  case step it o l hnext _ hi =>
    cases fuel
    case zero      => exact wp_throw.mpr trivial
    case succ fuel =>
      simp only [procfsListLoop, wp_bind, wp_kassert]
      refine ⟨fun _ => ?_, fun _ => trivial⟩
      rw [wp_iff_of_ok (nsIdOf_of_member hin (hl it List.mem_cons_self)), wp_bind, wp_iff_of_ok hnext]
      refine hi (fun q hq => hl q (List.mem_cons_of_mem _ hq)) ?_ ?_
      · rw [print_fst]
        simp only [printed, List.flatMap_cons, List.length_append, List.length_cons, List.length_nil] at hfull ⊢
        omega
      · by_cases hpos : DIR_MAX ≤ (d.print pos (printfInt (nsIdOf s root it) ++ [slash])).1
        case pos => exact .inl (by simp [hpos, Readdir.finish])
        case neg => exact .inr (not_le.mp hpos)

end Loop

section Readdir

variable {s : State} {init root : Pid} {o : Proc} {c : Forest Pid} {l : List Pid} {req : VfsReq} {buf : Mem}

-- What happens after the loop.
theorem procfsReaddir_eq (ho : s.procs.get root = some o) (hpns : o.pns = root) {Q : Readdir → State → Prop}
    {E : Fault → Prop} (h : wp (procfsListLoop root (s.procs.size + 1) (some root) 0 ⟨buf, [], []⟩)
      (fun x => wp (do
        kassert (x.1 ≤ DIR_MAX) .procfsDir
        let (ret, d) ← reqReadcopy req x.2 x.1
        pure (d.finish ret)) Q E) E s) : wp (procfsReaddir root .root req buf) Q E s := by
  simp only [procfsReaddir, wp_bind, wp_getProc, ho, Option.elim_some, wp_kassert, hpns, true_implies,
    not_true_eq_false, false_implies, and_true, reduceCtorEq, if_false, wp_get]
  simpa only [wp_bind, wp_kassert] using h

theorem slice_of_write {text : List UInt8} {start n : ℕ} (h : start + n ≤ text.length) :
    (buf.write 0 text).slice start n = (text.drop start).take n := by
  refine List.ext_getElem (by simp; omega) fun i h₁ h₂ => ?_
  simp only [Mem.length_slice] at h₁
  rw [Mem.getElem_slice, Mem.write, if_pos (by omega), List.getElem_take, List.getElem_drop, Nat.sub_zero,
    List.getD_eq_getElem _ _ (by omega)]

-- The names fit: the caller gets a slice of what was printed.
theorem procfsReaddir_fits (req : VfsReq) (buf : Mem) (hin : NsInherited s)
    (ho : s.procs.get root = some o) (hpns : o.pns = root)
    (h : Visits (procNsNext root) s (some root) l) (hl : ∀ q ∈ l, NsMember s root q)
    (hlen : l.length ≤ s.procs.size + 1) (hfits : (printed s root l).length < DIR_MAX) :
    ∃ d, procfsReaddir root .root req buf s = .ok (d, s) ∧ d.finished.length = 1 ∧
      (∀ a, DIR_MAX ≤ a → d.buf a = buf a) ∧ (req.caller ≠ none →
        let start := sliceStart (printed s root l).length req.offset
        let n := min req.outputLen ((printed s root l).length - start)
        d.finished = [(n : Int)] ∧ d.copied = ((printed s root l).drop start).take n) := by
  have hinside (a : ℕ) (ha : DIR_MAX ≤ a) : buf.write 0 (printed s root l) a = buf a :=
    Mem.write_not_mem (by omega)
  have hspec : wp (procfsReaddir root .root req buf) (fun d t => t = s ∧ d.finished.length = 1 ∧
      (∀ a, DIR_MAX ≤ a → d.buf a = buf a) ∧ (req.caller ≠ none →
        let start := sliceStart (printed s root l).length req.offset
        let n := min req.outputLen ((printed s root l).length - start)
        d.finished = [(n : Int)] ∧ d.copied = ((printed s root l).drop start).take n))
      (fun _ => False) s := by
    refine procfsReaddir_eq ho hpns ?_
    refine wp_post (procfsListLoop_fits hin h hl hlen (by rwa [Nat.zero_add])) ?_
    rintro ⟨pos, d⟩ t ⟨rfl, hpos, hd⟩
    simp only [Nat.zero_add] at hpos hd
    subst hpos hd
    simp only [wp_bind, wp_kassert, hfits.le, true_implies, not_true_eq_false, false_implies, and_true]
    cases hcaller : req.caller
    case none   => simpa [reqReadcopy, hcaller, Readdir.finish] using hinside
    case some p =>
      have hmax : (printed t root l).length < 2 ^ 63 := hfits.trans (by decide)
      simp only [reqReadcopy, hcaller, fsNormslice_slice _ _ hmax, wp_pure, Readdir.finish, List.nil_append,
        List.length_singleton, true_and, ne_eq, reduceCtorEq, not_false_eq_true, true_implies]
      refine ⟨hinside, slice_of_write ?_⟩
      have := sliceStart_le (printed t root l).length req.offset
      omega
  obtain ⟨d, t, hrun, rfl, hd⟩ := wp_false_iff.mp hspec
  exact ⟨d, hrun, hd⟩

-- The names do not fit: an assertion fails, or the request is finished more than once.
theorem procfsReaddir_overflow (hin : NsInherited s) (ho : s.procs.get root = some o) (hpns : o.pns = root)
    (h : Visits (procNsNext root) s (some root) l) (hl : ∀ q ∈ l, NsMember s root q)
    (hfull : DIR_MAX ≤ (printed s root l).length) :
    wp (procfsReaddir root .root req buf) (fun d _ => d.finished.length ≠ 1) (fun _ => True) s := by
  refine procfsReaddir_eq ho hpns ?_
  refine wp_post (procfsListLoop_overflow hin h hl (by rwa [Nat.zero_add]) (.inr (by decide))) ?_
  rintro ⟨pos, d⟩ t hd
  have hpos : 0 < d.finished.length := List.length_pos_iff.mpr hd
  have hfinish (ret : Int) : (d.finished ++ [ret]).length ≠ 1 := by
    rw [List.length_append, List.length_singleton]
    omega
  simp only [wp_bind, wp_kassert]
  refine ⟨fun _ => ?_, fun _ => trivial⟩
  unfold reqReadcopy
  cases req.caller
  case none   => exact wp_pure.mpr (wp_pure.mpr (hfinish _))
  case some p =>
    cases fsNormslice req.offset req.outputLen pos false
    case error => exact wp_throw.mpr trivial
    case ok    => exact wp_pure.mpr (wp_pure.mpr (hfinish _))

theorem printed_eq_listing (h : ∀ q ∈ l, nsIdOf s root q < 2 ^ 31) : printed s root l = listing s root l :=
  List.flatMap_congr fun q hq => by rw [printfInt_small (h q hq)]

theorem nsIdOf_lt (hin : NsInherited s) (hids : ∀ p v, s.procs.get p = some v → v.localid < 2 ^ 32)
    (hq : NsMember s root q) : nsIdOf s root q < 2 ^ 32 :=
  procNsId_lt hin hids hq (nsIdOf_of_member hin hq)

theorem minus_not_mem_listing (s : State) (root : Pid) (l : List Pid) : minus ∉ listing s root l := by
  simp only [listing, List.mem_flatMap, List.mem_append, not_exists, not_and, not_or]
  exact fun q _ => ⟨minus_not_mem_decimal, by decide⟩

-- All the names are printed right only if no number has a sign.
theorem ids_small (hin : NsInherited s) (hids : ∀ p v, s.procs.get p = some v → v.localid < 2 ^ 32)
    (hl : ∀ q ∈ l, NsMember s root q) (h : printed s root l = listing s root l) :
    ∀ q ∈ l, nsIdOf s root q < 2 ^ 31 := by
  intro q hq
  by_contra hlarge
  refine minus_not_mem_listing s root l (h ▸ ?_)
  have hminus := printfInt_large (not_lt.mp hlarge) (nsIdOf_lt hin hids (hl q hq))
  exact List.mem_flatMap.mpr ⟨q, hq, List.mem_append_left _ hminus⟩

-- Reading the root lists the processes of the namespace as it should, for every request, exactly if
-- their names are shorter than the buffer together, and all the ids fit into an `int`.
theorem procfsReaddir_iff (ht : ProcTree s init c) (hin : NsInherited s) (ho : s.procs.get root = some o)
    (hpns : o.pns = root) (hids : ∀ p v, s.procs.get p = some v → v.localid < 2 ^ 32) :
    ∃ l, l.Nodup ∧ (∀ q, q ∈ l ↔ NsMember s root q) ∧
      ((∀ req buf, req.type = .READ → ∃ d, ListsOnce s root l req buf d) ↔
        (listing s root l).length < DIR_MAX ∧ ∀ q ∈ l, nsIdOf s root q < 2 ^ 31) := by
  obtain ⟨l, hvisits, hn, hmem, hlen⟩ := ht.iterates hin ho hpns
  have hl (q : Pid) (hq : q ∈ l) : NsMember s root q := (hmem q).mp hq
  refine ⟨l, hn, hmem, fun hlists => ?_, fun ⟨hfits, hsmall⟩ req buf _ => ?_⟩
  · -- A request for everything, of a process which is alive.
    have ⟨d, hd⟩ := hlists { type := .READ, caller := some root, outputLen := DIR_MAX } (fun _ => 0) rfl
    have hfits : (printed s root l).length < DIR_MAX := by
      by_contra hfull
      exact wp_of_ok hd.run (procfsReaddir_overflow hin ho hpns hvisits hl (not_lt.mp hfull)) hd.once
    obtain ⟨d', hrun, _, _, hslice⟩ := procfsReaddir_fits
      { type := .READ, caller := some root, outputLen := DIR_MAX } (fun _ => 0) hin ho hpns hvisits hl hlen hfits
    cases hd.run.symm.trans hrun
    have hstart (n : ℕ) : sliceStart n 0 = 0 := by simp [sliceStart]
    have h₁ := hslice (by simp)
    have h₂ := hd.slice (by simp)
    simp only [hstart, Nat.sub_zero, List.drop_zero] at h₁ h₂
    have hcount := h₁.1.symm.trans h₂.1
    simp only [List.cons.injEq, Int.ofNat_inj, and_true] at hcount
    have heq : printed s root l = listing s root l := by
      have := h₁.2.symm.trans h₂.2
      rwa [List.take_of_length_le (by omega), List.take_of_length_le (by omega)] at this
    exact ⟨heq ▸ hfits, ids_small hin hids hl heq⟩
  · have heq := printed_eq_listing hsmall
    obtain ⟨d, hrun, honce, hinside, hslice⟩ := procfsReaddir_fits req buf
      hin ho hpns hvisits hl hlen (heq ▸ hfits)
    exact ⟨d, hrun, honce, hinside, fun hcaller => heq ▸ hslice hcaller⟩

theorem procfsReaddir_siblings : ∃ l, l.Nodup ∧ (∀ q, q ∈ l ↔ NsMember siblingTree 0 q) ∧
    ((∀ req buf, req.type = .READ → ∃ d, ListsOnce siblingTree 0 l req buf d) ↔
      (listing siblingTree 0 l).length < DIR_MAX ∧ ∀ q ∈ l, nsIdOf siblingTree 0 q < 2 ^ 31) := by
  have ho : siblingTree.procs.get 0 = some { child := some 1, localid := 1, nextlid := 6 } := rfl
  exact procfsReaddir_iff siblingTree_tree siblingTree_inherited ho rfl siblingTree_ids

end Readdir

section Crowd

-- One process with 129 children, whose ids are at most 130.
def crowd : State where
  procs := ⟨some { child := some 1, localid := 1, nextlid := 131 } :: (List.range 129).map fun i =>
    some { parent := some 0, sibling := if i < 128 then some (i + 2) else none, localid := i + 2 }⟩

def crowdChildren : (n i : ℕ) → Forest Pid
  | 0, _     => .nil
  | n + 1, i => .node i .nil (crowdChildren n (i + 1))

theorem crowd_get {i : ℕ} (h : i < 129) : crowd.procs.get (i + 1) =
    some { parent := some 0, sibling := if i < 128 then some (i + 2) else none, localid := i + 2 } := by
  simp [crowd, Heap.get, h]

theorem crowdChildren_nodes (n i : ℕ) : (crowdChildren n i).nodes = List.range' i n := by
  induction n generalizing i
  case zero => rfl
  case succ n hi => simp [crowdChildren, Forest.nodes, hi, List.range'_succ]

theorem crowdChildren_linked {n i : ℕ} (h : n + i = 129) :
    (crowdChildren n (i + 1)).Linked (procLinks crowd) (some 0) := by
  induction n generalizing i
  case zero => trivial
  case succ n hi =>
    refine ⟨?_, trivial, hi (by omega)⟩
    rw [procLinks_of_get (crowd_get (by omega))]
    cases n
    case zero   => simp [crowdChildren, Forest.head, show ¬i < 128 by omega]
    case succ n => simp [crowdChildren, Forest.head, show i < 128 by omega]

theorem crowd_tree : ProcTree crowd 0 (crowdChildren 129 1) where
  linked   := ⟨rfl, crowdChildren_linked (i := 0) rfl, trivial⟩
  nodup    := by
    rw [Forest.nodes, crowdChildren_nodes]
    simp [Forest.nodes, List.nodup_range']
  complete := fun p v h => by
    have : p < 130 := Heap.lt_size h
    rw [Forest.nodes, crowdChildren_nodes]
    simp only [Forest.nodes, List.append_nil, List.mem_cons, List.mem_range'_1]
    omega

theorem crowd_inherited : NsInherited crowd := by
  intro p v h
  have hp : p < 130 := Heap.lt_size h
  cases p
  case zero   =>
    cases h
    exact .inl rfl
  case succ i =>
    obtain rfl := Option.some_inj.mp ((crowd_get (by omega)).symm.trans h)
    exact .inr ⟨0, _, rfl, rfl, rfl⟩

theorem crowd_ids : ∀ p v, crowd.procs.get p = some v → v.localid < 2 ^ 32 := by
  intro p v h
  have hp : p < 130 := Heap.lt_size h
  cases p
  case zero   =>
    cases h
    decide
  case succ i =>
    obtain rfl := Option.some_inj.mp ((crowd_get (by omega)).symm.trans h)
    simp only
    omega

-- A request for everything, of the first process.
def readAll : VfsReq where
  type      := .READ
  caller    := some 0
  outputLen := 512

-- The names of the first 124 processes have 512 bytes: the request is finished with an error, and then
-- the next iteration starts with an assertion which fails.
theorem procfsReaddir_crowded :
    procfsReaddir 0 .root readAll (fun _ => 0) crowd = .error (.assert .procfsDir) ∧
    ¬∀ (s : State) (init root : Pid) (o : Proc) (c : Forest Pid) (req : VfsReq) (buf : Mem),
      ProcTree s init c → NsInherited s → s.procs.get root = some o → o.pns = root →
      (∀ p v, s.procs.get p = some v → v.localid < 2 ^ 32) → req.type = .READ →
      ∃ l d, l.Nodup ∧ (∀ q, q ∈ l ↔ NsMember s root q) ∧ ListsOnce s root l req buf d := by
  have hcheck : (match procfsReaddir 0 .root readAll (fun _ => 0) crowd with
      | .error e => decide (e = .assert .procfsDir)
      | .ok _    => false) = true := by decide +kernel
  have hrun : procfsReaddir 0 .root readAll (fun _ => 0) crowd = .error (.assert .procfsDir) := by
    cases h : procfsReaddir 0 .root readAll (fun _ => 0) crowd
    case error =>
      rw [h] at hcheck
      rw [of_decide_eq_true hcheck]
    case ok =>
      rw [h] at hcheck
      contradiction
  refine ⟨hrun, fun h => ?_⟩
  have ho : crowd.procs.get 0 = some { child := some 1, localid := 1, nextlid := 131 } := rfl
  obtain ⟨l, d, _, _, hlists⟩ := h crowd 0 0 _ _ readAll (fun _ => 0) crowd_tree crowd_inherited ho rfl
    crowd_ids rfl
  cases hrun.symm.trans hlists.run

end Crowd

end Camellia
