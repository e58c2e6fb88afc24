import Camellia.Kernel.Rules
import Camellia.Kernel.Run
import Camellia.Lib.Chain
import Camellia.Libk.Ring

namespace Camellia

-- What a driver in the kernel works on: the state of the kernel, and the memory of the processes.
class Driver (σ : Type) where
  kernel     : σ → State
  withKernel : σ → State → σ
  -- Bytes were copied to an address of a process.
  copyTo     : σ → Pid → ℕ → List UInt8 → σ

def inKernel [Driver σ] (x : K α) : StateT σ (Except Fault) α := do
  let d ← get
  match x (Driver.kernel d) with
  | .ok (a, s) =>
    set (Driver.withKernel d s)
    pure a
  | .error e   => throw e

-- `pcpy_to`, where the bytes are those of the kernel's buffer.
def Driver.pcpyTo [Driver σ] (p : Pid) (dst : ℕ) (src : List UInt8) : StateT σ (Except Fault) Unit := do
  if (← inKernel (getProc p)).pages ≠ none then
    modify fun d => copyTo d p dst src

section Driver

variable {σ : Type} [Driver σ] {d : σ} {E : Fault → Prop}

@[simp]
theorem wp_inKernel {x : K α} {Q : α → σ → Prop} :
    wp (inKernel x) Q E d ↔ wp x (fun a s => Q a (Driver.withKernel d s)) E (Driver.kernel d) := by
  simp only [inKernel, wp_bind, wp_get]
  cases h : x (Driver.kernel d)
  case ok y =>
    obtain ⟨a, s⟩ := y
    rw [wp_iff_of_ok h]
    simp
  case error e =>
    simp only [wp_throw]
    exact ⟨fun he => wp_of_forall (by simp [h]) (by simpa [h] using he), fun hw => wp_of_error h hw⟩

end Driver

-- A device of the kernel which fills a ring with what it gets, and the requests that wait for it.
structure Device where
  kernel : State
  queue  : Option Rid
  -- The field `postqueue_next` of the requests.
  postqueueNext : Rid → Option Rid
  ring   : Ring
  -- The calls of `pcpy_to` which copied something: the process, the address and the bytes. Where the
  -- process has no memory at this address is not our concern.
  copied : List (Pid × ℕ × List UInt8) := []

instance : Driver Device where
  kernel         := Device.kernel
  withKernel d s := { d with kernel := s }
  copyTo d p dst src := { d with copied := d.copied ++ [(p, dst, src)] }

namespace Device

variable {d : Device} {s : State} {p : Pid} {dst : ℕ} {src : List UInt8}

@[simp]
theorem driver_kernel : Driver.kernel d = d.kernel :=
  rfl

@[simp]
theorem driver_withKernel : Driver.withKernel d s = { d with kernel := s } :=
  rfl

@[simp]
theorem driver_copyTo : Driver.copyTo d p dst src = { d with copied := d.copied ++ [(p, dst, src)] } :=
  rfl

end Device

abbrev D := StateT Device (Except Fault)

def getPostqueueNext (r : Rid) : D (Option Rid) := do
  discard <| inKernel (getReq r)
  pure ((← get).postqueueNext r)

-- The loop of `postqueue_join`, where `prev` is the request whose link is looked at.
def postqueueJoinLoop (req : Rid) : ℕ → (prev : Option Rid) → Option Rid → D Unit
  | 0, _, _             => throw .outOfFuel
  | fuel + 1, _, some r => do postqueueJoinLoop req fuel (some r) (← getPostqueueNext r)
  | _ + 1, none, none   => modify fun d => { d with queue := some req }
  | _ + 1, some r, none =>
    modify fun d => { d with postqueueNext := Function.update d.postqueueNext r (some req) }

def postqueueJoin (req : Rid) : D Unit := do
  if (← getPostqueueNext req) ≠ none then
    throw (.panic .postqueueJoin)
  let d ← get
  postqueueJoinLoop req (d.kernel.reqs.size + 1) none d.queue

-- `char tmp[64]`
def TMP_SIZE : ℕ := 64

-- The first loop of `postqueue_ringreadall`.
def ringreadallLargest : ℕ → Option Rid → (mlen : ℕ) → D ℕ
  | _, none, mlen          => pure mlen
  | 0, some _, _           => throw .outOfFuel
  | fuel + 1, some r, mlen => do
    let mlen := max mlen (← inKernel (getReq r)).outputLen
    ringreadallLargest fuel (← getPostqueueNext r) mlen

def ringreadallCopy (req : VfsReq) (bytes : List UInt8) : D Unit :=
  match req.caller with
  | none   => pure ()
  | some p => Driver.pcpyTo p req.outputBuf bytes

-- The second loop.
def ringreadallFinish (env : Env) (tmp : List UInt8) : ℕ → Option Rid → D Unit
  | _, none          => pure ()
  | 0, some _        => throw .outOfFuel
  | fuel + 1, some r => do
    let req ← inKernel (getReq r)
    let ret := min tmp.length req.outputLen
    inKernel (kassert (req.type = .READ) .postqueueRingreadall)
    ringreadallCopy req (tmp.take ret)
    inKernel (vfsreqFinishShort env r ret)
    ringreadallFinish env tmp fuel (← getPostqueueNext r)

def postqueueRingreadall (env : Env) : D Unit := do
  let d ← get
  if d.ring.used ≠ 0 then
    let mlen ← ringreadallLargest (d.kernel.reqs.size + 1) d.queue 0
    let (tmp, ring) := d.ring.get (min mlen TMP_SIZE)
    modify ({ · with ring := ring })
    ringreadallFinish env tmp (d.kernel.reqs.size + 1) d.queue
    modify ({ · with queue := none })

section Wp

variable {d : Device} {E : Fault → Prop}

@[simp]
theorem wp_getPostqueueNext {r : Rid} {Q : Option Rid → Device → Prop} :
    wp (getPostqueueNext r) Q E d ↔
      (d.kernel.reqs.get r).elim (E (.useAfterFree .req)) fun _ => Q (d.postqueueNext r) d := by
  simp [getPostqueueNext]

end Wp

section Join

variable {d : Device} {fuel : ℕ} {prev o : Option Rid} {req : Rid} {l : List Rid} {E : Fault → Prop}

-- The request is linked to the last one, if there is any.
def Device.link (d : Device) (req : Rid) : Option Rid → Device
  | none   => { d with queue := some req }
  | some r => { d with postqueueNext := Function.update d.postqueueNext r (some req) }

theorem wp_postqueueJoinLoop {Q : Unit → Device → Prop} (hc : Chain d.postqueueNext o l)
    (hlive : ∀ r ∈ l, ∃ w, d.kernel.reqs.get r = some w) (hfuel : l.length < fuel)
    (hq : Q () (d.link req (l.getLast?.or prev))) : wp (postqueueJoinLoop req fuel prev o) Q E d := by
  induction l generalizing fuel prev o
  case nil =>
    obtain rfl := hc.of_nil
    obtain _ | fuel := fuel
    case zero => contradiction
    case succ => cases prev <;> simpa [postqueueJoinLoop, Device.link] using hq
  case cons r l hi =>
    obtain _ | fuel := fuel
    case zero => contradiction
    case succ =>
      cases hc
      case cons hc =>
        have ⟨w, hw⟩ := hlive r (List.mem_cons_self ..)
        simp only [postqueueJoinLoop, wp_bind, wp_getPostqueueNext, hw, Option.elim_some]
        refine hi hc (fun q hq => hlive q (List.mem_cons_of_mem _ hq)) (by simpa using hfuel) ?_
        cases l <;> simpa [List.getLast?_cons] using hq

-- A request gets to the end of the queue.
theorem postqueueJoin_spec (hc : Chain d.postqueueNext d.queue l) (hreq : req ∉ l)
    (hlive : ∀ r ∈ req :: l, ∃ w, d.kernel.reqs.get r = some w) (hnext : d.postqueueNext req = none) :
    wp (postqueueJoin req) (fun _ t => Chain t.postqueueNext t.queue (l ++ [req])) E d := by
  obtain ⟨w, hw⟩ := hlive req (List.mem_cons_self ..)
  have hsub : l ⊆ List.range d.kernel.reqs.size := by
    intro r hr
    obtain ⟨_, hr⟩ := hlive r (List.mem_cons_of_mem _ hr)
    exact List.mem_range.mpr (Heap.lt_size hr)
  have hlen : l.length ≤ d.kernel.reqs.size := by
    simpa using (List.subperm_of_subset hc.nodup hsub).length_le
  simp only [postqueueJoin, wp_bind, wp_getPostqueueNext, hw, Option.elim_some, hnext, ne_eq,
    not_true_eq_false, if_false, wp_get]
  refine wp_postqueueJoinLoop hc (fun r hr => hlive r (List.mem_cons_of_mem _ hr)) (by omega) ?_
  induction l using List.reverseRecOn
  case nil =>
    have hnone : Chain d.postqueueNext (d.postqueueNext req) [] := by
      rw [hnext]
      exact .nil
    exact .cons hnone
  case append_singleton l r _ =>
    obtain ⟨hl, hr⟩ : req ∉ l ∧ req ≠ r := by simpa using hreq
    have hrl : r ∉ l := fun h => (List.nodup_append.mp hc.nodup).2.2 r h r (List.mem_singleton_self r) rfl
    rw [List.append_assoc, List.getLast?_concat]
    refine hc.concat (fun q hq => Function.update_of_ne ?_ ..) (Function.update_self ..) ?_
    · exact fun heq => hrl (heq ▸ hq)
    · exact (Function.update_of_ne hr ..).trans hnext

end Join

-- The requests `l` wait for a device with the backend `b`. A request whose caller was killed in the
-- meantime has no caller anymore.
structure Awaiting (s : State) (b : Bid) (l : List (Rid × VfsReq)) : Prop where
  nodup   : (l.map Prod.fst).Nodup
  backend : ∃ v, s.backends.get b = some v ∧ v.access = .kern none ∧ v.provhcnt ≠ 0 ∧
    l.length ≤ v.usehcnt
  req     : ∀ x ∈ l, s.reqs.get x.1 = some x.2 ∧ x.2.type = .READ ∧ x.2.input = .user 0 0 ∧
    x.2.backend = some b
  caller  : ∀ x ∈ l, ∀ p, x.2.caller = some p → ∃ v, s.procs.get p = some v ∧
    v.state = .waits4fs ∧ v.reqslot = some x.1 ∧ v.pages ≠ none

-- What `vfsreq_finish` does with the request of a process which is still there.
structure FinishedRead (s : State) (r : Rid) (p : Pid) (ret : ℕ) (t : State) : Prop where
  log    : t.log = s.log ++ [.finished r]
  caller : ∃ v, t.procs.get p = some v ∧ v.state = .running ∧ v.rax = ret
  procs  : ∀ q, q ≠ p → t.procs.get q = s.procs.get q
  req    : ∃ w, t.reqs.get r = some w
  size   : t.reqs.size = s.reqs.size

section Finish

variable {s : State} {env : Env} {b : Bid} {x : Rid × VfsReq} {l : List (Rid × VfsReq)} {ret : ℕ}
variable {E : Fault → Prop}

-- The request is finished, up to where it depends on the caller.
theorem wp_vfsreqFinishShort_read {R : Unit → State → Prop} (h : Awaiting s b (x :: l))
    (hret : ret ≤ x.2.outputLen)
    (hr : ∀ v, s.backends.get b = some v → wp (vfsreqReturn x.1 ret x.2.caller) R E
      { s with
        reqs     := s.reqs.set x.1 { x.2 with pending := false }
        log      := s.log ++ [.finished x.1]
        backends := s.backends.set b { v with usehcnt := v.usehcnt - 1 } }) :
    wp (vfsreqFinishShort env x.1 ret) R E s := by
  obtain ⟨hreq, htype, hinput, hb⟩ := h.req x (List.mem_cons_self ..)
  obtain ⟨v, hv, hacc, hprov, huse⟩ := h.backend
  have hpos : 0 < v.usehcnt := by
    simp only [List.length_cons] at huse
    omega
  simp only [vfsreqFinishShort, FINISH_DEPTH, vfsreqFinish, vfsreqRelease, vfsreqRefdown,
    vfsBackendRefdownUse, vfsBackendUnused, vfsBackendTryfree, setReq, setBackend, wp_bind, wp_getReq,
    wp_kassert, wp_ite, wp_modify, wp_emit, wp_getBackend, wp_pure, hreq, htype, hinput, hb, hv, hacc,
    hprov, hpos, vfsreqFreeInput, Option.elim_some, Heap.get_set_self hv, reduceCtorEq, false_and,
    and_false, not_false_eq_true, not_true_eq_false, false_implies, true_implies, true_and, and_true]
  simpa [hret, htype, hinput, hb, hacc] using hr v hv

theorem Awaiting.tail {t : State} {v w : VfsBackend} (h : Awaiting s b (x :: l))
    (hv : s.backends.get b = some v) (hw : t.backends.get b = some w)
    (heq : w = { v with usehcnt := v.usehcnt - 1 })
    (hreqs : ∀ r, r ≠ x.1 → t.reqs.get r = s.reqs.get r)
    (hprocs : ∀ p, x.2.caller ≠ some p → t.procs.get p = s.procs.get p) : Awaiting t b l := by
  have ⟨hx, hl⟩ := List.nodup_cons.mp h.nodup
  have hne (y) (hy : y ∈ l) : y.1 ≠ x.1 := fun hxy => hx (hxy ▸ List.mem_map_of_mem hy)
  refine ⟨hl, ⟨w, hw, ?_⟩, fun y hy => ?_, fun y hy p hp => ?_⟩
  · obtain ⟨v', hv', hacc, hprov, huse⟩ := h.backend
    obtain rfl := Option.some_inj.mp (hv.symm.trans hv')
    rw [List.length_cons] at huse
    subst heq
    exact ⟨hacc, hprov, Nat.le_sub_of_add_le huse⟩
  · rw [hreqs y.1 (hne y hy)]
    exact h.req y (List.mem_cons_of_mem _ hy)
  · have ⟨v, hv, hst, hslot, hpages⟩ := h.caller y (List.mem_cons_of_mem _ hy) p hp
    -- The caller waits for this request, so it is not the one that was woken up.
    have hpx : x.2.caller ≠ some p := fun hc => by
      have ⟨v', hv', _, hslot', _⟩ := h.caller x (List.mem_cons_self ..) p hc
      obtain rfl := Option.some_inj.mp (hv.symm.trans hv')
      exact hne y hy (Option.some_inj.mp (hslot.symm.trans hslot'))
    rw [hprocs p hpx]
    exact ⟨v, hv, hst, hslot, hpages⟩

theorem wp_vfsreqFinishShort_alive {p : Pid} (h : Awaiting s b (x :: l)) (hp : x.2.caller = some p)
    (hret : ret ≤ x.2.outputLen) : wp (vfsreqFinishShort env x.1 ret)
      (fun _ t => FinishedRead s x.1 p ret t ∧ Awaiting t b l) E s := by
  obtain ⟨hreq, _, _, _⟩ := h.req x (List.mem_cons_self ..)
  obtain ⟨v, hv, hst, _, _⟩ := h.caller x (List.mem_cons_self ..) p hp
  refine wp_vfsreqFinishShort_read h hret fun w hw => ?_
  simp only [hp, vfsreqReturn, procSetstate, regsSavereturn, wp_bind, wp_getProc, wp_updProc, wp_kassert,
    hv, hst, Option.elim_some, Heap.get_set_self hv, Heap.set_set, reduceCtorEq, true_implies,
    not_true_eq_false, not_false_eq_true, false_implies, and_true, ne_eq]
  refine ⟨⟨rfl, ⟨_, Heap.get_set_self hv, rfl, rfl⟩, fun q hq => Heap.get_set_ne hq,
    ⟨_, Heap.get_set_self hreq⟩, Heap.size_set⟩, ?_⟩
  refine h.tail hw (Heap.get_set_self hw) rfl (fun r hr => Heap.get_set_ne hr) fun q hq => ?_
  exact Heap.get_set_ne fun heq => hq (heq ▸ hp)

-- Nobody is left to reuse the request of a process which was killed.
theorem wp_vfsreqFinishShort_dead (h : Awaiting s b (x :: l)) (hp : x.2.caller = none)
    (hret : ret ≤ x.2.outputLen) :
    wp (vfsreqFinishShort env x.1 ret) (fun _ t => t.reqs.get x.1 = none) E s := by
  obtain ⟨hreq, _, _, _⟩ := h.req x (List.mem_cons_self ..)
  refine wp_vfsreqFinishShort_read h hret fun w hw => ?_
  simp [hp, vfsreqReturn, freeReq, kfree, Heap.get_set_self hreq]

-- More than what the caller asked for cannot be returned.
theorem wp_vfsreqFinishShort_long (h : Awaiting s b (x :: l)) (hret : x.2.outputLen < ret) :
    wp (vfsreqFinishShort env x.1 ret) (fun _ _ => False) (· = .assert .vfsreqFinishLength) s := by
  obtain ⟨hreq, htype, hinput, hb⟩ := h.req x (List.mem_cons_self ..)
  simp only [vfsreqFinishShort, FINISH_DEPTH, vfsreqFinish, vfsreqRelease, wp_bind, wp_getReq, wp_kassert,
    wp_ite, hreq, htype, Option.elim_some, reduceCtorEq, false_and, not_false_eq_true, false_implies,
    true_implies, true_and]
  simp [Nat.not_le.mpr hret]

end Finish

-- How much the biggest of the requests wants.
def largest (l : List (Rid × VfsReq)) : ℕ :=
  (l.map (·.2.outputLen)).foldr max 0

-- How much a request for `len` bytes gets.
def Device.share (d : Device) (l : List (Rid × VfsReq)) (len : ℕ) : ℕ :=
  min (min len TMP_SIZE) (min d.ring.used (largest l))

-- What is copied to the callers which are still there.
def copies (bytes : ℕ → List UInt8) (l : List (Rid × VfsReq)) : List (Pid × ℕ × List UInt8) :=
  l.filterMap fun x => x.2.caller.map fun p => (p, x.2.outputBuf, bytes x.2.outputLen)

-- Each of the requests was finished once, and its caller got the first of the bytes in `tmp`.
structure AnsweredReads (tmp : List UInt8) (l : List (Rid × VfsReq)) (d t : Device) : Prop where
  log    : t.kernel.log = d.kernel.log ++ l.map fun x => .finished x.1
  copied : t.copied = d.copied ++ copies tmp.take l
  caller : ∀ x ∈ l, ∀ p, x.2.caller = some p → ∃ v, t.kernel.procs.get p = some v ∧
    v.state = .running ∧ v.rax = (min tmp.length x.2.outputLen : ℕ)
  procs  : ∀ p, (∀ x ∈ l, x.2.caller ≠ some p) → t.kernel.procs.get p = d.kernel.procs.get p
  ring   : t.ring = d.ring

-- The requests in the queue share what is in the ring: each is finished once, its caller gets as many
-- of the oldest bytes as it asked for, and the bytes that somebody got are gone.
structure Broadcast (l : List (Rid × VfsReq)) (d t : Device) : Prop where
  finished : t.kernel.log = d.kernel.log ++ l.map fun x => .finished x.1
  given    : t.copied = d.copied ++ copies (fun len => d.ring.contents.take (d.share l len)) l
  returned : ∀ x ∈ l, ∀ p, x.2.caller = some p → ∃ v, t.kernel.procs.get p = some v ∧
    v.state = .running ∧ v.rax = d.share l x.2.outputLen
  ring     : t.ring.contents = d.ring.contents.drop (d.share l (largest l))
  queue    : t.queue = none

section Ringreadall

variable {d t : Device} {env : Env} {b : Bid} {x : Rid × VfsReq} {l : List (Rid × VfsReq)}
variable {fuel mlen : ℕ} {o : Option Rid} {tmp : List UInt8} {E : Fault → Prop}

theorem Awaiting.length_le {s : State} (h : Awaiting s b l) : l.length ≤ s.reqs.size := by
  have hsub : l.map Prod.fst ⊆ List.range s.reqs.size := by
    intro r hr
    obtain ⟨x, hx, rfl⟩ := List.mem_map.mp hr
    exact List.mem_range.mpr (Heap.lt_size (h.req x hx).1)
  simpa using (List.subperm_of_subset h.nodup hsub).length_le

theorem outputLen_le_largest (hx : x ∈ l) : x.2.outputLen ≤ largest l := by
  induction l
  case nil => contradiction
  case cons y l hi =>
    simp only [largest, List.map_cons, List.foldr_cons] at hi ⊢
    obtain rfl | hx := List.mem_cons.mp hx
    · exact Nat.le_max_left _ _
    · exact (hi hx).trans (Nat.le_max_right _ _)

theorem wp_ringreadallLargest {Q : ℕ → Device → Prop} (hc : Chain d.postqueueNext o (l.map Prod.fst))
    (hreq : ∀ x ∈ l, d.kernel.reqs.get x.1 = some x.2) (hfuel : l.length ≤ fuel)
    (hq : Q (max mlen (largest l)) d) : wp (ringreadallLargest fuel o mlen) Q E d := by
  induction l generalizing fuel o mlen
  case nil =>
    obtain rfl := hc.of_nil
    cases fuel <;> simpa [ringreadallLargest, largest] using hq
  case cons x l hi =>
    obtain _ | fuel := fuel
    case zero => simp at hfuel
    case succ =>
      cases hc
      case cons hc =>
        have hx := hreq x (List.mem_cons_self ..)
        simp only [ringreadallLargest, wp_bind, wp_inKernel, Device.driver_kernel, Device.driver_withKernel, wp_getReq, wp_getPostqueueNext, hx,
          Option.elim_some]
        refine hi hc (fun y hy => hreq y (List.mem_cons_of_mem _ hy)) (by simpa using hfuel) ?_
        rw [largest, List.map_cons, List.foldr_cons] at hq
        rwa [Nat.max_assoc]

-- The copy to the caller of a request, and the end of the request.
theorem wp_ringreadallCopy {p : Pid} {v : Proc} {req : VfsReq} {bytes : List UInt8}
    {Q : Unit → Device → Prop} (hp : req.caller = some p) (hv : d.kernel.procs.get p = some v)
    (hpages : v.pages ≠ none) (hq : Q () { d with copied := d.copied ++ [(p, req.outputBuf, bytes)] }) :
    wp (ringreadallCopy req bytes) Q E d := by
  simpa [ringreadallCopy, Driver.pcpyTo, hp, hv, wp_ite, hpages] using hq

theorem ringreadallFinish_alive (ha : Awaiting d.kernel b l)
    (hc : Chain d.postqueueNext o (l.map Prod.fst)) (hfuel : l.length ≤ fuel)
    (halive : ∀ x ∈ l, x.2.caller ≠ none) :
    wp (ringreadallFinish env tmp fuel o) (fun _ => AnsweredReads tmp l d) E d := by
  induction l generalizing fuel o d
  case nil =>
    obtain rfl := hc.of_nil
    cases fuel <;> simp only [ringreadallFinish, wp_pure] <;>
      exact ⟨by simp, by simp [copies], by simp, by simp, rfl⟩
  case cons x l hi =>
    obtain _ | fuel := fuel
    case zero => simp at hfuel
    case succ =>
      cases hc
      case cons hc =>
        obtain ⟨p, hp⟩ := Option.ne_none_iff_exists'.mp (halive x (List.mem_cons_self ..))
        obtain ⟨hx, htype, _, _⟩ := ha.req x (List.mem_cons_self ..)
        obtain ⟨v, hv, _, _, hpages⟩ := ha.caller x (List.mem_cons_self ..) p hp
        simp only [ringreadallFinish, wp_bind, wp_inKernel, Device.driver_kernel, Device.driver_withKernel, wp_getReq, wp_kassert, hx, Option.elim_some,
          htype, true_implies, not_true_eq_false, false_implies, and_true]
        refine wp_ringreadallCopy hp hv hpages ?_
        rw [wp_bind, wp_inKernel, Device.driver_kernel]
        refine wp_post (wp_vfsreqFinishShort_alive ha hp (Nat.min_le_right _ _)) fun _ s hx => ?_
        obtain ⟨hs, hrest⟩ := hx
        obtain ⟨w, hw⟩ := hs.req
        simp only [Device.driver_withKernel, wp_bind, wp_getPostqueueNext, hw, Option.elim_some]
        refine wp_post (hi hrest hc (by simpa using hfuel) fun y hy =>
          halive y (List.mem_cons_of_mem _ hy)) fun _ t ht => ?_
        have hother (y) (hy : y ∈ l) : y.2.caller ≠ some p := fun hyp => by
          obtain ⟨v, hv, hst, _⟩ := hrest.caller y hy p hyp
          obtain ⟨v', hv', hst', _⟩ := hs.caller
          rw [Option.some_inj.mp (hv.symm.trans hv'), hst'] at hst
          contradiction
        refine ⟨?_, ?_, fun y hy q hq => ?_, fun q hq => ?_, ht.ring⟩
        · simp [ht.log, hs.log]
        · rw [ht.copied]
          simp [copies, hp, List.take_eq_take_min (i := x.2.outputLen), Nat.min_comm]
        · obtain rfl | hy := List.mem_cons.mp hy
          · obtain rfl := Option.some_inj.mp (hp.symm.trans hq)
            obtain ⟨v, hv, hst, hrax⟩ := hs.caller
            exact ⟨v, (ht.procs p hother).trans hv, hst, hrax⟩
          · exact ht.caller y hy q hq
        · have hqp : q ≠ p := fun heq => hq x (List.mem_cons_self ..) (heq ▸ hp)
          rw [ht.procs q fun y hy => hq y (List.mem_cons_of_mem _ hy)]
          exact hs.procs q hqp

-- The link of a request is followed after the request was freed.
theorem ringreadallFinish_dead (ha : Awaiting d.kernel b l)
    (hc : Chain d.postqueueNext o (l.map Prod.fst)) (hx : x ∈ l) (hdead : x.2.caller = none) :
    wp (ringreadallFinish env tmp fuel o) (fun _ _ => False) (fun _ => True) d := by
  induction l generalizing fuel o d
  case nil => contradiction
  case cons y l hi =>
    cases hc
    case cons hc =>
      obtain _ | fuel := fuel
      case zero => simp [ringreadallFinish]
      case succ =>
        obtain ⟨hy, htype, _, _⟩ := ha.req y (List.mem_cons_self ..)
        simp only [ringreadallFinish, wp_bind, wp_inKernel, Device.driver_kernel, Device.driver_withKernel, wp_getReq, wp_kassert, hy, Option.elim_some,
          htype, true_implies, not_true_eq_false, false_implies, and_true]
        cases hp : y.2.caller
        case none =>
          simp only [ringreadallCopy, hp, wp_pure]
          rw [wp_bind, wp_inKernel, Device.driver_kernel]
          refine wp_post (wp_vfsreqFinishShort_dead ha hp (Nat.min_le_right _ _)) fun _ s hs => ?_
          simp [hs]
        case some p =>
          obtain ⟨v, hv, _, _, hpages⟩ := ha.caller y (List.mem_cons_self ..) p hp
          refine wp_ringreadallCopy hp hv hpages ?_
          rw [wp_bind, wp_inKernel, Device.driver_kernel]
          refine wp_post (wp_vfsreqFinishShort_alive ha hp (Nat.min_le_right _ _)) fun _ s hx => ?_
          obtain ⟨hs, hrest⟩ := hx
          obtain ⟨w, hw⟩ := hs.req
          simp only [Device.driver_withKernel, wp_bind, wp_getPostqueueNext, hw, Option.elim_some]
          obtain rfl | hx := List.mem_cons.mp hx
          · rw [hdead] at hp
            contradiction
          · exact hi hrest hc hx

-- The bytes which are taken out of the ring.
def Device.batch (d : Device) (l : List (Rid × VfsReq)) : List UInt8 :=
  d.ring.contents.take (min (largest l) TMP_SIZE)

theorem take_batch {len : ℕ} (hlen : len ≤ largest l) :
    (d.batch l).take len = d.ring.contents.take (d.share l len) := by
  have hused : d.ring.used = d.ring.contents.length := Ring.length_contents.symm
  rw [Device.batch, List.take_take, Device.share, hused, List.take_eq_take_min,
    List.take_eq_take_min (i := min (min len TMP_SIZE) _)]
  congr 1
  omega

theorem length_batch {len : ℕ} (hlen : len ≤ largest l) :
    min (d.batch l).length len = d.share l len := by
  rw [Device.batch, Device.share, List.length_take, Ring.length_contents]
  omega

-- What is taken out of the ring is answered to the requests.
theorem wp_postqueueRingreadall {Q : Unit → Device → Prop} (ha : Awaiting d.kernel b l)
    (hc : Chain d.postqueueNext d.queue (l.map Prod.fst)) (hr : d.ring.used ≠ 0)
    (hq : wp (ringreadallFinish env (d.batch l) (d.kernel.reqs.size + 1) d.queue)
      (fun _ t => Q () { t with queue := none }) E
        { d with ring := (d.ring.get (min (largest l) TMP_SIZE)).2 }) :
    wp (postqueueRingreadall env) Q E d := by
  simp only [postqueueRingreadall, wp_bind, wp_get, wp_ite, hr, not_false_eq_true, true_implies, ne_eq,
    not_true_eq_false, false_implies, and_true]
  have hreq : ∀ x ∈ l, d.kernel.reqs.get x.1 = some x.2 := fun x hx => (ha.req x hx).1
  refine wp_ringreadallLargest hc hreq (ha.length_le.trans (Nat.le_succ _)) ?_
  have hbatch : (d.ring.get (min (largest l) TMP_SIZE)).1 = d.batch l := Ring.get_fst
  simp only [Nat.zero_max, wp_bind, wp_modify, hbatch]
  exact wp_post hq fun _ t ht => wp_modify.mpr ht

theorem ringreadall_alive (ha : Awaiting d.kernel b l)
    (hc : Chain d.postqueueNext d.queue (l.map Prod.fst)) (hr : d.ring.used ≠ 0)
    (halive : ∀ x ∈ l, x.2.caller ≠ none) :
    wp (postqueueRingreadall env) (fun _ => Broadcast l d) E d := by
  refine wp_postqueueRingreadall ha hc hr ?_
  refine wp_post (ringreadallFinish_alive ha hc (ha.length_le.trans (Nat.le_succ _)) halive) ?_
  intro _ t ht
  refine ⟨ht.log, ?_, fun x hx p hp => ?_, ?_, rfl⟩
  · have heq : copies (d.batch l).take l = copies (fun len => d.ring.contents.take (d.share l len)) l := by
      refine List.filterMap_congr fun x hx => ?_
      simp only [take_batch (outputLen_le_largest hx)]
    simpa only [heq] using ht.copied
  · rw [← length_batch (outputLen_le_largest hx)]
    exact ht.caller x hx p hp
  · have hused : d.ring.used = d.ring.contents.length := Ring.length_contents.symm
    rw [show t.ring = _ from ht.ring, Ring.contents_get, Device.share, hused, List.drop_eq_drop_min]
    congr 1
    omega

theorem ringreadall_dead (ha : Awaiting d.kernel b l)
    (hc : Chain d.postqueueNext d.queue (l.map Prod.fst)) (hr : d.ring.used ≠ 0) (hx : x ∈ l)
    (hdead : x.2.caller = none) :
    wp (postqueueRingreadall env) (fun _ _ => False) (fun _ => True) d :=
  wp_postqueueRingreadall ha hc hr (ringreadallFinish_dead ha hc hx hdead)

theorem postqueueRingreadall_iff (ha : Awaiting d.kernel b l)
    (hc : Chain d.postqueueNext d.queue (l.map Prod.fst)) (hr : d.ring.used ≠ 0) :
    (∃ t, postqueueRingreadall env d = .ok ((), t) ∧ Broadcast l d t) ↔ ∀ x ∈ l, x.2.caller ≠ none := by
  refine ⟨fun ⟨t, ht, _⟩ x hx hdead => ?_, fun halive => ?_⟩
  · exact wp_of_ok ht (ringreadall_dead ha hc hr hx hdead)
  · have hw : wp (postqueueRingreadall env) (fun _ => Broadcast l d) (fun _ => False) d :=
      ringreadall_alive ha hc hr halive
    have ⟨_, t, ht, hb⟩ := wp_false_iff.mp hw
    exact ⟨t, ht, hb⟩

end Ringreadall

section Keyboard

-- Two processes wait for the keyboard when three keys are pressed. The first one may have been killed.
def readOf (p : Option Pid) (len : ℕ) : VfsReq where
  type      := .READ
  outputBuf := 4096
  outputLen := len
  caller    := p
  backend   := some 0

def keyboard (p : Option Pid) : Device where
  kernel := {
    procs    := ⟨[some { state := .waits4fs, reqslot := some 0, pages := some 0 },
      some { state := .waits4fs, reqslot := some 1, pages := some 1 }]⟩
    backends := ⟨[some { usehcnt := 3, provhcnt := 1, access := .kern none }]⟩
    reqs     := ⟨[some (readOf p 2), some (readOf (some 1) 100)]⟩
    held     := [0, 1] }
  queue := some 0
  postqueueNext r := if r = 0 then some 1 else none
  ring := (Ring.new (fun _ => 0) 64 (by decide)).put [107, 101, 121]

def keyboardReads (p : Option Pid) : List (Rid × VfsReq) :=
  [(0, readOf p 2), (1, readOf (some 1) 100)]

theorem keyboard_awaiting {p : Option Pid} (hp : p = none ∨ p = some 0) :
    Awaiting (keyboard p).kernel 0 (keyboardReads p) := by
  obtain rfl | rfl := hp <;> refine ⟨by decide, ⟨_, rfl, rfl, by decide, by decide⟩, ?_, ?_⟩ <;>
    simp [keyboardReads, keyboard, readOf, Heap.get]

theorem keyboard_chain {p : Option Pid} :
    Chain (keyboard p).postqueueNext (keyboard p).queue ((keyboardReads p).map Prod.fst) :=
  .cons (.cons .nil)

theorem keyboard_used {p : Option Pid} : (keyboard p).ring.used ≠ 0 :=
  show ((Ring.new (fun _ => 0) 64 (by decide)).put [107, 101, 121]).used ≠ 0 by decide

theorem keyboard_broadcast :
    (∃ t, postqueueRingreadall quietEnv (keyboard (some 0)) = .ok ((), t) ∧
      Broadcast (keyboardReads (some 0)) (keyboard (some 0)) t) ↔
        ∀ x ∈ keyboardReads (some 0), x.2.caller ≠ none :=
  postqueueRingreadall_iff (keyboard_awaiting (.inr rfl)) keyboard_chain keyboard_used

-- The first reader was killed.
theorem keyboard_not_broadcast :
    ¬∃ t, postqueueRingreadall quietEnv (keyboard none) = .ok ((), t) ∧
      Broadcast (keyboardReads none) (keyboard none) t := by
  rintro ⟨t, ht, _⟩
  refine wp_of_ok ht (ringreadall_dead (keyboard_awaiting (.inl rfl)) keyboard_chain keyboard_used
    (List.mem_cons_self ..) rfl)

end Keyboard
end Camellia
