import Camellia.Kernel.PipeTransfer
import Camellia.Kernel.Syscalls
import Camellia.Kernel.Rules
import Camellia.Kernel.Run

namespace Camellia

-- The copies are those between the two buffers.
def memEnv (env : Env) (m : Mem) (dst src : Waiter) : Env :=
  { env with copied := fun len => match pcpyBiMem m dst src len with
    | .ok (n, _) => n
    | .error _   => 0 }

-- The length of the copy in `_sys_fs_respond`.
def respondLen (outputLen : ℕ) (ret : Int) : ℕ :=
  (min ret (cappedCast32 outputLen)).toNat

-- The process `p` has accepted the request of `q`, which waits for a read to return.
structure ReadServed (s : State) (p q : Pid) (r : Rid) (req : VfsReq) (b : Bid) (x : VfsBackend) : Prop where
  request : s.reqs.get r = some req
  fields  : req.type = .READ ∧ req.input = .user 0 0 ∧ req.caller = some q ∧ req.backend = some b
  backend : s.backends.get b = some x ∧ 0 < x.usehcnt ∧ (x.provhcnt = 0 → x.queue = [])
  access  : x.access = .user none ∨
              ∃ p' w, x.access = .user (some p') ∧ s.procs.get p' = some w ∧ w.state = .waits4request
  handler : ∃ v, s.procs.get p = some v ∧ v.pages ≠ none
  caller  : ∃ v, s.procs.get q = some v ∧ v.pages ≠ none ∧ v.state = .waits4fs

-- How much of the driver's buffer the caller should get.
def clampedLen (outputLen ret : ℕ) : ℕ :=
  min ret (min outputLen (2 ^ 31 - 1))

-- The caller got the first `k` bytes of the driver's buffer, and returns from its read with this number.
structure ReadAnswered (m : Mem) (dst src : Waiter) (k : ℕ) (m' : Mem) (s : State) (q : Pid) (r : Rid) (t : State) :
    Prop where
  filled   : Filled m dst src k m'
  length   : k ≤ dst.len
  returned : ∃ v, t.procs.get q = some v ∧ v.state = .running ∧ v.rax = k
  finished : t.log = s.log ++ [.finished r]

section Respond

variable {s : State} {env : Env} {p q : Pid} {r : Rid} {b : Bid} {req : VfsReq} {x : VfsBackend} {v : Proc}
variable {buf n : ℕ} {flags : Flags} {E : Fault → Prop}

theorem wp_tryfree_served (hx : s.backends.get b = some x) (hq : x.provhcnt = 0 → x.queue = []) :
    wp (vfsBackendTryfree b) (fun _ t => t.procs = s.procs ∧ t.log = s.log) E s := by
  simp only [vfsBackendTryfree, wp_bind, wp_getBackend, hx, Option.elim_some, wp_ite, wp_kassert, wp_pure, freeBackend,
    kfree, wp_get, wp_modify, and_true]
  exact ⟨fun h => ⟨fun _ => trivial, fun hn => absurd (hq h.2) hn⟩, fun _ => trivial⟩

-- The last use of a backend wakes up the process which waits for requests.
theorem wp_refdownUse_served (hx : s.backends.get b = some x) (hu : 0 < x.usehcnt)
    (hq : x.provhcnt = 0 → x.queue = []) (ha : x.access = .user none ∨
      ∃ p' w, x.access = .user (some p') ∧ s.procs.get p' = some w ∧ w.state = .waits4request)
    (hv : s.procs.get q = some v) (hs : v.state = .waits4fs) :
    wp (vfsBackendRefdownUse b) (fun _ t => t.procs.get q = some v ∧ t.log = s.log) E s := by
  simp only [vfsBackendRefdownUse, wp_bind, wp_getBackend, hx, Option.elim_some, wp_kassert, hu, setBackend, wp_modify,
    wp_ite, vfsBackendUnused, Heap.get_set_self hx, true_implies, not_true_eq_false, false_implies, and_true]
  refine ⟨fun _ => ?_, fun _ => ?_⟩
  case refine_2 =>
    refine wp_post (wp_tryfree_served (Heap.get_set_self hx) hq) fun _ t hx => ?_
    obtain ⟨hp, hl⟩ := hx
    refine ⟨?_, hl⟩
    rw [hp]
    exact hv
  obtain ha | ⟨p', w, ha, hw, hws⟩ := ha
  case inl =>
    rw [ha]
    refine wp_pure.mpr (wp_post (wp_tryfree_served (Heap.get_set_self hx) hq) fun _ t hx => ?_)
    obtain ⟨hp, hl⟩ := hx
    refine ⟨?_, hl⟩
    rw [hp]
    exact hv
  case inr =>
    have hne : q ≠ p' := fun h => by
      obtain rfl := Option.some.inj (hv.symm.trans (h ▸ hw))
      rw [hs] at hws
      contradiction
    rw [ha]
    simp only [wp_bind, wp_modify, wp_getProc, hw, Option.elim_some, wp_kassert, hws, true_implies, not_true_eq_false,
      false_implies, and_true, regsSavereturn, wp_updProc, procSetstate, Heap.get_set_self hw, reduceCtorEq, ne_eq,
      not_false_eq_true, Heap.set_set]
    have hy : (s.backends.set b { x with usehcnt := x.usehcnt - 1, access := .user none }).get b = some _ :=
      Heap.get_set_self hx
    refine wp_post (wp_tryfree_served hy hq) fun _ t hx => ?_
    obtain ⟨hp, hl⟩ := hx
    refine ⟨?_, hl⟩
    rw [hp]
    exact (Heap.get_set_ne hne).trans hv

-- The process which waits gets the result.
theorem wp_vfsreqRelease_read {ret : ℕ} (h : ReadServed s p q r req b x) (hret : ret ≤ req.outputLen) :
    wp (vfsreqRelease r ret) (fun _ t => (∃ v, t.procs.get q = some v ∧ v.state = .running ∧ v.rax = ret) ∧
      t.log = s.log ++ [.finished r]) E s := by
  obtain ⟨htype, hinput, hcaller, hb⟩ := h.fields
  obtain ⟨hx, hu, hq⟩ := h.backend
  obtain ⟨v, hv, _, hs⟩ := h.caller
  simp only [vfsreqRelease, wp_bind, wp_getReq, h.request, Option.elim_some, wp_kassert, htype, hinput, hcaller, hb,
    setReq, wp_modify, wp_emit, vfsreqFreeInput, wp_pure, vfsreqRefdown]
  refine ⟨fun _ => ?_, fun hn => absurd (fun _ => by exact_mod_cast hret) hn⟩
  refine wp_post (wp_refdownUse_served hx hu hq h.access hv hs) fun _ t hx => ?_
  obtain ⟨ht, hl⟩ := hx
  simp only [vfsreqReturn, wp_bind, wp_getProc, ht, Option.elim_some, wp_kassert, hs, regsSavereturn, wp_updProc,
    procSetstate, Heap.get_set_self ht, reduceCtorEq, ne_eq, not_false_eq_true, true_implies,
    not_true_eq_false, false_implies, and_true, Heap.set_set]
  exact ⟨⟨_, rfl, rfl, rfl⟩, hl⟩

theorem respondLen_eq (outputLen ret : ℕ) :
    respondLen outputLen ret = min ret (min (outputLen % 2 ^ 32) (2 ^ 31 - 1)) := by
  unfold respondLen cappedCast32
  omega

theorem respondLen_le (outputLen ret : ℕ) : respondLen outputLen ret ≤ clampedLen outputLen ret := by
  have := Nat.mod_le outputLen (2 ^ 32)
  rw [respondLen_eq, clampedLen]
  omega

theorem respondLen_eq_iff (outputLen ret : ℕ) :
    respondLen outputLen ret = clampedLen outputLen ret ↔
      outputLen < 2 ^ 32 ∨ min ret (2 ^ 31 - 1) ≤ outputLen % 2 ^ 32 := by
  rw [respondLen_eq, clampedLen]
  omega

-- The copy has the length which the code computes, and the rest follows it.
theorem wp_sysFsRespondReq_read {ret : ℕ} (h : ReadServed s p q r req b x) (hret : 0 < ret)
    (hcopied : env.copied (respondLen req.outputLen ret) = respondLen req.outputLen ret) :
    wp (sysFsRespondReq env p r buf ret flags) (fun _ t =>
      (∃ v, t.procs.get q = some v ∧ v.state = .running ∧ v.rax = respondLen req.outputLen ret) ∧
        t.log = s.log ++ [.finished r]) E s := by
  obtain ⟨htype, _, hcaller, _⟩ := h.fields
  obtain ⟨v, hv, hpages, _⟩ := h.caller
  obtain ⟨w, hw, hpages'⟩ := h.handler
  have hle : respondLen req.outputLen ret ≤ req.outputLen :=
    (respondLen_le ..).trans ((Nat.min_le_right _ _).trans (Nat.min_le_left _ _))
  have hcopy : min (env.copied (respondLen req.outputLen ret)) (respondLen req.outputLen ret) =
      respondLen req.outputLen ret := by rw [hcopied, Nat.min_self]
  have hfin := @wp_vfsreqRelease_read s p q r b req x E (respondLen req.outputLen ret) h hle
  rw [respondLen] at hcopy
  simp only [sysFsRespondReq, sysFsRespondCopy, wp_bind, wp_getReq, h.request, Option.elim_some, wp_ite, htype,
    and_true, hcaller, pcpyBi, wp_getProc, hv, hw, hpages, hpages', false_implies, not_false_eq_true, true_implies,
    true_and, wp_pure, FINISH_DEPTH, vfsreqFinish, reduceCtorEq, false_and, hcopy]
  exact ⟨fun _ => hfin, fun hn => absurd (by exact_mod_cast hret) hn⟩

theorem fsRespond_read_iff {m : Mem} {dir dir' : Option ℕ} (ret : ℕ) (h : ReadServed s p q r req b x)
    (hret : 0 < ret) (hd : req.outputBuf < 2 ^ 64) (hs : buf < 2 ^ 64)
    (ht : Tables m ⟨dir, req.outputBuf, req.outputLen⟩ ⟨dir', buf, ret⟩ (clampedLen req.outputLen ret))
    (hmap : ∀ i < clampedLen req.outputLen ret,
      Movable m ⟨dir, req.outputBuf, req.outputLen⟩ ⟨dir', buf, ret⟩ i) :
    (∃ t m', sysFsRespondReq (memEnv env m ⟨dir, req.outputBuf, req.outputLen⟩ ⟨dir', buf, ret⟩) p r buf ret flags s =
        .ok ((), t) ∧
      pcpyBiMem m ⟨dir, req.outputBuf, req.outputLen⟩ ⟨dir', buf, ret⟩ (respondLen req.outputLen ret) =
        .ok (respondLen req.outputLen ret, m') ∧
      ReadAnswered m ⟨dir, req.outputBuf, req.outputLen⟩ ⟨dir', buf, ret⟩ (clampedLen req.outputLen ret) m' s q r t) ↔
      req.outputLen < 2 ^ 32 ∨ min ret (2 ^ 31 - 1) ≤ req.outputLen % 2 ^ 32 := by
  generalize hdst : Waiter.mk dir req.outputBuf req.outputLen = dst at *
  generalize hsrc : Waiter.mk dir' buf ret = src at *
  have hle := respondLen_le req.outputLen ret
  obtain ⟨k, m', hrun, hf, _, hk, hend⟩ :=
    pcpyBiMem_spec (by rw [← hdst]; exact hd) (by rw [← hsrc]; exact hs) (ht.mono hle)
      (.inl rfl : respondLen req.outputLen ret = respondLen req.outputLen ret ∨ _)
  obtain rfl : k = respondLen req.outputLen ret := by
    by_contra hne
    exact hend (by omega) (hmap k (by omega))
  have hcopied : (memEnv env m dst src).copied (respondLen req.outputLen ret) = respondLen req.outputLen ret := by
    simp only [memEnv, hrun]
  obtain ⟨_, t, hreq, ⟨v, hv, hst, hrax⟩, hlog⟩ :=
    wp_false_iff.mp (@wp_sysFsRespondReq_read s (memEnv env m dst src) p q r b req x buf flags _ ret h hret hcopied)
  rw [← respondLen_eq_iff]
  constructor
  case mp =>
    rintro ⟨t', _, hreq', _, ha⟩
    obtain ⟨_, rfl⟩ := Prod.mk.inj (Except.ok.inj (hreq'.symm.trans hreq))
    obtain ⟨w, hw, _, hrax'⟩ := ha.returned
    obtain rfl := Option.some.inj (hv.symm.trans hw)
    exact_mod_cast hrax.symm.trans hrax'
  case mpr =>
    intro heq
    refine ⟨t, m', hreq, hrun, heq ▸ hf, ?_, ⟨v, hv, hst, heq ▸ hrax⟩, hlog⟩
    rw [← hdst]
    exact (Nat.min_le_right _ _).trans (Nat.min_le_left _ _)

end Respond

section Served

-- A driver has accepted a read of `len` bytes.
def served (len : ℕ) : VfsReq where
  type      := .READ
  outputBuf := 0x10000
  outputLen := len
  caller    := some 1
  backend   := some 0

def serving (len : ℕ) : State :=
  { bootState [] with
    procs    := ⟨[some { state := .running, pages := some 0 }, some { state := .waits4fs, pages := some 1 }]⟩
    backends := ⟨[some { usehcnt := 2, provhcnt := 1, access := .user none }]⟩
    reqs     := ⟨[some (served len)]⟩ }

theorem serving_served (len : ℕ) :
    ReadServed (serving len) 0 1 0 (served len) 0 { usehcnt := 2, provhcnt := 1, access := .user none } where
  request := rfl
  fields  := ⟨rfl, rfl, rfl, rfl⟩
  backend := ⟨rfl, by decide, by decide⟩
  access  := .inl rfl
  handler := ⟨_, rfl, by decide⟩
  caller  := ⟨_, rfl, by decide, rfl⟩

theorem fsRespond_read_iff_short :
    (∃ t m', sysFsRespondReq (memEnv quietEnv linear (linearBuffer 0x10000 10) (linearBuffer 0x20000 3)) 0 0 0x20000
        (3 : ℕ) 0 (serving 10) = .ok ((), t) ∧
      pcpyBiMem linear (linearBuffer 0x10000 10) (linearBuffer 0x20000 3) (respondLen 10 (3 : ℕ)) =
        .ok (respondLen 10 (3 : ℕ), m') ∧
      ReadAnswered linear (linearBuffer 0x10000 10) (linearBuffer 0x20000 3) (clampedLen 10 3) m' (serving 10) 1 0 t) ↔
      10 < 2 ^ 32 ∨ min 3 (2 ^ 31 - 1) ≤ 10 % 2 ^ 32 := by
  have ht : Tables linear (linearBuffer 0x10000 10) (linearBuffer 0x20000 3) 3 :=
    tables_linear rfl rfl (by decide) (by decide)
  have hmap (i : ℕ) (hi : i < 3) : Movable linear (linearBuffer 0x10000 10) (linearBuffer 0x20000 3) i :=
    movable_linear (by omega) (by omega)
  exact @fsRespond_read_iff (serving 10) quietEnv 0 1 0 0 (served 10) _ 0x20000 0 linear (some 0x1000) (some 0x1000) 3
    (serving_served 10) (by decide) (by decide) (by decide) ht hmap

-- Three bytes for a buffer of 4 GiB are no bytes at all.
theorem fsRespond_huge :
    (∀ i < clampedLen (2 ^ 32) 3, Movable linear (linearBuffer 0x10000 (2 ^ 32)) (linearBuffer 0x20000 3) i) ∧
      clampedLen (2 ^ 32) 3 = 3 ∧
      ∃ t, sysFsRespondReq (memEnv quietEnv linear (linearBuffer 0x10000 (2 ^ 32)) (linearBuffer 0x20000 3)) 0 0 0x20000
        (3 : ℕ) 0 (serving (2 ^ 32)) = .ok ((), t) ∧ ∃ v, t.procs.get 1 = some v ∧ v.state = .running ∧ v.rax = 0 := by
  have hz : respondLen (2 ^ 32) (3 : ℕ) = 0 := respondLen_eq ..
  have ht : Tables linear (linearBuffer 0x10000 (2 ^ 32)) (linearBuffer 0x20000 3) 0 :=
    tables_linear rfl rfl (by decide) (by decide)
  have ⟨k, m', hrun, _, _, hk, _⟩ := pcpyBiMem_spec (by decide) (by decide) ht
    (.inl rfl : (0 : ℕ) = 0 ∨ ∃ i < 0, ¬Movable linear (linearBuffer 0x10000 (2 ^ 32)) (linearBuffer 0x20000 3) i)
  obtain rfl : k = 0 := by omega
  have hcopied : (memEnv quietEnv linear (linearBuffer 0x10000 (2 ^ 32)) (linearBuffer 0x20000 3)).copied
      (respondLen (served (2 ^ 32)).outputLen (3 : ℕ)) = respondLen (served (2 ^ 32)).outputLen (3 : ℕ) := by
    rw [show (served (2 ^ 32)).outputLen = 2 ^ 32 from rfl, hz]
    simp only [memEnv, hrun]
  obtain ⟨_, t, hreq, ⟨v, hv, hst, hrax⟩, _⟩ :=
    wp_false_iff.mp (@wp_sysFsRespondReq_read (serving (2 ^ 32)) _ 0 1 0 0 _ _ 0x20000 0 _ 3 (serving_served (2 ^ 32))
      (by decide) hcopied)
  refine ⟨fun i hi => ?_, by decide, t, hreq, v, hv, hst, hrax.trans (congrArg _ hz)⟩
  have : i < 3 := hi
  exact movable_linear (by omega) (by omega)

end Served
end Camellia
