import Camellia.Lib.Heap
import Mathlib.Tactic.Linarith

namespace Camellia.Esem

-- Where a process goes on once it runs: in the loop `while (value--)` of `esem_new`, in the helper in
-- front of its `_sys_read` and behind it, in a child of the helper in front of its `_sys_write` and behind
-- it, in the code of a process which holds the semaphore, or in `esem_signal` or `esem_wait` in front of
-- the system call and behind it.
inductive Pc
  | newLoop (value : ℕ)
  | helperRead | helperTest
  | childWrite | childExit
  | user
  | signalWrite | signalRet
  | waitRead | waitRet
  deriving DecidableEq, Repr

structure Proc where
  pc : Pc
  -- The process is in `PS_WAITS4PIPE`, in a call with a buffer of `len` bytes.
  blocked : Bool
  len : ℕ
  -- What the last system call returned.
  rax : ℕ
  deriving DecidableEq, Repr

-- The pipes `ends_signal` and `ends_wait`.
inductive PipeId
  | signal | wait
  deriving DecidableEq, Repr

-- The processes which wait at the two ends of a pipe.
structure Pipe where
  readers : List ℕ
  writers : List ℕ

structure State where
  procs : Heap Proc
  pipes : PipeId → Pipe
  -- The calls of `esem_signal` that were started, those of which the helper has accepted the byte, the
  -- calls of `esem_wait` that the kernel has completed, and those that have returned.
  started   : ℕ
  accepted  : ℕ
  completed : ℕ
  returned  : ℕ

-- Ends the system call of a process in `PS_WAITS4PIPE`.
def wake (s : State) (p : ℕ) (v : Proc) (ret : ℕ) : State := { s with
  procs     := s.procs.set p { v with blocked := false, rax := ret }
  accepted  := s.accepted + if v.pc = .signalRet then 1 else 0
  completed := s.completed + if v.pc = .waitRet then 1 else 0
}

-- All the buffers are mapped, so `pcpy_bi` copies as much as it is told to.
def pipeTrytransfer (s : State) (i : PipeId) : State :=
  match (s.pipes i).readers, (s.pipes i).writers with
  | rdr :: rdrs, wtr :: wtrs =>
    match s.procs.get rdr, s.procs.get wtr with
    | some v, some w =>
      let len := min v.len w.len
      let s := { s with pipes := Function.update s.pipes i ⟨rdrs, wtrs⟩ }
      wake (wake s rdr v len) wtr w len
    | _, _ => s
  | _, _ => s

-- `_sys_read` or `_sys_write`: `pipe_joinqueue` for an end of a pipe, where the call returns to `pc`.
def sysRead (s : State) (i : PipeId) (p : ℕ) (v : Proc) (len : ℕ) (pc : Pc) : State :=
  let q := s.pipes i
  pipeTrytransfer { s with
    procs := s.procs.set p { v with pc := pc, blocked := true, len := len }
    pipes := Function.update s.pipes i { q with readers := q.readers ++ [p] } } i

def sysWrite (s : State) (i : PipeId) (p : ℕ) (v : Proc) (len : ℕ) (pc : Pc) : State :=
  let q := s.pipes i
  pipeTrytransfer { s with
    procs := s.procs.set p { v with pc := pc, blocked := true, len := len }
    pipes := Function.update s.pipes i { q with writers := q.writers ++ [p] } } i

def State.goto (s : State) (p : ℕ) (v : Proc) (pc : Pc) : State :=
  { s with procs := s.procs.set p { v with pc := pc } }

-- A process at the start of its code.
def spawned (pc : Pc) : Proc where
  pc      := pc
  blocked := false
  len     := 0
  rax     := 0

def State.fork (s : State) (pc : Pc) : State :=
  { s with procs := s.procs.alloc (spawned pc) }

-- `exit`, or the death of a process in a call: it leaves the queue it waits in.
def procKill (s : State) (p : ℕ) : State := { s with
  procs := s.procs.free p
  pipes := fun i => ⟨(s.pipes i).readers.filter (· ≠ p), (s.pipes i).writers.filter (· ≠ p)⟩
}

-- What a running process does next.
def exec (s : State) (p : ℕ) (v : Proc) : State :=
  match v.pc with
  | .newLoop 0       => s.goto p v .user
  | .newLoop (n + 1) => sysWrite s .signal p v 1 (.newLoop n)
  | .helperRead      => sysRead s .signal p v 1 .helperTest
  | .helperTest      =>
    if 0 < v.rax then
      -- `_sys_fork`, where the child goes to its write and the helper to its next read.
      (s.goto p v .helperRead).fork .childWrite
    else
      procKill s p
  | .childWrite      => sysWrite s .wait p v 1 .childExit
  | .childExit       => procKill s p
  | .user            => s
  | .signalWrite     => sysWrite s .signal p v 1 .signalRet
  | .signalRet       => s.goto p v .user
  | .waitRead        => sysRead s .wait p v 0 .waitRet
  | .waitRet         => { s.goto p v .user with returned := s.returned + 1 }

-- A process that holds the semaphore, after `esem_new`.
def Pc.isUser : Pc → Bool
  | .user | .signalWrite | .signalRet | .waitRead | .waitRet => true
  | _ => false

-- The steps of all processes, in any order. The helper and its children are not killed.
inductive Step (s : State) : State → Prop
  | exec {p : ℕ} {v : Proc} (hp : s.procs.get p = some v) (hb : v.blocked = false) :
    Step s (exec s p v)
  | signal {p : ℕ} {v : Proc} (hp : s.procs.get p = some v) (hb : v.blocked = false) (hu : v.pc = .user) :
    Step s { s.goto p v .signalWrite with started := s.started + 1 }
  | wait {p : ℕ} {v : Proc} (hp : s.procs.get p = some v) (hb : v.blocked = false) (hu : v.pc = .user) :
    Step s (s.goto p v .waitRead)
  | fork {p : ℕ} {v : Proc} (hp : s.procs.get p = some v) (hb : v.blocked = false) (hu : v.pc = .user) :
    Step s (s.fork .user)
  | kill {p : ℕ} {v : Proc} (hp : s.procs.get p = some v) (hu : v.pc.isUser = true) : Step s (procKill s p)

-- The state in which `esem_new` has forked its helper.
def esemNew (value : ℕ) : State where
  procs     := (Heap.empty.alloc (spawned (.newLoop value))).alloc (spawned .helperRead)
  pipes     := fun _ => ⟨[], []⟩
  started   := 0
  accepted  := 0
  completed := 0
  returned  := 0

-- The states of a semaphore that was created with `esem_new(value)`.
inductive Reached (value : ℕ) : State → Prop
  | init : Reached value (esemNew value)
  | step {s t : State} (r : Reached value s) (h : Step s t) : Reached value t

-- The children of the helper that wait for somebody to read.
def blockedWriter (v : Proc) : ℤ :=
  if v.pc = .childExit ∧ v.blocked then 1 else 0

-- The signals which a process has taken over: those that `esem_new` has yet to send, and the one which
-- the helper or its child has read and not yet written.
def transit (v : Proc) : ℤ :=
  match v.pc with
  | .newLoop n  => n + if v.blocked then 1 else 0
  | .helperTest => if ¬v.blocked ∧ 0 < v.rax then 1 else 0
  | .childWrite => 1
  | _           => 0

def State.blockedWriters (s : State) : ℤ :=
  s.procs.total fun _ => blockedWriter

def State.inTransit (s : State) : ℤ :=
  s.procs.total fun _ => transit

-- Where the processes at the ends of a pipe are, and how long the buffers of the readers are.
def readsAt : PipeId → Pc → Prop
  | .signal, pc => pc = .helperTest
  | .wait,   pc => pc = .waitRet

def writesAt : PipeId → Pc → Prop
  | .signal, pc => pc = .signalRet ∨ ∃ n, pc = .newLoop n
  | .wait,   pc => pc = .childExit

def readLen : PipeId → ℕ
  | .signal => 1
  | .wait   => 0

-- The processes in a queue are blocked at the right place, each of them once.
structure Queue (s : State) (ps : List ℕ) (place : Pc → Prop) (len : ℕ) : Prop where
  nodup : ps.Nodup
  waits : ∀ p ∈ ps, ∃ v, s.procs.get p = some v ∧ v.blocked = true ∧ place v.pc ∧ v.len = len

structure Queues (s : State) : Prop where
  readers : ∀ i, Queue s (s.pipes i).readers (readsAt i) (readLen i)
  writers : ∀ i, Queue s (s.pipes i).writers (writesAt i) 1

-- The calls of `esem_signal` whose byte is still to be accepted.
def pending (v : Proc) : ℤ :=
  if v.pc = .signalWrite ∨ v.pc = .signalRet ∧ v.blocked then 1 else 0

-- The calls of `esem_wait` which are completed and have not returned yet.
def returning (v : Proc) : ℤ :=
  if v.pc = .waitRet ∧ ¬v.blocked then 1 else 0

-- The signals that a process holds.
def weight (v : Proc) : ℤ :=
  blockedWriter v + transit v

-- What the steps leave as it is.
structure Counts where
  signals : ℤ
  opened  : ℤ
  closed  : ℤ

def State.counts (s : State) : Counts where
  signals := s.completed + (s.procs.total fun _ => weight) - s.accepted
  opened  := s.accepted + s.procs.total fun _ => pending
  closed  := s.completed - s.procs.total fun _ => returning

section Wake

variable {s : State} {p q : ℕ} {v w : Proc} {i : PipeId} {ret len : ℕ} {ps : List ℕ} {place : Pc → Prop}

theorem Queue.get_ne (h : Queue s ps place len) (hp : s.procs.get p = some v) (ha : v.blocked = false ∨ ¬place v.pc) :
    p ∉ ps := by
  intro hm
  have ⟨w, hw, hb, hw', _⟩ := h.waits p hm
  rw [hp, Option.some.injEq] at hw
  subst hw
  simp_all

-- A queue only depends on the processes in it.
theorem Queue.congr {t : State} (h : Queue s ps place len) (ht : ∀ p ∈ ps, t.procs.get p = s.procs.get p) :
    Queue t ps place len :=
  ⟨h.nodup, fun p hp => ht p hp ▸ h.waits p hp⟩

-- What ending a system call adds to the signals that are held or were consumed.
def gain (pc : Pc) (ret : ℕ) : ℤ :=
  match pc with
  | .helperTest                          => if 0 < ret then 1 else 0
  | .waitRet                             => 1
  | .signalRet | .newLoop _ | .childExit => -1
  | _                                    => 0

theorem gain_reader (h : readsAt i v.pc) : gain v.pc (min (readLen i) 1) = 1 := by
  cases i <;> simp only [readsAt] at h <;> simp [h, gain, readLen]

theorem gain_writer (h : writesAt i v.pc) : gain v.pc ret = -1 := by
  cases i <;> simp only [writesAt] at h
  case signal => obtain h | ⟨n, h⟩ := h <;> simp [h, gain]
  case wait   => simp [h, gain]

theorem Queue.tail (h : Queue s (p :: ps) place len) : Queue s ps place len ∧ p ∉ ps :=
  have hn := List.nodup_cons.mp h.nodup
  ⟨⟨hn.right, fun q hq => h.waits q (List.mem_cons_of_mem p hq)⟩, hn.left⟩

theorem wake_counts (hp : s.procs.get p = some v) (hb : v.blocked = true) :
    (wake s p v ret).counts = { s.counts with signals := s.counts.signals + gain v.pc ret } := by
  simp only [State.counts, wake, Heap.total_set hp, Counts.mk.injEq]
  cases hpc : v.pc <;> refine ⟨?_, ?_, ?_⟩ <;>
    simp [weight, blockedWriter, transit, pending, returning, gain, hpc, hb] <;> omega

theorem wake_get (hp : s.procs.get p = some v) (hq : q ≠ p) :
    (wake s p v ret).procs.get q = s.procs.get q := by
  simp [wake, Heap.get_set hp, hq]

-- Where two processes that meet in a pipe are makes them different.
theorem ends_ne (hv : readsAt i v.pc) (hw : writesAt i w.pc) : v ≠ w := by
  rintro rfl
  cases i <;> simp only [readsAt, writesAt] at hv hw <;> simp [hv] at hw

theorem readsAt_pipe {j : PipeId} {pc : Pc} (h : readsAt i pc) (h' : readsAt j pc) : i = j := by
  cases i <;> cases j <;> simp_all [readsAt]

theorem writesAt_pipe {j : PipeId} {pc : Pc} (h : writesAt i pc) (h' : writesAt j pc) : i = j := by
  cases i <;> cases j <;> simp_all [writesAt]

theorem not_readsAt_writesAt {j : PipeId} {pc : Pc} (h : readsAt i pc) : ¬writesAt j pc := by
  cases i <;> cases j <;> simp_all [readsAt, writesAt]

-- A rendezvous hands over one signal, or consumes one.
theorem pipeTrytransfer_spec (h : Queues s) : Queues (pipeTrytransfer s i) ∧
    (pipeTrytransfer s i).counts = s.counts ∧ (pipeTrytransfer s i).started = s.started ∧
    (pipeTrytransfer s i).returned = s.returned := by
  unfold pipeTrytransfer
  split
  case h_2 => exact ⟨h, rfl, rfl, rfl⟩
  case h_1 rdr rdrs wtr wtrs hr hw =>
    have hqr := hr ▸ h.readers i
    have hqw := hw ▸ h.writers i
    have ⟨v, hv, hvb, hvi, hvl⟩ := hqr.waits rdr (by simp)
    have ⟨w, hw', hwb, hwi, hwl⟩ := hqw.waits wtr (by simp)
    have hne : wtr ≠ rdr := by
      rintro rfl
      exact ends_ne hvi hwi (Option.some.inj <| hv.symm.trans hw')
    simp only [hv, hw', hvl, hwl]
    generalize hs₁ : ({ s with pipes := Function.update s.pipes i ⟨rdrs, wtrs⟩ } : State) = s₁
    have hp : s₁.procs = s.procs := hs₁ ▸ rfl
    have hw₁ : (wake s₁ rdr v (min (readLen i) 1)).procs.get wtr = some w := by
      rw [wake_get (hp ▸ hv) hne, hp, hw']
    refine ⟨?_, ?_, ?_, ?_⟩
    · generalize ht : wake (wake s₁ rdr v (min (readLen i) 1)) wtr w (min (readLen i) 1) = t
      have hget : ∀ q, q ≠ rdr → q ≠ wtr → t.procs.get q = s.procs.get q := fun q h₁ h₂ => by
        rw [← ht, wake_get hw₁ h₂, wake_get (hp ▸ hv) h₁, hp]
      have hpipes : t.pipes = Function.update s.pipes i ⟨rdrs, wtrs⟩ := by simp [← ht, wake, ← hs₁]
      have hr₂ : ∀ j, ¬writesAt j v.pc := fun j => not_readsAt_writesAt hvi
      have hw₂ : ∀ j, ¬readsAt j w.pc := fun j h => not_readsAt_writesAt h hwi
      refine { readers := fun j => ?readers, writers := fun j => ?writers } <;> rw [hpipes]
      case readers =>
        by_cases hj : j = i
        case pos =>
          subst hj
          rw [Function.update_self]
          refine hqr.tail.left.congr fun q hq => hget q ?_ ?_
          · exact fun he => hqr.tail.right (he ▸ hq)
          · exact fun he => hqr.tail.left.get_ne hw' (.inr <| hw₂ j) (he ▸ hq)
        case neg =>
          rw [Function.update_of_ne hj]
          refine (h.readers j).congr fun q hq => hget q ?_ ?_
          · exact fun he => (h.readers j).get_ne hv (.inr fun h => hj (readsAt_pipe h hvi)) (he ▸ hq)
          · exact fun he => (h.readers j).get_ne hw' (.inr <| hw₂ j) (he ▸ hq)
      case writers =>
        by_cases hj : j = i
        case pos =>
          subst hj
          rw [Function.update_self]
          refine hqw.tail.left.congr fun q hq => hget q ?_ ?_
          · exact fun he => hqw.tail.left.get_ne hv (.inr <| hr₂ j) (he ▸ hq)
          · exact fun he => hqw.tail.right (he ▸ hq)
        case neg =>
          rw [Function.update_of_ne hj]
          refine (h.writers j).congr fun q hq => hget q ?_ ?_
          · exact fun he => (h.writers j).get_ne hv (.inr <| hr₂ j) (he ▸ hq)
          · exact fun he => (h.writers j).get_ne hw' (.inr fun h => hj (writesAt_pipe h hwi)) (he ▸ hq)
    · rw [wake_counts hw₁ hwb, wake_counts (hp ▸ hv) hvb, gain_reader hvi, gain_writer hwi, ← hs₁]
      simp [State.counts]
    · simp [wake, ← hs₁]
    · simp [wake, ← hs₁]

-- A process that calls `_sys_read` or `_sys_write` waits at its end of the pipe, until the rendezvous.
theorem Queues.set {x : Proc} (h : Queues s) (hp : s.procs.get p = some v) (hb : v.blocked = false) :
    Queues { s with procs := s.procs.set p x } := by
  refine ⟨fun i => (h.readers i).congr fun q hq => ?_, fun i => (h.writers i).congr fun q hq => ?_⟩
  · exact Heap.get_set_ne fun he => (h.readers i).get_ne hp (.inl hb) (he ▸ hq)
  · exact Heap.get_set_ne fun he => (h.writers i).get_ne hp (.inl hb) (he ▸ hq)

theorem Queue.snoc {x : Proc} (h : Queue s ps place len) (hp : s.procs.get p = some v) (hb : v.blocked = false)
    (hx : x.blocked = true) (ha : place x.pc) (hl : x.len = len) :
    Queue { s with procs := s.procs.set p x } (ps ++ [p]) place len := by
  have hn := h.get_ne hp (.inl hb)
  refine ⟨?_, fun q hq => ?_⟩
  · simpa [List.nodup_append] using ⟨h.nodup, fun a ha he => hn (he ▸ ha)⟩
  · simp only [List.mem_append, List.mem_singleton] at hq
    obtain hq | rfl := hq
    · have hne : q ≠ p := fun he => hn (he ▸ hq)
      simpa [Heap.get_set_ne hne] using h.waits q hq
    · exact ⟨x, Heap.get_set_self hp, hx, ha, hl⟩

-- Nothing but the counts of the processes, and where these wait, matters for the others.
structure Same (s t : State) : Prop where
  queues   : Queues t
  counts   : t.counts = s.counts
  started  : t.started = s.started
  returned : t.returned = s.returned

theorem Queues.update {q : Pipe} (h : Queues s) (hr : Queue s q.readers (readsAt i) (readLen i))
    (hw : Queue s q.writers (writesAt i) 1) : Queues { s with pipes := Function.update s.pipes i q } := by
  refine { readers := fun j => ?readers, writers := fun j => ?writers }
  case readers =>
    by_cases hj : j = i
    case pos =>
      subst hj
      simpa only [Function.update_self] using ⟨hr.nodup, hr.waits⟩
    case neg => simpa only [Function.update_of_ne hj] using ⟨(h.readers j).nodup, (h.readers j).waits⟩
  case writers =>
    by_cases hj : j = i
    case pos =>
      subst hj
      simpa only [Function.update_self] using ⟨hw.nodup, hw.waits⟩
    case neg => simpa only [Function.update_of_ne hj] using ⟨(h.writers j).nodup, (h.writers j).waits⟩

theorem pipeTrytransfer_same {t : State} {x : Heap Proc} (h : Queues t) (ht : t = { s with procs := x, pipes := t.pipes }) :
    Same { s with procs := x } (pipeTrytransfer t i) := by
  have ⟨h₁, h₂, h₃, h₄⟩ := pipeTrytransfer_spec (i := i) h
  rw [ht] at h₂ h₃ h₄
  exact ⟨h₁, by rw [ht]; exact h₂, by rw [ht]; exact h₃, by rw [ht]; exact h₄⟩

theorem sysRead_spec {pc : Pc} (h : Queues s) (hp : s.procs.get p = some v) (hb : v.blocked = false)
    (ha : readsAt i pc) : Same
      { s with procs := s.procs.set p { v with pc := pc, blocked := true, len := readLen i } }
      (sysRead s i p v (readLen i) pc) :=
  have hq := h.set hp hb
  pipeTrytransfer_same (hq.update ((h.readers i).snoc hp hb rfl ha rfl) (hq.writers i)) rfl

theorem sysWrite_spec {pc : Pc} (h : Queues s) (hp : s.procs.get p = some v) (hb : v.blocked = false)
    (ha : writesAt i pc) : Same
      { s with procs := s.procs.set p { v with pc := pc, blocked := true, len := 1 } }
      (sysWrite s i p v 1 pc) :=
  have hq := h.set hp hb
  pipeTrytransfer_same (hq.update (hq.readers i) ((h.writers i).snoc hp hb rfl ha rfl)) rfl

end Wake

-- What holds in every state: each signal is held by a process or was consumed, and calls are neither
-- accepted before they were started nor return before they are completed.
structure Inv (value : ℕ) (s : State) : Prop where
  queues  : Queues s
  signals : s.counts.signals = value
  opened  : s.counts.opened ≤ s.started
  closed  : s.returned ≤ s.counts.closed

section Steps

variable {s t : State} {p value : ℕ} {v x : Proc}

theorem counts_set (hp : s.procs.get p = some v) : { s with procs := s.procs.set p x }.counts = {
    signals := s.counts.signals + (weight x - weight v)
    opened  := s.counts.opened + (pending x - pending v)
    closed  := s.counts.closed - (returning x - returning v) } := by
  simp only [State.counts, Heap.total_set hp, Counts.mk.injEq]
  omega

theorem Inv.same (h : Inv value s) (hp : s.procs.get p = some v)
    (hs : Same { s with procs := s.procs.set p x } t) (hw : weight x = weight v)
    (ho : pending x = pending v) (hc : returning x = returning v) : Inv value t := by
  have hcounts : t.counts = s.counts := by rw [hs.counts, counts_set hp, hw, ho, hc]; simp
  exact {
    queues  := hs.queues
    signals := hcounts ▸ h.signals
    opened  := by rw [hcounts, hs.started]; exact h.opened
    closed  := by rw [hcounts, hs.returned]; exact h.closed
  }

theorem Queues.congr (h : Queues s) (hprocs : t.procs = s.procs) (hpipes : t.pipes = s.pipes) : Queues t := by
  refine ⟨fun i => ?_, fun i => ?_⟩
  · exact hpipes ▸ (h.readers i).congr fun _ _ => by rw [hprocs]
  · exact hpipes ▸ (h.writers i).congr fun _ _ => by rw [hprocs]

-- A running process changes its state, and what it holds stays the same.
theorem Inv.set {a b : ℕ} (h : Inv value s) (hp : s.procs.get p = some v) (hb : v.blocked = false)
    (hw : weight x = weight v) (ha : s.started + pending x ≤ a + pending v)
    (hc : b + returning x ≤ s.returned + returning v) :
    Inv value { s with procs := s.procs.set p x, started := a, returned := b } := by
  have hcounts := counts_set (x := x) hp
  have h₁ := h.signals
  have h₂ := h.opened
  have h₃ := h.closed
  refine { queues := (h.queues.set (x := x) hp hb).congr rfl rfl, signals := ?_, opened := ?_, closed := ?_ }
  · exact (congrArg Counts.signals hcounts).trans (by simp only; omega)
  · exact (congrArg Counts.opened hcounts).trans_le (by simp only; omega)
  · exact le_of_le_of_eq (by simp only; omega) (congrArg Counts.closed hcounts).symm

theorem Inv.goto {pc : Pc} (h : Inv value s) (hp : s.procs.get p = some v) (hb : v.blocked = false)
    (hw : weight { v with pc := pc } = weight v) (ho : pending { v with pc := pc } ≤ pending v)
    (hc : returning { v with pc := pc } ≤ returning v) : Inv value (s.goto p v pc) :=
  h.set hp hb hw (by omega) (by omega)

theorem counts_fork {pc : Pc} : (s.fork pc).counts = {
    signals := s.counts.signals + weight (spawned pc)
    opened  := s.counts.opened + pending (spawned pc)
    closed  := s.counts.closed - returning (spawned pc) } := by
  simp only [State.counts, State.fork, Heap.total_alloc, Counts.mk.injEq]
  omega

theorem Queues.fork {pc : Pc} (h : Queues s) : Queues (s.fork pc) := by
  refine ⟨fun i => (h.readers i).congr fun q hq => ?_, fun i => (h.writers i).congr fun q hq => ?_⟩
  · have ⟨_, hg, _⟩ := (h.readers i).waits q hq
    exact (Heap.get_alloc_of_some hg).trans hg.symm
  · have ⟨_, hg, _⟩ := (h.writers i).waits q hq
    exact (Heap.get_alloc_of_some hg).trans hg.symm

theorem Inv.fork_user (h : Inv value s) : Inv value (s.fork .user) := by
  refine { queues := h.queues.fork, signals := ?_, opened := ?_, closed := ?_ } <;> rw [counts_fork]
  · simpa [weight, blockedWriter, transit, spawned] using h.signals
  · simpa [pending, spawned, State.fork] using h.opened
  · simpa [returning, spawned, State.fork] using h.closed

-- The helper hands the signal it has read to its child.
theorem Inv.fork_child (h : Inv value s) (hp : s.procs.get p = some v) (hb : v.blocked = false)
    (hpc : v.pc = .helperTest) (hr : 0 < v.rax) : Inv value ((s.goto p v .helperRead).fork .childWrite) := by
  have hcounts : (s.goto p v .helperRead).counts = _ := counts_set hp
  have hq : Queues (s.goto p v .helperRead) := h.queues.set hp hb
  refine { queues := hq.fork, signals := ?_, opened := ?_, closed := ?_ } <;> rw [counts_fork, hcounts]
  · have := h.signals
    simp [weight, blockedWriter, transit, spawned, hpc, hb, hr, this]
  · simpa [pending, spawned, hpc, State.fork, State.goto] using h.opened
  · simpa [returning, spawned, hpc, State.fork, State.goto] using h.closed

-- A process that goes takes along nothing but the call it is in.
theorem Inv.kill (h : Inv value s) (hp : s.procs.get p = some v) (hw : weight v = 0) :
    Inv value (procKill s p) := by
  have hcounts : (procKill s p).counts = {
      signals := s.counts.signals - weight v
      opened  := s.counts.opened - pending v
      closed  := s.counts.closed + returning v } := by
    simp only [State.counts, procKill, Heap.total_free hp, Counts.mk.injEq]
    omega
  have hget : ∀ q, q ≠ p → (procKill s p).procs.get q = s.procs.get q := fun q hq => Heap.get_free_ne hq
  have ho : 0 ≤ pending v := by unfold pending; split <;> simp
  have hc : 0 ≤ returning v := by unfold returning; split <;> simp
  have h₁ := h.signals
  have h₂ := h.opened
  have h₃ := h.closed
  refine { queues := ⟨fun i => ?_, fun i => ?_⟩, signals := ?_, opened := ?_, closed := ?_ }
  · refine ⟨(h.queues.readers i).nodup.filter _, fun q hq => ?_⟩
    simp only [procKill, List.mem_filter, decide_eq_true_eq] at hq
    simpa only [hget q hq.right] using (h.queues.readers i).waits q hq.left
  · refine ⟨(h.queues.writers i).nodup.filter _, fun q hq => ?_⟩
    simp only [procKill, List.mem_filter, decide_eq_true_eq] at hq
    simpa only [hget q hq.right] using (h.queues.writers i).waits q hq.left
  · rw [hcounts]
    simp only
    omega
  · rw [hcounts]
    simp only [procKill]
    omega
  · rw [hcounts]
    simp only [procKill]
    omega

theorem Inv.exec (h : Inv value s) (hp : s.procs.get p = some v) (hb : v.blocked = false) :
    Inv value (exec s p v) := by
  unfold Esem.exec
  cases hpc : v.pc
  case newLoop n =>
    cases n
    case zero =>
      refine h.goto hp hb ?_ ?_ ?_ <;> simp [weight, blockedWriter, transit, pending, returning, hpc, hb]
    case succ n =>
      refine h.same hp (sysWrite_spec h.queues hp hb (.inr ⟨n, rfl⟩)) ?_ ?_ ?_ <;>
        simp [weight, blockedWriter, transit, pending, returning, hpc, hb]
  case helperRead =>
    refine h.same hp (sysRead_spec (i := .signal) h.queues hp hb rfl) ?_ ?_ ?_ <;>
      simp [weight, blockedWriter, transit, pending, returning, hpc, hb]
  case helperTest =>
    by_cases hr : 0 < v.rax
    case pos => simpa only [hr, if_true] using h.fork_child hp hb hpc hr
    case neg =>
      simpa only [hr, if_false] using h.kill hp (by simp [weight, blockedWriter, transit, hpc, hr])
  case childWrite =>
    refine h.same hp (sysWrite_spec h.queues hp hb rfl) ?_ ?_ ?_ <;>
      simp [weight, blockedWriter, transit, pending, returning, hpc, hb]
  case childExit => exact h.kill hp (by simp [weight, blockedWriter, transit, hpc, hb])
  case user => exact h
  case signalWrite =>
    refine h.same hp (sysWrite_spec h.queues hp hb (.inl rfl)) ?_ ?_ ?_ <;>
      simp [weight, blockedWriter, transit, pending, returning, hpc, hb]
  case signalRet =>
    refine h.goto hp hb ?_ ?_ ?_ <;> simp [weight, blockedWriter, transit, pending, returning, hpc, hb]
  case waitRead =>
    refine h.same hp (sysRead_spec (i := .wait) h.queues hp hb rfl) ?_ ?_ ?_ <;>
      simp [weight, blockedWriter, transit, pending, returning, hpc, hb]
  case waitRet =>
    refine h.set hp hb ?_ ?_ ?_ <;>
      simp [weight, blockedWriter, transit, pending, returning, hpc, hb, State.goto]

theorem Inv.step (h : Inv value s) (hs : Step s t) : Inv value t := by
  cases hs
  case exec hp hb => exact h.exec hp hb
  case signal hp hb hu =>
    refine h.set hp hb ?_ ?_ ?_ <;>
      simp [weight, blockedWriter, transit, pending, returning, hu, hb, State.goto]
  case wait hp hb hu =>
    refine h.goto hp hb ?_ ?_ ?_ <;> simp [weight, blockedWriter, transit, pending, returning, hu, hb]
  case fork => exact h.fork_user
  case kill p v hp hu =>
    refine h.kill hp ?_
    cases hpc : v.pc <;> simp_all [Pc.isUser, weight, blockedWriter, transit]

theorem Inv.init : Inv value (esemNew value) := by
  have hq {place : Pc → Prop} {len : ℕ} : Queue (esemNew value) [] place len := ⟨by simp, by simp⟩
  refine { queues := ⟨fun _ => hq, fun _ => hq⟩, signals := ?_, opened := ?_, closed := ?_ } <;>
    simp [State.counts, esemNew, Heap.total, Heap.alloc, Heap.empty, weight, blockedWriter, transit, pending,
      returning, spawned]

theorem Reached.inv (r : Reached value s) : Inv value s := by
  induction r
  case init => exact .init
  case step h hi => exact hi.step h

-- Over all interleavings, no more calls of `esem_wait` return or are completed than there are signals, and
-- every signal which the helper has accepted was consumed by one call, or waits for one in a child of the
-- helper, or is on its way there.
theorem Reached.signals (r : Reached value s) : s.returned ≤ s.completed ∧
    s.completed ≤ value + s.started ∧
    s.completed + s.blockedWriters + s.inTransit = value + s.accepted := by
  have h := r.inv
  have hsum : (s.procs.total fun _ => weight) = s.blockedWriters + s.inTransit :=
    Heap.total_add (fun _ => blockedWriter) fun _ => transit
  have hb : 0 ≤ s.blockedWriters := Heap.total_nonneg fun _ v => by unfold blockedWriter; split <;> simp
  have ht : 0 ≤ s.inTransit := Heap.total_nonneg fun _ v => by unfold transit; split <;> (try split) <;> omega
  have hp : 0 ≤ s.procs.total fun _ => pending := Heap.total_nonneg fun _ v => by unfold pending; split <;> simp
  have hr : 0 ≤ s.procs.total fun _ => returning :=
    Heap.total_nonneg fun _ v => by unfold returning; split <;> simp
  have hsignals : s.completed + (s.procs.total fun _ => weight) - s.accepted = value := h.signals
  have hopened : s.accepted + (s.procs.total fun _ => pending) ≤ s.started := h.opened
  have hclosed : s.returned ≤ s.completed - s.procs.total fun _ => returning := h.closed
  omega

end Steps

-- `esem_new(1)`, where the helper forks a child for the first signal, and a call of `esem_wait` meets it.
theorem Reached.signals_one : ∃ s : State, s.returned ≤ s.completed ∧ s.completed ≤ 1 + s.started ∧
    s.completed + s.blockedWriters + s.inTransit = (1 : ℕ) + s.accepted ∧ s.completed = 1 := by
  have r₁ : Reached 1 _ := .step .init (.exec (p := 0) rfl rfl)
  have r₂ : Reached 1 _ := .step r₁ (.exec (p := 1) rfl rfl)
  have r₃ : Reached 1 _ := .step r₂ (.exec (p := 1) rfl rfl)
  have r₄ : Reached 1 _ := .step r₃ (.exec (p := 0) rfl rfl)
  have r₅ : Reached 1 _ := .step r₄ (.wait (p := 0) rfl rfl rfl)
  have r₆ : Reached 1 _ := .step r₅ (.exec (p := 0) rfl rfl)
  have r₇ : Reached 1 _ := .step r₆ (.exec (p := 2) rfl rfl)
  have ⟨h₁, h₂, h₃⟩ := r₇.signals
  exact ⟨_, h₁, h₂, h₃, rfl⟩
end Camellia.Esem
