import Camellia.Kernel.PipeTransfer
import Camellia.Kernel.PipeClose
import Camellia.Libc.Esemaphore

namespace Camellia

section Transfer

variable {s : State} {E : Fault → Prop} {env : Env} {h g : Hid} {rdr wtr : Pid} {a b : Proc} {x y : Handle} {n : ℕ}

theorem pipeTransfer_wake {ret : Int} (hne : rdr ≠ wtr) (ha : s.procs.get rdr = some a)
    (hb : s.procs.get wtr = some b) (has : a.state = .waits4pipe) (hbs : b.state = .waits4pipe) :
    wp (do procSetstate rdr .running; procSetstate wtr .running; regsSavereturn rdr ret; regsSavereturn wtr ret)
      (fun _ t => t = s.withProcs ((s.procs.set rdr { a with state := .running, rax := ret }).set wtr
        { b with state := .running, rax := ret })) E s := by
  have hbwtr : (s.procs.set rdr { a with state := .running }).get wtr = some b := by rw [Heap.get_set_ne hne.symm, hb]
  rw [wp_bind]
  refine wp_post (procSetstate_running ha (by simp [has])) ?_
  rintro _ _ rfl
  rw [wp_bind]
  refine wp_post (procSetstate_running hbwtr (by simp [hbs])) ?_
  rintro _ _ rfl
  simp only [regsSavereturn, wp_bind, wp_updProc, Heap.get_set_ne hne, Heap.get_set_self ha, Option.elim_some,
    Heap.get_set_ne hne.symm, Heap.get_set_self hbwtr, Heap.set_set_set hne]
  rfl

-- Both processes run on with the number of bytes, and leave their queues.
theorem pipeTransfer_spec (hne : rdr ≠ wtr) (hgh : g ≠ h) (ha : s.procs.get rdr = some a)
    (hb : s.procs.get wtr = some b) (has : a.state = .waits4pipe) (hbs : b.state = .waits4pipe)
    (hap : a.pages ≠ none) (hbp : b.pages ≠ none) (hx : s.handles.get h = some x)
    (hy : s.handles.get g = some y) (hmin : min a.waitsLen b.waitsLen = n)
    (hn : n < 2 ^ 31) (henv : n ≤ env.copied n) :
    wp (pipeTransfer env h g rdr wtr) (fun _ t => t = (s.withProcs
      ((s.procs.set rdr { a with state := .running, rax := n }).set wtr { b with state := .running, rax := n })).withHandles
        ((s.handles.set h { x with queued := x.queued.tail }).set g { y with queued := y.queued.tail })) E s := by
  have hint : toInt32 n = n := Int.bmod_eq_of_le (by omega) (by omega)
  have hptr : toPtr (toInt32 n) = n := toPtr_toInt32_small hn
  simp only [pipeTransfer, pcpyBi, wp_bind, wp_getProc, ha, hb, Option.elim_some, wp_kassert, has, hbs, true_implies,
    not_true_eq_false, false_implies, and_true, hmin, hptr, hap, hbp, if_false, wp_pure, Nat.min_eq_right henv,
    wp_updHandle, hx, Heap.get_set_ne hgh, hy]
  simp only [hint, ← wp_bind]
  refine wp_post (pipeTransfer_wake hne ha hb has hbs) ?_
  rintro _ _ rfl
  rfl

end Transfer
end Camellia

namespace Camellia.Esem

-- The processes which wait at an end, where `true` is for the one that is read.
def Pipe.queue (q : Pipe) (reads : Bool) : List ℕ :=
  if reads then q.readers else q.writers

def Pipe.setQueue (q : Pipe) (reads : Bool) (l : List ℕ) : Pipe :=
  if reads then { q with readers := l } else { q with writers := l }

-- What the kernel knows of a process. Only the helper looks at what its `_sys_read` has returned.
structure Proc.Shows (v : Proc) (u : Camellia.Proc) : Prop where
  pages : u.pages ≠ none
  state : u.state = if v.blocked then .waits4pipe else .running
  len   : v.blocked = true → u.waitsLen = v.len
  rax   : v.blocked = false → v.pc = .helperTest → u.rax = v.rax

-- One end of a pipe of the kernel.
structure EndShows (ends : PipeId → Bool → Hid) (i : PipeId) (b : Bool) (l : List ℕ) (x : Handle) : Prop where
  type   : x.type = .pipe
  read   : x.readable = b
  write  : x.writeable = !b
  sister : x.sister = some (ends i !b)
  queued : x.queued = l

-- The kernel has the processes and both pipes, whose ends are different handles.
structure Shows (s : State) (k : Camellia.State) (ends : PipeId → Bool → Hid) : Prop where
  procs  : ∀ p v, s.procs.get p = some v → ∃ u, k.procs.get p = some u ∧ v.Shows u
  pipes  : ∀ i b, ∃ x, k.handles.get (ends i b) = some x ∧ EndShows ends i b ((s.pipes i).queue b) x
  inj    : ∀ i j b c, ends i b = ends j c → i = j ∧ b = c
  queued : ∀ i b, ∀ p ∈ (s.pipes i).queue b, ∃ u, k.procs.get p = some u ∧ u.waitsPipe = ends i b

-- The process has the handle in its table.
def HasHandle (k : Camellia.State) (p : ℕ) (hid : Int) (h : Hid) : Prop :=
  hid ≠ HANDLE_NULLFS ∧ ∃ u t table slot, k.procs.get p = some u ∧ u.handles = some t ∧
    k.tables.get t = some table ∧ slotOf hid = some slot ∧ table slot = some h

section Queue

variable {q r : Pipe} {b c : Bool} {l : List ℕ} {s : State} {i : PipeId} {p : ℕ}

theorem queue_setQueue : (q.setQueue b l).queue c = if c = b then l else q.queue c := by
  cases b <;> cases c <;> rfl

theorem setQueue_setQueue : (q.setQueue b (r.queue b)).setQueue (!b) (r.queue !b) = r := by
  cases b <;> rfl

-- Whoever is in a queue is blocked where the program uses this end.
theorem Queues.waits (h : Queues s) (hp : p ∈ (s.pipes i).queue b) :
    ∃ v, s.procs.get p = some v ∧ v.blocked = true ∧ (if b then readsAt i v.pc else writesAt i v.pc) ∧
      v.len = if b then readLen i else 1 := by
  cases b
  case true  => exact (h.readers i).waits p hp
  case false => exact (h.writers i).waits p hp

theorem Queues.nodup (h : Queues s) : ((s.pipes i).queue b).Nodup := by
  cases b
  case true  => exact (h.readers i).nodup
  case false => exact (h.writers i).nodup

theorem Queues.not_mem {v : Proc} (h : Queues s) (hv : s.procs.get p = some v) (hb : v.blocked = false) :
    p ∉ (s.pipes i).queue b := fun hp => by
  obtain ⟨w, hw, hblocked, -⟩ := h.waits hp
  obtain rfl := Option.some_inj.mp (hv.symm.trans hw)
  exact Bool.false_ne_true (hb.symm.trans hblocked)

theorem Queues.unique {j : PipeId} (h : Queues s) (hp : p ∈ (s.pipes i).queue b) (hp' : p ∈ (s.pipes j).queue c) :
    i = j ∧ b = c := by
  obtain ⟨v, hv, -, hi, -⟩ := h.waits hp
  obtain ⟨w, hw, -, hj, -⟩ := h.waits hp'
  obtain rfl := Option.some_inj.mp (hv.symm.trans hw)
  cases b <;> cases c <;> simp only [Bool.false_eq_true, if_true, if_false] at hi hj
  case true.true   => exact ⟨readsAt_pipe hi hj, rfl⟩
  case false.false => exact ⟨writesAt_pipe hi hj, rfl⟩
  case true.false  => exact absurd hj (not_readsAt_writesAt hi)
  case false.true  => exact absurd hi (not_readsAt_writesAt hj)

theorem filter_ne (h : p ∉ l) : l.filter (· ≠ p) = l :=
  List.filter_eq_self.mpr fun r hr => decide_eq_true fun he : r = p => h (he ▸ hr)

-- A process leaves the one queue in which it is.
theorem Queues.erase (h : Queues s) (hp : p ∈ (s.pipes i).queue b) (j : PipeId) (c : Bool) :
    (Function.update s.pipes i ((s.pipes i).setQueue b (((s.pipes i).queue b).erase p)) j).queue c =
      ((s.pipes j).queue c).filter (· ≠ p) := by
  by_cases hsame : j = i ∧ c = b
  case pos =>
    obtain ⟨rfl, rfl⟩ := hsame
    rw [Function.update_self, queue_setQueue, if_pos rfl, h.nodup.erase_eq_filter]
    exact List.filter_congr fun r _ => by by_cases he : r = p <;> simp [he]
  case neg =>
    have hnot : p ∉ (s.pipes j).queue c := fun hp' => hsame (by simpa [eq_comm] using h.unique hp hp')
    rw [filter_ne hnot]
    by_cases hj : j = i
    case pos =>
      subst hj
      rw [Function.update_self, queue_setQueue, if_neg fun hc => hsame ⟨rfl, hc⟩]
    case neg => rw [Function.update_of_ne hj]

theorem pipes_procKill {pipes : PipeId → Pipe}
    (h : ∀ j c, (pipes j).queue c = ((s.pipes j).queue c).filter (· ≠ p)) : (procKill s p).pipes = pipes := by
  funext j
  exact congrArg₂ Pipe.mk (h j true).symm (h j false).symm

end Queue

namespace Shows

variable {s t : State} {k : Camellia.State} {ends : PipeId → Bool → Hid} {env : Env} {E : Fault → Prop}
variable {i : PipeId} {b : Bool} {p len : ℕ} {v w : Proc} {u y : Camellia.Proc} {x : Handle} {l : List ℕ} {pc : Pc}
variable {hid offset : Int} {buf : ℕ}

theorem waiting (h : Shows s k ends) (hq : Queues s) (hp : p ∈ (s.pipes i).queue b) :
    ∃ u, k.procs.get p = some u ∧ u.state = .waits4pipe := by
  obtain ⟨v, hv, hb, -⟩ := hq.waits hp
  obtain ⟨u, hu, hs⟩ := h.procs p v hv
  exact ⟨u, hu, by rw [hs.state, hb, if_pos rfl]⟩

-- A process goes on, or begins to wait.
theorem setProc (h : Shows s k ends) (hv : s.procs.get p = some v) (hu : k.procs.get p = some u) (hw : w.Shows y)
    (hpipe : y.waitsPipe = u.waitsPipe ∨ ∀ i b, p ∉ (s.pipes i).queue b) :
    Shows { s with procs := s.procs.set p w } (k.withProcs (k.procs.set p y)) ends := by
  refine ⟨fun r z hz => ?_, h.pipes, h.inj, fun i b r hr => ?_⟩
  · by_cases hrp : r = p
    case pos =>
      subst hrp
      obtain rfl := Option.some_inj.mp ((Heap.get_set_self hv).symm.trans hz)
      exact ⟨y, Heap.get_set_self hu, hw⟩
    case neg =>
      obtain ⟨a, ha, hs⟩ := h.procs r z ((Heap.get_set_ne hrp).symm.trans hz)
      exact ⟨a, (Heap.get_set_ne hrp).trans ha, hs⟩
  · obtain ⟨a, ha, hwait⟩ := h.queued i b r hr
    by_cases hrp : r = p
    case pos =>
      subst hrp
      obtain rfl := Option.some_inj.mp (hu.symm.trans ha)
      exact ⟨y, Heap.get_set_self hu, (hpipe.resolve_right fun hn => hn i b hr).trans hwait⟩
    case neg => exact ⟨a, (Heap.get_set_ne hrp).trans ha, hwait⟩

-- The queue of an end changes.
theorem setQueue (h : Shows s k ends) (hx : k.handles.get (ends i b) = some x)
    (hl : ∀ p ∈ l, ∃ u, k.procs.get p = some u ∧ u.waitsPipe = ends i b) :
    Shows { s with pipes := Function.update s.pipes i ((s.pipes i).setQueue b l) }
      (k.withHandles (k.handles.set (ends i b) { x with queued := l })) ends := by
  refine ⟨h.procs, fun j c => ?_, h.inj, fun j c r hr => ?_⟩
  · obtain ⟨y, hy, he⟩ := h.pipes j c
    by_cases hsame : ends j c = ends i b
    case pos =>
      obtain ⟨rfl, rfl⟩ := h.inj j i c b hsame
      obtain rfl := Option.some_inj.mp (hx.symm.trans hy)
      refine ⟨_, Heap.get_set_self hx, { he with queued := ?_ }⟩
      simp only [Function.update_self, queue_setQueue, if_true]
    case neg =>
      refine ⟨y, (Heap.get_set_ne hsame).trans hy, { he with queued := he.queued.trans ?_ }⟩
      by_cases hj : j = i
      case pos =>
        subst hj
        have hc : c ≠ b := fun hc => hsame (hc ▸ rfl)
        simp only [Function.update_self, queue_setQueue, if_neg hc]
      case neg => simp only [Function.update_of_ne hj]
  · by_cases hsame : j = i ∧ c = b
    case pos =>
      obtain ⟨rfl, rfl⟩ := hsame
      simp only [Function.update_self, queue_setQueue, if_true] at hr
      exact hl r hr
    case neg =>
      refine h.queued j c r ?_
      by_cases hj : j = i
      case pos =>
        subst hj
        have hc : c ≠ b := fun hc => hsame ⟨rfl, hc⟩
        simpa only [Function.update_self, queue_setQueue, if_neg hc] using hr
      case neg => simpa only [Function.update_of_ne hj] using hr

theorem congr {k' : Camellia.State} (h : Shows s k ends) (hp : t.procs = s.procs) (hq : t.pipes = s.pipes)
    (hp' : k'.procs = k.procs) (hh : k'.handles = k.handles) : Shows t k' ends := by
  refine ⟨?_, ?_, h.inj, ?_⟩
  · rw [hp, hp']
    exact h.procs
  · rw [hq, hh]
    exact h.pipes
  · rw [hq, hp']
    exact h.queued

-- The first reader and the first writer go on.
theorem transfer {rdr wtr : ℕ} {rdrs wtrs : List ℕ} (h : Shows s k ends) (hq : Queues s)
    (hr : (s.pipes i).readers = rdr :: rdrs) (hw : (s.pipes i).writers = wtr :: wtrs)
    (henv : ∀ n, n ≤ env.copied n) :
    wp (pipeTransfer env (ends i b) (ends i !b) rdr wtr) (fun _ t => Shows (pipeTrytransfer s i) t ends) E k := by
  obtain ⟨v, hv, hvb, hvi, hvl⟩ := (hq.readers i).waits rdr (by rw [hr]; exact List.mem_cons_self ..)
  obtain ⟨w, hw', hwb, hwi, hwl⟩ := (hq.writers i).waits wtr (by rw [hw]; exact List.mem_cons_self ..)
  have hne : rdr ≠ wtr := by
    rintro rfl
    exact ends_ne hvi hwi (Option.some.inj (hv.symm.trans hw'))
  obtain ⟨a, ha, hsa⟩ := h.procs rdr v hv
  obtain ⟨c, hc, hsc⟩ := h.procs wtr w hw'
  obtain ⟨x, hx, hex⟩ := h.pipes i b
  obtain ⟨y, hy, hey⟩ := h.pipes i !b
  have hgh : ends i (!b) ≠ ends i b := fun he => by simpa using (h.inj i i _ _ he).2
  have hmin : min a.waitsLen c.waitsLen = min (readLen i) 1 := by rw [hsa.len hvb, hsc.len hwb, hvl, hwl]
  have has : a.state = .waits4pipe := by rw [hsa.state, hvb, if_pos rfl]
  have hcs : c.state = .waits4pipe := by rw [hsc.state, hwb, if_pos rfl]
  refine wp_post (pipeTransfer_spec hne hgh ha hc has hcs hsa.pages hsc.pages hx hy hmin (by omega) (henv _)) ?_
  rintro _ _ rfl
  have htail (d : Bool) : ((s.pipes i).queue d).tail = (⟨rdrs, wtrs⟩ : Pipe).queue d := by
    cases d <;> simp only [Pipe.queue, hr, hw, if_true, Bool.false_eq_true, if_false, List.tail_cons]
  have hwake (z : Proc) (e : Camellia.Proc) (he : z.Shows e) :
      ({ z with blocked := false, rax := min (readLen i) 1 } : Proc).Shows
        { e with state := .running, rax := (min (readLen i) 1 : ℕ) } :=
    ⟨he.pages, rfl, nofun, fun _ _ => rfl⟩
  have h₁ := h.setProc hv ha (hwake v a hsa) (.inl rfl)
  have h₂ := h₁.setProc ((Heap.get_set_ne hne.symm).trans hw') ((Heap.get_set_ne hne.symm).trans hc) (hwake w c hsc)
    (.inl rfl)
  have h₃ := h₂.setQueue hx fun r hr => h₂.queued i b r (List.mem_of_mem_tail (hex.queued ▸ hr))
  have h₄ := h₃.setQueue ((Heap.get_set_ne hgh).trans hy) fun r hr =>
    h₂.queued i (!b) r (List.mem_of_mem_tail (hey.queued ▸ hr))
  refine h₄.congr ?_ ?_ rfl rfl
  · rw [pipeTrytransfer, hr, hw]
    simp only [hv, hw', wake, hvl, hwl]
  · rw [pipeTrytransfer, hr, hw]
    simp only [hv, hw', wake, hex.queued, hey.queued, htail, Function.update_self, Function.update_idem,
      setQueue_setQueue]

theorem trytransfer (h : Shows s k ends) (hq : Queues s) (henv : ∀ n, n ≤ env.copied n) :
    wp (Camellia.pipeTrytransfer env (ends i b)) (fun _ t => Shows (pipeTrytransfer s i) t ends) E k := by
  obtain ⟨x, hx, hex⟩ := h.pipes i b
  obtain ⟨y, hy, hey⟩ := h.pipes i !b
  have hends : (pipeEnds x y).1.queued = (s.pipes i).readers ∧ (pipeEnds x y).2.queued = (s.pipes i).writers := by
    cases b <;> simp [pipeEnds, hex.read, hex.queued, hey.queued, Pipe.queue]
  simp only [Camellia.pipeTrytransfer, wp_bind, wp_getHandle, hx, Option.elim_some, wp_kassert, hex.type, hex.read,
    hex.write, ne_eq, Bool.eq_not_self, not_false_eq_true, true_implies, not_true_eq_false, false_implies, and_true,
    hex.sister, hy, hends.1, hends.2]
  cases hr : (s.pipes i).readers
  case nil => exact wp_pure.mpr (h.congr (by rw [pipeTrytransfer, hr]) (by rw [pipeTrytransfer, hr]) rfl rfl)
  case cons rdr rdrs =>
    cases hw : (s.pipes i).writers
    case nil => exact wp_pure.mpr (h.congr (by rw [pipeTrytransfer, hr, hw]) (by rw [pipeTrytransfer, hr, hw]) rfl rfl)
    case cons wtr wtrs => exact h.transfer hq hr hw henv

-- A process joins the queue of its end: what `_sys_read` and `_sys_write` do with a pipe.
theorem joinqueue (h : Shows s k ends) (hq : Queues s) (hv : s.procs.get p = some v) (hb : v.blocked = false)
    (hprocs : t.procs = s.procs.set p { v with pc := pc, blocked := true, len := len })
    (hpipes : t.pipes = Function.update s.pipes i ((s.pipes i).setQueue b ((s.pipes i).queue b ++ [p])))
    (ht : Queues t) (henv : ∀ n, n ≤ env.copied n) :
    wp (pipeJoinqueue env (ends i b) p len) (fun _ u => Shows (pipeTrytransfer t i) u ends) E k := by
  obtain ⟨x, hx, hex⟩ := h.pipes i b
  obtain ⟨u, hu, hsu⟩ := h.procs p v hv
  have hrun : u.state = .running := by rw [hsu.state, hb, if_neg Bool.false_ne_true]
  obtain ⟨x', hx'⟩ : ∃ x', x' = { x with queued := x.queued ++ [p] } := ⟨_, rfl⟩
  simp only [pipeJoinqueue, wp_bind, wp_getHandle, hx, Option.elim_some, wp_kassert, ← hx']
  simp only [hex.type, hex.read, hex.write, ne_eq, Bool.eq_not_self, not_false_eq_true, true_implies, not_true_eq_false,
    false_implies, and_true, hex.sister, wp_bind]
  refine wp_post (pipeCheckQueue_spec fun q hp => h.waiting hq (hex.queued ▸ hp)) ?_
  rintro _ k rfl
  rw [wp_bind]
  refine wp_post (procSetstate_waits4pipe hu hrun) ?_
  rintro _ _ rfl
  simp only [wp_bind, wp_setHandle, wp_get, wp_updProc, Heap.get_set_self hu, Option.elim_some, wp_emit, Heap.set_set]
  refine trytransfer ?_ ht henv
  have hjoin := @setProc _ _ _ _ _ { v with pc := pc, blocked := true, len := len } _
    { u with state := .waits4pipe, waitsPipe := ends i b, waitsLen := len, waitsSince := k.log.length } h hv hu
    ⟨hsu.pages, rfl, fun _ => rfl, fun hf => absurd hf.symm Bool.false_ne_true⟩ (.inr fun _ _ => hq.not_mem hv hb)
  refine (hjoin.setQueue (l := (s.pipes i).queue b ++ [p]) hx fun r hr => ?_).congr hprocs hpipes rfl ?_
  · obtain hr | hr := List.mem_append.mp hr
    · exact hjoin.queued i b r hr
    · obtain rfl := List.mem_singleton.mp hr
      exact ⟨_, Heap.get_set_self hu, rfl⟩
  · rw [hx', hex.queued]
    rfl

theorem joinqueue_read (h : Shows s k ends) (hq : Queues s) (hv : s.procs.get p = some v) (hb : v.blocked = false)
    (ha : readsAt i pc) (henv : ∀ n, n ≤ env.copied n) :
    wp (pipeJoinqueue env (ends i true) p (readLen i))
      (fun _ u => Shows (sysRead s i p v (readLen i) pc) u ends) E k := by
  have hset := hq.set (x := { v with pc := pc, blocked := true, len := readLen i }) hv hb
  exact h.joinqueue hq hv hb rfl rfl (hset.update ((hq.readers i).snoc hv hb rfl ha rfl) (hset.writers i)) henv

theorem joinqueue_write (h : Shows s k ends) (hq : Queues s) (hv : s.procs.get p = some v) (hb : v.blocked = false)
    (ha : writesAt i pc) (henv : ∀ n, n ≤ env.copied n) :
    wp (pipeJoinqueue env (ends i false) p 1) (fun _ u => Shows (sysWrite s i p v 1 pc) u ends) E k := by
  have hset := hq.set (x := { v with pc := pc, blocked := true, len := 1 }) hv hb
  exact h.joinqueue hq hv hb rfl rfl (hset.update (hset.readers i) ((hq.writers i).snoc hv hb rfl ha rfl)) henv

-- The call finds the end of the pipe, whose direction it has.
theorem pipeCall_shows {Q : Unit → Camellia.State → Prop} (h : Shows s k ends) (hh : HasHandle k p hid (ends i b))
    (hq : wp (pipeJoinqueue env (ends i b) p len) Q E k) :
    wp (syscall env p (pipeCall b hid buf len offset 0)) Q E k := by
  obtain ⟨hne, u, t, table, slot, hu, ht, htable, hslot, hhandle⟩ := hh
  obtain ⟨x, hx, hex⟩ := h.pipes i b
  rw [← hex.read]
  have hdir : x.readable ≠ x.writeable := by
    rw [hex.read, hex.write]
    exact (Bool.not_ne_self b).symm
  exact pipeCall_spec hu ht htable hslot hne hhandle hx hex.type hdir (by decide) hq

-- The system calls of a process which has a handle of the end.
theorem sysRead_shows (h : Shows s k ends) (hq : Queues s) (hv : s.procs.get p = some v) (hb : v.blocked = false)
    (ha : readsAt i pc) (hh : HasHandle k p hid (ends i true)) (henv : ∀ n, n ≤ env.copied n) :
    wp (syscall env p (.read hid buf (readLen i) offset))
      (fun _ u => Shows (sysRead s i p v (readLen i) pc) u ends) E k :=
  h.pipeCall_shows hh (h.joinqueue_read hq hv hb ha henv)

theorem sysWrite_shows (h : Shows s k ends) (hq : Queues s) (hv : s.procs.get p = some v) (hb : v.blocked = false)
    (ha : writesAt i pc) (hh : HasHandle k p hid (ends i false)) (henv : ∀ n, n ≤ env.copied n) :
    wp (syscall env p (.write hid buf 1 offset 0)) (fun _ u => Shows (sysWrite s i p v 1 pc) u ends) E k :=
  h.pipeCall_shows hh (h.joinqueue_write hq hv hb ha henv)

-- A process goes which is in no queue.
theorem free (h : Shows s k ends) (hp : ∀ i b, p ∉ (s.pipes i).queue b) :
    Shows { s with procs := s.procs.free p } k ends := by
  refine ⟨fun r z hz => ?_, h.pipes, h.inj, h.queued⟩
  have hrp : r ≠ p := by
    rintro rfl
    exact nomatch Heap.get_free_self.symm.trans hz
  exact h.procs r z ((Heap.get_free_ne hrp).symm.trans hz)

-- The part of `proc_kill` which is about the queues.
theorem procKillPipe_shows (h : Shows s k ends) (hq : Queues s) (hv : s.procs.get p = some v)
    (hblocked : v.blocked = true → ∃ i b, p ∈ (s.pipes i).queue b) :
    wp (procKillPipe p) (fun _ t => Shows (procKill s p) t ends) E k := by
  obtain ⟨u, hu, hsu⟩ := h.procs p v hv
  simp only [procKillPipe, wp_bind, wp_getProc, hu, Option.elim_some, wp_ite]
  constructor
  · intro hwait
    have hb : v.blocked = true := by
      by_contra hb
      rw [hsu.state, if_neg hb] at hwait
      contradiction
    obtain ⟨i, b, hp⟩ := hblocked hb
    obtain ⟨x, hx, hex⟩ := h.pipes i b
    obtain ⟨a, ha, hpipe⟩ := h.queued i b p hp
    obtain rfl := Option.some_inj.mp (hu.symm.trans ha)
    simp only [hpipe, wp_bind, wp_getHandle, hx, Option.elim_some]
    refine wp_post (pipeCheckQueue_spec fun r hr =>
      h.waiting hq (hex.queued ▸ (List.takeWhile_sublist _).subset hr : r ∈ (s.pipes i).queue b)) ?_
    rintro _ k rfl
    have hmem : p ∈ x.queued := hex.queued ▸ hp
    simp only [wp_kassert, hmem, true_implies, not_true_eq_false, false_implies, and_true, wp_bind, wp_setHandle]
    have hset := h.setQueue (l := x.queued.erase p) hx fun r hr =>
      h.queued i b r (hex.queued ▸ List.mem_of_mem_erase hr)
    have herase := hq.erase hp
    rw [← hex.queued] at herase
    refine (hset.free fun j c hp' => ?_).congr rfl (pipes_procKill herase) rfl rfl
    rw [herase] at hp'
    simp at hp'
  · intro hrun
    have hb : v.blocked = false := by
      by_contra hb
      exact hrun (by rw [hsu.state, if_pos (Bool.not_eq_false _ ▸ hb)])
    have hnot (j : PipeId) (c : Bool) : p ∉ (s.pipes j).queue c := hq.not_mem hv hb
    exact wp_pure.mpr ((h.free hnot).congr rfl (pipes_procKill fun j c => (filter_ne (hnot j c)).symm) rfl rfl)

end Shows
end Camellia.Esem
