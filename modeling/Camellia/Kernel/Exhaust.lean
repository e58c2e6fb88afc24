import Camellia.Kernel.Byid

namespace Camellia

-- The first process with the next id, its last return value and its only child.
def firstProc (n : ℕ) (ret : Int) (child : Option Pid) : Proc :=
  { procInit (some 0) with nextlid := n % 2 ^ 32, rax := ret, child := child }

-- All processes but the first one are gone, and `n` is the next id.
structure NoChild (n : ℕ) (s : State) : Prop where
  proc    : ∃ ret, s.procs.get 0 = some (firstProc n ret none)
  table   : s.tables.get 0 = some fun _ => none
  mount   : ∃ v, s.mounts.get 0 = some v ∧ 0 < v.refs
  nextPid : s.nextPid = n % 2 ^ 32
  first   : s.first = 0
  leaves  : s.deadLeaves = []

-- The first process has one child, for which nobody will ask.
structure OneChild (n : ℕ) (c : Pid) (s : State) : Prop where
  proc    : ∃ ret, s.procs.get 0 = some (firstProc n ret (some c))
  child   : ∃ d t g l, s.pagedirs.get d = some () ∧ s.tables.get t = some (fun _ => none) ∧ t ≠ 0 ∧
    s.procs.get c = some {
      pages    := some d
      mount    := some 0
      handles  := some t
      globalid := g
      localid  := l
      noreap   := true
      parent   := some 0 }
  ne      : c ≠ 0
  table   : s.tables.get 0 = some fun _ => none
  mount   : ∃ v, s.mounts.get 0 = some v ∧ 1 < v.refs
  nextPid : s.nextPid = n % 2 ^ 32
  first   : s.first = 0
  leaves  : s.deadLeaves = []

-- The child is dead.
structure DeadChild (n : ℕ) (c : Pid) (s : State) : Prop where
  proc    : ∃ ret, s.procs.get 0 = some (firstProc n ret (some c))
  child   : ∃ w, s.procs.get c = some w ∧ w.state = .deadleaf ∧ w.parent = some 0 ∧
    w.child = none ∧ w.sibling = none
  ne      : c ≠ 0
  table   : s.tables.get 0 = some fun _ => none
  mount   : ∃ v, s.mounts.get 0 = some v ∧ 0 < v.refs
  nextPid : s.nextPid = n % 2 ^ 32
  first   : s.first = 0
  leaves  : s.deadLeaves = [c]

section Cycle

variable {s : State} {n : ℕ} {c : Pid} {env : Env} {E : Fault → Prop}

theorem fork_noChild (env : Env) (h : NoChild n s) (hn : n % 2 ^ 32 ≠ 0) :
    wp (sysFork env 0 FORK_NOREAP) (fun _ t => OneChild (n + 1) s.procs.size t)
      (fun _ => False) s := by
  obtain ⟨r, hv⟩ := h.proc
  obtain ⟨m, hm, hrefs⟩ := h.mount
  have hp : FORK_NOREAP.has FORK_SHAREMEM = false := by decide
  have hh : FORK_NOREAP.has FORK_SHAREHANDLE = false := by decide
  have hf : FORK_NOREAP.has FORK_NEWFS = false := by decide
  have hr : FORK_NOREAP.has FORK_NOREAP = true := by decide
  have h0 : 0 < s.procs.size := Heap.lt_size hv
  have hc : s.procs.size ≠ 0 := h0.ne'
  have hm0 : 0 < s.mounts.size := Heap.lt_size hm
  have hlt : s.procs.size < s.procs.size + 1 := Nat.lt_succ_self _
  have hlt0 : 0 < s.procs.size + 1 := Nat.succ_pos _
  have ht : s.tables.size ≠ 0 := (Heap.lt_size h.table).ne'
  simp only [firstProc, procInit] at hv
  simp only [sysFork, procFork, wp_bind, wp_getProc, hv, Option.elim_some, wp_kassert,
    procForkPages, hp, Bool.false_eq_true, if_false, allocPagedir, wp_get, wp_modify, wp_pure,
    procForkGlobalid, h.nextPid, hn, wp_ite, false_implies, true_and, true_implies,
    not_false_eq_true, not_true_eq_false, and_true, procForkLocalid, wp_updProc,
    procForkControlled, hf, procForkMount, getMount, wp_deref, hm, setMount, procForkHandles, hh,
    Heap.get_set_of_size, h0, if_true, procTable, wp_nonNull, getTable, h.table]
  refine wp_post wp_procForkTable_none ?_
  rintro _ _ ⟨rfl, rfl⟩
  simp only [procForkLink, allocProc, regsSavereturn, procNsId, sysReturn, wp_bind, wp_pure,
    wp_getProc, wp_updProc, wp_get, wp_modify, wp_ite, wp_kassert, Heap.get_set_of_size,
    Heap.get_alloc, Heap.size_set, hv, hc, hc.symm, if_true, if_false, Option.elim_some,
    true_implies, false_implies, not_true_eq_false, not_false_eq_true, and_true, true_and, hr, h0,
    hlt, Option.elim_some, hlt0, Heap.size_alloc]
  refine ⟨⟨(n % 2 ^ 32 : ℕ), ?_⟩, ⟨s.pagedirs.size, s.tables.size, ?_⟩, hc, ?_,
    ⟨{ m with refs := m.refs + 1 }, ?_, ?_⟩, ?_, h.first, h.leaves⟩
  all_goals simp [firstProc, procInit, Heap.get_set_of_size, Heap.get_alloc, hc, ht, ht.symm,
    h.table, hm0, hrefs]

theorem kill_child (env : Env) (h : OneChild n c s) :
    wp (procKill env c 0) (fun _ t => DeadChild n c t) (fun _ => False) s := by
  obtain ⟨r, hv⟩ := h.proc
  obtain ⟨d, t, g, l, hd, ht, ht0, hw⟩ := h.child
  obtain ⟨m, hm, hrefs⟩ := h.mount
  have h0 : 0 < s.procs.size := Heap.lt_size hv
  have hc : c < s.procs.size := Heap.lt_size hw
  have hne := h.ne
  have hm0 : 0 < s.mounts.size := Heap.lt_size hm
  simp only [firstProc, procInit] at hv
  have hclose (i : Fin HANDLE_MAX) : wp (procHandleClose env c ((i : ℕ) : Int)) (fun _ u => u = s)
      (fun _ => False) s := by
    have hslot : slotOf ((i : ℕ) : Int) = some i := by
      revert i
      decide
    have hdst : ¬(((i : ℕ) : Int) < 0 ∨ Flags.has 0 DUP_SEARCH) := by
      simp [Flags.has]
    have hsrc : ((i : ℕ) : Int) ≠ -1 := by omega
    have hget : procHandleGet c (-1) = pure none := rfl
    simp only [procHandleClose, procHandleDup, procHandleDupSlot, procHandleSet, procTable,
      getTable, handleCloseSlot, setSlot, handleRef, if_neg hdst, hslot, hsrc, hget, wp_discard,
      wp_bind, wp_pure, wp_ite, wp_getProc, hw, Option.elim_some, wp_nonNull, wp_deref, ht,
      wp_modify, Function.update_eq_self, Heap.set_get ht, ne_eq, not_true_eq_false,
      not_false_eq_true, true_implies, false_implies, and_true]
  simp only [procKill, procKillAlive, procKillControlled, procKillReqslot, procKillPipe,
    procKillTimer, procKillHandles, unref, wp_bind, wp_getProc, wp_pure, hw, Option.elim_some,
    wp_ite, PState.alive, reduceCtorEq, if_true, false_implies, true_implies, not_true_eq_false,
    not_false_eq_true, true_and, and_true, procKillTable]
  refine wp_post (wp_forM (fun _ u => u = s) ?_ rfl) ?_
  · rintro i l u rfl
    exact hclose i
  rintro _ _ rfl
  have hrun : PState.running.alive = true := rfl
  have hdead : PState.toreap.alive = false := rfl
  have hrefs0 : 0 < m.refs := by omega
  have hrefs1 : m.refs - 1 ≠ 0 := by omega
  simp only [procTable, freeTable, kfree, procKillMount, vfsMountRemref, getMount, setMount,
    procSetstate, procKillChildren, procKillPages, unref, freePagedir, wp_bind, wp_pure, wp_get,
    wp_modify, wp_ite, wp_getProc, wp_nonNull, wp_updProc, wp_deref, wp_kassert,
    Heap.get_set_of_size, Heap.size_set, Heap.set_set, hc, hw, ht, hm, hd, hrefs0, hrefs1,
    Option.elim_some, reduceCtorEq, ne_eq, if_true, not_true_eq_false, not_false_eq_true,
    true_implies, false_implies, and_true]
  simp only [procKillDying, procSetstate, procSetstateToreap, procSetstateLoop, wp_bind, wp_pure,
    wp_get, wp_ite, wp_getProc, wp_updProc, wp_kassert, Heap.get_set_of_size, Heap.set_set, hrun,
    hc, hv, hne, hne.symm, h.first, Option.elim_some, reduceCtorEq, ne_eq, if_true, if_false,
    not_true_eq_false, not_false_eq_true, true_implies, false_implies, and_true, true_and]
  simp only [procTryreap, procTryreapStart, procTryreapToreap, procReapable, procTryreapBury,
    procTryreapTombstone, procTryreapLeaf, procSetstate, wp_bind, wp_pure, wp_modify, wp_getProc,
    wp_updProc, wp_kassert, Heap.get_set_of_size, Heap.set_set, hc, hne.symm, hv, hdead,
    Option.elim_some, reduceCtorEq, Bool.false_eq_true, if_true, if_false, not_true_eq_false,
    not_false_eq_true, true_implies, false_implies, and_true, ne_eq, false_and, true_or, h.leaves]
  refine ⟨⟨r, ?_⟩, ⟨_, by rw [Heap.get_set_self hw], rfl, rfl, rfl, rfl⟩, hne, ?_,
    ⟨_, by rw [Heap.get_set_self hm], ?_⟩, h.nextPid, rfl, rfl⟩
  · rw [Heap.get_set_ne hne.symm, hv]
    rfl
  · rw [Heap.get_free_ne ht0.symm, h.table]
  · exact Nat.sub_pos_of_lt hrefs

theorem prune_child (h : DeadChild n c s) :
    wp procPruneLeaves (fun _ t => NoChild n t) (fun _ => False) s := by
  obtain ⟨r, hv⟩ := h.proc
  obtain ⟨w, hw, hstate, hparent, hchild, hsibling⟩ := h.child
  have h0 : 0 < s.procs.size := Heap.lt_size hv
  have hc : c < s.procs.size := Heap.lt_size hw
  have hne := h.ne
  have hrun : PState.running.alive = true := rfl
  obtain ⟨k, hk⟩ : ∃ k, s.procs.size = k + 1 := ⟨s.procs.size - 1, by omega⟩
  rw [hk] at h0 hc
  have hrest {t : State} (ht : NoChild n t) :
      wp (procPruneLeavesLoop k) (fun _ t => NoChild n t) (fun _ => False) t := by
    cases k <;> simpa [procPruneLeavesLoop, ht.leaves] using ht
  simp only [firstProc, procInit] at hv
  simp only [procPruneLeaves, procPruneLeavesLoop, procPruneLeaf, procUnlink, procSetstate,
    freeProc, kfree, wp_bind, wp_get, hk, h.leaves, wp_getProc, hw, Option.elim_some, wp_modify,
    wp_kassert, hstate, hparent, hv, hchild, hsibling, if_true, wp_updProc, Heap.get_set_of_size,
    Heap.get_free, Heap.size_set, hne, hne.symm, hc, h0, hrun, if_false, reduceCtorEq, ne_eq,
    not_true_eq_false, not_false_eq_true, true_implies, false_implies, and_true, wp_pure]
  refine hrest ⟨⟨r, ?_⟩, h.table, h.mount, h.nextPid, h.first, rfl⟩
  rw [Heap.get_free_ne hne.symm, Heap.get_set_ne hne.symm, Heap.get_set_self hv]
  rfl

theorem noChild_bootState : NoChild 2 (bootState [[]]) :=
  ⟨⟨0, rfl⟩, rfl, ⟨_, rfl, Nat.one_pos⟩, rfl, rfl, rfl⟩

-- One id after the other is used up.
theorem exists_noChild {n : ℕ} (hn : 2 ≤ n) (hlt : n ≤ 2 ^ 32) : ∃ s, NsRun [[]] s ∧ NoChild n s := by
  induction n, hn using Nat.le_induction
  case base => exact ⟨_, .boot, noChild_bootState⟩
  case succ n hn hi =>
    obtain ⟨s, hr, hs⟩ := hi (by omega)
    have hmod : n % 2 ^ 32 ≠ 0 := by omega
    obtain ⟨_, a, hfork, ha⟩ := wp_false_iff.mp (fork_noChild quietEnv hs hmod)
    obtain ⟨_, b, hkill, hb⟩ := wp_false_iff.mp (kill_child quietEnv ha)
    obtain ⟨_, t, hprune, ht⟩ := wp_false_iff.mp (prune_child hb)
    obtain ⟨ret, hv⟩ := hs.proc
    have hstep₁ : Step s (.syscall 0 (.fork FORK_NOREAP)) a := ⟨⟨_, hv, rfl⟩, quietEnv, hfork⟩
    have hstep₂ : Step a (.kill s.procs.size 0) b := ⟨trivial, quietEnv, hkill⟩
    have hstep₃ : Step b .prune t := ⟨trivial, quietEnv, hprune⟩
    exact ⟨t, ((hr.step hstep₁).step hstep₂).step hstep₃, ht⟩

-- After 2^32 - 2 children the next id is 0, which is not larger than the id 1 of the first process.
theorem ids_exhausted : ¬∀ (paths : List (List UInt8)) (s : State), NsRun paths s →
    ∀ ns o, s.procs.get ns = some o → o.pns = ns → ∀ q, NsMember s ns q →
      ∃ id, procNsId ns q s = .ok (id, s) ∧ 1 ≤ id ∧ (id = 1 ↔ q = ns) ∧ id < o.nextlid := by
  intro h
  obtain ⟨s, hr, hs⟩ := exists_noChild (n := 2 ^ 32) (by decide) le_rfl
  obtain ⟨ret, hv⟩ := hs.proc
  obtain ⟨id, _, _, _, hlt⟩ := h [[]] s hr 0 _ hv rfl 0 (nsMember_iff.mpr (.inl rfl))
  exact absurd hlt (Nat.not_lt_zero _)

end Cycle
end Camellia
