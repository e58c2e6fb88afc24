import Camellia.Kernel.Request

namespace Camellia

section Fork

-- Makes sure that there is a counter for what the parent shares with its children, and counts one
-- more child.
def procForkCount (count : Option Cid) : K Cid := do
  let c ← match count with
    | some c => pure c
    | none   => allocCount 1
  setCount c ((← getCount c) + 1)
  pure c

def procForkPages (parent : Pid) (flags : Flags) : K (Option ℕ × Option Cid) := do
  let v ← getProc parent
  if flags.has FORK_SHAREMEM then
    let c ← procForkCount v.pagesRefcount
    updProc parent ({ · with pagesRefcount := some c })
    pure (v.pages, some c)
  else
    pure (some (← allocPagedir), none)

-- `next_pid` and `nextlid` are of the type `uint32_t`.
def procForkGlobalid : K ℕ := do
  let id := (← get).nextPid
  if id = 0 then
    throw (.panic .procForkPid)
  modify fun s => { s with nextPid := (id + 1) % 2 ^ 32 }
  pure id

def procForkLocalid (pns : Pid) : K ℕ := do
  let id := (← getProc pns).nextlid
  if id = 0 then
    throw (.panic .procForkLid)
  updProc pns ({ · with nextlid := (id + 1) % 2 ^ 32 })
  pure id

def procForkControlled (controlled : Option Bid) (flags : Flags) : K (Option Bid) :=
  if flags.has FORK_NEWFS then
    pure none
  else match controlled with
  | none   => pure none
  | some b => do
    let v ← getBackend b
    kassert (v.provhcnt ≠ 0) .procForkProvider
    setBackend b { v with provhcnt := v.provhcnt + 1 }
    pure (some b)

def procForkMount (mount : Option Mid) : K (Option Mid) := do
  match mount with
  | none   => throw (.assert .procForkMount)
  | some m =>
    let v ← getMount m
    setMount m { v with refs := v.refs + 1 }
    pure (some m)

-- The loop of `proc_fork` which copies the handles.
def procForkTable (table : Table) : K Tid := do
  let t ← allocTable fun _ => none
  (List.finRange HANDLE_MAX).forM fun i => do
    setSlot t i (table i)
    match table i with
    | none   => pure ()
    | some h => updHandle h fun v => { v with refcount := v.refcount + 1 }
  pure t

def procForkHandles (parent : Pid) (flags : Flags) : K (Option Tid × Option Cid) := do
  let v ← getProc parent
  if flags.has FORK_SHAREHANDLE then
    let c ← procForkCount v.handlesRefcount
    updProc parent ({ · with handlesRefcount := some c })
    pure (v.handles, some c)
  else
    pure (some (← procForkTable (← getTable (← procTable parent))), none)

-- The child is put into the tree once all of its fields are known.
def procForkLink (parent : Pid) (child : Proc) : K Pid := do
  let v ← getProc parent
  let c ← allocProc { child with sibling := v.child, child := none, parent := some parent }
  updProc parent ({ · with child := some c })
  pure c

def procFork (parent : Pid) (flags : Flags) : K Pid := do
  let v ← getProc parent
  kassert (v.state = .running) .procForkRunning
  let (pages, pagesRefcount) ← procForkPages parent flags
  let globalid ← procForkGlobalid
  let localid ← procForkLocalid v.pns
  let controlled ← procForkControlled v.controlled flags
  let mount ← procForkMount v.mount
  let (handles, handlesRefcount) ← procForkHandles parent flags
  procForkLink parent {
    state           := .running
    pages           := pages
    pagesRefcount   := pagesRefcount
    noreap          := flags.has FORK_NOREAP
    globalid        := globalid
    pns             := v.pns
    localid         := localid
    controlled      := controlled
    mount           := mount
    handles         := handles
    handlesRefcount := handlesRefcount
    rax             := v.rax }

end Fork

section Timer

-- The list of sleeping processes is sorted by the time at which they wake up.
def timerInsert (p : Pid) (goal : ℕ) : List Pid → K (List Pid)
  | []           => pure [p]
  | q :: waiting => do
    let v ← getProc q
    if v.goal ≤ goal then
      kassert (v.state = .waits4timer) .timerSchedule
      pure (q :: (← timerInsert p goal waiting))
    else
      pure (p :: q :: waiting)

def timerSchedule (p : Pid) (goal : ℕ) : K Unit := do
  procSetstate p .waits4timer
  updProc p ({ · with goal := goal })
  let scheduled ← timerInsert p goal (← get).scheduled
  modify fun s => { s with scheduled := scheduled }

def timerDeschedule (p : Pid) : K Unit := do
  kassert ((← getProc p).state = .waits4timer) .timerDeschedule
  kassert (p ∈ (← get).scheduled) .timerDeschedule
  modify fun s => { s with scheduled := s.scheduled.erase p }
  procSetstate p .running

def hpetIrq (counter : ℕ) : K Unit := do
  match (← get).scheduled with
  | []        => pure ()
  | p :: rest =>
    if (← getProc p).goal < counter then
      modify fun s => { s with scheduled := rest }
      procSetstate p .running

def procTryintr (p : Pid) : K Unit := do
  if (← getProc p).state = .waits4timer then
    timerDeschedule p

end Timer

section Reap

def procTryreapBury (dead : Pid) : K Unit := do
  procSetstate dead .tombstone
  updProc dead ({ · with noreap := true })

-- The call of `pcpy_to` in `proc_tryreap`.
def tryreapStored (parent dead : Proc) : Option (ℕ × Int) :=
  if parent.awaitedOut = 0 then none else some (parent.awaitedOut, dead.deathMsg)

-- The part of `proc_tryreap` for a process whose parent still lives. The result is false if the
-- process has to wait for its parent.
def procTryreapParent (dead parent : Pid) : K Bool := do
  let w ← getProc parent
  if w.state ≠ .waits4childdeath then
    pure false
  else
    let pid ← procNsId w.pns dead
    if w.awaitedPid ≠ 0 ∧ w.awaitedPid ≠ pid then
      pure false
    else
      regsSavereturn parent pid
      let v ← getProc dead
      emit (.reaped { parent := parent, child := dead, id := pid, stored := tryreapStored w v })
      procSetstate parent .running
      pure true

-- Whether the parent may still collect the return value.
def procReapable (v : Proc) : K (Option Pid) :=
  match v.parent with
  | none        => pure none
  | some parent => do
    let w ← getProc parent
    pure (if ¬v.noreap ∧ w.state.alive ∧ w.state ≠ .dying then some parent else none)

-- The part of `proc_tryreap` for the state `PS_TOREAP`. The result is false if `proc_tryreap` ends
-- with it.
def procTryreapToreap (dead : Pid) : K Bool := do
  match ← procReapable (← getProc dead) with
  | none        =>
    procTryreapBury dead
    pure true
  | some parent =>
    if ← procTryreapParent dead parent then
      procTryreapBury dead
      pure true
    else
      pure false

def procTryreapChildren : ℕ → Option Pid → K Unit
  | _, none          => pure ()
  | 0, some _        => throw .outOfFuel
  | fuel + 1, some p => do
    let v ← getProc p
    kassert (v.state ≠ .toreap) .procTryreapToreap
    procTryreapChildren fuel v.sibling

def procTryreapDescend : ℕ → Pid → K Pid
  | 0, _        => throw .outOfFuel
  | fuel + 1, p => do
    match (← getProc p).child with
    | none   => pure p
    | some c => procTryreapDescend fuel c

-- The checks of `proc_tryreap` on the children of a tombstone.
def procTryreapCheck (child : Pid) : K Unit := do
  let fuel := (← get).procs.size + 1
  procTryreapChildren fuel (some child)
  let leaf ← procTryreapDescend fuel child
  let w ← getProc leaf
  if w.state = .toreap then
    let parent ← nonNull w.parent
    kassert ((← getProc parent).state.alive) .procTryreapLeaf
  else
    kassert (w.state.alive ∨ w.state = .deadleaf) .procTryreapLeaf

def procTryreapLeaf (dead : Pid) (v : Proc) : K Unit := do
  kassert (v.refcount = 0) .procTryreapRefcount
  if v.state = .tombstone then
    procSetstate dead .deadleaf
    modify fun s => { s with deadLeaves := dead :: s.deadLeaves }
  else
    kassert (v.state = .deadleaf) .procTryreapDeadleaf

def procTryreapTombstone (dead : Pid) : K Unit := do
  let v ← getProc dead
  match v.child, v.parent with
  | some child, _    =>
    kassert (v.state = .tombstone) .procTryreapTombstone
    procTryreapCheck child
  | none, none       => pure ()
  | none, some _     => procTryreapLeaf dead v

def procTryreapStart (v : Proc) : K Unit := do
  kassert (¬v.state.alive) .procTryreapDead
  match v.parent with
  | none        => pure ()
  | some parent => kassert ((← getProc parent).child ≠ none) .procTryreapChild

def procTryreap (dead : Pid) : K Unit := do
  let v ← getProc dead
  procTryreapStart v
  if v.state = .toreap then
    if ← procTryreapToreap dead then
      procTryreapTombstone dead
  else
    procTryreapTombstone dead

-- The loop of `proc_prune_leaves` which looks for the sibling before `p`.
def procUnlinkLoop (p : Pid) (next : Option Pid) : ℕ → Pid → K Unit
  | 0, _           => throw .outOfFuel
  | fuel + 1, prev => do
    match (← getProc prev).sibling with
    | none         => throw (.assert .procPruneLeaves)
    | some sibling =>
      if sibling = p then
        updProc prev ({ · with sibling := next })
      else
        procUnlinkLoop p next fuel sibling

def procUnlink (p : Pid) (next : Option Pid) (parent first : Pid) : K Unit := do
  if first = p then
    updProc parent ({ · with child := next })
  else
    procUnlinkLoop p next ((← get).procs.size + 1) first

def procPruneLeaf (p : Pid) (leaves : List Pid) : K Unit := do
  let v ← getProc p
  modify fun s => { s with deadLeaves := leaves }
  kassert (v.state = .deadleaf) .procPruneLeaves
  match v.parent with
  | none        => throw (.assert .procPruneLeaves)
  | some parent =>
    match (← getProc parent).child with
    | none       => throw (.assert .procPruneLeaves)
    | some first =>
      kassert (v.child = none) .procPruneLeaves
      procUnlink p v.sibling parent first
      procSetstate p .freed
      freeProc p
      if ¬(← getProc parent).state.alive then
        procTryreap parent

-- Every iteration frees a process, so there are not more of them than processes.
def procPruneLeavesLoop : ℕ → K Unit
  | 0        => do
    if (← get).deadLeaves ≠ [] then
      throw .outOfFuel
  | fuel + 1 => do
    match (← get).deadLeaves with
    | []          => pure ()
    | p :: leaves =>
      procPruneLeaf p leaves
      procPruneLeavesLoop fuel

def procPruneLeaves : K Unit := do
  procPruneLeavesLoop (← get).procs.size

end Reap

section Kill

-- The slot that `proc_handle_dup` writes to, or the error it returns.
def procHandleDupSlot (p : Pid) (dst : Int) (flags : Flags) : K (Int ⊕ Fin HANDLE_MAX) := do
  if dst < 0 ∨ flags.has DUP_SEARCH then
    match procFindFreeHandle (← getTable (← procTable p)) dst with
    | none   => pure (.inl (-EMFILE))
    | some i => pure (.inr i)
  else match slotOf dst with
  | none   => pure (.inl (-EBADF))
  | some i => pure (.inr i)

def handleCloseSlot (env : Env) : Option Hid → K Unit
  | none   => pure ()
  | some h => handleClose env (vfsreqFinishShort env) h

def handleRef : Option Hid → K Unit
  | none   => pure ()
  | some h => updHandle h fun v => { v with refcount := v.refcount + 1 }

-- The part of `proc_handle_dup` which puts a handle into a slot.
def procHandleSet (env : Env) (p : Pid) (i : Fin HANDLE_MAX) (h : Option Hid) : K Unit := do
  let t ← procTable p
  handleCloseSlot env ((← getTable t) i)
  setSlot t i h
  handleRef h

def procHandleDup (env : Env) (p : Pid) (src dst : Int) (flags : Flags) : K Int := do
  match ← procHandleDupSlot p dst flags with
  | .inl ret => pure ret
  | .inr i   =>
    if ((i : ℕ) : Int) ≠ src then
      procHandleSet env p i (← procHandleGet p src)
    pure (i : ℕ)

def procHandleClose (env : Env) (p : Pid) (hid : Int) : K Unit :=
  discard <| procHandleDup env p (-1) hid 0

def bufFree : Option ℕ → K Unit
  | none     => pure ()
  | some buf => freeBuf buf

def vfsMountRemref : ℕ → Mid → K Unit
  | 0, _        => throw .outOfFuel
  | fuel + 1, m => do
    let v ← getMount m
    kassert (0 < v.refs) .vfsMountRemref
    setMount m { v with refs := v.refs - 1 }
    if v.refs - 1 = 0 then
      vfsreqRefdown v.backend
      bufFree v.owned
      freeMount m
      match v.prev with
      | none      => pure ()
      | some prev => vfsMountRemref fuel prev

-- `meant to be used with p->*_refcount`
def unref : Option Cid → K Bool
  | none   => pure true
  | some c => do
    let n ← getCount c
    kassert (n ≠ 0) .unrefCount
    setCount c (n - 1)
    if n - 1 = 0 then
      freeCount c
      pure true
    else
      pure false

-- The parts of `proc_kill` for a process which is alive, in the order in which they are done.

def procKillHandler (p : Pid) (b : Bid) : K Unit := do
  let v ← getBackend b
  kassert (0 < v.provhcnt) .procKillProvider
  if v.access = .user (some p) then
    kassert ((← getProc p).state = .waits4request) .procKillHandler
    setBackend b { v with access := .user none }

def procKillControlled (p : Pid) : K Unit := do
  match (← getProc p).controlled with
  | none   => pure ()
  | some b =>
    procKillHandler p b
    vfsBackendRefdownProv b
    updProc p ({ · with controlled := none })

def procKillReqslot (p : Pid) : K Unit := do
  let v ← getProc p
  if v.state = .waits4fs then
    match v.reqslot with
    | none   => throw (.assert .procKillReqslot)
    | some r =>
      setReq r { (← getReq r) with caller := none }
      updProc p ({ · with reqslot := none })
  else match v.reqslot with
  | none   => pure ()
  | some r => freeReq r

def procKillPipe (p : Pid) : K Unit := do
  let v ← getProc p
  if v.state = .waits4pipe then
    let w ← getHandle v.waitsPipe
    pipeCheckQueue (w.queued.takeWhile (· ≠ p))
    kassert (p ∈ w.queued) .procKillQueue
    setHandle v.waitsPipe { w with queued := w.queued.erase p }

def procKillTimer (p : Pid) : K Unit := do
  if (← getProc p).state = .waits4timer then
    timerDeschedule p

def procKillTable (env : Env) (p : Pid) : K Unit := do
  (List.finRange HANDLE_MAX).forM fun i => procHandleClose env p (i : ℕ)
  freeTable (← procTable p)

def procKillHandles (env : Env) (p : Pid) : K Unit := do
  if ← unref (← getProc p).handlesRefcount then
    procKillTable env p
  updProc p ({ · with handles := none })

def procKillMount (p : Pid) : K Unit := do
  match (← getProc p).mount with
  | none   => throw (.assert .vfsMountRemref)
  | some m =>
    vfsMountRemref ((← get).mounts.size + 1) m
    updProc p ({ · with mount := none })

-- The loop of `proc_kill` which turns the children nobody will ask for into tombstones.
def procKillChildren : ℕ → Option Pid → K Unit
  | _, none           => pure ()
  | 0, some _         => throw .outOfFuel
  | fuel + 1, some it => do
    let v ← getProc it
    if v.state = .toreap then
      procTryreap it
    procKillChildren fuel v.sibling

def procKillPages (p : Pid) : K Unit := do
  let v ← getProc p
  if ← unref v.pagesRefcount then
    freePagedir (← nonNull v.pages)
  updProc p ({ · with pages := none })

def procKillAlive (env : Env) (p : Pid) (ret : Int) : K Unit := do
  procKillControlled p
  procKillReqslot p
  procKillPipe p
  procKillTimer p
  procKillHandles env p
  procKillMount p
  procSetstate p .dying
  updProc p ({ · with deathMsg := ret })
  procKillChildren ((← get).procs.size + 1) (← getProc p).child
  procKillPages p

def procKillDying (p : Pid) : K Unit := do
  let v ← getProc p
  if v.state = .dying then
    match v.parent with
    | none        => procSetstate p .tombstone
    | some parent =>
      if (← getProc parent).state.alive then
        procSetstate p .toreap
      else
        procSetstate p .tombstone

def procKillFirst (p : Pid) : K Unit := do
  procPruneLeaves
  if (← getProc p).child ≠ none then
    throw (.panic .procKillInit)
  throw .shutdown

def procKill (env : Env) (p : Pid) (ret : Int) : K Unit := do
  if (← getProc p).state.alive then
    procKillAlive env p ret
  procKillDying p
  if p = (← get).first then
    procKillFirst p
  else
    procTryreap p

end Kill

end Camellia
