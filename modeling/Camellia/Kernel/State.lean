import Camellia.Fault
import Camellia.Flags
import Camellia.Lib.Heap
import Camellia.Lib.Wp
import Mathlib.Data.Fintype.Pi

namespace Camellia

-- The addresses of the kernel's objects, one address space for each kind of object.
abbrev Pid := ℕ
abbrev Hid := ℕ
abbrev Tid := ℕ
abbrev Cid := ℕ
abbrev Bid := ℕ
abbrev Mid := ℕ
abbrev Rid := ℕ

def HANDLE_MAX : ℕ := 16
def HANDLE_NULLFS : Int := -2

def EBADF : Int := 3
def EINVAL : Int := 4
def ENOSYS : Int := 5
def EACCES : Int := 10
def EMFILE : Int := 11
def EPIPE : Int := 13
def ECHILD : Int := 14

inductive PState
  | running
  | dying
  | toreap
  | tombstone
  | deadleaf
  | freed
  | waits4childdeath
  | waits4fs
  | waits4request
  | waits4pipe
  | waits4timer
  deriving DecidableEq, Repr

-- `proc_alive` on a process which is not NULL.
def PState.alive : PState → Bool
  | toreap | tombstone | deadleaf | freed => false
  | _                                     => true

-- A process which is not dying or dead.
def PState.active : PState → Bool
  | .dying | .toreap | .tombstone | .deadleaf | .freed => false
  | _                                                  => true

structure Proc where
  state : PState := .running
  -- The members of the union. They do not overlap here, as each is only written and read in the state
  -- it is for.
  deathMsg : Int := 0
  awaitedPid : ℕ := 0
  awaitedOut : ℕ := 0
  awaitedMaxLen : ℕ := 0
  waitsPipe : Hid := 0
  waitsLen : ℕ := 0
  -- When the process joined the queue of the pipe, as a position in the log. No code reads it.
  waitsSince : ℕ := 0
  goal : ℕ := 0
  -- The process tree.
  sibling : Option Pid := none
  child : Option Pid := none
  parent : Option Pid := none
  pages : Option ℕ := none
  pagesRefcount : Option Cid := none
  mount : Option Mid := none
  handles : Option Tid := none
  handlesRefcount : Option Cid := none
  globalid : ℕ := 0
  refcount : ℕ := 0
  noreap : Bool := false
  pns : Pid := 0
  localid : ℕ := 0
  nextlid : ℕ := 0
  reqslot : Option Rid := none
  controlled : Option Bid := none
  -- The register in which system calls return.
  rax : Int := 0
  deriving DecidableEq

inductive HandleType
  | invalid
  | file
  | pipe
  | fsFront
  | fsReq
  deriving DecidableEq, Repr

structure Handle where
  type : HandleType
  backend : Option Bid := none
  fileId : ℕ := 0
  readable : Bool := false
  writeable : Bool := false
  req : Option Rid := none
  -- The list which starts at `pipe.queued` and is linked by `waits4pipe.next`.
  queued : List Pid := []
  sister : Option Hid := none
  refcount : ℕ := 1
  deriving DecidableEq

-- What `_handles` points to.
abbrev Table := Fin HANDLE_MAX → Option Hid

inductive VfsOp
  | OPEN
  | READ
  | WRITE
  | GETSIZE
  | REMOVE
  | CLOSE
  deriving DecidableEq, Repr

-- The input of a request is a user's buffer or a buffer of the kernel, which it owns. A user's
-- buffer may be NULL.
inductive VfsInput
  | user (buf len : ℕ)
  | kern (buf : ℕ)
  deriving DecidableEq

structure VfsReq where
  type : VfsOp
  input : VfsInput := .user 0 0
  outputBuf : ℕ := 0
  outputLen : ℕ := 0
  id : ℕ := 0
  offset : Int := 0
  flags : Flags := 0
  caller : Option Pid := none
  backend : Option Bid := none
  -- Set by `vfsreq_create` and reset by `vfsreq_finish`. No code reads it: it tells a request in
  -- flight from what the last request left behind in the slot of its caller.
  pending : Bool := true
  -- The handle which the request is for. No code reads it either.
  origin : Option Hid := none
  deriving DecidableEq

-- What a driver may see of a request. The caller may die while its request is in flight.
def VfsReq.message (req : VfsReq) : VfsReq :=
  { req with caller := none }

-- What a process is told about a dead child.
structure Report where
  parent : Pid
  child : Pid
  id : ℕ
  -- The `status` which is copied to the parent, together with its destination.
  stored : Option (ℕ × Int)
  deriving DecidableEq

-- What happened to the requests, to the handles of files and to the queues of the pipes, what was
-- copied to the processes which handle requests, and what the processes were told about their children.
inductive Event
  | created (r : Rid) (message : VfsReq)
  | enqueued (b : Bid) (r : Rid) (message : VfsReq)
  | accepted (b : Bid) (r : Rid) (message : VfsReq)
  | finished (r : Rid)
  -- The buffer of the process has room for so many bytes, and these were written to it.
  | given (p : Pid) (room : ℕ) (bytes : List UInt8)
  | opened (h : Hid) (b : Bid) (id : ℕ)
  | joined (p : Pid) (h : Hid)
  | reaped (report : Report)
  deriving DecidableEq

-- The two variants of the union in `VfsBackend`. `procfs` is `kern.data`, which only the procfs
-- backends use, and those are also the ones with a `kern.cleanup`.
inductive Access
  | user (handler : Option Pid)
  | kern (procfs : Option Pid)
  deriving DecidableEq

structure VfsBackend where
  usehcnt : ℕ
  provhcnt : ℕ
  -- The list which starts at `queue` and is linked by `queue_next`.
  queue : List Rid := []
  access : Access
  deriving DecidableEq

def VfsBackend.isUser (b : VfsBackend) : Bool :=
  match b.access with
  | .user _ => true
  | .kern _ => false

structure VfsMount where
  prev : Option Mid
  -- `prefix`, and the allocation that holds it if `prefix_owned`.
  path : List UInt8
  owned : Option ℕ := none
  backend : Option Bid
  refs : ℕ
  deriving DecidableEq

structure State where
  procs : Heap Proc := .empty
  handles : Heap Handle := .empty
  tables : Heap Table := .empty
  counts : Heap ℕ := .empty
  pagedirs : Heap Unit := .empty
  backends : Heap VfsBackend := .empty
  mounts : Heap VfsMount := .empty
  reqs : Heap VfsReq := .empty
  -- The buffers which hold paths.
  bufs : Heap (List UInt8) := .empty
  first : Pid := 0
  nextPid : ℕ := 1
  -- The list which starts at `dead_leaves` and is linked by `deadleaf_next`.
  deadLeaves : List Pid := []
  -- The list which starts at `scheduled` and is linked by `waits4timer.next`.
  scheduled : List Pid := []
  -- The requests which the kernel's drivers keep to finish them later.
  held : List Rid := []
  -- The history of the execution, which no code reads.
  log : List Event := []

-- The static handle which `proc_handle_get` returns for `HANDLE_NULLFS`. It is the first handle of
-- the heap, although it is not allocated there.
def nullfs : Hid := 0

abbrev K := StateT State (Except Fault)

def kassert (c : Prop) [Decidable c] (site : Site) : K Unit :=
  if c then pure () else throw (.assert site)

-- Every use of an object goes through its address, and fails if the object was freed.
def deref {α : Type} (heap : State → Heap α) (obj : Obj) (i : ℕ) : K α := do
  match (heap (← get)).get i with
  | some a => pure a
  | none   => throw (.useAfterFree obj)

def emit (e : Event) : K Unit :=
  modify fun s => { s with log := s.log ++ [e] }

-- A pointer which the source uses without a check for NULL.
def nonNull {α : Type} : Option α → K α
  | some a => pure a
  | none   => throw .nullPointer

def getProc (p : Pid) : K Proc :=
  deref State.procs .proc p

def setProc (p : Pid) (v : Proc) : K Unit :=
  modify fun s => { s with procs := s.procs.set p v }

def updProc (p : Pid) (f : Proc → Proc) : K Unit := do
  setProc p (f <| ← getProc p)

def getHandle (h : Hid) : K Handle :=
  deref State.handles .handle h

def setHandle (h : Hid) (v : Handle) : K Unit :=
  modify fun s => { s with handles := s.handles.set h v }

def updHandle (h : Hid) (f : Handle → Handle) : K Unit := do
  setHandle h (f <| ← getHandle h)

def getBackend (b : Bid) : K VfsBackend :=
  deref State.backends .backend b

def setBackend (b : Bid) (v : VfsBackend) : K Unit :=
  modify fun s => { s with backends := s.backends.set b v }

def updBackend (b : Bid) (f : VfsBackend → VfsBackend) : K Unit := do
  setBackend b (f <| ← getBackend b)

def getMount (m : Mid) : K VfsMount :=
  deref State.mounts .mount m

def setMount (m : Mid) (v : VfsMount) : K Unit :=
  modify fun s => { s with mounts := s.mounts.set m v }

def getReq (r : Rid) : K VfsReq :=
  deref State.reqs .req r

def setReq (r : Rid) (v : VfsReq) : K Unit :=
  modify fun s => { s with reqs := s.reqs.set r v }

def getBuf (b : ℕ) : K (List UInt8) :=
  deref State.bufs .buf b

def getTable (t : Tid) : K Table :=
  deref State.tables .table t

def setSlot (t : Tid) (i : Fin HANDLE_MAX) (h : Option Hid) : K Unit := do
  let table ← getTable t
  modify fun s => { s with tables := s.tables.set t (Function.update table i h) }

def getCount (c : Cid) : K ℕ :=
  deref State.counts .count c

def setCount (c : Cid) (n : ℕ) : K Unit :=
  modify fun s => { s with counts := s.counts.set c n }

def allocProc (v : Proc) : K Pid := do
  let p := (← get).procs.size
  modify fun s => { s with procs := s.procs.alloc v }
  pure p

def allocHandle (v : Handle) : K Hid := do
  let h := (← get).handles.size
  modify fun s => { s with handles := s.handles.alloc v }
  pure h

def allocTable (v : Table) : K Tid := do
  let t := (← get).tables.size
  modify fun s => { s with tables := s.tables.alloc v }
  pure t

def allocCount (n : ℕ) : K Cid := do
  let c := (← get).counts.size
  modify fun s => { s with counts := s.counts.alloc n }
  pure c

def allocPagedir : K ℕ := do
  let d := (← get).pagedirs.size
  modify fun s => { s with pagedirs := s.pagedirs.alloc () }
  pure d

def allocBackend (v : VfsBackend) : K Bid := do
  let b := (← get).backends.size
  modify fun s => { s with backends := s.backends.alloc v }
  pure b

def allocMount (v : VfsMount) : K Mid := do
  let m := (← get).mounts.size
  modify fun s => { s with mounts := s.mounts.alloc v }
  pure m

def allocReq (v : VfsReq) : K Rid := do
  let r := (← get).reqs.size
  modify fun s => { s with reqs := s.reqs.alloc v }
  pure r

def allocBuf (path : List UInt8) : K ℕ := do
  let b := (← get).bufs.size
  modify fun s => { s with bufs := s.bufs.alloc path }
  pure b

-- `kfree` asserts that its argument is an allocation which was not freed yet.
def kfree {α : Type} (heap : State → Heap α) (put : State → Heap α → State) (i : ℕ) : K Unit := do
  match (heap (← get)).get i with
  | some _ => modify fun s => put s ((heap s).free i)
  | none   => throw (.assert .kmallocSanity)

def freeProc : Pid → K Unit :=
  kfree State.procs fun s h => { s with procs := h }

def freeTable : Tid → K Unit :=
  kfree State.tables fun s h => { s with tables := h }

def freeCount : Cid → K Unit :=
  kfree State.counts fun s h => { s with counts := h }

def freePagedir : ℕ → K Unit :=
  kfree State.pagedirs fun s h => { s with pagedirs := h }

def freeBackend : Bid → K Unit :=
  kfree State.backends fun s h => { s with backends := h }

def freeMount : Mid → K Unit :=
  kfree State.mounts fun s h => { s with mounts := h }

def freeReq : Rid → K Unit :=
  kfree State.reqs fun s h => { s with reqs := h }

def freeBuf : ℕ → K Unit :=
  kfree State.bufs fun s h => { s with bufs := h }

-- There is no allocation at the address of the static handle.
def freeHandle (h : Hid) : K Unit :=
  if h = nullfs then
    throw (.assert .kmallocSanity)
  else
    kfree State.handles (fun s h => { s with handles := h }) h

end Camellia
