import Camellia.Kernel.Life
import Camellia.Kernel.Mount

namespace Camellia

-- `SYSCALL_RETURN`
def sysReturn (p : Pid) (ret : Int) : K Unit := do
  kassert ((← getProc p).state = .running) .syscallReturn
  regsSavereturn p ret

-- The part of `_sys_fork` which creates a filesystem for the child. The result is false if there is
-- no place for its handle.
def sysForkNewfs (p child : Pid) : K Bool := do
  match ← procHandleInit p .fsFront with
  | none        => pure false
  | some (_, h) =>
    let b ← allocBackend { usehcnt := 1, provhcnt := 1, access := .user none }
    updHandle h ({ · with backend := some b })
    updProc child ({ · with controlled := some b })
    pure true

def sysForkFail (env : Env) (p child : Pid) : K Unit := do
  updProc child ({ · with noreap := true })
  procKill env child (-EMFILE)
  sysReturn p (-EMFILE)

def sysFork (env : Env) (p : Pid) (flags : Flags) : K Unit := do
  let child ← procFork p flags
  regsSavereturn child 0
  let ok ← if flags.has FORK_NEWFS then sysForkNewfs p child else pure true
  if ok then
    sysReturn p (← procNsId (← getProc p).pns child)
  else
    sysForkFail env p child

def sysOpen (env : Env) (p : Pid) (path : Option (List UInt8)) (flags : Flags) : K Unit := do
  match ← sysOpenRequest (← getProc p).mount path flags with
  | .inl ret           => sysReturn p ret
  | .inr (mount, path) =>
    let buf ← allocBuf path
    vfsreqCreate env (vfsreqFinishShort env) {
      type    := .OPEN
      input   := .kern buf
      caller  := some p
      backend := (← getMount mount).backend
      flags   := flags }

-- The path that `_sys_mount` mounts to, or `none` if it is refused.
def sysMountPath (path : Option (List UInt8)) : K (Option (List UInt8)) :=
  match path with
  | none      => pure none
  | some path => do
    if PATH_MAX < path.length then
      pure none
    else
      let path ← pathBufSimplify path
      if path = [] then
        pure none
      else
        pure (some (if path.getLast? = some slash then path.dropLast else path))

-- The handle that `_sys_mount` mounts, or `none` if it is refused.
def sysMountHandle (p : Pid) (hid : Int) : K (Option Handle) := do
  match ← procHandleGet p hid with
  | none   => pure none
  | some h =>
    let v ← getHandle h
    pure (if v.type = .fsFront then some v else none)

def sysMountUse : Option Bid → K Unit
  | none   => pure ()
  | some b => do
    let v ← getBackend b
    kassert (v.usehcnt ≠ 0) .sysMountBackend
    setBackend b { v with usehcnt := v.usehcnt + 1 }

-- The new mount is put in front of those of the process.
def sysMountAppend (p : Pid) (backend : Option Bid) (path : List UInt8) : K Unit := do
  sysMountUse backend
  let buf ← allocBuf path
  let m ← allocMount {
    prev    := (← getProc p).mount
    path    := path
    owned   := some buf
    backend := backend
    refs    := 1 }
  updProc p ({ · with mount := some m })
  sysReturn p 0

def sysMount (p : Pid) (hid : Int) (path : Option (List UInt8)) : K Unit := do
  match ← sysMountPath path with
  | none      => sysReturn p (-1)
  | some path =>
    match ← sysMountHandle p hid with
    | none   => sysReturn p (-1)
    | some v => sysMountAppend p v.backend path

def sysDup (env : Env) (p : Pid) (src dst : Int) (flags : Flags) : K Unit := do
  sysReturn p (← procHandleDup env p src dst flags)

-- The request of `simple_vfsop`. A buffer is the output of a read and the input of a write.
def simpleVfsopReq (op : VfsOp) (p : Pid) (h : Hid) (v : Handle) (buf len : ℕ) (offset : Int)
    (flags : Flags) : VfsReq where
  type      := op
  backend   := v.backend
  id        := v.fileId
  caller    := some p
  offset    := offset
  flags     := flags
  outputBuf := if op = .READ then buf else 0
  outputLen := if op = .READ then len else 0
  input     := if op = .WRITE then .user buf len else .user 0 0
  origin    := some h

def simpleVfsopHandle (env : Env) (op : VfsOp) (p : Pid) (h : Hid) (buf len : ℕ) (offset : Int)
    (flags : Flags) : K Unit := do
  let v ← getHandle h
  if op = .READ ∧ ¬v.readable then
    sysReturn p (-EACCES)
  else if op = .WRITE ∧ ¬v.writeable then
    sysReturn p (-EACCES)
  else if v.type = .file then
    vfsreqCreate env (vfsreqFinishShort env) (simpleVfsopReq op p h v buf len offset flags)
  else if v.type = .pipe ∧ (op = .READ ∨ op = .WRITE) then
    pipeJoinqueue env h p len
  else
    sysReturn p (-ENOSYS)

def simpleVfsop (env : Env) (op : VfsOp) (p : Pid) (hid : Int) (buf len : ℕ) (offset : Int)
    (flags : Flags) : K Unit := do
  match ← procHandleGet p hid with
  | none   => sysReturn p (-EBADF)
  | some h => simpleVfsopHandle env op p h buf len offset flags

def sysRead (env : Env) (p : Pid) (hid : Int) (buf len : ℕ) (offset : Int) : K Unit :=
  simpleVfsop env .READ p hid buf len offset 0

def sysWrite (env : Env) (p : Pid) (hid : Int) (buf len : ℕ) (offset : Int) (flags : Flags) :
    K Unit :=
  if flags.has (~~~WRITE_TRUNCATE) then
    sysReturn p (-ENOSYS)
  else
    simpleVfsop env .WRITE p hid buf len offset flags

def sysGetsize (env : Env) (p : Pid) (hid : Int) : K Unit :=
  simpleVfsop env .GETSIZE p hid 0 0 0 0

def sysRemoveFail (env : Env) (p : Pid) (hid ret : Int) : K Unit := do
  procHandleClose env p hid
  sysReturn p ret

def sysRemove (env : Env) (p : Pid) (hid : Int) : K Unit := do
  match ← procHandleGet p hid with
  | none   => sysReturn p (-EBADF)
  | some h =>
    let v ← getHandle h
    if v.type ≠ .file then
      sysRemoveFail env p hid (-ENOSYS)
    else if ¬v.writeable then
      sysRemoveFail env p hid (-EACCES)
    else
      vfsreqCreate env (vfsreqFinishShort env) {
        type    := .REMOVE
        id      := v.fileId
        caller  := some p
        backend := v.backend
        origin  := some h }
      procHandleClose env p hid

def sysClose (env : Env) (p : Pid) (hid : Int) : K Unit := do
  if (← procHandleGet p hid) = none then
    sysReturn p (-EBADF)
  else
    procHandleClose env p hid
    sysReturn p 0

-- The part of `_sys_fs_wait` which makes the process the handler of its filesystem.
def sysFsWaitHandler (p : Pid) (b : Bid) (maxLen : ℕ) : K Unit := do
  procSetstate p .waits4request
  let v ← getBackend b
  if v.access ≠ .user none then
    throw (.panic .sysFsWaitHandler)
  setBackend b { v with access := .user (some p) }
  updProc p ({ · with awaitedMaxLen := maxLen })

def sysFsWait (env : Env) (p : Pid) (maxLen : ℕ) : K Unit := do
  match (← getProc p).controlled with
  | none   => sysReturn p (-1)
  | some b =>
    if (← getBackend b).usehcnt = 0 then
      sysReturn p (-EPIPE)
    else
      sysFsWaitHandler p b maxLen
      vfsBackendTryaccept env (vfsreqFinishShort env) b

-- `capped_cast32`, whose argument is an `uint32_t`.
def cappedCast32 (n : ℕ) : Int :=
  min (n % 2 ^ 32) (2 ^ 31 - 1)

-- The part of `_sys_fs_respond` which copies what was read to the caller.
def sysFsRespondCopy (env : Env) (p : Pid) (req : VfsReq) (ret : Int) : K Int := do
  if 0 < ret ∧ req.type = .READ then
    let len := min ret (cappedCast32 req.outputLen)
    let n ← pcpyBi env req.caller (some p) len.toNat
    pure n
  else
    pure ret

def sysFsRespondReq (env : Env) (p : Pid) (r : Rid) (buf : ℕ) (ret : Int) (flags : Flags) :
    K Unit := do
  let ret ← sysFsRespondCopy env p (← getReq r) ret
  vfsreqFinish env FINISH_DEPTH r buf ret flags (some p)

-- The handle of a request which `_sys_fs_respond` is called with.
def sysFsRespondHandle (p : Pid) (hid : Int) : K (Option Hid) := do
  match ← procHandleGet p hid with
  | none   => pure none
  | some h => pure (if (← getHandle h).type = .fsReq then some h else none)

def sysFsRespondFinish (env : Env) (p : Pid) (buf : ℕ) (ret : Int) (flags : Flags) :
    Option Rid → K Unit
  | none   => pure ()
  | some r => sysFsRespondReq env p r buf ret flags

def sysFsRespond (env : Env) (p : Pid) (hid : Int) (buf : ℕ) (ret : Int) (flags : Flags) :
    K Unit := do
  match ← sysFsRespondHandle p hid with
  | none   => sysReturn p (-EBADF)
  | some h =>
    sysFsRespondFinish env p buf ret flags (← getHandle h).req
    updHandle h ({ · with req := none })
    procHandleClose env p hid
    sysReturn p 0

-- The part of `_sys_pipe` which connects the two ends.
def sysPipeConnect (rend wend : Hid) : K Unit := do
  updHandle wend ({ · with sister := some rend })
  updHandle rend ({ · with sister := some wend })
  updHandle wend ({ · with writeable := true })
  updHandle rend ({ · with readable := true })

-- The `hid_t` that `proc_handle_init` returns.
def hidOf (hid : Option (Fin HANDLE_MAX × Hid)) : Int :=
  hid.elim (-1) fun x => (x.1 : ℕ)

def sysPipe (env : Env) (p : Pid) (flags : Flags) : K Unit := do
  if flags ≠ 0 then
    sysReturn p (-ENOSYS)
  else
    let rend ← procHandleInit p .pipe
    let wend ← procHandleInit p .pipe
    match rend, wend with
    | some (_, rend), some (_, wend) =>
      sysPipeConnect rend wend
      sysReturn p 0
    | _, _                           =>
      procHandleClose env p (hidOf rend)
      procHandleClose env p (hidOf wend)
      sysReturn p (-EMFILE)

-- The loop of `_sys_wait2`. The result tells whether there are children to wait for.
def sysWait2Loop : ℕ → Option Pid → K Bool
  | _, none           => pure false
  | 0, some _         => throw .outOfFuel
  | fuel + 1, some it => do
    let v ← getProc it
    if v.noreap then
      sysWait2Loop fuel v.sibling
    else
      if v.state = .toreap then
        procTryreap it
      let _ ← sysWait2Loop fuel (← getProc it).sibling
      pure true

def sysWait2 (p : Pid) (pid : Int) (flags : Flags) (out : ℕ) : K Unit := do
  if flags ≠ 0 then
    sysReturn p (-ENOSYS)
  else
    procSetstate p .waits4childdeath
    updProc p ({ · with awaitedPid := pid.toNat, awaitedOut := out })
    if ¬(← sysWait2Loop ((← get).procs.size + 1) (← getProc p).child) then
      procSetstate p .running
      sysReturn p (-ECHILD)

-- `assert(proc->refcount)` fails if the counter, an `uint32_t`, overflows.
def procfsBackend (p : Pid) : K Bid := do
  let b ← allocBackend { usehcnt := 1, provhcnt := 1, access := .kern (some p) }
  let v ← getProc p
  kassert ((v.refcount + 1) % 2 ^ 32 ≠ 0) .procfsRefcount
  setProc p { v with refcount := (v.refcount + 1) % 2 ^ 32 }
  pure b

def sysGetprocfs (p : Pid) (flags : Flags) : K Unit := do
  if flags ≠ 0 then
    sysReturn p (-ENOSYS)
  else
    procNsCreate p
    match ← procHandleInit p .fsFront with
    | none          => sysReturn p (-EMFILE)
    | some (hid, h) =>
      let b ← procfsBackend p
      updHandle h ({ · with backend := some b })
      sysReturn p (hid : ℕ)

inductive Syscall
  | exit (ret : Int)
  | fork (flags : Flags)
  | open (path : Option (List UInt8)) (flags : Flags)
  | mount (hid : Int) (path : Option (List UInt8))
  | dup (src dst : Int) (flags : Flags)
  | read (hid : Int) (buf len : ℕ) (offset : Int)
  | write (hid : Int) (buf len : ℕ) (offset : Int) (flags : Flags)
  | getsize (hid : Int)
  | remove (hid : Int)
  | close (hid : Int)
  | fsWait (maxLen : ℕ)
  | fsRespond (hid : Int) (buf : ℕ) (ret : Int) (flags : Flags)
  | pipe (flags : Flags)
  | sleep (goal : ℕ)
  | wait2 (pid : Int) (flags : Flags) (out : ℕ)
  | getprocfs (flags : Flags)

def syscall (env : Env) (p : Pid) : Syscall → K Unit
  | .exit ret                     => procKill env p ret
  | .fork flags                   => sysFork env p flags
  | .open path flags              => sysOpen env p path flags
  | .mount hid path               => sysMount p hid path
  | .dup src dst flags            => sysDup env p src dst flags
  | .read hid buf len offset      => sysRead env p hid buf len offset
  | .write hid buf len offset fl  => sysWrite env p hid buf len offset fl
  | .getsize hid                  => sysGetsize env p hid
  | .remove hid                   => sysRemove env p hid
  | .close hid                    => sysClose env p hid
  | .fsWait maxLen                => sysFsWait env p maxLen
  | .fsRespond hid buf ret flags  => sysFsRespond env p hid buf ret flags
  | .pipe flags                   => sysPipe env p flags
  | .sleep goal                   => timerSchedule p goal
  | .wait2 pid flags out          => sysWait2 p pid flags out
  | .getprocfs flags              => sysGetprocfs p flags

end Camellia
