import Camellia.Kernel.Proc

namespace Camellia

-- What happens outside of the kernel's own data during one entry into the kernel.
structure Env where
  -- What a driver of the kernel does with a request: it finishes the request with a result, or it
  -- keeps the request to finish it later.
  drv : Rid → VfsReq → Option Int
  -- Whether a `struct ufs_request` could be written to where the process wants to have it.
  resWritten : Pid → Bool
  -- How many bytes a copy between two processes transfers, before it reaches its length.
  copied : ℕ → ℕ
  -- How many bytes can be written to the buffer of a process which handles requests, before the first
  -- page which is not mapped.
  mapped : Pid → ℕ

-- The conversion of a `long` to an `int`.
def toInt32 (n : Int) : Int :=
  n.bmod (2 ^ 32)

-- The conversion of a number to a pointer or to `size_t`.
def toPtr (n : Int) : ℕ :=
  (n % 2 ^ 64).toNat

def pcpyBi (env : Env) (dstp srcp : Option Pid) (len : ℕ) : K ℕ :=
  match dstp, srcp with
  | some dstp, some srcp => do
    if (← getProc dstp).pages = none then
      pure 0
    else if (← getProc srcp).pages = none then
      pure 0
    else
      pure (min (env.copied len) len)
  | _, _                 => throw (.assert .pcpyBiProcs)

section Backend

-- `be->kern.cleanup`, where the counter is an `uint32_t`.
def procfsCleanup (p : Pid) : K Unit :=
  updProc p fun v => { v with refcount := (v.refcount + (2 ^ 32 - 1)) % 2 ^ 32 }

-- The part of `vfs_backend_refdown` for the last use of a backend.
def vfsBackendUnused (b : Bid) : K Unit := do
  let v ← getBackend b
  match v.access with
  | .kern none     => pure ()
  | .kern (some p) => procfsCleanup p
  | .user none     => pure ()
  | .user (some p) =>
    setBackend b { v with access := .user none }
    kassert ((← getProc p).state = .waits4request) .refdownHandler
    regsSavereturn p (-EPIPE)
    procSetstate p .running

-- The end of `vfs_backend_refdown`.
def vfsBackendTryfree (b : Bid) : K Unit := do
  let v ← getBackend b
  if v.usehcnt = 0 ∧ v.provhcnt = 0 then
    kassert (v.queue = []) .refdownQueue
    freeBackend b

-- `vfs_backend_refdown(b, true)`
def vfsBackendRefdownUse (b : Bid) : K Unit := do
  let v ← getBackend b
  kassert (0 < v.usehcnt) .refdownCount
  setBackend b { v with usehcnt := v.usehcnt - 1 }
  if v.usehcnt - 1 = 0 then
    vfsBackendUnused b
  vfsBackendTryfree b

def vfsreqFreeInput : VfsInput → K Unit
  | .kern buf  => freeBuf buf
  | .user _ _  => pure ()

def vfsreqRefdown : Option Bid → K Unit
  | some b => vfsBackendRefdownUse b
  | none   => pure ()

-- The end of `vfsreq_finish`.
def vfsreqReturn (r : Rid) (ret : Int) : Option Pid → K Unit
  | some p => do
    kassert ((← getProc p).state = .waits4fs) .vfsreqFinishState
    regsSavereturn p ret
    procSetstate p .running
  | none   => freeReq r

-- The part of `vfsreq_finish` after the one for open requests. With a negative `ret` it is all that
-- `vfsreq_finish` does.
def vfsreqRelease (r : Rid) (ret : Int) : K Unit := do
  let req ← getReq r
  kassert (req.type = .READ ∧ 0 ≤ ret → ret ≤ req.outputLen) .vfsreqFinishLength
  setReq r { req with pending := false }
  emit (.finished r)
  vfsreqFreeInput req.input
  vfsreqRefdown req.backend
  vfsreqReturn r ret req.caller

-- The loop of `vfs_backend_refdown` over the requests which no provider will accept anymore.
def vfsBackendOrphan (b : Bid) (queue : List Rid) : K Unit := do
  queue.forM fun r => vfsreqRelease r (-1)
  updBackend b ({ · with queue := [] })

-- `vfs_backend_refdown(b, false)`
def vfsBackendRefdownProv (b : Bid) : K Unit := do
  let v ← getBackend b
  kassert (0 < v.provhcnt) .refdownCount
  setBackend b { v with provhcnt := v.provhcnt - 1 }
  if v.provhcnt - 1 = 0 then
    vfsBackendOrphan b v.queue
  vfsBackendTryfree b

end Backend

section Handle

def procTable (p : Pid) : K Tid := do
  nonNull (← getProc p).handles

-- The first empty slot from `startAt` on.
def procFindFreeHandle (table : Table) (startAt : Int) : Option (Fin HANDLE_MAX) :=
  (List.finRange HANDLE_MAX).find? fun i => startAt ≤ (i : ℕ) ∧ table i = none

-- The slot for a `hid_t`.
def slotOf (hid : Int) : Option (Fin HANDLE_MAX) :=
  (List.finRange HANDLE_MAX).find? fun i => ((i : ℕ) : Int) = hid

def procHandleGet (p : Pid) (hid : Int) : K (Option Hid) := do
  if hid = HANDLE_NULLFS then
    pure (some nullfs)
  else match slotOf hid with
  | some i => pure ((← getTable (← procTable p)) i)
  | none   => pure none

def handleInit (type : HandleType) : K Hid :=
  allocHandle { type := type }

def procHandleInit (p : Pid) (type : HandleType) : K (Option (Fin HANDLE_MAX × Hid)) := do
  let t ← procTable p
  match procFindFreeHandle (← getTable t) 1 with
  | none   => pure none
  | some i =>
    let h ← handleInit type
    setSlot t i (some h)
    pure (some (i, h))

def procHidTake (p : Pid) (hid : Int) : K (Option Hid) := do
  match slotOf hid with
  | none   => procHandleGet p hid
  | some i =>
    let t ← procTable p
    let h := (← getTable t) i
    setSlot t i none
    pure h

end Handle

section Pipe

def pipeWake (p : Pid) (ret : Int) : K Unit := do
  kassert ((← getProc p).state = .waits4pipe) .pipeQueue
  procSetstate p .running
  regsSavereturn p ret

def pipeInvalidateEnd (h : Hid) : K Unit := do
  (← getHandle h).queued.forM (pipeWake · (-1))
  updHandle h ({ · with queued := [] })

-- The reader's end and the writer's end of a pipe, given one of its ends.
def pipeEnds (v w : Handle) : Handle × Handle :=
  if v.readable then (v, w) else (w, v)

def pipeTransfer (env : Env) (h sister : Hid) (rdr wtr : Pid) : K Unit := do
  let v ← getProc rdr
  let w ← getProc wtr
  kassert (v.state = .waits4pipe) .pipeQueue
  kassert (w.state = .waits4pipe) .pipeQueue
  -- The length is an `int`.
  let len := toInt32 (min v.waitsLen w.waitsLen : ℕ)
  let len := toInt32 (← pcpyBi env (some rdr) (some wtr) (toPtr len))
  updHandle h fun v => { v with queued := v.queued.tail }
  updHandle sister fun v => { v with queued := v.queued.tail }
  procSetstate rdr .running
  procSetstate wtr .running
  regsSavereturn rdr len
  regsSavereturn wtr len

def pipeTrytransfer (env : Env) (h : Hid) : K Unit := do
  let v ← getHandle h
  kassert (v.type = .pipe) .pipeEnd
  kassert (v.readable ≠ v.writeable) .pipeEnd
  match v.sister with
  | none        => kassert (v.queued = []) .pipeQueue
  | some sister =>
    let w ← getHandle sister
    let (rend, wend) := pipeEnds v w
    match rend.queued, wend.queued with
    | rdr :: _, wtr :: _ => pipeTransfer env h sister rdr wtr
    | _, _               => pure ()

-- The loops over a queue assert that every process in it waits for the pipe.
def pipeCheckQueue (queued : List Pid) : K Unit :=
  queued.forM fun p => do kassert ((← getProc p).state = .waits4pipe) .pipeQueue

def pipeJoinqueue (env : Env) (h : Hid) (p : Pid) (len : ℕ) : K Unit := do
  let v ← getHandle h
  kassert (v.type = .pipe) .pipeEnd
  kassert (v.readable ≠ v.writeable) .pipeEnd
  match v.sister with
  | none   => regsSavereturn p (if v.readable then 0 else -EPIPE)
  | some _ =>
    pipeCheckQueue v.queued
    procSetstate p .waits4pipe
    setHandle h { v with queued := v.queued ++ [p] }
    let since := (← get).log.length
    updProc p ({ · with waitsPipe := h, waitsLen := len, waitsSince := since })
    emit (.joined p h)
    pipeTrytransfer env h

end Pipe

section Accept

-- `pcpy_to` stops at the first page that is not mapped, and a process without pages has none.
def pcpyRoom (env : Env) (p : Pid) : K ℕ := do
  pure (if (← getProc p).pages = none then 0 else env.mapped p)

def pcpyTo (env : Env) (p : Pid) (src : List UInt8) (len : ℕ) : K (List UInt8) := do
  pure (src.take (min len (← pcpyRoom env p)))

-- The request's input goes to the handler, either from the kernel or from the caller. In both cases it
-- is cut off if it is longer than what the handler asked for.
def userAcceptInput (env : Env) (req : VfsReq) (handler : Pid) : K Unit :=
  match req.input with
  | .kern buf     => do
    let input ← getBuf buf
    let maxLen := (← getProc handler).awaitedMaxLen
    let bytes ← pcpyTo env handler input (min input.length maxLen)
    emit (.given handler (min maxLen (← pcpyRoom env handler)) bytes)
  | .user buf len => do
    if buf ≠ 0 then
      let maxLen := (← getProc handler).awaitedMaxLen
      discard <| pcpyBi env (some handler) req.caller (min len maxLen)

-- The part of `vfs_backend_user_accept` which gives the request to the handler.
def userAcceptHandle (b : Bid) (r : Rid) (handler : Pid) : K Unit := do
  match ← procHandleInit handler .fsReq with
  | none          => throw (.panic .userAcceptSlot)
  | some (hid, h) =>
    updHandle h ({ · with req := some r })
    procSetstate handler .running
    regsSavereturn handler (hid : ℕ)
    updBackend b ({ · with access := .user none })

def vfsBackendUserAccept (env : Env) (r : Rid) : K Unit := do
  let req ← getReq r
  match req.backend with
  | none   => throw (.assert .userAcceptHandler)
  | some b =>
    match (← getBackend b).access with
    | .user (some handler) =>
      kassert ((← getProc handler).state = .waits4request) .userAcceptState
      userAcceptInput env req handler
      if ¬env.resWritten handler then
        throw (.panic .userAcceptResult)
      userAcceptHandle b r handler
    | _                    => throw (.assert .userAcceptHandler)

-- `backend->kern.accept(req)`
def kernAccept (env : Env) (finish : Rid → Int → K Unit) (r : Rid) : K Unit := do
  match env.drv r (← getReq r) with
  | some ret => finish r ret
  | none     => modify fun s => { s with held := s.held ++ [r] }

-- The functions from here on take `vfsreq_finish_short` as an argument, since it is what they are
-- called by.
def vfsBackendTryaccept (env : Env) (finish : Rid → Int → K Unit) (b : Bid) : K Unit := do
  let v ← getBackend b
  match v.queue, v.access with
  | [], _                     => pure ()
  | _ :: _, .user none        => pure ()
  | r :: queue, .user (some _) =>
    setBackend b { v with queue := queue }
    emit (.accepted b r (← getReq r).message)
    vfsBackendUserAccept env r
  | r :: queue, .kern _       =>
    setBackend b { v with queue := queue }
    emit (.accepted b r (← getReq r).message)
    kernAccept env finish r

-- The part of `vfsreq_create` which stores the request, in the slot of its caller if there is one.
def vfsreqStore (req : VfsReq) : K Rid :=
  match req.caller with
  | none   => allocReq req
  | some p => do
    procSetstate p .waits4fs
    match (← getProc p).reqslot with
    | none   =>
      let r ← allocReq req
      updProc p ({ · with reqslot := some r })
      pure r
    | some r =>
      -- `(re)using a single allocation for all request a process makes`
      discard <| getReq r
      setReq r req
      pure r

def vfsreqUse : Option Bid → K Unit
  | none   => pure ()
  | some b => do
    let v ← getBackend b
    kassert (v.usehcnt ≠ 0) .vfsreqCreateBackend
    setBackend b { v with usehcnt := v.usehcnt + 1 }

-- The part of `vfsreq_create` which passes the request on.
def vfsreqEnqueue (env : Env) (finish : Rid → Int → K Unit) (r : Rid) : Option Bid → K Unit
  | none   => finish r (-1)
  | some b => do
    let v ← getBackend b
    if v.provhcnt ≠ 0 then
      setBackend b { v with queue := v.queue ++ [r] }
      emit (.enqueued b r (← getReq r).message)
      vfsBackendTryaccept env finish b
    else
      finish r (-1)

def vfsreqCreate (env : Env) (finish : Rid → Int → K Unit) (req : VfsReq) : K Unit := do
  let r ← vfsreqStore req
  emit (.created r req.message)
  vfsreqUse req.backend
  if req.type = .OPEN ∧ openInvalid req.flags then
    finish r (-EINVAL)
  else
    vfsreqEnqueue env finish r req.backend

end Accept

section Close

-- The part of `handle_close` which depends on the type of the handle.
def handleCloseType (env : Env) (finish : Rid → Int → K Unit) (h : Hid) (v : Handle) : K Unit :=
  match v.type with
  | .file  =>
    vfsreqCreate env finish {
      type    := .CLOSE
      id      := v.fileId
      backend := v.backend
      origin  := some h }
  | .pipe  => do
    kassert (v.queued = []) .handleCloseQueued
    match v.sister with
    | none        => pure ()
    | some sister =>
      pipeInvalidateEnd sister
      updHandle sister ({ · with sister := none })
  | .fsReq =>
    match v.req with
    | none   => pure ()
    | some r => finish r (-1)
  | _      => pure ()

def handleClose (env : Env) (finish : Rid → Int → K Unit) (h : Hid) : K Unit := do
  let v ← getHandle h
  kassert (0 < v.refcount) .handleCloseRefcount
  setHandle h { v with refcount := v.refcount - 1 }
  if v.refcount - 1 = 0 then
    handleCloseType env finish h v
    vfsreqRefdown v.backend
    freeHandle h

def procHandlePut (env : Env) (finish : Rid → Int → K Unit) (p : Pid) (h : Hid) : K Int := do
  let t ← procTable p
  match procFindFreeHandle (← getTable t) 1 with
  | none   =>
    handleClose env finish h
    pure (-1)
  | some i =>
    setSlot t i (some h)
    pure (i : ℕ)

end Close

section Finish

-- The part of `vfsreq_finish` which creates a handle for a file.
def vfsreqFinishFile (req : VfsReq) (stored : ℕ) : K Hid := do
  let b ← nonNull req.backend
  let h ← allocHandle {
    type      := .file
    backend   := some b
    fileId    := stored
    readable  := openReadable req.flags
    writeable := openWriteable req.flags }
  updBackend b fun v => { v with usehcnt := v.usehcnt + 1 }
  emit (.opened h b stored)
  pure h

def vfsreqFinishHandle (req : VfsReq) (stored : ℕ) (ret : Int) (flags : Flags)
    (handler : Option Pid) : K (Option Hid) :=
  if ¬flags.has FSR_DELEGATE then do
    pure (some (← vfsreqFinishFile req stored))
  else
    match handler with
    | none         => throw (.assert .vfsreqFinishHandler)
    | some handler => procHidTake handler (toInt32 ret)

-- The part of `vfsreq_finish` which gives a handle to the caller.
def vfsreqFinishPut (env : Env) (finish : Rid → Int → K Unit) (caller : Option Pid) :
    Option Hid → K Int
  | none   => pure (-1)
  | some h =>
    match caller with
    | none   => throw (.panic .vfsreqFinishCaller)
    | some p => do
      let ret ← procHandlePut env finish p h
      pure (if ret < 0 then -EMFILE else ret)

-- The part of `vfsreq_finish` for open requests which did not fail.
def vfsreqFinishOpen (env : Env) (finish : Rid → Int → K Unit) (r : Rid) (stored : ℕ) (ret : Int)
    (flags : Flags) (handler : Option Pid) : K Int := do
  let req ← getReq r
  let h ← vfsreqFinishHandle req stored ret flags handler
  vfsreqFinishPut env finish req.caller h

-- The handle of an opened file may have to be closed right away, and this may finish other requests.
-- The `depth` bounds how often this happens.
def vfsreqFinish (env : Env) : (depth : ℕ) → (r : Rid) → (stored : ℕ) → (ret : Int) →
    (flags : Flags) → (handler : Option Pid) → K Unit
  | 0, _, _, _, _, _                          => throw .outOfFuel
  | depth + 1, r, stored, ret, flags, handler => do
    let finish r ret := vfsreqFinish env depth r (toPtr ret) ret 0 none
    if (← getReq r).type = .OPEN ∧ 0 ≤ ret then
      let ret ← vfsreqFinishOpen env finish r stored ret flags handler
      vfsreqRelease r ret
    else
      vfsreqRelease r ret

-- A request which is finished while a handle is closed is not an open request which succeeds, so
-- this is as deep as it gets.
def FINISH_DEPTH : ℕ := 2

def vfsreqFinishShort (env : Env) (r : Rid) (ret : Int) : K Unit :=
  vfsreqFinish env FINISH_DEPTH r (toPtr ret) ret 0 none

end Finish

end Camellia
