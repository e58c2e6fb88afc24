import Mathlib.Tactic.Common

namespace Camellia

-- The assertions and panics of the modelled functions, each named after the function it stands in
-- and after what it checks.
inductive Site
  | pathSimplifySlash | pathSimplifyLength
  -- kernel/malloc.c
  | kmallocSanity | kmallocFill | bitmapRange | pageAlloc | pageFreeRange | pageFreeState
  -- kernel/arch/amd64/pagedir.c
  | getEntryLarge | pagedirCopyLarge | pagedirFreeLarge
  | addrValidate | addrCanonize | pagedirUnmapLarge | pagedirMapLarge | pagedirMapPresent
  -- kernel/pcpy.c
  | pcpyBiProcs | virtCpyTotal
  -- kernel/proc.c
  | procForkRunning | procForkPid | procForkLid | procForkProvider | procForkMount
  | procNsIdOwner | procNsIdMember | procNsByid | procNsNextParent | procNsNextContains
  | procNsCreateOwner | procNsCreateParent | procNext
  | unrefCount | procKillProvider | procKillHandler | procKillReqslot | procKillQueue
  | procKillUnlinked | procKillInit
  | procTryreapDead | procTryreapChild | procTryreapTombstone | procTryreapToreap
  | procTryreapLeaf | procTryreapRefcount | procTryreapDeadleaf
  | procPruneLeaves | procSetstate | procHandlePut
  -- kernel/arch/amd64/time.c
  | timerSchedule | timerDeschedule
  -- kernel/arch/amd64/driver/util.c
  | postqueueJoin | postqueueRingreadall
  -- kernel/arch/amd64/driver/rtl8139.c
  | tryRx | tryTx | rtl8139Accept
  -- kernel/arch/amd64/ata.c
  | ataRead | ataWrite | pataGetsize
  -- kernel/handle.c
  | handleCloseRefcount | handleCloseQueued
  -- kernel/pipe.c
  | pipeEnd | pipeQueue
  -- kernel/vfs
  | vfsMountRemref
  | vfsreqCreateBackend | vfsreqFinishHandler | vfsreqFinishCaller | vfsreqFinishLength
  | vfsreqFinishState
  | userAcceptHandler | userAcceptState | userAcceptResult | userAcceptSlot
  | refdownCount | refdownHandler | refdownQueue
  | procfsRefcount | procfsOpenpath | procfsRoot | procfsInput | procfsHandle | procfsDir
  -- kernel/syscalls.c
  | syscallReturn | sysMountBackend | sysFsWaitHandler
  -- libk/fsutil.c
  | fsNormsliceMax | fsNormsliceOffset | fsNormsliceEnd
  deriving DecidableEq, Repr

-- The kinds of objects the kernel and its drivers allocate.
inductive Obj
  | proc | handle | table | count | pagedir | backend | mount | req | buf | node
  deriving DecidableEq, Repr

-- Why an execution stops. The last four are not checks of the source: a use of a
-- freed object and a use of a NULL pointer are what the checks are meant to exclude, `outOfFuel`
-- bounds the loops of the model, and `shutdown` is the regular end.
inductive Fault
  | assert (site : Site)
  | panic (site : Site)
  | useAfterFree (obj : Obj)
  | nullPointer
  | outOfFuel
  | shutdown
  deriving DecidableEq, Repr

namespace Fault

-- The execution was stopped by a check of the source, or ended regularly.
def Checked : Fault → Prop
  | assert _ | panic _ | shutdown         => True
  | useAfterFree _ | nullPointer | outOfFuel => False

instance : DecidablePred Checked
  | assert _ | panic _ | shutdown         => isTrue trivial
  | useAfterFree _ | nullPointer | outOfFuel => isFalse id

end Fault
end Camellia
