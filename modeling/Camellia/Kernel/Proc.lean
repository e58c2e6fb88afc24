import Camellia.Kernel.Rules

namespace Camellia

def procSetstateLoop (p : Pid) : ℕ → Option Pid → K Unit
  | _, none          => pure ()
  | 0, some _        => throw .outOfFuel
  | fuel + 1, some it => do
    kassert ((← getProc p).state ≠ .toreap) .procSetstate
    procSetstateLoop p fuel (← getProc it).sibling

def procSetstateToreap (p : Pid) (v : Proc) : K Unit := do
  kassert (v.state = .dying) .procSetstate
  match v.parent with
  | none        => pure ()
  | some parent => kassert ((← getProc parent).state.alive) .procSetstate
  procSetstateLoop p ((← get).procs.size + 1) v.child

def procSetstate (p : Pid) (state : PState) : K Unit := do
  let v ← getProc p
  kassert (v.state ≠ .freed) .procSetstate
  match state with
  | .freed     => kassert (v.state = .deadleaf) .procSetstate
  | .deadleaf  => kassert (v.state = .tombstone) .procSetstate
  | .tombstone => kassert (v.state = .toreap ∨ v.state = .dying) .procSetstate
  | .toreap    => procSetstateToreap p v
  | .running   => pure ()
  | .dying     => pure ()
  | _          => kassert (v.state = .running) .procSetstate
  updProc p ({ · with state := state })

def regsSavereturn (p : Pid) (ret : Int) : K Unit :=
  updProc p ({ · with rax := ret })

-- A namespace contains all the processes whose `pns` it is, and all their direct children.
def procNsContains (ns proc : Pid) : K Bool := do
  if ns = proc then
    pure true
  else
    match (← getProc proc).parent with
    | none        => pure false
    | some parent => pure ((← getProc parent).pns = ns)

def procNsId (ns proc : Pid) : K ℕ := do
  if proc = ns then
    pure 1
  else
    let v ← getProc proc
    if v.pns = proc then
      let parent ← nonNull v.parent
      kassert ((← getProc parent).pns = ns) .procNsIdOwner
    else
      kassert (v.pns = ns) .procNsIdMember
    pure v.localid

def procNsCreateLid (proc it : Pid) : K Unit := do
  let lid := ((← getProc it).localid + 1) % 2 ^ 32
  if (← getProc proc).nextlid < lid then
    updProc proc ({ · with nextlid := lid })

def procNsCreateMove (proc old it : Pid) : K Unit := do
  let pns := (← getProc it).pns
  if pns = old then
    updProc it ({ · with pns := proc })
  else
    kassert (pns = it) .procNsCreateOwner

-- The part of an iteration of `proc_ns_create` which moves a process to the new namespace.
def procNsCreateVisit (proc old it : Pid) : K Unit := do
  if it ≠ proc then
    procNsCreateLid proc it
    procNsCreateMove proc old it

-- The inner loop of `proc_ns_create`, and the step to the sibling after it. The loop may be left at
-- `proc` itself, and then the result is the sibling of `proc`.
def procNsCreateClimb (proc : Pid) : ℕ → Pid → K (Option Pid)
  | 0, _         => throw .outOfFuel
  | fuel + 1, it => do
    let v ← getProc it
    match v.sibling, v.parent with
    | some sibling, _   => pure (some sibling)
    | none, none        => throw (.assert .procNsCreateParent)
    | none, some parent =>
      if parent = proc then
        pure (← getProc parent).sibling
      else
        procNsCreateClimb proc fuel parent

def procNsCreateDescends (proc old : Pid) : Option Pid → K Bool
  | none       => pure false
  | some child => do
    if ← procNsContains proc child then
      pure true
    else
      procNsContains old child

-- The part of an iteration of `proc_ns_create` which picks the process to visit next.
def procNsCreateNext (proc old it : Pid) : K (Option Pid) := do
  let child := (← getProc it).child
  if ← procNsCreateDescends proc old child then
    pure child
  else if it = proc then
    pure none
  else
    procNsCreateClimb proc ((← get).procs.size + 1) it

def procNsCreateLoop (proc old : Pid) : ℕ → Option Pid → K Unit
  | _, none           => pure ()
  | 0, some _         => throw .outOfFuel
  | fuel + 1, some it => do
    procNsCreateVisit proc old it
    procNsCreateLoop proc old fuel (← procNsCreateNext proc old it)

def procNsCreateInit (proc : Pid) : K Unit := do
  updProc proc ({ · with pns := proc })
  updProc proc ({ · with nextlid := 2 })

def procNsCreate (proc : Pid) : K Unit := do
  let old := (← getProc proc).pns
  if old ≠ proc then
    procNsCreateInit proc
    procNsCreateLoop proc old ((← get).procs.size + 1) (some proc)

-- The inner loop of `proc_ns_next`, and the step to the sibling after it.
def procNsNextClimb (ns : Pid) : ℕ → Pid → K (Option Pid)
  | 0, _        => throw .outOfFuel
  | fuel + 1, p => do
    let v ← getProc p
    match v.sibling, v.parent with
    | some sibling, _   => pure (some sibling)
    | none, none        => throw (.assert .procNsNextParent)
    | none, some parent =>
      if parent = ns then
        pure none
      else
        procNsNextClimb ns fuel parent

def procNsNextDescends (ns : Pid) : Option Pid → K Bool
  | none       => pure false
  | some child => procNsContains ns child

-- The part of `proc_ns_next` which picks the process.
def procNsNextRet (ns p : Pid) : K (Option Pid) := do
  let child := (← getProc p).child
  if ← procNsNextDescends ns child then
    pure child
  else if p = ns then
    pure none
  else
    procNsNextClimb ns ((← get).procs.size + 1) p

def procNsNext (ns p : Pid) : K (Option Pid) := do
  match ← procNsNextRet ns p with
  | none     => pure none
  | some ret =>
    kassert (← procNsContains ns ret) .procNsNextContains
    pure (some ret)

def procNsByidLoop (ns : Pid) (id : ℕ) : ℕ → Option Pid → K (Option Pid)
  | _, none           => pure none
  | 0, some _         => throw .outOfFuel
  | fuel + 1, some it => do
    if (← procNsId ns it) = id then
      pure (some it)
    else
      procNsByidLoop ns id fuel (← procNsNext ns it)

def procNsByid (ns : Pid) (id : ℕ) : K (Option Pid) := do
  kassert ((← getProc ns).pns = ns) .procNsByid
  procNsByidLoop ns id ((← get).procs.size + 1) (some ns)

-- The inner loop of `proc_next`, and the step to the sibling after it.
def procNextClimb (root : Option Pid) : ℕ → Pid → K (Option Pid)
  | 0, _        => throw .outOfFuel
  | fuel + 1, p => do
    let v ← getProc p
    match v.sibling, v.parent with
    | some sibling, _   => pure (some sibling)
    | none, none        =>
      kassert (root = none) .procNext
      pure none
    | none, some parent =>
      if root = some parent then
        pure none
      else
        procNextClimb root fuel parent

def procNext (root : Option Pid) (p : Pid) : K (Option Pid) := do
  let v ← getProc p
  match v.child, v.sibling with
  | some child, _      => pure (some child)
  | none, some sibling => pure (some sibling)
  | none, none         => procNextClimb root ((← get).procs.size + 1) p

end Camellia
