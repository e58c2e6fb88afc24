import Camellia.Kernel.Request
import Camellia.Libk.Fsutil
import Camellia.Libk.Path
import Camellia.Libk.Printf

namespace Camellia

inductive PhandleType
  | root
  | dir
  | intr
  | intrDown
  | mem
  deriving DecidableEq, Repr

structure Phandle where
  gid  : ℕ
  type : PhandleType
  deriving DecidableEq

def isdigit (c : UInt8) : Prop :=
  48 ≤ c.toNat ∧ c.toNat ≤ 57

instance : DecidablePred isdigit :=
  fun _ => inferInstanceAs <| Decidable (_ ∧ _)

-- The loop of `openpath` over the digits, and the step over the slash behind them. The number is an
-- `uint32_t`.
def openpathLid (lid : ℕ) : List UInt8 → Option (ℕ × List UInt8)
  | []        => none
  | c :: path =>
    if c = slash then
      some (lid, path)
    else if isdigit c then
      openpathLid ((lid * 10 + (c.toNat - 48)) % 2 ^ 32) path
    else
      none

-- "intr", "intrdown" and "mem".
def nameIntr : List UInt8 := [105, 110, 116, 114]
def nameIntrDown : List UInt8 := [105, 110, 116, 114, 100, 111, 119, 110]
def nameMem : List UInt8 := [109, 101, 109]

def openpathType (name : List UInt8) : Option PhandleType :=
  if name = [] then
    some .dir
  else if name = nameIntr then
    some .intr
  else if name = nameIntrDown then
    some .intrDown
  else if name = nameMem then
    some .mem
  else
    none

def openpath (path : List UInt8) (root : Pid) : K (Option Phandle) :=
  match path with
  | []             => pure none
  | [_]            => pure (some ⟨0, .root⟩)
  | _ :: c :: path => do
    if ¬isdigit c then
      pure none
    else match openpathLid 0 (c :: path) with
    | none             => pure none
    | some (lid, name) =>
      match openpathType name with
      | none      => pure none
      | some type =>
        match ← procNsByid root lid with
        | none   => pure none
        | some p => pure (some ⟨(← getProc p).globalid, type⟩)

def findgidLoop (gid : ℕ) (root : Pid) : ℕ → Option Pid → K (Option Pid)
  | _, none          => pure none
  | 0, some _        => throw .outOfFuel
  | fuel + 1, some p => do
    if (← getProc p).globalid = gid then
      pure (some p)
    else
      findgidLoop gid root fuel (← procNext (some root) p)

def findgid (gid : ℕ) (root : Pid) : K (Option Pid) := do
  findgidLoop gid root ((← get).procs.size + 1) (some root)

-- What `procfs_accept` does with a request to read a directory.
structure Readdir where
  -- The memory from `buf` on, which has 512 bytes.
  buf      : Mem
  -- The results that `vfsreq_finish_short` was called with.
  finished : List Int := []
  -- The bytes that `pcpy_to` was called with.
  copied   : List UInt8 := []

def EGENERIC : Int := 1

def DIR_MAX : ℕ := 512

-- `pos += snprintf(buf + pos, 512 - pos, text)+1`
def Readdir.print (d : Readdir) (pos : ℕ) (text : List UInt8) : ℕ × Readdir :=
  let (n, buf) := snprintf d.buf pos (DIR_MAX - pos) text
  (pos + n + 1, { d with buf := buf })

def Readdir.finish (d : Readdir) (ret : Int) : Readdir :=
  { d with finished := d.finished ++ [ret] }

-- The loop over the processes of the namespace.
def procfsListLoop (root : Pid) : ℕ → Option Pid → (pos : ℕ) → Readdir → K (ℕ × Readdir)
  | _, none, pos, d           => pure (pos, d)
  | 0, some _, _, _           => throw .outOfFuel
  | fuel + 1, some it, pos, d => do
    kassert (pos < DIR_MAX) .procfsDir
    let (pos, d) := d.print pos (printfInt (← procNsId root it) ++ [slash])
    let d := if DIR_MAX ≤ pos then d.finish (-EGENERIC) else d
    procfsListLoop root fuel (← procNsNext root it) pos d

-- `req_readcopy`
def reqReadcopy (req : VfsReq) (d : Readdir) (len : ℕ) : K (Int × Readdir) :=
  match req.caller with
  | none   => pure (-1, d)
  | some _ =>
    match fsNormslice req.offset req.outputLen len false with
    | .error e             => throw e
    | .ok (offset, length) => pure (length, { d with copied := d.buf.slice offset length })

-- The part of `procfs_accept` for a `VFSOP_READ` of a directory, where `type` is the one of the
-- handle. The contents of `buf` are not initialized.
def procfsReaddir (root : Pid) (type : PhandleType) (req : VfsReq) (buf : Mem) : K Readdir := do
  kassert ((← getProc root).pns = root) .procfsRoot
  let (pos, d) ←
    if type = .dir then
      let (pos, d) := Readdir.print ⟨buf, [], []⟩ 0 nameIntr
      pure (d.print pos nameMem)
    else
      procfsListLoop root ((← get).procs.size + 1) (some root) 0 ⟨buf, [], []⟩
  kassert (pos ≤ DIR_MAX) .procfsDir
  let (ret, d) ← reqReadcopy req d pos
  pure (d.finish ret)

end Camellia
