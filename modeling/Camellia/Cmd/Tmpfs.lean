import Camellia.Fault
import Camellia.Flags
import Camellia.Kernel.State

namespace Camellia.Tmpfs

def ENOENT : Int := 8
def ENOTEMPTY : Int := 9

def slash : UInt8 := 47

-- The address of a node.
abbrev Nid := ℕ

-- The field of a node which `ref` points to.
inductive Link
  | child (parent : Nid)
  | sibling (prev : Nid)
  deriving DecidableEq

structure Node where
  name : List UInt8 := []
  directory : Bool := false
  -- The `capacity` is the length of the buffer.
  buf : List UInt8 := []
  size : ℕ := 0
  -- How many handles are open. A handle takes memory, so there are never enough for an overflow, but
  -- for the root, which is opened without being counted, the number is negative.
  opens : ℤ := 0
  sibling : Option Nid := none
  child : Option Nid := none
  ref : Option Link := none
  deriving DecidableEq

-- The static root is the first node of the heap.
def nodeRoot : Nid := 0

def init : Heap Node :=
  .alloc .empty { directory := true }

abbrev T := StateT (Heap Node) (Except Fault)

-- What the allocator does: whether there is memory for the name of a new file, and what the bytes are
-- which `realloc` adds to a buffer.
structure Alloc where
  name : Bool
  junk : ℕ → UInt8

def getNode (n : Nid) : T Node := do
  match (← get).get n with
  | some v => pure v
  | none   => throw (.useAfterFree .node)

def updNode (n : Nid) (f : Node → Node) : T Unit := do
  let v ← getNode n
  modify (·.set n (f v))

def tassert (c : Prop) [Decidable c] (site : Site) : T Unit :=
  if c then pure () else throw (.assert site)

def nodeGetchildLoop (name : List UInt8) : ℕ → Option Nid → T (Option Nid)
  | _, none             => pure none
  | 0, some _           => throw .outOfFuel
  | fuel + 1, some iter => do
    let v ← getNode iter
    if v.name = name then
      pure (some iter)
    else
      nodeGetchildLoop name fuel v.sibling

def nodeGetchild (parent : Nid) (name : List UInt8) : T (Option Nid) := do
  nodeGetchildLoop name (← get).size (← getNode parent).child

-- The first segment of a path, which includes its slash, whether there is a slash, and what follows.
def segment : List UInt8 → List UInt8 × Bool × List UInt8
  | []        => ([], false, [])
  | c :: path =>
    if c = slash then
      ([c], true, path)
    else
      let (seg, more) := segment path
      (c :: seg, more)

-- The part of `tmpfs_open` which creates a node.
def nodeCreate (parent : Nid) (name : List UInt8) (directory : Bool) : T Nid := do
  let first := (← getNode parent).child
  let node := (← get).size
  modify (·.alloc { name := name, directory := directory, sibling := first, ref := some (.child parent) })
  match first with
  | none       => pure ()
  | some first => updNode first ({ · with ref := some (.sibling node) })
  updNode parent ({ · with child := some node })
  pure node

def nodeOpen (node : Nid) : T (Option Nid) := do
  updNode node fun v => { v with opens := v.opens + 1 }
  pure (some node)

-- The loop of `tmpfs_open`, which runs once for each segment.
def tmpfsOpenLoop (alloc : Alloc) (flags : Flags) : ℕ → Nid → List UInt8 → T (Option Nid)
  | 0, _, _               => throw .outOfFuel
  | fuel + 1, parent, path => do
    let (seg, directory, rest) := segment path
    match ← nodeGetchild parent seg with
    | some node =>
      if rest ≠ [] then
        tmpfsOpenLoop alloc flags fuel node rest
      else
        nodeOpen node
    | none      =>
      if rest = [] ∧ flags.has OPEN_CREATE ∧ alloc.name then
        nodeOpen (← nodeCreate parent seg directory)
      else
        pure none

def tmpfsOpen (alloc : Alloc) (path : List UInt8) (flags : Flags) : T (Option Nid) :=
  match path with
  | []        => pure none
  | [_]       => pure (some nodeRoot)
  | _ :: path => tmpfsOpenLoop alloc flags path.length nodeRoot path

def nodeClose (node : Nid) : T Unit := do
  updNode node fun v => { v with opens := v.opens - 1 }
  let v ← getNode node
  if v.ref = none ∧ node ≠ nodeRoot ∧ v.opens = 0 then
    modify (·.free node)

-- `*link = node`
def setLink (link : Link) (node : Option Nid) : T Unit :=
  match link with
  | .child parent => updNode parent ({ · with child := node })
  | .sibling prev => updNode prev ({ · with sibling := node })

def nodeRemove (node : Nid) : T Int := do
  if node = nodeRoot then
    pure (-1)
  else
    let v ← getNode node
    match v.ref with
    | none     => pure (-1)
    | some ref =>
      if v.child ≠ none then
        pure (-ENOTEMPTY)
      else
        setLink ref v.sibling
        updNode node ({ · with ref := none })
        nodeClose node
        pure 0

def fsNormslice (offset : Int) (length max : ℕ) (expand : Bool) : T (ℕ × ℕ) := do
  tassert (max < 2 ^ 63) .fsNormsliceMax
  -- Negative offsets are relative to EOF + 1.
  let offset := if offset < 0 then offset + max + 1 else offset
  let (offset, length) :=
    if offset < 0 then
      ((max : Int), 0)
    else if expand then
      (offset, length)
    else if offset ≤ max then
      (offset, min length (max - offset.toNat))
    else
      ((max : Int), 0)
  tassert (0 ≤ offset) .fsNormsliceOffset
  tassert (!expand → offset + length ≤ max) .fsNormsliceEnd
  pure (offset.toNat, length)

structure UfsRequest where
  op : VfsOp
  id : Nid
  -- The path of an open request, or what is written.
  buf : List UInt8
  -- How much is read.
  len : ℕ
  offset : Int
  flags : Flags

inductive Reply
  | ret (ret : Int)
  | opened (id : Option Nid)
  | bytes (buf : List UInt8)
  -- The names in a directory, which `dir_finish` puts into a buffer.
  | listing (names : List (List UInt8))
  deriving DecidableEq

def realloc (junk : ℕ → UInt8) (buf : List UInt8) (n : ℕ) : List UInt8 :=
  buf.take n ++ (List.range' buf.length (n - buf.length)).map junk

-- `memcpy(dst + offset, src, n)`, where `src` has `n` bytes.
def memcpyAt (dst : List UInt8) (offset : ℕ) (src : List UInt8) : List UInt8 :=
  dst.take offset ++ src ++ dst.drop (offset + src.length)

-- The loops over the entries of a directory.
def dirNames : ℕ → Option Nid → T (List (List UInt8))
  | _, none             => pure []
  | 0, some _           => throw .outOfFuel
  | fuel + 1, some iter => do
    let v ← getNode iter
    pure (v.name :: (← dirNames fuel v.sibling))

def nodeList (v : Node) : T Reply := do
  pure (.listing (← dirNames (← get).size v.child))

def nodeRead (req : UfsRequest) : T Reply := do
  let v ← getNode req.id
  if v.directory then
    nodeList v
  else
    let (offset, len) ← fsNormslice req.offset req.len v.size false
    pure (.bytes ((v.buf.drop offset).take len))

-- What becomes of a file when `src` is written to it.
def Node.write (junk : ℕ → UInt8) (flags : Flags) (offset : ℕ) (src : List UInt8) (v : Node) : Node :=
  let stop := offset + src.length
  let buf := if v.buf.length ≤ stop then realloc junk v.buf ((stop + 511) / 512 * 512) else v.buf
  { v with
    buf  := memcpyAt buf offset src
    size := if flags.has WRITE_TRUNCATE ∨ v.size < stop then stop else v.size }

def nodeWrite (alloc : Alloc) (req : UfsRequest) : T Reply := do
  let v ← getNode req.id
  if v.directory then
    pure (.ret (-ENOSYS))
  else
    let (offset, len) ← fsNormslice req.offset req.buf.length v.size true
    updNode req.id (Node.write alloc.junk req.flags offset (req.buf.take len))
    pure (.ret len)

def nodeGetsize (req : UfsRequest) : T Reply := do
  let v ← getNode req.id
  if v.directory then
    nodeList v
  else
    pure (.ret v.size)

-- What the driver does with a request.
def serve (alloc : Alloc) (req : UfsRequest) : T Reply := do
  match req.op with
  | .OPEN    => pure (.opened (← tmpfsOpen alloc req.buf req.flags))
  | .READ    => nodeRead req
  | .WRITE   => nodeWrite alloc req
  | .GETSIZE => nodeGetsize req
  | .REMOVE  => pure (.ret (← nodeRemove req.id))
  | .CLOSE   =>
    nodeClose req.id
    pure (.ret (-1))

end Camellia.Tmpfs
