import Camellia.Cmd.Net.Stack

namespace Camellia.Net

section Send

-- The `struct ipv4` of a packet to be sent, where `mac` is `e.dst`.
structure Outgoing where
  src   : UInt32
  dst   : UInt32
  proto : UInt8
  mac   : Option Mac
  deriving DecidableEq, Repr

def ipv4Header (src dst : UInt32) (proto : UInt8) (id : UInt16) (totallen fraginfo checksum : ℕ) : List UInt8 :=
  [0x45, 0] ++ nput16 totallen ++ nput16 id.toNat ++ nput16 fraginfo ++ [0xFF, proto] ++ nput16 checksum ++
    nput32 src.toNat ++ nput32 dst.toNat

def ipv4Packet (src dst : UInt32) (proto : UInt8) (id : UInt16) (fraginfo : ℕ) (payload : List UInt8) : List UInt8 :=
  let header := ipv4Header src dst proto id (20 + payload.length) fraginfo
  header (ipChecksum (header 0)) ++ payload

-- The loop of `ipv4_send`, which is bounded by the length of the payload.
def ipv4Packets (src dst : UInt32) (proto : UInt8) (id : UInt16) (payload : List UInt8) :
    (fuel off fraglen : ℕ) → List (List UInt8)
  | 0, _, _                => []
  | fuel + 1, off, fraglen =>
    if off < payload.length then
      let fraglen := min fraglen (payload.length - off)
      let last := payload.length ≤ off + fraglen
      ipv4Packet src dst proto id (off / 2 ^ 3 ||| if last then 0 else 0x2000) ((payload.drop off).take fraglen) ::
        ipv4Packets src dst proto id payload fuel (off + fraglen) fraglen
    else
      []

def ipv4Send (payload : List UInt8) (ip : Outgoing) : NetM PUnit := do
  let s ← get
  let src := if ip.src = 0 then s.ip else ip.src
  let mac := if ip.mac = none ∧ ip.dst = 0xFFFFFFFF then some MAC_BROADCAST else ip.mac
  modify fun s => { s with nextId := s.nextId + 1 }
  (ipv4Packets src ip.dst ip.proto s.nextId payload payload.length 0 (1500 - 20)).forM fun pkt =>
    match mac with
    | some mac => etherFinish mac ET_IPv4 pkt
    | none     => throw .nullPointer

-- `icmp_send` for an answer to a received packet.
def icmpSend (type code : UInt8) (payload : List UInt8) (ip : Packet) : NetM PUnit :=
  let pkt := fun checksum => [type, code] ++ nput16 checksum ++ payload
  ipv4Send (pkt (ipChecksum (pkt 0)))
    { src := 0, dst := UInt32.ofNat ip.src, proto := 1, mac := some ip.e.src }

end Send

section Parse

def icmpParse (buf : List UInt8) (len : ℕ) (ip : Packet) : NetM PUnit :=
  if len < 4 then
    pure ⟨⟩
  else do
    let type ← load8 buf 0
    let s ← get
    if type = 8 ∧ ip.dst = s.ip.toNat then
      let payload ← copy buf 4 (len - 4)
      icmpSend 0 0 payload ip

-- The reads of a segment are checked. What it does is up to `tcpParse`.
def tcpReceived (buf : List UInt8) (len : ℕ) (ip : Packet) : NetM PUnit :=
  if len < 20 then
    pure ⟨⟩
  else do
    let _ ← load16 buf 0
    let _ ← load16 buf 2
    let _ ← load32 buf 4
    let _ ← load32 buf 8
    let flags ← load16 buf 12
    let hdrlen := flags / 2 ^ 12 * 4
    if len < hdrlen then
      pure ⟨⟩
    else
      let _ ← copy buf hdrlen ((len - hdrlen) % 2 ^ 16)
      modify fun s => { s with tcp := tcpParse s.tcp (buf.take len) ip.toIpv4 }

-- The datagram as the loop over the connections sees it.
def udpReceived (buf : List UInt8) (len srcport dstport : ℕ) (ip : Packet) : Datagram where
  src     := UInt32.ofNat ip.src
  mac     := ip.e.src
  srcport := UInt16.ofNat srcport
  dstport := UInt16.ofNat dstport
  payload := (buf.take len).drop 8

-- `active` at the end of that loop.
def Udp.active (s : Udp) (d : Datagram) : Bool :=
  (s.list.foldl (udpDeliver d) (s, false)).2

def udpArrived (buf : List UInt8) (len : ℕ) (ip : Packet) : NetM PUnit := do
  let srcport ← load16 buf 0
  let dstport ← load16 buf 2
  let s ← get
  let d := udpReceived buf len srcport dstport ip
  if s.udp.active d then
    -- What every connection which takes the datagram is given.
    let n ← lengthSub len 8
    let _ ← copy buf 8 n
    modify fun s => { s with udp := udpInput s.udp d }
  else
    modify fun s => { s with udp := udpInput s.udp d }
    let header ← copy ip.header 0 (ip.hlen + 8)
    icmpSend 3 3 (nput32 0 ++ header) ip

def ipv4Dispatch (buf : List UInt8) (len : ℕ) (ip : Packet) : NetM PUnit := do
  emit (.dispatch ip.key (buf.take len))
  match ip.proto with
  | 0x01 => icmpParse buf len ip
  | 0x06 => tcpReceived buf len ip
  | 0x11 => udpArrived buf len ip
  | _    => pure ⟨⟩

def getInc (i : ℕ) : NetM Fragmented := do
  match (← get).incs.get i with
  | some inc => pure inc
  | none     => throw .stale

def setInc (i : ℕ) (inc : Fragmented) : NetM PUnit :=
  modify fun s => { s with incs := s.incs.set i inc }

-- The search of `fragmented_find`, and its result if there is no such record yet.
def fragmentedSearch (key : Key) : List ℕ → NetM (Option ℕ)
  | []     => pure none
  | i :: l => do
    let inc ← getInc i
    if inc.h.key = key then pure (some i) else fragmentedSearch key l

def Fragmented.new (fraghdr : Packet) : Fragmented where
  h      := {
    e := ⟨[], [], 0⟩, src := fraghdr.src, dst := fraghdr.dst, id := fraghdr.id, fraginfo := 0,
    proto := fraghdr.proto, header := [], hlen := 0 }
  header := false
  first  := []

def fragmentedFind (fraghdr : Packet) : NetM ℕ := do
  let s ← get
  match ← fragmentedSearch fraghdr.key s.fragmenteds with
  | some i => pure i
  | none   =>
    modify fun s => { s with incs := s.incs.alloc (.new fraghdr), fragmenteds := s.incs.size :: s.fragmenteds }
    pure s.incs.size

def fragmentedFree (i : ℕ) : NetM PUnit := do
  let _ ← getInc i
  modify fun s => { s with incs := s.incs.free i, fragmenteds := s.fragmenteds.erase i }

-- `iter = iter->next`, where `iter` is a fragment of the record `i`.
def follow (i : ℕ) : NetM PUnit := do
  let s ← get
  if (s.incs.get i).isNone then
    modify fun s => { s with stale := true }
    if s.kept i then pure ⟨⟩ else throw .stale

def Fragment.iterend (f : Fragment) : ℕ :=
  f.offset + f.buf.length

-- The copies to the buffer for the whole payload.
def assemble (iterend : ℕ) : List Fragment → Mem → NetM Mem
  | [], buf      => pure buf
  | f :: fs, buf => if f.iterend ≤ iterend then assemble iterend fs (buf.write f.offset f.buf) else throw .assert

-- What happens once the last fragment is reached. `e` are the addresses in the buffer for received frames,
-- which the saved header points to.
def deliver (i : ℕ) (e : Ethernet) (iterend : ℕ) : NetM PUnit := do
  let inc ← getInc i
  let buf ← assemble iterend inc.first (Mem.ofList [])
  ipv4Dispatch (buf.slice 0 iterend) iterend { inc.h with e := e }
  fragmentedFree i

-- The loop of `fragmented_tryfinish`.
def tryfinishLoop (i : ℕ) (e : Ethernet) : List Fragment → NetM PUnit
  | []                 => pure ⟨⟩
  | iter :: next :: fs => do
    let _ ← getInc i
    if iter.iterend < next.offset then
      pure ⟨⟩
    else if next.offset < iter.iterend then
      fragmentedFree i
    else
      follow i
      tryfinishLoop i e (next :: fs)
  | [iter]             => do
    let _ ← getInc i
    if iter.last then
      deliver i e iter.iterend
    follow i

def fragmentedTryfinish (i : ℕ) (e : Ethernet) : NetM PUnit := do
  let inc ← getInc i
  match inc.first with
  | []      => throw .nullPointer
  | f :: fs => if f.offset ≠ 0 then pure ⟨⟩ else tryfinishLoop i e (f :: fs)

-- Where `fragmented_tryinsert` inserts, unless there is a fragment with this offset already.
def insertAt (off : ℕ) : List Fragment → Option (List Fragment × List Fragment)
  | []      => some ([], [])
  | f :: fs =>
    if off < f.offset then
      some ([], f :: fs)
    else if f.offset = off then
      none
    else
      (insertAt off fs).map fun p => (f :: p.1, p.2)

def Packet.off (ip : Packet) : ℕ :=
  ip.fraginfo % 2 ^ 13 * 8

def Packet.last (ip : Packet) : Bool :=
  !ip.fraginfo.testBit 13

def fragmentedTryinsert (payload : List UInt8) (plen : ℕ) (ip : Packet) : NetM PUnit := do
  let i ← fragmentedFind ip
  let inc ← getInc i
  match insertAt ip.off inc.first with
  | none               => pure ⟨⟩
  | some (front, back) =>
    if ip.last ∧ back ≠ [] then
      pure ⟨⟩
    else
      let buf ← copy payload 0 plen
      let inc := { inc with first := front ++ ⟨ip.off, ip.last, buf⟩ :: back }
      setInc i inc
      if ip.off = 0 then
        if inc.header then
          throw .assert
        else
          let header ← copy ip.header 0 ip.hlen
          setInc i { inc with h := { ip with header := header }, header := true }
      fragmentedTryfinish i ip.e

def ipv4Parse (buf : List UInt8) (len : ℕ) (ether : Ethernet) : NetM PUnit := do
  let version := (← load8 buf 0) / 2 ^ 4
  if version ≠ 4 then
    pure ⟨⟩
  else
    let headerlen := (← load8 buf 0) % 2 ^ 4 * 4
    let totallen ← load16 buf 2
    if totallen < headerlen then
      pure ⟨⟩
    else
      let src ← load32 buf 12
      let dst ← load32 buf 16
      let id ← load16 buf 4
      let fraginfo ← load16 buf 6
      let proto ← load8 buf 9
      let ip : Packet := {
        e := ether, src := src, dst := dst, id := id, fraginfo := fraginfo, proto := proto, header := buf,
        hlen := headerlen }
      -- Everything but EvilBit and DontFrag.
      if ip.fraginfo % 2 ^ 14 ≠ 0 then
        fragmentedTryinsert (buf.drop headerlen) (totallen - headerlen) ip
      else if len < totallen then
        pure ⟨⟩
      else
        ipv4Dispatch (buf.drop headerlen) (totallen - headerlen) ip

def etherParse (buf : List UInt8) : NetM PUnit := do
  let type ← load16 buf 12
  let ether : Ethernet := { src := (buf.drop 6).take 6, dst := buf.take 6, type := type }
  modify fun s => { s with queue := [], log := s.log ++ s.queue.map (NetEvent.respond · buf) }
  match type with
  | 0x800 => ipv4Parse (buf.drop 14) (← lengthSub buf.length 14) ether
  | 0x806 => arpParse (buf.drop 14) (← lengthSub buf.length 14)
  | _     => pure ⟨⟩

end Parse

def Stack.init (mac : Mac) (ip : UInt32) (kept : ℕ → Bool) : Stack where
  mac         := mac
  ip          := ip
  queue       := []
  arpcache    := []
  udp         := .init ip
  tcp         := .init ip
  nextId      := 0
  incs        := .empty
  fragmenteds := []
  kept        := kept
  stale       := false
  log         := []

-- The runs of the stack: frames from the network, and whatever the thread for requests does to the rest.
inductive NetRun : Stack → Prop
  | init {mac : Mac} {ip : UInt32} {kept : ℕ → Bool} : NetRun (.init mac ip kept)
  | frame {s t : Stack} {buf : List UInt8} (r : NetRun s) (h : etherParse buf s = .ok (⟨⟩, t)) : NetRun t
  | requests {s t : Stack} (r : NetRun s) (hi : t.incs = s.incs) (hf : t.fragmenteds = s.fragmenteds) : NetRun t

end Camellia.Net
