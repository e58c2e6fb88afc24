import Camellia.Cmd.Net.Proto
import Camellia.Lib.Heap

namespace Camellia.Net

structure UdpConn where
  lip    : UInt32
  rip    : UInt32
  lport  : UInt16
  rport  : UInt16
  rmac   : Mac
  -- Whether the connection is listening. The callbacks are always the ones of fs.c.
  onConn : Bool
  -- The handle which the callbacks get.
  carg   : ℕ
  deriving DecidableEq, Repr

structure StrQueue where
  next : Option ℕ
  buf  : List UInt8
  deriving DecidableEq, Repr

-- A `struct handle` of the type `H_UDP`.
structure UdpHandle where
  c      : Option ℕ
  rx     : Option ℕ
  rxlast : Option ℕ
  reqh   : Int
  deriving DecidableEq, Repr

inductive UdpEvent
  -- The open of a handle is answered.
  | opened (h : ℕ) (reqh : Int)
  -- A handle gets a read, and a datagram.
  | read (h : ℕ) (reqh : Int)
  | arrived (h : ℕ) (buf : List UInt8)
  -- A request is answered with a datagram of a handle.
  | returned (h : ℕ) (reqh : Int) (buf : List UInt8)
  -- A node is allocated for a handle, and freed.
  | queued (h n : ℕ)
  | freed (n : ℕ)
  | answer (reqh : Int) (ret : Int)
  | sent (c : ℕ) (buf : List UInt8)
  -- The answer to a datagram which belongs to no connection.
  | unreachable
  deriving DecidableEq, Repr

structure Udp where
  ip      : UInt32
  conns   : Heap UdpConn
  -- The linked list of the connections.
  list    : List ℕ
  handles : Heap UdpHandle
  nodes   : Heap StrQueue
  log     : List UdpEvent
  -- A freed node was used.
  stale   : Bool
  -- Anything else happened which is undefined.
  fault   : Bool

namespace Udp

def emit (s : Udp) (e : UdpEvent) : Udp :=
  { s with log := s.log ++ [e] }

def crash (s : Udp) : Udp :=
  { s with fault := true }

def setConn (s : Udp) (c : ℕ) (v : UdpConn) : Udp :=
  { s with conns := s.conns.set c v }

def setHandle (s : Udp) (h : ℕ) (w : UdpHandle) : Udp :=
  { s with handles := s.handles.set h w }

def withConn (s : Udp) (c : ℕ) (f : UdpConn → Udp) : Udp :=
  (s.conns.get c).elim s.crash f

def withHandle (s : Udp) (h : ℕ) (f : UdpHandle → Udp) : Udp :=
  (s.handles.get h).elim s.crash f

def withNode (s : Udp) (n : ℕ) (f : StrQueue → Udp) : Udp :=
  (s.nodes.get n).elim { s with stale := true } f

def freeNode (s : Udp) (n : ℕ) : Udp :=
  s.withNode n fun _ => { s with nodes := s.nodes.free n }.emit (.freed n)

end Udp

open Udp

section Callbacks

def udpListenCallback (s : Udp) (c h : ℕ) : Udp :=
  s.withHandle h fun w => (s.setHandle h { w with c := some c, reqh := -1 }).emit (.opened h w.reqh)

def udpRecvCallback (s : Udp) (h : ℕ) (buf : List UInt8) : Udp :=
  s.withHandle h fun w =>
    let s := s.emit (.arrived h buf)
    if 0 ≤ w.reqh then
      (s.setHandle h { w with reqh := -1 }).emit (.returned h w.reqh buf)
    else
      let sq := s.nodes.size
      let s := { s with nodes := s.nodes.alloc { next := none, buf := buf } }.emit (.queued h sq)
      if w.rx ≠ none then
        w.rxlast.elim s.crash fun l =>
          s.withNode l fun q =>
            { s with nodes := s.nodes.set l { q with next := some sq } }.setHandle h { w with rxlast := some sq }
      else
        s.setHandle h { w with rx := some sq, rxlast := some sq }

theorem udpListenCallback_conns {s : Udp} {c h : ℕ} : (udpListenCallback s c h).conns = s.conns := by
  unfold udpListenCallback withHandle
  cases s.handles.get h <;> rfl

end Callbacks

section Parse

structure Datagram where
  src     : UInt32
  mac     : Mac
  srcport : UInt16
  dstport : UInt16
  payload : List UInt8
  deriving DecidableEq, Repr

-- The header of a datagram, and its payload. A datagram without a header is not recognized as such.
def udpDatagram (buf : List UInt8) (ip : Ipv4) : Option Datagram :=
  if buf.length < 8 then
    none
  else
    some {
      src     := UInt32.ofNat ip.src
      mac     := ip.e.src
      srcport := UInt16.ofNat (nget16 buf 0)
      dstport := UInt16.ofNat (nget16 buf 2)
      payload := buf.drop 8 }

-- The first datagram for a listening connection establishes it.
def udpAccept (s : Udp) (c : ℕ) (d : Datagram) : Udp :=
  s.withConn c fun v =>
    if v.onConn = true ∧ d.dstport = v.lport then
      (udpListenCallback s c v.carg).setConn c { v with
        onConn := false, rport := d.srcport, rmac := d.mac, rip := d.src }
    else
      s

-- Whether an established connection gets the datagram.
def UdpConn.Matches (v : UdpConn) (d : Datagram) : Prop :=
  v.rip = d.src ∧ v.rport = d.srcport ∧ v.lport = d.dstport

instance (v : UdpConn) (d : Datagram) : Decidable (v.Matches d) :=
  inferInstanceAs <| Decidable (_ ∧ _ ∧ _)

-- One round of the loop over the connections, and `active`.
def udpDeliver (d : Datagram) (s : Udp × Bool) (c : ℕ) : Udp × Bool :=
  let t := udpAccept s.1 c d
  if (t.conns.get c).any (decide <| ·.Matches d) then
    (t.withConn c fun v => udpRecvCallback t v.carg d.payload, true)
  else
    (t, s.2)

def udpInput (s : Udp) (d : Datagram) : Udp :=
  let t := s.list.foldl (udpDeliver d) (s, false)
  if t.2 then t.1 else t.1.emit .unreachable

def udpParse (s : Udp) (buf : List UInt8) (ip : Ipv4) : Udp :=
  (udpDatagram buf ip).elim s.crash (udpInput s)

end Parse

section Requests

def udpConnsAppend (s : Udp) (v : UdpConn) : Udp :=
  { s with conns := s.conns.alloc v, list := s.conns.size :: s.list }

-- `fs_open` for a file under `listen`. The new connection is not cleared, so it contains some `junk`.
def fsListenUdp (s : Udp) (junk : UdpConn) (reqh : Int) (port : UInt16) : Udp :=
  let h := s.handles.size
  let s := { s with handles := s.handles.alloc { c := none, rx := none, rxlast := none, reqh := reqh } }
  udpConnsAppend s { junk with lport := port, lip := s.ip, onConn := true, carg := h }

-- `fs_open` for a file under `connect`, where `rmac` is what `arpcache_get` finds for the target.
def fsConnectUdp (s : Udp) (rmac : Option Mac) (reqh : Int) (dst : UInt32) (port : UInt16) : Udp :=
  match rmac with
  | none      => s.emit (.answer reqh (-1))
  | some rmac =>
    let h := s.handles.size
    let c := s.conns.size
    let s := udpConnsAppend s {
      lip := 0, rip := dst, lport := 50000, rport := port, rmac := rmac, onConn := false, carg := h }
    { s with handles := s.handles.alloc { c := some c, rx := none, rxlast := none, reqh := 0 } }.emit (.opened h reqh)

-- `recv_enqueue`
def udpRecvEnqueue (s : Udp) (h : ℕ) (w : UdpHandle) (reqh : Int) : Udp :=
  if 0 < w.reqh then
    s.emit (.answer reqh (-1))
  else
    match w.rx with
    | some n => s.withNode n fun q =>
      let s := (s.emit (.returned h reqh q.buf)).setHandle h { w with rx := q.next }
      -- `free(h->udp.rx)`, where `h->udp.rx` was already replaced.
      q.next.elim s s.freeNode
    | none   => s.setHandle h { w with reqh := reqh }

def fsReadUdp (s : Udp) (h : ℕ) (reqh : Int) : Udp :=
  s.withHandle h fun w => udpRecvEnqueue (s.emit (.read h reqh)) h w reqh

def fsWriteUdp (s : Udp) (h : ℕ) (reqh : Int) (buf : List UInt8) : Udp :=
  s.withHandle h fun w =>
    w.c.elim s.crash fun c =>
      s.withConn c fun _ => (s.emit (.sent c buf)).emit (.answer reqh buf.length)

def fsCloseUdp (s : Udp) (h : ℕ) (reqh : Int) : Udp :=
  s.withHandle h fun w =>
    w.c.elim s.crash fun c =>
      s.withConn c fun _ =>
        { s with
          list    := s.list.erase c
          conns   := s.conns.free c
          handles := s.handles.free h }.emit (.answer reqh (-1))

end Requests

inductive UdpInput
  | datagram (buf : List UInt8) (ip : Ipv4)
  | listen (junk : UdpConn) (reqh : Int) (port : UInt16)
  | connect (rmac : Option Mac) (reqh : Int) (dst : UInt32) (port : UInt16)
  | read (h : ℕ) (reqh : Int)
  | write (h : ℕ) (reqh : Int) (buf : List UInt8)
  | close (h : ℕ) (reqh : Int)

def udpStep (s : Udp) : UdpInput → Udp
  | .datagram buf ip             => udpParse s buf ip
  | .listen junk reqh port       => fsListenUdp s junk reqh port
  | .connect rmac reqh dst port  => fsConnectUdp s rmac reqh dst port
  | .read h reqh                 => fsReadUdp s h reqh
  | .write h reqh buf            => fsWriteUdp s h reqh buf
  | .close h reqh                => fsCloseUdp s h reqh

def Udp.init (ip : UInt32) : Udp where
  ip      := ip
  conns   := .empty
  list    := []
  handles := .empty
  nodes   := .empty
  log     := []
  stale   := false
  fault   := false

-- The runs in which every step satisfies `ok`, until something undefined happens.
inductive UdpRun (ok : Udp → UdpInput → Prop) (ip : UInt32) : Udp → Prop
  | init : UdpRun ok ip (.init ip)
  | step {s : Udp} {i : UdpInput} (r : UdpRun ok ip s) (hf : s.fault = false) (hs : s.stale = false) (hi : ok s i) :
    UdpRun ok ip (udpStep s i)

end Camellia.Net
