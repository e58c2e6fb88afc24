import Camellia.Cmd.Net.Proto
import Camellia.Lib.Heap
import Camellia.Libk.Ring

namespace Camellia.Net

def ECONNRESET : Int := 12

def FlagSize : UInt16 := 0xF000
def FlagACK  : UInt16 := 0x0010
def FlagPSH  : UInt16 := 0x0008
def FlagRST  : UInt16 := 0x0004
def FlagSYN  : UInt16 := 0x0002
def FlagFIN  : UInt16 := 0x0001
def FlagAll  : UInt16 := 0x003F

inductive TcpState
  | LISTEN | SYN_SENT | SYN_RCVD | ESTABILISHED | LAST_ACK | CLOSED
  deriving DecidableEq, Repr

structure TcpConn where
  lip     : UInt32
  rip     : UInt32
  rmac    : Mac
  lport   : UInt16
  rport   : UInt16
  state   : TcpState
  lack    : UInt32
  rack    : UInt32
  lseq    : UInt32
  uclosed : Bool
  -- Whether the callbacks are set. They are always the ones of fs.c.
  onConn  : Bool
  onRecv  : Bool
  onClose : Bool
  -- The handle which the callbacks get.
  carg    : ℕ
  rx      : Ring

-- A `struct handle` of the type `H_TCP`.
structure TcpHandle where
  c       : Option ℕ
  readcap : ℕ
  dead    : Bool
  reqh    : Int
  deriving DecidableEq, Repr

-- What the network stack does, as far as it can be observed.
inductive TcpEvent
  -- `tcpc_sendraw`
  | sent (c : ℕ) (flags : UInt16) (seq ack : UInt32) (window : ℕ) (payload : List UInt8)
  -- The answer to a segment which belongs to no connection.
  | rst
  -- Bytes were put into the ring of a connection, and a FIN was processed.
  | stored (c : ℕ) (bytes : List UInt8)
  | fin (c : ℕ)
  -- A callback of a connection was invoked, and `tcpc_close` was called.
  | callback (c : ℕ)
  | closed (c : ℕ)
  -- `_sys_fs_respond`, which opens a handle for a connection, answers a read with bytes, answers an open
  -- or a read with `-ECONNRESET`, or anything else.
  | opened (h c : ℕ) (reqh : Int)
  | read (h : ℕ) (reqh : Int) (bytes : List UInt8)
  | connreset (h : ℕ) (reqh : Int)
  | answer (reqh : Int) (ret : Int)
  deriving DecidableEq, Repr

structure Tcp where
  ip      : UInt32
  conns   : Heap TcpConn
  -- The linked list of the connections.
  list    : List ℕ
  handles : Heap TcpHandle
  log     : List TcpEvent
  -- A freed object or a NULL pointer was used, or an assertion failed. What happens then is undefined.
  fault   : Bool

structure Segment where
  src     : UInt32
  mac     : Mac
  srcport : UInt16
  dstport : UInt16
  seq     : UInt32
  acknum  : UInt32
  flags   : UInt16
  payload : List UInt8
  deriving DecidableEq, Repr

def Segment.has (seg : Segment) (flag : UInt16) : Bool :=
  seg.flags &&& flag ≠ 0

namespace Tcp

def emit (s : Tcp) (e : TcpEvent) : Tcp :=
  { s with log := s.log ++ [e] }

def crash (s : Tcp) : Tcp :=
  { s with fault := true }

def setConn (s : Tcp) (c : ℕ) (v : TcpConn) : Tcp :=
  { s with conns := s.conns.set c v }

def setHandle (s : Tcp) (h : ℕ) (w : TcpHandle) : Tcp :=
  { s with handles := s.handles.set h w }

-- The accesses to a connection and to a handle.
def withConn (s : Tcp) (c : ℕ) (f : TcpConn → Tcp) : Tcp :=
  (s.conns.get c).elim s.crash f

def withHandle (s : Tcp) (h : ℕ) (f : TcpHandle → Tcp) : Tcp :=
  (s.handles.get h).elim s.crash f

end Tcp

open Tcp

def tcpcSendraw (s : Tcp) (c : ℕ) (flags : UInt16) (buf : List UInt8) : Tcp :=
  s.withConn c fun v =>
    (s.setConn c { v with lseq := v.lseq + UInt32.ofNat buf.length }).emit
      (.sent c flags v.lseq v.lack v.rx.avail buf)

section Callbacks

def tcpConnCallback (s : Tcp) (c h : ℕ) : Tcp :=
  s.withHandle h fun w => (s.setHandle h { w with c := some c, reqh := -1 }).emit (.opened h c w.reqh)

def tcpRecvCallback (s : Tcp) (h : ℕ) : Tcp :=
  s.withHandle h fun w =>
    if 0 ≤ w.reqh then
      let w := { w with readcap := min w.readcap 1024 }
      w.c.elim s.crash fun c =>
        s.withConn c fun v =>
          -- `tcpc_tryread`
          let bytes := (v.rx.get w.readcap).1
          let s := s.setConn c { v with rx := (v.rx.get w.readcap).2 }
          if bytes ≠ [] then
            (s.setHandle h { w with reqh := -1 }).emit (.read h w.reqh bytes)
          else
            s.setHandle h w
    else
      s

def tcpCloseCallback (s : Tcp) (h : ℕ) : Tcp :=
  s.withHandle h fun w =>
    if 0 ≤ w.reqh then
      (s.setHandle h { w with dead := true, reqh := -1 }).emit (.connreset h w.reqh)
    else
      s.setHandle h { w with dead := true }

-- `if (c->on_conn) c->on_conn(c, c->carg)`, and the same for the other callbacks.
def onConn (s : Tcp) (c : ℕ) : Tcp :=
  s.withConn c fun v => if v.onConn then tcpConnCallback (s.emit (.callback c)) c v.carg else s

def onRecv (s : Tcp) (c : ℕ) : Tcp :=
  s.withConn c fun v => if v.onRecv then tcpRecvCallback (s.emit (.callback c)) v.carg else s

def onClose (s : Tcp) (c : ℕ) : Tcp :=
  s.withConn c fun v => if v.onClose then tcpCloseCallback (s.emit (.callback c)) v.carg else s

end Callbacks

section Conns

-- A connection as `tcp_listen` and `tcp_connect` create it.
def tcpConn (s : Tcp) (state : TcpState) (lport : UInt16) (carg : ℕ) (buf : Mem) : TcpConn where
  lip     := s.ip
  rip     := 0
  rmac    := [0, 0, 0, 0, 0, 0]
  lport   := lport
  rport   := 0
  state   := state
  lack    := 0
  rack    := 0
  lseq    := 0
  uclosed := false
  onConn  := true
  onRecv  := true
  onClose := true
  carg    := carg
  rx      := .new buf 4096 (by decide)

def connsAppend (s : Tcp) (v : TcpConn) : Tcp :=
  { s with conns := s.conns.alloc v, list := s.conns.size :: s.list }

def tcpListen (s : Tcp) (buf : Mem) (port : UInt16) (carg : ℕ) : Tcp :=
  connsAppend s (tcpConn s .LISTEN port carg buf)

-- `rmac` is the address which `arpcache_get` finds for the target, or else for the gateway.
def tcpConnect (s : Tcp) (buf : Mem) (rmac : Option Mac) (dst : UInt32) (port : UInt16) (carg : ℕ) : Tcp :=
  match rmac with
  | none      => tcpCloseCallback s carg
  | some rmac =>
    let c := s.conns.size
    let v := { tcpConn s .SYN_SENT 50002 carg buf with rip := dst, rport := port, rmac := rmac }
    let s := tcpcSendraw (connsAppend s v) c FlagSYN []
    s.withConn c fun v => s.setConn c { v with lseq := v.lseq + 1 }

def tcpcTryfree (s : Tcp) (c : ℕ) : Tcp :=
  s.withConn c fun v =>
    if v.state = .CLOSED ∧ v.uclosed then
      { s with list := s.list.erase c, conns := s.conns.free c }
    else
      s

def tcpcClose (s : Tcp) (c : ℕ) : Tcp :=
  s.withConn c fun v =>
    if v.uclosed then
      s.crash
    else
      let s := (s.setConn c { v with uclosed := true }).emit (.closed c)
      let s :=
        if v.state ≠ .CLOSED ∧ v.state ≠ .LAST_ACK ∧ v.state ≠ .LISTEN then
          let s := tcpcSendraw s c (FlagFIN ||| FlagACK) []
          s.withConn c fun v => s.setConn c { v with state := .LAST_ACK, onConn := false, onClose := false }
        else
          s
      tcpcTryfree s c

end Conns

section Parse

-- The header of a segment, and its payload.
def tcpSegment (buf : List UInt8) (ip : Ipv4) : Option Segment :=
  if buf.length < 20 then
    none
  else
    let flags := UInt16.ofNat (nget16 buf 12)
    let hdrlen := ((flags &&& FlagSize) >>> 12).toNat * 4
    if buf.length < hdrlen then
      none
    else
      some {
        src     := UInt32.ofNat ip.src
        mac     := ip.e.src
        srcport := UInt16.ofNat (nget16 buf 0)
        dstport := UInt16.ofNat (nget16 buf 2)
        seq     := UInt32.ofNat (nget32 buf 4)
        acknum  := UInt32.ofNat (nget32 buf 8)
        flags   := flags
        payload := (buf.drop hdrlen).take ((buf.length - hdrlen) % 2 ^ 16)
      }

-- A segment without options, as a peer sends it.
def Segment.bytes (seg : Segment) : List UInt8 :=
  nput16 seg.srcport.toNat ++ nput16 seg.dstport.toNat ++ nput32 seg.seq.toNat ++ nput32 seg.acknum.toNat ++
    nput16 (0x5000 ||| seg.flags).toNat ++ nput16 4096 ++ nput32 0 ++ seg.payload

-- The checks which make the loop over the connections continue with the next one.
def TcpConn.Takes (v : TcpConn) (seg : Segment) : Prop :=
  v.state ≠ .CLOSED ∧ v.lport = seg.dstport ∧
    (v.state = .LISTEN ∧ seg.flags &&& FlagAll = FlagSYN ∨ v.rip = seg.src ∧ v.rport = seg.srcport)

instance (v : TcpConn) (seg : Segment) : Decidable (v.Takes seg) :=
  inferInstanceAs <| Decidable (_ ∧ _)

-- The SYN for a listening connection.
def tcpAccept (s : Tcp) (c : ℕ) (v : TcpConn) (seg : Segment) : Tcp :=
  let s := s.setConn c { v with
    state := .SYN_RCVD, rip := seg.src, rport := seg.srcport, lack := seg.seq + 1, rmac := seg.mac }
  let s := tcpcSendraw s c (FlagSYN ||| FlagACK) []
  let s := s.withConn c fun v => s.setConn c { v with lseq := v.lseq + 1 }
  onConn s c

-- The answer to the SYN of `tcp_connect`.
def tcpConnected (s : Tcp) (c : ℕ) (v : TcpConn) (seg : Segment) : Tcp :=
  let s := s.setConn c { v with state := .ESTABILISHED, lack := seg.seq + 1 }
  let s := tcpcSendraw s c FlagACK []
  onConn s c

def tcpPayload (s : Tcp) (c : ℕ) (v : TcpConn) (seg : Segment) : Tcp :=
  let s := (s.setConn c { v with
    lack := seg.seq + UInt32.ofNat seg.payload.length
    rx   := v.rx.put seg.payload }).emit (.stored c (v.rx.fitting seg.payload))
  tcpcSendraw (onRecv s c) c FlagACK []

def tcpFin (s : Tcp) (c : ℕ) : Tcp :=
  let s := tcpcSendraw s c (FlagFIN ||| FlagACK) []
  let s := s.withConn c fun v => (s.setConn c { v with state := .LAST_ACK }).emit (.fin c)
  onClose s c

-- A segment which is in sequence, where the last received byte counts as the next one as well.
def TcpConn.InSequence (v : TcpConn) (seg : Segment) : Prop :=
  v.lack = seg.seq ∨ v.lack - 1 = seg.seq

instance (v : TcpConn) (seg : Segment) : Decidable (v.InSequence seg) :=
  inferInstanceAs <| Decidable (_ ∨ _)

def tcpReceive (s : Tcp) (c : ℕ) (v : TcpConn) (seg : Segment) : Tcp :=
  let v := if seg.has FlagACK ∧ v.rack < seg.acknum then { v with rack := seg.acknum } else v
  if seg.has FlagACK ∧ v.state = .LAST_ACK then
    tcpcTryfree (s.setConn c { v with state := .CLOSED }) c
  else if ¬v.InSequence seg then
    tcpcSendraw (s.setConn c v) c FlagACK []
  else
    let s := if seg.payload ≠ [] then tcpPayload s c v seg else s.setConn c v
    if seg.has FlagFIN then tcpFin s c else s

def tcpDispatch (s : Tcp) (c : ℕ) (v : TcpConn) (seg : Segment) : Tcp :=
  if v.state = .LISTEN ∧ seg.flags &&& FlagAll = FlagSYN then
    tcpAccept s c v seg
  else if v.state = .SYN_SENT then
    if seg.has FlagSYN then tcpConnected s c v seg else s
  else
    tcpReceive s c v seg

-- The connection which takes a segment.
def receiver (s : Tcp) (seg : Segment) : Option ℕ :=
  s.list.find? fun c => (s.conns.get c).any (decide <| ·.Takes seg)

def tcpInput (s : Tcp) (seg : Segment) : Tcp :=
  match receiver s seg with
  | some c => s.withConn c fun v => tcpDispatch s c v seg
  | none   => if seg.has FlagRST then s else s.emit .rst

def tcpParse (s : Tcp) (buf : List UInt8) (ip : Ipv4) : Tcp :=
  (tcpSegment buf ip).elim s (tcpInput s)

end Parse

section Requests

-- `fs_open` for a file under `listen` or `connect`, once its path is parsed.
def tcpOpen (s : Tcp) (reqh : Int) : Tcp :=
  { s with handles := s.handles.alloc { c := none, readcap := 0, dead := false, reqh := reqh } }

def fsListen (s : Tcp) (buf : Mem) (reqh : Int) (port : UInt16) : Tcp :=
  tcpListen (tcpOpen s reqh) buf port s.handles.size

def fsConnect (s : Tcp) (buf : Mem) (rmac : Option Mac) (reqh : Int) (dst : UInt32) (port : UInt16) : Tcp :=
  tcpConnect (tcpOpen s reqh) buf rmac dst port s.handles.size

def recvEnqueue (s : Tcp) (h : ℕ) (w : TcpHandle) (reqh : Int) (readcap : ℕ) : Tcp :=
  if 0 < w.reqh then
    s.emit (.answer reqh (-1))
  else
    tcpRecvCallback (s.setHandle h { w with reqh := reqh, readcap := readcap }) h

def fsRead (s : Tcp) (h : ℕ) (reqh : Int) (capacity : ℕ) : Tcp :=
  s.withHandle h fun w =>
    if w.dead then s.emit (.connreset h reqh) else recvEnqueue s h w reqh capacity

def fsWrite (s : Tcp) (h : ℕ) (reqh : Int) (buf : List UInt8) : Tcp :=
  s.withHandle h fun w =>
    if w.dead then
      s.emit (.answer reqh (-ECONNRESET))
    else
      w.c.elim s.crash fun c =>
        -- `tcpc_send`
        (tcpcSendraw s c (FlagACK ||| FlagPSH) buf).emit (.answer reqh buf.length)

def fsClose (s : Tcp) (h : ℕ) (reqh : Int) : Tcp :=
  s.withHandle h fun w =>
    w.c.elim s.crash fun c =>
      let s := tcpcClose s c
      { s with handles := s.handles.free h }.emit (.answer reqh (-1))

end Requests

-- What happens to the network stack: frames from the network, and requests of users.
inductive TcpInput
  | segment (buf : List UInt8) (ip : Ipv4)
  | listen (buf : Mem) (reqh : Int) (port : UInt16)
  | connect (buf : Mem) (rmac : Option Mac) (reqh : Int) (dst : UInt32) (port : UInt16)
  | read (h : ℕ) (reqh : Int) (capacity : ℕ)
  | write (h : ℕ) (reqh : Int) (buf : List UInt8)
  | close (h : ℕ) (reqh : Int)

def tcpStep (s : Tcp) : TcpInput → Tcp
  | .segment buf ip                  => tcpParse s buf ip
  | .listen buf reqh port            => fsListen s buf reqh port
  | .connect buf rmac reqh dst port  => fsConnect s buf rmac reqh dst port
  | .read h reqh capacity            => fsRead s h reqh capacity
  | .write h reqh buf                => fsWrite s h reqh buf
  | .close h reqh                    => fsClose s h reqh

def Tcp.init (ip : UInt32) : Tcp where
  ip      := ip
  conns   := .empty
  list    := []
  handles := .empty
  log     := []
  fault   := false

-- The runs of the stack in which every step satisfies `ok`, until something undefined happens.
inductive TcpRun (ok : Tcp → TcpInput → Prop) (ip : UInt32) : Tcp → Prop
  | init : TcpRun ok ip (.init ip)
  | step {s : Tcp} {i : TcpInput} (r : TcpRun ok ip s) (hf : s.fault = false) (hi : ok s i) :
    TcpRun ok ip (tcpStep s i)

-- What the port 1000 of the host 7 sends to the port 80 of the host 9.
def fromPeer (flags : UInt16) (seq acknum : UInt32) (payload : List UInt8) : TcpInput :=
  .segment (Segment.bytes ⟨7, [], 1000, 80, seq, acknum, flags, payload⟩) ⟨⟨[], [], 0x800⟩, 7, 9, 0, 0, 6, []⟩

-- A listening handle gets a connection.
def tcpListening : Tcp :=
  tcpStep (.init 9) (.listen (fun _ => 0) 3 80)

def tcpAccepted : Tcp :=
  tcpStep tcpListening (fromPeer FlagSYN 100 0 [])

end Camellia.Net
