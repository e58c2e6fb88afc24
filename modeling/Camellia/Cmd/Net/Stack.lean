import Camellia.Cmd.Net.Tcp
import Camellia.Cmd.Net.Udp
import Camellia.Lib.Wp

namespace Camellia.Net

def ET_IPv4 : ℕ := 0x800
def ET_ARP  : ℕ := 0x806

def MAC_BROADCAST : Mac := [0xFF, 0xFF, 0xFF, 0xFF, 0xFF, 0xFF]

-- Why the stack stops: a read leaves the bytes it is about, a length would be negative, an assertion
-- fails, NULL is used, or freed memory.
inductive NetFault
  | overread
  | underflow
  | assert
  | nullPointer
  | stale
  deriving DecidableEq, Repr

-- The `struct ipv4` of a received packet. Its `header` goes on to the end of the bytes it points into,
-- and the first `hlen` of them are the header.
structure Packet extends Ipv4 where
  hlen : ℕ
  deriving DecidableEq, Repr

-- What tells datagrams apart.
structure Key where
  src   : ℕ
  dst   : ℕ
  proto : ℕ
  id    : ℕ
  deriving DecidableEq, Repr

def Packet.key (ip : Packet) : Key where
  src   := ip.src
  dst   := ip.dst
  proto := ip.proto
  id    := ip.id

structure Fragment where
  offset : ℕ
  last   : Bool
  buf    : List UInt8
  deriving DecidableEq, Repr

-- A `struct fragmented` together with its fragments, which are freed with it.
structure Fragmented where
  h      : Packet
  -- Whether `h.header` is set.
  header : Bool
  first  : List Fragment
  deriving DecidableEq, Repr

-- What the stack does, apart from what the connections do.
inductive NetEvent
  -- A read of the raw frames is answered, and a frame is sent.
  | respond (h : Int) (buf : List UInt8)
  | frame (buf : List UInt8)
  -- `ipv4_dispatch`
  | dispatch (key : Key) (buf : List UInt8)
  deriving DecidableEq, Repr

structure Stack where
  mac         : Mac
  ip          : UInt32
  -- `ether_queue`
  queue       : List Int
  arpcache    : List (ℕ × Mac)
  udp         : Udp
  tcp         : Tcp
  nextId      : UInt16
  incs        : Heap Fragmented
  fragmenteds : List ℕ
  -- What is in the memory of a freed record: whether the link of its last fragment still is NULL.
  kept        : ℕ → Bool
  -- Freed memory was read.
  stale       : Bool
  log         : List NetEvent

abbrev NetM := StateT Stack (Except NetFault)

def emit (e : NetEvent) : NetM PUnit :=
  modify fun s => { s with log := s.log ++ [e] }

section Reads

-- The bytes from `i` to `i + n` are read.
def within (buf : List UInt8) (i n : ℕ) : NetM PUnit :=
  if n = 0 ∨ i + n ≤ buf.length then pure ⟨⟩ else throw .overread

def load8 (buf : List UInt8) (i : ℕ) : NetM ℕ := do
  within buf i 1
  return (buf.getD i 0).toNat

def load16 (buf : List UInt8) (i : ℕ) : NetM ℕ := do
  within buf i 2
  return nget16 buf i

def load32 (buf : List UInt8) (i : ℕ) : NetM ℕ := do
  within buf i 4
  return nget32 buf i

-- The source of a `memcpy`.
def copy (buf : List UInt8) (i n : ℕ) : NetM (List UInt8) := do
  within buf i n
  return (buf.drop i).take n

-- A difference of two lengths.
def lengthSub (a b : ℕ) : NetM ℕ :=
  if b ≤ a then pure (a - b) else throw .underflow

end Reads

section Util

def checksumAdd : List UInt8 → ℕ → ℕ
  | a :: b :: buf, c => checksumAdd buf ((c + (2 ^ 8 * a.toNat + b.toNat)) % 2 ^ 32)
  | [a], c           => (c + 2 ^ 8 * a.toNat) % 2 ^ 32
  | [], c            => c

def checksumFold (c : ℕ) : ℕ :=
  if 0xFFFF < c then checksumFold (c % 2 ^ 16 + c / 2 ^ 16) else c
  termination_by c
  decreasing_by omega

def ipChecksum (buf : List UInt8) : ℕ :=
  0xFFFF - checksumFold (checksumAdd buf 0)

end Util

section Ether

-- A frame between `ether_start` and `ether_finish`, which is padded to 60 bytes.
def etherFrame (mac dst : Mac) (type : ℕ) (pkt : List UInt8) : List UInt8 :=
  (Mem.ofList dst).slice 0 6 ++ (Mem.ofList mac).slice 0 6 ++ nput16 type ++ pkt ++
    List.replicate (60 - 14 - pkt.length) 0

def etherFinish (dst : Mac) (type : ℕ) (pkt : List UInt8) : NetM PUnit := do
  let s ← get
  emit (.frame (etherFrame s.mac dst type pkt))

end Ether

section Arp

def arpcachePut (cache : List (ℕ × Mac)) (ip : ℕ) (mac : Mac) : List (ℕ × Mac) :=
  match cache.find? (·.2 = mac) with
  | some e => if e.1 = ip then cache else (ip, mac) :: cache
  | none   => (ip, mac) :: cache

def arpParse (buf : List UInt8) (len : ℕ) : NetM PUnit :=
  if len < 8 then
    pure ⟨⟩
  else do
    let htype ← load16 buf 0
    let ptype ← load16 buf 2
    let op ← load16 buf 6
    if ¬(htype = 1 ∧ ptype = ET_IPv4) then
      pure ⟨⟩
    else if len < 28 then
      pure ⟨⟩
    else
      let ip ← load32 buf 14
      let mac ← copy buf 8 6
      modify fun s => { s with arpcache := arpcachePut s.arpcache ip mac }
      if op = 1 then
        let daddr ← load32 buf 24
        let s ← get
        if daddr = s.ip.toNat then
          let dst ← copy buf 8 6
          let sender ← copy buf 8 10
          etherFinish dst ET_ARP <| nput16 1 ++ nput16 ET_IPv4 ++ [6, 4] ++ nput16 2 ++
            (Mem.ofList s.mac).slice 0 6 ++ nput32 s.ip.toNat ++ sender ++ [0, 0]

end Arp
end Camellia.Net
