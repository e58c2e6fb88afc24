import Camellia.Fault
import Mathlib.Algebra.Group.Nat.Defs

namespace Camellia.Net

abbrev Mac := List UInt8

structure Ethernet where
  src  : Mac
  dst  : Mac
  type : ℕ
  deriving DecidableEq, Repr

-- The header of a packet, where `header` are its bytes.
structure Ipv4 where
  e        : Ethernet
  src      : ℕ
  dst      : ℕ
  id       : ℕ
  fraginfo : ℕ
  proto    : ℕ
  header   : List UInt8
  deriving DecidableEq, Repr

def nget16 (buf : List UInt8) (i : ℕ) : ℕ :=
  2 ^ 8 * (buf.getD i 0).toNat + (buf.getD (i + 1) 0).toNat

def nget32 (buf : List UInt8) (i : ℕ) : ℕ :=
  2 ^ 16 * nget16 buf i + nget16 buf (i + 2)

-- The bytes which `nput16` and `nput32` write.
def nput16 (n : ℕ) : List UInt8 :=
  [UInt8.ofNat (n / 2 ^ 8), UInt8.ofNat n]

def nput32 (n : ℕ) : List UInt8 :=
  nput16 (n / 2 ^ 16) ++ nput16 n

end Camellia.Net
