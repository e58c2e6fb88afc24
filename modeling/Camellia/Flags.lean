import Mathlib.Tactic.Common

namespace Camellia

-- The `int` arguments that carry flags.
abbrev Flags := BitVec 32

namespace Flags

def has (flags bits : Flags) : Bool :=
  flags &&& bits ≠ 0

end Flags

def MEMFLAG_PRESENT : Flags := 1
def MEMFLAG_FINDFREE : Flags := 2

def FORK_NOREAP : Flags := 1
def FORK_NEWFS : Flags := 2
def FORK_SHAREMEM : Flags := 4
def FORK_SHAREHANDLE : Flags := 8

def WRITE_TRUNCATE : Flags := 1

def FSR_DELEGATE : Flags := 1

def DUP_SEARCH : Flags := 1

def OPEN_READ : Flags := 1
def OPEN_WRITE : Flags := 2
def OPEN_RW : Flags := 3
def OPEN_CREATE : Flags := 4

def openReadable (flags : Flags) : Bool :=
  flags &&& 3 ≠ OPEN_WRITE

def openWriteable (flags : Flags) : Bool :=
  flags.has OPEN_WRITE

-- The check on the flags of an open request in `vfsreq_create`.
def openInvalid (flags : Flags) : Bool :=
  !flags.has OPEN_WRITE && flags.has OPEN_CREATE

end Camellia
