import Ipmb.Support.Cursor

namespace ipmb

inductive ipmb_status_t where
  | IPMB_OK
  | IPMB_ERR_SHORT_READ
  | IPMB_ERR_BAD_MAGIC
  | IPMB_ERR_BAD_CRC
  | IPMB_ERR_LIMIT
  | IPMB_ERR_INVALID
  | IPMB_ERR_ALLOC
  | IPMB_ERR_EVAL
  | IPMB_ERR_NOT_FOUND
  deriving Repr, DecidableEq

def IPMB_MAX_FRAMES : Nat := 1024

def IPMB_MAX_PAYLOAD : Nat := 1024 * 1024

def IPMB_MAX_RULE_CODE : Nat := 4096

/-- What ends an execution that C leaves undefined. A loop that is given too
little fuel ends the same way, so results never depend on the fuel. -/
inductive Fault where
  | readOutOfBounds
  | writeOutOfBounds
  | readUninitialised
  | nullPointer
  | useAfterFree
  | doubleFree
  | signedOverflow
  | outOfFuel
  deriving Repr, DecidableEq

/-- The pointer and the length of the C reader are one byte list here: its
length is the number of bytes that may be read through the pointer. -/
abbrev ipmb_reader_t := cursor.Cursor UInt8

/-- What an allocator answers to the numbered allocations of one call: `true`
when the allocation succeeds. -/
abbrev Allocator := Nat → Bool

/-- The allocator that never fails. -/
def Allocator.succeeds : Allocator := fun _ => true

theorem Allocator.not_refused (n : Nat) : ¬Allocator.succeeds n = false :=
  fun h => Bool.noConfusion h

end ipmb
