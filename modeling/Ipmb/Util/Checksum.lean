import Mathlib.Data.UInt

namespace ipmb.checksum

/-- One round of the inner loop: the mask is all ones exactly when the bit
shifted out is set. -/
def crc32_bit (crc : UInt32) : UInt32 :=
  let mask := 0 - (crc &&& 1)
  (crc >>> 1) ^^^ (0xedb88320 &&& mask)

/-- One round of the outer loop. -/
def crc32_byte (crc : UInt32) (byte : UInt8) : UInt32 :=
  Nat.repeat crc32_bit 8 (crc ^^^ byte.toUInt32)

def ipmb_crc32_extend (seed : UInt32) (data : List UInt8) : UInt32 :=
  data.foldl crc32_byte (seed ^^^ 0xffffffff) ^^^ 0xffffffff

def ipmb_crc32 (data : List UInt8) : UInt32 := ipmb_crc32_extend 0 data

end ipmb.checksum
