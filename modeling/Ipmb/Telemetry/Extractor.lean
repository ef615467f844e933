import Ipmb.Util.ByteRead

open cursor
open ipmb.byte_read

namespace ipmb.extractor

/-- The name is the block behind the pointer with its terminator, the only mark
of where it ends. The pointer and the length of the value are one byte list. -/
structure ipmb_telemetry_point_t where
  type : UInt8
  name : List UInt8
  value : List UInt8
  deriving Repr, DecidableEq

/-- The counter is set before there are points, and a null array has none. -/
structure ipmb_telemetry_batch_t where
  schema : UInt16
  point_count : UInt16
  points : List ipmb_telemetry_point_t
  deriving Repr, DecidableEq

/-- The batch after `memset(out, 0, sizeof(*out))`. -/
def ipmb_telemetry_batch_t.zero : ipmb_telemetry_batch_t := { schema := 0, point_count := 0, points := [] }

/-- Releasing a batch zeroes it. -/
def ipmb_telemetry_batch_free (_ : ipmb_telemetry_batch_t) : ipmb_telemetry_batch_t := .zero

/-- The magic number `ITLM`. -/
def telemetry_magic : List UInt8 := [0x49, 0x54, 0x4c, 0x4d]

def MAX_POINTS : Nat := 2048

/-- A copy of the bytes with a terminator behind them. -/
def copy_name (malloc : Bool) (src : List UInt8) : Option (List UInt8) :=
  if malloc then some (src ++ [0]) else none

/-- One round of the point loop. Every failure of it releases the batch and
returns the status given here. -/
def read_point (malloc_name malloc_value : Bool) : Read ipmb_telemetry_point_t := do
  let type ← ipmb_read_u8
  let name_len ← ipmb_read_le16
  let name ← ipmb_read_bytes name_len.toNat
  let value_len ← ipmb_read_le32
  let value ← ipmb_read_bytes value_len.toNat
  let copy := copy_name malloc_name name
  reject_if (copy = none ∨ malloc_value = false) .IPMB_ERR_ALLOC
  pure { type, name := copy.getD [], value }

/-- Allocation 0 is the point array, `2 * i + 1` and `2 * i + 2` are the name
and the value of point `i`. -/
def ipmb_extract_telemetry (alloc : Allocator) (data : List UInt8) : ipmb_status_t × ipmb_telemetry_batch_t :=
  let out := ipmb_telemetry_batch_t.zero
  if data.length < 8 ∨ data.take 4 ≠ telemetry_magic then (.IPMB_ERR_BAD_MAGIC, out)
  else
    match ipmb_read_le16.run (ipmb_reader_init (data.drop 4)) with
    | .error _ => (.IPMB_ERR_SHORT_READ, out)
    | .ok (schema, r) =>
    let out := { out with schema }
    match ipmb_read_le16.run r with
    | .error _ => (.IPMB_ERR_SHORT_READ, out)
    | .ok (point_count, r) =>
    let out := { out with point_count }
    if out.point_count.toNat > MAX_POINTS then (.IPMB_ERR_LIMIT, out)
    else if alloc 0 = false then (.IPMB_ERR_ALLOC, out)
    else
      match (times (fun i => read_point (alloc (2 * i + 1)) (alloc (2 * i + 2))) 0
          out.point_count.toNat).run r with
      | .error status => (status, ipmb_telemetry_batch_free out)
      | .ok (points, _) => (.IPMB_OK, { out with points })

/-- The string at a `char` pointer. -/
def c_string (block : List UInt8) : List UInt8 := block.takeWhile (· != 0)

end ipmb.extractor
