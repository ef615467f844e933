import Ipmb.Support.Fallible
import Ipmb.Types
import Ipmb.Util.Endian

open fallible
open ipmb.endian

namespace ipmb.field_decoder

structure ipmb_register_field_t where
  offset : UInt16
  length : UInt16
  bytes : List UInt8
  deriving Repr, DecidableEq

/-- The field array is the list of its entries; a null array has none. -/
structure ipmb_register_map_t where
  map_id : UInt16
  field_count : UInt16
  fields : List ipmb_register_field_t
  deriving Repr, DecidableEq

/-- The map after `memset(out, 0, sizeof(*out))`. -/
def ipmb_register_map_t.zero : ipmb_register_map_t := { map_id := 0, field_count := 0, fields := [] }

/-- Releasing a map zeroes it. -/
def ipmb_register_map_free (_ : ipmb_register_map_t) : ipmb_register_map_t := .zero

/-- The magic number `RMAP`. -/
def map_magic : List UInt8 := [0x52, 0x4d, 0x41, 0x50]

def MAX_FIELDS : Nat := 512

/-- How a round of the field loop can end the function. -/
inductive Stop where
  | status (rc : ipmb_status_t)
  | fault (f : Fault)
  deriving Repr, DecidableEq

/-- The bytes a copy reads. Copying no bytes reads nowhere. -/
def read_range (payload : List UInt8) (start len : Nat) : Except Stop (List UInt8) :=
  if len = 0 ∨ start + len ≤ payload.length then .ok ((payload.drop start).take len)
  else .error (.fault .readOutOfBounds)

/-- The offset and the length in entry `i` of the table. -/
def table_entry (payload : List UInt8) (table i : Nat) : UInt16 × UInt16 :=
  (ipmb_load_le16 (payload.drop (table + i * 4)), ipmb_load_le16 (payload.drop (table + i * 4 + 2)))

/-- One round of the field loop. The check is relative to the payload, the copy
to the cursor behind the table. -/
def decode_field (malloc : Bool) (payload : List UInt8) (table cursor i : Nat) :
    Except Stop ipmb_register_field_t := do
  let (off, len) := table_entry payload table i
  if off.toNat + len.toNat > payload.length then throw (.status .IPMB_ERR_INVALID)
  else if malloc = false then throw (.status .IPMB_ERR_ALLOC)
  else
    let bytes ← read_range payload (cursor + off.toNat) len.toNat
    pure { offset := off, length := len, bytes }

/-- Allocation 0 is the field array and allocation `i + 1` the bytes of field
`i`. -/
def ipmb_decode_register_map (alloc : Allocator) (payload : List UInt8) :
    Except Fault (ipmb_status_t × ipmb_register_map_t) :=
  let out := ipmb_register_map_t.zero
  if payload.length < 10 then .ok (.IPMB_ERR_SHORT_READ, out)
  else if payload.take 4 ≠ map_magic then .ok (.IPMB_ERR_BAD_MAGIC, out)
  else
    let out := { out with map_id := ipmb_load_le16 (payload.drop 4) }
    let header_len := ipmb_load_le16 (payload.drop 6)
    let field_count := ipmb_load_le16 (payload.drop 8)
    if field_count.toNat > MAX_FIELDS then .ok (.IPMB_ERR_LIMIT, out)
    else
      let table_off := 10 + header_len.toNat
      let table_len := field_count.toNat * 4
      if table_off > payload.length ∨ table_len > payload.length - table_off then
        .ok (.IPMB_ERR_SHORT_READ, out)
      else
        let out := { out with field_count }
        if alloc 0 = false then .ok (.IPMB_ERR_ALLOC, out)
        else
          let table := table_off
          let cursor := table + table_len
          match (List.range field_count.toNat).mapM
              (fun i => decode_field (alloc (i + 1)) payload table cursor i) with
          | .error (.status rc) => .ok (rc, ipmb_register_map_free out)
          | .error (.fault f) => .error f
          | .ok fields => .ok (.IPMB_OK, { out with fields })

end ipmb.field_decoder
