import Ipmb.Util.Access

open buffer
open ipmb.endian ipmb.access

namespace ipmb.delta_codec

/-- The magic number `IDLT`. -/
def delta_magic : List UInt8 := [0x49, 0x44, 0x4c, 0x54]

def MAX_COUNT : Nat := 100000

/-- The inner loop of a repetition, which stops at the count of the header. -/
def fill_run (count : Nat) (acc : Int32) : Nat → Buffer Int32 → Except Fault (Buffer Int32)
  | 0, vals => .ok vals
  | run + 1, vals =>
    if vals.written.length < count then do
      let vals ← store vals [acc]
      fill_run count acc run vals
    else .ok vals

section Addition

variable (add : Int32 → Int32 → Except Fault Int32)

/-- The decoding loop with a bound on its rounds. The number of values is how
many were written. What an addition to the accumulator does is left open. -/
def delta_decode_loop (data : List UInt8) (count : Nat) :
    Nat → Nat → Int32 → Buffer Int32 → Except Fault (Buffer Int32)
  | fuel, pos, acc, vals =>
    if vals.written.length < count ∧ pos < data.length then
      match fuel with
      | 0 => .error .outOfFuel
      | fuel + 1 => do
        let tag ← byte_at data pos
        let pos := pos + 1
        if tag = 0 then
          if data.length - pos < 4 then pure vals
          else
            let word ← le32_at data pos
            let acc := word.toInt32
            let vals ← store vals [acc]
            delta_decode_loop data count fuel (pos + 4) acc vals
        else if tag = 1 then
          if data.length - pos < 2 then pure vals
          else
            let d ← le16_at data pos
            let acc ← add acc d.toInt16.toInt32
            let vals ← store vals [acc]
            delta_decode_loop data count fuel (pos + 2) acc vals
        else if tag = 2 then
          if pos ≥ data.length then pure vals
          else
            let run ← byte_at data pos
            let vals ← fill_run count acc run.toNat vals
            delta_decode_loop data count fuel (pos + 1) acc vals
        else if tag = 3 then delta_decode_loop data count fuel pos 0 vals
        else pure vals
    else pure vals

/-- Status and, where the out parameters are set, what they show. -/
def decode_with (calloc : Bool) (data : List UInt8) : Except Fault (ipmb_status_t × Option (List Int32)) :=
  if data.length < 12 ∨ data.take 4 ≠ delta_magic then .ok (.IPMB_ERR_BAD_MAGIC, none)
  else do
    let count ← le32_at data 8
    if count.toNat > MAX_COUNT then pure (.IPMB_ERR_LIMIT, none)
    else if calloc = false then pure (.IPMB_ERR_ALLOC, none)
    else
      let vals := Buffer.alloc (if count = 0 then 1 else count.toNat)
      let vals ← delta_decode_loop add data count.toNat data.length 12 0 vals
      pure (.IPMB_OK, some vals.written)

end Addition

/-- An addition that wraps around. -/
def wrap_add (a b : Int32) : Except Fault Int32 := .ok (a + b)

def ipmb_delta_decode (calloc : Bool) (data : List UInt8) : Except Fault (ipmb_status_t × Option (List Int32)) :=
  decode_with wrap_add calloc data

/-- A round of the encoding loop. -/
def delta_encode_value (buf : Buffer UInt8) (value : Int32) : Except Fault (Buffer UInt8) := do
  let buf ← store buf [0]
  store buf (ipmb_store_le32 value.toUInt32)

/-- The three bytes between the 16 and the count are zero from the allocation. -/
def ipmb_delta_encode (calloc : Bool) (values : List Int32) :
    Except Fault (ipmb_status_t × Option (List UInt8)) :=
  if calloc = false then .ok (.IPMB_ERR_ALLOC, none)
  else do
    let buf ← store (Buffer.alloc (12 + values.length * 5)) delta_magic
    let buf ← store buf [16]
    let buf ← store buf [0, 0, 0]
    let buf ← store buf (ipmb_store_le32 (UInt32.ofNat values.length))
    let buf ← values.foldlM delta_encode_value buf
    pure (.IPMB_OK, some buf.written)

end ipmb.delta_codec
