import Ipmb.Util.Access

open buffer
open ipmb.access

namespace ipmb.rle_codec

/-- The magic number `IRLE`. -/
def rle_magic : List UInt8 := [0x49, 0x52, 0x4c, 0x45]

/-- The loop that doubles the capacity, with a bound on its rounds. -/
def double_loop (need : Nat) : Nat → Nat → Nat
  | 0, cap => cap
  | rounds + 1, cap => if need > cap then double_loop need rounds (cap * 2) else cap

/-- Every round adds to a capacity that is not 0, so that `need` rounds are
enough. -/
def double (need cap : Nat) : Nat := double_loop need need cap

/-- The decoding loop with a bound on its rounds. A reallocation is numbered by
the position it is made at. -/
def rle_decode_loop (alloc : Allocator) (data : List UInt8) :
    Nat → Nat → Buffer UInt8 → Except Fault (ipmb_status_t × Option (List UInt8))
  | fuel, pos, buf =>
    if pos + 1 < data.length then
      match fuel with
      | 0 => .error .outOfFuel
      | fuel + 1 => do
        let run ← byte_at data pos
        let value ← byte_at data (pos + 1)
        let need := buf.written.length + run.toNat
        if need > buf.capacity ∧ alloc pos = false then pure (.IPMB_ERR_ALLOC, none)
        else
          let buf := if need > buf.capacity then buf.resize (double need buf.capacity) else buf
          let buf ← store buf (List.replicate run.toNat value)
          rle_decode_loop alloc data fuel (pos + 2) buf
    else pure (.IPMB_OK, some buf.written)

/-- Status and, where the out parameters are set, what they show. Allocation 0
is the first buffer. -/
def ipmb_rle_decode (alloc : Allocator) (data : List UInt8) :
    Except Fault (ipmb_status_t × Option (List UInt8)) :=
  if data.length < 4 ∨ data.take 4 ≠ rle_magic then .ok (.IPMB_ERR_BAD_MAGIC, none)
  else if alloc 0 = false then .ok (.IPMB_ERR_ALLOC, none)
  else rle_decode_loop alloc data data.length 4 (Buffer.alloc 64)

/-- The inner loop of the encoder, which counts a run in 8 bits. -/
def scan_run (data : List UInt8) (i : Nat) (value : UInt8) : Nat → UInt8 → Except Fault UInt8
  | fuel, run =>
    if i + run.toNat < data.length then
      match fuel with
      | 0 => .error .outOfFuel
      | fuel + 1 => do
        let next ← byte_at data (i + run.toNat)
        if next = value ∧ run < 255 then scan_run data i value fuel (run + 1) else pure run
    else pure run

/-- The encoding loop with a bound on its rounds. -/
def rle_encode_loop (data : List UInt8) : Nat → Nat → Buffer UInt8 → Except Fault (Buffer UInt8)
  | fuel, i, buf =>
    if i < data.length then
      match fuel with
      | 0 => .error .outOfFuel
      | fuel + 1 => do
        let value ← byte_at data i
        let run ← scan_run data i value 255 1
        let buf ← store buf [run]
        let buf ← store buf [value]
        rle_encode_loop data fuel (i + run.toNat) buf
    else pure buf

def ipmb_rle_encode (malloc : Bool) (data : List UInt8) :
    Except Fault (ipmb_status_t × Option (List UInt8)) :=
  if malloc = false then .ok (.IPMB_ERR_ALLOC, none)
  else do
    let buf ← store (Buffer.alloc (4 + data.length * 2 + 2)) rle_magic
    let buf ← rle_encode_loop data data.length 0 buf
    pure (.IPMB_OK, some buf.written)

end ipmb.rle_codec
