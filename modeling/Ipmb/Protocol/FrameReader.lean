import Ipmb.Util.ByteRead
import Ipmb.Util.Checksum

open cursor
open ipmb.endian ipmb.byte_read ipmb.checksum

namespace ipmb.frame_reader

def IPMB_MESSAGE_HEADER_LEN : Nat := 28

def IPMB_FRAME_HEADER_LEN : Nat := 20

/-- The payload pointer is the list of the bytes allocated behind it. Callers
may build frames whose `payload_len` says something else. -/
structure ipmb_frame_t where
  frame_type : UInt16
  frame_flags : UInt16
  source_addr : UInt32
  dest_addr : UInt32
  priority : UInt16
  ttl : UInt16
  payload : List UInt8
  payload_len : Nat
  crc : UInt32
  deriving Repr, DecidableEq

/-- The frame array is the list of the frames stored so far; a null array has
none. -/
structure ipmb_message_t where
  version : UInt16
  flags : UInt16
  session_id : UInt64
  sequence : UInt32
  frame_count : UInt32
  frames : List ipmb_frame_t
  deriving Repr, DecidableEq

/-- The message after `memset(out, 0, sizeof(*out))`. -/
def ipmb_message_t.zero : ipmb_message_t :=
  { version := 0, flags := 0, session_id := 0, sequence := 0, frame_count := 0, frames := [] }

/-- Releasing a message zeroes it. -/
def ipmb_message_free (_ : ipmb_message_t) : ipmb_message_t := .zero

/-- The magic number `IPMB`. -/
def message_magic : List UInt8 := [0x49, 0x50, 0x4d, 0x42]

/-- One round of the frame loop. Every failure of it releases the message and
returns the status given here. -/
def read_frame (malloc : Bool) : Read ipmb_frame_t := do
  let frame_start ← get
  reject_if (ipmb_reader_remaining frame_start < IPMB_FRAME_HEADER_LEN) .IPMB_ERR_SHORT_READ
  let frame_type ← ipmb_read_le16
  let frame_flags ← ipmb_read_le16
  let payload_len ← ipmb_read_le32
  let source_addr ← ipmb_read_le32
  let dest_addr ← ipmb_read_le32
  let priority ← ipmb_read_le16
  let ttl ← ipmb_read_le16
  reject_if (payload_len.toNat > IPMB_MAX_PAYLOAD) .IPMB_ERR_LIMIT
  let payload ← ipmb_read_bytes payload_len.toNat
  let crc ← ipmb_read_le32
  reject_if (ipmb_crc32 ((frame_start.data.drop frame_start.pos).take
    (IPMB_FRAME_HEADER_LEN + payload_len.toNat)) ≠ crc) .IPMB_ERR_BAD_CRC
  reject_if (malloc = false) .IPMB_ERR_ALLOC
  pure { frame_type, frame_flags, source_addr, dest_addr, priority, ttl, payload,
         payload_len := payload_len.toNat, crc }

/-- Allocation 0 is the frame array and allocation `i + 1` the payload of
frame `i`. The header reads go through a reader that starts after the magic
number; the frame loop uses a reader over the whole input. -/
def ipmb_parse_message (alloc : Allocator) (data : List UInt8) : ipmb_status_t × ipmb_message_t :=
  let out := ipmb_message_t.zero
  if data.length < IPMB_MESSAGE_HEADER_LEN then (.IPMB_ERR_SHORT_READ, out)
  else if data.take 4 ≠ message_magic then (.IPMB_ERR_BAD_MAGIC, out)
  else
    match ipmb_read_le16.run (ipmb_reader_init (data.drop 4)) with
    | .error _ => (.IPMB_ERR_SHORT_READ, out)
    | .ok (version, r) =>
    let out := { out with version }
    match ipmb_read_le16.run r with
    | .error _ => (.IPMB_ERR_SHORT_READ, out)
    | .ok (flags, r) =>
    let out := { out with flags }
    match ipmb_read_le32.run r with
    | .error _ => (.IPMB_ERR_SHORT_READ, out)
    | .ok (frame_count, r) =>
    let out := { out with frame_count }
    match ipmb_read_le64.run r with
    | .error _ => (.IPMB_ERR_SHORT_READ, out)
    | .ok (session_id, r) =>
    let out := { out with session_id }
    match ipmb_read_le32.run r with
    | .error _ => (.IPMB_ERR_SHORT_READ, out)
    | .ok (sequence, r) =>
    let out := { out with sequence }
    match ipmb_read_le32.run r with
    | .error _ => (.IPMB_ERR_SHORT_READ, out)
    | .ok (header_crc, _) =>
    let r : ipmb_reader_t := { data, pos := IPMB_MESSAGE_HEADER_LEN }
    if out.frame_count.toNat > IPMB_MAX_FRAMES then (.IPMB_ERR_LIMIT, out)
    else if ipmb_crc32 (data.take 24) ≠ header_crc then (.IPMB_ERR_BAD_CRC, out)
    else if alloc 0 = false then (.IPMB_ERR_ALLOC, out)
    else
      match (times (fun i => read_frame (alloc (i + 1))) 0 out.frame_count.toNat).run r with
      | .error status => (status, ipmb_message_free out)
      | .ok (frames, _) => (.IPMB_OK, { out with frames })

/-- `msg->frames[i]`. -/
def frame_at (msg : ipmb_message_t) (i : Nat) : Except Fault ipmb_frame_t :=
  match msg.frames[i]? with
  | some f => .ok f
  | none => .error (if msg.frames = [] then .nullPointer else .readOutOfBounds)

/-- The search from a position on, with the number of frames left. -/
def first_frame_from (msg : ipmb_message_t) (frame_type : UInt16) :
    Nat → Nat → Except Fault (Option ipmb_frame_t)
  | _, 0 => .ok none
  | i, left + 1 => do
    let f ← frame_at msg i
    if f.frame_type = frame_type then pure (some f) else first_frame_from msg frame_type (i + 1) left

/-- The frame that the returned pointer designates. -/
def ipmb_message_first_frame (msg : ipmb_message_t) (frame_type : UInt16) :
    Except Fault (Option ipmb_frame_t) :=
  first_frame_from msg frame_type 0 msg.frame_count.toNat

end ipmb.frame_reader
