import Ipmb.Util.ByteRead

open cursor
open ipmb.byte_read

namespace ipmb.journal

def IPMB_JOURNAL_ESTABLISH : UInt8 := 1

def IPMB_JOURNAL_UPDATE : UInt8 := 2

def IPMB_JOURNAL_MIGRATE : UInt8 := 3

def IPMB_JOURNAL_TERMINATE : UInt8 := 4

def IPMB_JOURNAL_CHECKPOINT : UInt8 := 5

def IPMB_JOURNAL_ROLLBACK : UInt8 := 6

/-- The pointer and the length of the payload are one byte list. -/
structure ipmb_journal_record_t where
  type : UInt8
  session_id : UInt32
  peer_id : UInt32
  payload : List UInt8
  deriving Repr, DecidableEq

/-- There are as many records as their 16 bit counter says. -/
structure ipmb_journal_t where
  version : UInt16
  records : List ipmb_journal_record_t
  record_count_lt : records.length < 65536

/-- The memory of a journal while it is parsed: the counter is set before there
are records, and a null array has none. -/
structure ipmb_journal_memory where
  version : UInt16
  record_count : UInt16
  records : List ipmb_journal_record_t
  deriving Repr, DecidableEq

/-- The journal after `memset(out, 0, sizeof(*out))`. -/
def ipmb_journal_memory.zero : ipmb_journal_memory := { version := 0, record_count := 0, records := [] }

/-- Releasing a journal zeroes it. -/
def ipmb_journal_free (_ : ipmb_journal_memory) : ipmb_journal_memory := .zero

/-- The magic number `IJRN`. -/
def journal_magic : List UInt8 := [0x49, 0x4a, 0x52, 0x4e]

def MAX_RECORDS : Nat := 4096

/-- One round of the record loop. Every failure of it releases the journal and
returns the status given here. -/
def read_record (malloc : Bool) : Read ipmb_journal_record_t := do
  let type ← ipmb_read_u8
  let session_id ← ipmb_read_le32
  let peer_id ← ipmb_read_le32
  let plen ← ipmb_read_le16
  let payload ← ipmb_read_bytes plen.toNat
  reject_if (malloc = false) .IPMB_ERR_ALLOC
  pure { type, session_id, peer_id, payload }

/-- Allocation 0 is the record array and allocation `i + 1` the payload of
record `i`. -/
def ipmb_journal_parse (alloc : Allocator) (data : List UInt8) : ipmb_status_t × ipmb_journal_memory :=
  let out := ipmb_journal_memory.zero
  if data.length < 8 ∨ data.take 4 ≠ journal_magic then (.IPMB_ERR_BAD_MAGIC, out)
  else
    match ipmb_read_le16.run (ipmb_reader_init (data.drop 4)) with
    | .error _ => (.IPMB_ERR_SHORT_READ, out)
    | .ok (version, r) =>
    let out := { out with version }
    match ipmb_read_le16.run r with
    | .error _ => (.IPMB_ERR_SHORT_READ, out)
    | .ok (record_count, r) =>
    let out := { out with record_count }
    if out.record_count.toNat > MAX_RECORDS then (.IPMB_ERR_LIMIT, out)
    else if alloc 0 = false then (.IPMB_ERR_ALLOC, out)
    else
      match (times (fun i => read_record (alloc (i + 1))) 0 out.record_count.toNat).run r with
      | .error status => (status, ipmb_journal_free out)
      | .ok (records, _) => (.IPMB_OK, { out with records })

end ipmb.journal
