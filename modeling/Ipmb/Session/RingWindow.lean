import Ipmb.Support.Fallible
import Ipmb.Support.Heap
import Ipmb.Types

open fallible heap

namespace ipmb.ring_window

/-- A snapshot array: not allocated, allocated but never written, or a copy of
an array of the ring. -/
inductive Snapshot (α : Type) where
  | null
  | uninitialised
  | saved (entries : List α)
  deriving Repr, DecidableEq

/-- The slots are block numbers of the heap; `segments` and `lengths` are
arrays of `segment_count` entries. -/
structure ipmb_ring_window_t where
  segments : List (Option Nat)
  lengths : List Nat
  head : Nat
  snapshot_segments : Snapshot (Option Nat)
  snapshot_lengths : Snapshot Nat
  has_snapshot : Bool
  deriving Repr, DecidableEq

def ipmb_ring_window_t.segment_count (ring : ipmb_ring_window_t) : Nat := ring.segments.length

/-- A ring and the heap its slots point into. -/
structure ring_state where
  ring : ipmb_ring_window_t
  heap : Heap (List UInt8)
  deriving Repr, DecidableEq

/-- The ring after `memset(ring, 0, sizeof(*ring))`. -/
def ipmb_ring_window_t.zero : ipmb_ring_window_t :=
  { segments := []
    lengths := []
    head := 0
    snapshot_segments := .null
    snapshot_lengths := .null
    has_snapshot := false }

/-- The flags say whether the allocations of the two arrays succeed. -/
def ipmb_ring_init (calloc_segments calloc_lengths : Bool) (segment_count : Nat) :
    ipmb_status_t × ipmb_ring_window_t :=
  if segment_count = 0 ∨ segment_count > 1024 then (.IPMB_ERR_LIMIT, .zero)
  else if calloc_segments = false ∨ calloc_lengths = false then (.IPMB_ERR_ALLOC, .zero)
  else
    (.IPMB_OK,
      { ipmb_ring_window_t.zero with
        segments := List.replicate segment_count none
        lengths := List.replicate segment_count 0 })

/-- `free(p)`; a null pointer is ignored. -/
def free_pointer (heap : Heap (List UInt8)) : Option Nat → Except Fault (Heap (List UInt8))
  | none => .ok heap
  | some p =>
    match heap.free p with
    | some heap => .ok heap
    | none => .error .doubleFree

/-- `segments[i]`. -/
def slot (ring : ipmb_ring_window_t) (i : Nat) : Except Fault (Option Nat) :=
  match ring.segments[i]? with
  | some p => .ok p
  | none => .error .readOutOfBounds

def ipmb_ring_append (malloc : Bool) (st : ring_state) (data : List UInt8) :
    Except Fault (ipmb_status_t × ring_state) :=
  if malloc = false then .ok (.IPMB_ERR_ALLOC, st)
  else do
    let ring := st.ring
    let (copy, heap) := st.heap.alloc data
    let old ← slot ring ring.head
    let heap ← free_pointer heap old
    let ring := { ring with
      segments := ring.segments.set ring.head (some copy)
      lengths := ring.lengths.set ring.head data.length
      head := (ring.head + 1) % ring.segment_count }
    pure (.IPMB_OK, { ring, heap })

/-- The old snapshot is released in any case. If one of the new arrays is not
allocated the other stays unwritten. -/
def ipmb_ring_checkpoint (malloc_segments malloc_lengths : Bool) (st : ring_state) : ring_state :=
  let ring := { st.ring with
    snapshot_segments := if malloc_segments then .uninitialised else .null
    snapshot_lengths := if malloc_lengths then .uninitialised else .null }
  if malloc_segments = false ∨ malloc_lengths = false then { st with ring }
  else
    let ring := { ring with
      snapshot_segments := .saved ring.segments
      snapshot_lengths := .saved ring.lengths
      has_snapshot := true }
    { st with ring }

/-- Copying an array back from a snapshot. -/
def restore {α : Type} : Snapshot α → Except Fault (List α)
  | .null => .error .nullPointer
  | .uninitialised => .error .readUninitialised
  | .saved entries => .ok entries

def ipmb_ring_rollback (st : ring_state) : Except Fault ring_state :=
  if st.ring.has_snapshot = false then .ok st
  else do
    let segments ← restore st.ring.snapshot_segments
    let lengths ← restore st.ring.snapshot_lengths
    pure { st with ring := { st.ring with segments, lengths } }

/-- The name under which the ring is filled while it is read. -/
def ipmb_ring_advance (malloc : Bool) (st : ring_state) (data : List UInt8) :
    Except Fault (ipmb_status_t × ring_state) :=
  ipmb_ring_append malloc st data

/-- What a slot holds. -/
def read_slot (heap : Heap (List UInt8)) : Option Nat → Except Fault (Option (List UInt8))
  | none => .ok none
  | some p =>
    match heap.read p with
    | some bytes => .ok (some bytes)
    | none => .error .useAfterFree

/-- What can be seen of a ring: its head, what its slots hold, and the lengths. -/
def observe (st : ring_state) : Except Fault (Nat × List (Option (List UInt8)) × List Nat) := do
  let slots ← st.ring.segments.mapM (read_slot st.heap)
  pure (st.ring.head, slots, st.ring.lengths)

/-- Appending one payload after another. -/
def append_all (st : ring_state) (payloads : List (List UInt8)) : Except Fault ring_state :=
  payloads.foldlM (fun st data => Prod.snd <$> ipmb_ring_append true st data) st

end ipmb.ring_window
