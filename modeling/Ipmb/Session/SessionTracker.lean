import Ipmb.Support.Heap
import Ipmb.Types

open heap

namespace ipmb.session_tracker

structure ipmb_session_entry_t where
  session_id : UInt32
  peer_id : UInt32
  updates : UInt64
  state : List UInt8
  deriving Repr, DecidableEq

/-- The entries there ever were, the addresses of the linked ones from the head
on, and how many the tracker counts. -/
structure ipmb_session_tracker_t where
  entries : Heap ipmb_session_entry_t
  head : List Nat
  count : Nat
  deriving Repr, DecidableEq

def ipmb_session_tracker_init : ipmb_session_tracker_t := { entries := .empty, head := [], count := 0 }

/-- The entry at an address. -/
def entry (entries : Heap ipmb_session_entry_t) (p : Nat) : Except Fault ipmb_session_entry_t :=
  match entries.read p with
  | some e => .ok e
  | none => .error .useAfterFree

/-- Releases an entry together with its state. -/
def free_entry (entries : Heap ipmb_session_entry_t) (p : Nat) : Except Fault (Heap ipmb_session_entry_t) :=
  match entries.free p with
  | some entries => .ok entries
  | none => .error .doubleFree

def ipmb_session_tracker_free (tracker : ipmb_session_tracker_t) : Except Fault ipmb_session_tracker_t := do
  let entries ← tracker.head.foldlM free_entry tracker.entries
  pure { entries, head := [], count := 0 }

/-- The search from an entry on. -/
def find_from (entries : Heap ipmb_session_entry_t) (session_id : UInt32) : List Nat → Except Fault (Option Nat)
  | [] => .ok none
  | cur :: next => do
    let e ← entry entries cur
    if e.session_id = session_id then pure (some cur) else find_from entries session_id next

def ipmb_session_find (tracker : ipmb_session_tracker_t) (session_id : UInt32) : Except Fault (Option Nat) :=
  find_from tracker.entries session_id tracker.head

/-- What an upsert does to the entry of its session. -/
def update_entry (realloc_state : Bool) (tracker : ipmb_session_tracker_t) (p : Nat) (payload : List UInt8) :
    Except Fault (ipmb_status_t × ipmb_session_tracker_t) := do
  let e ← entry tracker.entries p
  if payload ≠ [] ∧ realloc_state = false then pure (.IPMB_ERR_ALLOC, tracker)
  else
    match tracker.entries.write p { e with state := e.state ++ payload, updates := e.updates + 1 } with
    | some entries => pure (.IPMB_OK, { tracker with entries })
    | none => .error .useAfterFree

/-- The first allocation is a new entry's, the second one its state's. -/
def ipmb_session_upsert (alloc : Allocator) (tracker : ipmb_session_tracker_t) (session_id peer_id : UInt32)
    (payload : List UInt8) : Except Fault (ipmb_status_t × ipmb_session_tracker_t) := do
  match ← ipmb_session_find tracker session_id with
  | some p => update_entry (alloc 1) tracker p payload
  | none =>
    if alloc 0 = false then pure (.IPMB_ERR_ALLOC, tracker)
    else
      let (p, entries) := tracker.entries.alloc { session_id, peer_id, updates := 0, state := [] }
      let tracker := { entries, head := p :: tracker.head, count := tracker.count + 1 }
      update_entry (alloc 1) tracker p payload

/-- The first entry of a session and what the links are without it. -/
def unlink (entries : Heap ipmb_session_entry_t) (session_id : UInt32) :
    List Nat → Except Fault (Option (Nat × List Nat))
  | [] => .ok none
  | cur :: next => do
    let e ← entry entries cur
    if e.session_id = session_id then pure (some (cur, next))
    else
      match ← unlink entries session_id next with
      | some (dead, rest) => pure (some (dead, cur :: rest))
      | none => pure none

def ipmb_session_terminate (tracker : ipmb_session_tracker_t) (session_id : UInt32) :
    Except Fault (ipmb_status_t × ipmb_session_tracker_t) := do
  match ← unlink tracker.entries session_id tracker.head with
  | some (dead, head) =>
    let entries ← free_entry tracker.entries dead
    pure (.IPMB_OK, { entries, head, count := tracker.count - 1 })
  | none => pure (.IPMB_ERR_NOT_FOUND, tracker)

end ipmb.session_tracker
