import Ipmb.Support.Logged
import Ipmb.Support.Patch
import Ipmb.Types

open fallible logged patch

namespace ipmb.checkpoint_memory

/-- A growth loop that came to its end: the size that was needed, and the
capacity it ended with. -/
structure Growth where
  need : UInt64
  cap : UInt64
  deriving DecidableEq

/-- Calls that write their growth loops down. -/
abbrev Memory := Logged Fault Growth

/-- A step without a growth loop. -/
def silent {A : Type} (x : Except Fault A) : Memory A := noting x fun _ => []

/-- The buffer is the block it points to, a byte that was never written being
`none`; a null pointer has no bytes. Sizes are 64-bit words. -/
structure ipmb_checkpoint_state_t where
  session_id : UInt32
  buf : List (Option UInt8)
  used : UInt64
  capacity : UInt64
  deriving DecidableEq

/-- The items array is the block it points to, a slot that was never written
being `none`. -/
structure ipmb_checkpoint_store_t where
  items : List (Option ipmb_checkpoint_state_t)
  count : UInt64
  capacity : UInt64
  deriving DecidableEq

def ipmb_checkpoint_store_init : ipmb_checkpoint_store_t := { items := [], count := 0, capacity := 0 }

/-- A slot of zeroed memory. -/
def ipmb_checkpoint_state_t.zero : ipmb_checkpoint_state_t :=
  { session_id := 0, buf := [], used := 0, capacity := 0 }

/-- `sizeof(ipmb_checkpoint_state_t)` -/
def sizeof_state : UInt64 := 32

/-- A block after `realloc` to so many elements: those that fit stay, and what
is new was not written. -/
def realloc_block {α : Type} (block : List (Option α)) (n : Nat) : List (Option α) :=
  (block ++ List.replicate n none).take n

/-- `memset(items + start, 0, size)` -/
def memset_items (items : List (Option ipmb_checkpoint_state_t)) (start size : UInt64) :
    Except Fault (List (Option ipmb_checkpoint_state_t)) :=
  let n := (size / sizeof_state).toNat
  if start.toNat + n ≤ items.length then
    .ok (overlay items start.toNat (List.replicate n (some .zero)))
  else .error .writeOutOfBounds

/-- `items[i]`, defined where something was written. -/
def item_at (store : ipmb_checkpoint_store_t) (i : Nat) : Except Fault ipmb_checkpoint_state_t :=
  match store.items[i]? with
  | some (some it) => .ok it
  | some none => .error .readUninitialised
  | none => .error .readOutOfBounds

/-- The loop over the items from one on, with how many are left. -/
def find_loop (store : ipmb_checkpoint_store_t) (sid : UInt32) : Nat → Nat → Except Fault (Option Nat)
  | 0, _ => pure none
  | left + 1, i => do
    let it ← item_at store i
    if it.session_id = sid then pure (some i) else find_loop store sid left (i + 1)

/-- Room for one more item, unless the reallocation is refused. -/
def reserve (granted : Bool) (store : ipmb_checkpoint_store_t) :
    Except Fault (Option ipmb_checkpoint_store_t) :=
  if store.count = store.capacity then
    let next_cap := if store.capacity ≠ 0 then store.capacity * 2 else 4
    if granted then do
      let next := realloc_block store.items (next_cap * sizeof_state / sizeof_state).toNat
      let next ← memset_items next store.capacity ((next_cap - store.capacity) * sizeof_state)
      pure (some { store with items := next, capacity := next_cap })
    else pure none
  else pure (some store)

/-- `items[count].session_id = sid`. The other fields of the slot are used next,
so that one that was never written will not do. -/
def set_session (store : ipmb_checkpoint_store_t) (sid : UInt32) : Except Fault ipmb_checkpoint_store_t := do
  let it ← item_at store store.count.toNat
  pure { store with items := store.items.set store.count.toNat (some { it with session_id := sid }) }

/-- The position of the item of a session, new if there was none. -/
def find_or_add (granted : Bool) (store : ipmb_checkpoint_store_t) (sid : UInt32) :
    Except Fault (Option (Nat × ipmb_checkpoint_store_t)) := do
  match ← find_loop store sid store.count.toNat 0 with
  | some i => pure (some (i, store))
  | none =>
    match ← reserve granted store with
    | none => pure none
    | some store =>
      let next ← set_session store sid
      pure (some (store.count.toNat, { next with count := store.count + 1 }))

/-- `while (cap < need) cap = cap + cap / 2u + 1u;` with a bound on its rounds. -/
def grow_loop (need : UInt64) : Nat → UInt64 → Except Fault UInt64
  | 0, cap => if cap < need then .error .outOfFuel else .ok cap
  | rounds + 1, cap => if cap < need then grow_loop need rounds (cap + cap / 2 + 1) else .ok cap

/-- The item with a buffer for the needed size, unless the reallocation is
refused. Every round adds to the capacity, so that `need` rounds are enough. -/
def make_room (granted : Bool) (state : ipmb_checkpoint_state_t) (need : UInt64) :
    Memory (Option ipmb_checkpoint_state_t) :=
  if need > state.capacity then do
    let cap := if state.capacity ≠ 0 then state.capacity else 16
    let cap ← noting (grow_loop need need.toNat cap) fun cap => [{ need, cap }]
    if granted then
      pure (some { state with buf := realloc_block state.buf cap.toNat, capacity := cap })
    else pure none
  else pure (some state)

/-- `memcpy(buf + used, payload, len)`; copying nothing touches no memory. -/
def copy_payload (buf : List (Option UInt8)) (used : UInt64) (payload : List UInt8) :
    Except Fault (List (Option UInt8)) :=
  if payload = [] then .ok buf
  else if buf = [] then .error .nullPointer
  else if used.toNat + payload.length ≤ buf.length then .ok (overlay buf used.toNat (payload.map some))
  else .error .writeOutOfBounds

/-- What an append does to the item of its session. -/
def append_state (granted : Bool) (state : ipmb_checkpoint_state_t) (payload : List UInt8) :
    Memory (ipmb_status_t × ipmb_checkpoint_state_t) := do
  let len := UInt64.ofNat payload.length
  match ← make_room granted state (state.used + len) with
  | none => pure (.IPMB_ERR_ALLOC, state)
  | some state =>
    let buf ← silent (copy_payload state.buf state.used payload)
    pure (.IPMB_OK, { state with buf, used := state.used + len })

def ipmb_checkpoint_append (items_granted buf_granted : Bool) (store : ipmb_checkpoint_store_t)
    (session_id : UInt32) (payload : List UInt8) : Memory (ipmb_status_t × ipmb_checkpoint_store_t) := do
  match ← silent (find_or_add items_granted store session_id) with
  | none => pure (.IPMB_ERR_ALLOC, store)
  | some (i, store) =>
    let state ← silent (item_at store i)
    let (rc, state) ← append_state buf_granted state payload
    pure (rc, { store with items := store.items.set i (some state) })

/-- Appends one after the other, all allocations succeeding, with the statuses
they return. -/
def append_all : List (UInt32 × List UInt8) → ipmb_checkpoint_store_t →
    Memory (List ipmb_status_t × ipmb_checkpoint_store_t)
  | [], store => pure ([], store)
  | (session_id, payload) :: calls, store => do
    let (rc, store) ← ipmb_checkpoint_append true true store session_id payload
    let (rcs, store) ← append_all calls store
    pure (rc :: rcs, store)

/-- What the items in use hold: the session and the used bytes of the buffer. -/
def held (store : ipmb_checkpoint_store_t) : List (Option (UInt32 × List (Option UInt8))) :=
  (store.items.take store.count.toNat).map fun slot =>
    slot.map fun it => (it.session_id, it.buf.take it.used.toNat)

end ipmb.checkpoint_memory
