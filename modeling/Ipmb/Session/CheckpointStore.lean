import Ipmb.Support.Fallible
import Ipmb.Support.Keyed
import Ipmb.Support.Patch
import Ipmb.Types

open fallible keyed patch

namespace ipmb.checkpoint_store

/-- The buffer is the list of the bytes allocated for it, a byte that was never
written being `none`; a null pointer has no bytes. Sizes are unbounded. -/
structure ipmb_checkpoint_state_t where
  session_id : UInt32
  buf : List (Option UInt8)
  used : Nat
  capacity : Nat
  deriving Repr, DecidableEq

/-- The items in use, `count` of them, and for how many the array has room. -/
structure ipmb_checkpoint_store_t where
  items : List ipmb_checkpoint_state_t
  capacity : Nat
  deriving Repr, DecidableEq

def ipmb_checkpoint_store_init : ipmb_checkpoint_store_t := { items := [], capacity := 0 }

/-- An item of zeroed memory once its session is set. -/
def ipmb_checkpoint_state_t.new (session_id : UInt32) : ipmb_checkpoint_state_t :=
  { session_id, buf := [], used := 0, capacity := 0 }

/-- How a reallocation of the items array ends: it fails, or it succeeds with
the array where it was or somewhere else. -/
inductive Growth where
  | failed
  | inPlace
  | moved
  deriving Repr, DecidableEq

/-- A block after `realloc` to a size that is not 0: the bytes that fit stay, and
what is new was not written. -/
def realloc (buf : List (Option UInt8)) (size : Nat) : List (Option UInt8) :=
  (buf ++ List.replicate size none).take size

/-- The position of the item of a session, new if there was none, and whether
the items array moved. -/
def find_or_add (growth : Growth) (store : ipmb_checkpoint_store_t) (sid : UInt32) :
    Option (Nat × ipmb_checkpoint_store_t × Bool) :=
  match store.items.findIdx? (fun it => decide (it.session_id = sid)) with
  | some i => some (i, store, false)
  | none =>
    let count := store.items.length
    let items := store.items ++ [.new sid]
    if count = store.capacity then
      let next_cap := if store.capacity = 0 then 4 else store.capacity * 2
      match growth with
      | .failed => none
      | .inPlace => some (count, { items, capacity := next_cap }, false)
      | .moved => some (count, { items, capacity := next_cap }, true)
    else some (count, { store with items }, false)

/-- The growth loop with a bound on its rounds. -/
def grow_loop (need : Nat) : Nat → Nat → Nat
  | 0, cap => cap
  | rounds + 1, cap => if cap < need then grow_loop need rounds (cap + cap / 2 + 1) else cap

/-- Every round adds to the capacity, so that `need` rounds are enough. -/
def grow (need cap : Nat) : Nat := grow_loop need need cap

/-- `memcpy` into a buffer; copying nothing touches no memory. -/
def store_bytes (buf : List (Option UInt8)) (pos : Nat) (bytes : List (Option UInt8)) :
    Except Fault (List (Option UInt8)) :=
  if bytes = [] then .ok buf
  else if buf = [] then .error .nullPointer
  else if pos + bytes.length ≤ buf.length then .ok (overlay buf pos bytes)
  else .error .writeOutOfBounds

/-- The bytes that `memcpy` finds in a buffer. -/
def load_bytes (buf : List (Option UInt8)) (n : Nat) : Except Fault (List (Option UInt8)) :=
  if n = 0 then .ok []
  else if buf = [] then .error .nullPointer
  else if n ≤ buf.length then .ok (buf.take n)
  else .error .readOutOfBounds

/-- What an append does to the item of its session. -/
def append_item (realloc_buf : Bool) (state : ipmb_checkpoint_state_t) (payload : List UInt8) :
    Except Fault (ipmb_status_t × ipmb_checkpoint_state_t) :=
  let need := state.used + payload.length
  let cap := grow need (if state.capacity = 0 then 16 else state.capacity)
  if need > state.capacity ∧ realloc_buf = false then .ok (.IPMB_ERR_ALLOC, state)
  else do
    let state := if need > state.capacity then { state with buf := realloc state.buf cap, capacity := cap }
      else state
    let buf ← store_bytes state.buf state.used (payload.map some)
    pure (.IPMB_OK, { state with buf, used := state.used + payload.length })

/-- `items[i]`. -/
def item (store : ipmb_checkpoint_store_t) (i : Nat) : Except Fault ipmb_checkpoint_state_t :=
  match store.items[i]? with
  | some it => .ok it
  | none => .error .readOutOfBounds

def set_item (store : ipmb_checkpoint_store_t) (i : Nat) (it : ipmb_checkpoint_state_t) :
    ipmb_checkpoint_store_t := { store with items := store.items.set i it }

def ipmb_checkpoint_append (growth : Growth) (realloc_buf : Bool) (store : ipmb_checkpoint_store_t)
    (session_id : UInt32) (payload : List UInt8) : Except Fault (ipmb_status_t × ipmb_checkpoint_store_t) :=
  match find_or_add growth store session_id with
  | none => .ok (.IPMB_ERR_ALLOC, store)
  | some (i, store, _) => do
    let state ← item store i
    let (rc, state) ← append_item realloc_buf state payload
    pure (rc, set_item store i state)

/-- The source is found before the destination is, and read through its old
address after. -/
def ipmb_checkpoint_migrate (growth : Growth) (realloc_buf : Bool) (store : ipmb_checkpoint_store_t)
    (src_session dst_session : UInt32) : Except Fault (ipmb_status_t × ipmb_checkpoint_store_t) :=
  match last_index ipmb_checkpoint_state_t.session_id src_session store.items with
  | none => .ok (.IPMB_ERR_NOT_FOUND, store)
  | some src =>
    match find_or_add growth store dst_session with
    | none => .ok (.IPMB_ERR_ALLOC, store)
    | some (dest, store, moved) =>
      if moved then .error .useAfterFree
      else do
        let used := (← item store src).used
        let migrated := if used > 0 then used - 1 else used
        let dest_item ← item store dest
        if realloc_buf = false then pure (.IPMB_ERR_ALLOC, set_item store dest { dest_item with buf := [] })
        else
          let dest_item := { dest_item with
            buf := realloc dest_item.buf (if migrated = 0 then 1 else migrated)
            capacity := migrated
            used := used }
          let store := set_item store dest dest_item
          -- the source may be the item just changed
          let src_item ← item store src
          let buf ← store_bytes dest_item.buf 0 (← load_bytes src_item.buf src_item.used)
          pure (.IPMB_OK, set_item store dest { dest_item with buf })

/-- What a session has stored: the used bytes of its buffer, which are none where
the buffer was given up. -/
def content (store : ipmb_checkpoint_store_t) (sid : UInt32) : Option (List (Option UInt8)) :=
  (lookup ipmb_checkpoint_state_t.session_id sid store.items).map fun it => it.buf.take it.used

/-- The calls that change a store, with how their reallocations of the items
array and of a buffer end if they make them. -/
inductive Call where
  | append (session_id : UInt32) (payload : List UInt8) (growth : Growth) (realloc_buf : Bool)
  | migrate (src_session dst_session : UInt32) (growth : Growth) (realloc_buf : Bool)
  deriving Repr, DecidableEq

def call (store : ipmb_checkpoint_store_t) : Call → Except Fault ipmb_checkpoint_store_t
  | .append sid payload growth realloc_buf =>
    Prod.snd <$> ipmb_checkpoint_append growth realloc_buf store sid payload
  | .migrate src dst growth realloc_buf =>
    Prod.snd <$> ipmb_checkpoint_migrate growth realloc_buf store src dst

/-- The stores that calls lead to. -/
def Reachable (store : ipmb_checkpoint_store_t) : Prop :=
  ∃ calls : List Call, calls.foldlM call ipmb_checkpoint_store_init = .ok store

end ipmb.checkpoint_store
