import Ipmb.Replay.EventLog
import Ipmb.Routing.MatchTable
import Ipmb.Session.CheckpointCalls
import Ipmb.Storage

open fallible heap
open ipmb.session_tracker ipmb.checkpoint_store ipmb.event_log ipmb.match_table ipmb.storage ipmb.rule_compiler

namespace ipmb.containers

/-- One of each of the containers. The snapshots of the log are those of the
tracker. -/
structure container_state where
  tracker : ipmb_session_tracker_t
  store : ipmb_checkpoint_store_t
  log : ipmb_event_log_t
  table : ipmb_match_table_t
  storage : ipmb_storage_t
  deriving Repr, DecidableEq

def init : container_state where
  tracker := ipmb_session_tracker_init
  store := ipmb_checkpoint_store_init
  log := ipmb_event_log_init
  table := ipmb_match_table_init
  storage := ipmb_storage_init

/-- The calls that change a container, with how their allocations end. -/
inductive mutation where
  | upsert (alloc : Allocator) (session_id peer_id : UInt32) (payload : List UInt8)
  | terminate (session_id : UInt32)
  | append (growth : Growth) (realloc_buf : Bool) (session_id : UInt32) (payload : List UInt8)
  | migrate (growth : Growth) (realloc_buf : Bool) (src_session dst_session : UInt32)
  | snapshot (alloc : Allocator)
  | add (alloc : Allocator) (name : List UInt8) (priority : Int32) (code : ipmb_rule_bytecode_t)
  | put (alloc : Allocator) (data : List UInt8)

def mutate (s : container_state) : mutation → Except Fault (ipmb_status_t × container_state)
  | .upsert alloc session_id peer_id payload => do
    let (rc, tracker) ← ipmb_session_upsert alloc s.tracker session_id peer_id payload
    pure (rc, { s with tracker })
  | .terminate session_id => do
    let (rc, tracker) ← ipmb_session_terminate s.tracker session_id
    pure (rc, { s with tracker })
  | .append growth realloc_buf session_id payload => do
    let (rc, store) ← ipmb_checkpoint_append growth realloc_buf s.store session_id payload
    pure (rc, { s with store })
  | .migrate growth realloc_buf src_session dst_session => do
    let (rc, store) ← ipmb_checkpoint_migrate growth realloc_buf s.store src_session dst_session
    pure (rc, { s with store })
  | .snapshot alloc => do
    let (rc, log) ← ipmb_event_log_snapshot alloc s.log s.tracker
    pure (rc, { s with log })
  | .add alloc name priority code =>
    let (rc, table) := ipmb_match_table_add alloc s.table name priority code
    .ok (rc, { s with table })
  | .put alloc data =>
    let (rc, storage, _) := ipmb_storage_put alloc s.storage data
    .ok (rc, { s with storage })

/-- The containers that calls lead to, whatever their statuses. -/
def Reachable (s : container_state) : Prop :=
  ∃ calls : List mutation, calls.foldlM (fun s m => Prod.snd <$> mutate s m) init = .ok s

/-- What can be seen of an item: its session, how many bytes are used and which. -/
def seen_item (it : ipmb_checkpoint_state_t) : UInt32 × Nat × List (Option UInt8) :=
  (it.session_id, it.used, it.buf.take it.used)

/-- What can be seen of a tracker: its count and the entries from the head on. -/
def seen_tracker (tracker : ipmb_session_tracker_t) : Nat × List (Option ipmb_session_entry_t) :=
  (tracker.count, tracker.head.map tracker.entries.read)

/-- The observable content of the containers. -/
structure Same (s s' : container_state) : Prop where
  tracker : seen_tracker s'.tracker = seen_tracker s.tracker
  store : s'.store.items.map seen_item = s.store.items.map seen_item
  log : s'.log.snapshots = s.log.snapshots
  table : s'.table.rules = s.table.rules
  storage : s'.storage.blocks = s.storage.blocks

/-- A call that runs out of memory leaves what can be seen as it was. One that ends
in a fault is not atomic, whatever it was to return. -/
def Atomic (s : container_state) (m : mutation) : Prop :=
  ∃ rc s', mutate s m = .ok (rc, s') ∧ (rc = .IPMB_ERR_ALLOC → Same s s')

theorem Same.refl (s : container_state) : Same s s := ⟨rfl, rfl, rfl, rfl, rfl⟩

/-- What every call keeps. -/
structure Valid (s : container_state) : Prop where
  tracks : ∃ es, Tracks s.tracker es
  sound : Sound s.store

theorem valid_init : Valid init := ⟨⟨[], tracks_init⟩, sound_init⟩

theorem Valid.mutate {s s' : container_state} {m : mutation} {rc : ipmb_status_t} (h : Valid s)
    (hrun : mutate s m = .ok (rc, s')) : Valid s' := by
  obtain ⟨⟨es, htracks⟩, hsound⟩ := h
  cases m with
  | upsert alloc session_id peer_id payload =>
    obtain ⟨tracker', hupsert, htracks', _⟩ :=
      ipmb_session_upsert_with_spec alloc htracks session_id peer_id payload
    rw [containers.mutate, hupsert] at hrun
    cases hrun
    exact ⟨⟨_, htracks'⟩, hsound⟩
  | terminate session_id =>
    obtain ⟨tracker', hterminate, htracks', _⟩ := ipmb_session_terminate_spec htracks session_id
    rw [containers.mutate, hterminate] at hrun
    cases hrun
    exact ⟨⟨_, htracks'⟩, hsound⟩
  | append growth realloc_buf session_id payload =>
    obtain ⟨⟨rc, store⟩, happend, hresult⟩ := bind_eq_ok_iff.mp hrun
    cases hresult
    exact ⟨⟨es, htracks⟩, hsound.call (c := .append session_id payload growth realloc_buf) (by
      rw [checkpoint_store.call, happend, map_ok])⟩
  | migrate growth realloc_buf src_session dst_session =>
    obtain ⟨⟨rc, store⟩, hmigrate, hresult⟩ := bind_eq_ok_iff.mp hrun
    cases hresult
    exact ⟨⟨es, htracks⟩, hsound.call (c := .migrate src_session dst_session growth realloc_buf) (by
      rw [checkpoint_store.call, hmigrate, map_ok])⟩
  | snapshot alloc =>
    obtain ⟨_, _, hresult⟩ := bind_eq_ok_iff.mp hrun
    cases hresult
    exact ⟨⟨es, htracks⟩, hsound⟩
  | add alloc name priority code =>
    cases hrun
    exact ⟨⟨es, htracks⟩, hsound⟩
  | put alloc data =>
    cases hrun
    exact ⟨⟨es, htracks⟩, hsound⟩

theorem Reachable.valid {s : container_state} (h : Reachable s) : Valid s := by
  obtain ⟨calls, hrun⟩ := h
  refine foldlM_invariant ?_ valid_init hrun
  intro s m s' hs hcall
  obtain ⟨⟨rc, _⟩, hmutate, rfl⟩ := map_eq_ok_iff.mp hcall
  exact hs.mutate hmutate

end ipmb.containers
