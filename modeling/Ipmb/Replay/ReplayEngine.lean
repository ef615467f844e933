import Ipmb.Replay.EventLog
import Ipmb.Session.Journal

open ipmb.event_log ipmb.journal ipmb.session_tracker

namespace ipmb.replay_engine

structure ipmb_replay_summary_t where
  event_count : UInt64
  summary_hash : UInt64
  deriving Repr, DecidableEq

/-- The local variables of a replay. -/
structure replay_state where
  tracker : ipmb_session_tracker_t
  log : ipmb_event_log_t
  event_count : UInt64
  deriving Repr, DecidableEq

def replay_init : replay_state :=
  { tracker := ipmb_session_tracker_init, log := ipmb_event_log_init, event_count := 0 }

/-- The types of the records that update a session. -/
def Upserts (type : UInt8) : Prop :=
  type = IPMB_JOURNAL_ESTABLISH ∨ type = IPMB_JOURNAL_UPDATE ∨ type = IPMB_JOURNAL_MIGRATE

instance (type : UInt8) : Decidable (Upserts type) := inferInstanceAs (Decidable (_ ∨ _ ∨ _))

/-- A round of the replay loop. The status of what it calls is not looked at. -/
def replay_record (alloc : Allocator) (state : replay_state) (r : ipmb_journal_record_t) :
    Except Fault replay_state := do
  let event_count := state.event_count + 1
  if Upserts r.type then
    let (_, tracker) ← ipmb_session_upsert alloc state.tracker r.session_id r.peer_id r.payload
    pure { state with tracker, event_count }
  else if r.type = IPMB_JOURNAL_CHECKPOINT then
    let (_, log) ← ipmb_event_log_snapshot alloc state.log state.tracker
    pure { state with log, event_count }
  else if r.type = IPMB_JOURNAL_TERMINATE then
    let (_, tracker) ← ipmb_session_terminate state.tracker r.session_id
    pure { state with tracker, event_count }
  else pure { state with event_count }

/-- Every round has its own allocations. The log is freed too, whose blocks are
nobody else's. -/
def ipmb_replay_journal (alloc : Nat → Allocator) (journal : ipmb_journal_t) :
    Except Fault (ipmb_status_t × ipmb_replay_summary_t) := do
  let state ← journal.records.zipIdx.foldlM (fun state r => replay_record (alloc r.2) state r.1) replay_init
  let summary_hash ← ipmb_event_log_summarize state.tracker state.log
  let _ ← ipmb_session_tracker_free state.tracker
  pure (.IPMB_OK, { event_count := state.event_count, summary_hash })

end ipmb.replay_engine
