import Ipmb.Replay.Ledger

open fallible heap keyed occurs
open ipmb.event_log ipmb.journal ipmb.session_tracker

namespace ipmb.replay_engine

/-- The status of what a round calls, which the round does not look at. -/
def inner_status (alloc : Allocator) (state : replay_state) (r : ipmb_journal_record_t) :
    Except Fault ipmb_status_t :=
  if Upserts r.type then
    Prod.fst <$> ipmb_session_upsert alloc state.tracker r.session_id r.peer_id r.payload
  else if r.type = IPMB_JOURNAL_CHECKPOINT then
    Prod.fst <$> ipmb_event_log_snapshot alloc state.log state.tracker
  else .ok .IPMB_OK

/-- The rounds of a replay. -/
def replay_records (alloc : Nat → Allocator) (rs : List ipmb_journal_record_t) : Except Fault replay_state :=
  rs.zipIdx.foldlM (fun state r => replay_record (alloc r.2) state r.1) replay_init

/-- Some round calls an upsert or a snapshot that fails. -/
def InnerFails (alloc : Nat → Allocator) (rs : List ipmb_journal_record_t) : Prop :=
  Occurs (fun before r => ∃ state rc, replay_records alloc before = .ok state ∧
    inner_status (alloc before.length) state r = .ok rc ∧ rc ≠ .IPMB_OK) rs

/-- A replay that reports success has the summary of one in which no allocation
fails, and one whose inner calls fail reports that it failed. -/
def ReportsFailures (alloc : Nat → Allocator) (journal : ipmb_journal_t) : Prop :=
  (∀ summary, ipmb_replay_journal alloc journal = .ok (.IPMB_OK, summary) →
    ipmb_replay_journal (fun _ => Allocator.succeeds) journal = .ok (.IPMB_OK, summary)) ∧
  (InnerFails alloc journal.records →
    ∃ rc summary, ipmb_replay_journal alloc journal = .ok (rc, summary) ∧ rc ≠ .IPMB_OK)

/-- The room in the log after some snapshots. -/
def log_capacity : Nat → Nat
  | 0 => 0
  | n + 1 =>
    if n = log_capacity n then
      if log_capacity n = 0 then 4 else log_capacity n * 2
    else log_capacity n

def checkpoints (rs : List ipmb_journal_record_t) : Nat :=
  rs.countP fun r => r.type = IPMB_JOURNAL_CHECKPOINT

/-- The allocations that a record asks for after others: those for a session
that is new and for a payload, those for a log that is full and for a snapshot. -/
inductive Asks (before : List ipmb_journal_record_t) (r : ipmb_journal_record_t) : Nat → Prop where
  | entry : Upserts r.type → r.session_id ∉ ids (ledger before).live → Asks before r 0
  | state : Upserts r.type → r.payload ≠ [] → Asks before r 1
  | log : r.type = IPMB_JOURNAL_CHECKPOINT → checkpoints before = log_capacity (checkpoints before) →
      Asks before r 0
  | snapshot : r.type = IPMB_JOURNAL_CHECKPOINT → Asks before r 1

/-- Some allocation that a journal asks for is refused. -/
def Refused (alloc : Nat → Allocator) (rs : List ipmb_journal_record_t) : Prop :=
  Occurs (fun before r => ∃ k, Asks before r k ∧ alloc before.length k = false) rs

/-- The state after records all of whose allocations were granted. -/
structure Granted (rs : List ipmb_journal_record_t) (state : replay_state) : Prop where
  replays : Replays rs state
  snapshots : state.log.snapshots.length = checkpoints rs
  capacity : state.log.capacity = log_capacity (checkpoints rs)

theorem granted_init : Granted [] replay_init :=
  ⟨replays_init, rfl, rfl⟩

theorem checkpoints_snoc (rs : List ipmb_journal_record_t) (r : ipmb_journal_record_t) :
    checkpoints (rs ++ [r]) = if r.type = IPMB_JOURNAL_CHECKPOINT then checkpoints rs + 1 else checkpoints rs := by
  rw [checkpoints, List.countP_append, List.countP_singleton, ← checkpoints]
  split_ifs <;> simp_all

theorem replay_records_snoc (alloc : Nat → Allocator) (rs : List ipmb_journal_record_t)
    (r : ipmb_journal_record_t) :
    replay_records alloc (rs ++ [r]) =
      replay_records alloc rs >>= fun state => replay_record (alloc rs.length) state r := by
  rw [replay_records, List.zipIdx_append, List.foldlM_append, ← replay_records, Nat.zero_add]
  congr 1
  funext state
  rw [List.zipIdx_singleton, List.foldlM_cons]
  cases replay_record (alloc rs.length) state r <;> rfl

theorem refused_snoc {alloc : Nat → Allocator} {rs : List ipmb_journal_record_t} {r : ipmb_journal_record_t} :
    Refused alloc (rs ++ [r]) ↔ Refused alloc rs ∨ ∃ k, Asks rs r k ∧ alloc rs.length k = false := occurs_snoc

theorem innerFails_snoc {alloc : Nat → Allocator} {rs : List ipmb_journal_record_t} {r : ipmb_journal_record_t} :
    InnerFails alloc (rs ++ [r]) ↔ InnerFails alloc rs ∨ ∃ state rc, replay_records alloc rs = .ok state ∧
      inner_status (alloc rs.length) state r = .ok rc ∧ rc ≠ .IPMB_OK := occurs_snoc

section step

variable {rs : List ipmb_journal_record_t} {state : replay_state} {r : ipmb_journal_record_t}

/-- Only a checkpoint adds to the log. -/
theorem log_of_replay_record {state' : replay_state} {es : List ipmb_session_entry_t}
    (h : Tracks state.tracker es) (hrun : replay_record Allocator.succeeds state r = .ok state') :
    state'.log = if r.type = IPMB_JOURNAL_CHECKPOINT then state.log.push (snapshot_of state.tracker.head)
      else state.log := by
  obtain hup | hcheckpoint | hterminate | ⟨hup, hcheckpoint, hterminate⟩ := record_kind r.type
  · obtain ⟨tracker, hupsert, -⟩ := ipmb_session_upsert_spec h r.session_id r.peer_id r.payload
    rw [replay_record_upsert hup hupsert] at hrun
    cases hrun
    rw [if_neg fun hcheckpoint => not_upserts_of_checkpoint hcheckpoint hup]
  · rw [replay_record_checkpoint hcheckpoint (ipmb_event_log_snapshot_succeeds h state.log)] at hrun
    cases hrun
    rw [if_pos hcheckpoint]
  · obtain ⟨tracker, hterm, -⟩ := ipmb_session_terminate_spec h r.session_id
    rw [replay_record_terminate hterminate hterm] at hrun
    cases hrun
    rw [if_neg (not_checkpoint_of_terminate hterminate)]
  · rw [replay_record_other hup hcheckpoint hterminate] at hrun
    cases hrun
    rw [if_neg hcheckpoint]

/-- A round whose allocations succeed keeps what is known of the room. -/
theorem Granted.snoc (h : Granted rs state) (r : ipmb_journal_record_t) :
    ∃ state', replay_record Allocator.succeeds state r = .ok state' ∧ Granted (rs ++ [r]) state' := by
  obtain ⟨state', hrun, hreplays⟩ := replay_record_spec h.replays r
  have hlog := log_of_replay_record h.replays.tracks hrun
  refine ⟨state', hrun, hreplays, ?_, ?_⟩
  · rw [hlog, checkpoints_snoc]
    split_ifs
    · rw [← h.snapshots, ipmb_event_log_t.push, List.length_append, List.length_singleton]
    · exact h.snapshots
  · rw [hlog, checkpoints_snoc]
    split_ifs
    · rw [log_capacity, ← h.capacity, ← h.snapshots, ipmb_event_log_t.push]
    · exact h.capacity

theorem asks_upsert (hup : Upserts r.type) (alloc : Allocator) :
    (∃ k, Asks rs r k ∧ alloc k = false) ↔
      r.session_id ∉ ids (ledger rs).live ∧ alloc 0 = false ∨ r.payload ≠ [] ∧ alloc 1 = false := by
  constructor
  · intro ⟨k, hasks, hrefused⟩
    cases hasks with
    | entry _ hnew => exact .inl ⟨hnew, hrefused⟩
    | state _ hpayload => exact .inr ⟨hpayload, hrefused⟩
    | log hcheckpoint => exact absurd hup (not_upserts_of_checkpoint hcheckpoint)
    | snapshot hcheckpoint => exact absurd hup (not_upserts_of_checkpoint hcheckpoint)
  · intro hor
    obtain ⟨hnew, hrefused⟩ | ⟨hpayload, hrefused⟩ := hor
    · exact ⟨0, .entry hup hnew, hrefused⟩
    · exact ⟨1, .state hup hpayload, hrefused⟩

theorem asks_checkpoint (h : Granted rs state) (hcheckpoint : r.type = IPMB_JOURNAL_CHECKPOINT)
    (alloc : Allocator) :
    (∃ k, Asks rs r k ∧ alloc k = false) ↔
      state.log.snapshots.length = state.log.capacity ∧ alloc 0 = false ∨ alloc 1 = false := by
  rw [h.snapshots, h.capacity]
  constructor
  · intro ⟨k, hasks, hrefused⟩
    cases hasks with
    | entry hup => exact absurd hup (not_upserts_of_checkpoint hcheckpoint)
    | state hup => exact absurd hup (not_upserts_of_checkpoint hcheckpoint)
    | log _ hfull => exact .inl ⟨hfull, hrefused⟩
    | snapshot => exact .inr hrefused
  · intro hor
    obtain ⟨hfull, hrefused⟩ | hrefused := hor
    · exact ⟨0, .log hcheckpoint hfull, hrefused⟩
    · exact ⟨1, .snapshot hcheckpoint, hrefused⟩

/-- Other records ask for nothing. -/
theorem not_asks_other (hup : ¬Upserts r.type) (hcheckpoint : r.type ≠ IPMB_JOURNAL_CHECKPOINT) (k : Nat) :
    ¬Asks rs r k := by
  intro hasks
  cases hasks with
  | entry h => exact hup h
  | state h => exact hup h
  | log h => exact hcheckpoint h
  | snapshot h => exact hcheckpoint h

/-- An inner call fails exactly when something it asks for is refused. -/
theorem inner_status_spec (h : Granted rs state) (alloc : Allocator) (r : ipmb_journal_record_t) :
    ∃ rc, inner_status alloc state r = .ok rc ∧ (rc ≠ .IPMB_OK ↔ ∃ k, Asks rs r k ∧ alloc k = false) := by
  rw [inner_status]
  by_cases hup : Upserts r.type
  · obtain ⟨tracker, hrun, -⟩ :=
      ipmb_session_upsert_with_spec alloc h.replays.tracks r.session_id r.peer_id r.payload
    rw [if_pos hup, hrun, map_ok, asks_upsert hup]
    exact ⟨_, rfl, upserted_with_fails_iff alloc r.session_id r.peer_id r.payload (ledger rs).live⟩
  · rw [if_neg hup]
    by_cases hcheckpoint : r.type = IPMB_JOURNAL_CHECKPOINT
    · rw [if_pos hcheckpoint, ipmb_event_log_snapshot_with_spec alloc h.replays.tracks, map_ok,
        asks_checkpoint h hcheckpoint]
      refine ⟨_, rfl, ?_⟩
      split_ifs with hgrow hblock
      · exact iff_of_true (by simp) (.inl hgrow)
      · exact iff_of_true (by simp) (.inr hblock)
      · exact iff_of_false (by simp) (not_or.mpr ⟨hgrow, hblock⟩)
    · rw [if_neg hcheckpoint]
      refine ⟨_, rfl, iff_of_false (by simp) ?_⟩
      intro ⟨k, hasks, _⟩
      exact not_asks_other hup hcheckpoint k hasks

/-- A round that gets all it asks for is one whose allocations succeed. -/
theorem replay_record_granted (h : Granted rs state) {alloc : Allocator}
    (hgranted : ¬∃ k, Asks rs r k ∧ alloc k = false) :
    replay_record alloc state r = replay_record Allocator.succeeds state r := by
  rw [replay_record, replay_record]
  by_cases hup : Upserts r.type
  · rw [asks_upsert hup, not_or] at hgranted
    rw [if_pos hup, if_pos hup, ipmb_session_upsert_granted h.replays.tracks hgranted.1 hgranted.2]
  · rw [if_neg hup, if_neg hup]
    by_cases hcheckpoint : r.type = IPMB_JOURNAL_CHECKPOINT
    · rw [asks_checkpoint h hcheckpoint, not_or] at hgranted
      rw [if_pos hcheckpoint, if_pos hcheckpoint, ipmb_event_log_snapshot_succeeds h.replays.tracks,
        ipmb_event_log_snapshot_with_spec alloc h.replays.tracks, if_neg hgranted.1, if_neg hgranted.2]
    · rw [if_neg hcheckpoint, if_neg hcheckpoint]

end step

/-- Up to the first allocation that is refused the rounds are those of a
replay in which none fails. -/
theorem replay_records_granted {alloc : Nat → Allocator} {rs : List ipmb_journal_record_t}
    (h : ¬Refused alloc rs) :
    ∃ state, replay_records alloc rs = .ok state ∧
      replay_records (fun _ => Allocator.succeeds) rs = .ok state ∧ Granted rs state := by
  induction rs using List.reverseRecOn with
  | nil => exact ⟨replay_init, rfl, rfl, granted_init⟩
  | append_singleton rs r ih =>
    rw [refused_snoc, not_or] at h
    obtain ⟨hbefore, hlast⟩ := h
    obtain ⟨state, hrun, hclean, hgranted⟩ := ih hbefore
    obtain ⟨state', hstep, hgranted'⟩ := hgranted.snoc r
    refine ⟨state', ?_, ?_, hgranted'⟩
    · rw [replay_records_snoc, hrun, ok_bind, replay_record_granted hgranted hlast, hstep]
    · rw [replay_records_snoc, hclean, ok_bind, hstep]

/-- Inner calls fail in the replays that are refused an allocation. -/
theorem innerFails_iff (alloc : Nat → Allocator) (rs : List ipmb_journal_record_t) :
    InnerFails alloc rs ↔ Refused alloc rs := by
  induction rs using List.reverseRecOn with
  | nil => exact iff_of_false occurs_nil occurs_nil
  | append_singleton rs r ih =>
    rw [innerFails_snoc, ih, refused_snoc]
    by_cases hrefused : Refused alloc rs
    · exact iff_of_true (.inl hrefused) (.inl hrefused)
    · obtain ⟨state, hrun, -, hgranted⟩ := replay_records_granted hrefused
      obtain ⟨rc, hstatus, hiff⟩ := inner_status_spec hgranted (alloc rs.length) r
      refine or_congr_right ?_
      rw [← hiff]
      constructor
      · intro ⟨state', rc', hrun', hstatus', hne⟩
        rw [hrun] at hrun'
        cases hrun'
        rw [hstatus] at hstatus'
        cases hstatus'
        exact hne
      · intro hne
        exact ⟨state, rc, hrun, hstatus, hne⟩

/-- A replay that comes to an end reports success. -/
theorem ipmb_replay_journal_status {alloc : Nat → Allocator} {journal : ipmb_journal_t} {rc : ipmb_status_t}
    {summary : ipmb_replay_summary_t} (h : ipmb_replay_journal alloc journal = .ok (rc, summary)) :
    rc = .IPMB_OK := by
  rw [ipmb_replay_journal] at h
  obtain ⟨state, -, h⟩ := bind_eq_ok_iff.mp h
  obtain ⟨summary_hash, -, h⟩ := bind_eq_ok_iff.mp h
  obtain ⟨tracker, -, h⟩ := bind_eq_ok_iff.mp h
  cases h
  rfl

/-- Since the statuses of the inner calls are dropped, a replay reports its
failures exactly when there are none: when no allocation is refused that the
journal asks for. -/
theorem ipmb_replay_journal_reports_iff (alloc : Nat → Allocator) (journal : ipmb_journal_t) :
    ReportsFailures alloc journal ↔ ¬Refused alloc journal.records := by
  constructor
  · intro ⟨_, hreports⟩ hrefused
    obtain ⟨rc, summary, hrun, hne⟩ := hreports ((innerFails_iff alloc journal.records).mpr hrefused)
    exact hne (ipmb_replay_journal_status hrun)
  · intro hgranted
    obtain ⟨state, hrun, hclean, -⟩ := replay_records_granted hgranted
    refine ⟨?_, ?_⟩
    · intro summary hok
      rw [replay_records] at hrun hclean
      rw [ipmb_replay_journal, hrun] at hok
      rw [ipmb_replay_journal, hclean]
      exact hok
    · intro hfails
      exact absurd ((innerFails_iff alloc journal.records).mp hfails) hgranted

/-- Without memory for its session a journal is replayed to another summary. -/
theorem ipmb_replay_journal_hides :
    ¬∀ (alloc : Nat → Allocator) (journal : ipmb_journal_t), ReportsFailures alloc journal := by
  intro hall
  obtain ⟨hsame, -⟩ := hall (fun n _ => n != 0)
    { version := 1
      records := [⟨IPMB_JOURNAL_ESTABLISH, 7, 3, [97, 98, 99]⟩, ⟨IPMB_JOURNAL_CHECKPOINT, 7, 3, []⟩]
      record_count_lt := by decide }
  have hrun := hsame _ rfl
  revert hrun
  decide

end ipmb.replay_engine
