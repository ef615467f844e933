import Ipmb.Replay.Ledger

open fallible heap
open ipmb.event_log ipmb.journal ipmb.session_tracker

namespace ipmb.event_log

/-- The addresses that a snapshot stores. -/
def ipmb_event_snapshot_t.stored (snap : ipmb_event_snapshot_t) : List Nat := snap.entries.filterMap id

/-- All addresses in the log. -/
def ipmb_event_log_t.stored (log : ipmb_event_log_t) : List Nat :=
  log.snapshots.flatMap ipmb_event_snapshot_t.stored

@[simp] theorem stored_snapshot_of (ps : List Nat) : (snapshot_of ps).stored = ps := by
  rw [ipmb_event_snapshot_t.stored, snapshot_of]
  by_cases hps : ps = []
  · simp [hps]
  · simp [hps]

@[simp] theorem stored_push (log : ipmb_event_log_t) (snap : ipmb_event_snapshot_t) :
    (log.push snap).stored = log.stored ++ snap.stored := by
  simp [ipmb_event_log_t.stored, ipmb_event_log_t.push]

end ipmb.event_log

namespace ipmb.replay_engine

/-- What the summary reads: entries that are linked in the tracker, as many as
each snapshot counts. -/
structure LiveLog (state : replay_state) : Prop where
  live : ∀ p ∈ state.log.stored, p ∈ state.tracker.head
  counted : ∀ snap ∈ state.log.snapshots, snap.count = snap.stored.length

/-- The rounds of a replay go through and leave the summary a live log. -/
def ReadsLive (alloc : Nat → Allocator) (journal : ipmb_journal_t) : Prop :=
  ∃ state, journal.records.zipIdx.foldlM (fun state r => replay_record (alloc r.2) state r.1) replay_init =
    .ok state ∧ LiveLog state

/-- What a record has to spare: a session that is terminated must not be in the
log, and a snapshot of a session or more must get its block, unless the log
cannot take it at all. -/
def Spares (alloc : Nat → Allocator) (state : replay_state) (r : ipmb_journal_record_t × Nat) : Prop :=
  (r.1.type = IPMB_JOURNAL_TERMINATE → ∀ p ∈ state.log.stored, ¬Refers state.tracker r.1.session_id p) ∧
  (r.1.type = IPMB_JOURNAL_CHECKPOINT → state.tracker.head = [] ∨ alloc r.2 1 = true ∨
    state.log.snapshots.length = state.log.capacity ∧ alloc r.2 0 = false)

/-- What the log stores is linked, or was released for good. -/
structure Known (state : replay_state) : Prop where
  tracks : ∃ es, Tracks state.tracker es
  known : ∀ p ∈ state.log.stored, p ∈ state.tracker.head ∨ state.tracker.entries.Retired p

theorem known_init : Known replay_init :=
  ⟨⟨[], tracks_init⟩, nofun⟩

theorem liveLog_init : LiveLog replay_init :=
  ⟨nofun, nofun⟩

/-- What is linked is an entry of some session. -/
theorem refers_of_mem {tracker : ipmb_session_tracker_t} {es : List ipmb_session_entry_t}
    (h : Tracks tracker es) {p : Nat} (hp : p ∈ tracker.head) : ∃ sid, Refers tracker sid p := by
  obtain ⟨e, -, hread⟩ := h.holds.read hp
  exact ⟨e.session_id, hp, e, hread, rfl⟩

theorem not_retired_of_mem {tracker : ipmb_session_tracker_t} {es : List ipmb_session_entry_t}
    (h : Tracks tracker es) {p : Nat} (hp : p ∈ tracker.head) : ¬tracker.entries.Retired p := by
  obtain ⟨sid, hrefers⟩ := refers_of_mem h hp
  exact not_retired_of_refers hrefers

section step

variable {state : replay_state} {tracker : ipmb_session_tracker_t} {es : List ipmb_session_entry_t}

/-- A change of the tracker that unlinks entries only as it releases them
keeps the log live exactly when it unlinks none that is stored. -/
theorem Known.with_tracker (h : Known state) (htracks : Tracks tracker es) (event_count : UInt64)
    (hretired : ∀ p, state.tracker.entries.Retired p → tracker.entries.Retired p)
    (hunlinked : ∀ p ∈ state.tracker.head, p ∈ tracker.head ∨ tracker.entries.Retired p) :
    Known { state with tracker, event_count } ∧
      (LiveLog { state with tracker, event_count } ↔
        LiveLog state ∧ ∀ p ∈ state.log.stored, p ∈ state.tracker.head → p ∈ tracker.head) := by
  refine ⟨⟨⟨es, htracks⟩, ?_⟩, ?_, ?_⟩
  · intro p hp
    obtain hlinked | hgone := h.known p hp
    · exact hunlinked p hlinked
    · exact .inr (hretired p hgone)
  · intro ⟨hlive, hcounted⟩
    refine ⟨⟨?_, hcounted⟩, fun p hp _ => hlive p hp⟩
    intro p hp
    obtain hlinked | hgone := h.known p hp
    · exact hlinked
    · exact absurd (hretired p hgone) (not_retired_of_mem htracks (hlive p hp))
  · intro ⟨⟨hlive, hcounted⟩, hkept⟩
    exact ⟨fun p hp => hkept p hp (hlive p hp), hcounted⟩

/-- A snapshot more keeps the log live exactly when it counts what it stores. -/
theorem Known.with_snapshot (h : Known state) (snap : ipmb_event_snapshot_t) (event_count : UInt64)
    (hlinked : ∀ p ∈ snap.stored, p ∈ state.tracker.head) :
    Known { state with log := state.log.push snap, event_count } ∧
      (LiveLog { state with log := state.log.push snap, event_count } ↔
        LiveLog state ∧ snap.count = snap.stored.length) := by
  have hstored : ∀ p, p ∈ (state.log.push snap).stored ↔ p ∈ state.log.stored ∨ p ∈ snap.stored := by
    intro p
    rw [stored_push, List.mem_append]
  refine ⟨⟨h.tracks, ?_⟩, ?_, ?_⟩
  · intro p hp
    obtain hp | hp := (hstored p).mp hp
    · exact h.known p hp
    · exact .inl (hlinked p hp)
  · intro ⟨hlive, hcounted⟩
    refine ⟨⟨fun p hp => hlive p ((hstored p).mpr (.inl hp)), ?_⟩, ?_⟩
    · intro old hold
      exact hcounted old (List.mem_append_left _ hold)
    · exact hcounted snap (List.mem_append_right _ List.mem_cons_self)
  · intro ⟨⟨hlive, hcounted⟩, hcount⟩
    constructor
    · intro p hp
      obtain hp | hp := (hstored p).mp hp
      · exact hlive p hp
      · exact hlinked p hp
    · intro x hx
      obtain hx | hx := List.mem_append.mp hx
      · exact hcounted x hx
      · rw [List.mem_singleton.mp hx, hcount]

/-- What a round of each kind does to a log that is live. -/
theorem replay_upsert_live (h : Known state) (alloc : Nat → Allocator) {r : ipmb_journal_record_t × Nat}
    (hup : Upserts r.1.type) :
    ∃ state', replay_record (alloc r.2) state r.1 = .ok state' ∧ Known state' ∧
      (LiveLog state' ↔ LiveLog state ∧ Spares alloc state r) := by
  obtain ⟨es, htracks⟩ := h.tracks
  obtain ⟨tracker, hrun, htracks', hkeeps⟩ :=
    ipmb_session_upsert_with_spec (alloc r.2) htracks r.1.session_id r.1.peer_id r.1.payload
  have hlinked : ∀ p ∈ state.tracker.head, p ∈ tracker.head := by
    intro p hp
    obtain ⟨sid, hrefers⟩ := refers_of_mem htracks hp
    exact (hkeeps.refers sid p hrefers).1
  obtain ⟨hknown, hiff⟩ := h.with_tracker htracks' (state.event_count + 1) hkeeps.retired
    fun p hp => .inl (hlinked p hp)
  refine ⟨_, replay_record_upsert hup hrun, hknown, ?_⟩
  rw [hiff]
  refine and_congr_right fun _ => iff_of_true (fun p _ hp => hlinked p hp) ⟨?_, ?_⟩
  · intro hterminate
    exact absurd hup (not_upserts_of_terminate hterminate)
  · intro hcheckpoint
    exact absurd hup (not_upserts_of_checkpoint hcheckpoint)

theorem replay_checkpoint_live (h : Known state) (alloc : Nat → Allocator) {r : ipmb_journal_record_t × Nat}
    (hcheckpoint : r.1.type = IPMB_JOURNAL_CHECKPOINT) :
    ∃ state', replay_record (alloc r.2) state r.1 = .ok state' ∧ Known state' ∧
      (LiveLog state' ↔ LiveLog state ∧ Spares alloc state r) := by
  obtain ⟨es, htracks⟩ := h.tracks
  have hspec := ipmb_event_log_snapshot_with_spec (alloc r.2) htracks state.log
  have hspares : Spares alloc state r ↔ (state.tracker.head = [] ∨ alloc r.2 1 = true ∨
      state.log.snapshots.length = state.log.capacity ∧ alloc r.2 0 = false) := by
    refine ⟨fun hspares => hspares.2 hcheckpoint, fun hspares => ⟨?_, fun _ => hspares⟩⟩
    intro hterminate
    exact absurd hcheckpoint (not_checkpoint_of_terminate hterminate)
  rw [hspares]
  split_ifs at hspec with hgrow hblock
  · -- the log stays as it is
    obtain ⟨hknown, hiff⟩ := h.with_tracker htracks (state.event_count + 1) (fun _ hp => hp) fun _ hp => .inl hp
    refine ⟨_, replay_record_checkpoint hcheckpoint hspec, hknown, ?_⟩
    rw [hiff]
    exact and_congr_right fun _ => iff_of_true (fun _ _ hp => hp) (.inr (.inr hgrow))
  · -- the snapshot counts entries and stores none
    have hnone : ∀ p ∈ ({ entries := [], count := state.tracker.head.length } : ipmb_event_snapshot_t).stored,
        p ∈ state.tracker.head := by
      intro p hp
      cases hp
    obtain ⟨hknown, hiff⟩ := h.with_snapshot _ (state.event_count + 1) hnone
    refine ⟨_, replay_record_checkpoint hcheckpoint hspec, hknown, ?_⟩
    rw [hiff]
    refine and_congr_right fun _ => ?_
    change state.tracker.head.length = 0 ↔ _
    rw [List.length_eq_zero_iff, hblock]
    constructor
    · exact .inl
    · intro hor
      obtain hnil | hfalse | hrefused := hor
      · exact hnil
      · cases hfalse
      · exact absurd hrefused hgrow
  · obtain ⟨hknown, hiff⟩ := h.with_snapshot (snapshot_of state.tracker.head) (state.event_count + 1)
      fun p hp => by rwa [stored_snapshot_of] at hp
    refine ⟨_, replay_record_checkpoint hcheckpoint hspec, hknown, ?_⟩
    rw [hiff, stored_snapshot_of]
    exact and_congr_right fun _ => iff_of_true rfl (.inr (.inl (by simpa using hblock)))

theorem replay_terminate_live (h : Known state) (alloc : Nat → Allocator) {r : ipmb_journal_record_t × Nat}
    (hterminate : r.1.type = IPMB_JOURNAL_TERMINATE) :
    ∃ state', replay_record (alloc r.2) state r.1 = .ok state' ∧ Known state' ∧
      (LiveLog state' ↔ LiveLog state ∧ Spares alloc state r) := by
  obtain ⟨es, htracks⟩ := h.tracks
  obtain ⟨tracker, hrun, htracks', hrefers, hretired⟩ := ipmb_session_terminate_spec htracks r.1.session_id
  have hspares : Spares alloc state r ↔
      ∀ p ∈ state.log.stored, ¬Refers state.tracker r.1.session_id p := by
    refine ⟨fun hspares => hspares.1 hterminate, fun hspares => ⟨fun _ => hspares, ?_⟩⟩
    intro hcheckpoint
    exact absurd hcheckpoint (not_checkpoint_of_terminate hterminate)
  have hunlinked : ∀ p ∈ state.tracker.head, p ∈ tracker.head ∨ tracker.entries.Retired p := by
    intro p hp
    obtain ⟨sid, hlinked⟩ := refers_of_mem htracks hp
    have hafter := hrefers sid p hlinked
    split_ifs at hafter
    · exact .inr hafter
    · exact .inl hafter.1
  obtain ⟨hknown, hiff⟩ := h.with_tracker htracks' (state.event_count + 1) hretired hunlinked
  refine ⟨_, replay_record_terminate hterminate hrun, hknown, ?_⟩
  rw [hiff, hspares]
  refine and_congr_right fun _ => forall₂_congr fun p _ => ?_
  constructor
  · intro hkept hlinked
    have hafter := hrefers r.1.session_id p hlinked
    rw [if_pos rfl] at hafter
    exact not_retired_of_mem htracks' (hkept hlinked.1) hafter
  · intro hother hp
    obtain ⟨sid, hlinked⟩ := refers_of_mem htracks hp
    have hafter := hrefers sid p hlinked
    split_ifs at hafter with hsid
    · rw [hsid] at hlinked
      exact absurd hlinked hother
    · exact hafter.1

theorem replay_other_live (h : Known state) (alloc : Nat → Allocator) {r : ipmb_journal_record_t × Nat}
    (hup : ¬Upserts r.1.type) (hcheckpoint : r.1.type ≠ IPMB_JOURNAL_CHECKPOINT)
    (hterminate : r.1.type ≠ IPMB_JOURNAL_TERMINATE) :
    ∃ state', replay_record (alloc r.2) state r.1 = .ok state' ∧ Known state' ∧
      (LiveLog state' ↔ LiveLog state ∧ Spares alloc state r) := by
  obtain ⟨es, htracks⟩ := h.tracks
  obtain ⟨hknown, hiff⟩ := h.with_tracker htracks (state.event_count + 1) (fun _ hp => hp)
    fun _ hp => .inl hp
  refine ⟨_, replay_record_other hup hcheckpoint hterminate, hknown, ?_⟩
  rw [hiff]
  refine and_congr_right fun _ => iff_of_true (fun _ _ hp => hp) ⟨?_, ?_⟩
  · intro h'
    exact absurd h' hterminate
  · intro h'
    exact absurd h' hcheckpoint

/-- A round of the replay leaves the log live exactly when it was and the
record spares it. -/
theorem replay_record_live (h : Known state) (alloc : Nat → Allocator) (r : ipmb_journal_record_t × Nat) :
    ∃ state', replay_record (alloc r.2) state r.1 = .ok state' ∧ Known state' ∧
      (LiveLog state' ↔ LiveLog state ∧ Spares alloc state r) := by
  obtain hup | hcheckpoint | hterminate | ⟨hup, hcheckpoint, hterminate⟩ := record_kind r.1.type
  · exact replay_upsert_live h alloc hup
  · exact replay_checkpoint_live h alloc hcheckpoint
  · exact replay_terminate_live h alloc hterminate
  · exact replay_other_live h alloc hup hcheckpoint hterminate

end step

/-- The summary of a replay reads linked entries only, all that its snapshots
count, exactly when every record of the journal spares the log. -/
theorem ipmb_replay_journal_live_iff (alloc : Nat → Allocator) (journal : ipmb_journal_t) :
    ReadsLive alloc journal ↔
      Guarded (fun state r => replay_record (alloc r.2) state r.1) (Spares alloc) replay_init
        journal.records.zipIdx := by
  obtain ⟨state, hrun, hiff⟩ := foldlM_iff_guarded (P := LiveLog) (G := Spares alloc)
    (fun state r hknown => replay_record_live hknown alloc r) known_init journal.records.zipIdx
  rw [ReadsLive]
  constructor
  · intro ⟨state', hrun', hlive⟩
    rw [hrun] at hrun'
    cases hrun'
    exact (hiff.mp hlive).2
  · intro hguarded
    exact ⟨state, hrun, hiff.mpr ⟨liveLog_init, hguarded⟩⟩

/-- A session that is in a snapshot is terminated. -/
theorem ipmb_replay_journal_reads_released :
    ¬∀ journal : ipmb_journal_t, ReadsLive (fun _ => Allocator.succeeds) journal := by
  intro hall
  obtain ⟨state, hrun, hlive⟩ := hall
    { version := 1
      records := [⟨IPMB_JOURNAL_ESTABLISH, 7, 3, [97, 98, 99]⟩, ⟨IPMB_JOURNAL_CHECKPOINT, 7, 3, []⟩,
        ⟨IPMB_JOURNAL_TERMINATE, 7, 3, []⟩]
      record_count_lt := by decide }
  cases hrun
  have hlinked := hlive.live 0 (by decide)
  cases hlinked

end ipmb.replay_engine
