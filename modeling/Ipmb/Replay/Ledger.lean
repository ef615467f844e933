import Ipmb.Replay.ReplayEngine
import Ipmb.Support.Occurs

open fallible heap keyed occurs
open ipmb.event_log ipmb.journal ipmb.session_tracker

namespace ipmb.replay_engine

/-- A replay as it is meant to be: the entries as values, and for every
checkpoint the session and the number of updates of each entry at that time. -/
structure Ledger where
  live : List ipmb_session_entry_t
  noted : List (UInt32 × UInt64)
  deriving DecidableEq

def Ledger.record (l : Ledger) (r : ipmb_journal_record_t) : Ledger :=
  if Upserts r.type then { l with live := upserted r.session_id r.peer_id r.payload l.live }
  else if r.type = IPMB_JOURNAL_CHECKPOINT then
    { l with noted := l.noted ++ l.live.map fun e => (e.session_id, e.updates) }
  else if r.type = IPMB_JOURNAL_TERMINATE then { l with live := terminated r.session_id l.live }
  else l

def ledger (rs : List ipmb_journal_record_t) : Ledger := rs.foldl Ledger.record { live := [], noted := [] }

theorem ledger_snoc (rs : List ipmb_journal_record_t) (r : ipmb_journal_record_t) :
    ledger (rs ++ [r]) = (ledger rs).record r := by
  rw [ledger, List.foldl_append]
  rfl

/-- The sessions noted so far. -/
abbrev noted_ids (rs : List ipmb_journal_record_t) : List UInt32 := (ledger rs).noted.map Prod.fst

/-- Some record of a kind names a session that an earlier checkpoint noted. -/
def Hits (kind : UInt8 → Prop) (rs : List ipmb_journal_record_t) : Prop :=
  ∃ before r after, rs = before ++ r :: after ∧ kind r.type ∧ r.session_id ∈ noted_ids before

theorem hits_nil {kind : UInt8 → Prop} : ¬Hits kind [] := occurs_nil

theorem hits_snoc {kind : UInt8 → Prop} {rs : List ipmb_journal_record_t} {r : ipmb_journal_record_t} :
    Hits kind (rs ++ [r]) ↔ Hits kind rs ∨ kind r.type ∧ r.session_id ∈ noted_ids rs := occurs_snoc

theorem hits_or {kind kind' : UInt8 → Prop} {rs : List ipmb_journal_record_t} :
    Hits (fun type => kind type ∨ kind' type) rs ↔ Hits kind rs ∨ Hits kind' rs := by
  have hor := occurs_or (fun before r => kind r.type ∧ r.session_id ∈ noted_ids before)
    (fun before r => kind' r.type ∧ r.session_id ∈ noted_ids before) rs
  simp only [← or_and_right] at hor
  exact hor

theorem not_upserts_of_checkpoint {type : UInt8} (h : type = IPMB_JOURNAL_CHECKPOINT) : ¬Upserts type := by
  rw [h]
  decide

theorem not_upserts_of_terminate {type : UInt8} (h : type = IPMB_JOURNAL_TERMINATE) : ¬Upserts type := by
  rw [h]
  decide

theorem not_checkpoint_of_terminate {type : UInt8} (h : type = IPMB_JOURNAL_TERMINATE) :
    type ≠ IPMB_JOURNAL_CHECKPOINT := by
  rw [h]
  decide

/-- What a record can ask for. -/
theorem record_kind (type : UInt8) :
    Upserts type ∨ type = IPMB_JOURNAL_CHECKPOINT ∨ type = IPMB_JOURNAL_TERMINATE ∨
      ¬Upserts type ∧ type ≠ IPMB_JOURNAL_CHECKPOINT ∧ type ≠ IPMB_JOURNAL_TERMINATE := by
  by_cases hup : Upserts type
  · exact .inl hup
  · by_cases hcheckpoint : type = IPMB_JOURNAL_CHECKPOINT
    · exact .inr (.inl hcheckpoint)
    · by_cases hterminate : type = IPMB_JOURNAL_TERMINATE
      · exact .inr (.inr (.inl hterminate))
      · exact .inr (.inr (.inr ⟨hup, hcheckpoint, hterminate⟩))

section round

variable {alloc : Allocator} {state : replay_state} {r : ipmb_journal_record_t} {rc : ipmb_status_t}

/-- A round by the kind of its record, once the call it makes has gone through. -/
theorem replay_record_upsert {tracker : ipmb_session_tracker_t} (hup : Upserts r.type)
    (hrun : ipmb_session_upsert alloc state.tracker r.session_id r.peer_id r.payload = .ok (rc, tracker)) :
    replay_record alloc state r = .ok { state with tracker, event_count := state.event_count + 1 } := by
  rw [replay_record, if_pos hup, hrun]
  rfl

theorem replay_record_checkpoint {log : ipmb_event_log_t} (hcheckpoint : r.type = IPMB_JOURNAL_CHECKPOINT)
    (hrun : ipmb_event_log_snapshot alloc state.log state.tracker = .ok (rc, log)) :
    replay_record alloc state r = .ok { state with log, event_count := state.event_count + 1 } := by
  rw [replay_record, if_neg (not_upserts_of_checkpoint hcheckpoint), if_pos hcheckpoint, hrun]
  rfl

theorem replay_record_terminate {tracker : ipmb_session_tracker_t}
    (hterminate : r.type = IPMB_JOURNAL_TERMINATE)
    (hrun : ipmb_session_terminate state.tracker r.session_id = .ok (rc, tracker)) :
    replay_record alloc state r = .ok { state with tracker, event_count := state.event_count + 1 } := by
  rw [replay_record, if_neg (not_upserts_of_terminate hterminate),
    if_neg (not_checkpoint_of_terminate hterminate), if_pos hterminate, hrun]
  rfl

theorem replay_record_other (hup : ¬Upserts r.type) (hcheckpoint : r.type ≠ IPMB_JOURNAL_CHECKPOINT)
    (hterminate : r.type ≠ IPMB_JOURNAL_TERMINATE) :
    replay_record alloc state r = .ok { state with event_count := state.event_count + 1 } := by
  rw [replay_record, if_neg hup, if_neg hcheckpoint, if_neg hterminate, pure_eq_ok]

end round

section ledger

variable {rs : List ipmb_journal_record_t} {r : ipmb_journal_record_t}

theorem ledger_upsert (hup : Upserts r.type) : ledger (rs ++ [r]) =
    { ledger rs with live := upserted r.session_id r.peer_id r.payload (ledger rs).live } := by
  rw [ledger_snoc, Ledger.record, if_pos hup]

theorem ledger_checkpoint (hcheckpoint : r.type = IPMB_JOURNAL_CHECKPOINT) : ledger (rs ++ [r]) =
    { ledger rs with
      noted := (ledger rs).noted ++ (ledger rs).live.map fun e => (e.session_id, e.updates) } := by
  rw [ledger_snoc, Ledger.record, if_neg (not_upserts_of_checkpoint hcheckpoint), if_pos hcheckpoint]

theorem ledger_terminate (hterminate : r.type = IPMB_JOURNAL_TERMINATE) : ledger (rs ++ [r]) =
    { ledger rs with live := terminated r.session_id (ledger rs).live } := by
  rw [ledger_snoc, Ledger.record, if_neg (not_upserts_of_terminate hterminate),
    if_neg (not_checkpoint_of_terminate hterminate), if_pos hterminate]

theorem ledger_other (hup : ¬Upserts r.type) (hcheckpoint : r.type ≠ IPMB_JOURNAL_CHECKPOINT)
    (hterminate : r.type ≠ IPMB_JOURNAL_TERMINATE) : ledger (rs ++ [r]) = ledger rs := by
  rw [ledger_snoc, Ledger.record, if_neg hup, if_neg hcheckpoint, if_neg hterminate]

end ledger

/-- What a noted address is to the tracker: an entry of the session, or none
any more. -/
def Notes (tracker : ipmb_session_tracker_t) (p : Nat) (sid : UInt32) : Prop :=
  Refers tracker sid p ∨ tracker.entries.Retired p

theorem not_retired_of_refers {tracker : ipmb_session_tracker_t} {sid : UInt32} {p : Nat}
    (h : Refers tracker sid p) : ¬tracker.entries.Retired p := by
  obtain ⟨_, e, hread, _⟩ := h
  intro hretired
  rw [hretired.read] at hread
  cases hread

/-- The log holds an address for each session noted, which is released if the
session was terminated since. -/
structure Logged (state : replay_state) (rs : List ipmb_journal_record_t)
    (refs : List (Nat × UInt32 × UInt64)) : Prop where
  records : Records state.log (refs.map Prod.fst)
  noted : refs.map Prod.snd = (ledger rs).noted
  notes : ∀ ref ∈ refs, Notes state.tracker ref.1 ref.2.1
  lost : (∃ ref ∈ refs, state.tracker.entries.Retired ref.1) ↔ Hits (· = IPMB_JOURNAL_TERMINATE) rs

/-- The state after some records. -/
structure Replays (rs : List ipmb_journal_record_t) (state : replay_state) : Prop where
  tracks : Tracks state.tracker (ledger rs).live
  event_count : state.event_count = UInt64.ofNat rs.length
  logged : ∃ refs, Logged state rs refs

theorem replays_init : Replays [] replay_init :=
  ⟨tracks_init, rfl, [], records_init, rfl, by simp, by simp [hits_nil]⟩

section step

variable {rs : List ipmb_journal_record_t} {state : replay_state} {r : ipmb_journal_record_t}

theorem event_count_snoc (h : Replays rs state) :
    state.event_count + 1 = UInt64.ofNat (rs ++ [r]).length := by
  rw [h.event_count, List.length_append, List.length_singleton, UInt64.ofNat_add]
  rfl

theorem replay_upsert (h : Replays rs state) (hup : Upserts r.type) :
    ∃ state', replay_record Allocator.succeeds state r = .ok state' ∧ Replays (rs ++ [r]) state' := by
  obtain ⟨tracker, hrun, htracks, hkeeps⟩ :=
    ipmb_session_upsert_spec h.tracks r.session_id r.peer_id r.payload
  obtain ⟨refs, hlogged⟩ := h.logged
  refine ⟨_, replay_record_upsert hup hrun, ?_, event_count_snoc h, refs, ?_⟩
  · rw [ledger_upsert hup]
    exact htracks
  · refine ⟨hlogged.records, by rw [ledger_upsert hup]; exact hlogged.noted, ?_, ?_⟩
    · intro ref href
      exact (hlogged.notes ref href).imp (hkeeps.refers _ _) (hkeeps.retired _)
    · rw [hits_snoc, ← hlogged.lost]
      constructor
      · rintro ⟨ref, href, hretired⟩
        refine .inl ⟨ref, href, (hlogged.notes ref href).resolve_left fun hrefers => ?_⟩
        exact not_retired_of_refers (hkeeps.refers _ _ hrefers) hretired
      · rintro (⟨ref, href, hretired⟩ | ⟨hterminate, _⟩)
        · exact ⟨ref, href, hkeeps.retired _ hretired⟩
        · exact absurd hup (not_upserts_of_terminate hterminate)

theorem replay_checkpoint (h : Replays rs state) (hcheckpoint : r.type = IPMB_JOURNAL_CHECKPOINT) :
    ∃ state', replay_record Allocator.succeeds state r = .ok state' ∧ Replays (rs ++ [r]) state' := by
  obtain ⟨refs, hlogged⟩ := h.logged
  obtain ⟨log, hrun, hrecords⟩ := ipmb_event_log_snapshot_spec h.tracks hlogged.records
  have hlength := h.tracks.holds.length
  refine ⟨_, replay_record_checkpoint hcheckpoint hrun, ?_, event_count_snoc h,
    refs ++ state.tracker.head.zip ((ledger rs).live.map fun e => (e.session_id, e.updates)), ?_⟩
  · rw [ledger_checkpoint hcheckpoint]
    exact h.tracks
  · have hnew : ∀ ref ∈ state.tracker.head.zip ((ledger rs).live.map fun e => (e.session_id, e.updates)),
        Refers state.tracker ref.2.1 ref.1 := by
      intro ref href
      rw [List.zip_map_right] at href
      obtain ⟨⟨p, e⟩, hmem, rfl⟩ := List.mem_map.mp href
      obtain ⟨hp, hread⟩ := h.tracks.holds.zip hmem
      exact ⟨hp, e, hread, rfl⟩
    refine ⟨?_, ?_, ?_, ?_⟩
    · rw [List.map_append, List.map_fst_zip (by simp [hlength])]
      exact hrecords
    · rw [List.map_append, List.map_snd_zip (by simp [hlength]), hlogged.noted, ledger_checkpoint hcheckpoint]
    · intro ref href
      obtain href | href := List.mem_append.mp href
      · exact hlogged.notes ref href
      · exact .inl (hnew ref href)
    · rw [hits_snoc, ← hlogged.lost]
      constructor
      · rintro ⟨ref, href, hretired⟩
        obtain href | href := List.mem_append.mp href
        · exact .inl ⟨ref, href, hretired⟩
        · exact absurd hretired (not_retired_of_refers (hnew ref href))
      · rintro (⟨ref, href, hretired⟩ | ⟨hterminate, _⟩)
        · exact ⟨ref, List.mem_append_left _ href, hretired⟩
        · exact absurd hcheckpoint (not_checkpoint_of_terminate hterminate)

theorem replay_terminate (h : Replays rs state) (hterminate : r.type = IPMB_JOURNAL_TERMINATE) :
    ∃ state', replay_record Allocator.succeeds state r = .ok state' ∧ Replays (rs ++ [r]) state' := by
  obtain ⟨refs, hlogged⟩ := h.logged
  obtain ⟨tracker, hrun, htracks, hrefers, hretired⟩ :=
    ipmb_session_terminate_spec h.tracks r.session_id
  refine ⟨_, replay_record_terminate hterminate hrun, ?_, event_count_snoc h, refs, ?_⟩
  · rw [ledger_terminate hterminate]
    exact htracks
  · refine ⟨hlogged.records, by rw [ledger_terminate hterminate]; exact hlogged.noted, ?_, ?_⟩
    · intro ref href
      obtain hlinked | hgone := hlogged.notes ref href
      · have hafter := hrefers _ _ hlinked
        split at hafter
        · exact .inr hafter
        · exact .inl hafter
      · exact .inr (hretired _ hgone)
    · rw [hits_snoc, ← hlogged.lost, noted_ids, ← hlogged.noted]
      constructor
      · rintro ⟨ref, href, hgone⟩
        obtain hlinked | hwas := hlogged.notes ref href
        · have hafter := hrefers _ _ hlinked
          by_cases hsid : ref.2.1 = r.session_id
          · refine .inr ⟨hterminate, ?_⟩
            rw [← hsid, List.map_map]
            exact List.mem_map_of_mem href
          · rw [if_neg hsid] at hafter
            exact absurd hgone (not_retired_of_refers hafter)
        · exact .inl ⟨ref, href, hwas⟩
      · rintro (⟨ref, href, hwas⟩ | ⟨_, hmem⟩)
        · exact ⟨ref, href, hretired _ hwas⟩
        · rw [List.map_map] at hmem
          obtain ⟨ref, href, hsid⟩ := List.mem_map.mp hmem
          refine ⟨ref, href, ?_⟩
          obtain hlinked | hwas := hlogged.notes ref href
          · have hafter := hrefers _ _ hlinked
            rwa [if_pos (show ref.2.1 = r.session_id from hsid)] at hafter
          · exact hretired _ hwas

theorem replay_other (h : Replays rs state) (hup : ¬Upserts r.type)
    (hcheckpoint : r.type ≠ IPMB_JOURNAL_CHECKPOINT) (hterminate : r.type ≠ IPMB_JOURNAL_TERMINATE) :
    ∃ state', replay_record Allocator.succeeds state r = .ok state' ∧ Replays (rs ++ [r]) state' := by
  obtain ⟨refs, hlogged⟩ := h.logged
  refine ⟨_, replay_record_other hup hcheckpoint hterminate, ?_, event_count_snoc h, refs,
    hlogged.records, by rw [ledger_other hup hcheckpoint hterminate]; exact hlogged.noted, hlogged.notes, ?_⟩
  · rw [ledger_other hup hcheckpoint hterminate]
    exact h.tracks
  · rw [hits_snoc, hlogged.lost]
    exact ⟨.inl, fun hor => hor.resolve_right fun hr => hterminate hr.1⟩

/-- What a round of the replay loop keeps. -/
theorem replay_record_spec (h : Replays rs state) (r : ipmb_journal_record_t) :
    ∃ state', replay_record Allocator.succeeds state r = .ok state' ∧ Replays (rs ++ [r]) state' := by
  obtain hup | hcheckpoint | hterminate | ⟨hup, hcheckpoint, hterminate⟩ := record_kind r.type
  · exact replay_upsert h hup
  · exact replay_checkpoint h hcheckpoint
  · exact replay_terminate h hterminate
  · exact replay_other h hup hcheckpoint hterminate

end step

/-- Every run of the replay loop keeps the ledger. -/
theorem replay_records_spec (rs : List ipmb_journal_record_t) :
    ∃ state, rs.foldlM (replay_record Allocator.succeeds) replay_init = .ok state ∧ Replays rs state := by
  induction rs using List.reverseRecOn with
  | nil => exact ⟨replay_init, rfl, replays_init⟩
  | append_singleton rs r ih =>
    obtain ⟨state, hrun, hreplays⟩ := ih
    obtain ⟨state', hstep, hreplays'⟩ := replay_record_spec hreplays r
    refine ⟨state', ?_, hreplays'⟩
    rw [List.foldlM_append, hrun, ok_bind, List.foldlM_cons, hstep, ok_bind, List.foldlM_nil, pure_eq_ok]

end ipmb.replay_engine
