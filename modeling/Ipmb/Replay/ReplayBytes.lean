import Ipmb.Replay.ReplayByValue
import Ipmb.Session.JournalFormat

open fallible keyed occurs
open ipmb.event_log ipmb.journal ipmb.session_tracker

namespace ipmb.replay_engine

/-- The records that a traversal of a parsed journal visits. -/
def visited (journal : ipmb_journal_memory) : ipmb_journal_t where
  version := journal.version
  records := journal.records.take journal.record_count.toNat
  record_count_lt := lt_of_le_of_lt (List.length_take_le _ _) journal.record_count.toNat_lt

/-- The summary behind the pointer is written by a replay only. -/
def ipmb_replay_bytes (alloc : Allocator) (rounds : Nat → Allocator) (data : List UInt8)
    (summary : ipmb_replay_summary_t) : Except Fault (ipmb_status_t × ipmb_replay_summary_t) :=
  let (rc, journal) := ipmb_journal_parse alloc data
  if rc ≠ .IPMB_OK then .ok (rc, summary)
  else ipmb_replay_journal rounds (visited journal)

/-- What a replay takes from a record. -/
inductive replay_event where
  | update (session_id : UInt32)
  | note
  | remove (session_id : UInt32)
  | none
  deriving DecidableEq

def event_of (r : ipmb_journal_record_t) : replay_event :=
  if Upserts r.type then .update r.session_id
  else if r.type = IPMB_JOURNAL_CHECKPOINT then .note
  else if r.type = IPMB_JOURNAL_TERMINATE then .remove r.session_id
  else .none

/-- The sessions with their numbers of updates, and those noted. -/
structure Tally where
  counts : List (UInt32 × UInt64)
  noted : List (UInt32 × UInt64)

def Ledger.tally (l : Ledger) : Tally :=
  { counts := l.live.map fun e => (e.session_id, e.updates), noted := l.noted }

def Tally.count (t : Tally) : replay_event → Tally
  | .update sid =>
    { t with
      counts :=
        if sid ∈ t.counts.map Prod.fst then t.counts.map fun c => if c.1 = sid then (c.1, c.2 + 1) else c
        else (sid, 1) :: t.counts }
  | .note => { t with noted := t.noted ++ t.counts }
  | .remove sid => { t with counts := t.counts.filter fun c => c.1 ≠ sid }
  | .none => t

theorem tally_upserted (l : Ledger) (sid peer_id : UInt32) (payload : List UInt8) :
    Ledger.tally { l with live := upserted sid peer_id payload l.live } = l.tally.count (.update sid) := by
  rw [Ledger.tally, Tally.count, upserted]
  have hids : (l.tally.counts.map Prod.fst) = ids l.live := by
    rw [Ledger.tally, List.map_map]
    rfl
  rw [hids]
  by_cases hpresent : sid ∈ ids l.live
  · rw [if_pos hpresent, if_pos hpresent]
    simp only [Ledger.tally, List.map_map]
    congr 1
    apply List.map_congr_left
    intro e _
    simp only [Function.comp_apply]
    split <;> rfl
  · rw [if_neg hpresent, if_neg hpresent]
    rfl

/-- A record changes the tally by its event. -/
theorem tally_record (l : Ledger) (r : ipmb_journal_record_t) : (l.record r).tally = l.tally.count (event_of r) := by
  rw [Ledger.record, event_of]
  by_cases hup : Upserts r.type
  · rw [if_pos hup, if_pos hup]
    exact tally_upserted l _ _ _
  rw [if_neg hup, if_neg hup]
  by_cases hcheckpoint : r.type = IPMB_JOURNAL_CHECKPOINT
  · rw [if_pos hcheckpoint, if_pos hcheckpoint]
    rfl
  rw [if_neg hcheckpoint, if_neg hcheckpoint]
  by_cases hterminate : r.type = IPMB_JOURNAL_TERMINATE
  · rw [if_pos hterminate, if_pos hterminate, Ledger.tally, Tally.count, terminated]
    simp only [Ledger.tally, List.filter_map]
    rfl
  · rw [if_neg hterminate, if_neg hterminate]
    rfl

def tally_of (events : List replay_event) : Tally := events.foldl Tally.count { counts := [], noted := [] }

theorem tally_of_snoc (events : List replay_event) (e : replay_event) :
    tally_of (events ++ [e]) = (tally_of events).count e := by
  rw [tally_of, List.foldl_append]
  rfl

/-- A replay counts by events. -/
theorem tally_ledger (rs : List ipmb_journal_record_t) : (ledger rs).tally = tally_of (rs.map event_of) := by
  induction rs using List.reverseRecOn with
  | nil => rfl
  | append_singleton rs r ih => rw [ledger_snoc, tally_record, ih, List.map_append, List.map_singleton, tally_of_snoc]

/-- A session that was noted is removed. -/
def Loses (events : List replay_event) : Prop :=
  Occurs (fun before e => ∃ sid, e = .remove sid ∧ sid ∈ (tally_of before).noted.map Prod.fst) events

theorem event_of_eq_remove_iff {r : ipmb_journal_record_t} {sid : UInt32} :
    event_of r = .remove sid ↔ r.type = IPMB_JOURNAL_TERMINATE ∧ r.session_id = sid := by
  rw [event_of]
  by_cases hterminate : r.type = IPMB_JOURNAL_TERMINATE
  · rw [if_neg (not_upserts_of_terminate hterminate), if_neg (not_checkpoint_of_terminate hterminate),
      if_pos hterminate]
    simp [hterminate]
  · refine iff_of_false ?_ fun h => hterminate h.1
    rw [if_neg hterminate]
    split
    · nofun
    split
    · nofun
    · nofun

theorem hits_iff_loses (rs : List ipmb_journal_record_t) :
    Hits (· = IPMB_JOURNAL_TERMINATE) rs ↔ Loses (rs.map event_of) := by
  induction rs using List.reverseRecOn with
  | nil => exact iff_of_false hits_nil occurs_nil
  | append_singleton rs r ih =>
    have hnoted : (tally_of (rs.map event_of)).noted = (ledger rs).noted := by rw [← tally_ledger, Ledger.tally]
    rw [hits_snoc, ih, List.map_append, List.map_singleton, Loses, Loses, occurs_snoc, hnoted]
    simp only [event_of_eq_remove_iff, and_assoc, exists_and_left, exists_eq_left']

/-- The noted sessions with the counts that they have in the end. -/
def Tally.summary (t : Tally) : List (UInt32 × UInt64) :=
  t.noted.map fun n => (n.1, ((lookup Prod.fst n.1 t.counts).map Prod.snd).getD 0)

theorem pairs_at_end_eq (rs : List ipmb_journal_record_t) :
    pairs_at_end rs = (tally_of (rs.map event_of)).summary := by
  have hcounts (sid : UInt32) :
      ((lookup Prod.fst sid (ledger rs).tally.counts).map Prod.snd).getD 0 = updates_of (ledger rs).live sid := by
    rw [updates_of, Ledger.tally, lookup, List.find?_map, Option.map_map]
    rfl
  rw [pairs_at_end, Tally.summary, ← tally_ledger]
  simp only [hcounts]
  rfl

/-- The events of a journal on the wire. -/
def journal_events (j : WireJournal) : List replay_event := j.contents.records.map event_of

theorem visited_memory (j : WireJournal) : visited j.memory = j.contents := by
  have hword : (UInt16.ofNat j.contents.records.length).toNat = j.contents.records.length :=
    UInt16.toNat_ofNat_of_lt' j.contents.record_count_lt
  have hrecords : j.memory.records.take j.memory.record_count.toNat = j.contents.records := by
    rw [WireJournal.memory]
    dsimp only
    rw [hword, List.take_length]
  rw [visited]
  simp only [hrecords]
  rfl

section bytes

variable {suffix : List UInt8} {before : ipmb_replay_summary_t}

theorem ipmb_replay_bytes_eq (j : WireJournal) (suffix : List UInt8) (before : ipmb_replay_summary_t) :
    ipmb_replay_bytes Allocator.succeeds (fun _ => Allocator.succeeds) (j.enc ++ suffix) before =
      ipmb_replay_journal (fun _ => Allocator.succeeds) j.contents := by
  rw [ipmb_replay_bytes, ipmb_journal_parse_complete]
  dsimp only
  rw [if_neg (not_not.mpr rfl), visited_memory]

theorem ipmb_replay_bytes_loses {j : WireJournal} (h : Loses (journal_events j)) :
    ipmb_replay_bytes Allocator.succeeds (fun _ => Allocator.succeeds) (j.enc ++ suffix) before =
      .error .useAfterFree := by
  rw [ipmb_replay_bytes_eq, (ipmb_replay_journal_spec j.contents).1 ((hits_iff_loses _).mpr h)]

theorem ipmb_replay_bytes_keeps {j : WireJournal} (h : ¬Loses (journal_events j)) :
    ipmb_replay_bytes Allocator.succeeds (fun _ => Allocator.succeeds) (j.enc ++ suffix) before =
      .ok (.IPMB_OK, { event_count := UInt64.ofNat (journal_events j).length
                       summary_hash := summarize_pairs (tally_of (journal_events j)).summary }) := by
  have hkept : ¬Hits (· = IPMB_JOURNAL_TERMINATE) j.contents.records := fun hhits => h ((hits_iff_loses _).mp hhits)
  rw [ipmb_replay_bytes_eq, (ipmb_replay_journal_spec j.contents).2 hkept, pairs_at_end_eq, journal_events,
    List.length_map]

/-- Bytes that no journal starts are refused. -/
theorem ipmb_replay_bytes_refuses {data : List UInt8} (before : ipmb_replay_summary_t)
    (h : ¬∃ (j : WireJournal) (suffix : List UInt8), data = j.enc ++ suffix) :
    ∃ rc, rc ≠ .IPMB_OK ∧
      ipmb_replay_bytes Allocator.succeeds (fun _ => Allocator.succeeds) data before = .ok (rc, before) := by
  refine ⟨(ipmb_journal_parse Allocator.succeeds data).1, ?_, ?_⟩
  · intro hok
    obtain ⟨j, _, suffix, hdata⟩ := ipmb_journal_parse_sound (Prod.ext hok rfl)
    exact h ⟨j, suffix, hdata⟩
  · rw [ipmb_replay_bytes]
    dsimp only
    rw [if_pos]
    intro hok
    obtain ⟨j, _, suffix, hdata⟩ := ipmb_journal_parse_sound (Prod.ext hok rfl)
    exact h ⟨j, suffix, hdata⟩

end bytes

/-- A replay of bytes, by what the bytes hold: the summary of the events of the
journal that they start with, or a read of a released entry if these remove a
session that was noted; otherwise a refusal that leaves the summary as it was. -/
theorem ipmb_replay_bytes_by_contents (data : List UInt8) (before : ipmb_replay_summary_t) :
    (∀ summary,
      ipmb_replay_bytes Allocator.succeeds (fun _ => Allocator.succeeds) data before = .ok (.IPMB_OK, summary) ↔
      ∃ (j : WireJournal) (suffix : List UInt8), data = j.enc ++ suffix ∧ ¬Loses (journal_events j) ∧
        summary = { event_count := UInt64.ofNat (journal_events j).length
                    summary_hash := summarize_pairs (tally_of (journal_events j)).summary }) ∧
    (∀ e, ipmb_replay_bytes Allocator.succeeds (fun _ => Allocator.succeeds) data before = .error e ↔
      e = .useAfterFree ∧
        ∃ (j : WireJournal) (suffix : List UInt8), data = j.enc ++ suffix ∧ Loses (journal_events j)) ∧
    ((¬∃ (j : WireJournal) (suffix : List UInt8), data = j.enc ++ suffix) →
      ∃ rc, rc ≠ .IPMB_OK ∧
        ipmb_replay_bytes Allocator.succeeds (fun _ => Allocator.succeeds) data before = .ok (rc, before)) := by
  refine ⟨fun summary => ⟨fun hrun => ?_, ?_⟩, fun e => ⟨fun hrun => ?_, ?_⟩, ipmb_replay_bytes_refuses before⟩
  · by_cases hholds : ∃ (j : WireJournal) (suffix : List UInt8), data = j.enc ++ suffix
    · obtain ⟨j, suffix, rfl⟩ := hholds
      by_cases hloses : Loses (journal_events j)
      · rw [ipmb_replay_bytes_loses hloses] at hrun
        cases hrun
      · rw [ipmb_replay_bytes_keeps hloses] at hrun
        cases hrun
        exact ⟨j, suffix, rfl, hloses, rfl⟩
    · obtain ⟨rc, hrc, hrefused⟩ := ipmb_replay_bytes_refuses before hholds
      rw [hrefused] at hrun
      cases hrun
      exact absurd rfl hrc
  · rintro ⟨j, suffix, rfl, hkeeps, rfl⟩
    exact ipmb_replay_bytes_keeps hkeeps
  · by_cases hholds : ∃ (j : WireJournal) (suffix : List UInt8), data = j.enc ++ suffix
    · obtain ⟨j, suffix, rfl⟩ := hholds
      by_cases hloses : Loses (journal_events j)
      · rw [ipmb_replay_bytes_loses hloses] at hrun
        cases hrun
        exact ⟨rfl, j, suffix, rfl, hloses⟩
      · rw [ipmb_replay_bytes_keeps hloses] at hrun
        cases hrun
    · obtain ⟨rc, hrc, hrefused⟩ := ipmb_replay_bytes_refuses before hholds
      rw [hrefused] at hrun
      cases hrun
  · rintro ⟨rfl, j, suffix, rfl, hloses⟩
    exact ipmb_replay_bytes_loses hloses

/-- Two journals with the same events replay alike: the peers, the payloads, the
version, which of the updating types a record has and what follows the journal do
not matter. -/
theorem ipmb_replay_bytes_same_events (j j' : WireJournal) (h : journal_events j = journal_events j')
    (suffix suffix' : List UInt8) (before before' : ipmb_replay_summary_t) :
    ipmb_replay_bytes Allocator.succeeds (fun _ => Allocator.succeeds) (j.enc ++ suffix) before =
      ipmb_replay_bytes Allocator.succeeds (fun _ => Allocator.succeeds) (j'.enc ++ suffix') before' := by
  by_cases hloses : Loses (journal_events j)
  · rw [ipmb_replay_bytes_loses hloses, ipmb_replay_bytes_loses (h ▸ hloses)]
  · rw [ipmb_replay_bytes_keeps hloses, ipmb_replay_bytes_keeps (h ▸ hloses), h]

/-- A journal of some version in which session 7 comes up and is noted. -/
def noted_session (version : UInt16) (type : UInt8) (peer_id : UInt32) (byte : UInt8) : WireJournal where
  contents :=
    { version
      records := [{ type, session_id := 7, peer_id, payload := [byte] },
        { type := IPMB_JOURNAL_CHECKPOINT, session_id := 0, peer_id, payload := [] }]
      record_count_lt := by simp }
  records_le := by simp [MAX_RECORDS]
  payload_lt := by simp

theorem establish_replays_as_update :
    ipmb_replay_bytes Allocator.succeeds (fun _ => Allocator.succeeds)
        ((noted_session 1 IPMB_JOURNAL_ESTABLISH 3 0x61).enc ++ [0xff]) { event_count := 0, summary_hash := 0 } =
      ipmb_replay_bytes Allocator.succeeds (fun _ => Allocator.succeeds)
        ((noted_session 2 IPMB_JOURNAL_UPDATE 4 0x62).enc ++ []) { event_count := 7, summary_hash := 9 } :=
  ipmb_replay_bytes_same_events _ _ (by decide) [0xff] [] _ _

end ipmb.replay_engine
