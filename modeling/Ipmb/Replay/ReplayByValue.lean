import Ipmb.Replay.Ledger

open fallible heap keyed
open ipmb.event_log ipmb.journal ipmb.session_tracker

namespace ipmb.replay_engine

/-- How often a session was updated. -/
def updates_of (live : List ipmb_session_entry_t) (sid : UInt32) : UInt64 :=
  ((lookup ipmb_session_entry_t.session_id sid live).map ipmb_session_entry_t.updates).getD 0

theorem updates_of_mem {live : List ipmb_session_entry_t} (hnodup : (ids live).Nodup) {e : ipmb_session_entry_t}
    (he : e ∈ live) : updates_of live e.session_id = e.updates := by
  rw [updates_of, lookup_of_mem hnodup he]
  rfl

theorem ids_upserted {sid peer_id : UInt32} {payload : List UInt8} {live : List ipmb_session_entry_t} {k : UInt32}
    (hk : k ∈ ids live) : k ∈ ids (upserted sid peer_id payload live) := by
  rw [upserted]
  split
  · rw [ids, List.map_map]
    obtain ⟨e, he, rfl⟩ := List.mem_map.mp hk
    refine List.mem_map.mpr ⟨e, he, ?_⟩
    rw [Function.comp_apply]
    split <;> rfl
  · exact List.mem_cons_of_mem _ hk

/-- An upsert counts for the session it names. -/
theorem updates_of_upserted {sid peer_id : UInt32} {payload : List UInt8} {live : List ipmb_session_entry_t}
    {k : UInt32} (hk : k ∈ ids live) :
    updates_of (upserted sid peer_id payload live) k =
      if k = sid then updates_of live k + 1 else updates_of live k := by
  rw [updates_of, lookup_upserted, updates_of]
  split_ifs with hsid
  · cases hlookup : lookup ipmb_session_entry_t.session_id k live with
    | none => exact absurd hk (lookup_eq_none_iff_notMem.mp hlookup)
    | some e => rfl
  · rfl

theorem updates_of_terminated {sid k : UInt32} (live : List ipmb_session_entry_t) (hne : k ≠ sid) :
    updates_of (terminated sid live) k = updates_of live k := by
  rw [updates_of, lookup_terminated, if_neg hne, updates_of]

theorem ledger_distinct (rs : List ipmb_journal_record_t) : (ids (ledger rs).live).Nodup := by
  obtain ⟨state, _, hreplays⟩ := replay_records_spec rs
  exact hreplays.tracks.distinct

/-- What became of the counts that the checkpoints noted: none decreased, and
one that increased belongs to a session that was updated since. -/
structure Drifts (rs : List ipmb_journal_record_t) : Prop where
  live : ∀ n ∈ (ledger rs).noted, n.1 ∈ ids (ledger rs).live
  bound : ∀ n ∈ (ledger rs).noted, (updates_of (ledger rs).live n.1 - n.2).toNat ≤ rs.length
  changed : (∃ n ∈ (ledger rs).noted, updates_of (ledger rs).live n.1 ≠ n.2) ↔ Hits Upserts rs

theorem sub_toNat_succ {a b : UInt64} {n : Nat} (h : (a - b).toNat ≤ n) (hn : n + 1 < 2 ^ 64) :
    (a + 1 - b).toNat = (a - b).toNat + 1 := by
  have hcomm : a + 1 - b = a - b + 1 := by grind
  rw [hcomm, UInt64.toNat_add]
  have hone : (1 : UInt64).toNat = 1 := rfl
  omega

theorem Drifts.upsert {rs : List ipmb_journal_record_t} {r : ipmb_journal_record_t} (h : Drifts rs)
    (hlength : rs.length + 1 < 2 ^ 64) (hup : Upserts r.type) : Drifts (rs ++ [r]) := by
  have hledger : ledger (rs ++ [r]) = _ := ledger_upsert hup
  have hupdates : ∀ n ∈ (ledger rs).noted, updates_of (ledger (rs ++ [r])).live n.1 =
      if n.1 = r.session_id then updates_of (ledger rs).live n.1 + 1 else updates_of (ledger rs).live n.1 := by
    intro n hn
    rw [hledger]
    exact updates_of_upserted (h.live n hn)
  have hnoted : (ledger (rs ++ [r])).noted = (ledger rs).noted := by rw [hledger]
  have hmoved : ∀ n ∈ (ledger rs).noted, n.1 = r.session_id →
      updates_of (ledger (rs ++ [r])).live n.1 ≠ n.2 := by
    intro n hn hsid heq
    have hnext := sub_toNat_succ (h.bound n hn) hlength
    rw [hupdates n hn, if_pos hsid] at heq
    rw [heq, UInt64.sub_self] at hnext
    cases hnext
  refine ⟨?_, ?_, ?_⟩
  · rw [hnoted]
    intro n hn
    rw [hledger]
    exact ids_upserted (h.live n hn)
  · rw [hnoted]
    intro n hn
    have hbound := h.bound n hn
    rw [hupdates n hn, List.length_append, List.length_singleton]
    split
    · rw [sub_toNat_succ hbound hlength]
      omega
    · omega
  · rw [hits_snoc, ← h.changed, hnoted]
    constructor
    · rintro ⟨n, hn, hne⟩
      by_cases hsid : n.1 = r.session_id
      · exact .inr ⟨hup, by rw [← hsid]; exact List.mem_map_of_mem hn⟩
      · rw [hupdates n hn, if_neg hsid] at hne
        exact .inl ⟨n, hn, hne⟩
    · rintro (⟨n, hn, hne⟩ | ⟨_, hmem⟩)
      · refine ⟨n, hn, ?_⟩
        by_cases hsid : n.1 = r.session_id
        · exact hmoved n hn hsid
        · rw [hupdates n hn, if_neg hsid]
          exact hne
      · obtain ⟨n, hn, hsid⟩ := List.mem_map.mp hmem
        exact ⟨n, hn, hmoved n hn hsid⟩

theorem Drifts.checkpoint {rs : List ipmb_journal_record_t} {r : ipmb_journal_record_t} (h : Drifts rs)
    (hcheckpoint : r.type = IPMB_JOURNAL_CHECKPOINT) : Drifts (rs ++ [r]) := by
  have hledger : ledger (rs ++ [r]) = _ := ledger_checkpoint hcheckpoint
  have hcurrent : ∀ e ∈ (ledger rs).live, updates_of (ledger rs).live e.session_id = e.updates :=
    fun e he => updates_of_mem (ledger_distinct rs) he
  have hnoted : ∀ n ∈ (ledger (rs ++ [r])).noted, n ∈ (ledger rs).noted ∨
      n.1 ∈ ids (ledger rs).live ∧ updates_of (ledger rs).live n.1 = n.2 := by
    intro n hn
    rw [hledger] at hn
    obtain hn | hn := List.mem_append.mp hn
    · exact .inl hn
    · obtain ⟨e, he, rfl⟩ := List.mem_map.mp hn
      exact .inr ⟨List.mem_map_of_mem he, hcurrent e he⟩
  have hlive : (ledger (rs ++ [r])).live = (ledger rs).live := by rw [hledger]
  refine ⟨?_, ?_, ?_⟩
  · rw [hlive]
    intro n hn
    exact (hnoted n hn).elim (h.live n) And.left
  · rw [hlive]
    intro n hn
    rw [List.length_append, List.length_singleton]
    obtain hold | ⟨_, hnew⟩ := hnoted n hn
    · have hbound := h.bound n hold
      omega
    · rw [hnew, UInt64.sub_self]
      exact Nat.zero_le _
  · rw [hits_snoc, ← h.changed, hlive]
    constructor
    · rintro ⟨n, hn, hne⟩
      obtain hold | ⟨_, hnew⟩ := hnoted n hn
      · exact .inl ⟨n, hold, hne⟩
      · exact absurd hnew hne
    · rintro (⟨n, hn, hne⟩ | ⟨hupserts, _⟩)
      · refine ⟨n, ?_, hne⟩
        rw [hledger]
        exact List.mem_append_left _ hn
      · exact absurd hupserts (not_upserts_of_checkpoint hcheckpoint)

/-- A record that leaves the noted sessions alone. -/
theorem Drifts.quiet {rs : List ipmb_journal_record_t} {r : ipmb_journal_record_t} (h : Drifts rs)
    (hup : ¬Upserts r.type) (hnoted : (ledger (rs ++ [r])).noted = (ledger rs).noted)
    (hlive : ∀ n ∈ (ledger rs).noted, n.1 ∈ ids (ledger (rs ++ [r])).live ∧
      updates_of (ledger (rs ++ [r])).live n.1 = updates_of (ledger rs).live n.1) : Drifts (rs ++ [r]) := by
  refine ⟨?_, ?_, ?_⟩
  · rw [hnoted]
    exact fun n hn => (hlive n hn).1
  · rw [hnoted]
    intro n hn
    have hbound := h.bound n hn
    rw [(hlive n hn).2, List.length_append, List.length_singleton]
    omega
  · rw [hits_snoc, ← h.changed, hnoted]
    constructor
    · rintro ⟨n, hn, hne⟩
      rw [(hlive n hn).2] at hne
      exact .inl ⟨n, hn, hne⟩
    · rintro (⟨n, hn, hne⟩ | ⟨hupserts, _⟩)
      · refine ⟨n, hn, ?_⟩
        rw [(hlive n hn).2]
        exact hne
      · exact absurd hupserts hup

theorem Drifts.terminate {rs : List ipmb_journal_record_t} {r : ipmb_journal_record_t} (h : Drifts rs)
    (hterminate : r.type = IPMB_JOURNAL_TERMINATE)
    (hspared : r.session_id ∉ noted_ids rs) : Drifts (rs ++ [r]) := by
  have hledger : ledger (rs ++ [r]) = _ := ledger_terminate hterminate
  refine h.quiet (not_upserts_of_terminate hterminate) (by rw [hledger]) ?_
  intro n hn
  have hne : n.1 ≠ r.session_id := by
    intro heq
    exact hspared (by rw [← heq]; exact List.mem_map_of_mem hn)
  rw [hledger]
  refine ⟨?_, updates_of_terminated _ hne⟩
  obtain ⟨e, he, hkey⟩ := List.mem_map.mp (h.live n hn)
  refine List.mem_map.mpr ⟨e, List.mem_filter.mpr ⟨he, ?_⟩, hkey⟩
  rw [hkey]
  exact decide_eq_true hne

/-- While no noted session is terminated the counts drift. -/
theorem drifts_of_kept {rs : List ipmb_journal_record_t} (hlength : rs.length < 2 ^ 64)
    (hkept : ¬Hits (· = IPMB_JOURNAL_TERMINATE) rs) : Drifts rs := by
  induction rs using List.reverseRecOn with
  | nil =>
    refine ⟨nofun, nofun, iff_of_false ?_ hits_nil⟩
    rintro ⟨n, hn, _⟩
    cases hn
  | append_singleton rs r ih =>
    rw [List.length_append, List.length_singleton] at hlength
    rw [hits_snoc, not_or] at hkept
    have hdrifts := ih (by omega) hkept.1
    obtain hup | hcheckpoint | hterminate | ⟨hup, hcheckpoint, hterminate⟩ := record_kind r.type
    · exact hdrifts.upsert hlength hup
    · exact hdrifts.checkpoint hcheckpoint
    · exact hdrifts.terminate hterminate fun hmem => hkept.2 ⟨hterminate, hmem⟩
    · have hledger : ledger (rs ++ [r]) = _ := ledger_other hup hcheckpoint hterminate
      refine hdrifts.quiet hup (by rw [hledger]) fun n hn => ?_
      rw [hledger]
      exact ⟨hdrifts.live n hn, rfl⟩

/-- The noted sessions with the counts they have in the end. -/
def pairs_at_end (rs : List ipmb_journal_record_t) : List (UInt32 × UInt64) :=
  (ledger rs).noted.map fun n => (n.1, updates_of (ledger rs).live n.1)

/-- The hash of sessions and counts, one pair after the other. -/
def summarize_pairs (ns : List (UInt32 × UInt64)) : UInt64 :=
  ns.foldl (fun h n => mix (mix h n.1.toUInt64) n.2) 1469598103934665603

/-- The counts in the end are those noted exactly when no noted session was
updated since. -/
theorem pairs_at_end_eq_iff {rs : List ipmb_journal_record_t} (h : Drifts rs) :
    pairs_at_end rs = (ledger rs).noted ↔ ¬Hits Upserts rs := by
  rw [← h.changed, pairs_at_end]
  constructor
  · rintro hpairs ⟨n, hn, hne⟩
    rw [← List.map_id (ledger rs).noted, List.map_map, List.map_inj_left] at hpairs
    exact hne (congrArg Prod.snd (hpairs n hn))
  · intro hsame
    conv_rhs => rw [← List.map_id (ledger rs).noted]
    apply List.map_congr_left
    intro n hn
    have heq : updates_of (ledger rs).live n.1 = n.2 := by
      by_contra hne
      exact hsame ⟨n, hn, hne⟩
    rw [heq, id_eq]

/-- What refers to a session reads its entry. -/
theorem entry_of_refers {tracker : ipmb_session_tracker_t} {es : List ipmb_session_entry_t}
    (h : Tracks tracker es) {session_id : UInt32} {p : Nat} (hrefers : Refers tracker session_id p) :
    ∃ e, entry tracker.entries p = .ok e ∧ e.session_id = session_id ∧ e.updates = updates_of es session_id := by
  obtain ⟨hlinked, e, hread, hsid⟩ := hrefers
  obtain ⟨x, hx, hxread⟩ := h.holds.read hlinked
  obtain rfl : x = e := Option.some.inj (hxread.symm.trans hread)
  refine ⟨x, entry_of_read hread, hsid, ?_⟩
  rw [← hsid, updates_of_mem h.distinct hx]

theorem entry_of_retired {entries : Heap ipmb_session_entry_t} {p : Nat} (h : entries.Retired p) :
    entry entries p = .error .useAfterFree := by
  rw [entry, h.read]

/-- A replay hashes the counts that the noted sessions have in the end, and
reads an entry that is no more where one of them was terminated. -/
theorem ipmb_replay_journal_spec (journal : ipmb_journal_t) :
    (Hits (· = IPMB_JOURNAL_TERMINATE) journal.records →
      ipmb_replay_journal (fun _ => Allocator.succeeds) journal = .error .useAfterFree) ∧
    (¬Hits (· = IPMB_JOURNAL_TERMINATE) journal.records →
      ipmb_replay_journal (fun _ => Allocator.succeeds) journal = .ok (.IPMB_OK,
        { event_count := UInt64.ofNat journal.records.length,
          summary_hash := summarize_pairs (pairs_at_end journal.records) })) := by
  obtain ⟨state, hrun, hreplays⟩ := replay_records_spec journal.records
  obtain ⟨refs, hlogged⟩ := hreplays.logged
  have hstate : journal.records.zipIdx.foldlM
      (fun state r => replay_record Allocator.succeeds state r.1) replay_init = .ok state := by
    rw [foldlM_zipIdx, hrun]
  have hsummary := ipmb_event_log_summarize_eq state.tracker hlogged.records
  rw [List.foldlM_map] at hsummary
  constructor
  · intro hlost
    obtain ⟨ref, href, hretired⟩ := hlogged.lost.mpr hlost
    have hfault : ∀ hash ref, state.tracker.entries.Retired ref →
        summarize_entry hash <$> entry state.tracker.entries ref = .error .useAfterFree := by
      intro hash p hp
      rw [entry_of_retired hp]
      rfl
    rw [ipmb_replay_journal]
    simp only [hstate, ok_bind, hsummary]
    rw [foldlM_error_of_mem (e := .useAfterFree) ?_ href (fun hash => hfault hash _ hretired), error_bind]
    intro hash x hx
    obtain hrefers | hgone := hlogged.notes x hx
    · obtain ⟨e, he, _⟩ := entry_of_refers hreplays.tracks hrefers
      exact .inl ⟨_, by rw [he, map_ok]⟩
    · exact .inr (hfault hash _ hgone)
  · intro hkept
    have hreads : ∀ hash, ∀ ref ∈ refs, summarize_entry hash <$> entry state.tracker.entries ref.1 =
        .ok (mix (mix hash ref.2.1.toUInt64) (updates_of (ledger journal.records).live ref.2.1)) := by
      intro hash ref href
      have hrefers := (hlogged.notes ref href).resolve_right fun hgone =>
        hkept (hlogged.lost.mp ⟨ref, href, hgone⟩)
      obtain ⟨e, he, hsid, hupdates⟩ := entry_of_refers hreplays.tracks hrefers
      rw [he, map_ok, summarize_entry, hsid, hupdates]
    obtain ⟨tracker, hfree, -⟩ := ipmb_session_tracker_free_spec hreplays.tracks
    have hhash : summarize_pairs (pairs_at_end journal.records) = refs.foldl (fun hash ref =>
        mix (mix hash ref.2.1.toUInt64) (updates_of (ledger journal.records).live ref.2.1))
          1469598103934665603 := by
      rw [summarize_pairs, pairs_at_end, ← hlogged.noted, List.map_map, List.foldl_map]
      rfl
    rw [ipmb_replay_journal]
    simp only [hstate, ok_bind, hsummary, foldlM_eq_foldl hreads, hfree, hreplays.event_count, hhash, pure_eq_ok]

/-- No session that a checkpoint noted is updated or terminated after it. -/
def Settled (rs : List ipmb_journal_record_t) : Prop :=
  ¬Hits (fun type => Upserts type ∨ type = IPMB_JOURNAL_TERMINATE) rs

theorem settled_iff {journal : ipmb_journal_t} (hkept : ¬Hits (· = IPMB_JOURNAL_TERMINATE) journal.records) :
    Settled journal.records ↔ pairs_at_end journal.records = (ledger journal.records).noted := by
  have hlength := journal.record_count_lt
  rw [pairs_at_end_eq_iff (drifts_of_kept (by omega) hkept), Settled, hits_or, or_iff_left hkept]

/-- Where no noted session is touched later the summary is that of snapshots by value.
Anywhere else an entry is read that is no more, or other pairs are hashed than those
noted. -/
theorem ipmb_replay_journal_by_value (journal : ipmb_journal_t) :
    (Settled journal.records →
      ∃ summary, ipmb_replay_journal (fun _ => Allocator.succeeds) journal = .ok (.IPMB_OK, summary) ∧
        summary.summary_hash = summarize_pairs (ledger journal.records).noted) ∧
    (¬Settled journal.records →
      ipmb_replay_journal (fun _ => Allocator.succeeds) journal = .error .useAfterFree ∨
        pairs_at_end journal.records ≠ (ledger journal.records).noted ∧
          ∃ summary, ipmb_replay_journal (fun _ => Allocator.succeeds) journal = .ok (.IPMB_OK, summary) ∧
            summary.summary_hash = summarize_pairs (pairs_at_end journal.records)) := by
  obtain ⟨hlost, hkept⟩ := ipmb_replay_journal_spec journal
  by_cases hhits : Hits (· = IPMB_JOURNAL_TERMINATE) journal.records
  · refine ⟨fun hsettled => ?_, fun _ => .inl (hlost hhits)⟩
    exact absurd (hits_or.mpr (.inr hhits)) hsettled
  · have hrun := hkept hhits
    rw [settled_iff hhits]
    refine ⟨fun hpairs => ⟨_, hrun, ?_⟩, fun hpairs => .inr ⟨hpairs, _, hrun, rfl⟩⟩
    rw [hpairs]

/-- An update after a checkpoint shows in its snapshot. -/
theorem ipmb_replay_journal_aliases :
    ¬∀ journal : ipmb_journal_t, ∃ summary,
      ipmb_replay_journal (fun _ => Allocator.succeeds) journal = .ok (.IPMB_OK, summary) ∧
        summary.summary_hash = summarize_pairs (ledger journal.records).noted := by
  intro hall
  obtain ⟨summary, hrun, hhash⟩ := hall
    { version := 1
      records := [⟨IPMB_JOURNAL_ESTABLISH, 7, 3, [97, 98, 99]⟩, ⟨IPMB_JOURNAL_CHECKPOINT, 7, 3, []⟩,
        ⟨IPMB_JOURNAL_UPDATE, 7, 3, [100]⟩]
      record_count_lt := by decide }
  cases hrun
  revert hhash
  decide

end ipmb.replay_engine
