import Ipmb.Session.TrackerRefinement
import Mathlib.Data.List.DropRight

open fallible heap keyed

namespace ipmb.session_tracker

/-- A call that changes a tracker. -/
inductive Call where
  | upsert (session_id peer_id : UInt32) (payload : List UInt8)
  | terminate (session_id : UInt32)
  deriving DecidableEq

/-- The session that a call names. -/
def Call.session_id : Call → UInt32
  | .upsert session_id _ _ => session_id
  | .terminate session_id => session_id

/-- A call with memory for all it needs. -/
def call (tracker : ipmb_session_tracker_t) : Call → Except Fault ipmb_session_tracker_t
  | .upsert session_id peer_id payload =>
    Prod.snd <$> ipmb_session_upsert Allocator.succeeds tracker session_id peer_id payload
  | .terminate session_id => Prod.snd <$> ipmb_session_terminate tracker session_id

/-- What a call contributes to a session that it upserts: peer and payload. -/
def Call.upsert_of (sid : UInt32) : Call → Option (UInt32 × List UInt8)
  | .upsert session_id peer_id payload => if session_id = sid then some (peer_id, payload) else none
  | .terminate _ => none

/-- The upserts of a session after its last termination. -/
def history (sid : UInt32) (calls : List Call) : List (UInt32 × List UInt8) :=
  (calls.rtakeWhile fun c => decide (c ≠ .terminate sid)).filterMap (Call.upsert_of sid)

/-- The entry that a history leaves: the peer of the first upsert, the number of
upserts modulo 2^64, and their payloads in order. -/
def summarized (sid : UInt32) : List (UInt32 × List UInt8) → Option ipmb_session_entry_t
  | [] => none
  | (peer_id, payload) :: later =>
    some
      { session_id := sid
        peer_id
        updates := UInt64.ofNat ((peer_id, payload) :: later).length
        state := (((peer_id, payload) :: later).map Prod.snd).flatten }

/-- The entry of a session as a value. -/
def session_state (tracker : ipmb_session_tracker_t) (sid : UInt32) :
    Except Fault (Option ipmb_session_entry_t) := do
  match ← ipmb_session_find tracker sid with
  | none => pure none
  | some p => some <$> entry tracker.entries p

/-- A tracker that holds what calls amount to, session by session. -/
structure FollowsHistory (tracker : ipmb_session_tracker_t) (calls : List Call) : Prop where
  absent : ∀ sid, ipmb_session_find tracker sid = .ok none ↔ history sid calls = []
  state : ∀ sid, session_state tracker sid = .ok (summarized sid (history sid calls))
  distinct : ∃ es, tracker.head.mapM (entry tracker.entries) = .ok es ∧ (ids es).Nodup
  count_eq : tracker.count = tracker.head.length
  terminate : ∀ sid, ∃ rc tracker', ipmb_session_terminate tracker sid = .ok (rc, tracker') ∧
    (rc = .IPMB_ERR_NOT_FOUND ↔ ipmb_session_find tracker sid = .ok none)

theorem history_terminate (sid : UInt32) (calls : List Call) :
    history sid (calls ++ [.terminate sid]) = [] := by
  rw [history, List.rtakeWhile_concat_neg _ _ _ (by simp), List.filterMap_nil]

/-- A call other than the session's termination adds what it upserts. -/
theorem history_snoc {sid : UInt32} {c : Call} (hc : c ≠ .terminate sid) (calls : List Call) :
    history sid (calls ++ [c]) = history sid calls ++ (c.upsert_of sid).toList := by
  rw [history, List.rtakeWhile_concat_pos _ _ _ (by simpa using hc), List.filterMap_append, history,
    List.filterMap_cons, List.filterMap_nil]
  cases c.upsert_of sid <;> rfl

/-- A history depends only on the calls that name its session. -/
theorem history_filter (sid : UInt32) (calls : List Call) :
    history sid (calls.filter fun c => decide (c.session_id = sid)) = history sid calls := by
  induction calls using List.reverseRecOn with
  | nil => rfl
  | append_singleton calls c ih =>
    rw [List.filter_append]
    by_cases hterminate : c = .terminate sid
    · subst hterminate
      have hnamed : [Call.terminate sid].filter (fun c => decide (c.session_id = sid)) = [.terminate sid] := by
        simp [Call.session_id]
      rw [hnamed, history_terminate, history_terminate]
    · rw [history_snoc hterminate]
      by_cases hnamed : c.session_id = sid
      · have hkept : [c].filter (fun c => decide (c.session_id = sid)) = [c] := by simp [hnamed]
        rw [hkept, history_snoc hterminate, ih]
      · have hdropped : [c].filter (fun c => decide (c.session_id = sid)) = [] := by simp [hnamed]
        have hnone : c.upsert_of sid = none := by
          cases c with
          | upsert session_id peer_id payload => exact if_neg hnamed
          | terminate session_id => rfl
        rw [hdropped, List.append_nil, ih, hnone, Option.toList_none, List.append_nil]

/-- One upsert more updates the entry, or makes a new one. -/
theorem summarized_snoc (sid peer_id : UInt32) (payload : List UInt8) (h : List (UInt32 × List UInt8)) :
    summarized sid (h ++ [(peer_id, payload)]) =
      some (((summarized sid h).getD (.new sid peer_id)).update payload) := by
  cases h with
  | nil => simp [summarized, ipmb_session_entry_t.new, ipmb_session_entry_t.update]
  | cons first later =>
    have hcount : UInt64.ofNat (first :: (later ++ [(peer_id, payload)])).length =
        UInt64.ofNat (first :: later).length + 1 := by
      rw [List.length_cons, List.length_append, List.length_singleton, List.length_cons, UInt64.ofNat_add]
      rfl
    rw [List.cons_append, summarized, summarized, Option.getD_some, ipmb_session_entry_t.update, hcount]
    simp

/-- A call on the entries as values. -/
def apply_call (es : List ipmb_session_entry_t) : Call → List ipmb_session_entry_t
  | .upsert session_id peer_id payload => upserted session_id peer_id payload es
  | .terminate session_id => terminated session_id es

/-- Calls go through and are those on the entries as values. -/
theorem calls_track (calls : List Call) :
    ∃ tracker, calls.foldlM call ipmb_session_tracker_init = .ok tracker ∧
      Tracks tracker (calls.foldl apply_call []) := by
  refine foldlM_simulates ?_ tracks_init calls
  intro tracker es c htracks
  cases c with
  | upsert session_id peer_id payload =>
    obtain ⟨tracker', hrun, htracks', _⟩ := ipmb_session_upsert_spec htracks session_id peer_id payload
    exact ⟨tracker', by rw [call, hrun, map_ok], htracks'⟩
  | terminate session_id =>
    obtain ⟨tracker', hrun, htracks', _⟩ := ipmb_session_terminate_spec htracks session_id
    exact ⟨tracker', by rw [call, hrun, map_ok], htracks'⟩

/-- The entries as values are those of the histories. -/
theorem lookup_calls (sid : UInt32) (calls : List Call) :
    lookup ipmb_session_entry_t.session_id sid (calls.foldl apply_call []) =
      summarized sid (history sid calls) := by
  induction calls using List.reverseRecOn with
  | nil => rfl
  | append_singleton calls c ih =>
    rw [List.foldl_append, List.foldl_cons, List.foldl_nil]
    cases c with
    | upsert session_id peer_id payload =>
      rw [apply_call, lookup_upserted, ih, history_snoc (by simp), Call.upsert_of]
      by_cases hsid : sid = session_id
      · subst hsid
        rw [if_pos rfl, if_pos rfl, Option.toList_some, summarized_snoc]
      · rw [if_neg hsid, if_neg (Ne.symm hsid), Option.toList_none, List.append_nil]
    | terminate session_id =>
      rw [apply_call, lookup_terminated, ih]
      by_cases hsid : sid = session_id
      · subst hsid
        rw [if_pos rfl, history_terminate, summarized]
      · rw [if_neg hsid, history_snoc (by simpa using Ne.symm hsid), Call.upsert_of, Option.toList_none,
          List.append_nil]

theorem mapM_entry_of_holds {entries : Heap ipmb_session_entry_t} {ps : List Nat}
    {es : List ipmb_session_entry_t} (h : entries.Holds ps es) : ps.mapM (entry entries) = .ok es := by
  induction ps generalizing es with
  | nil =>
    cases es with
    | nil => rfl
    | cons e es => cases h.length
  | cons p ps ih =>
    cases es with
    | nil => cases h.length
    | cons e es =>
      obtain ⟨hp, hps⟩ := Heap.holds_cons.mp h
      rw [List.mapM_cons, entry_of_read hp, ok_bind, ih hps, ok_bind, pure_eq_ok]

theorem summarized_eq_none_iff (sid : UInt32) {h : List (UInt32 × List UInt8)} :
    summarized sid h = none ↔ h = [] := by
  cases h <;> simp [summarized]

/-- A tracker of the entries that histories leave follows them. -/
theorem Tracks.followsHistory {tracker : ipmb_session_tracker_t} {calls : List Call}
    (h : Tracks tracker (calls.foldl apply_call [])) : FollowsHistory tracker calls := by
  have hfind : ∀ sid, (ipmb_session_find tracker sid = .ok none ↔ history sid calls = []) ∧
      session_state tracker sid = .ok (summarized sid (history sid calls)) := by
    intro sid
    have hspec := ipmb_session_find_spec h sid
    rw [lookup_calls] at hspec
    rw [← summarized_eq_none_iff sid]
    cases hsummary : summarized sid (history sid calls) with
    | none =>
      rw [hsummary] at hspec
      refine ⟨iff_of_true hspec rfl, ?_⟩
      rw [session_state, hspec, ok_bind, pure_eq_ok]
    | some e =>
      rw [hsummary] at hspec
      obtain ⟨p, hfound, hread⟩ := hspec
      refine ⟨iff_of_false (by rw [hfound]; simp) (by simp), ?_⟩
      simp only [session_state, hfound, ok_bind, entry_of_read hread, map_ok]
  refine ⟨fun sid => (hfind sid).1, fun sid => (hfind sid).2, ⟨_, mapM_entry_of_holds h.holds, h.distinct⟩,
    h.count_eq.trans h.holds.length.symm, ?_⟩
  intro sid
  obtain ⟨tracker', hrun, _⟩ := ipmb_session_terminate_spec h sid
  refine ⟨_, tracker', hrun, ?_⟩
  rw [(hfind sid).1, ← summarized_eq_none_iff sid, ← lookup_calls, lookup_eq_none_iff_notMem]
  split
  · rename_i hpresent
    exact iff_of_false (by decide) (not_not.mpr hpresent)
  · rename_i habsent
    exact iff_of_true rfl habsent

/-- The tracker refines a history for each session. Any calls go through and
leave what the histories of the sessions say; and what they leave for a session
depends only on the calls that name it. -/
theorem ipmb_session_tracker_history (calls : List Call) :
    ∃ tracker, calls.foldlM call ipmb_session_tracker_init = .ok tracker ∧ FollowsHistory tracker calls ∧
      ∀ (sid : UInt32) (calls' : List Call) (tracker' : ipmb_session_tracker_t),
        (calls'.filter fun c => decide (c.session_id = sid)) =
          (calls.filter fun c => decide (c.session_id = sid)) →
        calls'.foldlM call ipmb_session_tracker_init = .ok tracker' →
          session_state tracker' sid = session_state tracker sid := by
  obtain ⟨tracker, hrun, htracks⟩ := calls_track calls
  refine ⟨tracker, hrun, htracks.followsHistory, ?_⟩
  intro sid calls' tracker' hsame hrun'
  obtain ⟨t, ht, htracks'⟩ := calls_track calls'
  rw [hrun'] at ht
  cases ht
  rw [htracks.followsHistory.state, htracks'.followsHistory.state, ← history_filter sid calls', hsame,
    history_filter]

end ipmb.session_tracker
