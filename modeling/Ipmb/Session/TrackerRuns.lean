import Ipmb.Session.SessionHistory

open fallible heap keyed
open ipmb.session_tracker

namespace ipmb.tracker_runs

/-- A call with the answers to its requests for memory. -/
inductive Request where
  | upsert (alloc : Allocator) (session_id peer_id : UInt32) (payload : List UInt8)
  | terminate (session_id : UInt32)

def Request.perform (tracker : ipmb_session_tracker_t) :
    Request → Except Fault (ipmb_status_t × ipmb_session_tracker_t)
  | .upsert alloc session_id peer_id payload => ipmb_session_upsert alloc tracker session_id peer_id payload
  | .terminate session_id => ipmb_session_terminate tracker session_id

/-- The calls so far, each with what it returned. -/
abbrev Log := List (Request × ipmb_status_t)

/-- A call that is logged. -/
def call (s : ipmb_session_tracker_t × Log) (c : Request) : Except Fault (ipmb_session_tracker_t × Log) := do
  let (rc, tracker) ← c.perform s.1
  pure (tracker, s.2 ++ [(c, rc)])

/-- The call ends a session. -/
def Request.ends (sid : UInt32) : Request → Bool
  | .upsert _ _ _ _ => false
  | .terminate session_id => session_id = sid

/-- What came after the last termination of a session. -/
def since (sid : UInt32) (log : Log) : Log := log.rtakeWhile fun e => !e.1.ends sid

/-- The peer of an upsert that has memory for an entry of the session. -/
def Request.linked (sid : UInt32) : Request → Option UInt32
  | .upsert alloc session_id peer_id _ => if session_id = sid ∧ alloc 0 = true then some peer_id else none
  | .terminate _ => none

/-- The payload of a call that updated the session. -/
def updated (sid : UInt32) : Request × ipmb_status_t → Option (List UInt8)
  | (.upsert _ session_id _ payload, rc) => if session_id = sid ∧ rc = .IPMB_OK then some payload else none
  | (.terminate _, _) => none

/-- The peer that the session is linked with. -/
def peer (sid : UInt32) (log : Log) : Option UInt32 := (since sid log).findSome? fun e => e.1.linked sid

/-- The payloads that the session took. -/
def payloads (sid : UInt32) (log : Log) : List (List UInt8) := (since sid log).filterMap (updated sid)

/-- The entry that a log leaves. -/
def summary (sid : UInt32) (log : Log) : Option ipmb_session_entry_t :=
  (peer sid log).map fun peer_id =>
    { session_id := sid
      peer_id
      updates := UInt64.ofNat (payloads sid log).length
      state := (payloads sid log).flatten }

/-- What a call returns after a log. -/
def Request.returned (log : Log) : Request → ipmb_status_t
  | .upsert alloc session_id _ payload =>
    if peer session_id log = none ∧ alloc 0 = false ∨ payload ≠ [] ∧ alloc 1 = false then .IPMB_ERR_ALLOC else .IPMB_OK
  | .terminate session_id => if peer session_id log = none then .IPMB_ERR_NOT_FOUND else .IPMB_OK

section log
variable {sid : UInt32} {c : Request}

theorem since_ended (h : c.ends sid = true) (log : Log) (rc : ipmb_status_t) : since sid (log ++ [(c, rc)]) = [] := by
  rw [since, List.rtakeWhile_concat_neg _ _ _ (by simp [h])]

theorem since_snoc (h : c.ends sid = false) (log : Log) (rc : ipmb_status_t) :
    since sid (log ++ [(c, rc)]) = since sid log ++ [(c, rc)] := by
  rw [since, List.rtakeWhile_concat_pos _ _ _ (by simp [h]), since]

theorem peer_snoc (h : c.ends sid = false) (log : Log) (rc : ipmb_status_t) :
    peer sid (log ++ [(c, rc)]) = (peer sid log).or (c.linked sid) := by
  rw [peer, since_snoc h, List.findSome?_append, ← peer]
  simp

theorem payloads_snoc (h : c.ends sid = false) (log : Log) (rc : ipmb_status_t) :
    payloads sid (log ++ [(c, rc)]) = payloads sid log ++ (updated sid (c, rc)).toList := by
  rw [payloads, since_snoc h, List.filterMap_append, ← payloads]
  cases hupdated : updated sid (c, rc) <;> simp [hupdated]

end log

/-- The entry of a log without a payload is a new one. -/
theorem summary_of_nil {sid peer_id : UInt32} {log : Log} (hpeer : peer sid log = some peer_id)
    (hpayloads : payloads sid log = []) : summary sid log = some (.new sid peer_id) := by
  rw [summary, hpeer, hpayloads]
  rfl

/-- A payload more is an update more. -/
theorem summary_of_snoc {sid peer_id : UInt32} {log log' : Log} {payload : List UInt8}
    (hpeer : peer sid log = some peer_id) (hpeer' : peer sid log' = some peer_id)
    (hpayloads : payloads sid log' = payloads sid log ++ [payload]) :
    summary sid log' = (summary sid log).map fun e => e.update payload := by
  have hcount : UInt64.ofNat (payloads sid log ++ [payload]).length =
      UInt64.ofNat (payloads sid log).length + 1 := by
    rw [List.length_append, List.length_singleton, UInt64.ofNat_add]
    rfl
  rw [summary, summary, hpeer, hpeer', hpayloads, hcount]
  simp [ipmb_session_entry_t.update]

/-- The entries of a log as values, and no payload of a session without an entry. -/
structure Follows (es : List ipmb_session_entry_t) (log : Log) : Prop where
  lookup_eq : ∀ sid, lookup ipmb_session_entry_t.session_id sid es = summary sid log
  unlinked : ∀ sid, peer sid log = none → payloads sid log = []

/-- An upsert shows in its own session only. -/
theorem lookup_upserted_with_ne (alloc : Allocator) {session_id sid : UInt32} (peer_id : UInt32) (payload : List UInt8)
    (es : List ipmb_session_entry_t) (hsid : sid ≠ session_id) :
    lookup ipmb_session_entry_t.session_id sid (upserted_with alloc session_id peer_id payload es).2 =
      lookup ipmb_session_entry_t.session_id sid es := by
  rw [upserted_with]
  split_ifs
  · rfl
  · rfl
  · exact List.find?_cons_of_neg (by simp [Ne.symm hsid])
  · rw [lookup_upserted, if_neg hsid]

namespace Follows
variable {es : List ipmb_session_entry_t} {log : Log}

theorem notMem_iff (h : Follows es log) (sid : UInt32) : sid ∉ ids es ↔ peer sid log = none := by
  rw [← lookup_eq_none_iff_notMem, h.lookup_eq, summary, Option.map_eq_none_iff]

theorem returned_eq (h : Follows es log) (alloc : Allocator) (session_id peer_id : UInt32) (payload : List UInt8) :
    (upserted_with alloc session_id peer_id payload es).1 =
      (Request.upsert alloc session_id peer_id payload).returned log := by
  simp only [upserted_with, Request.returned, ← h.notMem_iff]
  by_cases hentry : session_id ∉ ids es ∧ alloc 0 = false
  · rw [if_pos hentry, if_pos (.inl hentry)]
  · rw [if_neg hentry]
    by_cases hstate : payload ≠ [] ∧ alloc 1 = false
    · rw [if_pos hstate, if_pos (Or.inr hstate)]
    · rw [if_neg hstate, if_neg (not_or.mpr ⟨hentry, hstate⟩)]

/-- A call that says nothing about a session leaves its entry. -/
theorem of_unrelated {sid : UInt32} {c : Request} {rc : ipmb_status_t} (hends : c.ends sid = false)
    (hlinked : c.linked sid = none) (hupdated : updated sid (c, rc) = none) :
    peer sid (log ++ [(c, rc)]) = peer sid log ∧ payloads sid (log ++ [(c, rc)]) = payloads sid log := by
  rw [peer_snoc hends, payloads_snoc hends, hlinked, hupdated]
  simp

/-- An upsert of a session without an entry. -/
theorem upsert_absent (h : Follows es log) (alloc : Allocator) {sid : UInt32} (peer_id : UInt32) (payload : List UInt8)
    (hpeer : peer sid log = none) {log' : Log}
    (hlog : log' = log ++ [(.upsert alloc sid peer_id payload,
      (Request.upsert alloc sid peer_id payload).returned log)]) :
    lookup ipmb_session_entry_t.session_id sid (upserted_with alloc sid peer_id payload es).2 = summary sid log' ∧
      (peer sid log' = none → payloads sid log' = []) := by
  have habsent : sid ∉ ids es := (h.notMem_iff sid).mpr hpeer
  have hempty : payloads sid log = [] := h.unlinked sid hpeer
  have hpeer' : peer sid log' = if alloc 0 = true then some peer_id else none := by
    rw [hlog, peer_snoc rfl, hpeer, Option.none_or, Request.linked]
    simp
  by_cases hentry : alloc 0 = true
  · rw [if_pos hentry] at hpeer'
    by_cases hstate : payload ≠ [] ∧ alloc 1 = false
    · have hpayloads' : payloads sid log' = [] := by
        rw [hlog, payloads_snoc rfl, hempty, Request.returned, if_pos (.inr hstate), updated, if_neg (by simp)]
        rfl
      refine ⟨?_, fun _ => hpayloads'⟩
      rw [upserted_with, if_neg (by simp [hentry]), if_pos hstate, if_neg habsent, summary_of_nil hpeer' hpayloads']
      simp [lookup]
    · have hpayloads' : payloads sid log' = [payload] := by
        rw [hlog, payloads_snoc rfl, hempty, Request.returned, if_neg (by simp [hentry, hstate]), updated,
          if_pos ⟨rfl, rfl⟩]
        rfl
      refine ⟨?_, fun hnone => by rw [hpeer'] at hnone; cases hnone⟩
      rw [upserted_with, if_neg (by simp [hentry]), if_neg hstate, lookup_upserted, if_pos rfl, h.lookup_eq, summary,
        summary, hpeer, hpeer', hpayloads']
      simp [ipmb_session_entry_t.update, ipmb_session_entry_t.new]
  · rw [if_neg hentry] at hpeer'
    rw [Bool.not_eq_true] at hentry
    have hpayloads' : payloads sid log' = [] := by
      rw [hlog, payloads_snoc rfl, hempty, Request.returned, if_pos (.inl ⟨hpeer, hentry⟩), updated, if_neg (by simp)]
      rfl
    refine ⟨?_, fun _ => hpayloads'⟩
    rw [upserted_with, if_pos ⟨habsent, hentry⟩, h.lookup_eq, summary, summary, hpeer, hpeer']
    rfl

/-- An upsert of a session with an entry. -/
theorem upsert_present (h : Follows es log) (alloc : Allocator) {sid linked : UInt32} (peer_id : UInt32)
    (payload : List UInt8) (hpeer : peer sid log = some linked) {log' : Log}
    (hlog : log' = log ++ [(.upsert alloc sid peer_id payload,
      (Request.upsert alloc sid peer_id payload).returned log)]) :
    lookup ipmb_session_entry_t.session_id sid (upserted_with alloc sid peer_id payload es).2 = summary sid log' ∧
      (peer sid log' = none → payloads sid log' = []) := by
  have hpresent : sid ∈ ids es := by
    by_contra habsent
    rw [h.notMem_iff, hpeer] at habsent
    cases habsent
  have hpeer' : peer sid log' = some linked := by
    rw [hlog, peer_snoc rfl, hpeer, Option.some_or]
  refine ⟨?_, fun hnone => by rw [hpeer'] at hnone; cases hnone⟩
  by_cases hstate : payload ≠ [] ∧ alloc 1 = false
  · have hpayloads' : payloads sid log' = payloads sid log := by
      rw [hlog, payloads_snoc rfl, Request.returned, if_pos (.inr hstate), updated, if_neg (by simp)]
      exact List.append_nil _
    rw [upserted_with, if_neg (by simp [hpresent]), if_pos hstate, if_pos hpresent, h.lookup_eq, summary, summary,
      hpeer, hpeer', hpayloads']
  · have hpayloads' : payloads sid log' = payloads sid log ++ [payload] := by
      rw [hlog, payloads_snoc rfl, Request.returned, if_neg (by simp [hpeer, hstate]), updated, if_pos ⟨rfl, rfl⟩]
      rfl
    have hfound : summary sid log ≠ none := by
      rw [summary, hpeer]
      exact Option.some_ne_none _
    obtain ⟨e, he⟩ := Option.ne_none_iff_exists'.mp hfound
    rw [upserted_with, if_neg (by simp [hpresent]), if_neg hstate, lookup_upserted, if_pos rfl, h.lookup_eq,
      summary_of_snoc hpeer hpeer' hpayloads', he]
    rfl

theorem upsert (h : Follows es log) (alloc : Allocator) (session_id peer_id : UInt32) (payload : List UInt8) :
    Follows (upserted_with alloc session_id peer_id payload es).2
      (log ++ [(.upsert alloc session_id peer_id payload,
        (Request.upsert alloc session_id peer_id payload).returned log)]) := by
  have hown : ∀ sid, lookup ipmb_session_entry_t.session_id sid (upserted_with alloc session_id peer_id payload es).2 =
        summary sid (log ++ [(.upsert alloc session_id peer_id payload,
          (Request.upsert alloc session_id peer_id payload).returned log)]) ∧
      (peer sid (log ++ [(.upsert alloc session_id peer_id payload,
          (Request.upsert alloc session_id peer_id payload).returned log)]) = none →
        payloads sid (log ++ [(.upsert alloc session_id peer_id payload,
          (Request.upsert alloc session_id peer_id payload).returned log)]) = []) := by
    intro sid
    by_cases hsid : session_id = sid
    · subst hsid
      cases hpeer : peer session_id log with
      | none => exact h.upsert_absent alloc peer_id payload hpeer rfl
      | some linked => exact h.upsert_present alloc peer_id payload hpeer rfl
    · let c : Request := .upsert alloc session_id peer_id payload
      have hlinked : c.linked sid = none := by simp [c, Request.linked, hsid]
      have hupdated : updated sid (c, c.returned log) = none := by simp [c, updated, hsid]
      obtain ⟨hpeer, hpayloads⟩ := of_unrelated rfl hlinked hupdated
      rw [summary, hpeer, hpayloads, ← summary, ← h.lookup_eq]
      exact ⟨lookup_upserted_with_ne alloc peer_id payload es (Ne.symm hsid), h.unlinked sid⟩
  exact ⟨fun sid => (hown sid).1, fun sid => (hown sid).2⟩

theorem terminate (h : Follows es log) (session_id : UInt32) (rc : ipmb_status_t) :
    Follows (terminated session_id es) (log ++ [(.terminate session_id, rc)]) := by
  have hown : ∀ sid, lookup ipmb_session_entry_t.session_id sid (terminated session_id es) =
        summary sid (log ++ [(.terminate session_id, rc)]) ∧
      (peer sid (log ++ [(.terminate session_id, rc)]) = none →
        payloads sid (log ++ [(.terminate session_id, rc)]) = []) := by
    intro sid
    rw [lookup_terminated]
    by_cases hsid : session_id = sid
    · have hends : (Request.terminate session_id).ends sid = true := by simp [Request.ends, hsid]
      have hsince := since_ended hends log rc
      rw [if_pos hsid.symm, summary, peer, payloads, hsince]
      exact ⟨rfl, fun _ => rfl⟩
    · have hends : (Request.terminate session_id).ends sid = false := by simp [Request.ends, hsid]
      have hupdated : updated sid (.terminate session_id, rc) = none := rfl
      obtain ⟨hpeer, hpayloads⟩ := of_unrelated hends rfl hupdated
      rw [if_neg (Ne.symm hsid), summary, hpeer, hpayloads, ← summary, ← h.lookup_eq]
      exact ⟨rfl, h.unlinked sid⟩
  exact ⟨fun sid => (hown sid).1, fun sid => (hown sid).2⟩

end Follows

/-- Every entry that was not released is linked. -/
def Linked (tracker : ipmb_session_tracker_t) : Prop := ∀ p e, tracker.entries.read p = some e → p ∈ tracker.head

theorem update_entry_cases {realloc_state : Bool} {tracker tracker' : ipmb_session_tracker_t} {p : Nat}
    {payload : List UInt8} {rc : ipmb_status_t}
    (h : update_entry realloc_state tracker p payload = .ok (rc, tracker')) :
    tracker'.head = tracker.head ∧
      ∀ q e, tracker'.entries.read q = some e → ∃ e', tracker.entries.read q = some e' := by
  rw [update_entry, bind_eq_ok_iff] at h
  obtain ⟨e, hentry, h⟩ := h
  split at h
  · cases h
    exact ⟨rfl, fun q e hq => ⟨e, hq⟩⟩
  · split at h
    · rename_i entries hwrite
      cases h
      refine ⟨rfl, fun q e' hq => ?_⟩
      rw [Heap.read_write hwrite] at hq
      split_ifs at hq with hqp
      · rw [hqp]
        rw [entry] at hentry
        split at hentry
        · rename_i hread
          exact ⟨_, hread⟩
        · cases hentry
      · exact ⟨e', hq⟩
    · cases h

theorem Linked.update_entry {realloc_state : Bool} {tracker tracker' : ipmb_session_tracker_t} {p : Nat}
    {payload : List UInt8} {rc : ipmb_status_t} (hlinked : Linked tracker)
    (h : update_entry realloc_state tracker p payload = .ok (rc, tracker')) : Linked tracker' := by
  obtain ⟨hhead, hread⟩ := update_entry_cases h
  intro q e hq
  obtain ⟨e', hq'⟩ := hread q e hq
  rw [hhead]
  exact hlinked q e' hq'

theorem Linked.upsert {alloc : Allocator} {tracker tracker' : ipmb_session_tracker_t} {session_id peer_id : UInt32}
    {payload : List UInt8} {rc : ipmb_status_t} (hlinked : Linked tracker)
    (h : ipmb_session_upsert alloc tracker session_id peer_id payload = .ok (rc, tracker')) : Linked tracker' := by
  rw [ipmb_session_upsert, bind_eq_ok_iff] at h
  obtain ⟨found, -, h⟩ := h
  cases found with
  | some p => exact hlinked.update_entry h
  | none =>
    dsimp only at h
    split at h
    · cases h
      exact hlinked
    · refine Linked.update_entry ?_ h
      intro q e hq
      obtain hlt | hnew := Nat.lt_or_ge q tracker.entries.blocks.length
      · rw [Heap.read_alloc_of_lt _ hlt] at hq
        exact List.mem_cons_of_mem _ (hlinked q e hq)
      · have hlt := Heap.lt_length_of_read hq
        rw [Heap.alloc, List.length_append, List.length_singleton] at hlt
        rw [Nat.le_antisymm (Nat.le_of_lt_succ hlt) hnew]
        exact List.mem_cons_self

/-- What was linked is unlinked or still there. -/
theorem unlink_cases {entries : Heap ipmb_session_entry_t} {session_id : UInt32} {ps rest : List Nat} {dead : Nat}
    (h : unlink entries session_id ps = .ok (some (dead, rest))) : ∀ q ∈ ps, q = dead ∨ q ∈ rest := by
  induction ps generalizing rest with
  | nil => cases h
  | cons p ps ih =>
    rw [unlink, bind_eq_ok_iff] at h
    obtain ⟨e, -, h⟩ := h
    split at h
    · cases h
      exact fun q hq => List.mem_cons.mp hq
    · rw [bind_eq_ok_iff] at h
      obtain ⟨found, hfound, h⟩ := h
      cases found with
      | none => cases h
      | some found =>
        cases h
        intro q hq
        obtain rfl | hq := List.mem_cons.mp hq
        · exact .inr List.mem_cons_self
        · exact (ih hfound q hq).imp_right (List.mem_cons_of_mem p)

theorem Linked.terminate {tracker tracker' : ipmb_session_tracker_t} {session_id : UInt32} {rc : ipmb_status_t}
    (hlinked : Linked tracker) (h : ipmb_session_terminate tracker session_id = .ok (rc, tracker')) :
    Linked tracker' := by
  rw [ipmb_session_terminate, bind_eq_ok_iff] at h
  obtain ⟨found, hfound, h⟩ := h
  cases found with
  | none =>
    cases h
    exact hlinked
  | some found =>
    obtain ⟨dead, head⟩ := found
    dsimp only at h
    rw [bind_eq_ok_iff] at h
    obtain ⟨entries, hfree, h⟩ := h
    cases h
    rw [free_entry] at hfree
    split at hfree
    · rename_i hfree'
      cases hfree
      intro q e hq
      rw [Heap.read_free hfree'] at hq
      split_ifs at hq with hdead
      exact (unlink_cases hfound q (hlinked q e hq)).resolve_left hdead
    · cases hfree

/-- The release of a tracker with all its entries linked leaves none. -/
theorem Linked.tracker_free {tracker : ipmb_session_tracker_t} {es : List ipmb_session_entry_t}
    (hlinked : Linked tracker) (h : Tracks tracker es) :
    ∃ tracker', ipmb_session_tracker_free tracker = .ok tracker' ∧ ∀ p, tracker'.entries.read p = none := by
  obtain ⟨tracker', hfree, hread⟩ := ipmb_session_tracker_free_spec h
  refine ⟨tracker', hfree, fun p => ?_⟩
  rw [hread]
  split_ifs with hp
  · rfl
  · cases hentry : tracker.entries.read p with
    | none => rfl
    | some e => exact absurd (hlinked p e hentry) hp

/-- A tracker after a log: its entries are those of the log, and every call returned what
the log before it says. -/
structure After (s : ipmb_session_tracker_t × Log) : Prop where
  entries : ∃ es, Tracks s.1 es ∧ Follows es s.2
  linked : Linked s.1
  returned : ∀ before c rc after, s.2 = before ++ (c, rc) :: after → rc = c.returned before

theorem after_init : After (ipmb_session_tracker_init, []) where
  entries := ⟨[], tracks_init, fun _ => rfl, fun _ _ => rfl⟩
  linked := fun p e hread => by cases hread
  returned := by
    intro before c rc after hsplit
    simp at hsplit

/-- A call goes through and returns what the log says. -/
theorem perform_spec {tracker : ipmb_session_tracker_t} {log : Log} {es : List ipmb_session_entry_t}
    (htracks : Tracks tracker es) (hfollows : Follows es log) (c : Request) :
    ∃ tracker' es', c.perform tracker = .ok (c.returned log, tracker') ∧ Tracks tracker' es' ∧
      Follows es' (log ++ [(c, c.returned log)]) := by
  cases c with
  | upsert alloc session_id peer_id payload =>
    obtain ⟨tracker', hrun, htracks', -⟩ := ipmb_session_upsert_with_spec alloc htracks session_id peer_id payload
    rw [hfollows.returned_eq] at hrun
    exact ⟨tracker', _, hrun, htracks', hfollows.upsert alloc session_id peer_id payload⟩
  | terminate session_id =>
    obtain ⟨tracker', hrun, htracks', -⟩ := ipmb_session_terminate_spec htracks session_id
    refine ⟨tracker', _, hrun.trans ?_, htracks', hfollows.terminate session_id _⟩
    rw [Request.returned]
    by_cases hpresent : session_id ∈ ids es
    · rw [if_pos hpresent, if_neg (mt (hfollows.notMem_iff session_id).mpr (not_not.mpr hpresent))]
    · rw [if_neg hpresent, if_pos ((hfollows.notMem_iff session_id).mp hpresent)]

theorem After.call {s : ipmb_session_tracker_t × Log} (h : After s) (c : Request) :
    ∃ rc tracker', call s c = .ok (tracker', s.2 ++ [(c, rc)]) ∧ After (tracker', s.2 ++ [(c, rc)]) := by
  obtain ⟨es, htracks, hfollows⟩ := h.entries
  obtain ⟨tracker', es', hrun, htracks', hfollows'⟩ := perform_spec htracks hfollows c
  have hlinked' : Linked tracker' := by
    cases c with
    | upsert alloc session_id peer_id payload => exact h.linked.upsert hrun
    | terminate session_id => exact h.linked.terminate hrun
  refine ⟨c.returned s.2, tracker', ?_, ⟨es', htracks', hfollows'⟩, hlinked', ?_⟩
  · rw [tracker_runs.call, hrun, ok_bind]
    rfl
  · intro before c' rc after hsplit
    obtain rfl | ⟨later, last, rfl⟩ := List.eq_nil_or_concat after
    · obtain ⟨rfl, heq⟩ := List.append_inj' hsplit rfl
      cases heq
      rfl
    · rw [List.concat_eq_append, ← List.cons_append, ← List.append_assoc] at hsplit
      exact h.returned before c' rc later (List.append_inj' hsplit rfl).1

/-- What is found of a session is its entry as a value. -/
theorem session_state_of_tracks {tracker : ipmb_session_tracker_t} {es : List ipmb_session_entry_t}
    (h : Tracks tracker es) (sid : UInt32) :
    session_state tracker sid = .ok (lookup ipmb_session_entry_t.session_id sid es) := by
  have hspec := ipmb_session_find_spec h sid
  cases hlookup : lookup ipmb_session_entry_t.session_id sid es with
  | none =>
    rw [hlookup] at hspec
    rw [session_state, hspec, ok_bind, pure_eq_ok]
  | some e =>
    rw [hlookup] at hspec
    obtain ⟨p, hfound, hread⟩ := hspec
    simp only [session_state, hfound, ok_bind, entry_of_read hread, map_ok]

/-- Whatever allocations fail, calls go through. A session has an entry once an upsert
after its last termination had memory for one, with the peer of that upsert; the entry
counts the upserts that returned `IPMB_OK` since and holds their payloads in order; and
what a call returns follows from the calls before it. Releasing the tracker then leaves
no entry behind. -/
theorem tracker_history_with_failures (requests : List Request) :
    ∃ tracker log, requests.foldlM call (ipmb_session_tracker_init, []) = .ok (tracker, log) ∧
      log.map Prod.fst = requests ∧
      (∀ before c rc after, log = before ++ (c, rc) :: after → rc = c.returned before) ∧
      (∀ sid, session_state tracker sid = .ok (summary sid log)) ∧
      (∃ es, tracker.head.mapM (entry tracker.entries) = .ok es ∧ (ids es).Nodup ∧ tracker.count = es.length) ∧
      ∃ tracker', ipmb_session_tracker_free tracker = .ok tracker' ∧ ∀ p, tracker'.entries.read p = none := by
  have hrun : ∃ s, requests.foldlM call (ipmb_session_tracker_init, []) = .ok s ∧ After s ∧
      s.2.map Prod.fst = requests := by
    induction requests using List.reverseRecOn with
    | nil => exact ⟨_, rfl, after_init, rfl⟩
    | append_singleton requests c ih =>
      obtain ⟨s, hrun, hafter, hlog⟩ := ih
      obtain ⟨rc, tracker', hcall, hafter'⟩ := hafter.call c
      refine ⟨_, ?_, hafter', ?_⟩
      · rw [List.foldlM_append, hrun, ok_bind, List.foldlM_cons, hcall, ok_bind]
        rfl
      · rw [List.map_append, hlog]
        rfl
  obtain ⟨⟨tracker, log⟩, hrun, hafter, hlog⟩ := hrun
  obtain ⟨es, htracks, hfollows⟩ := hafter.entries
  refine ⟨tracker, log, hrun, hlog, hafter.returned, fun sid => ?_,
    ⟨es, mapM_entry_of_holds htracks.holds, htracks.distinct, htracks.count_eq⟩,
    hafter.linked.tracker_free htracks⟩
  rw [session_state_of_tracks htracks, hfollows.lookup_eq]

end ipmb.tracker_runs
