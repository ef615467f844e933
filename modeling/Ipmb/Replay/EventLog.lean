import Ipmb.Session.TrackerRefinement

open fallible heap
open ipmb.session_tracker

namespace ipmb.event_log

/-- The block behind `entries` as the pointers in it, `none` being a null one.
A null `entries` has none at all. -/
structure ipmb_event_snapshot_t where
  entries : List (Option Nat)
  count : Nat
  deriving Repr, DecidableEq

/-- The snapshots in use, and for how many the array has room. -/
structure ipmb_event_log_t where
  snapshots : List ipmb_event_snapshot_t
  capacity : Nat
  deriving Repr, DecidableEq

def ipmb_event_log_init : ipmb_event_log_t := { snapshots := [], capacity := 0 }

/-- The walk through the tracker's links that fills a block from a position on. -/
def fill (tracker : ipmb_session_tracker_t) (block : List (Option Nat)) (i : Nat) :
    List Nat → Except Fault (List (Option Nat))
  | [] => .ok block
  | cur :: next =>
    if i < block.length then do
      let _ ← entry tracker.entries cur
      fill tracker (block.set i (some cur)) (i + 1) next
    else .error .writeOutOfBounds

/-- The first allocation is the growth of the log, the second one the block of
the snapshot, which is counted before. -/
def ipmb_event_log_snapshot (alloc : Allocator) (log : ipmb_event_log_t) (tracker : ipmb_session_tracker_t) :
    Except Fault (ipmb_status_t × ipmb_event_log_t) :=
  if log.snapshots.length = log.capacity ∧ alloc 0 = false then .ok (.IPMB_ERR_ALLOC, log)
  else
    let capacity :=
      if log.snapshots.length = log.capacity then
        if log.capacity = 0 then 4 else log.capacity * 2
      else log.capacity
    let count := tracker.count
    if alloc 1 = false then
      .ok (.IPMB_ERR_ALLOC, { snapshots := log.snapshots ++ [{ entries := [], count }], capacity })
    else do
      let entries ← fill tracker (List.replicate (if count = 0 then 1 else count) none) 0 tracker.head
      pure (.IPMB_OK, { snapshots := log.snapshots ++ [{ entries, count }], capacity })

/-- What `snapshots[i].entries[j]` points to. -/
def snapshot_entry (tracker : ipmb_session_tracker_t) (snap : ipmb_event_snapshot_t) (j : Nat) :
    Except Fault ipmb_session_entry_t :=
  if snap.entries = [] then .error .nullPointer
  else
    match snap.entries[j]? with
    | some (some p) => entry tracker.entries p
    | some none => .error .nullPointer
    | none => .error .readOutOfBounds

/-- One word into the hash. -/
def mix (h word : UInt64) : UInt64 := (h ^^^ word) * 1099511628211

def summarize_entry (h : UInt64) (e : ipmb_session_entry_t) : UInt64 :=
  mix (mix h e.session_id.toUInt64) e.updates

def summarize_snapshot (tracker : ipmb_session_tracker_t) (h : UInt64) (snap : ipmb_event_snapshot_t) :
    Except Fault UInt64 :=
  (List.range snap.count).foldlM (fun h j => summarize_entry h <$> snapshot_entry tracker snap j) h

/-- The pointers of the log are those of the tracker. -/
def ipmb_event_log_summarize (tracker : ipmb_session_tracker_t) (log : ipmb_event_log_t) : Except Fault UInt64 :=
  log.snapshots.foldlM (summarize_snapshot tracker) 1469598103934665603

/-- A snapshot that holds just these addresses. -/
def Captures (snap : ipmb_event_snapshot_t) (ps : List Nat) : Prop :=
  snap.count = ps.length ∧ snap.entries ≠ [] ∧ snap.entries.take snap.count = ps.map some

/-- All addresses that the snapshots of a log hold, in order. -/
def Records (log : ipmb_event_log_t) (ps : List Nat) : Prop :=
  ∃ pss, List.Forall₂ Captures log.snapshots pss ∧ pss.flatten = ps

theorem records_init : Records ipmb_event_log_init [] := ⟨[], .nil, rfl⟩

theorem fill_spec {tracker : ipmb_session_tracker_t} {ps : List Nat} {es : List ipmb_session_entry_t}
    (h : tracker.entries.Holds ps es) (front : List (Option Nat)) {back : List (Option Nat)}
    (hroom : ps.length ≤ back.length) :
    fill tracker (front ++ back) front.length ps = .ok (front ++ ps.map some ++ back.drop ps.length) := by
  induction ps generalizing es front back with
  | nil => simp [fill]
  | cons p ps ih =>
    cases es with
    | nil => cases h.length
    | cons e es =>
      obtain ⟨hp, hps⟩ := Heap.holds_cons.mp h
      cases back with
      | nil => simp at hroom
      | cons b back =>
        have hset : (front ++ b :: back).set front.length (some p) = (front ++ [some p]) ++ back := by
          simp
        have hlen : front.length + 1 = (front ++ [some p]).length := by simp
        rw [fill, if_pos (by simp), entry_of_read hp, ok_bind, hset, hlen, ih hps _ (by simpa using hroom)]
        simp

/-- A log with one snapshot more, grown if it was full. -/
def ipmb_event_log_t.push (log : ipmb_event_log_t) (snap : ipmb_event_snapshot_t) : ipmb_event_log_t :=
  { snapshots := log.snapshots ++ [snap]
    capacity :=
      if log.snapshots.length = log.capacity then
        if log.capacity = 0 then 4 else log.capacity * 2
      else log.capacity }

/-- A snapshot of linked addresses; its block is never empty. -/
def snapshot_of (ps : List Nat) : ipmb_event_snapshot_t :=
  { entries := ps.map some ++ if ps = [] then [none] else []
    count := ps.length }

theorem captures_snapshot_of (ps : List Nat) : Captures (snapshot_of ps) ps := by
  refine ⟨rfl, ?_, ?_⟩
  · rw [snapshot_of]
    split_ifs with hps
    · simp
    · simpa using hps
  · simp [snapshot_of]

/-- The entries of a tracker fill the block that was allocated for them. -/
theorem fill_tracked {tracker : ipmb_session_tracker_t} {es : List ipmb_session_entry_t}
    (h : Tracks tracker es) :
    fill tracker (List.replicate (if tracker.count = 0 then 1 else tracker.count) none) 0 tracker.head =
      .ok (snapshot_of tracker.head).entries := by
  have hcount : tracker.count = tracker.head.length := by
    rw [h.count_eq, h.holds.length]
  have hroom : tracker.head.length ≤
      (List.replicate (if tracker.count = 0 then 1 else tracker.count) (none : Option Nat)).length := by
    rw [List.length_replicate, hcount]
    split <;> omega
  have hfill := fill_spec h.holds [] hroom
  rw [List.nil_append, List.length_nil, List.nil_append] at hfill
  rw [hfill, snapshot_of, List.drop_replicate, hcount]
  by_cases hhead : tracker.head = []
  · simp [hhead]
  · have hne : tracker.head.length ≠ 0 := by
      simpa using hhead
    rw [if_neg hne, if_neg hhead, Nat.sub_self, List.replicate_zero]

/-- Without memory a snapshot is left out, or counts what it does not hold. -/
theorem ipmb_event_log_snapshot_with_spec (alloc : Allocator) {tracker : ipmb_session_tracker_t}
    {es : List ipmb_session_entry_t} (h : Tracks tracker es) (log : ipmb_event_log_t) :
    ipmb_event_log_snapshot alloc log tracker = .ok (
      if log.snapshots.length = log.capacity ∧ alloc 0 = false then (.IPMB_ERR_ALLOC, log)
      else if alloc 1 = false then
        (.IPMB_ERR_ALLOC, log.push { entries := [], count := tracker.head.length })
      else (.IPMB_OK, log.push (snapshot_of tracker.head))) := by
  have hcount : tracker.count = tracker.head.length := by
    rw [h.count_eq, h.holds.length]
  rw [ipmb_event_log_snapshot]
  by_cases hgrow : log.snapshots.length = log.capacity ∧ alloc 0 = false
  · rw [if_pos hgrow, if_pos hgrow]
  · rw [if_neg hgrow, if_neg hgrow]
    by_cases hblock : alloc 1 = false
    · simp only [if_pos hblock, hcount]
      rfl
    · simp only [if_neg hblock, fill_tracked h, ok_bind, pure_eq_ok]
      rw [hcount]
      rfl

theorem ipmb_event_log_snapshot_succeeds {tracker : ipmb_session_tracker_t} {es : List ipmb_session_entry_t}
    (h : Tracks tracker es) (log : ipmb_event_log_t) :
    ipmb_event_log_snapshot Allocator.succeeds log tracker =
      .ok (.IPMB_OK, log.push (snapshot_of tracker.head)) := by
  rw [ipmb_event_log_snapshot_with_spec _ h, if_neg (not_and_of_not_right _ (Allocator.not_refused 0)),
    if_neg (Allocator.not_refused 1)]

/-- With memory a snapshot holds the addresses that are linked. -/
theorem ipmb_event_log_snapshot_spec {tracker : ipmb_session_tracker_t} {es : List ipmb_session_entry_t}
    (h : Tracks tracker es) {log : ipmb_event_log_t} {ps : List Nat} (hlog : Records log ps) :
    ∃ log', ipmb_event_log_snapshot Allocator.succeeds log tracker = .ok (.IPMB_OK, log') ∧
      Records log' (ps ++ tracker.head) := by
  obtain ⟨pss, hcaptures, rfl⟩ := hlog
  refine ⟨log.push (snapshot_of tracker.head), ipmb_event_log_snapshot_succeeds h log,
    pss ++ [tracker.head], ?_, by simp⟩
  exact List.rel_append hcaptures (.cons (captures_snapshot_of tracker.head) .nil)

theorem snapshot_entry_of_captures {tracker : ipmb_session_tracker_t} {snap : ipmb_event_snapshot_t}
    {ps : List Nat} (h : Captures snap ps) {j p : Nat} (hj : ps[j]? = some p) :
    snapshot_entry tracker snap j = entry tracker.entries p := by
  obtain ⟨hcount, hnull, hentries⟩ := h
  have hlt : j < snap.count := by
    rw [hcount]
    exact (List.getElem?_eq_some_iff.mp hj).1
  have hget : snap.entries[j]? = some (some p) := by
    rw [← List.getElem?_take_of_lt hlt, hentries, List.getElem?_map, hj, Option.map_some]
  rw [snapshot_entry, if_neg hnull, hget]

theorem summarize_snapshot_eq {tracker : ipmb_session_tracker_t} {snap : ipmb_event_snapshot_t} {ps : List Nat}
    (h : Captures snap ps) (hash : UInt64) :
    summarize_snapshot tracker hash snap =
      ps.foldlM (fun hash p => summarize_entry hash <$> entry tracker.entries p) hash := by
  rw [summarize_snapshot, h.1]
  refine foldlM_range_eq ?_ hash
  intro hash j p hj
  rw [snapshot_entry_of_captures h hj]

/-- The summary goes through the addresses one after the other. -/
theorem ipmb_event_log_summarize_eq (tracker : ipmb_session_tracker_t) {log : ipmb_event_log_t} {ps : List Nat}
    (h : Records log ps) :
    ipmb_event_log_summarize tracker log =
      ps.foldlM (fun hash p => summarize_entry hash <$> entry tracker.entries p) 1469598103934665603 := by
  obtain ⟨pss, hcaptures, rfl⟩ := h
  rw [ipmb_event_log_summarize]
  generalize (1469598103934665603 : UInt64) = hash
  generalize log.snapshots = snaps at hcaptures
  induction hcaptures generalizing hash with
  | nil => rfl
  | cons hsnap _ ih =>
    rw [List.foldlM_cons, List.flatten_cons, List.foldlM_append, summarize_snapshot_eq hsnap]
    congr 1
    funext hash
    exact ih hash

end ipmb.event_log
