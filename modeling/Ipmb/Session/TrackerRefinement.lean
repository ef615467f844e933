import Ipmb.Session.SessionTracker
import Ipmb.Support.Fallible
import Ipmb.Support.Keyed

open fallible heap keyed

namespace ipmb.session_tracker

/-- One more update. -/
def ipmb_session_entry_t.update (e : ipmb_session_entry_t) (payload : List UInt8) : ipmb_session_entry_t :=
  { e with state := e.state ++ payload, updates := e.updates + 1 }

def ipmb_session_entry_t.new (session_id peer_id : UInt32) : ipmb_session_entry_t :=
  { session_id, peer_id, updates := 0, state := [] }

abbrev ids (es : List ipmb_session_entry_t) : List UInt32 := es.map ipmb_session_entry_t.session_id

/-- An upsert of the entries as values, the newest first. -/
def upserted (session_id peer_id : UInt32) (payload : List UInt8) (es : List ipmb_session_entry_t) :
    List ipmb_session_entry_t :=
  if session_id ∈ ids es then es.map fun e => if e.session_id = session_id then e.update payload else e
  else (ipmb_session_entry_t.new session_id peer_id).update payload :: es

/-- An upsert whose allocations may fail: a new session may be left out, or be
there without its update. -/
def upserted_with (alloc : Allocator) (session_id peer_id : UInt32) (payload : List UInt8)
    (es : List ipmb_session_entry_t) : ipmb_status_t × List ipmb_session_entry_t :=
  if session_id ∉ ids es ∧ alloc 0 = false then (.IPMB_ERR_ALLOC, es)
  else if payload ≠ [] ∧ alloc 1 = false then
    (.IPMB_ERR_ALLOC, if session_id ∈ ids es then es else .new session_id peer_id :: es)
  else (.IPMB_OK, upserted session_id peer_id payload es)

/-- A termination of the entries as values. -/
def terminated (session_id : UInt32) (es : List ipmb_session_entry_t) : List ipmb_session_entry_t :=
  es.filter fun e => e.session_id ≠ session_id

@[simp] theorem update_session_id (e : ipmb_session_entry_t) (payload : List UInt8) :
    (e.update payload).session_id = e.session_id := rfl

@[simp] theorem new_session_id (session_id peer_id : UInt32) :
    (ipmb_session_entry_t.new session_id peer_id).session_id = session_id := rfl

/-- An upsert shows in its own session only. -/
theorem lookup_upserted (session_id peer_id : UInt32) (payload : List UInt8) (es : List ipmb_session_entry_t)
    (sid : UInt32) :
    lookup ipmb_session_entry_t.session_id sid (upserted session_id peer_id payload es) =
      if sid = session_id then
        some (((lookup ipmb_session_entry_t.session_id sid es).getD (.new session_id peer_id)).update payload)
      else lookup ipmb_session_entry_t.session_id sid es := by
  rw [upserted]
  by_cases hpresent : session_id ∈ ids es
  · have hkeys : ∀ e : ipmb_session_entry_t,
        (if e.session_id = session_id then e.update payload else e).session_id = e.session_id := by
      intro e
      split <;> rfl
    rw [if_pos hpresent, lookup_map hkeys]
    cases hlookup : lookup ipmb_session_entry_t.session_id sid es with
    | none =>
      have hne : sid ≠ session_id := by
        rintro rfl
        exact lookup_eq_none_iff_notMem.mp hlookup hpresent
      rw [if_neg hne, Option.map_none]
    | some e =>
      have hkey : e.session_id = sid := key_of_lookup hlookup
      by_cases hsid : sid = session_id
      · simp [hkey, hsid]
      · simp [hkey, hsid]
  · rw [if_neg hpresent]
    by_cases hsid : sid = session_id
    · have hnone : lookup ipmb_session_entry_t.session_id sid es = none := by
        rw [hsid]
        exact lookup_eq_none_iff_notMem.mpr hpresent
      rw [if_pos hsid, hnone]
      simp [lookup, hsid]
    · rw [if_neg hsid]
      simp [lookup, Ne.symm hsid]

theorem lookup_terminated (session_id sid : UInt32) (es : List ipmb_session_entry_t) :
    lookup ipmb_session_entry_t.session_id sid (terminated session_id es) =
      if sid = session_id then none else lookup ipmb_session_entry_t.session_id sid es :=
  lookup_filter_ne session_id sid es

/-- Among entries of different sessions an upsert changes the session's own. -/
theorem upserted_split {session_id peer_id : UInt32} {payload : List UInt8} {es₁ es₂ : List ipmb_session_entry_t}
    {e : ipmb_session_entry_t} (hnodup : (ids (es₁ ++ e :: es₂)).Nodup) (he : e.session_id = session_id) :
    upserted session_id peer_id payload (es₁ ++ e :: es₂) = es₁ ++ e.update payload :: es₂ := by
  have hothers : ∀ x ∈ es₁ ++ es₂, x.session_id ≠ session_id := by
    rw [← he]
    exact (nodup_split hnodup).2
  have hsame : ∀ xs : List ipmb_session_entry_t, (∀ x ∈ xs, x.session_id ≠ session_id) →
      xs.map (fun x => if x.session_id = session_id then x.update payload else x) = xs := by
    intro xs hxs
    conv_rhs => rw [← List.map_id xs]
    apply List.map_congr_left
    intro x hx
    rw [if_neg (hxs x hx), id_eq]
  rw [upserted, if_pos (by simp [he]), List.map_append, List.map_cons, if_pos he,
    hsame es₁ fun x hx => hothers x (List.mem_append_left _ hx),
    hsame es₂ fun x hx => hothers x (List.mem_append_right _ hx)]

theorem terminated_split {session_id : UInt32} {es₁ es₂ : List ipmb_session_entry_t} {e : ipmb_session_entry_t}
    (hnodup : (ids (es₁ ++ e :: es₂)).Nodup) (he : e.session_id = session_id) :
    terminated session_id (es₁ ++ e :: es₂) = es₁ ++ es₂ := by
  have hothers : ∀ x ∈ es₁ ++ es₂, x.session_id ≠ session_id := by
    rw [← he]
    exact (nodup_split hnodup).2
  rw [terminated, List.filter_append, List.filter_cons, if_neg (by simp [he]), ← List.filter_append,
    List.filter_eq_self]
  intro x hx
  simpa using hothers x hx

/-- The linked entries of a tracker are those of different sessions. -/
structure Tracks (tracker : ipmb_session_tracker_t) (es : List ipmb_session_entry_t) : Prop where
  nodup : tracker.head.Nodup
  holds : tracker.entries.Holds tracker.head es
  count_eq : tracker.count = es.length
  distinct : (ids es).Nodup

theorem tracks_init : Tracks ipmb_session_tracker_init [] :=
  ⟨List.nodup_nil, Heap.holds_nil _, rfl, List.nodup_nil⟩

theorem entry_of_read {entries : Heap ipmb_session_entry_t} {p : Nat} {e : ipmb_session_entry_t}
    (h : entries.read p = some e) : entry entries p = .ok e := by
  rw [entry, h]

theorem find_from_append {entries : Heap ipmb_session_entry_t} {session_id : UInt32} {ps : List Nat}
    {es : List ipmb_session_entry_t} (h : entries.Holds ps es) (hes : ∀ e ∈ es, e.session_id ≠ session_id)
    (qs : List Nat) : find_from entries session_id (ps ++ qs) = find_from entries session_id qs := by
  induction ps generalizing es with
  | nil => rfl
  | cons p ps ih =>
    cases es with
    | nil => cases h.length
    | cons e es =>
      obtain ⟨hp, hps⟩ := Heap.holds_cons.mp h
      rw [List.cons_append, find_from, entry_of_read hp, ok_bind, if_neg (hes e List.mem_cons_self)]
      exact ih hps fun e he => hes e (List.mem_cons_of_mem _ he)

theorem unlink_append {entries : Heap ipmb_session_entry_t} {session_id : UInt32} {ps : List Nat}
    {es : List ipmb_session_entry_t} (h : entries.Holds ps es) (hes : ∀ e ∈ es, e.session_id ≠ session_id)
    {qs : List Nat} {r : Option (Nat × List Nat)} (hqs : unlink entries session_id qs = .ok r) :
    unlink entries session_id (ps ++ qs) = .ok (r.map fun x => (x.1, ps ++ x.2)) := by
  induction ps generalizing es with
  | nil => simpa using hqs
  | cons p ps ih =>
    cases es with
    | nil => cases h.length
    | cons e es =>
      obtain ⟨hp, hps⟩ := Heap.holds_cons.mp h
      have hrest := ih hps fun e he => hes e (List.mem_cons_of_mem _ he)
      rw [List.cons_append, unlink, entry_of_read hp, ok_bind, if_neg (hes e List.mem_cons_self), hrest, ok_bind]
      cases r <;> rfl

/-- An address that is linked, to an entry of a session. -/
def Refers (tracker : ipmb_session_tracker_t) (session_id : UInt32) (p : Nat) : Prop :=
  p ∈ tracker.head ∧ ∃ e, tracker.entries.read p = some e ∧ e.session_id = session_id

/-- What an upsert keeps: what refers to a session still does, and what was
released still is. -/
structure Keeps (tracker tracker' : ipmb_session_tracker_t) : Prop where
  refers : ∀ sid p, Refers tracker sid p → Refers tracker' sid p
  retired : ∀ p, tracker.entries.Retired p → tracker'.entries.Retired p

theorem Keeps.refl (tracker : ipmb_session_tracker_t) : Keeps tracker tracker :=
  ⟨fun _ _ hp => hp, fun _ hp => hp⟩

theorem Keeps.trans {t₁ t₂ t₃ : ipmb_session_tracker_t} (h : Keeps t₁ t₂) (h' : Keeps t₂ t₃) : Keeps t₁ t₃ :=
  ⟨fun sid p hp => h'.refers sid p (h.refers sid p hp), fun p hp => h'.retired p (h.retired p hp)⟩

theorem update_entry_spec {tracker : ipmb_session_tracker_t} {ps₁ ps₂ : List Nat} {p : Nat}
    {es₁ es₂ : List ipmb_session_entry_t} {e : ipmb_session_entry_t} (h : Tracks tracker (es₁ ++ e :: es₂))
    (hhead : tracker.head = ps₁ ++ p :: ps₂) (hps₁ : tracker.entries.Holds ps₁ es₁)
    (hread : tracker.entries.read p = some e) (hps₂ : tracker.entries.Holds ps₂ es₂) (payload : List UInt8) :
    ∃ tracker', update_entry true tracker p payload = .ok (.IPMB_OK, tracker') ∧
      Tracks tracker' (es₁ ++ e.update payload :: es₂) ∧ Keeps tracker tracker' := by
  obtain ⟨entries, hwrite⟩ := Heap.write_of_read hread (e.update payload)
  have hreads := Heap.read_write hwrite
  have hothers : ∀ q ∈ ps₁ ++ ps₂, entries.read q = tracker.entries.read q := by
    have hnodup := h.nodup
    rw [hhead, List.nodup_middle, List.nodup_cons] at hnodup
    intro q hq
    rw [hreads, if_neg]
    rintro rfl
    exact hnodup.1 hq
  refine ⟨{ tracker with entries }, ?_, ⟨h.nodup, ?_, ?_, ?_⟩, ?_, fun q hq => hq.of_write hwrite⟩
  · rw [update_entry, entry_of_read hread, ok_bind, if_neg (by simp)]
    rw [ipmb_session_entry_t.update] at hwrite
    rw [hwrite]
    rfl
  · change entries.Holds tracker.head _
    rw [hhead]
    refine Heap.holds_append (hps₁.congr fun q hq => hothers q (List.mem_append_left _ hq))
      (Heap.holds_cons.mpr ⟨?_, hps₂.congr fun q hq => hothers q (List.mem_append_right _ hq)⟩)
    rw [hreads, if_pos rfl]
  · rw [h.count_eq, List.length_append, List.length_append, List.length_cons, List.length_cons]
  · simpa using h.distinct
  · rintro sid q ⟨hq, x, hx, hsid⟩
    refine ⟨hq, ?_⟩
    change ∃ y, entries.read q = some y ∧ _
    rw [hreads]
    by_cases hqp : q = p
    · subst hqp
      obtain rfl : e = x := Option.some.inj (hread.symm.trans hx)
      exact ⟨_, if_pos rfl, hsid⟩
    · exact ⟨x, by rw [if_neg hqp, hx], hsid⟩

/-- Without memory for the state the entry stays as it is. -/
theorem update_entry_refused {tracker : ipmb_session_tracker_t} {p : Nat} {e : ipmb_session_entry_t}
    (hread : tracker.entries.read p = some e) {payload : List UInt8} (hpayload : payload ≠ []) :
    update_entry false tracker p payload = .ok (.IPMB_ERR_ALLOC, tracker) := by
  rw [update_entry, entry_of_read hread, ok_bind, if_pos ⟨hpayload, rfl⟩, pure_eq_ok]

/-- Whether the reallocation of the state succeeds matters only for a payload. -/
theorem update_entry_granted {realloc_state : Bool} {payload : List UInt8}
    (h : ¬(payload ≠ [] ∧ realloc_state = false)) (tracker : ipmb_session_tracker_t) (p : Nat) :
    update_entry realloc_state tracker p payload = update_entry true tracker p payload := by
  simp [update_entry, h]

/-- A tracker with one entry more, at the head. -/
theorem Tracks.push {tracker : ipmb_session_tracker_t} {es : List ipmb_session_entry_t} (h : Tracks tracker es)
    {e : ipmb_session_entry_t} (hnew : e.session_id ∉ ids es) (tracker' : ipmb_session_tracker_t)
    (hentries : tracker'.entries = (tracker.entries.alloc e).2)
    (hhead : tracker'.head = (tracker.entries.alloc e).1 :: tracker.head)
    (hcount : tracker'.count = tracker.count + 1) :
    tracker'.entries.Holds tracker.head es ∧ Tracks tracker' (e :: es) ∧ Keeps tracker tracker' := by
  have hlt : ∀ q ∈ tracker.head, q < tracker.entries.blocks.length := by
    intro q hq
    obtain ⟨x, _, hread⟩ := h.holds.read hq
    exact Heap.lt_length_of_read hread
  have hspared : ∀ q ∈ tracker.head, tracker'.entries.read q = tracker.entries.read q := by
    intro q hq
    rw [hentries]
    exact Heap.read_alloc_of_lt e (hlt q hq)
  have hholds := h.holds.congr hspared
  refine ⟨hholds, ⟨?_, ?_, ?_, ?_⟩, ⟨?_, ?_⟩⟩
  · rw [hhead, List.nodup_cons]
    refine ⟨?_, h.nodup⟩
    intro hmem
    exact absurd (hlt _ hmem) (Nat.lt_irrefl _)
  · rw [hhead, Heap.holds_cons]
    refine ⟨?_, hholds⟩
    rw [hentries]
    exact Heap.read_alloc_self _ _
  · rw [hcount, h.count_eq, List.length_cons]
  · rw [ids, List.map_cons, List.nodup_cons]
    exact ⟨hnew, h.distinct⟩
  · rintro sid q ⟨hq, x, hx, hsid⟩
    refine ⟨?_, x, (hspared q hq).trans hx, hsid⟩
    rw [hhead]
    exact List.mem_cons_of_mem _ hq
  · intro q hq
    rw [hentries]
    exact hq.alloc e

/-- The search stops at the entry of a session, with the others around it. -/
theorem Tracks.find_present {tracker : ipmb_session_tracker_t} {es : List ipmb_session_entry_t}
    (h : Tracks tracker es) {session_id : UInt32} {e : ipmb_session_entry_t}
    (hlookup : lookup ipmb_session_entry_t.session_id session_id es = some e) :
    ∃ ps₁ p ps₂ es₁ es₂, ipmb_session_find tracker session_id = .ok (some p) ∧ e.session_id = session_id ∧
      tracker.head = ps₁ ++ p :: ps₂ ∧ es = es₁ ++ e :: es₂ ∧ tracker.entries.Holds ps₁ es₁ ∧
      tracker.entries.read p = some e ∧ tracker.entries.Holds ps₂ es₂ := by
  obtain ⟨hkey, es₁, es₂, rfl, hbefore⟩ := lookup_split hlookup
  obtain ⟨ps₁, p, ps₂, hhead, hps₁, hread, hps₂⟩ := h.holds.split
  refine ⟨ps₁, p, ps₂, es₁, es₂, ?_, hkey, hhead, rfl, hps₁, hread, hps₂⟩
  rw [ipmb_session_find, hhead, find_from_append hps₁ hbefore, find_from, entry_of_read hread, ok_bind,
    if_pos hkey, pure_eq_ok]

theorem Tracks.find_absent {tracker : ipmb_session_tracker_t} {es : List ipmb_session_entry_t}
    (h : Tracks tracker es) {session_id : UInt32}
    (hlookup : lookup ipmb_session_entry_t.session_id session_id es = none) :
    ipmb_session_find tracker session_id = .ok none := by
  rw [ipmb_session_find, ← List.append_nil tracker.head,
    find_from_append h.holds (lookup_eq_none_iff.mp hlookup), find_from]

/-- The search finds the entry of a session, if there is one. -/
theorem ipmb_session_find_spec {tracker : ipmb_session_tracker_t} {es : List ipmb_session_entry_t}
    (h : Tracks tracker es) (session_id : UInt32) :
    match lookup ipmb_session_entry_t.session_id session_id es with
    | none => ipmb_session_find tracker session_id = .ok none
    | some e => ∃ p, ipmb_session_find tracker session_id = .ok (some p) ∧ tracker.entries.read p = some e := by
  cases hlookup : lookup ipmb_session_entry_t.session_id session_id es with
  | some e =>
    obtain ⟨_, p, _, _, _, hfind, _, _, _, _, hread, _⟩ := h.find_present hlookup
    exact ⟨p, hfind, hread⟩
  | none => exact h.find_absent hlookup

/-- An upsert of a session that is there updates its entry. -/
theorem upsert_present_spec (alloc : Allocator) {tracker : ipmb_session_tracker_t}
    {es : List ipmb_session_entry_t} (h : Tracks tracker es) {session_id : UInt32} (peer_id : UInt32)
    (payload : List UInt8) {e : ipmb_session_entry_t}
    (hlookup : lookup ipmb_session_entry_t.session_id session_id es = some e) :
    ∃ tracker', ipmb_session_upsert alloc tracker session_id peer_id payload =
        .ok ((upserted_with alloc session_id peer_id payload es).1, tracker') ∧
      Tracks tracker' (upserted_with alloc session_id peer_id payload es).2 ∧ Keeps tracker tracker' := by
  obtain ⟨ps₁, p, ps₂, es₁, es₂, hfind, hkey, hhead, rfl, hps₁, hread, hps₂⟩ := h.find_present hlookup
  have hpresent : session_id ∈ ids (es₁ ++ e :: es₂) := by simp [hkey]
  rw [ipmb_session_upsert, hfind, ok_bind]
  by_cases hrefused : payload ≠ [] ∧ alloc 1 = false
  · have houtcome : upserted_with alloc session_id peer_id payload (es₁ ++ e :: es₂) =
        (.IPMB_ERR_ALLOC, es₁ ++ e :: es₂) := by
      rw [upserted_with, if_neg (not_and_of_not_left _ (not_not.mpr hpresent)), if_pos hrefused,
        if_pos hpresent]
    rw [houtcome, hrefused.2]
    exact ⟨tracker, update_entry_refused hread hrefused.1, h, Keeps.refl tracker⟩
  · have houtcome : upserted_with alloc session_id peer_id payload (es₁ ++ e :: es₂) =
        (.IPMB_OK, es₁ ++ e.update payload :: es₂) := by
      rw [upserted_with, if_neg (not_and_of_not_left _ (not_not.mpr hpresent)), if_neg hrefused,
        upserted_split h.distinct hkey]
    rw [houtcome]
    simp only [update_entry_granted hrefused]
    exact update_entry_spec h hhead hps₁ hread hps₂ payload

/-- One of a new session links an entry in front, which stays when there is no
room for the payload. -/
theorem upsert_absent_spec (alloc : Allocator) {tracker : ipmb_session_tracker_t}
    {es : List ipmb_session_entry_t} (h : Tracks tracker es) {session_id : UInt32} (peer_id : UInt32)
    (payload : List UInt8) (hlookup : lookup ipmb_session_entry_t.session_id session_id es = none) :
    ∃ tracker', ipmb_session_upsert alloc tracker session_id peer_id payload =
        .ok ((upserted_with alloc session_id peer_id payload es).1, tracker') ∧
      Tracks tracker' (upserted_with alloc session_id peer_id payload es).2 ∧ Keeps tracker tracker' := by
  have habsent : session_id ∉ ids es := lookup_eq_none_iff_notMem.mp hlookup
  rw [ipmb_session_upsert, h.find_absent hlookup, ok_bind]
  by_cases hunlinked : alloc 0 = false
  · have houtcome : upserted_with alloc session_id peer_id payload es = (.IPMB_ERR_ALLOC, es) := by
      rw [upserted_with, if_pos ⟨habsent, hunlinked⟩]
    rw [houtcome]
    simp only [if_pos hunlinked, pure_eq_ok]
    exact ⟨tracker, rfl, h, Keeps.refl tracker⟩
  · obtain ⟨p, entries, halloc⟩ : ∃ p entries,
        tracker.entries.alloc (.new session_id peer_id) = (p, entries) := ⟨_, _, rfl⟩
    have hentries : entries = (tracker.entries.alloc (.new session_id peer_id)).2 := by rw [halloc]
    have hp : p = (tracker.entries.alloc (.new session_id peer_id)).1 := by rw [halloc]
    obtain ⟨hholds, htracks, hkeeps⟩ := h.push (e := .new session_id peer_id) habsent
      { entries, head := p :: tracker.head, count := tracker.count + 1 } hentries (by rw [hp]) rfl
    obtain ⟨hread, _⟩ := Heap.holds_cons.mp htracks.holds
    rw [ipmb_session_entry_t.new] at halloc
    simp only [if_neg hunlinked, halloc]
    by_cases hrefused : payload ≠ [] ∧ alloc 1 = false
    · have houtcome : upserted_with alloc session_id peer_id payload es =
          (.IPMB_ERR_ALLOC, .new session_id peer_id :: es) := by
        rw [upserted_with, if_neg (not_and_of_not_right _ hunlinked), if_pos hrefused, if_neg habsent]
      rw [houtcome, hrefused.2]
      exact ⟨_, update_entry_refused hread hrefused.1, htracks, hkeeps⟩
    · have houtcome : upserted_with alloc session_id peer_id payload es =
          (.IPMB_OK, (ipmb_session_entry_t.new session_id peer_id).update payload :: es) := by
        rw [upserted_with, if_neg (not_and_of_not_right _ hunlinked), if_neg hrefused, upserted,
          if_neg habsent]
      rw [← List.nil_append (.new session_id peer_id :: es)] at htracks
      obtain ⟨tracker', hrun, htracks', hkeeps'⟩ :=
        update_entry_spec htracks (List.nil_append _).symm (Heap.holds_nil _) hread hholds payload
      rw [houtcome, update_entry_granted hrefused]
      exact ⟨tracker', hrun, htracks', hkeeps.trans hkeeps'⟩

/-- An upsert is one of the entries as values, with what the allocator
answers. -/
theorem ipmb_session_upsert_with_spec (alloc : Allocator) {tracker : ipmb_session_tracker_t}
    {es : List ipmb_session_entry_t} (h : Tracks tracker es) (session_id peer_id : UInt32)
    (payload : List UInt8) :
    ∃ tracker', ipmb_session_upsert alloc tracker session_id peer_id payload =
        .ok ((upserted_with alloc session_id peer_id payload es).1, tracker') ∧
      Tracks tracker' (upserted_with alloc session_id peer_id payload es).2 ∧ Keeps tracker tracker' := by
  cases hlookup : lookup ipmb_session_entry_t.session_id session_id es with
  | some e => exact upsert_present_spec alloc h peer_id payload hlookup
  | none => exact upsert_absent_spec alloc h peer_id payload hlookup

theorem upserted_with_succeeds (session_id peer_id : UInt32) (payload : List UInt8)
    (es : List ipmb_session_entry_t) :
    upserted_with Allocator.succeeds session_id peer_id payload es =
      (.IPMB_OK, upserted session_id peer_id payload es) := by
  simp [upserted_with, Allocator.succeeds]

/-- An upsert fails for want of the entry of a new session or of room for a
payload. -/
theorem upserted_with_fails_iff (alloc : Allocator) (session_id peer_id : UInt32) (payload : List UInt8)
    (es : List ipmb_session_entry_t) :
    (upserted_with alloc session_id peer_id payload es).1 ≠ .IPMB_OK ↔
      session_id ∉ ids es ∧ alloc 0 = false ∨ payload ≠ [] ∧ alloc 1 = false := by
  rw [upserted_with]
  by_cases hentry : session_id ∉ ids es ∧ alloc 0 = false
  · rw [if_pos hentry]
    exact iff_of_true (by simp) (.inl hentry)
  · rw [if_neg hentry]
    by_cases hstate : payload ≠ [] ∧ alloc 1 = false
    · rw [if_pos hstate]
      exact iff_of_true (by simp) (.inr hstate)
    · rw [if_neg hstate]
      exact iff_of_false (by simp) (not_or.mpr ⟨hentry, hstate⟩)

/-- An upsert that gets all it asks for is one with memory. -/
theorem ipmb_session_upsert_granted {alloc : Allocator} {tracker : ipmb_session_tracker_t}
    {es : List ipmb_session_entry_t} (h : Tracks tracker es) {session_id peer_id : UInt32}
    {payload : List UInt8} (hentry : ¬(session_id ∉ ids es ∧ alloc 0 = false))
    (hstate : ¬(payload ≠ [] ∧ alloc 1 = false)) :
    ipmb_session_upsert alloc tracker session_id peer_id payload =
      ipmb_session_upsert Allocator.succeeds tracker session_id peer_id payload := by
  cases hlookup : lookup ipmb_session_entry_t.session_id session_id es with
  | some e =>
    obtain ⟨_, p, _, _, _, hfind, _⟩ := h.find_present hlookup
    rw [ipmb_session_upsert, ipmb_session_upsert, hfind]
    simp only [ok_bind, update_entry_granted hstate, Allocator.succeeds]
  | none =>
    have hgranted : alloc 0 = true := by
      by_contra hrefused
      exact hentry ⟨lookup_eq_none_iff_notMem.mp hlookup, Bool.eq_false_iff.mpr hrefused⟩
    rw [ipmb_session_upsert, ipmb_session_upsert, h.find_absent hlookup]
    simp only [ok_bind, hgranted, update_entry_granted hstate, Allocator.succeeds]
    rfl

/-- With memory an upsert is one of the entries as values. -/
theorem ipmb_session_upsert_spec {tracker : ipmb_session_tracker_t} {es : List ipmb_session_entry_t}
    (h : Tracks tracker es) (session_id peer_id : UInt32) (payload : List UInt8) :
    ∃ tracker', ipmb_session_upsert Allocator.succeeds tracker session_id peer_id payload =
        .ok (.IPMB_OK, tracker') ∧
      Tracks tracker' (upserted session_id peer_id payload es) ∧ Keeps tracker tracker' := by
  have hspec := ipmb_session_upsert_with_spec Allocator.succeeds h session_id peer_id payload
  rwa [upserted_with_succeeds] at hspec

/-- A tracker without one of its entries, which is released. -/
theorem Tracks.unlink {tracker : ipmb_session_tracker_t} {ps₁ ps₂ : List Nat} {p : Nat}
    {es₁ es₂ : List ipmb_session_entry_t} {e : ipmb_session_entry_t} (h : Tracks tracker (es₁ ++ e :: es₂))
    (hhead : tracker.head = ps₁ ++ p :: ps₂) (hps₁ : tracker.entries.Holds ps₁ es₁)
    (hread : tracker.entries.read p = some e) (hps₂ : tracker.entries.Holds ps₂ es₂)
    {entries : Heap ipmb_session_entry_t} (hfree : tracker.entries.free p = some entries) :
    Tracks { entries, head := ps₁ ++ ps₂, count := tracker.count - 1 } (es₁ ++ es₂) ∧
      (∀ sid q, Refers tracker sid q → if sid = e.session_id then entries.Retired q
        else Refers { entries, head := ps₁ ++ ps₂, count := tracker.count - 1 } sid q) := by
  have hnodup := h.nodup
  rw [hhead, List.nodup_middle, List.nodup_cons] at hnodup
  have hothers : ∀ q, q ≠ p → entries.read q = tracker.entries.read q :=
    fun q hq => Heap.read_free_ne hfree hq
  have hlinked : ∀ q ∈ ps₁ ++ ps₂, entries.read q = tracker.entries.read q := by
    intro q hq
    refine hothers q ?_
    rintro rfl
    exact hnodup.1 hq
  obtain ⟨hdistinct, hsessions⟩ := nodup_split h.distinct
  refine ⟨⟨hnodup.2, ?_, ?_, hdistinct⟩, ?_⟩
  · exact (Heap.holds_append hps₁ hps₂).congr hlinked
  · have hcount := h.count_eq
    rw [List.length_append, List.length_cons] at hcount
    simp only [hcount, List.length_append]
    omega
  · rintro sid q ⟨hq, x, hx, hsid⟩
    by_cases hqp : q = p
    · subst hqp
      obtain rfl : e = x := Option.some.inj (hread.symm.trans hx)
      rw [if_pos hsid.symm]
      exact Heap.retired_of_free hfree
    · have hmem : q ∈ ps₁ ++ ps₂ := by
        rw [hhead] at hq
        simpa [hqp] using hq
      have hne : sid ≠ e.session_id := by
        -- another entry is one of another session
        obtain ⟨y, hy, hyread⟩ := (Heap.holds_append hps₁ hps₂).read hmem
        obtain rfl : y = x := Option.some.inj (hyread.symm.trans hx)
        rw [← hsid]
        exact hsessions _ hy
      rw [if_neg hne]
      exact ⟨hmem, x, (hothers q hqp).trans hx, hsid⟩

/-- A termination is one of the entries as values, and releases what referred
to the session. -/
theorem ipmb_session_terminate_spec {tracker : ipmb_session_tracker_t} {es : List ipmb_session_entry_t}
    (h : Tracks tracker es) (session_id : UInt32) :
    ∃ tracker', ipmb_session_terminate tracker session_id =
        .ok (if session_id ∈ ids es then .IPMB_OK else .IPMB_ERR_NOT_FOUND, tracker') ∧
      Tracks tracker' (terminated session_id es) ∧
      (∀ sid p, Refers tracker sid p →
        if sid = session_id then tracker'.entries.Retired p else Refers tracker' sid p) ∧
      (∀ p, tracker.entries.Retired p → tracker'.entries.Retired p) := by
  cases hlookup : lookup ipmb_session_entry_t.session_id session_id es with
  | some e =>
    obtain ⟨hkey, es₁, es₂, rfl, hbefore⟩ := lookup_split hlookup
    obtain ⟨ps₁, p, ps₂, hhead, hps₁, hread, hps₂⟩ := h.holds.split
    obtain ⟨entries, hfree⟩ := Heap.free_of_read hread
    have hdead : unlink tracker.entries session_id (p :: ps₂) = .ok (some (p, ps₂)) := by
      rw [unlink, entry_of_read hread, ok_bind, if_pos hkey, pure_eq_ok]
    have hunlink := unlink_append hps₁ hbefore hdead
    obtain ⟨htracks, hrefers⟩ := h.unlink hhead hps₁ hread hps₂ hfree
    rw [terminated_split h.distinct hkey]
    subst hkey
    refine ⟨_, ?_, htracks, hrefers, fun q hq => hq.of_free hfree⟩
    rw [ipmb_session_terminate, hhead, hunlink]
    simp [free_entry, hfree]
  | none =>
    have hnew := lookup_eq_none_iff.mp hlookup
    have hnil : unlink tracker.entries session_id [] = .ok none := rfl
    have hunlink := unlink_append h.holds hnew hnil
    rw [List.append_nil, Option.map_none] at hunlink
    have hsame : terminated session_id es = es := by
      rw [terminated, List.filter_eq_self]
      intro e he
      simpa using hnew e he
    refine ⟨tracker, ?_, ?_, ?_, fun p hp => hp⟩
    · rw [ipmb_session_terminate, hunlink, if_neg (lookup_eq_none_iff_notMem.mp hlookup), ok_bind, pure_eq_ok]
    · rw [hsame]
      exact h
    · rintro sid p ⟨hp, e, he, hsid⟩
      have hne : sid ≠ session_id := by
        obtain ⟨y, hy, hyread⟩ := h.holds.read hp
        obtain rfl : y = e := Option.some.inj (hyread.symm.trans he)
        rw [← hsid]
        exact hnew y hy
      rw [if_neg hne]
      exact ⟨hp, e, he, hsid⟩

/-- Releasing the entries from the head on. -/
theorem free_entries_eq (entries : Heap ipmb_session_entry_t) (ps : List Nat) :
    ps.foldlM free_entry entries =
      match entries.freeAll ps with
      | some entries => .ok entries
      | none => .error .doubleFree := by
  induction ps generalizing entries with
  | nil => rfl
  | cons p ps ih =>
    rw [List.foldlM_cons, free_entry, Heap.freeAll]
    cases entries.free p with
    | none => rfl
    | some entries => exact ih entries

/-- All linked entries can be released, and nothing else is. -/
theorem ipmb_session_tracker_free_spec {tracker : ipmb_session_tracker_t} {es : List ipmb_session_entry_t}
    (h : Tracks tracker es) :
    ∃ tracker', ipmb_session_tracker_free tracker = .ok tracker' ∧
      ∀ p, tracker'.entries.read p = if p ∈ tracker.head then none else tracker.entries.read p := by
  have hlive : ∀ p ∈ tracker.head, ∃ e, tracker.entries.read p = some e := by
    intro p hp
    obtain ⟨e, -, hread⟩ := h.holds.read hp
    exact ⟨e, hread⟩
  obtain ⟨entries, hfree⟩ := Heap.freeAll_of_live hlive h.nodup
  refine ⟨{ entries, head := [], count := 0 }, ?_, (Heap.freeAll_cases hfree).2⟩
  rw [ipmb_session_tracker_free, free_entries_eq, hfree]
  rfl

end ipmb.session_tracker
