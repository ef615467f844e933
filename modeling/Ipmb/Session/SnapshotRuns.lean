import Ipmb.Session.RingOwnership

open fallible heap

namespace ipmb.ring_window

/-- A ring, and the slots and lengths that its checkpoints saved so far. -/
structure ring_history where
  state : ring_state
  saved : List (List (Option Nat) × List Nat)

def init_history (ring : ipmb_ring_window_t) : ring_history := { state := init_state ring, saved := [] }

/-- A checkpoint saves the slots and the lengths when it gets both arrays. -/
def saved_by (st : ring_state) : Call → List (List (Option Nat) × List Nat)
  | .checkpoint true true => [(st.ring.segments, st.ring.lengths)]
  | _ => []

def recorded_call (h : ring_history) (c : Call) : Except Fault ring_history := do
  let state ← call h.state c
  pure { state, saved := h.saved ++ saved_by h.state c }

/-- While a snapshot is announced both its arrays are there and written, and a
rollback goes through and brings back nothing but what a checkpoint saved. -/
structure SnapshotHeld (h : ring_history) : Prop where
  arrays : h.state.ring.has_snapshot = true → ∃ segments lengths,
    h.state.ring.snapshot_segments = .saved segments ∧ h.state.ring.snapshot_lengths = .saved lengths ∧
    segments.length = h.state.ring.segment_count ∧ lengths.length = h.state.ring.segment_count
  rollback : ∃ st, ipmb_ring_rollback h.state = .ok st ∧
    (st = h.state ∨ (st.ring.segments, st.ring.lengths) ∈ h.saved)

/-- No checkpoint lacks an array while a snapshot is announced. -/
def Complete (h : ring_history) : Call → Prop
  | .checkpoint malloc_segments malloc_lengths =>
    h.state.ring.has_snapshot = true → malloc_segments = true ∧ malloc_lengths = true
  | _ => True

/-- The arrays of a snapshot are written together, by a checkpoint. -/
structure Recorded (h : ring_history) : Prop where
  lengths : h.state.ring.lengths.length = h.state.ring.segment_count
  written : ∀ segments, h.state.ring.snapshot_segments = .saved segments → ∃ lengths,
    h.state.ring.snapshot_lengths = .saved lengths ∧ (segments, lengths) ∈ h.saved ∧
    segments.length = h.state.ring.segment_count ∧ lengths.length = h.state.ring.segment_count

theorem snapshotHeld_iff {h : ring_history} (hrecorded : Recorded h) :
    SnapshotHeld h ↔ (h.state.ring.has_snapshot = true →
      ∃ segments, h.state.ring.snapshot_segments = .saved segments) := by
  constructor
  · intro hheld hhas
    obtain ⟨segments, _, hsegments, _⟩ := hheld.arrays hhas
    exact ⟨segments, hsegments⟩
  · intro hsaved
    cases hhas : h.state.ring.has_snapshot with
    | false =>
      refine ⟨fun h => ?_, h.state, if_pos hhas, .inl rfl⟩
      rw [hhas] at h
      cases h
    | true =>
      obtain ⟨segments, hsegments⟩ := hsaved hhas
      obtain ⟨lengths, hlengths, hmem, hcount, hcount'⟩ := hrecorded.written segments hsegments
      exact ⟨fun _ => ⟨segments, lengths, hsegments, hlengths, hcount, hcount'⟩, _,
        rollback_saved hsegments hlengths hhas, .inr hmem⟩

theorem recorded_call_cases {h h' : ring_history} {c : Call} (hcall : recorded_call h c = .ok h') :
    call h.state c = .ok h'.state ∧ h'.saved = h.saved ++ saved_by h.state c := by
  obtain ⟨state, hstate, hrest⟩ := bind_eq_ok_iff.mp hcall
  cases hrest
  exact ⟨hstate, rfl⟩

/-- An append leaves the snapshot and the sizes alone. -/
theorem append_keeps {st st' : ring_state} {data : List UInt8} {malloc : Bool}
    (hcall : call st (.append data malloc) = .ok st') :
    st'.ring.segment_count = st.ring.segment_count ∧ st'.ring.lengths.length = st.ring.lengths.length ∧
      st'.ring.snapshot_segments = st.ring.snapshot_segments ∧
      st'.ring.snapshot_lengths = st.ring.snapshot_lengths ∧ st'.ring.has_snapshot = st.ring.has_snapshot := by
  obtain ⟨⟨rc, st₁⟩, happend, rfl⟩ := map_eq_ok_iff.mp hcall
  cases malloc with
  | false =>
    cases happend
    exact ⟨rfl, rfl, rfl, rfl, rfl⟩
  | true =>
    obtain ⟨_, _, _, _, hring⟩ := append_cases happend
    refine ⟨?_, ?_, ?_, ?_, ?_⟩ <;> rw [hring] <;> simp [ipmb_ring_window_t.segment_count]

/-- A checkpoint that leaves written arrays got both of them. -/
theorem checkpoint_saved {malloc_segments malloc_lengths : Bool} {st : ring_state} {segments : List (Option Nat)}
    (h : (ipmb_ring_checkpoint malloc_segments malloc_lengths st).ring.snapshot_segments = .saved segments) :
    malloc_segments = true ∧ malloc_lengths = true := by
  cases malloc_segments with
  | false => cases h
  | true =>
    cases malloc_lengths with
    | false => cases h
    | true => exact ⟨rfl, rfl⟩

/-- A checkpoint announces a snapshot when it got both arrays, and withdraws
none. -/
theorem checkpoint_flag (malloc_segments malloc_lengths : Bool) (st : ring_state) :
    (ipmb_ring_checkpoint malloc_segments malloc_lengths st).ring.lengths = st.ring.lengths ∧
      (ipmb_ring_checkpoint malloc_segments malloc_lengths st).ring.has_snapshot =
        (st.ring.has_snapshot || malloc_segments && malloc_lengths) := by
  cases malloc_segments with
  | false => exact ⟨rfl, (Bool.or_false _).symm⟩
  | true =>
    cases malloc_lengths with
    | false => exact ⟨rfl, (Bool.or_false _).symm⟩
    | true => exact ⟨rfl, (Bool.or_true _).symm⟩

theorem Recorded.call {h h' : ring_history} {c : Call} (hrecorded : Recorded h)
    (hcall : recorded_call h c = .ok h') : Recorded h' := by
  obtain ⟨hstate, hsaved⟩ := recorded_call_cases hcall
  cases c with
  | append data malloc =>
    obtain ⟨hcount, hlengths, hsegments', hlengths', _⟩ := append_keeps hstate
    constructor
    · rw [hlengths, hcount, hrecorded.lengths]
    · rw [hsegments', hlengths', hcount, hsaved]
      intro segments hsegments
      obtain ⟨lengths, hwritten, hmem, hsizes⟩ := hrecorded.written segments hsegments
      exact ⟨lengths, hwritten, List.mem_append_left _ hmem, hsizes⟩
  | checkpoint malloc_segments malloc_lengths =>
    have hring := Except.ok.inj hstate
    constructor
    · obtain ⟨hsegments, -⟩ := checkpoint_cases malloc_segments malloc_lengths h.state
      rw [← hring, (checkpoint_flag malloc_segments malloc_lengths h.state).1, ipmb_ring_window_t.segment_count,
        hsegments]
      exact hrecorded.lengths
    · rw [← hring, hsaved]
      intro segments hsegments
      obtain ⟨rfl, rfl⟩ := checkpoint_saved hsegments
      obtain rfl : segments = h.state.ring.segments := by
        cases hsegments
        rfl
      exact ⟨_, rfl, List.mem_append_right _ (List.mem_singleton_self _), rfl, hrecorded.lengths⟩
  | rollback =>
    obtain ⟨-, hsame⟩ | ⟨segments, lengths, hsegments, hlengths, hsame⟩ := rollback_cases hstate
    · have hnone : h'.saved = h.saved := hsaved.trans (List.append_nil _)
      constructor
      · rw [hsame]
        exact hrecorded.lengths
      · rw [hsame, hnone]
        exact hrecorded.written
    · obtain ⟨lengths', hwritten, hmem, hcount, hcount'⟩ := hrecorded.written segments hsegments
      obtain rfl : lengths' = lengths := by simpa [hlengths] using hwritten.symm
      constructor
      · rw [hsame]
        exact hcount'.trans hcount.symm
      · rw [hsame, hsaved]
        intro entries hentries
        obtain rfl : entries = segments := by simpa [hsegments] using hentries.symm
        exact ⟨_, hlengths, List.mem_append_left _ hmem, rfl, hcount'.trans hcount.symm⟩

/-- A call leads to states that hold their snapshot only, exactly when it is
not a checkpoint that loses one. -/
theorem recorded_call_held_iff {h : ring_history} (hrecorded : Recorded h) (hheld : SnapshotHeld h) (c : Call) :
    (∀ h', recorded_call h c = .ok h' → SnapshotHeld h') ↔ Complete h c := by
  rw [snapshotHeld_iff hrecorded] at hheld
  cases c with
  | append data malloc =>
    refine iff_of_true ?_ trivial
    intro h' hcall
    obtain ⟨hstate, -⟩ := recorded_call_cases hcall
    obtain ⟨-, -, hsegments, -, hhas⟩ := append_keeps hstate
    rw [snapshotHeld_iff (hrecorded.call hcall), hsegments, hhas]
    exact hheld
  | checkpoint malloc_segments malloc_lengths =>
    have hcall : recorded_call h (.checkpoint malloc_segments malloc_lengths) = .ok
        { state := ipmb_ring_checkpoint malloc_segments malloc_lengths h.state
          saved := h.saved ++ saved_by h.state (.checkpoint malloc_segments malloc_lengths) } := rfl
    constructor
    · intro hkeeps hhas
      have hheld' := (snapshotHeld_iff (hrecorded.call hcall)).mp (hkeeps _ hcall)
      have hstill : (ipmb_ring_checkpoint malloc_segments malloc_lengths h.state).ring.has_snapshot = true := by
        rw [(checkpoint_flag malloc_segments malloc_lengths h.state).2, hhas, Bool.true_or]
      obtain ⟨segments, hsegments⟩ := hheld' hstill
      exact checkpoint_saved hsegments
    · intro hcomplete h' hcall'
      obtain rfl := Except.ok.inj (hcall.symm.trans hcall')
      rw [snapshotHeld_iff (hrecorded.call hcall)]
      intro hhas
      rw [(checkpoint_flag malloc_segments malloc_lengths h.state).2] at hhas
      have hboth : malloc_segments = true ∧ malloc_lengths = true := by
        cases hold : h.state.ring.has_snapshot with
        | true => exact hcomplete hold
        | false => simpa [hold] using hhas
      obtain ⟨rfl, rfl⟩ := hboth
      exact ⟨_, rfl⟩
  | rollback =>
    refine iff_of_true ?_ trivial
    intro h' hcall
    obtain ⟨hstate, -⟩ := recorded_call_cases hcall
    rw [snapshotHeld_iff (hrecorded.call hcall)]
    obtain ⟨-, hsame⟩ | ⟨segments, lengths, hsegments, hlengths, hsame⟩ := rollback_cases hstate
    · rw [hsame]
      exact hheld
    · rw [hsame]
      exact hheld

theorem recorded_init {k : Nat} {ring : ipmb_ring_window_t}
    (hinit : ipmb_ring_init true true k = (.IPMB_OK, ring)) :
    Recorded (init_history ring) ∧ SnapshotHeld (init_history ring) := by
  obtain ⟨-, hsegments, hlengths, -⟩ := ipmb_ring_init_ok hinit
  obtain ⟨hnull, hnone⟩ := ipmb_ring_init_no_snapshot hinit
  have hrecorded : Recorded (init_history ring) := by
    constructor
    · change ring.lengths.length = ring.segments.length
      rw [hsegments, hlengths, List.length_replicate, List.length_replicate]
    · intro segments hsaved
      cases hnull.symm.trans hsaved
  refine ⟨hrecorded, (snapshotHeld_iff hrecorded).mpr ?_⟩
  intro hhas
  cases hnone.symm.trans hhas

/-- In a run from a new ring every state holds the snapshot it announces
exactly when no checkpoint loses an announced snapshot for want of memory. -/
theorem ring_snapshot_held_iff {k : Nat} {ring : ipmb_ring_window_t}
    (hinit : ipmb_ring_init true true k = (.IPMB_OK, ring)) (calls : List Call) :
    Throughout recorded_call SnapshotHeld (init_history ring) calls ↔
      Guarded recorded_call Complete (init_history ring) calls := by
  obtain ⟨hrecorded, hheld⟩ := recorded_init hinit
  exact throughout_iff_guarded (fun h c h' hrecorded hcall => hrecorded.call hcall)
    (fun h c hrecorded hheld => recorded_call_held_iff hrecorded hheld c) hrecorded hheld calls

/-- A second checkpoint that gets its memory replaces the first. -/
theorem ring_snapshot_held_twice :
    Throughout recorded_call SnapshotHeld (init_history (ipmb_ring_init true true 2).2)
      [.checkpoint false true, .checkpoint true true, .append [1] true, .checkpoint true true, .rollback] := by
  have hinit : ipmb_ring_init true true 2 = (.IPMB_OK, (ipmb_ring_init true true 2).2) := rfl
  apply (ring_snapshot_held_iff hinit _).mpr
  refine ⟨fun hnone => Bool.noConfusion hnone, ?_⟩
  intro h₁ hcheckpoint
  obtain rfl := Except.ok.inj hcheckpoint
  refine ⟨fun _ => ⟨rfl, rfl⟩, ?_⟩
  intro h₂ hcheckpoint
  obtain rfl := Except.ok.inj hcheckpoint
  refine ⟨trivial, ?_⟩
  intro h₃ happend
  obtain rfl := Except.ok.inj happend
  exact ⟨fun _ => ⟨rfl, rfl⟩, fun _ _ => ⟨trivial, fun _ _ => trivial⟩⟩

/-- A second checkpoint that lacks the array of slots leaves the flag of the
first. A rollback after it reads through the null pointer. -/
theorem ring_snapshot_lost :
    ¬Throughout recorded_call SnapshotHeld (init_history (ipmb_ring_init true true 1).2)
        [.checkpoint true true, .checkpoint false true] ∧
      [Call.checkpoint true true, .checkpoint false true, .rollback].foldlM call
        (init_state (ipmb_ring_init true true 1).2) = .error .nullPointer := by
  refine ⟨?_, rfl⟩
  intro ⟨_, hfirst⟩
  obtain ⟨_, hsecond⟩ := hfirst _ rfl
  have hheld : SnapshotHeld _ := hsecond _ rfl
  obtain ⟨_, _, hsegments, _⟩ := hheld.arrays rfl
  cases hsegments

end ipmb.ring_window
