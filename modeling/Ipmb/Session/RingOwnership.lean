import Ipmb.Session.RingRollback

open fallible heap

namespace ipmb.ring_window

/-- The calls that change a ring, with how their allocations end. -/
inductive Call where
  | append (data : List UInt8) (malloc : Bool)
  | checkpoint (malloc_segments malloc_lengths : Bool)
  | rollback
  deriving Repr, DecidableEq

def call (st : ring_state) : Call → Except Fault ring_state
  | .append data malloc => Prod.snd <$> ipmb_ring_append malloc st data
  | .checkpoint malloc_segments malloc_lengths =>
    .ok (ipmb_ring_checkpoint malloc_segments malloc_lengths st)
  | .rollback => ipmb_ring_rollback st

/-- Every slot is empty or names a live block, which no other slot names. -/
structure Owned (st : ring_state) : Prop where
  live : ∀ i p : Nat, st.ring.segments[i]? = some (some p) → ∃ data, st.heap.read p = some data
  distinct : ∀ i j p : Nat, st.ring.segments[i]? = some (some p) → st.ring.segments[j]? = some (some p) → i = j

/-- A rollback needs the arrays of a snapshot, and the blocks the snapshot
names still in their slots; the other calls need nothing. -/
def Restorable (st : ring_state) : Call → Prop
  | .append _ _ => True
  | .checkpoint _ _ => True
  | .rollback => st.ring.has_snapshot = true → ∃ segments lengths,
      st.ring.snapshot_segments = .saved segments ∧ st.ring.snapshot_lengths = .saved lengths ∧
      ∀ i p : Nat, segments[i]? = some (some p) → st.ring.segments[i]? = some (some p)

/-- What a snapshot names is still in its slot or was released since. -/
structure Traced (st : ring_state) : Prop where
  head_lt : st.ring.head < st.ring.segments.length
  count : ∀ segments, st.ring.snapshot_segments = .saved segments →
    segments.length = st.ring.segments.length
  named : ∀ segments, st.ring.snapshot_segments = .saved segments → ∀ i p : Nat,
    segments[i]? = some (some p) → st.ring.segments[i]? = some (some p) ∨ st.heap.Retired p

theorem rollback_cases {st st' : ring_state} (h : ipmb_ring_rollback st = .ok st') :
    (st.ring.has_snapshot = false ∧ st' = st) ∨ ∃ segments lengths,
      st.ring.snapshot_segments = .saved segments ∧ st.ring.snapshot_lengths = .saved lengths ∧
      st' = { st with ring := { st.ring with segments, lengths } } := by
  rw [ipmb_ring_rollback] at h
  split_ifs at h with hhas
  · cases h
    exact .inl ⟨hhas, rfl⟩
  · obtain ⟨segments, hsegments, h⟩ := bind_eq_ok_iff.mp h
    obtain ⟨lengths, hlengths, h⟩ := bind_eq_ok_iff.mp h
    cases h
    have hsaved : ∀ {α : Type} {snapshot : Snapshot α} {entries : List α},
        restore snapshot = .ok entries → snapshot = .saved entries := by
      intro α snapshot entries hrestore
      cases snapshot <;> cases hrestore
      rfl
    exact .inr ⟨segments, lengths, hsaved hsegments, hsaved hlengths, rfl⟩

/-- A checkpoint that is not complete leaves no array to read. -/
theorem checkpoint_cases (malloc_segments malloc_lengths : Bool) (st : ring_state) :
    let st' := ipmb_ring_checkpoint malloc_segments malloc_lengths st
    st'.ring.segments = st.ring.segments ∧ st'.ring.head = st.ring.head ∧ st'.heap = st.heap ∧
      ∀ segments, st'.ring.snapshot_segments = .saved segments → segments = st.ring.segments := by
  cases malloc_segments with
  | false =>
    refine ⟨rfl, rfl, rfl, ?_⟩
    intro segments hsaved
    cases hsaved
  | true =>
    cases malloc_lengths with
    | false =>
      refine ⟨rfl, rfl, rfl, ?_⟩
      intro segments hsaved
      cases hsaved
    | true =>
      refine ⟨rfl, rfl, rfl, ?_⟩
      intro segments hsaved
      cases hsaved
      rfl

theorem Traced.append {st st' : ring_state} {data : List UInt8} {rc : ipmb_status_t} (h : Traced st)
    (happend : ipmb_ring_append true st data = .ok (rc, st')) : Traced st' := by
  obtain ⟨old, hold, hfree, -, hring⟩ := append_cases happend
  obtain ⟨hstays, hretires⟩ := free_pointer_retires hfree
  have hpos : 0 < st.ring.segment_count := Nat.lt_of_le_of_lt (Nat.zero_le _) h.head_lt
  have hsnapshot : st'.ring.snapshot_segments = st.ring.snapshot_segments := by
    rw [hring]
  constructor
  · rw [hring, List.length_set]
    exact Nat.mod_lt _ hpos
  · intro segments hsaved
    rw [hring, List.length_set]
    exact h.count segments (hsnapshot.symm.trans hsaved)
  · intro segments hsaved i p hslot
    obtain hkept | hretired := h.named segments (hsnapshot.symm.trans hsaved) i p hslot
    · by_cases hhead : st.ring.head = i
      · -- the slot is filled again, and what it named is released
        rw [← hhead, hold, Option.some_inj] at hkept
        exact .inr (hretires p hkept)
      · left
        rw [hring]
        simp only
        rw [List.getElem?_set_ne hhead, hkept]
    · exact .inr (hstays p (hretired.alloc data)).1

theorem Traced.call {st st' : ring_state} {c : Call} (h : Traced st) (hcall : call st c = .ok st') :
    Traced st' := by
  cases c with
  | append data malloc =>
    obtain ⟨⟨rc, st₁⟩, happend, rfl⟩ := map_eq_ok_iff.mp hcall
    cases malloc with
    | false =>
      cases happend
      exact h
    | true => exact h.append happend
  | checkpoint malloc_segments malloc_lengths =>
    cases hcall
    obtain ⟨hsegments, hhead, -, hsaved⟩ := checkpoint_cases malloc_segments malloc_lengths st
    constructor
    · rw [hsegments, hhead]
      exact h.head_lt
    · intro segments hsnapshot
      rw [hsegments, hsaved segments hsnapshot]
    · intro segments hsnapshot i p hslot
      rw [hsaved segments hsnapshot] at hslot
      rw [hsegments]
      exact .inl hslot
  | rollback =>
    obtain ⟨-, rfl⟩ | ⟨segments, lengths, hsegments, -, rfl⟩ := rollback_cases hcall
    · exact h
    · constructor
      · change st.ring.head < segments.length
        rw [h.count segments hsegments]
        exact h.head_lt
      · intro entries hentries
        rw [show entries = segments by simpa [hsegments] using hentries.symm]
      · intro entries hentries i p hslot
        rw [show entries = segments by simpa [hsegments] using hentries.symm] at hslot
        exact .inl hslot

/-- An append to slots that are owned releases a live block only, and gives
its slot a block that no other names. -/
theorem Owned.append {st : ring_state} (howned : Owned st) (htraced : Traced st) (data : List UInt8) :
    ∃ st', ipmb_ring_append true st data = .ok (.IPMB_OK, st') ∧ Owned st' := by
  obtain ⟨old, hold⟩ : ∃ old, st.ring.segments[st.ring.head]? = some old :=
    ⟨_, List.getElem?_eq_getElem htraced.head_lt⟩
  obtain ⟨copy, heap', hrun, hcopy, hfresh, hspared⟩ := ipmb_ring_append_live hold howned.live data
  refine ⟨_, hrun, ?_, distinct_set howned.distinct hfresh⟩
  intro i p hslot
  rw [List.getElem?_set] at hslot
  split_ifs at hslot with hhead
  · rw [Option.some_inj, Option.some_inj] at hslot
    exact ⟨data, by rw [← hslot]; exact hcopy⟩
  · have hne : old ≠ some p := by
      rintro rfl
      exact hhead (howned.distinct _ _ _ hold hslot)
    obtain ⟨bytes, hread⟩ := howned.live i p hslot
    exact ⟨bytes, (hspared i p hslot hne).trans hread⟩

/-- A call keeps the slots owned exactly when it meets its guard. -/
theorem call_owned_iff {st : ring_state} (htraced : Traced st) (howned : Owned st) (c : Call) :
    (∃ st', call st c = .ok st' ∧ Owned st') ↔ Restorable st c := by
  cases c with
  | append data malloc =>
    refine iff_of_true ?_ trivial
    cases malloc with
    | false => exact ⟨st, rfl, howned⟩
    | true =>
      obtain ⟨st', happend, howned'⟩ := howned.append htraced data
      exact ⟨st', by rw [call, happend, map_ok], howned'⟩
  | checkpoint malloc_segments malloc_lengths =>
    refine iff_of_true ⟨_, rfl, ?_⟩ trivial
    obtain ⟨hsegments, -, hheap, -⟩ := checkpoint_cases malloc_segments malloc_lengths st
    constructor
    · rw [hsegments, hheap]
      exact howned.live
    · rw [hsegments]
      exact howned.distinct
  | rollback =>
    constructor
    · intro ⟨st', hcall, howned'⟩ hhas
      obtain ⟨hnone, -⟩ | ⟨segments, lengths, hsegments, hlengths, rfl⟩ := rollback_cases hcall
      · rw [hhas] at hnone
        cases hnone
      · refine ⟨segments, lengths, hsegments, hlengths, ?_⟩
        intro i p hslot
        obtain hkept | hretired := htraced.named segments hsegments i p hslot
        · exact hkept
        · obtain ⟨data, hread⟩ := howned'.live i p hslot
          rw [hretired.read] at hread
          cases hread
    · intro hguard
      cases hhas : st.ring.has_snapshot with
      | false => exact ⟨st, by rw [call, ipmb_ring_rollback, if_pos hhas], howned⟩
      | true =>
        obtain ⟨segments, lengths, hsegments, hlengths, hsame⟩ := hguard hhas
        refine ⟨_, rollback_saved hsegments hlengths hhas, ?_, ?_⟩
        · intro i p hslot
          exact howned.live i p (hsame i p hslot)
        · intro i j p hi hj
          exact howned.distinct i j p (hsame i p hi) (hsame j p hj)

/-- The slots of a new ring are empty. -/
theorem owned_init {k : Nat} {ring : ipmb_ring_window_t}
    (hinit : ipmb_ring_init true true k = (.IPMB_OK, ring)) :
    Traced (init_state ring) ∧ Owned (init_state ring) := by
  have hrep := represents_init hinit
  obtain ⟨hnone, -⟩ := ipmb_ring_init_no_snapshot hinit
  have hunsaved : ∀ segments, (init_state ring).ring.snapshot_segments ≠ .saved segments := by
    intro segments hsaved
    rw [init_state, hnone] at hsaved
    cases hsaved
  refine ⟨⟨hrep.head_lt_count, ?_, ?_⟩, fun i p => hrep.live, hrep.distinct⟩
  · intro segments hsaved
    exact absurd hsaved (hunsaved segments)
  · intro segments hsaved
    exact absurd hsaved (hunsaved segments)

/-- From a new ring, appends, checkpoints and rollbacks go through and leave
slots that are owned exactly when no rollback brings back a block that was
released since the checkpoint, or a snapshot that was not taken. -/
theorem ring_slots_owned_iff {k : Nat} {ring : ipmb_ring_window_t}
    (hinit : ipmb_ring_init true true k = (.IPMB_OK, ring)) (calls : List Call) :
    Always call Owned (init_state ring) calls ↔ Guarded call Restorable (init_state ring) calls := by
  obtain ⟨htraced, howned⟩ := owned_init hinit
  refine always_iff_guarded (I := Traced) (A := fun _ => True) ?_ ?_ htraced howned fun _ _ => trivial
  · intro st c st' _ htraced hcall
    exact htraced.call hcall
  · intro st c _ htraced howned
    exact call_owned_iff htraced howned c

/-- Two payloads in a ring of two slots, each followed by a checkpoint, and a
rollback. -/
theorem ring_slots_owned_two :
    Always call Owned (init_state (ipmb_ring_init true true 2).2)
      [.append [1] true, .checkpoint true true, .append [2] true, .checkpoint true true, .rollback] := by
  have hinit : ipmb_ring_init true true 2 = (.IPMB_OK, (ipmb_ring_init true true 2).2) := rfl
  apply (ring_slots_owned_iff hinit _).mpr
  refine ⟨trivial, ?_⟩
  intro st₁ happend
  obtain rfl := Except.ok.inj happend
  refine ⟨trivial, ?_⟩
  intro st₂ hcheckpoint
  obtain rfl := Except.ok.inj hcheckpoint
  refine ⟨trivial, ?_⟩
  intro st₃ happend
  obtain rfl := Except.ok.inj happend
  refine ⟨trivial, ?_⟩
  intro st₄ hcheckpoint
  obtain rfl := Except.ok.inj hcheckpoint
  exact ⟨fun _ => ⟨_, _, rfl, rfl, fun _ _ hslot => hslot⟩, fun _ _ => trivial⟩

/-- A checkpoint of a ring of one slot and a rollback after the slot was
filled again: the slot names a block that was released. -/
theorem ring_rollback_revives :
    ¬ Always call Owned (init_state (ipmb_ring_init true true 1).2)
      [.append [1] true, .checkpoint true true, .append [2] true, .rollback] := by
  intro ⟨_, st₁, happend₁, _, st₂, hcheckpoint, _, st₃, happend₃, _, st₄, hrollback, howned⟩
  obtain rfl := Except.ok.inj happend₁
  obtain rfl := Except.ok.inj hcheckpoint
  obtain rfl := Except.ok.inj happend₃
  obtain rfl := Except.ok.inj hrollback
  obtain ⟨data, hread⟩ := howned.live 0 0 rfl
  cases hread

end ipmb.ring_window
