import Ipmb.Session.RingRefinement
import Mathlib.Data.Nat.ModEq

open fallible heap

namespace ipmb.ring_window

/-- Filling a ring and rolling it back. -/
def round (st : ring_state) (xs : List (List UInt8)) : Except Fault ring_state := do
  let st ← append_all st xs
  ipmb_ring_rollback st

/-- Checkpoint, then rounds that are rolled back, then payloads to keep. -/
def speculative_run (st : ring_state) (xss : List (List (List UInt8))) (ys : List (List UInt8)) :
    Except Fault ring_state := do
  let st ← xss.foldlM round (ipmb_ring_checkpoint true true st)
  append_all st ys

/-- Checkpoint, then the payloads to keep. -/
def direct_run (st : ring_state) (ys : List (List UInt8)) : Except Fault ring_state :=
  append_all (ipmb_ring_checkpoint true true st) ys

/-- Both runs go through and leave rings that cannot be told apart. -/
def Restores (st : ring_state) (xss : List (List (List UInt8))) (ys : List (List UInt8)) : Prop :=
  ∃ view, (speculative_run st xss ys >>= observe) = .ok view ∧ (direct_run st ys >>= observe) = .ok view

/-- What an append that goes through does. -/
theorem append_cases {st st' : ring_state} {data : List UInt8} {rc : ipmb_status_t}
    (h : ipmb_ring_append true st data = .ok (rc, st')) :
    ∃ old, st.ring.segments[st.ring.head]? = some old ∧
      free_pointer (st.heap.alloc data).2 old = .ok st'.heap ∧ rc = .IPMB_OK ∧
      st'.ring = { st.ring with
        segments := st.ring.segments.set st.ring.head (some (st.heap.alloc data).1)
        lengths := st.ring.lengths.set st.ring.head data.length
        head := (st.ring.head + 1) % st.ring.segment_count } := by
  rw [ipmb_ring_append, if_neg (by decide), bind_eq_ok_iff] at h
  obtain ⟨old, hslot, h⟩ := h
  rw [bind_eq_ok_iff] at h
  obtain ⟨heap, hfree, h⟩ := h
  obtain ⟨rfl, rfl⟩ := Prod.mk.inj (Except.ok.inj h)
  refine ⟨old, ?_, hfree, rfl, rfl⟩
  unfold slot at hslot
  split at hslot
  · rename_i p hp
    rw [hp, Except.ok.inj hslot]
  · cases hslot

/-- Releasing a pointer never revives a block, and retires the one it points
at. -/
theorem free_pointer_retires {heap heap' : Heap (List UInt8)} {old : Option Nat}
    (h : free_pointer heap old = .ok heap') :
    (∀ p, heap.Retired p → heap'.Retired p ∧ old ≠ some p) ∧ ∀ p, old = some p → heap'.Retired p := by
  cases old with
  | none =>
    cases h
    exact ⟨fun p hp => ⟨hp, nofun⟩, nofun⟩
  | some q =>
    simp only [free_pointer] at h
    cases hfree : heap.free q with
    | none =>
      rw [hfree] at h
      cases h
    | some heap'' =>
      rw [hfree] at h
      cases h
      refine ⟨fun p hp => ⟨hp.of_free hfree, ?_⟩, ?_⟩
      · intro heq
        rw [Option.some_inj] at heq
        subst heq
        rw [hp.free] at hfree
        cases hfree
      · intro p heq
        rw [Option.some_inj] at heq
        subst heq
        exact Heap.retired_of_free hfree

/-- What every append keeps up with a count of them, a sequence of appends
keeps up too. -/
theorem append_all_tracks {P : ring_state → Nat → Prop}
    (hstep : ∀ s n data rc s', P s n → ipmb_ring_append true s data = .ok (rc, s') → P s' (n + 1))
    {st st' : ring_state} {n : Nat} (hP : P st n) {payloads : List (List UInt8)}
    (h : append_all st payloads = .ok st') : P st' (n + payloads.length) := by
  induction payloads generalizing st n with
  | nil =>
    cases h
    exact hP
  | cons data payloads ih =>
    rw [append_all, List.foldlM_cons, bind_eq_ok_iff] at h
    obtain ⟨st₁, hmap, h⟩ := h
    obtain ⟨⟨rc, st₂⟩, happend, rfl⟩ := map_eq_ok_iff.mp hmap
    have hP' := ih (hstep st n data rc st₂ hP happend) h
    rwa [Nat.add_assoc, Nat.add_comm 1, ← List.length_cons] at hP'

/-- The same for rounds, counting the payloads of each. -/
theorem rounds_tracks {P : ring_state → Nat → Prop}
    (hstep : ∀ s n xs s', P s n → round s xs = .ok s' → P s' (n + xs.length))
    {st st' : ring_state} {n : Nat} (hP : P st n) {xss : List (List (List UInt8))}
    (h : xss.foldlM round st = .ok st') : P st' (n + xss.flatten.length) := by
  induction xss generalizing st n with
  | nil =>
    cases h
    exact hP
  | cons xs xss ih =>
    rw [List.foldlM_cons, bind_eq_ok_iff] at h
    obtain ⟨st₁, hround, h⟩ := h
    have hP' := ih (hstep st n xs st₁ hP hround) h
    rwa [Nat.add_assoc, ← List.length_append, ← List.flatten_cons] at hP'

/-- What appends do to the parts of a ring that are not slots. -/
structure Moved (before after : ring_state) (appended : Nat) : Prop where
  segment_count : after.ring.segment_count = before.ring.segment_count
  head : after.ring.head = (before.ring.head + appended) % before.ring.segment_count
  snapshot_segments : after.ring.snapshot_segments = before.ring.snapshot_segments
  snapshot_lengths : after.ring.snapshot_lengths = before.ring.snapshot_lengths
  has_snapshot : after.ring.has_snapshot = before.ring.has_snapshot

theorem append_all_moved {st st' : ring_state} {payloads : List (List UInt8)}
    (hhead : st.ring.head < st.ring.segment_count) (h : append_all st payloads = .ok st') :
    Moved st st' payloads.length := by
  have htracks : Moved st st' (0 + payloads.length) := by
    refine append_all_tracks ?_ ?_ h
    · intro s n data rc s' hmoved happend
      obtain ⟨_, _, _, _, hring⟩ := append_cases happend
      obtain ⟨hcount, hpos, hsegments, hlengths, hhas⟩ := hmoved
      constructor
      · rw [hring, ← hcount]
        simp [ipmb_ring_window_t.segment_count]
      · rw [hring]
        simp only [hcount, hpos, Nat.mod_add_mod, Nat.add_assoc]
      · rw [hring]
        exact hsegments
      · rw [hring]
        exact hlengths
      · rw [hring]
        exact hhas
    · exact ⟨rfl, by rw [Nat.add_zero, Nat.mod_eq_of_lt hhead], rfl, rfl, rfl⟩
  rwa [Nat.zero_add] at htracks

/-- A ring whose slots are those its snapshot saved. -/
structure AtSnapshot (segments : List (Option Nat)) (lengths : List Nat) (st : ring_state) : Prop where
  segments_eq : st.ring.segments = segments
  lengths_eq : st.ring.lengths = lengths
  snapshot_segments : st.ring.snapshot_segments = .saved segments
  snapshot_lengths : st.ring.snapshot_lengths = .saved lengths
  has_snapshot : st.ring.has_snapshot = true
  head_lt : st.ring.head < segments.length

theorem atSnapshot_checkpoint {st : ring_state} (h : st.ring.head < st.ring.segment_count) :
    AtSnapshot st.ring.segments st.ring.lengths (ipmb_ring_checkpoint true true st) :=
  ⟨rfl, rfl, rfl, rfl, rfl, h⟩

/-- Rolling back copies the saved slots and leaves the head and the heap. -/
theorem rollback_saved {st : ring_state} {segments : List (Option Nat)} {lengths : List Nat}
    (hsegments : st.ring.snapshot_segments = .saved segments)
    (hlengths : st.ring.snapshot_lengths = .saved lengths) (hhas : st.ring.has_snapshot = true) :
    ipmb_ring_rollback st = .ok { st with ring := { st.ring with segments, lengths } } := by
  simp [ipmb_ring_rollback, hhas, hsegments, hlengths, restore]

theorem AtSnapshot.segment_count {segments : List (Option Nat)} {lengths : List Nat} {st : ring_state}
    (hat : AtSnapshot segments lengths st) : st.ring.segment_count = segments.length := by
  rw [ipmb_ring_window_t.segment_count, hat.segments_eq]

/-- A round from a snapshot goes through when its appends do, and ends at the
snapshot with the head moved on. -/
theorem round_cases {segments : List (Option Nat)} {lengths : List Nat} {st st' : ring_state}
    {xs : List (List UInt8)} (hat : AtSnapshot segments lengths st) (h : round st xs = .ok st') :
    ∃ st₁, append_all st xs = .ok st₁ ∧ st'.heap = st₁.heap ∧
      st'.ring.head = (st.ring.head + xs.length) % segments.length ∧ AtSnapshot segments lengths st' := by
  rw [round, bind_eq_ok_iff] at h
  obtain ⟨st₁, happend, hrollback⟩ := h
  have hcount := hat.segment_count
  have hmoved := append_all_moved (by rw [hcount]; exact hat.head_lt) happend
  rw [rollback_saved (hmoved.snapshot_segments.trans hat.snapshot_segments)
    (hmoved.snapshot_lengths.trans hat.snapshot_lengths) (hmoved.has_snapshot.trans hat.has_snapshot)] at hrollback
  cases hrollback
  have hhead : st₁.ring.head = (st.ring.head + xs.length) % segments.length := by
    rw [hmoved.head, hcount]
  refine ⟨st₁, happend, rfl, hhead, rfl, rfl, hmoved.snapshot_segments.trans hat.snapshot_segments,
    hmoved.snapshot_lengths.trans hat.snapshot_lengths, hmoved.has_snapshot.trans hat.has_snapshot, ?_⟩
  change st₁.ring.head < segments.length
  rw [hhead]
  exact Nat.mod_lt _ (Nat.lt_of_le_of_lt (Nat.zero_le _) hat.head_lt)

theorem rounds_moved {segments : List (Option Nat)} {lengths : List Nat} {st st' : ring_state}
    {xss : List (List (List UInt8))} (hat : AtSnapshot segments lengths st)
    (h : xss.foldlM round st = .ok st') :
    AtSnapshot segments lengths st' ∧
      st'.ring.head = (st.ring.head + xss.flatten.length) % segments.length := by
  have htracks := rounds_tracks (n := 0)
    (P := fun s n => AtSnapshot segments lengths s ∧ s.ring.head = (st.ring.head + n) % segments.length)
    ?_ ⟨hat, by rw [Nat.add_zero, Nat.mod_eq_of_lt hat.head_lt]⟩ h
  · rwa [Nat.zero_add] at htracks
  · rintro s n xs s' ⟨hs, hhead⟩ hround
    obtain ⟨_, _, _, hhead', hs'⟩ := round_cases hs hround
    refine ⟨hs', ?_⟩
    rw [hhead', hhead, Nat.mod_add_mod, Nat.add_assoc]

/-- After rounds and appends the head is where the appends alone take it only if
the rounds went round a whole number of times. -/
theorem whole_turns {segments : List (Option Nat)} {lengths : List Nat} {st st₁ stₐ stₛ : ring_state}
    {xss : List (List (List UInt8))} {ys : List (List UInt8)} (hat : AtSnapshot segments lengths st)
    (hrounds : xss.foldlM round st = .ok st₁) (happend : append_all st₁ ys = .ok stₐ)
    (hdirect : append_all st ys = .ok stₛ) (hsame : stₐ.ring.head = stₛ.ring.head) :
    segments.length ∣ xss.flatten.length := by
  obtain ⟨hat₁, hhead₁⟩ := rounds_moved hat hrounds
  have hheadₐ := (append_all_moved (by rw [hat₁.segment_count]; exact hat₁.head_lt) happend).head
  have hheadₛ := (append_all_moved (by rw [hat.segment_count]; exact hat.head_lt) hdirect).head
  rw [hheadₐ, hheadₛ, hat₁.segment_count, hat.segment_count, hhead₁, Nat.mod_add_mod, Nat.add_assoc] at hsame
  have hcancel : xss.flatten.length + ys.length ≡ 0 + ys.length [MOD segments.length] := by
    rw [Nat.zero_add]
    exact Nat.ModEq.add_left_cancel' _ hsame
  exact (Nat.modEq_zero_iff_dvd).mp (Nat.ModEq.add_right_cancel' _ hcancel)

/-- How many appends there are before the next one to fill slot 0. -/
def distance (k head : Nat) : Nat := (k - head) % k

/-- A block that slot 0 held at the snapshot is retired once an append has
reached the slot. -/
structure Doomed (k p d : Nat) (st : ring_state) (appended : Nat) : Prop where
  segment_count : st.ring.segment_count = k
  head_lt : st.ring.head < k
  doomed : st.heap.Retired p ∨
    (st.ring.segments[0]? = some (some p) ∧ distance k st.ring.head + appended = d)

theorem Doomed.append {k p d n : Nat} {st st' : ring_state} {data : List UInt8} {rc : ipmb_status_t}
    (h : Doomed k p d st n) (happend : ipmb_ring_append true st data = .ok (rc, st')) :
    Doomed k p d st' (n + 1) := by
  obtain ⟨old, hslot, hfree, _, hring⟩ := append_cases happend
  obtain ⟨hstays, hretires⟩ := free_pointer_retires hfree
  obtain ⟨hcount, hlt, hdoomed⟩ := h
  have hhead : st'.ring.head = (st.ring.head + 1) % k := by
    rw [hring, ← hcount]
  refine ⟨?_, ?_, ?_⟩
  · rw [hring, ← hcount]
    simp [ipmb_ring_window_t.segment_count]
  · rw [hhead]
    exact Nat.mod_lt _ (by omega)
  obtain hretired | ⟨hzero, hdistance⟩ := hdoomed
  · exact .inl (hstays p (hretired.alloc data)).1
  by_cases hhit : st.ring.head = 0
  · rw [hhit, hzero, Option.some_inj] at hslot
    exact .inl (hretires p hslot.symm)
  · refine .inr ⟨?_, ?_⟩
    · rw [hring]
      simp only
      rw [List.getElem?_set_ne hhit, hzero]
    · rw [hhead]
      unfold distance at hdistance ⊢
      rw [Nat.mod_eq_of_lt (by omega : k - st.ring.head < k)] at hdistance
      obtain hlast | hlast := Nat.lt_or_eq_of_le (Nat.succ_le_of_lt hlt)
      · rw [Nat.mod_eq_of_lt (by omega : st.ring.head + 1 < k), Nat.mod_eq_of_lt (by omega)]
        omega
      · have hwrap : st.ring.head + 1 = k := hlast
        rw [hwrap, Nat.mod_self, Nat.sub_zero, Nat.mod_self]
        omega

/-- Enough appends over rounds retire what slot 0 held at the snapshot. -/
theorem rounds_retire {segments : List (Option Nat)} {lengths : List Nat} {st st' : ring_state}
    {xss : List (List (List UInt8))} {p : Nat} (hat : AtSnapshot segments lengths st)
    (hslot : segments[0]? = some (some p)) (h : xss.foldlM round st = .ok st')
    (henough : segments.length ≤ xss.flatten.length) : st'.heap.Retired p := by
  have hpos : 0 < segments.length := Nat.lt_of_le_of_lt (Nat.zero_le _) hat.head_lt
  have htracks := rounds_tracks (n := 0)
    (P := fun s n => AtSnapshot segments lengths s ∧
      Doomed segments.length p (distance segments.length st.ring.head) s n)
    ?_ ⟨hat, hat.segment_count, hat.head_lt, .inr ⟨by rw [hat.segments_eq, hslot], rfl⟩⟩ h
  · obtain ⟨_, _, hlt, hretired | ⟨_, hdistance⟩⟩ := htracks
    · exact hretired
    · have hmod : distance segments.length st.ring.head < segments.length := Nat.mod_lt _ hpos
      omega
  · rintro s n xs s' ⟨hs, hdoomed⟩ hround
    obtain ⟨s₁, happend, hheap, hhead, hs'⟩ := round_cases hs hround
    have hdoomed₁ := append_all_tracks (P := Doomed _ _ _) (fun s n data rc s' hP => hP.append) hdoomed happend
    have hhead₁ : s'.ring.head = s₁.ring.head := by
      have hmoved := append_all_moved (by rw [hs.segment_count]; exact hs.head_lt) happend
      rw [hhead, hmoved.head, hs.segment_count]
    refine ⟨hs', hs'.segment_count, hs'.head_lt, ?_⟩
    rw [hheap, hhead₁]
    exact hdoomed₁.doomed.imp_right fun hlater => ⟨by rw [hs'.segments_eq, hslot], hlater.2⟩

/-- A slot that points at a retired block is never overwritten without a
second release, and cannot be read. -/
theorem dangling_unobservable {st st' : ring_state} {p : Nat} {ys : List (List UInt8)}
    (hslot : st.ring.segments[0]? = some (some p)) (hretired : st.heap.Retired p)
    (h : append_all st ys = .ok st') : ∀ view, observe st' ≠ .ok view := by
  have htracks := append_all_tracks (n := 0)
    (P := fun s _ => s.ring.segments[0]? = some (some p) ∧ s.heap.Retired p) ?_ ⟨hslot, hretired⟩ h
  · obtain ⟨hslot', hretired'⟩ := htracks
    intro view hview
    rw [observe, bind_eq_ok_iff] at hview
    obtain ⟨slots, hslots, _⟩ := hview
    obtain ⟨segments, hcons⟩ : ∃ segments, st'.ring.segments = some p :: segments := by
      cases hsegs : st'.ring.segments with
      | nil => simp [hsegs] at hslot'
      | cons q segments =>
        obtain rfl : q = some p := by simpa [hsegs] using hslot'
        exact ⟨segments, rfl⟩
    rw [hcons, List.mapM_cons, read_slot, hretired'.read] at hslots
    cases hslots
  · rintro s n data rc s' ⟨hs, hr⟩ happend
    obtain ⟨old, hold, hfree, _, hring⟩ := append_cases happend
    obtain ⟨hstays, _⟩ := free_pointer_retires hfree
    obtain ⟨hr', hne⟩ := hstays p (hr.alloc data)
    refine ⟨?_, hr'⟩
    have hhead : s.ring.head ≠ 0 := by
      intro hzero
      rw [hzero, hs, Option.some_inj] at hold
      exact hne hold.symm
    rw [hring]
    simp only
    rw [List.getElem?_set_ne hhead, hs]

/-- Slot 0 is filled first and stays filled. -/
theorem slot_zero_filled {k : Nat} (hk : 0 < k) {pre : List (List UInt8)} (hpre : pre ≠ []) :
    ∃ data, (pre.foldl Ring.append (Ring.empty k)).slots[0]? = some (some data) := by
  have hstays : ∀ (payloads : List (List UInt8)) (r : Ring), (∃ data, r.slots[0]? = some (some data)) →
      ∃ data, (payloads.foldl Ring.append r).slots[0]? = some (some data) := by
    intro payloads
    induction payloads with
    | nil => exact fun r h => h
    | cons x payloads ih =>
      rintro r ⟨data, hdata⟩
      apply ih
      by_cases hhead : r.head = 0
      · have hlen : 0 < r.slots.length := by
          by_contra hnone
          rw [List.getElem?_eq_none (by omega)] at hdata
          cases hdata
        exact ⟨x, by simp [Ring.append, hhead, hlen]⟩
      · exact ⟨data, by simp [Ring.append, List.getElem?_set_ne hhead, hdata]⟩
  obtain ⟨x, rest, rfl⟩ := List.exists_cons_of_ne_nil hpre
  exact hstays rest _ ⟨x, by simp [Ring.append, Ring.empty, hk]⟩

/-- A checkpoint shows nothing, complete or not. -/
theorem Represents.checkpoint {st : ring_state} {r : Ring} (h : Represents st r)
    {malloc_segments malloc_lengths : Bool} :
    Represents (ipmb_ring_checkpoint malloc_segments malloc_lengths st) r := by
  cases malloc_segments with
  | false => exact ⟨h.holds, h.distinct, h.lengths, h.head, h.head_lt⟩
  | true => cases malloc_lengths <;> exact ⟨h.holds, h.distinct, h.lengths, h.head, h.head_lt⟩

theorem Represents.head_lt_count {st : ring_state} {r : Ring} (h : Represents st r) :
    st.ring.head < st.ring.segment_count := by
  rw [ipmb_ring_window_t.segment_count, h.length_eq, h.head]
  exact h.head_lt

theorem observe_append_all {st : ring_state} {r : Ring} (h : Represents st r) (ys : List (List UInt8)) :
    append_all st ys >>= observe = .ok (ys.foldl Ring.append r).view := by
  obtain ⟨st', happend, h'⟩ := h.append_all ys
  rw [happend, ok_bind, h'.observe_eq]

/-- Rounds without payloads change nothing. -/
theorem rounds_empty {segments : List (Option Nat)} {lengths : List Nat} {st : ring_state}
    {xss : List (List (List UInt8))} (hat : AtSnapshot segments lengths st) (hxss : xss.flatten = []) :
    xss.foldlM round st = .ok st := by
  have hround : round st [] = .ok st := by
    have hsame : ({ st with ring := { st.ring with segments, lengths } } : ring_state) = st := by
      rw [← hat.segments_eq, ← hat.lengths_eq]
    rw [round, append_all, List.foldlM_nil, pure_eq_ok, ok_bind,
      rollback_saved hat.snapshot_segments hat.snapshot_lengths hat.has_snapshot, hsame]
  induction xss with
  | nil => rfl
  | cons xs xss ih =>
    rw [List.flatten_cons, List.append_eq_nil_iff] at hxss
    rw [List.foldlM_cons, hxss.1, hround, ok_bind, ih hxss.2]

/-- Rounds from a snapshot of empty slots go through. -/
theorem rounds_null {k : Nat} {st : ring_state} (xss : List (List (List UInt8)))
    (hat : AtSnapshot (List.replicate k none) (List.replicate k 0) st) :
    ∃ st', xss.foldlM round st = .ok st' := by
  induction xss generalizing st with
  | nil => exact ⟨st, rfl⟩
  | cons xs xss ih =>
    have hlt : st.ring.head < k := by simpa using hat.head_lt
    have hrep := represents_null hat.segments_eq hat.lengths_eq rfl hlt
    obtain ⟨st₁, happend, _⟩ := hrep.append_all xs
    have hmoved := append_all_moved hrep.head_lt_count happend
    obtain ⟨st₂, hround⟩ : ∃ st₂, round st xs = .ok st₂ := by
      rw [round, happend, ok_bind, rollback_saved (hmoved.snapshot_segments.trans hat.snapshot_segments)
        (hmoved.snapshot_lengths.trans hat.snapshot_lengths) (hmoved.has_snapshot.trans hat.has_snapshot)]
      exact ⟨_, rfl⟩
    obtain ⟨_, _, _, _, hat₂⟩ := round_cases hat hround
    obtain ⟨st', hrun⟩ := ih hat₂
    exact ⟨st', by rw [List.foldlM_cons, hround, ok_bind, hrun]⟩

theorem observe_head {st : ring_state} {view : Nat × List (Option (List UInt8)) × List Nat}
    (h : observe st = .ok view) : view.1 = st.ring.head := by
  rw [observe, bind_eq_ok_iff] at h
  obtain ⟨slots, _, h⟩ := h
  cases h
  rfl

/-- Rounds that go round a new ring a whole number of times leave it new. -/
theorem restores_new {k : Nat} {ring : ipmb_ring_window_t}
    (hinit : ipmb_ring_init true true k = (.IPMB_OK, ring)) {xss : List (List (List UInt8))}
    (hdvd : k ∣ xss.flatten.length) (ys : List (List UInt8)) : Restores (init_state ring) xss ys := by
  obtain ⟨hk, hsegments, hlengths, hhead⟩ := ipmb_ring_init_ok hinit
  have hrep := represents_init hinit
  refine ⟨_, ?_, observe_append_all hrep.checkpoint ys⟩
  have hnull : AtSnapshot (List.replicate k none) (List.replicate k 0)
      (ipmb_ring_checkpoint true true (init_state ring)) := by
    rw [← hsegments, ← hlengths]
    exact atSnapshot_checkpoint hrep.head_lt_count
  obtain ⟨st₁, hrounds⟩ := rounds_null xss hnull
  obtain ⟨hat₁, hhead₁⟩ := rounds_moved hnull hrounds
  have hzero : st₁.ring.head = 0 := by
    have hstart : (ipmb_ring_checkpoint true true (init_state ring)).ring.head = 0 := hhead
    rw [hhead₁, hstart, Nat.zero_add, List.length_replicate]
    exact Nat.mod_eq_zero_of_dvd hdvd
  rw [speculative_run, hrounds, ok_bind]
  exact observe_append_all (represents_null hat₁.segments_eq hat₁.lengths_eq hzero hk) ys

/-- Rolling back restores the window exactly when nothing was appended in
between, or when the ring was new and what was appended goes round it a whole
number of times. -/
theorem ring_rollback_restores_iff {k : Nat} {ring : ipmb_ring_window_t} {pre : List (List UInt8)}
    {st : ring_state} (hinit : ipmb_ring_init true true k = (.IPMB_OK, ring))
    (hreach : append_all (init_state ring) pre = .ok st) (xss : List (List (List UInt8)))
    (ys : List (List UInt8)) :
    Restores st xss ys ↔ xss.flatten = [] ∨ (pre = [] ∧ k ∣ xss.flatten.length) := by
  obtain ⟨hk, hsegments, -, -⟩ := ipmb_ring_init_ok hinit
  have hrep : Represents st (pre.foldl Ring.append (Ring.empty k)) := by
    obtain ⟨st', hreach', hrep⟩ := (represents_init hinit).append_all pre
    rw [hreach] at hreach'
    cases hreach'
    exact hrep
  have hcount : st.ring.segments.length = k := by
    have hmoved := append_all_moved (represents_init hinit).head_lt_count hreach
    have hring : (init_state ring).ring.segment_count = k := by
      change ring.segments.length = k
      rw [hsegments, List.length_replicate]
    exact hmoved.segment_count.trans hring
  have hat := atSnapshot_checkpoint hrep.head_lt_count
  constructor
  · rintro ⟨view, hspeculative, hdirect⟩
    rw [bind_eq_ok_iff] at hspeculative hdirect
    obtain ⟨stₐ, hrunₐ, hviewₐ⟩ := hspeculative
    obtain ⟨stₛ, hrunₛ, hviewₛ⟩ := hdirect
    rw [speculative_run, bind_eq_ok_iff] at hrunₐ
    obtain ⟨st₁, hrounds, happend⟩ := hrunₐ
    have hat₁ := (rounds_moved hat hrounds).1
    have hdvd : k ∣ xss.flatten.length := by
      rw [← hcount]
      exact whole_turns hat hrounds happend hrunₛ ((observe_head hviewₐ).symm.trans (observe_head hviewₛ))
    by_cases hempty : xss.flatten = []
    · exact .inl hempty
    refine .inr ⟨?_, hdvd⟩
    by_contra hpre
    obtain ⟨data, hfilled⟩ := slot_zero_filled hk hpre
    obtain ⟨slot, hslot, hholds⟩ := forall₂_getElem? hrep.holds.flip hfilled
    cases slot with
    | none => exact hholds
    | some p =>
      have hlength : 0 < xss.flatten.length := List.length_pos_of_ne_nil hempty
      have hretired := rounds_retire hat hslot hrounds (by
        rw [hcount]
        exact Nat.le_of_dvd hlength hdvd)
      exact dangling_unobservable (by rw [hat₁.segments_eq, hslot]) hretired happend view hviewₐ
  · rintro (hempty | ⟨rfl, hdvd⟩)
    · refine ⟨_, ?_, observe_append_all hrep.checkpoint ys⟩
      rw [speculative_run, rounds_empty hat hempty, ok_bind]
      exact observe_append_all hrep.checkpoint ys
    · cases hreach
      exact restores_new hinit hdvd ys

/-- One whole turn of a new ring of two slots. -/
theorem ring_rollback_restores_whole_turn :
    Restores (init_state (ipmb_ring_init true true 2).2) [[[1], [2]]] [[3]] := by
  have hinit : ipmb_ring_init true true 2 = (.IPMB_OK, (ipmb_ring_init true true 2).2) := rfl
  have hreach : append_all (init_state (ipmb_ring_init true true 2).2) [] =
      .ok (init_state (ipmb_ring_init true true 2).2) := rfl
  exact (ring_rollback_restores_iff hinit hreach _ _).mpr (.inr ⟨rfl, by decide⟩)

/-- A ring of three slots that holds one payload. -/
def ring_of_one : ring_state :=
  { ring := { (ipmb_ring_init true true 3).2 with
      segments := [some 0, none, none]
      lengths := [1, 0, 0]
      head := 1 }
    heap := { blocks := [some [1]] } }

/-- After a payload is appended and rolled back, the head stays behind it; in a
ring that is full the block it replaced is gone for good. -/
theorem ring_rollback_keeps_head :
    append_all (init_state (ipmb_ring_init true true 3).2) [[1]] = .ok ring_of_one ∧
      speculative_run ring_of_one [[[2]]] [] >>= observe = .ok (2, [some [1], none, none], [1, 0, 0]) ∧
      direct_run ring_of_one [] >>= observe = .ok (1, [some [1], none, none], [1, 0, 0]) ∧
      ¬Restores ring_of_one [[[2]]] [] := by
  have hspeculative : speculative_run ring_of_one [[[2]]] [] >>= observe =
      .ok (2, [some [1], none, none], [1, 0, 0]) := rfl
  have hdirect : direct_run ring_of_one [] >>= observe = .ok (1, [some [1], none, none], [1, 0, 0]) := rfl
  refine ⟨rfl, hspeculative, hdirect, ?_⟩
  rintro ⟨view, hview, hview'⟩
  have hsame := hview.symm.trans hspeculative
  rw [hdirect] at hview'
  cases hview'
  exact absurd hsame (by decide)

/-- Filling a full ring before the rollback releases a block that the restored
slot still points at; the next payload releases it again. -/
example :
    (append_all (init_state (ipmb_ring_init true true 1).2) [[1]] >>= fun st =>
      speculative_run st [[[2]]] [[3]]) = .error .doubleFree := rfl

end ipmb.ring_window
