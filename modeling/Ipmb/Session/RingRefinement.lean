import Ipmb.Session.RingWindow
import Mathlib.Data.List.Forall2

open fallible heap

namespace ipmb.ring_window

/-- What a ring is for: slots that are filled in turn, the oldest payload making
room for the newest. -/
structure Ring where
  slots : List (Option (List UInt8))
  head : Nat

def Ring.empty (segment_count : Nat) : Ring :=
  { slots := List.replicate segment_count none, head := 0 }

def Ring.append (r : Ring) (data : List UInt8) : Ring :=
  { slots := r.slots.set r.head (some data), head := (r.head + 1) % r.slots.length }

/-- The length recorded for a slot; an empty slot has none. -/
def slot_length (content : Option (List UInt8)) : Nat :=
  match content with
  | none => 0
  | some data => data.length

def Ring.view (r : Ring) : Nat × List (Option (List UInt8)) × List Nat :=
  (r.head, r.slots, r.slots.map slot_length)

/-- A slot points at what it holds. -/
def SlotHolds (heap : Heap (List UInt8)) : Option Nat → Option (List UInt8) → Prop
  | none, none => True
  | some p, some data => heap.read p = some data
  | _, _ => False

/-- A ring in memory that stands for a ring: its slots point at live blocks of
their own that hold the payloads. -/
structure Represents (st : ring_state) (r : Ring) : Prop where
  holds : List.Forall₂ (SlotHolds st.heap) st.ring.segments r.slots
  distinct : ∀ i j p : Nat, st.ring.segments[i]? = some (some p) → st.ring.segments[j]? = some (some p) → i = j
  lengths : st.ring.lengths = r.slots.map slot_length
  head : st.ring.head = r.head
  head_lt : r.head < r.slots.length

theorem Represents.length_eq {st : ring_state} {r : Ring} (h : Represents st r) :
    st.ring.segments.length = r.slots.length := h.holds.length_eq

theorem read_slot_holds {heap : Heap (List UInt8)} {p : Option Nat} {content : Option (List UInt8)}
    (h : SlotHolds heap p content) : read_slot heap p = .ok content := by
  cases p with
  | none =>
    cases content with
    | none => rfl
    | some data => exact absurd h id
  | some p =>
    cases content with
    | none => exact absurd h id
    | some data =>
      have hread : heap.read p = some data := h
      rw [read_slot, hread]

/-- Looking at a ring in memory shows the ring it stands for. -/
theorem Represents.observe_eq {st : ring_state} {r : Ring} (h : Represents st r) :
    observe st = .ok r.view := by
  have hslots : ∀ {segments slots}, List.Forall₂ (SlotHolds st.heap) segments slots →
      segments.mapM (read_slot st.heap) = .ok slots := by
    intro segments slots hholds
    induction hholds with
    | nil => rfl
    | cons hhead _ ih => rw [List.mapM_cons, read_slot_holds hhead, ok_bind, ih]; rfl
  rw [observe, hslots h.holds, ok_bind, h.head, h.lengths]
  rfl

/-- Related lists stay related when one position changes, if the others stay
related under the new relation. -/
theorem forall₂_set {α β : Type} {R R' : α → β → Prop} {as : List α} {bs : List β}
    (h : List.Forall₂ R as bs) {i : Nat} {a : α} {b : β} (hnew : R' a b)
    (hother : ∀ j x y, j ≠ i → as[j]? = some x → R x y → R' x y) :
    List.Forall₂ R' (as.set i a) (bs.set i b) := by
  induction h generalizing i with
  | nil => exact .nil
  | @cons x y as bs hhead htail ih =>
    cases i with
    | zero =>
      refine .cons hnew ?_
      have hsame := ih (i := as.length) (fun j x' y' hj hx => by
        exact hother (j + 1) x' y' (by omega) hx)
      rwa [List.set_eq_of_length_le (Nat.le_refl _),
        List.set_eq_of_length_le (Nat.le_of_eq htail.length_eq.symm)] at hsame
    | succ i =>
      refine .cons (hother 0 x y (by omega) rfl hhead) ?_
      exact ih fun j x' y' hj hx => hother (j + 1) x' y' (by omega) hx

theorem forall₂_getElem? {α β : Type} {R : α → β → Prop} {as : List α} {bs : List β}
    (h : List.Forall₂ R as bs) {i : Nat} {a : α} (ha : as[i]? = some a) : ∃ b, bs[i]? = some b ∧ R a b := by
  induction h generalizing i with
  | nil => simp at ha
  | @cons x y as bs hhead _ ih =>
    cases i with
    | zero =>
      obtain rfl : x = a := by simpa using ha
      exact ⟨y, rfl, hhead⟩
    | succ i => exact ih (i := i) (by simpa using ha)

/-- A slot points at a live block. -/
theorem Represents.live {st : ring_state} {r : Ring} (h : Represents st r) {i p : Nat}
    (hslot : st.ring.segments[i]? = some (some p)) : ∃ data, st.heap.read p = some data := by
  obtain ⟨content, _, hholds⟩ := forall₂_getElem? h.holds hslot
  cases content with
  | none => exact absurd hholds id
  | some data => exact ⟨data, hholds⟩

/-- Releasing what a slot points at spares the other blocks. -/
theorem free_pointer_live {heap : Heap (List UInt8)} {old : Option Nat}
    (h : ∀ p, old = some p → ∃ data, heap.read p = some data) :
    ∃ heap', free_pointer heap old = .ok heap' ∧ ∀ q, old ≠ some q → heap'.read q = heap.read q := by
  cases old with
  | none => exact ⟨heap, rfl, fun _ _ => rfl⟩
  | some p =>
    obtain ⟨data, hread⟩ := h p rfl
    obtain ⟨heap', hfree⟩ := Heap.free_of_read hread
    refine ⟨heap', by rw [free_pointer, hfree], ?_⟩
    intro q hq
    exact Heap.read_free_ne hfree fun heq => hq (by rw [heq])

/-- Where the slots are live an append goes through: its copy is a new block
for the head slot, and only the block that this slot named is released. -/
theorem ipmb_ring_append_live {st : ring_state} {old : Option Nat}
    (hold : st.ring.segments[st.ring.head]? = some old)
    (hlive : ∀ i p : Nat, st.ring.segments[i]? = some (some p) → ∃ bytes, st.heap.read p = some bytes)
    (data : List UInt8) :
    ∃ copy heap', ipmb_ring_append true st data = .ok (.IPMB_OK,
        { ring := { st.ring with
            segments := st.ring.segments.set st.ring.head (some copy)
            lengths := st.ring.lengths.set st.ring.head data.length
            head := (st.ring.head + 1) % st.ring.segment_count }
          heap := heap' }) ∧
      heap'.read copy = some data ∧ (∀ i : Nat, st.ring.segments[i]? ≠ some (some copy)) ∧
      ∀ i p : Nat, st.ring.segments[i]? = some (some p) → old ≠ some p → heap'.read p = st.heap.read p := by
  have hkept : ∀ i p : Nat, st.ring.segments[i]? = some (some p) →
      p < st.heap.blocks.length ∧ (st.heap.alloc data).2.read p = st.heap.read p := by
    intro i p hslot
    obtain ⟨bytes, hread⟩ := hlive i p hslot
    have hp := Heap.lt_length_of_read hread
    exact ⟨hp, Heap.read_alloc_of_lt data hp⟩
  have hfresh : ∀ i : Nat, st.ring.segments[i]? ≠ some (some (st.heap.alloc data).1) := fun i hslot =>
    absurd (hkept i _ hslot).1 (Nat.lt_irrefl _)
  have hfreeable : ∀ p, old = some p → ∃ bytes, (st.heap.alloc data).2.read p = some bytes := by
    rintro p rfl
    rw [(hkept _ p hold).2]
    exact hlive _ p hold
  obtain ⟨heap', hfree, hspared⟩ := free_pointer_live hfreeable
  refine ⟨(st.heap.alloc data).1, heap', ?_, ?_, hfresh, ?_⟩
  · simp [ipmb_ring_append, slot, hold, hfree]
  · rw [hspared, Heap.read_alloc_self]
    rintro rfl
    exact hfresh _ hold
  · intro i p hslot hne
    rw [hspared p hne, (hkept i p hslot).2]

/-- Slots that name different blocks still do when one of them gets a block
that none had. -/
theorem distinct_set {segments : List (Option Nat)}
    (hdistinct : ∀ i j p : Nat, segments[i]? = some (some p) → segments[j]? = some (some p) → i = j)
    {copy : Nat} (hfresh : ∀ i : Nat, segments[i]? ≠ some (some copy)) {head : Nat} (i j p : Nat)
    (hi : (segments.set head (some copy))[i]? = some (some p))
    (hj : (segments.set head (some copy))[j]? = some (some p)) : i = j := by
  rw [List.getElem?_set] at hi hj
  split_ifs at hi hj with hih _ hjh
  · rw [← hih, hjh]
  · rw [Option.some_inj, Option.some_inj] at hi
    subst hi
    exact absurd hj (hfresh j)
  · rw [Option.some_inj, Option.some_inj] at hj
    subst hj
    exact absurd hi (hfresh i)
  · exact hdistinct i j p hi hj

/-- Appending to a ring in memory goes through and appends to the ring it
stands for. -/
theorem Represents.append {st : ring_state} {r : Ring} (h : Represents st r) (data : List UInt8) :
    ∃ st', ipmb_ring_append true st data = .ok (.IPMB_OK, st') ∧ Represents st' (r.append data) := by
  have hlt : st.ring.head < st.ring.segments.length := by
    rw [h.length_eq, h.head]
    exact h.head_lt
  obtain ⟨old, hold⟩ : ∃ old, st.ring.segments[st.ring.head]? = some old := ⟨_, List.getElem?_eq_getElem hlt⟩
  obtain ⟨copy, heap', hrun, hcopy, hfresh, hspared⟩ :=
    ipmb_ring_append_live hold (fun i p hslot => h.live hslot) data
  refine ⟨_, hrun, ?_⟩
  constructor
  · rw [h.head]
    refine forall₂_set h.holds hcopy ?_
    intro j p content hj hslot hholds
    cases p with
    | none =>
      cases content with
      | none => trivial
      | some bytes => exact absurd hholds id
    | some p =>
      cases content with
      | none => exact absurd hholds id
      | some bytes =>
        have hne : old ≠ some p := by
          rintro rfl
          exact hj ((h.distinct _ _ _ hslot hold).trans h.head)
        change heap'.read p = some bytes
        rw [hspared j p hslot hne]
        exact hholds
  · exact distinct_set h.distinct hfresh
  · change st.ring.lengths.set st.ring.head data.length = (r.slots.set r.head (some data)).map slot_length
    rw [h.lengths, h.head, List.map_set]
    rfl
  · change (st.ring.head + 1) % st.ring.segment_count = (r.head + 1) % r.slots.length
    rw [ipmb_ring_window_t.segment_count, h.length_eq, h.head]
  · have hpos : 0 < r.slots.length := Nat.lt_of_le_of_lt (Nat.zero_le _) h.head_lt
    change (r.head + 1) % r.slots.length < (r.slots.set r.head (some data)).length
    rw [List.length_set]
    exact Nat.mod_lt _ hpos

/-- Appending payloads to a ring in memory goes through and appends them to
the ring it stands for. -/
theorem Represents.append_all {st : ring_state} {r : Ring} (h : Represents st r)
    (payloads : List (List UInt8)) :
    ∃ st', append_all st payloads = .ok st' ∧ Represents st' (payloads.foldl Ring.append r) := by
  refine foldlM_simulates (R := Represents) ?_ h payloads
  intro st r data hrep
  obtain ⟨st', hstep, hrep'⟩ := hrep.append data
  exact ⟨st', by rw [hstep, map_ok], hrep'⟩

/-- Empty slots stand for an empty ring, whatever the heap holds. -/
theorem represents_null {st : ring_state} {k head : Nat} (hsegments : st.ring.segments = List.replicate k none)
    (hlengths : st.ring.lengths = List.replicate k 0) (hhead : st.ring.head = head) (hlt : head < k) :
    Represents st { slots := List.replicate k none, head := head } := by
  constructor
  · rw [hsegments]
    clear hsegments hlengths hlt
    induction k with
    | zero => exact .nil
    | succ k ih => exact .cons trivial ih
  · intro i j p hi
    rw [hsegments, List.getElem?_replicate] at hi
    split_ifs at hi
    simp at hi
  · rw [hlengths]
    simp [slot_length]
  · exact hhead
  · simpa using hlt

/-- A new ring and an empty heap. -/
def init_state (ring : ipmb_ring_window_t) : ring_state := { ring, heap := Heap.empty }

theorem ipmb_ring_init_ok {k : Nat} {ring : ipmb_ring_window_t}
    (h : ipmb_ring_init true true k = (.IPMB_OK, ring)) :
    0 < k ∧ ring.segments = List.replicate k none ∧ ring.lengths = List.replicate k 0 ∧ ring.head = 0 := by
  unfold ipmb_ring_init at h
  split at h
  · simp at h
  rename_i hlimit
  rw [if_neg (by decide)] at h
  obtain ⟨_, rfl⟩ := Prod.mk.inj h
  exact ⟨by omega, rfl, rfl, rfl⟩

/-- A new ring has no snapshot. -/
theorem ipmb_ring_init_no_snapshot {k : Nat} {ring : ipmb_ring_window_t}
    (h : ipmb_ring_init true true k = (.IPMB_OK, ring)) :
    ring.snapshot_segments = .null ∧ ring.has_snapshot = false := by
  unfold ipmb_ring_init at h
  split at h
  · cases (Prod.mk.inj h).1
  · rw [if_neg (by decide)] at h
    obtain ⟨-, rfl⟩ := Prod.mk.inj h
    exact ⟨rfl, rfl⟩

/-- A new ring stands for the empty ring. -/
theorem represents_init {k : Nat} {ring : ipmb_ring_window_t}
    (h : ipmb_ring_init true true k = (.IPMB_OK, ring)) : Represents (init_state ring) (Ring.empty k) := by
  obtain ⟨hk, hsegments, hlengths, hhead⟩ := ipmb_ring_init_ok h
  exact represents_null hsegments hlengths hhead hk

end ipmb.ring_window
