import Ipmb.Session.RingOwnership

open fallible heap

namespace ipmb.ring_window

/-- Only the blocks of the slots are on the heap, and the loop releases those. The
ring's four arrays are fields of the ring and not tracked. -/
def ipmb_ring_free (st : ring_state) : Except Fault ring_state := do
  let heap ← st.ring.segments.foldlM free_pointer st.heap
  pure { ring := .zero, heap }

/-- A ring from its first call to its release. -/
def lifetime (st : ring_state) (calls : List Call) : Except Fault ring_state := do
  let st ← calls.foldlM call st
  ipmb_ring_free st

/-- A rollback finds the slots as they were at the checkpoint. -/
def Unchanged (st : ring_state) : Call → Prop
  | .append _ _ => True
  | .checkpoint _ _ => True
  | .rollback => st.ring.has_snapshot = true → ∃ lengths,
      st.ring.snapshot_segments = .saved st.ring.segments ∧ st.ring.snapshot_lengths = .saved lengths

theorem Unchanged.restorable {st : ring_state} {c : Call} (h : Unchanged st c) : Restorable st c := by
  cases c with
  | rollback =>
    intro hhas
    obtain ⟨lengths, hsegments, hlengths⟩ := h hhas
    exact ⟨_, lengths, hsegments, hlengths, fun _ _ hslot => hslot⟩
  | _ => trivial

section release
variable {heap heap' : Heap (List UInt8)} {ps : List (Option Nat)}

/-- A release empties one block. -/
theorem read_of_free_pointer {old : Option Nat} (h : free_pointer heap old = .ok heap') (q : Nat) :
    heap'.read q = if old = some q then none else heap.read q := by
  cases old with
  | none =>
    cases h
    rw [if_neg (by simp)]
  | some p =>
    rw [free_pointer] at h
    split at h
    · rename_i hfree
      cases h
      rw [Heap.read_free hfree q]
      simp [eq_comm]
    · cases h

/-- The loop over the slots skips the empty ones. -/
theorem free_slots_eq (heap : Heap (List UInt8)) (ps : List (Option Nat)) :
    ps.foldlM free_pointer heap =
      match heap.freeAll (ps.filterMap id) with
      | some heap => .ok heap
      | none => .error .doubleFree := by
  induction ps generalizing heap with
  | nil => rfl
  | cons old ps ih =>
    cases old with
    | none => exact ih heap
    | some p =>
      have hcons : (some p :: ps).filterMap id = p :: ps.filterMap id := rfl
      rw [List.foldlM_cons, free_pointer, hcons, Heap.freeAll]
      cases heap.free p with
      | none => rfl
      | some heap => exact ih heap

theorem free_slots_cases (h : ps.foldlM free_pointer heap = .ok heap') :
    heap.freeAll (ps.filterMap id) = some heap' := by
  rw [free_slots_eq] at h
  split at h
  · rename_i hfree
    cases h
    exact hfree
  · cases h

theorem mem_slots {p : Nat} : p ∈ ps.filterMap id ↔ some p ∈ ps := by simp

theorem nodup_of_distinct (h : ∀ i j p : Nat, ps[i]? = some (some p) → ps[j]? = some (some p) → i = j) :
    (ps.filterMap id).Nodup := by
  induction ps with
  | nil => exact List.nodup_nil
  | cons old ps ih =>
    have hrest := ih fun i j p hi hj => Nat.succ.inj (h (i + 1) (j + 1) p hi hj)
    cases old with
    | none => exact hrest
    | some p =>
      have hcons : (some p :: ps).filterMap id = p :: ps.filterMap id := rfl
      rw [hcons, List.nodup_cons]
      refine ⟨fun hmem => ?_, hrest⟩
      obtain ⟨i, hi⟩ := List.mem_iff_getElem?.mp (mem_slots.mp hmem)
      cases h 0 (i + 1) p rfl hi

end release

/-- A slot names a released block, and so does the snapshot in its place. -/
def Dangling (st : ring_state) : Prop :=
  ∃ i p : Nat, st.ring.segments[i]? = some (some p) ∧ st.heap.Retired p ∧
    ∀ segments, st.ring.snapshot_segments = .saved segments → segments[i]? = some (some p)

/-- A live block that neither a slot nor the snapshot names. -/
def Orphaned (st : ring_state) : Prop :=
  ∃ p data, st.heap.read p = some data ∧ (∀ i : Nat, st.ring.segments[i]? ≠ some (some p)) ∧
    ∀ segments, st.ring.snapshot_segments = .saved segments → ∀ i : Nat, segments[i]? ≠ some (some p)

/-- Every live block is that of a slot. -/
def Kept (st : ring_state) : Prop :=
  ∀ p data, st.heap.read p = some data → ∃ i : Nat, st.ring.segments[i]? = some (some p)

/-- Nothing puts a dangling slot right. -/
theorem Dangling.call {st st' : ring_state} {c : Call} (h : Dangling st) (hcall : call st c = .ok st') :
    Dangling st' := by
  obtain ⟨i, p, hslot, hretired, hsaved⟩ := h
  cases c with
  | append data malloc =>
    obtain ⟨⟨rc, st₁⟩, happend, rfl⟩ := map_eq_ok_iff.mp hcall
    cases malloc with
    | false =>
      cases happend
      exact ⟨i, p, hslot, hretired, hsaved⟩
    | true =>
      obtain ⟨old, hold, hfree, -, hring⟩ := append_cases happend
      obtain ⟨hretired', hne⟩ := (free_pointer_retires hfree).1 p (hretired.alloc data)
      have hhead : st.ring.head ≠ i := by
        rintro rfl
        rw [hold, Option.some_inj] at hslot
        exact hne hslot
      refine ⟨i, p, ?_, hretired', ?_⟩
      · rw [hring]
        simp only
        rw [List.getElem?_set_ne hhead, hslot]
      · rw [hring]
        exact hsaved
  | checkpoint malloc_segments malloc_lengths =>
    cases hcall
    obtain ⟨hsegments, -, hheap, hcopied⟩ := checkpoint_cases malloc_segments malloc_lengths st
    refine ⟨i, p, by rw [hsegments, hslot], by rwa [hheap], fun segments hsegments' => ?_⟩
    rw [hcopied segments hsegments', hslot]
  | rollback =>
    obtain ⟨-, rfl⟩ | ⟨segments, lengths, hsegments, -, rfl⟩ := rollback_cases hcall
    · exact ⟨i, p, hslot, hretired, hsaved⟩
    · exact ⟨i, p, hsaved segments hsegments, hretired, hsaved⟩

/-- Nothing finds an orphaned block again. -/
theorem Orphaned.call {st st' : ring_state} {c : Call} (h : Orphaned st) (hcall : call st c = .ok st') :
    Orphaned st' := by
  obtain ⟨p, bytes, hread, hslots, hsaved⟩ := h
  cases c with
  | append data malloc =>
    obtain ⟨⟨rc, st₁⟩, happend, rfl⟩ := map_eq_ok_iff.mp hcall
    cases malloc with
    | false =>
      cases happend
      exact ⟨p, bytes, hread, hslots, hsaved⟩
    | true =>
      obtain ⟨old, hold, hfree, -, hring⟩ := append_cases happend
      have hlt := Heap.lt_length_of_read hread
      have hne : old ≠ some p := by
        rintro rfl
        exact hslots _ hold
      refine ⟨p, bytes, ?_, ?_, ?_⟩
      · rw [read_of_free_pointer hfree, if_neg hne, Heap.read_alloc_of_lt data hlt, hread]
      · rw [hring]
        intro i hi
        rw [List.getElem?_set] at hi
        split_ifs at hi
        · rw [Option.some_inj, Option.some_inj] at hi
          exact Nat.lt_irrefl _ (hi ▸ hlt)
        · exact hslots i hi
      · rw [hring]
        exact hsaved
  | checkpoint malloc_segments malloc_lengths =>
    cases hcall
    obtain ⟨hsegments, -, hheap, hcopied⟩ := checkpoint_cases malloc_segments malloc_lengths st
    refine ⟨p, bytes, by rw [hheap, hread], by rwa [hsegments], fun segments hsegments' => ?_⟩
    rwa [hcopied segments hsegments']
  | rollback =>
    obtain ⟨-, rfl⟩ | ⟨segments, lengths, hsegments, -, rfl⟩ := rollback_cases hcall
    · exact ⟨p, bytes, hread, hslots, hsaved⟩
    · exact ⟨p, bytes, hread, hsaved segments hsegments, hsaved⟩

/-- A rollback that goes through against its guard revives a released block. -/
theorem dangling_of_call {st st' : ring_state} {c : Call} (htraced : Traced st) (hguard : ¬Restorable st c)
    (hcall : call st c = .ok st') : Dangling st' := by
  cases c with
  | append data malloc => exact absurd trivial hguard
  | checkpoint malloc_segments malloc_lengths => exact absurd trivial hguard
  | rollback =>
    obtain ⟨hnone, rfl⟩ | ⟨segments, lengths, hsegments, hlengths, rfl⟩ := rollback_cases hcall
    · refine absurd (fun hhas => ?_) hguard
      rw [hnone] at hhas
      cases hhas
    · have hrevived : ∃ i p : Nat, segments[i]? = some (some p) ∧ st.ring.segments[i]? ≠ some (some p) := by
        by_contra hsame
        refine hguard fun _ => ⟨segments, lengths, hsegments, hlengths, fun i p hslot => ?_⟩
        by_contra hgone
        exact hsame ⟨i, p, hslot, hgone⟩
      obtain ⟨i, p, hslot, hgone⟩ := hrevived
      refine ⟨i, p, hslot, (htraced.named segments hsegments i p hslot).resolve_left hgone, fun entries hentries => ?_⟩
      rw [show entries = segments by simpa [hsegments] using hentries.symm]
      exact hslot

/-- One that takes blocks out of the slots loses them. -/
theorem orphaned_of_call {st st' : ring_state} {c : Call} (htraced : Traced st) (howned : Owned st)
    (hrestorable : Restorable st c) (hguard : ¬Unchanged st c) (hcall : call st c = .ok st') : Orphaned st' := by
  cases c with
  | append data malloc => exact absurd trivial hguard
  | checkpoint malloc_segments malloc_lengths => exact absurd trivial hguard
  | rollback =>
    cases hhas : st.ring.has_snapshot with
    | false =>
      refine absurd (fun hhas' => ?_) hguard
      rw [hhas] at hhas'
      cases hhas'
    | true =>
      obtain ⟨segments, lengths, hsegments, hlengths, hsame⟩ := hrestorable hhas
      rw [call, rollback_saved hsegments hlengths hhas] at hcall
      cases hcall
      have hchanged : ∃ i : Nat, segments[i]? ≠ st.ring.segments[i]? := by
        by_contra hequal
        refine hguard fun _ => ⟨lengths, ?_, hlengths⟩
        rw [hsegments, List.ext_getElem? fun i => by_contra fun hi => hequal ⟨i, hi⟩]
      obtain ⟨i, hi⟩ := hchanged
      have hcount := htraced.count segments hsegments
      have hlt : i < segments.length := by
        by_contra hlong
        rw [List.getElem?_eq_none (by omega), List.getElem?_eq_none (by omega)] at hi
        exact hi rfl
      -- the slot was empty at the checkpoint and is filled now
      obtain ⟨p, hempty, hslot⟩ : ∃ p, segments[i]? = some none ∧ st.ring.segments[i]? = some (some p) := by
        rw [List.getElem?_eq_getElem hlt, List.getElem?_eq_getElem (hcount ▸ hlt)] at hi ⊢
        cases hold : segments[i] with
        | some q =>
          have hkept := hsame i q (by rw [List.getElem?_eq_getElem hlt, hold])
          rw [List.getElem?_eq_getElem (hcount ▸ hlt)] at hkept
          exact absurd (by rw [hold, hkept]) hi
        | none =>
          cases hnew : st.ring.segments[i] with
          | none => exact absurd (by rw [hold, hnew]) hi
          | some p => exact ⟨p, rfl, rfl⟩
      obtain ⟨data, hread⟩ := howned.live i p hslot
      have hunnamed : ∀ j : Nat, segments[j]? ≠ some (some p) := by
        intro j hj
        obtain rfl := howned.distinct i j p hslot (hsame j p hj)
        rw [hempty] at hj
        cases hj
      refine ⟨p, data, hread, hunnamed, fun entries hentries => ?_⟩
      rw [show entries = segments by simpa [hsegments] using hentries.symm]
      exact hunnamed

/-- A call that keeps the slots as they are leaves no block behind. -/
theorem Kept.call {st st' : ring_state} {c : Call} (h : Kept st) (hguard : Unchanged st c)
    (hcall : call st c = .ok st') : Kept st' := by
  cases c with
  | append data malloc =>
    obtain ⟨⟨rc, st₁⟩, happend, rfl⟩ := map_eq_ok_iff.mp hcall
    cases malloc with
    | false =>
      cases happend
      exact h
    | true =>
      obtain ⟨old, hold, hfree, -, hring⟩ := append_cases happend
      intro p bytes hread
      rw [read_of_free_pointer hfree] at hread
      split_ifs at hread with hne
      rw [hring]
      obtain hlt | hnew := Nat.lt_or_ge p st.heap.blocks.length
      · rw [Heap.read_alloc_of_lt data hlt] at hread
        obtain ⟨i, hi⟩ := h p bytes hread
        have hhead : st.ring.head ≠ i := by
          rintro rfl
          rw [hold, Option.some_inj] at hi
          exact hne hi
        exact ⟨i, by rw [List.getElem?_set_ne hhead, hi]⟩
      · have hlast : p = (st.heap.alloc data).1 := by
          have hlt := Heap.lt_length_of_read hread
          rw [Heap.alloc, List.length_append, List.length_singleton] at hlt
          exact Nat.le_antisymm (Nat.le_of_lt_succ hlt) hnew
        obtain ⟨hhead, -⟩ := List.getElem?_eq_some_iff.mp hold
        exact ⟨st.ring.head, by rw [List.getElem?_set_self hhead, hlast]⟩
  | checkpoint malloc_segments malloc_lengths =>
    cases hcall
    obtain ⟨hsegments, -, hheap, -⟩ := checkpoint_cases malloc_segments malloc_lengths st
    intro p bytes hread
    rw [hheap] at hread
    rw [hsegments]
    exact h p bytes hread
  | rollback =>
    cases hhas : st.ring.has_snapshot with
    | false =>
      rw [ipmb.ring_window.call, ipmb_ring_rollback, if_pos hhas] at hcall
      cases hcall
      exact h
    | true =>
      obtain ⟨lengths, hsegments, hlengths⟩ := hguard hhas
      rw [ipmb.ring_window.call, rollback_saved hsegments hlengths hhas] at hcall
      cases hcall
      exact h

/-- The release of slots that are owned goes through and empties their blocks. -/
theorem ipmb_ring_free_owned {st : ring_state} (howned : Owned st) :
    ∃ st', ipmb_ring_free st = .ok st' ∧
      ∀ p, st'.heap.read p = if some p ∈ st.ring.segments then none else st.heap.read p := by
  have hlive : ∀ p ∈ st.ring.segments.filterMap id, ∃ data, st.heap.read p = some data := by
    intro p hp
    obtain ⟨i, hi⟩ := List.mem_iff_getElem?.mp (mem_slots.mp hp)
    exact howned.live i p hi
  obtain ⟨heap, hfree⟩ := Heap.freeAll_of_live hlive (nodup_of_distinct howned.distinct)
  refine ⟨{ ring := .zero, heap }, ?_, fun p => ?_⟩
  · rw [ipmb_ring_free, free_slots_eq, hfree]
    rfl
  · simp only [(Heap.freeAll_cases hfree).2 p, mem_slots]

/-- The release of a ring, once for all. -/
theorem ipmb_ring_free_cases {st st' : ring_state} (h : ipmb_ring_free st = .ok st') :
    ¬Dangling st ∧ ((∀ p, st'.heap.read p = none) → ¬Orphaned st) := by
  obtain ⟨heap, hrun, hst'⟩ := bind_eq_ok_iff.mp h
  cases hst'
  obtain ⟨hretired, hread⟩ := Heap.freeAll_cases (free_slots_cases hrun)
  refine ⟨?_, ?_⟩
  · rintro ⟨i, p, hslot, hp, -⟩
    exact hretired p hp (mem_slots.mpr (List.mem_of_getElem? hslot))
  · rintro hempty ⟨p, data, hp, hslots, -⟩
    have hunnamed : p ∉ st.ring.segments.filterMap id := by
      intro hmem
      obtain ⟨i, hi⟩ := List.mem_iff_getElem?.mp (mem_slots.mp hmem)
      exact hslots i hi
    have hnone := hempty p
    rw [hread, if_neg hunnamed, hp] at hnone
    cases hnone

/-- Slots that are owned and traced. -/
structure Sound (st : ring_state) : Prop where
  traced : Traced st
  owned : Owned st

theorem Sound.call {st : ring_state} {c : Call} (h : Sound st) (hguard : Restorable st c) :
    ∃ st', call st c = .ok st' ∧ Sound st' := by
  obtain ⟨st', hcall, howned⟩ := (call_owned_iff h.traced h.owned c).mpr hguard
  exact ⟨st', hcall, h.traced.call hcall, howned⟩

/-- Sound slots with all blocks that there are. -/
theorem Sound.call_kept {st : ring_state} {c : Call} (h : Sound st ∧ Kept st) (hguard : Unchanged st c) :
    ∃ st', ring_window.call st c = .ok st' ∧ Sound st' ∧ Kept st' := by
  obtain ⟨st', hcall, hsound⟩ := h.1.call hguard.restorable
  exact ⟨st', hcall, hsound, h.2.call hguard hcall⟩

theorem lifetime_cases {st st' : ring_state} {calls : List Call} (h : lifetime st calls = .ok st') :
    ∃ last, calls.foldlM call st = .ok last ∧ ipmb_ring_free last = .ok st' := bind_eq_ok_iff.mp h

section lifetime
variable {st : ring_state} {calls : List Call}

theorem lifetime_ends_iff (h : Sound st) : (∃ st', lifetime st calls = .ok st') ↔ Guarded call Restorable st calls := by
  constructor
  · rintro ⟨st', hlife⟩
    obtain ⟨last, hrun, hfree⟩ := lifetime_cases hlife
    refine guarded_of_run (I := Sound) (D := Dangling) ?_ ?_ (fun _ _ _ hd hcall => hd.call hcall) h hrun
      (ipmb_ring_free_cases hfree).1
    · intro s c s' hs hguard hcall
      obtain ⟨s₁, hcall', hs₁⟩ := hs.call hguard
      rw [hcall] at hcall'
      cases hcall'
      exact hs₁
    · exact fun s c s' hs hguard hcall => dangling_of_call hs.traced hguard hcall
  · intro hguarded
    obtain ⟨last, hrun, hlast⟩ := run_of_guarded (I := Sound) (fun s c hs hguard => hs.call hguard) h hguarded
    obtain ⟨st', hfree, -⟩ := ipmb_ring_free_owned hlast.owned
    exact ⟨st', by rw [lifetime, hrun, ok_bind, hfree]⟩

theorem lifetime_clean_iff (h : Sound st) (hkept : Kept st) :
    (∃ st', lifetime st calls = .ok st' ∧ ∀ p, st'.heap.read p = none) ↔ Guarded call Unchanged st calls := by
  constructor
  · rintro ⟨st', hlife, hempty⟩
    obtain ⟨last, hrun, hfree⟩ := lifetime_cases hlife
    obtain ⟨hdangling, horphaned⟩ := ipmb_ring_free_cases hfree
    refine guarded_of_run (I := fun s => Sound s ∧ Kept s) (D := fun s => Dangling s ∨ Orphaned s) ?_ ?_ ?_
      ⟨h, hkept⟩ hrun (not_or.mpr ⟨hdangling, horphaned hempty⟩)
    · intro s c s' hs hguard hcall
      obtain ⟨s₁, hcall', hs₁⟩ := Sound.call_kept hs hguard
      rw [hcall] at hcall'
      cases hcall'
      exact hs₁
    · rintro s c s' ⟨hs, -⟩ hguard hcall
      by_cases hrestorable : Restorable s c
      · exact .inr (orphaned_of_call hs.traced hs.owned hrestorable hguard hcall)
      · exact .inl (dangling_of_call hs.traced hrestorable hcall)
    · rintro s c s' (hd | ho) hcall
      · exact .inl (hd.call hcall)
      · exact .inr (ho.call hcall)
  · intro hguarded
    obtain ⟨last, hrun, hlast, hall⟩ := run_of_guarded (I := fun s => Sound s ∧ Kept s)
      (fun s c hs hguard => Sound.call_kept hs hguard) ⟨h, hkept⟩ hguarded
    obtain ⟨st', hfree, hread⟩ := ipmb_ring_free_owned hlast.owned
    refine ⟨st', by rw [lifetime, hrun, ok_bind, hfree], fun p => ?_⟩
    rw [hread]
    split_ifs with hslot
    · rfl
    · cases hlive : last.heap.read p with
      | none => rfl
      | some data =>
        obtain ⟨i, hi⟩ := hall p data hlive
        exact absurd (List.mem_of_getElem? hi) hslot

end lifetime

/-- From its init to its release a ring frees nothing twice exactly when no rollback
brings back a released block, or a snapshot that was not taken; and it leaves nothing
allocated exactly when every rollback finds the slots as they were at the checkpoint. -/
theorem ring_lifetime_iff {k : Nat} {ring : ipmb_ring_window_t} (hinit : ipmb_ring_init true true k = (.IPMB_OK, ring))
    (calls : List Call) :
    ((∃ st, lifetime (init_state ring) calls = .ok st) ↔ Guarded call Restorable (init_state ring) calls) ∧
      ((∃ st, lifetime (init_state ring) calls = .ok st ∧ ∀ p, st.heap.read p = none) ↔
        Guarded call Unchanged (init_state ring) calls) := by
  obtain ⟨htraced, howned⟩ := owned_init hinit
  have hkept : Kept (init_state ring) := fun p data hread => by cases hread
  exact ⟨lifetime_ends_iff ⟨htraced, howned⟩, lifetime_clean_iff ⟨htraced, howned⟩ hkept⟩

/-- A rollback to the empty ring of the checkpoint: nothing is freed twice, and the
block of the payload appended in between is lost. -/
theorem ring_lifetime_loses_payload :
    (∃ st, lifetime (init_state (ipmb_ring_init true true 2).2)
        [.checkpoint true true, .append [1] true, .rollback] = .ok st) ∧
      ¬∃ st, lifetime (init_state (ipmb_ring_init true true 2).2)
        [.checkpoint true true, .append [1] true, .rollback] = .ok st ∧ ∀ p, st.heap.read p = none := by
  have hinit : ipmb_ring_init true true 2 = (.IPMB_OK, (ipmb_ring_init true true 2).2) := rfl
  have hlife := ring_lifetime_iff hinit [.checkpoint true true, .append [1] true, .rollback]
  refine ⟨⟨_, rfl⟩, fun hclean => ?_⟩
  obtain ⟨lengths, hsegments, -⟩ := (((hlife.2.mp hclean).2 _ rfl).2 _ rfl).1 rfl
  cases hsegments

end ipmb.ring_window
