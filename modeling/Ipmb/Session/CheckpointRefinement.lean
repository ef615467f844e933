import Ipmb.Session.CheckpointAccumulation
import Ipmb.Session.CheckpointCalls

open accumulate fallible logged patch

namespace ipmb.checkpoint_memory

/-- The item without the bounds of its sizes. -/
def abstract_item (it : ipmb_checkpoint_state_t) : checkpoint_store.ipmb_checkpoint_state_t where
  session_id := it.session_id
  buf := it.buf
  used := it.used.toNat
  capacity := it.capacity.toNat

/-- The store without the slots behind the items in use. -/
def abstract_store (store : ipmb_checkpoint_store_t) : checkpoint_store.ipmb_checkpoint_store_t where
  items := ((store.items.take store.count.toNat).filterMap id).map abstract_item
  capacity := store.capacity.toNat

theorem items_abstract_store {store : ipmb_checkpoint_store_t} {its : List ipmb_checkpoint_state_t}
    {rest : List (Option ipmb_checkpoint_state_t)} (hitems : store.items = its.map some ++ rest)
    (hcount : store.count.toNat = its.length) : (abstract_store store).items = its.map abstract_item := by
  have htake : store.items.take store.count.toNat = its.map some := by
    rw [hitems, hcount, List.take_left' (List.length_map some)]
  have hall : (its.map some).filterMap id = its := by
    rw [List.filterMap_map]
    exact List.filterMap_some
  rw [abstract_store, htake, hall]

theorem abstract_store_eq {store : ipmb_checkpoint_store_t} {its : List ipmb_checkpoint_state_t}
    {rest : List (Option ipmb_checkpoint_state_t)} (hitems : store.items = its.map some ++ rest)
    (hcount : store.count.toNat = its.length) :
    abstract_store store = { items := its.map abstract_item, capacity := store.capacity.toNat } := by
  rw [← items_abstract_store hitems hcount]
  rfl

section store
variable {store store₁ : ipmb_checkpoint_store_t} {sid : UInt32} {i : Nat} {it : ipmb_checkpoint_state_t}

/-- Either way the item is one of those in use. -/
theorem Place.slots (h : Place store sid i it store₁) :
    ∃ fronts backs rest, store₁.items = (fronts ++ it :: backs).map some ++ rest ∧
      store₁.count.toNat = (fronts ++ it :: backs).length ∧ i = fronts.length := by
  cases h with
  | @there fronts backs it rest hitems hcount => exact ⟨fronts, backs, rest, hitems, hcount, rfl⟩
  | @added its rest rest₁ store₁ hitems hcount hits hitems₁ hcount₁ =>
    refine ⟨its, [], rest₁, ?_, ?_, rfl⟩
    · rw [hitems₁, List.map_append, List.map_singleton, List.append_assoc, List.singleton_append]
    · rw [hcount₁, List.length_append, List.length_singleton]

theorem Place.item_refines (h : Place store sid i it store₁) :
    checkpoint_store.item (abstract_store store₁) i = .ok (abstract_item it) := by
  obtain ⟨fronts, backs, rest, hitems, hcount, rfl⟩ := h.slots
  have hget : ((fronts ++ it :: backs).map abstract_item)[fronts.length]? = some (abstract_item it) := by
    simp
  rw [checkpoint_store.item, items_abstract_store hitems hcount, hget]

theorem Place.set_refines (h : Place store sid i it store₁) (it' : ipmb_checkpoint_state_t) :
    abstract_store { store₁ with items := store₁.items.set i (some it') } =
      checkpoint_store.set_item (abstract_store store₁) i (abstract_item it') := by
  obtain ⟨fronts, backs, rest, hitems, hcount, rfl⟩ := h.slots
  have hset : store₁.items.set fronts.length (some it') = (fronts ++ it' :: backs).map some ++ rest := by
    rw [hitems, List.map_append, List.map_cons, List.append_assoc, List.cons_append, set_slot, List.map_append,
      List.map_cons, List.append_assoc, List.cons_append]
  have hcount' : store₁.count.toNat = (fronts ++ it' :: backs).length := by
    rw [hcount, List.length_append, List.length_append, List.length_cons, List.length_cons]
  have hstore' : abstract_store { store₁ with items := store₁.items.set fronts.length (some it') } =
      { items := (fronts ++ it' :: backs).map abstract_item, capacity := store₁.capacity.toNat } :=
    abstract_store_eq hset hcount'
  rw [hstore', abstract_store_eq hitems hcount, checkpoint_store.set_item]
  simp only [List.map_append, List.map_cons, set_slot]

theorem findIdx_absent {its : List ipmb_checkpoint_state_t} (h : ∀ it ∈ its, it.session_id ≠ sid) :
    (its.map abstract_item).findIdx? (fun it => decide (it.session_id = sid)) = none := by
  rw [List.findIdx?_eq_none_iff]
  intro it' hit'
  obtain ⟨it, hit, rfl⟩ := List.mem_map.mp hit'
  exact decide_eq_false (h it hit)

/-- The search and the growth of the array do the same. -/
theorem Place.find_or_add_refines (h : Place store sid i it store₁) {growth : checkpoint_store.Growth}
    (hgrowth : growth ≠ .failed) :
    ∃ moved, checkpoint_store.find_or_add growth (abstract_store store) sid =
      some (i, abstract_store store₁, moved) := by
  cases h with
  | @there fronts backs it rest hitems hcount hfronts hit =>
    refine ⟨false, ?_⟩
    have hindex : (abstract_store store).items.findIdx? (fun it => decide (it.session_id = sid)) =
        some fronts.length := by
      rw [items_abstract_store hitems hcount, List.map_append, List.map_cons, List.findIdx?_append,
        findIdx_absent hfronts, Option.none_or, List.findIdx?_cons]
      simp [abstract_item, hit]
    rw [checkpoint_store.find_or_add, hindex]
  | @added its rest rest₁ store₁ hitems hcount hits hitems₁ hcount₁ hcapacity₁ =>
    have hindex : (abstract_store store).items.findIdx? (fun it => decide (it.session_id = sid)) = none := by
      rw [items_abstract_store hitems hcount]
      exact findIdx_absent hits
    have hslots₁ : store₁.items =
        (its ++ [{ ipmb_checkpoint_state_t.zero with session_id := sid }]).map some ++ rest₁ := by
      rw [hitems₁, List.map_append, List.map_singleton, List.append_assoc, List.singleton_append]
    have hlength₁ : store₁.count.toNat =
        (its ++ [{ ipmb_checkpoint_state_t.zero with session_id := sid }]).length := by
      rw [hcount₁, List.length_append, List.length_singleton]
    rw [checkpoint_store.find_or_add, hindex, abstract_store_eq hslots₁ hlength₁, abstract_store_eq hitems hcount,
      hcapacity₁, next_capacity, List.map_append, List.map_singleton]
    simp only [List.length_map]
    by_cases hfull : its.length = store.capacity.toNat
    · rw [if_pos hfull, if_pos hfull]
      cases growth with
      | failed => exact absurd rfl hgrowth
      | inPlace => exact ⟨false, rfl⟩
      | moved => exact ⟨true, rfl⟩
    · rw [if_neg hfull, if_neg hfull]
      exact ⟨false, rfl⟩

end store

section item
variable {it : ipmb_checkpoint_state_t} {sid : UInt32} {as payload : List UInt8}

/-- Without a wrap around the loops do the same. -/
theorem grow_loop_refines {need cap cap' : UInt64} {rounds : Nat} (hneed : need.toNat < 2 ^ 62)
    (h : grow_loop need rounds cap = .ok cap') :
    cap'.toNat = checkpoint_store.grow_loop need.toNat rounds cap.toNat := by
  induction rounds generalizing cap with
  | zero =>
    rw [grow_loop] at h
    split at h
    · cases h
    · cases h
      rfl
  | succ rounds ih =>
    rw [grow_loop] at h
    rw [checkpoint_store.grow_loop]
    by_cases hshort : cap < need
    · have hlt := UInt64.lt_iff_toNat_lt.mp hshort
      have hgrown : (cap + cap / 2 + 1).toNat = cap.toNat + cap.toNat / 2 + 1 := by
        simp only [UInt64.toNat_add, UInt64.toNat_div, UInt64.reduceToNat]
        omega
      rw [if_pos hshort] at h
      rw [if_pos hlt, ← hgrown]
      exact ih h
    · rw [if_neg hshort] at h
      cases h
      rw [if_neg fun hlt => hshort (UInt64.lt_iff_toNat_lt.mpr hlt)]

theorem copy_payload_refines {buf buf' : List (Option UInt8)} {used : UInt64}
    (h : copy_payload buf used payload = .ok buf') :
    checkpoint_store.store_bytes buf used.toNat (payload.map some) = .ok buf' := by
  rw [← h, copy_payload, checkpoint_store.store_bytes, List.length_map]
  simp only [List.map_eq_nil_iff]

/-- An item with room for what is needed. -/
def with_room (need : Nat) (it : checkpoint_store.ipmb_checkpoint_state_t) :
    checkpoint_store.ipmb_checkpoint_state_t :=
  if need > it.capacity then
    let cap := checkpoint_store.grow need (if it.capacity = 0 then 16 else it.capacity)
    { it with buf := checkpoint_store.realloc it.buf cap, capacity := cap }
  else it

/-- An append makes room and stores the payload. -/
theorem append_item_with_room (it : checkpoint_store.ipmb_checkpoint_state_t) (payload : List UInt8) :
    checkpoint_store.append_item true it payload = (do
      let roomy := with_room (it.used + payload.length) it
      let buf ← checkpoint_store.store_bytes roomy.buf roomy.used (payload.map some)
      pure (.IPMB_OK, { roomy with buf, used := roomy.used + payload.length })) := by
  have hgranted : ¬(it.used + payload.length > it.capacity ∧ true = false) := by simp
  rw [checkpoint_store.append_item, if_neg hgranted]
  rfl

theorem make_room_refines {need : UInt64} (hneed : need.toNat < 2 ^ 62) (log : List Growth) :
    Ensures (make_room true it need) log fun r _ =>
      ∃ it', r = some it' ∧ abstract_item it' = with_room need.toNat (abstract_item it) := by
  rw [make_room, with_room]
  apply Ensures.ite
  · intro hgrow
    have hlt : need.toNat > (abstract_item it).capacity := UInt64.lt_iff_toNat_lt.mp hgrow
    obtain ⟨cap, hcap, -⟩ : ∃ cap, grow_loop need need.toNat (if it.capacity ≠ 0 then it.capacity else 16) =
        .ok cap ∧ need ≤ cap := grow_loop_spec hneed (by omega)
    have hstart : (if it.capacity ≠ 0 then it.capacity else 16).toNat =
        if it.capacity.toNat = 0 then 16 else it.capacity.toNat := by
      by_cases hzero : it.capacity = 0
      · rw [hzero]
        rfl
      · have hpos : it.capacity.toNat ≠ 0 := fun h => hzero (UInt64.toNat_inj.mp h)
        rw [if_pos hzero, if_neg hpos]
    have hgrown := grow_loop_refines hneed hcap
    rw [hstart] at hgrown
    apply Ensures.bind (Ensures.noting hcap (Q := fun a _ => a = cap) rfl)
    rintro _ log rfl
    refine Ensures.pure ⟨_, rfl, ?_⟩
    rw [if_pos hlt, abstract_item, hgrown]
    rfl
  · intro hstays
    have hle : ¬need.toNat > (abstract_item it).capacity := fun hlt => hstays (UInt64.lt_iff_toNat_lt.mpr hlt)
    rw [if_neg hle]
    exact Ensures.pure ⟨it, rfl, rfl⟩

theorem append_state_refines (h : Represents it (sid, as)) (hsize : as.length + payload.length < 2 ^ 62)
    {log : List Growth} (hlog : Ended log) :
    Ensures (append_state true it payload) log fun r _ =>
      checkpoint_store.append_item true (abstract_item it) payload = .ok (r.1, abstract_item r.2) := by
  have hused : it.used.toNat = as.length := h.used
  have hneed : (it.used + UInt64.ofNat payload.length).toNat = it.used.toNat + payload.length :=
    toNat_add_length (by omega)
  apply Ensures.bind ((make_room_spec h (by omega) (by omega) hlog).and (make_room_refines (by omega) log))
  rintro _ log ⟨⟨it', rfl, h', hroom, hlog⟩, it'', hsame, hroomy⟩
  obtain rfl := Option.some.inj hsame
  have hused' : it'.used.toNat = as.length := h'.used
  have hneed' : (it'.used + UInt64.ofNat payload.length).toNat = it'.used.toNat + payload.length :=
    toNat_add_length (by omega)
  obtain ⟨buf, hcopy, -⟩ : ∃ buf, copy_payload it'.buf it'.used payload = .ok buf ∧ buf.length = it'.buf.length ∧
      buf.take (it'.used.toNat + payload.length) = it'.buf.take it'.used.toNat ++ payload.map some :=
    copy_payload_spec (by omega)
  apply Ensures.bind (ensures_silent hcopy (Q := fun a _ => a = buf) rfl)
  rintro buf log rfl
  have hroomy' : with_room ((abstract_item it).used + payload.length) (abstract_item it) = abstract_item it' := by
    rw [hroomy, hneed]
    rfl
  have hstore : checkpoint_store.store_bytes (abstract_item it').buf (abstract_item it').used (payload.map some) =
      .ok buf := copy_payload_refines hcopy
  apply Ensures.pure
  rw [append_item_with_room, hroomy']
  simp only [hstore, ok_bind]
  simp only [abstract_item, hneed']
  rfl

end item

section calls
variable {store : ipmb_checkpoint_store_t} {entries : List (UInt32 × List UInt8)}
  {growth : checkpoint_store.Growth} {log : List Growth}

/-- An append does what it does without a bound of the sizes. -/
theorem ipmb_checkpoint_append_refines (h : Holds store entries) (sid : UInt32) {payload : List UInt8}
    (hsize : size entries + payload.length < 2 ^ 62) (hgrowth : growth ≠ .failed) (hlog : Ended log) :
    Ensures (ipmb_checkpoint_append true true store sid payload) log fun r _ =>
      checkpoint_store.ipmb_checkpoint_append growth true (abstract_store store) sid payload =
        .ok (r.1, abstract_store r.2) := by
  obtain ⟨i, store₁, it, as, hlocated⟩ := find_or_add_spec h sid
  have hlength := hlocated.length_le
  obtain ⟨moved, hfound⟩ := hlocated.place.find_or_add_refines hgrowth
  apply Ensures.bind (ensures_silent hlocated.found (Q := fun a log' => a = some (i, store₁) ∧ Ended log')
    ⟨rfl, hlog⟩)
  rintro _ log ⟨rfl, hlog⟩
  apply Ensures.bind (ensures_silent hlocated.item (Q := fun a log' => a = it ∧ Ended log') ⟨rfl, hlog⟩)
  rintro _ log ⟨rfl, hlog⟩
  apply Ensures.bind (append_state_refines hlocated.represents (by omega) hlog)
  rintro ⟨rc, it'⟩ log hitem
  apply Ensures.pure
  rw [checkpoint_store.ipmb_checkpoint_append, hfound]
  simp only [hlocated.place.item_refines, ok_bind, hitem, hlocated.place.set_refines]
  rfl

/-- The append of a session's bytes on values, with memory for them. The items array
may grow where it is or elsewhere. -/
def Granted (c : UInt32 × List UInt8) (m : checkpoint_store.Call) : Prop :=
  ∃ growth, growth ≠ .failed ∧ m = .append c.1 c.2 growth true

/-- So do appends one after the other. -/
theorem append_all_refines (h : Holds store entries) {calls : List (UInt32 × List UInt8)}
    {muts : List checkpoint_store.Call} (hmuts : List.Forall₂ Granted calls muts)
    (hsize : size entries + size calls < 2 ^ 62) (hlog : Ended log) :
    Ensures (append_all calls store) log fun r _ =>
      muts.foldlM checkpoint_store.call (abstract_store store) = .ok (abstract_store r.2) := by
  induction hmuts generalizing store entries log with
  | nil => exact Ensures.pure rfl
  | @cons c m calls muts hgranted _ ih =>
    obtain ⟨sid, payload⟩ := c
    obtain ⟨growth, hgrowth, rfl⟩ := hgranted
    have hsizes : size ((sid, payload) :: calls) = payload.length + size calls := by
      rw [size, List.flatMap_cons, List.length_append, size]
    apply Ensures.bind ((ipmb_checkpoint_append_spec h sid (by omega) hlog).and
      (ipmb_checkpoint_append_refines h sid (by omega) hgrowth hlog))
    rintro ⟨rc, store₁⟩ log ⟨⟨-, h₁, hlog⟩, hstep⟩
    apply Ensures.bind (ih h₁ (by rw [size_upsert]; omega) hlog)
    rintro ⟨rcs, store₂⟩ log hrun
    apply Ensures.pure
    have hcall : checkpoint_store.call (abstract_store store) (.append sid payload growth true) =
        .ok (abstract_store store₁) := by
      rw [checkpoint_store.call, hstep, map_ok]
    rw [List.foldlM_cons, hcall, ok_bind]
    exact hrun

/-- The store with sizes of 64 bits and zeroed slots refines the one of values: appends
that do not wrap the sizes around all go through, and leave the store that the same
appends leave on values. -/
theorem appends_refine (calls : List (UInt32 × List UInt8)) (htotal : (calls.flatMap Prod.snd).length < 2 ^ 62)
    (muts : List checkpoint_store.Call) (hmuts : List.Forall₂ Granted calls muts) :
    ∃ rcs store log, (append_all calls ipmb_checkpoint_store_init).run [] = .ok ((rcs, store), log) ∧
      rcs = List.replicate calls.length .IPMB_OK ∧
      muts.foldlM checkpoint_store.call checkpoint_store.ipmb_checkpoint_store_init = .ok (abstract_store store) := by
  have hempty : Ended [] := by
    intro g hg
    cases hg
  have hsize : size ([] : List (UInt32 × List UInt8)) + size calls < 2 ^ 62 := by
    rw [size, size, List.flatMap_nil, List.length_nil, Nat.zero_add]
    exact htotal
  obtain ⟨r, log, hrun, ⟨hrcs, -⟩, hvalues⟩ :=
    (append_all_spec holds_init hsize hempty).and (append_all_refines holds_init hmuts hsize hempty)
  exact ⟨r.1, r.2, log, hrun, hrcs, hvalues⟩

/-- Two sessions in turn, on values with an array that moves. -/
theorem appends_refine_two :
    ∃ rcs store log,
      (append_all [(7, [1, 2]), (9, []), (7, [3])] ipmb_checkpoint_store_init).run [] = .ok ((rcs, store), log) ∧
      rcs = List.replicate 3 .IPMB_OK ∧
      [.append 7 [1, 2] .moved true, .append 9 [] .inPlace true, .append 7 [3] .inPlace true].foldlM
        checkpoint_store.call checkpoint_store.ipmb_checkpoint_store_init = .ok (abstract_store store) :=
  appends_refine [(7, [1, 2]), (9, []), (7, [3])] (by decide) _
    (.cons ⟨.moved, by decide, rfl⟩ (.cons ⟨.inPlace, by decide, rfl⟩ (.cons ⟨.inPlace, by decide, rfl⟩ .nil)))

end calls

end ipmb.checkpoint_memory
