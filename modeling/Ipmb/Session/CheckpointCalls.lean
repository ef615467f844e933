import Ipmb.Session.CheckpointInvariant

open fallible keyed patch

namespace ipmb.checkpoint_store

@[simp] theorem length_realloc (buf : List (Option UInt8)) (size : Nat) : (realloc buf size).length = size := by
  simp [realloc]

theorem take_realloc {buf : List (Option UInt8)} {n size : Nat} (hsize : n ≤ size) (hbuf : n ≤ buf.length) :
    (realloc buf size).take n = buf.take n := by
  rw [realloc, List.take_take, Nat.min_eq_left hsize, List.take_append_of_le_length hbuf]

/-- A copy goes through inside the block, or if there is nothing to copy. -/
theorem store_bytes_eq_ok_iff {buf buf' bytes : List (Option UInt8)} {pos : Nat} :
    store_bytes buf pos bytes = .ok buf' ↔
      (bytes = [] ∨ pos + bytes.length ≤ buf.length) ∧ buf' = overlay buf pos bytes := by
  rw [store_bytes]
  by_cases hnone : bytes = []
  · rw [if_pos hnone, hnone, overlay_nil, Except.ok.injEq]
    exact ⟨fun h => ⟨.inl rfl, h.symm⟩, fun h => h.2.symm⟩
  · have hpos := List.length_pos_of_ne_nil hnone
    rw [if_neg hnone]
    by_cases hroom : pos + bytes.length ≤ buf.length
    · have hnull : buf ≠ [] := List.ne_nil_of_length_pos (by omega)
      rw [if_neg hnull, if_pos hroom, Except.ok.injEq]
      exact ⟨fun h => ⟨.inr hroom, h.symm⟩, fun h => h.2.symm⟩
    · refine iff_of_false ?_ fun h => hroom (h.1.resolve_left hnone)
      rw [if_neg hroom]
      split_ifs <;> exact fun h => by cases h

theorem load_bytes_eq_ok_iff {buf bytes : List (Option UInt8)} {n : Nat} :
    load_bytes buf n = .ok bytes ↔ n ≤ buf.length ∧ bytes = buf.take n := by
  rw [load_bytes]
  by_cases hnone : n = 0
  · rw [if_pos hnone, hnone, List.take_zero, Except.ok.injEq]
    exact ⟨fun h => ⟨Nat.zero_le _, h.symm⟩, fun h => h.2.symm⟩
  · rw [if_neg hnone]
    by_cases hroom : n ≤ buf.length
    · have hnull : buf ≠ [] := List.ne_nil_of_length_pos (by omega)
      rw [if_neg hnull, if_pos hroom, Except.ok.injEq]
      exact ⟨fun h => ⟨hroom, h.symm⟩, fun h => h.2.symm⟩
    · refine iff_of_false ?_ fun h => hroom h.1
      rw [if_neg hroom]
      split_ifs <;> exact fun h => by cases h

theorem le_grow_loop {need rounds cap : Nat} (h : need ≤ cap + rounds) : need ≤ grow_loop need rounds cap := by
  induction rounds generalizing cap with
  | zero => exact h
  | succ rounds ih =>
    rw [grow_loop]
    split
    · exact ih (by omega)
    · omega

/-- The growth loop ends with room for what is needed. -/
theorem le_grow (need cap : Nat) : need ≤ grow need cap := le_grow_loop (by omega)

/-- What an append that goes through leaves: nothing is changed without memory,
and otherwise the used bytes are more by the payload, within the capacity after
a reallocation. -/
theorem append_item_cases {realloc_buf : Bool} {it it' : ipmb_checkpoint_state_t} {payload : List UInt8}
    {rc : ipmb_status_t} (h : append_item realloc_buf it payload = .ok (rc, it')) :
    rc = .IPMB_ERR_ALLOC ∧ realloc_buf = false ∧ it' = it ∨
      rc = .IPMB_OK ∧ it'.session_id = it.session_id ∧ it'.used = it.used + payload.length ∧
        (it'.used ≤ it.capacity ∧ it'.capacity = it.capacity ∧ it'.buf.length = it.buf.length ∨
          it'.used ≤ it'.capacity ∧ it'.capacity = it'.buf.length) := by
  rw [append_item] at h
  split at h
  · rename_i hfails
    cases h
    exact .inl ⟨rfl, hfails.2, rfl⟩
  · obtain ⟨buf, hbuf, hitem⟩ := bind_eq_ok_iff.mp h
    obtain ⟨_, rfl⟩ := store_bytes_eq_ok_iff.mp hbuf
    cases hitem
    refine .inr ⟨rfl, ?_⟩
    by_cases hneed : it.used + payload.length > it.capacity
    · have hgrow := le_grow (it.used + payload.length) (if it.capacity = 0 then 16 else it.capacity)
      simp only [if_pos hneed, length_overlay, length_realloc]
      exact ⟨trivial, trivial, .inr ⟨hgrow, trivial⟩⟩
    · simp only [if_neg hneed, length_overlay]
      exact ⟨trivial, trivial, .inl ⟨Nat.le_of_not_gt hneed, trivial, trivial⟩⟩

/-- An append goes through unless it has bytes for a null buffer that counts room
for them. -/
theorem append_item_runs_iff {it : ipmb_checkpoint_state_t} (h : it.buf ≠ [] → it.capacity ≤ it.buf.length)
    (realloc_buf : Bool) (payload : List UInt8) :
    (∃ r, append_item realloc_buf it payload = .ok r) ↔
      payload = [] ∨ ¬(it.buf = [] ∧ it.used + payload.length ≤ it.capacity) := by
  rw [append_item]
  by_cases hneed : it.used + payload.length > it.capacity
  · refine iff_of_true ?_ (.inr fun hlost => Nat.not_le.mpr hneed hlost.2)
    by_cases hfails : it.used + payload.length > it.capacity ∧ realloc_buf = false
    · rw [if_pos hfails]
      exact ⟨_, rfl⟩
    · have hgrow := le_grow (it.used + payload.length) (if it.capacity = 0 then 16 else it.capacity)
      have hfits : payload.map some = [] ∨ it.used + (payload.map some).length ≤ (realloc it.buf
          (grow (it.used + payload.length) (if it.capacity = 0 then 16 else it.capacity))).length := by
        rw [length_realloc, List.length_map]
        exact .inr hgrow
      rw [if_neg hfails]
      simp only [if_pos hneed]
      rw [store_bytes_eq_ok_iff.mpr ⟨hfits, rfl⟩]
      exact ⟨_, rfl⟩
  · have hfails : ¬(it.used + payload.length > it.capacity ∧ realloc_buf = false) := fun h => hneed h.1
    rw [if_neg hfails]
    simp only [if_neg hneed]
    constructor
    · rintro ⟨r, hr⟩
      obtain ⟨buf, hstore, -⟩ := bind_eq_ok_iff.mp hr
      obtain ⟨hnone | hroom, -⟩ := store_bytes_eq_ok_iff.mp hstore
      · exact .inl (List.map_eq_nil_iff.mp hnone)
      · by_cases hpayload : payload = []
        · exact .inl hpayload
        · refine .inr fun hlost => ?_
          have hlength := List.length_pos_of_ne_nil hpayload
          rw [hlost.1, List.length_map, List.length_nil] at hroom
          omega
    · intro hruns
      have hfits : payload.map some = [] ∨ it.used + (payload.map some).length ≤ it.buf.length := by
        rw [List.length_map, List.map_eq_nil_iff]
        refine hruns.imp_right fun hlost => ?_
        have hcapacity := h fun hbuf => hlost ⟨hbuf, Nat.not_lt.mp hneed⟩
        omega
      rw [store_bytes_eq_ok_iff.mpr ⟨hfits, rfl⟩]
      exact ⟨_, rfl⟩

/-- With memory and a buffer for the whole capacity an append goes through. -/
theorem append_item_ok {it : ipmb_checkpoint_state_t} (h : it.capacity ≤ it.buf.length)
    (payload : List UInt8) : ∃ it', append_item true it payload = .ok (.IPMB_OK, it') := by
  have hruns : payload = [] ∨ ¬(it.buf = [] ∧ it.used + payload.length ≤ it.capacity) := by
    by_contra hlost
    obtain ⟨hpayload, hlost⟩ := not_or.mp hlost
    obtain ⟨hbuf, hroom⟩ := not_not.mp hlost
    have hlength := List.length_pos_of_ne_nil hpayload
    rw [hbuf, List.length_nil] at h
    omega
  obtain ⟨⟨rc, it'⟩, hrun⟩ := (append_item_runs_iff (fun _ => h) true payload).mpr hruns
  obtain ⟨-, hrefused, -⟩ | ⟨rfl, -⟩ := append_item_cases hrun
  · cases hrefused
  · exact ⟨it', hrun⟩

/-- What a migration makes of the destination's item. The bytes come from the
source's buffer, which is the destination's own, resized, for one session. -/
def migrated_item (src dst : ipmb_checkpoint_state_t) : Except Fault ipmb_checkpoint_state_t := do
  let buf := realloc dst.buf (if src.used - 1 = 0 then 1 else src.used - 1)
  let from_buf := if src.session_id = dst.session_id then buf else src.buf
  let buf ← store_bytes buf 0 (← load_bytes from_buf src.used)
  pure { dst with
    buf
    capacity := src.used - 1
    used := src.used }

theorem Backed.append_item {realloc_buf : Bool} {it it' : ipmb_checkpoint_state_t} {payload : List UInt8}
    {rc : ipmb_status_t} (h : Backed it) (happend : append_item realloc_buf it payload = .ok (rc, it')) :
    Backed it' := by
  obtain ⟨_, _, rfl⟩ | ⟨_, _, _, ⟨hfits, hcap, hlen⟩ | ⟨hfits, hcap⟩⟩ := append_item_cases happend
  · exact h
  · intro hbuf
    rw [← List.length_pos_iff_ne_nil, hlen, List.length_pos_iff_ne_nil] at hbuf
    have hit := h hbuf
    omega
  · intro _
    omega

/-- A copy to a block of one byte less stays inside of it for a single byte, and
for none. -/
theorem migrated_item_cases {src dst it' : ipmb_checkpoint_state_t} (h : migrated_item src dst = .ok it') :
    it'.session_id = dst.session_id ∧ it'.used = src.used ∧ it'.capacity = src.used - 1 ∧ src.used ≤ 1 ∧
      it'.buf.length = 1 := by
  obtain ⟨bytes, hload, h⟩ := bind_eq_ok_iff.mp h
  obtain ⟨buf, hstore, h⟩ := bind_eq_ok_iff.mp h
  obtain ⟨hread, rfl⟩ := load_bytes_eq_ok_iff.mp hload
  obtain ⟨hfits, rfl⟩ := store_bytes_eq_ok_iff.mp hstore
  cases h
  have hcount := List.length_take_of_le hread
  have hused : src.used ≤ 1 := by
    obtain hnone | hfits := hfits
    · rw [hnone, List.length_nil] at hcount
      omega
    · rw [hcount, length_realloc] at hfits
      split at hfits <;> omega
  refine ⟨rfl, rfl, rfl, hused, ?_⟩
  rw [length_overlay, length_realloc, if_pos (by omega)]

theorem migrated_item_ok_iff {src dst : ipmb_checkpoint_state_t} :
    (∃ it', migrated_item src dst = .ok it') ↔
      src.used ≤ 1 ∧ (src.session_id = dst.session_id ∨ src.used ≤ src.buf.length) := by
  constructor
  · rintro ⟨it', h⟩
    obtain ⟨_, _, _, hused, _⟩ := migrated_item_cases h
    obtain ⟨bytes, hload, -⟩ := bind_eq_ok_iff.mp h
    have hread := (load_bytes_eq_ok_iff.mp hload).1
    by_cases hsame : src.session_id = dst.session_id
    · exact ⟨hused, .inl hsame⟩
    · rw [if_neg hsame] at hread
      exact ⟨hused, .inr hread⟩
  rintro ⟨hused, h⟩
  have hsize : (if src.used - 1 = 0 then 1 else src.used - 1) = 1 := if_pos (by omega)
  have hread : src.used ≤ (if src.session_id = dst.session_id then realloc dst.buf 1 else src.buf).length := by
    split
    · rw [length_realloc]
      exact hused
    · exact h.resolve_left ‹_›
  have hfits : 0 + ((if src.session_id = dst.session_id then realloc dst.buf 1 else src.buf).take src.used).length ≤
      (realloc dst.buf 1).length := by
    rw [List.length_take_of_le hread, length_realloc, Nat.zero_add]
    exact hused
  rw [migrated_item]
  simp only [hsize]
  rw [load_bytes_eq_ok_iff.mpr ⟨hread, rfl⟩, ok_bind, store_bytes_eq_ok_iff.mpr ⟨.inr hfits, rfl⟩]
  exact ⟨_, rfl⟩

theorem backed_of_migrated {src dst it' : ipmb_checkpoint_state_t} (h : migrated_item src dst = .ok it') :
    Backed it' := by
  obtain ⟨_, hused, hcap, _, hlen⟩ := migrated_item_cases h
  intro _
  omega

section calls

variable {store : ipmb_checkpoint_store_t} {src dst : UInt32} {growth : Growth} {realloc_buf : Bool}

/-- How an append ends: there is no room for the session, or it is one to the
session's item. -/
inductive Appends (store : ipmb_checkpoint_store_t) (sid : UInt32) (payload : List UInt8) (growth : Growth)
    (realloc_buf : Bool) : Except Fault (ipmb_status_t × ipmb_checkpoint_store_t) → Prop where
  | full (hfull : Full store sid) (hgrowth : growth = .failed) :
      Appends store sid payload growth realloc_buf (.ok (.IPMB_ERR_ALLOC, store))
  | faulted {e : Fault} (hitem : append_item realloc_buf (current store sid) payload = .error e) :
      Appends store sid payload growth realloc_buf (.error e)
  | appended {rc : ipmb_status_t} {it : ipmb_checkpoint_state_t} {store' : ipmb_checkpoint_store_t}
      (hitem : append_item realloc_buf (current store sid) payload = .ok (rc, it))
      (hupdated : Updated store it store') :
      Appends store sid payload growth realloc_buf (.ok (rc, store'))

theorem ipmb_checkpoint_append_cases (h : Sound store) (sid : UInt32) (payload : List UInt8) (growth : Growth)
    (realloc_buf : Bool) : Appends store sid payload growth realloc_buf
      (ipmb_checkpoint_append growth realloc_buf store sid payload) := by
  by_cases hroom : Full store sid ∧ growth = .failed
  · obtain ⟨hfull, rfl⟩ := hroom
    rw [ipmb_checkpoint_append, find_or_add_failed hfull]
    exact .full hfull rfl
  · obtain ⟨i, store₁, hfound, hget, _, hupdate⟩ := find_or_add_spec h hroom
    cases hitem : append_item realloc_buf (current store sid) payload with
    | error e =>
      have hrun : ipmb_checkpoint_append growth realloc_buf store sid payload = .error e := by
        simp [ipmb_checkpoint_append, hfound, item, hget, hitem]
      rw [hrun]
      exact .faulted hitem
    | ok result =>
      obtain ⟨rc, it⟩ := result
      have hrun : ipmb_checkpoint_append growth realloc_buf store sid payload =
          .ok (rc, set_item store₁ i it) := by
        simp [ipmb_checkpoint_append, hfound, item, hget, hitem]
      have hkey : it.session_id = sid := by
        obtain ⟨_, _, rfl⟩ | ⟨_, hkey, _⟩ := append_item_cases hitem
        · exact current_session_id store sid
        · exact hkey.trans (current_session_id store sid)
      rw [hrun]
      exact .appended hitem (hupdate it hkey)

/-- The items array is where it was after the destination was found. -/
def Stays (store : ipmb_checkpoint_store_t) (dst : UInt32) (growth : Growth) : Prop :=
  ¬(Full store dst ∧ growth = .failed) ∧ ¬(Full store dst ∧ growth = .moved)

/-- How a migration ends: there is no source, no room for the destination, or
the source is read where it no longer is; or the array stays, and then there is
no memory for the destination's buffer, or the migration is one to its item. -/
inductive Migrates (store : ipmb_checkpoint_store_t) (src dst : UInt32) (growth : Growth) (realloc_buf : Bool) :
    Except Fault (ipmb_status_t × ipmb_checkpoint_store_t) → Prop where
  | absent (hsrc : find store src = none) :
      Migrates store src dst growth realloc_buf (.ok (.IPMB_ERR_NOT_FOUND, store))
  | full {it : ipmb_checkpoint_state_t} (hsrc : find store src = some it) (hfull : Full store dst)
      (hgrowth : growth = .failed) :
      Migrates store src dst growth realloc_buf (.ok (.IPMB_ERR_ALLOC, store))
  | moved {it : ipmb_checkpoint_state_t} (hsrc : find store src = some it) (hfull : Full store dst)
      (hgrowth : growth = .moved) : Migrates store src dst growth realloc_buf (.error .useAfterFree)
  | unbuffered {it : ipmb_checkpoint_state_t} {store' : ipmb_checkpoint_store_t}
      (hsrc : find store src = some it) (hstays : Stays store dst growth) (hbuf : realloc_buf = false)
      (hupdated : Updated store { current store dst with buf := [] } store') :
      Migrates store src dst growth realloc_buf (.ok (.IPMB_ERR_ALLOC, store'))
  | faulted {it : ipmb_checkpoint_state_t} {e : Fault} (hsrc : find store src = some it)
      (hstays : Stays store dst growth) (hbuf : realloc_buf = true)
      (hitem : migrated_item it (current store dst) = .error e) :
      Migrates store src dst growth realloc_buf (.error e)
  | copied {it it' : ipmb_checkpoint_state_t} {store' : ipmb_checkpoint_store_t}
      (hsrc : find store src = some it) (hstays : Stays store dst growth) (hbuf : realloc_buf = true)
      (hitem : migrated_item it (current store dst) = .ok it') (hupdated : Updated store it' store') :
      Migrates store src dst growth realloc_buf (.ok (.IPMB_OK, store'))

theorem ipmb_checkpoint_migrate_absent (hsrc : find store src = none) (growth : Growth) (realloc_buf : Bool)
    (dst : UInt32) :
    ipmb_checkpoint_migrate growth realloc_buf store src dst = .ok (.IPMB_ERR_NOT_FOUND, store) := by
  have hlast : last_index ipmb_checkpoint_state_t.session_id src store.items = none :=
    (last_index_spec _ src store.items).2.mpr (find_none_iff.mp hsrc)
  rw [ipmb_checkpoint_migrate, hlast]

/-- A migration within an array that stays is one to the item of the
destination. -/
theorem ipmb_checkpoint_migrate_stays (h : Sound store) {it : ipmb_checkpoint_state_t}
    (hsrc : find store src = some it) (hstays : Stays store dst growth) :
    Migrates store src dst growth realloc_buf (ipmb_checkpoint_migrate growth realloc_buf store src dst) := by
  obtain ⟨j, hj, hget_src⟩ := last_index_of_find h hsrc
  obtain ⟨hroom, hunmoved⟩ := hstays
  obtain ⟨i, store₁, hfound, hget, hothers, hupdate⟩ := find_or_add_spec h hroom
  have hsrc₁ := hothers j it hget_src
  have hi := (List.getElem?_eq_some_iff.mp hget).1
  have hdst := current_session_id store dst
  have hpred : (if it.used > 0 then it.used - 1 else it.used) = it.used - 1 := by
    split <;> omega
  cases realloc_buf with
  | false =>
    have hrun : ipmb_checkpoint_migrate growth false store src dst =
        .ok (.IPMB_ERR_ALLOC, set_item store₁ i { current store dst with buf := [] }) := by
      rw [ipmb_checkpoint_migrate, hj]
      simp [hfound, hunmoved, item, hsrc₁, hget]
    rw [hrun]
    exact .unbuffered hsrc ⟨hroom, hunmoved⟩ rfl (hupdate _ hdst)
  | true =>
    have hnodup : (store₁.items.map ipmb_checkpoint_state_t.session_id).Nodup := by
      have hsame := (hupdate (current store dst) hdst).distinct
      rwa [set_item, map_key_set hget rfl] at hsame
    have hrun : ipmb_checkpoint_migrate growth true store src dst = (do
        let it' ← migrated_item it (current store dst)
        pure (.IPMB_OK, set_item store₁ i it')) := by
      rw [ipmb_checkpoint_migrate, hj]
      simp only [hfound, hunmoved, decide_false, Bool.false_eq_true, if_false, item, hsrc₁, hget, ok_bind,
        hpred]
      by_cases hself : j = i
      · -- the session is migrated onto itself
        subst hself
        obtain rfl : it = current store dst := Option.some.inj (hsrc₁.symm.trans hget)
        simp [set_item, hi, migrated_item]
      · have hkeys : it.session_id ≠ (current store dst).session_id := by
          intro hkey
          exact hself (index_unique hnodup hsrc₁ hget hkey)
        simp [set_item, List.getElem?_set_ne (Ne.symm hself), hsrc₁, migrated_item, hkeys]
    rw [hrun]
    cases hitem : migrated_item it (current store dst) with
    | error e => exact .faulted hsrc ⟨hroom, hunmoved⟩ rfl hitem
    | ok it' =>
      have hkey := (migrated_item_cases hitem).1.trans hdst
      exact .copied hsrc ⟨hroom, hunmoved⟩ rfl hitem (hupdate it' hkey)

theorem ipmb_checkpoint_migrate_cases (h : Sound store) (src dst : UInt32) (growth : Growth)
    (realloc_buf : Bool) : Migrates store src dst growth realloc_buf
      (ipmb_checkpoint_migrate growth realloc_buf store src dst) := by
  cases hsrc : find store src with
  | none =>
    rw [ipmb_checkpoint_migrate_absent hsrc]
    exact .absent hsrc
  | some it =>
    obtain ⟨j, hj, _⟩ := last_index_of_find h hsrc
    by_cases hfailed : Full store dst ∧ growth = .failed
    · obtain ⟨hfull, rfl⟩ := hfailed
      rw [ipmb_checkpoint_migrate, hj]
      simp only [find_or_add_failed hfull]
      exact .full hsrc hfull rfl
    · by_cases hmoved : Full store dst ∧ growth = .moved
      · obtain ⟨hfull, rfl⟩ := hmoved
        obtain ⟨i, store₁, hfound, _⟩ := find_or_add_spec h hfailed
        rw [ipmb_checkpoint_migrate, hj]
        simp only [hfound, hfull, true_and, decide_true, if_true]
        exact .moved hsrc hfull rfl
      · exact ipmb_checkpoint_migrate_stays h hsrc ⟨hfailed, hmoved⟩

/-- A call leaves the store alone or replaces the item of one session. -/
theorem call_updates (h : Sound store) {store' : ipmb_checkpoint_store_t} {c : Call}
    (hcall : call store c = .ok store') : store' = store ∨ ∃ it, Backed it ∧ Updated store it store' := by
  cases c with
  | append sid payload growth realloc_buf =>
    obtain ⟨⟨rc, _⟩, happend, rfl⟩ := map_eq_ok_iff.mp hcall
    have hcases := ipmb_checkpoint_append_cases h sid payload growth realloc_buf
    rw [happend] at hcases
    cases hcases with
    | full => exact .inl rfl
    | appended hitem hupdated =>
      have hcurrent : Backed (current store sid) :=
        current_induction (fun _ hbuf => absurd rfl hbuf) h.backed sid
      exact .inr ⟨_, hcurrent.append_item hitem, hupdated⟩
  | migrate src dst growth realloc_buf =>
    obtain ⟨⟨rc, _⟩, hmigrate, rfl⟩ := map_eq_ok_iff.mp hcall
    have hcases := ipmb_checkpoint_migrate_cases h src dst growth realloc_buf
    rw [hmigrate] at hcases
    cases hcases with
    | absent => exact .inl rfl
    | full => exact .inl rfl
    | unbuffered _ _ _ hupdated => exact .inr ⟨_, fun hbuf => absurd rfl hbuf, hupdated⟩
    | copied _ _ _ hitem hupdated => exact .inr ⟨_, backed_of_migrated hitem, hupdated⟩

end calls

theorem Sound.call {store store' : ipmb_checkpoint_store_t} (h : Sound store) {c : Call}
    (hcall : call store c = .ok store') : Sound store' := by
  obtain rfl | ⟨it, hit, hupdated⟩ := call_updates h hcall
  · exact h
  · exact hupdated.sound h hit

theorem Reachable.sound {store : ipmb_checkpoint_store_t} (h : Reachable store) : Sound store := by
  obtain ⟨calls, hrun⟩ := h
  exact foldlM_invariant (fun _ _ _ h hcall => h.call hcall) sound_init hrun

end ipmb.checkpoint_store
