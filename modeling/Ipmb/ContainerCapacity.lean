import Ipmb.Containers
import Ipmb.Support.Doubling

open doubling fallible
open ipmb.checkpoint_store ipmb.event_log ipmb.match_table ipmb.storage ipmb.rule_compiler

namespace ipmb.containers

section store
variable {store store' : ipmb_checkpoint_store_t}

theorem find_or_add_room (h : store.capacity = room 4 store.items.length) {growth : Growth} {sid : UInt32} {i : Nat}
    {moved : Bool} (hfound : find_or_add growth store sid = some (i, store', moved)) :
    store'.capacity = room 4 store'.items.length := by
  rw [find_or_add] at hfound
  split at hfound
  · cases hfound
    exact h
  · dsimp only at hfound
    rw [h] at hfound
    split at hfound
    · rename_i hfull
      split at hfound
      · cases hfound
      all_goals
        cases hfound
        rw [List.length_append]
        exact doubled_eq_room (by decide) hfull
    · rename_i hroom
      cases hfound
      rw [List.length_append]
      exact (room_succ_of_ne (by decide) hroom).symm

theorem set_item_room (h : store.capacity = room 4 store.items.length) (i : Nat) (it : ipmb_checkpoint_state_t) :
    (set_item store i it).capacity = room 4 (set_item store i it).items.length := by
  rw [set_item, List.length_set]
  exact h

theorem ipmb_checkpoint_append_room (h : store.capacity = room 4 store.items.length) {growth : Growth}
    {realloc_buf : Bool} {sid : UInt32} {payload : List UInt8} {rc : ipmb_status_t}
    (happend : ipmb_checkpoint_append growth realloc_buf store sid payload = .ok (rc, store')) :
    store'.capacity = room 4 store'.items.length := by
  rw [ipmb_checkpoint_append] at happend
  split at happend
  · cases happend
    exact h
  · rename_i hfound
    obtain ⟨state, -, happend⟩ := bind_eq_ok_iff.mp happend
    obtain ⟨⟨rc, state'⟩, -, hresult⟩ := bind_eq_ok_iff.mp happend
    cases hresult
    exact set_item_room (find_or_add_room h hfound) _ _

theorem ipmb_checkpoint_migrate_room (h : store.capacity = room 4 store.items.length) {growth : Growth}
    {realloc_buf : Bool} {src dst : UInt32} {rc : ipmb_status_t}
    (hmigrate : ipmb_checkpoint_migrate growth realloc_buf store src dst = .ok (rc, store')) :
    store'.capacity = room 4 store'.items.length := by
  rw [ipmb_checkpoint_migrate] at hmigrate
  split at hmigrate
  · cases hmigrate
    exact h
  · split at hmigrate
    · cases hmigrate
      exact h
    · rename_i hfound
      have hadded := find_or_add_room h hfound
      split at hmigrate
      · cases hmigrate
      · obtain ⟨_, -, hmigrate⟩ := bind_eq_ok_iff.mp hmigrate
        obtain ⟨dest_item, -, hmigrate⟩ := bind_eq_ok_iff.mp hmigrate
        dsimp only at hmigrate
        split at hmigrate
        · cases hmigrate
          exact set_item_room hadded _ _
        · obtain ⟨src_item, -, hmigrate⟩ := bind_eq_ok_iff.mp hmigrate
          obtain ⟨bytes, -, hmigrate⟩ := bind_eq_ok_iff.mp hmigrate
          obtain ⟨buf, -, hresult⟩ := bind_eq_ok_iff.mp hmigrate
          cases hresult
          exact set_item_room (set_item_room hadded _ _) _ _

end store

/-- The snapshot is counted whether or not there is memory for its entries. -/
theorem ipmb_event_log_snapshot_room {log log' : ipmb_event_log_t} (h : log.capacity = room 4 log.snapshots.length)
    {alloc : Allocator} {tracker : session_tracker.ipmb_session_tracker_t} {rc : ipmb_status_t}
    (hsnapshot : ipmb_event_log_snapshot alloc log tracker = .ok (rc, log')) :
    log'.capacity = room 4 log'.snapshots.length := by
  have hcapacity : (if log.snapshots.length = log.capacity then
      if log.capacity = 0 then 4 else log.capacity * 2 else log.capacity) = room 4 (log.snapshots.length + 1) := by
    rw [h]
    split
    · rename_i hfull
      exact doubled_eq_room (by decide) hfull
    · rename_i hroom
      exact (room_succ_of_ne (by decide) hroom).symm
  rw [ipmb_event_log_snapshot] at hsnapshot
  split at hsnapshot
  · cases hsnapshot
    exact h
  · dsimp only at hsnapshot
    split at hsnapshot
    · cases hsnapshot
      rwa [List.length_append]
    · obtain ⟨entries, -, hresult⟩ := bind_eq_ok_iff.mp hsnapshot
      cases hresult
      rwa [List.length_append]

/-- So is the rule without the memory for its code. -/
theorem ipmb_match_table_add_room {table : ipmb_match_table_t} (h : table.capacity = room 4 table.rules.length)
    (alloc : Allocator) (name : List UInt8) (priority : Int32) (code : ipmb_rule_bytecode_t) :
    (ipmb_match_table_add alloc table name priority code).2.capacity =
      room 4 (ipmb_match_table_add alloc table name priority code).2.rules.length := by
  rw [ipmb_match_table_add]
  dsimp only
  by_cases hfull : table.rules.length = table.capacity
  · by_cases hrefused : alloc 0 = false
    · rw [if_pos ⟨hfull, hrefused⟩]
      exact h
    · rw [if_neg fun hgrow => hrefused hgrow.2, if_pos hfull, List.length_append, h]
      exact doubled_eq_room (by decide) (hfull.trans h)
  · rw [if_neg fun hgrow => hfull hgrow.1, if_neg hfull, List.length_append]
    exact h.trans (room_succ_of_ne (by decide) (h ▸ hfull)).symm

/-- A storage may have doubled for a block that there was no memory for. -/
def RoomForNext (store : ipmb_storage_t) : Prop :=
  store.capacity = room 8 store.blocks.length ∨ store.capacity = room 8 (store.blocks.length + 1)

theorem RoomForNext.ipmb_storage_put {store : ipmb_storage_t} (h : RoomForNext store) (alloc : Allocator)
    (data : List UInt8) : RoomForNext (ipmb_storage_put alloc store data).2.1 := by
  rw [storage.ipmb_storage_put]
  dsimp only
  by_cases hfull : store.blocks.length = store.capacity
  · have hcapacity : store.capacity = room 8 store.blocks.length := by
      refine h.resolve_right fun hone => ?_
      have hle : store.blocks.length + 1 ≤ room 8 (store.blocks.length + 1) := le_room (by decide)
      omega
    have hnext := doubled_eq_room (by decide) (hfull.trans hcapacity)
    rw [← hcapacity] at hnext
    by_cases hrefused : alloc 0 = false
    · rw [if_pos ⟨hfull, hrefused⟩]
      exact h
    · rw [if_neg fun hgrow => hrefused hgrow.2, if_pos hfull]
      split
      · exact .inr hnext
      · exact .inl (by rwa [List.length_append])
  · have hcapacity : store.capacity = room 8 (store.blocks.length + 1) := by
      refine h.elim (fun hlength => ?_) id
      exact hlength.trans (room_succ_of_ne (by decide) (hlength ▸ hfull)).symm
    rw [if_neg fun hgrow => hfull hgrow.1, if_neg hfull]
    split
    · exact .inr hcapacity
    · exact .inl (by rwa [List.length_append])

/-- The arrays of the containers double from 4 elements on, that of the storage
from 8. -/
structure Doubled (s : container_state) : Prop where
  store : s.store.capacity = room 4 s.store.items.length
  log : s.log.capacity = room 4 s.log.snapshots.length
  table : s.table.capacity = room 4 s.table.rules.length
  storage : RoomForNext s.storage

theorem doubled_init : Doubled init := ⟨rfl, rfl, rfl, .inl rfl⟩

theorem Doubled.mutate {s s' : container_state} {m : mutation} {rc : ipmb_status_t} (h : Doubled s)
    (hrun : mutate s m = .ok (rc, s')) : Doubled s' := by
  cases m with
  | upsert alloc session_id peer_id payload =>
    obtain ⟨_, -, hresult⟩ := bind_eq_ok_iff.mp hrun
    cases hresult
    exact ⟨h.store, h.log, h.table, h.storage⟩
  | terminate session_id =>
    obtain ⟨_, -, hresult⟩ := bind_eq_ok_iff.mp hrun
    cases hresult
    exact ⟨h.store, h.log, h.table, h.storage⟩
  | append growth realloc_buf session_id payload =>
    obtain ⟨⟨rc, store⟩, happend, hresult⟩ := bind_eq_ok_iff.mp hrun
    cases hresult
    exact ⟨ipmb_checkpoint_append_room h.store happend, h.log, h.table, h.storage⟩
  | migrate growth realloc_buf src_session dst_session =>
    obtain ⟨⟨rc, store⟩, hmigrate, hresult⟩ := bind_eq_ok_iff.mp hrun
    cases hresult
    exact ⟨ipmb_checkpoint_migrate_room h.store hmigrate, h.log, h.table, h.storage⟩
  | snapshot alloc =>
    obtain ⟨⟨rc, log⟩, hsnapshot, hresult⟩ := bind_eq_ok_iff.mp hrun
    cases hresult
    exact ⟨h.store, ipmb_event_log_snapshot_room h.log hsnapshot, h.table, h.storage⟩
  | add alloc name priority code =>
    cases hrun
    exact ⟨h.store, h.log, ipmb_match_table_add_room h.table alloc name priority code, h.storage⟩
  | put alloc data =>
    cases hrun
    exact ⟨h.store, h.log, h.table, h.storage.ipmb_storage_put alloc data⟩

theorem Reachable.doubled {s : container_state} (h : Reachable s) : Doubled s := by
  obtain ⟨calls, hrun⟩ := h
  refine foldlM_invariant ?_ doubled_init hrun
  intro s m s' hs hcall
  obtain ⟨⟨rc, _⟩, hmutate, rfl⟩ := map_eq_ok_iff.mp hcall
  exact hs.mutate hmutate

/-- Elements are within an array, of which, when it is larger than the first there is,
at least half is in use. -/
def Tight (first count cap : Nat) : Prop := count ≤ cap ∧ cap ≤ max first (2 * count)

theorem tight_room {first : Nat} (hfirst : 0 < first) {count n : Nat} (hle : count ≤ n) (hslack : n ≤ count + 1) :
    Tight first count (room first n) :=
  ⟨hle.trans (le_room hfirst), (room_le hfirst).trans (by omega)⟩

/-- Whatever calls fail, the checkpoint store, the log and the table have the first
capacity with room for what they hold, and the storage that for one block more at most;
so no array has more than twice the elements in use, beyond the first capacity. -/
theorem container_capacities {s : container_state} (h : Reachable s) :
    Doubled s ∧ Tight 4 s.store.items.length s.store.capacity ∧ Tight 4 s.log.snapshots.length s.log.capacity ∧
      Tight 4 s.table.rules.length s.table.capacity ∧ Tight 8 s.storage.blocks.length s.storage.capacity := by
  have hdoubled := h.doubled
  refine ⟨hdoubled, ?_, ?_, ?_, ?_⟩
  · rw [hdoubled.store]
    exact tight_room (by decide) (Nat.le_refl _) (Nat.le_succ _)
  · rw [hdoubled.log]
    exact tight_room (by decide) (Nat.le_refl _) (Nat.le_succ _)
  · rw [hdoubled.table]
    exact tight_room (by decide) (Nat.le_refl _) (Nat.le_succ _)
  · obtain hcapacity | hcapacity := hdoubled.storage
    · rw [hcapacity]
      exact tight_room (by decide) (Nat.le_refl _) (Nat.le_succ _)
    · rw [hcapacity]
      exact tight_room (by decide) (Nat.le_succ _) (Nat.le_refl _)

/-- The first capacity is there for a block that was refused. -/
theorem container_capacities_put_refused :
    ∃ s, mutate init (.put (fun i => decide (i = 0)) [7]) = .ok (.IPMB_ERR_ALLOC, s) ∧ s.storage.capacity = 8 ∧
      Tight 8 s.storage.blocks.length s.storage.capacity :=
  ⟨_, rfl, rfl, (container_capacities ⟨[.put (fun i => decide (i = 0)) [7]], rfl⟩).2.2.2.2⟩

end ipmb.containers
