import Ipmb.Session.CheckpointStore

open fallible keyed patch

namespace ipmb.checkpoint_store

/-- The buffer of an item, where there is one, has its whole capacity and all
its used bytes. -/
def Backed (it : ipmb_checkpoint_state_t) : Prop :=
  it.buf ≠ [] → it.capacity ≤ it.buf.length ∧ it.used ≤ it.buf.length

/-- What every call keeps: one item for a session and no more items than there
is room for, with buffers behind them. -/
structure Sound (store : ipmb_checkpoint_store_t) : Prop where
  distinct : (store.items.map ipmb_checkpoint_state_t.session_id).Nodup
  count_le : store.items.length ≤ store.capacity
  backed : ∀ it ∈ store.items, Backed it

theorem sound_init : Sound ipmb_checkpoint_store_init :=
  ⟨by simp [ipmb_checkpoint_store_init], Nat.le_refl _, by simp [ipmb_checkpoint_store_init]⟩

/-- The item of a session. -/
def find (store : ipmb_checkpoint_store_t) (sid : UInt32) : Option ipmb_checkpoint_state_t :=
  lookup ipmb_checkpoint_state_t.session_id sid store.items

/-- The item of a session, an empty one if there is none. -/
def current (store : ipmb_checkpoint_store_t) (sid : UInt32) : ipmb_checkpoint_state_t :=
  (find store sid).getD (.new sid)

/-- Adding the session has to make the array grow. -/
def Full (store : ipmb_checkpoint_store_t) (sid : UInt32) : Prop :=
  find store sid = none ∧ store.items.length = store.capacity

instance (store : ipmb_checkpoint_store_t) (sid : UInt32) : Decidable (Full store sid) :=
  inferInstanceAs (Decidable (_ ∧ _))

/-- A store in which the item of one session, new or not, was replaced. -/
structure Updated (store : ipmb_checkpoint_store_t) (it : ipmb_checkpoint_state_t)
    (store' : ipmb_checkpoint_store_t) : Prop where
  distinct : (store'.items.map ipmb_checkpoint_state_t.session_id).Nodup
  count_le : store'.items.length ≤ store'.capacity
  find_eq : ∀ sid, find store' sid = if sid = it.session_id then some it else find store sid
  mem : ∀ it' ∈ store'.items, it' = it ∨ it' ∈ store.items

theorem find_none_iff {store : ipmb_checkpoint_store_t} {sid : UInt32} :
    find store sid = none ↔ ∀ it ∈ store.items, it.session_id ≠ sid := lookup_eq_none_iff

theorem find_or_add_failed {store : ipmb_checkpoint_store_t} {sid : UInt32} (hfull : Full store sid) :
    find_or_add .failed store sid = none := by
  have hindex : store.items.findIdx? (fun it => decide (it.session_id = sid)) = none := by
    rw [List.findIdx?_eq_none_iff]
    intro it hit
    simpa using find_none_iff.mp hfull.1 it hit
  simp [find_or_add, hindex, hfull.2]

/-- Replacing the item of a session updates the store. -/
theorem updated_set {store : ipmb_checkpoint_store_t} (h : Sound store) {i : Nat}
    {old it : ipmb_checkpoint_state_t} (hget : store.items[i]? = some old)
    (hkey : it.session_id = old.session_id) : Updated store it (set_item store i it) := by
  constructor
  · change ((store.items.set i it).map _).Nodup
    rw [map_key_set hget hkey]
    exact h.distinct
  · change (store.items.set i it).length ≤ store.capacity
    rw [List.length_set]
    exact h.count_le
  · intro k
    have hset := lookup_set h.distinct hget hkey k
    rw [← hkey] at hset
    exact hset
  · intro it' hmem
    exact (List.mem_or_eq_of_mem_set hmem).symm

/-- So does an item for a new session behind the others. -/
theorem updated_append {store : ipmb_checkpoint_store_t} (h : Sound store) {it : ipmb_checkpoint_state_t}
    {capacity : Nat} (hnew : ∀ a ∈ store.items, a.session_id ≠ it.session_id)
    (hroom : store.items.length < capacity) : Updated store it { items := store.items ++ [it], capacity } := by
  constructor
  · rw [List.map_append, List.map_singleton]
    refine List.nodup_append'.mpr ⟨h.distinct, List.nodup_singleton _, ?_⟩
    rw [List.disjoint_singleton]
    intro hmem
    obtain ⟨a, ha, hkey⟩ := List.mem_map.mp hmem
    exact hnew a ha hkey
  · rw [List.length_append, List.length_singleton]
    exact hroom
  · exact lookup_append_new hnew
  · intro it' hmem
    exact (List.mem_append.mp hmem).symm.imp_left List.mem_singleton.mp

/-- The item of a new session comes behind those there are. -/
theorem find_or_add_absent {store : ipmb_checkpoint_store_t} (h : Sound store) {growth : Growth} {sid : UInt32}
    (hindex : store.items.findIdx? (fun it => decide (it.session_id = sid)) = none)
    (hfind : find store sid = none) (hroom : ¬(Full store sid ∧ growth = .failed)) :
    ∃ capacity, store.items.length < capacity ∧
      find_or_add growth store sid = some (store.items.length,
        { items := store.items ++ [.new sid], capacity }, decide (Full store sid ∧ growth = .moved)) := by
  by_cases hfull : store.items.length = store.capacity
  · refine ⟨if store.capacity = 0 then 4 else store.capacity * 2, by split <;> omega, ?_⟩
    cases growth with
    | failed => exact absurd ⟨⟨hfind, hfull⟩, rfl⟩ hroom
    | inPlace => simp [find_or_add, hindex, hfull]
    | moved => simp [find_or_add, hindex, hfull, Full, hfind]
  · have hcount := h.count_le
    refine ⟨store.capacity, by omega, ?_⟩
    simp [find_or_add, hindex, hfull, Full]

/-- Where a session's item is after `find_or_add`: the other items stay, and
replacing it there updates the store. -/
theorem find_or_add_spec {store : ipmb_checkpoint_store_t} (h : Sound store) {growth : Growth} {sid : UInt32}
    (hroom : ¬(Full store sid ∧ growth = .failed)) :
    ∃ i store₁, find_or_add growth store sid = some (i, store₁, decide (Full store sid ∧ growth = .moved)) ∧
      store₁.items[i]? = some (current store sid) ∧
      (∀ (j : Nat) (it : ipmb_checkpoint_state_t), store.items[j]? = some it → store₁.items[j]? = some it) ∧
      (∀ it : ipmb_checkpoint_state_t, it.session_id = sid → Updated store it (set_item store₁ i it)) := by
  cases hindex : store.items.findIdx? (fun it => decide (it.session_id = sid)) with
  | some i =>
    obtain ⟨hi, hkey, _⟩ := List.findIdx?_eq_some_iff_getElem.mp hindex
    have hget : store.items[i]? = some store.items[i] := List.getElem?_eq_getElem hi
    have hkey : store.items[i].session_id = sid := of_decide_eq_true hkey
    have hfind : find store sid = some store.items[i] := by
      rw [← hkey]
      exact lookup_of_mem h.distinct (List.getElem_mem hi)
    have hstays : ¬Full store sid := by
      rintro ⟨hnone, _⟩
      rw [hfind] at hnone
      cases hnone
    refine ⟨i, store, ?_, ?_, fun j it hj => hj, ?_⟩
    · simp [find_or_add, hindex, hstays]
    · rw [current, hfind, hget]
      rfl
    · intro it hit
      exact updated_set h hget (hit.trans hkey.symm)
  | none =>
    have hnew : ∀ it ∈ store.items, it.session_id ≠ sid := by
      intro it hit
      simpa using List.findIdx?_eq_none_iff.mp hindex it hit
    have hfind : find store sid = none := find_none_iff.mpr hnew
    obtain ⟨capacity, hroom, hrun⟩ := find_or_add_absent h hindex hfind hroom
    refine ⟨_, _, hrun, ?_, ?_, ?_⟩
    · rw [current, hfind]
      simp
    · intro j it hj
      have hlt : j < store.items.length := by
        by_contra hlong
        rw [List.getElem?_eq_none (by omega)] at hj
        cases hj
      rw [List.getElem?_append_left hlt, hj]
    · intro it hit
      have hset : set_item { items := store.items ++ [.new sid], capacity } store.items.length it =
          { items := store.items ++ [it], capacity } := by
        simp [set_item]
      rw [hset]
      exact updated_append h (by rw [hit]; exact hnew) hroom

theorem current_session_id (store : ipmb_checkpoint_store_t) (sid : UInt32) :
    (current store sid).session_id = sid := by
  rw [current]
  cases hfind : find store sid with
  | none => rfl
  | some it => exact key_of_lookup hfind

/-- What all items and empty ones have in common, the item of a session has. -/
theorem current_induction {store : ipmb_checkpoint_store_t} {P : ipmb_checkpoint_state_t → Prop}
    (hnew : ∀ sid, P (.new sid)) (hitems : ∀ it ∈ store.items, P it) (sid : UInt32) : P (current store sid) := by
  rw [current]
  cases hfind : find store sid with
  | none => exact hnew sid
  | some it => exact hitems it (mem_of_lookup hfind)

/-- The search through all items ends at the item of the session. -/
theorem last_index_of_find {store : ipmb_checkpoint_store_t} (h : Sound store) {sid : UInt32}
    {it : ipmb_checkpoint_state_t} (hfind : find store sid = some it) :
    ∃ j, last_index ipmb_checkpoint_state_t.session_id sid store.items = some j ∧ store.items[j]? = some it := by
  obtain ⟨hlast, hnone⟩ := last_index_spec ipmb_checkpoint_state_t.session_id sid store.items
  cases hindex : last_index ipmb_checkpoint_state_t.session_id sid store.items with
  | none =>
    have habsent := find_none_iff.mpr (hnone.mp hindex)
    rw [hfind] at habsent
    cases habsent
  | some j =>
    obtain ⟨it', hit', hkey⟩ := hlast j hindex
    have hmem := lookup_of_mem h.distinct (List.mem_of_getElem? hit')
    rw [hkey] at hmem
    obtain rfl : it' = it := Option.some.inj (hmem.symm.trans hfind)
    exact ⟨j, rfl, hit'⟩

theorem Updated.sound {store store' : ipmb_checkpoint_store_t} {it : ipmb_checkpoint_state_t} (h : Sound store)
    (hit : Backed it) (hupdated : Updated store it store') : Sound store' := by
  refine ⟨hupdated.distinct, hupdated.count_le, ?_⟩
  intro it' hmem
  obtain rfl | hmem := hupdated.mem it' hmem
  · exact hit
  · exact h.backed it' hmem

end ipmb.checkpoint_store
