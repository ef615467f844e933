import Ipmb.Session.CheckpointMemory
import Ipmb.Support.Accumulate
import Mathlib.Algebra.Group.Nat.Defs
import Mathlib.Data.List.Forall2
import Mathlib.Data.List.Perm.Subperm

open accumulate fallible logged patch

namespace ipmb.checkpoint_memory

/-- The growth loops that were run ended with enough. -/
def Ended (log : List Growth) : Prop := ∀ g ∈ log, g.need ≤ g.cap

/-- An item holds the bytes of a session, in a buffer of its whole capacity. -/
structure Represents (it : ipmb_checkpoint_state_t) (e : UInt32 × List UInt8) : Prop where
  session_id : it.session_id = e.1
  used : it.used.toNat = e.2.length
  capacity : it.capacity.toNat = it.buf.length
  bytes : it.buf.take e.2.length = e.2.map some

/-- A store holds entries: the items in use are theirs, and the slots behind
them are zeroed. -/
structure Holds (store : ipmb_checkpoint_store_t) (entries : List (UInt32 × List UInt8)) : Prop where
  slots : ∃ its free, store.items = its.map some ++ List.replicate free (some .zero) ∧
    List.Forall₂ Represents its entries
  count : store.count.toNat = entries.length
  capacity : store.capacity.toNat = store.items.length
  distinct : (entries.map Prod.fst).Nodup

theorem holds_init : Holds ipmb_checkpoint_store_init [] where
  slots := ⟨[], 0, rfl, .nil⟩
  count := rfl
  capacity := rfl
  distinct := List.nodup_nil

theorem represents_zero (sid : UInt32) : Represents { ipmb_checkpoint_state_t.zero with session_id := sid } (sid, []) :=
  ⟨rfl, rfl, rfl, rfl⟩

theorem Represents.length_le {it : ipmb_checkpoint_state_t} {e : UInt32 × List UInt8} (h : Represents it e) :
    e.2.length ≤ it.buf.length := by
  have hlength := congrArg List.length h.bytes
  rw [List.length_take, List.length_map] at hlength
  omega

/-- There are no more sessions than session numbers. -/
theorem Holds.length_le {store : ipmb_checkpoint_store_t} {entries : List (UInt32 × List UInt8)}
    (h : Holds store entries) : entries.length ≤ 2 ^ 32 := by
  have hnodup : ((entries.map Prod.fst).map UInt32.toNat).Nodup :=
    h.distinct.map fun _ _ => UInt32.toNat_inj.mp
  have hsubset : (entries.map Prod.fst).map UInt32.toNat ⊆ List.range (2 ^ 32) := by
    intro n hn
    obtain ⟨sid, -, rfl⟩ := List.mem_map.mp hn
    exact List.mem_range.mpr sid.toNat_lt
  have hle := (List.subperm_of_subset hnodup hsubset).length_le
  rwa [List.length_range, List.length_map, List.length_map] at hle

section blocks

@[simp] theorem length_realloc_block {α : Type} (block : List (Option α)) (n : Nat) :
    (realloc_block block n).length = n := by
  simp [realloc_block]

theorem take_realloc_block {α : Type} {block : List (Option α)} {k n : Nat} (hblock : k ≤ block.length)
    (hn : k ≤ n) : (realloc_block block n).take k = block.take k := by
  rw [realloc_block, List.take_take, Nat.min_eq_left hn, List.take_append_of_le_length hblock]

theorem realloc_block_of_le {α : Type} {block : List (Option α)} {n : Nat} (h : block.length ≤ n) :
    realloc_block block n = block ++ List.replicate (n - block.length) none := by
  rw [realloc_block, List.take_append, List.take_of_length_le h, List.take_replicate,
    Nat.min_eq_left (Nat.sub_le _ _)]

/-- Zeroing what is new. -/
theorem memset_items_spec {items : List (Option ipmb_checkpoint_state_t)} {start size : UInt64} {n : Nat}
    (hstart : start.toNat = items.length) (hsize : (size / sizeof_state).toNat = n) :
    memset_items (items ++ List.replicate n none) start size =
      .ok (items ++ List.replicate n (some .zero)) := by
  have hlength : start.toNat + n = (items ++ List.replicate n none).length := by
    rw [List.length_append, List.length_replicate, hstart]
  have hzeroes : start.toNat + (List.replicate n (some ipmb_checkpoint_state_t.zero)).length =
      (items ++ List.replicate n none).length := by
    rw [List.length_replicate, hlength]
  have hoverlay := take_overlay (Nat.le_of_eq hzeroes)
  rw [hzeroes, List.take_of_length_le (Nat.le_of_eq (length_overlay _ _ _)), List.take_left' hstart.symm] at hoverlay
  simp only [memset_items, hsize]
  rw [if_pos (Nat.le_of_eq hlength), hoverlay]

/-- The sizes of a growth of the array, which do not wrap around. -/
theorem next_cap_sizes {capacity next_cap : UInt64} (hcapacity : capacity.toNat ≤ 2 ^ 32)
    (hnext : next_cap = if capacity ≠ 0 then capacity * 2 else 4) :
    next_cap.toNat = (if capacity.toNat = 0 then 4 else capacity.toNat * 2) ∧
      (next_cap * sizeof_state / sizeof_state).toNat = next_cap.toNat ∧
      ((next_cap - capacity) * sizeof_state / sizeof_state).toNat = next_cap.toNat - capacity.toNat := by
  have hsize : sizeof_state.toNat = 32 := rfl
  have hvalue : next_cap.toNat = if capacity.toNat = 0 then 4 else capacity.toNat * 2 := by
    by_cases hzero : capacity = 0
    · subst hzero
      rw [if_neg (fun h => h rfl)] at hnext
      rw [hnext]
      rfl
    · have hpos : capacity.toNat ≠ 0 := fun h => hzero (UInt64.toNat_inj.mp h)
      rw [if_pos hzero] at hnext
      rw [hnext, if_neg hpos, UInt64.toNat_mul]
      simp only [UInt64.reduceToNat]
      omega
  have hbounds : capacity.toNat < next_cap.toNat ∧ next_cap.toNat ≤ 2 ^ 33 := by
    rw [hvalue]
    split <;> omega
  have hgrown : (next_cap - capacity).toNat = next_cap.toNat - capacity.toNat :=
    UInt64.toNat_sub_of_le _ _ (UInt64.le_iff_toNat_le.mpr (Nat.le_of_lt hbounds.1))
  refine ⟨hvalue, ?_, ?_⟩
  · rw [UInt64.toNat_div, UInt64.toNat_mul, hsize]
    omega
  · rw [UInt64.toNat_div, UInt64.toNat_mul, hsize, hgrown]
    omega

/-- The loop ends, and does not before there is enough. -/
theorem grow_loop_spec {need cap : UInt64} {rounds : Nat} (hneed : need.toNat < 2 ^ 62)
    (hrounds : need.toNat ≤ cap.toNat + rounds) :
    ∃ cap', grow_loop need rounds cap = .ok cap' ∧ need ≤ cap' := by
  induction rounds generalizing cap with
  | zero =>
    have henough : ¬cap < need := by
      rw [UInt64.lt_iff_toNat_lt]
      omega
    exact ⟨cap, if_neg henough, UInt64.not_lt.mp henough⟩
  | succ rounds ih =>
    rw [grow_loop]
    by_cases hshort : cap < need
    · rw [if_pos hshort]
      have hlt := UInt64.lt_iff_toNat_lt.mp hshort
      have hgrown : (cap + cap / 2 + 1).toNat = cap.toNat + cap.toNat / 2 + 1 := by
        simp only [UInt64.toNat_add, UInt64.toNat_div, UInt64.reduceToNat]
        omega
      exact ih (by omega)
    · exact ⟨cap, if_neg hshort, UInt64.not_lt.mp hshort⟩

/-- The used bytes with those of a payload, short of a wrap around. -/
theorem toNat_add_length {used : UInt64} {payload : List UInt8} (h : used.toNat + payload.length < 2 ^ 62) :
    (used + UInt64.ofNat payload.length).toNat = used.toNat + payload.length := by
  have hlen : (UInt64.ofNat payload.length).toNat = payload.length :=
    UInt64.toNat_ofNat_of_lt' (by simp only [UInt64.size]; omega)
  rw [UInt64.toNat_add, hlen]
  omega

theorem copy_payload_spec {buf : List (Option UInt8)} {used : UInt64} {payload : List UInt8}
    (h : used.toNat + payload.length ≤ buf.length) :
    ∃ buf', copy_payload buf used payload = .ok buf' ∧ buf'.length = buf.length ∧
      buf'.take (used.toNat + payload.length) = buf.take used.toNat ++ payload.map some := by
  by_cases hnone : payload = []
  · subst hnone
    exact ⟨buf, if_pos rfl, rfl, (List.append_nil _).symm⟩
  · have hpos := List.length_pos_of_ne_nil hnone
    have hnull : buf ≠ [] := List.ne_nil_of_length_pos (by omega)
    refine ⟨overlay buf used.toNat (payload.map some), ?_, length_overlay _ _ _, ?_⟩
    · rw [copy_payload, if_neg hnone, if_neg hnull, if_pos h]
    · have hroom : used.toNat + (payload.map some).length ≤ buf.length := by
        rw [List.length_map]
        exact h
      have htake := take_overlay hroom
      rwa [List.length_map] at htake

end blocks

theorem Ended.cons {log : List Growth} (h : Ended log) {g : Growth} (hg : g.need ≤ g.cap) : Ended (g :: log) := by
  intro g' hg'
  obtain rfl | hg' := List.mem_cons.mp hg'
  · exact hg
  · exact h g' hg'

theorem ensures_silent {A : Type} {x : Except Fault A} {log : List Growth} {Q : A → List Growth → Prop} {a : A}
    (hx : x = .ok a) (h : Q a log) : Ensures (silent x) log Q :=
  Ensures.noting hx h

section item
variable {it : ipmb_checkpoint_state_t} {sid : UInt32} {as : List UInt8} {log : List Growth}

/-- The item keeps its bytes when its buffer grows. -/
theorem make_room_spec (h : Represents it (sid, as)) {need : UInt64} (hfits : as.length ≤ need.toNat)
    (hneed : need.toNat < 2 ^ 62) (hlog : Ended log) :
    Ensures (make_room true it need) log fun r log' =>
      ∃ it', r = some it' ∧ Represents it' (sid, as) ∧ need.toNat ≤ it'.buf.length ∧ Ended log' := by
  have hused := h.length_le
  rw [make_room]
  apply Ensures.ite
  · intro hgrow
    obtain ⟨cap, hcap, hle⟩ : ∃ cap, grow_loop need need.toNat (if it.capacity ≠ 0 then it.capacity else 16) =
        .ok cap ∧ need ≤ cap := grow_loop_spec hneed (by omega)
    have hroom := UInt64.le_iff_toNat_le.mp hle
    apply Ensures.bind (Ensures.noting hcap (Q := fun a log' => a = cap ∧ Ended log') ⟨rfl, hlog.cons hle⟩)
    rintro _ log ⟨rfl, hlog⟩
    refine Ensures.pure ⟨_, rfl, ⟨h.session_id, h.used, ?_, ?_⟩, ?_, hlog⟩
    · rw [length_realloc_block]
    · rw [take_realloc_block hused (by simp only; omega)]
      exact h.bytes
    · rw [length_realloc_block]
      exact hroom
  · intro hstays
    have hle := UInt64.le_iff_toNat_le.mp (UInt64.not_lt.mp hstays)
    rw [h.capacity] at hle
    exact Ensures.pure ⟨it, rfl, h, hle, hlog⟩

/-- An append to an item puts the payload behind its bytes. -/
theorem append_state_spec (h : Represents it (sid, as)) {payload : List UInt8}
    (hsize : as.length + payload.length < 2 ^ 62) (hlog : Ended log) :
    Ensures (append_state true it payload) log fun r log' =>
      r.1 = .IPMB_OK ∧ Represents r.2 (sid, as ++ payload) ∧ Ended log' := by
  have hused : it.used.toNat = as.length := h.used
  have hneed : (it.used + UInt64.ofNat payload.length).toNat = it.used.toNat + payload.length :=
    toNat_add_length (by omega)
  apply Ensures.bind (make_room_spec h (by omega) (by omega) hlog)
  rintro _ log ⟨it', rfl, h', hroom, hlog⟩
  have hused' : it'.used.toNat = as.length := h'.used
  have hneed' : (it'.used + UInt64.ofNat payload.length).toNat = it'.used.toNat + payload.length :=
    toNat_add_length (by omega)
  obtain ⟨buf, hcopy, hlength, htake⟩ : ∃ buf, copy_payload it'.buf it'.used payload = .ok buf ∧
      buf.length = it'.buf.length ∧
      buf.take (it'.used.toNat + payload.length) = it'.buf.take it'.used.toNat ++ payload.map some :=
    copy_payload_spec (by omega)
  apply Ensures.bind (ensures_silent hcopy (Q := fun a log' => a = buf ∧ Ended log') ⟨rfl, hlog⟩)
  rintro _ log ⟨rfl, hlog⟩
  refine Ensures.pure ⟨rfl, ⟨h'.session_id, ?_, ?_, ?_⟩, hlog⟩
  · rw [hneed', hused', List.length_append]
  · rw [hlength]
    exact h'.capacity
  · have hbytes : it'.buf.take as.length = as.map some := h'.bytes
    rw [hused', hbytes] at htake
    rw [List.length_append, List.map_append]
    exact htake

end item

section store
variable {store : ipmb_checkpoint_store_t} {sid : UInt32}

theorem item_at_of_drop {i : Nat} {it : ipmb_checkpoint_state_t} {rest : List (Option ipmb_checkpoint_state_t)}
    (h : store.items.drop i = some it :: rest) : item_at store i = .ok it := by
  have hget : store.items[i]? = some (some it) := by
    rw [← List.head?_drop, h, List.head?_cons]
  rw [item_at, hget]

/-- The loop goes over items of other sessions. -/
theorem find_loop_others {its : List ipmb_checkpoint_state_t} {rest : List (Option ipmb_checkpoint_state_t)}
    {i : Nat} (hdrop : store.items.drop i = its.map some ++ rest) (hits : ∀ it ∈ its, it.session_id ≠ sid)
    (left : Nat) :
    find_loop store sid (its.length + left) i = find_loop store sid left (i + its.length) := by
  induction its generalizing i with
  | nil => rw [List.length_nil, Nat.zero_add, Nat.add_zero]
  | cons it its ih =>
    have hread := item_at_of_drop hdrop
    have hnext : store.items.drop (i + 1) = its.map some ++ rest := by
      rw [← List.drop_drop, hdrop]
      rfl
    have hother : it.session_id ≠ sid := hits it List.mem_cons_self
    have hleft : (it :: its).length + left = its.length + left + 1 := by
      rw [List.length_cons]
      omega
    rw [hleft, find_loop, hread, ok_bind, if_neg hother, ih hnext fun it h => hits it (List.mem_cons_of_mem _ h),
      List.length_cons]
    congr 1
    omega

theorem find_loop_found {its : List ipmb_checkpoint_state_t} {it : ipmb_checkpoint_state_t}
    {rest : List (Option ipmb_checkpoint_state_t)} (hitems : store.items = its.map some ++ some it :: rest)
    (hits : ∀ it ∈ its, it.session_id ≠ sid) (hit : it.session_id = sid) (left : Nat) :
    find_loop store sid (its.length + (left + 1)) 0 = .ok (some its.length) := by
  have hread : item_at store its.length = .ok it := by
    apply item_at_of_drop
    rw [hitems, List.drop_left' (List.length_map some)]
  rw [find_loop_others (i := 0) hitems hits, Nat.zero_add, find_loop, hread, ok_bind, if_pos hit]
  rfl

theorem find_loop_absent {its : List ipmb_checkpoint_state_t} {rest : List (Option ipmb_checkpoint_state_t)}
    (hitems : store.items = its.map some ++ rest) (hits : ∀ it ∈ its, it.session_id ≠ sid) :
    find_loop store sid its.length 0 = .ok none := by
  have hloop := find_loop_others (i := 0) hitems hits 0
  rwa [Nat.add_zero, Nat.zero_add] at hloop

/-- The capacity of the array after room was made for one more item. -/
def next_capacity (count capacity : Nat) : Nat :=
  if count = capacity then if capacity = 0 then 4 else capacity * 2 else capacity

/-- The growth of the array keeps its items and zeroes the slots it adds. -/
theorem reserve_spec {its : List ipmb_checkpoint_state_t} {free : Nat}
    (hitems : store.items = its.map some ++ List.replicate free (some .zero))
    (hcount : store.count.toNat = its.length) (hcapacity : store.capacity.toNat = store.items.length)
    (hsessions : its.length ≤ 2 ^ 32) :
    ∃ store₁ free₁, reserve true store = .ok (some store₁) ∧
      store₁.items = its.map some ++ some .zero :: List.replicate free₁ (some .zero) ∧
      store₁.count = store.count ∧ store₁.capacity.toNat = store₁.items.length ∧
      store₁.capacity.toNat = next_capacity its.length store.capacity.toNat := by
  have hlength : store.items.length = its.length + free := by
    rw [hitems, List.length_append, List.length_map, List.length_replicate]
  by_cases hfull : store.count = store.capacity
  · -- the array has no slot left
    have hsame := congrArg UInt64.toNat hfull
    obtain rfl : free = 0 := by omega
    rw [List.replicate_zero, List.append_nil] at hitems
    obtain ⟨next_cap, hnext⟩ : ∃ next_cap, next_cap = if store.capacity ≠ 0 then store.capacity * 2 else 4 :=
      ⟨_, rfl⟩
    obtain ⟨hvalue, hsize, hadded⟩ := next_cap_sizes (by omega) hnext
    obtain ⟨added, hfree⟩ : ∃ added, next_cap.toNat - store.capacity.toNat = added + 1 := by
      apply Nat.exists_eq_add_one.mpr
      split at hvalue <;> omega
    have hgrown : realloc_block store.items next_cap.toNat =
        store.items ++ List.replicate (next_cap.toNat - store.capacity.toNat) none := by
      rw [hcapacity, realloc_block_of_le (by omega)]
    have hslots : store.items ++ List.replicate (next_cap.toNat - store.capacity.toNat) (some .zero) =
        its.map some ++ some .zero :: List.replicate added (some .zero) := by
      rw [hitems, hfree, List.replicate_succ]
    refine ⟨{ store with
      items := its.map some ++ some .zero :: List.replicate added (some .zero)
      capacity := next_cap }, added, ?_, rfl, rfl, ?_, ?_⟩
    · rw [reserve, if_pos hfull]
      simp only [← hnext, if_true]
      rw [hsize, hgrown, memset_items_spec hcapacity hadded, hslots]
      rfl
    · have hlength₁ : next_cap.toNat = (store.items ++
          List.replicate (next_cap.toNat - store.capacity.toNat) (some ipmb_checkpoint_state_t.zero)).length := by
        rw [List.length_append, List.length_replicate]
        omega
      rw [hslots] at hlength₁
      exact hlength₁
    · rw [next_capacity, if_pos (by omega)]
      exact hvalue
  · have hroom : store.count.toNat ≠ store.capacity.toNat := fun h => hfull (UInt64.toNat_inj.mp h)
    obtain ⟨free₁, rfl⟩ : ∃ free₁, free = free₁ + 1 := Nat.exists_eq_add_one.mpr (by omega)
    refine ⟨store, free₁, if_neg hfull, ?_, rfl, hcapacity, ?_⟩
    · rw [hitems, List.replicate_succ]
    · rw [next_capacity, if_neg (by omega)]

/-- Where the item of a session is: among those in use, or added behind them. -/
inductive Place (store : ipmb_checkpoint_store_t) (sid : UInt32) :
    Nat → ipmb_checkpoint_state_t → ipmb_checkpoint_store_t → Prop where
  | there {fronts backs : List ipmb_checkpoint_state_t} {it : ipmb_checkpoint_state_t}
      {rest : List (Option ipmb_checkpoint_state_t)}
      (hitems : store.items = (fronts ++ it :: backs).map some ++ rest)
      (hcount : store.count.toNat = (fronts ++ it :: backs).length)
      (hfronts : ∀ it ∈ fronts, it.session_id ≠ sid) (hit : it.session_id = sid) :
      Place store sid fronts.length it store
  | added {its : List ipmb_checkpoint_state_t} {rest rest₁ : List (Option ipmb_checkpoint_state_t)}
      {store₁ : ipmb_checkpoint_store_t} (hitems : store.items = its.map some ++ rest)
      (hcount : store.count.toNat = its.length) (hits : ∀ it ∈ its, it.session_id ≠ sid)
      (hitems₁ : store₁.items =
        its.map some ++ some { ipmb_checkpoint_state_t.zero with session_id := sid } :: rest₁)
      (hcount₁ : store₁.count.toNat = its.length + 1)
      (hcapacity₁ : store₁.capacity.toNat = next_capacity its.length store.capacity.toNat) :
      Place store sid its.length { ipmb_checkpoint_state_t.zero with session_id := sid } store₁

/-- Where the item of a session is, with what it holds, and that the store holds
more for the session once that item does. -/
structure Located (store : ipmb_checkpoint_store_t) (entries : List (UInt32 × List UInt8)) (sid : UInt32)
    (i : Nat) (store₁ : ipmb_checkpoint_store_t) (it : ipmb_checkpoint_state_t) (as : List UInt8) : Prop where
  found : find_or_add true store sid = .ok (some (i, store₁))
  place : Place store sid i it store₁
  item : item_at store₁ i = .ok it
  represents : Represents it (sid, as)
  length_le : as.length ≤ size entries
  holds : ∀ it' more, Represents it' (sid, as ++ more) →
    Holds { store₁ with items := store₁.items.set i (some it') } (upsert sid more entries)

/-- The item that belongs to an entry. -/
theorem split_items {its : List ipmb_checkpoint_state_t} {front back : List (UInt32 × List UInt8)}
    {e : UInt32 × List UInt8} (h : List.Forall₂ Represents its (front ++ e :: back)) :
    ∃ fronts it backs, its = fronts ++ it :: backs ∧ List.Forall₂ Represents fronts front ∧
      Represents it e ∧ List.Forall₂ Represents backs back := by
  have hrest := List.forall₂_drop_append its front (e :: back) h
  obtain ⟨it, backs, hit, hbacks, hdrop⟩ := List.forall₂_cons_right_iff.mp hrest
  refine ⟨its.take front.length, it, backs, ?_, List.forall₂_take_append its front (e :: back) h, hit, hbacks⟩
  rw [← hdrop, List.take_append_drop]

theorem session_id_ne {its : List ipmb_checkpoint_state_t} {entries : List (UInt32 × List UInt8)}
    (h : List.Forall₂ Represents its entries) (hentries : ∀ e ∈ entries, e.1 ≠ sid) :
    ∀ it ∈ its, it.session_id ≠ sid := by
  induction h with
  | nil => exact fun it hit => absurd hit List.not_mem_nil
  | cons hit hits ih =>
    intro it' hit'
    obtain rfl | hit' := List.mem_cons.mp hit'
    · rw [hit.session_id]
      exact hentries _ List.mem_cons_self
    · exact ih (fun e he => hentries e (List.mem_cons_of_mem _ he)) it' hit'

/-- Storing to the slot behind some items. -/
theorem set_slot {A B : Type} (f : A → B) (as : List A) (b b' : B) (rest : List B) :
    (as.map f ++ b :: rest).set as.length b' = as.map f ++ b' :: rest := by
  have hlength : (as.map f).length ≤ as.length := Nat.le_of_eq (List.length_map f)
  rw [List.set_append_right _ _ hlength, List.length_map, Nat.sub_self, List.set_cons_zero]

theorem find_or_add_found {front back : List (UInt32 × List UInt8)} {as : List UInt8}
    (h : Holds store (front ++ (sid, as) :: back)) (hfront : ∀ e ∈ front, e.1 ≠ sid) :
    ∃ i store₁ it, Located store (front ++ (sid, as) :: back) sid i store₁ it as := by
  obtain ⟨its, free, hitems, hits⟩ := h.slots
  obtain ⟨fronts, it, backs, rfl, hfronts, hit, hbacks⟩ := split_items hits
  have hothers := session_id_ne hfronts hfront
  have hcount : store.count.toNat = (fronts ++ it :: backs).length := by
    rw [h.count, hits.length_eq]
  have hlength : store.count.toNat = fronts.length + (backs.length + 1) := by
    rw [hcount, List.length_append, List.length_cons]
  have hslots : store.items = fronts.map some ++ some it :: (backs.map some ++ List.replicate free (some .zero)) := by
    rw [hitems, List.map_append, List.map_cons, List.append_assoc, List.cons_append]
  have hloop := find_loop_found hslots hothers hit.session_id backs.length
  have hset : ∀ it' : ipmb_checkpoint_state_t, store.items.set fronts.length (some it') =
      (fronts ++ it' :: backs).map some ++ List.replicate free (some .zero) := by
    intro it'
    rw [hslots, set_slot, List.map_append, List.map_cons, List.append_assoc, List.cons_append]
  refine ⟨fronts.length, store, it, ?_, .there hitems hcount hothers hit.session_id, ?_, hit, ?_, ?_⟩
  · rw [find_or_add, hlength, hloop]
    rfl
  · apply item_at_of_drop
    rw [hslots, List.drop_left' (List.length_map some)]
  · have hmem : (sid, as) ∈ front ++ (sid, as) :: back := List.mem_append_right front List.mem_cons_self
    exact length_le_size hmem
  · intro it' more hit'
    refine ⟨⟨fronts ++ it' :: backs, free, hset it', ?_⟩, ?_, ?_, nodup_upsert h.distinct more⟩
    · rw [upsert_found hfront]
      exact List.rel_append hfronts (.cons hit' hbacks)
    · rw [upsert_found hfront, h.count]
      simp
    · rw [List.length_set]
      exact h.capacity

theorem find_or_add_new {entries : List (UInt32 × List UInt8)} (h : Holds store entries)
    (hnew : ∀ e ∈ entries, e.1 ≠ sid) : ∃ i store₁ it, Located store entries sid i store₁ it [] := by
  obtain ⟨its, free, hitems, hits⟩ := h.slots
  have hothers := session_id_ne hits hnew
  have hcount : store.count.toNat = its.length := by
    rw [h.count, hits.length_eq]
  have hsessions : its.length ≤ 2 ^ 32 := by
    rw [hits.length_eq]
    exact h.length_le
  have hloop : find_loop store sid store.count.toNat 0 = .ok none := by
    rw [hcount]
    exact find_loop_absent hitems hothers
  obtain ⟨store₁, free₁, hreserve, hitems₁, hcount₁, hlength₁, hcapacity₁⟩ :=
    reserve_spec hitems hcount h.capacity hsessions
  have hindex : store₁.count.toNat = its.length := by
    rw [hcount₁, hcount]
  have hzero : item_at store₁ store₁.count.toNat = .ok .zero := by
    apply item_at_of_drop
    rw [hitems₁, hindex, List.drop_left' (List.length_map some)]
  let store₂ : ipmb_checkpoint_store_t :=
    { items := its.map some ++ some { ipmb_checkpoint_state_t.zero with session_id := sid } ::
        List.replicate free₁ (some .zero)
      count := store₁.count + 1
      capacity := store₁.capacity }
  have hsession : set_session store₁ sid = .ok { store₁ with items := store₂.items } := by
    rw [set_session, hzero, ok_bind, hindex, hitems₁, set_slot]
    rfl
  have hcount₂ : store₂.count.toNat = its.length + 1 := by
    rw [UInt64.toNat_add, hindex]
    simp only [UInt64.reduceToNat]
    omega
  refine ⟨its.length, store₂, _, ⟨?_, .added hitems hcount hothers rfl hcount₂ hcapacity₁, ?_,
    represents_zero sid, Nat.zero_le _, ?_⟩⟩
  · rw [find_or_add, hloop, ok_bind]
    simp only [hreserve, ok_bind, hsession]
    rw [hindex]
    rfl
  · apply item_at_of_drop
    rw [List.drop_left' (List.length_map some)]
  · intro it' more hit'
    rw [upsert_new hnew]
    refine ⟨⟨its ++ [it'], free₁, ?_, ?_⟩, ?_, ?_, ?_⟩
    · rw [set_slot, List.map_append, List.map_singleton, List.append_assoc, List.singleton_append]
    · exact List.rel_append hits (.cons hit' .nil)
    · rw [hcount₂, List.length_append, List.length_singleton, hits.length_eq]
    · have hlength₂ : store₂.items.length = store₁.items.length := by
        rw [hitems₁]
        simp [store₂]
      rw [List.length_set, hlength₂]
      exact hlength₁
    · have hdistinct := nodup_upsert h.distinct more (k := sid)
      rwa [upsert_new hnew] at hdistinct

theorem find_or_add_spec {entries : List (UInt32 × List UInt8)} (h : Holds store entries) (sid : UInt32) :
    ∃ i store₁ it as, Located store entries sid i store₁ it as := by
  obtain ⟨front, as, back, rfl, hfront⟩ | hnew := found_or_new sid entries
  · obtain ⟨i, store₁, it, hlocated⟩ := find_or_add_found h hfront
    exact ⟨i, store₁, it, as, hlocated⟩
  · obtain ⟨i, store₁, it, hlocated⟩ := find_or_add_new h hnew
    exact ⟨i, store₁, it, [], hlocated⟩

/-- An append puts the payload behind what the store holds for the session. -/
theorem ipmb_checkpoint_append_spec {entries : List (UInt32 × List UInt8)} (h : Holds store entries)
    (sid : UInt32) {payload : List UInt8} (hsize : size entries + payload.length < 2 ^ 62) {log : List Growth}
    (hlog : Ended log) :
    Ensures (ipmb_checkpoint_append true true store sid payload) log fun r log' =>
      r.1 = .IPMB_OK ∧ Holds r.2 (upsert sid payload entries) ∧ Ended log' := by
  obtain ⟨i, store₁, it, as, hlocated⟩ := find_or_add_spec h sid
  have hlength := hlocated.length_le
  apply Ensures.bind (ensures_silent hlocated.found (Q := fun a log' => a = some (i, store₁) ∧ Ended log')
    ⟨rfl, hlog⟩)
  rintro _ log ⟨rfl, hlog⟩
  apply Ensures.bind (ensures_silent hlocated.item (Q := fun a log' => a = it ∧ Ended log') ⟨rfl, hlog⟩)
  rintro _ log ⟨rfl, hlog⟩
  apply Ensures.bind (append_state_spec hlocated.represents (by omega) hlog)
  rintro ⟨rc, it'⟩ log ⟨hrc, hit', hlog⟩
  exact Ensures.pure ⟨hrc, hlocated.holds it' payload hit', hlog⟩

end store

/-- So do appends one after the other. -/
theorem append_all_spec {store : ipmb_checkpoint_store_t} {entries : List (UInt32 × List UInt8)}
    (h : Holds store entries) {calls : List (UInt32 × List UInt8)} (hsize : size entries + size calls < 2 ^ 62)
    {log : List Growth} (hlog : Ended log) :
    Ensures (append_all calls store) log fun r log' =>
      r.1 = List.replicate calls.length .IPMB_OK ∧
        Holds r.2 (calls.foldl (fun entries c => upsert c.1 c.2 entries) entries) ∧ Ended log' := by
  induction calls generalizing store entries log with
  | nil => exact Ensures.pure ⟨rfl, h, hlog⟩
  | cons c calls ih =>
    obtain ⟨sid, payload⟩ := c
    have hsizes : size ((sid, payload) :: calls) = payload.length + size calls := by
      rw [size, List.flatMap_cons, List.length_append, size]
    apply Ensures.bind (ipmb_checkpoint_append_spec h sid (by omega) hlog)
    rintro ⟨rc, store₁⟩ log ⟨hrc, h₁, hlog⟩
    apply Ensures.bind (ih h₁ (by rw [size_upsert]; omega) hlog)
    rintro ⟨rcs, store₂⟩ log ⟨hrcs, h₂, hlog⟩
    refine Ensures.pure ⟨?_, h₂, hlog⟩
    rw [List.length_cons, List.replicate_succ]
    exact congrArg₂ List.cons hrc hrcs

theorem map_held {its : List ipmb_checkpoint_state_t} {entries : List (UInt32 × List UInt8)}
    (h : List.Forall₂ Represents its entries) :
    (its.map fun it => some (it.session_id, it.buf.take it.used.toNat)) =
      entries.map fun e => some (e.1, e.2.map some) := by
  induction h with
  | nil => rfl
  | cons hit hits ih => rw [List.map_cons, List.map_cons, ih, hit.session_id, hit.used, hit.bytes]

theorem Holds.held {store : ipmb_checkpoint_store_t} {entries : List (UInt32 × List UInt8)}
    (h : Holds store entries) : held store = entries.map fun e => some (e.1, e.2.map some) := by
  obtain ⟨its, free, hitems, hits⟩ := h.slots
  have hused : store.items.take store.count.toNat = its.map some := by
    rw [h.count, hitems, ← hits.length_eq, List.take_left' (List.length_map some)]
  rw [← map_held hits, checkpoint_memory.held, hused, List.map_map]
  rfl

/-- Appends to an empty store, 2^62 bytes in all not being reached, leave one
item for each session in the order of its first call, with the payloads of the
session one behind the other; and no growth loop ends before there is enough. -/
theorem ipmb_checkpoint_append_accumulates (calls : List (UInt32 × List UInt8))
    (htotal : (calls.flatMap Prod.snd).length < 2 ^ 62) :
    ∃ rcs store log, (append_all calls ipmb_checkpoint_store_init).run [] = .ok ((rcs, store), log) ∧
      rcs = List.replicate calls.length .IPMB_OK ∧
      store.count.toNat = (calls.map Prod.fst).eraseDups.length ∧
      held store = ((calls.map Prod.fst).eraseDups.map fun sid => some (sid, (collected sid calls).map some)) ∧
      ∀ g ∈ log, g.need ≤ g.cap := by
  have hempty : Ended [] := by
    intro g hg
    cases hg
  have hsize : size ([] : List (UInt32 × List UInt8)) + size calls < 2 ^ 62 := by
    rw [size, size, List.flatMap_nil, List.length_nil, Nat.zero_add]
    exact htotal
  obtain ⟨r, log, hrun, hrcs, hholds, hlog⟩ := append_all_spec holds_init hsize hempty
  rw [foldl_upsert] at hholds
  refine ⟨r.1, r.2, log, hrun, hrcs, ?_, ?_, hlog⟩
  · rw [hholds.count, List.length_map]
  · rw [hholds.held, List.map_map]
    rfl

/-- Two sessions in turn. -/
theorem ipmb_checkpoint_append_accumulates_two :
    ∃ rcs store log,
      (append_all [(7, [1, 2]), (9, []), (7, [3])] ipmb_checkpoint_store_init).run [] = .ok ((rcs, store), log) ∧
      rcs = List.replicate 3 .IPMB_OK ∧ store.count.toNat = 2 ∧
      held store = [some (7, [some 1, some 2, some 3]), some (9, [])] ∧ ∀ g ∈ log, g.need ≤ g.cap :=
  ipmb_checkpoint_append_accumulates [(7, [1, 2]), (9, []), (7, [3])] (by decide)

end ipmb.checkpoint_memory
