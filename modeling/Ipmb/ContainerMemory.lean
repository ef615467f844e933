import Ipmb.Containers
import Ipmb.Util.GrownArray

open fallible keyed ownership
open ipmb.session_tracker ipmb.checkpoint_store ipmb.event_log ipmb.match_table ipmb.storage
open ipmb.rule_parser ipmb.rule_compiler
open ipmb.grown_array

namespace ipmb.container_memory

/-- A container as a value, without its blocks. -/
def storage_of (store : Grown (List UInt8)) : ipmb_storage_t := { blocks := store.values, capacity := store.capacity }

def table_of (table : Grown ipmb_match_rule_t) : ipmb_match_table_t :=
  { rules := table.values, capacity := table.capacity }

def log_of (log : Grown ipmb_event_snapshot_t) : ipmb_event_log_t :=
  { snapshots := log.values, capacity := log.capacity }

def store_of (store : Grown ipmb_checkpoint_state_t) : ipmb_checkpoint_store_t :=
  { items := store.values, capacity := store.capacity }

section programs
variable (grants moves : Nat → Bool)

/-- `ipmb_storage_put` with its blocks. -/
def storage_put (store : Grown (List UInt8)) (data : List UInt8) :
    Owning Fault (ipmb_status_t × Grown (List UInt8) × Option Nat) := do
  match ← store.reserve grants moves 8 with
  | none => pure (.IPMB_ERR_ALLOC, store, none)
  | some (store, _) =>
    match ← malloc grants with
    | none => pure (.IPMB_ERR_ALLOC, store, none)
    | some copy => pure (.IPMB_OK, store.push data (some copy), some store.elems.length)

/-- `ipmb_match_table_add` with its blocks. -/
def match_table_add (table : Grown ipmb_match_rule_t) (name : List UInt8) (priority : Int32)
    (code : ipmb_rule_bytecode_t) : Owning Fault (ipmb_status_t × Grown ipmb_match_rule_t) := do
  match ← table.reserve grants moves 4 with
  | none => pure (.IPMB_ERR_ALLOC, table)
  | some (table, _) =>
    let p ← malloc grants
    let cloned := ipmb_rule_bytecode_clone p.isSome code
    pure (cloned.1, table.push { name := strncpy_31 name, priority, code := cloned.2 } p)

/-- `ipmb_event_log_snapshot` with its blocks. -/
def event_log_snapshot (log : Grown ipmb_event_snapshot_t) (tracker : ipmb_session_tracker_t) :
    Owning Fault (ipmb_status_t × Grown ipmb_event_snapshot_t) := do
  match ← log.reserve grants moves 4 with
  | none => pure (.IPMB_ERR_ALLOC, log)
  | some (log, _) =>
    let count := tracker.count
    match ← malloc grants with
    | none => pure (.IPMB_ERR_ALLOC, log.push { entries := [], count } none)
    | some p =>
      let entries ← lift (fill tracker (List.replicate (if count = 0 then 1 else count) none) 0 tracker.head)
      pure (.IPMB_OK, log.push { entries, count } (some p))

/-- `find_or_add` with its blocks. -/
def find_or_add (store : Grown ipmb_checkpoint_state_t) (sid : UInt32) :
    Owning Fault (Option (Nat × Grown ipmb_checkpoint_state_t × Bool)) := do
  match store.values.findIdx? (fun it => decide (it.session_id = sid)) with
  | some i => pure (some (i, store, false))
  | none =>
    match ← store.reserve grants moves 4 with
    | none => pure none
    | some (store, moved) => pure (some (store.elems.length, store.push (.new sid) none, moved))

/-- `items[i]` with the block of its buffer. -/
def elem (store : Grown ipmb_checkpoint_state_t) (i : Nat) : Except Fault (ipmb_checkpoint_state_t × Option Nat) :=
  match store.elems[i]? with
  | some it => .ok it
  | none => .error .readOutOfBounds

def set_elem (store : Grown ipmb_checkpoint_state_t) (i : Nat) (it : ipmb_checkpoint_state_t × Option Nat) :
    Grown ipmb_checkpoint_state_t := { store with elems := store.elems.set i it }

/-- What an append does to an item and the block of its buffer. -/
def append_elem (it : ipmb_checkpoint_state_t × Option Nat) (payload : List UInt8) :
    Owning Fault (ipmb_status_t × ipmb_checkpoint_state_t × Option Nat) := do
  let buf ← if it.1.used + payload.length > it.1.capacity then realloc .useAfterFree grants it.2 else pure it.2
  if it.1.used + payload.length > it.1.capacity ∧ buf = none then pure (.IPMB_ERR_ALLOC, it)
  else
    let (rc, state) ← lift (append_item true it.1 payload)
    pure (rc, state, buf)

/-- `ipmb_checkpoint_append` with its blocks. -/
def checkpoint_append (store : Grown ipmb_checkpoint_state_t) (sid : UInt32) (payload : List UInt8) :
    Owning Fault (ipmb_status_t × Grown ipmb_checkpoint_state_t) := do
  match ← find_or_add grants moves store sid with
  | none => pure (.IPMB_ERR_ALLOC, store)
  | some (i, store, _) =>
    let it ← lift (elem store i)
    let (rc, it) ← append_elem grants it payload
    pure (rc, set_elem store i it)

/-- The destination of a migration before the bytes are copied: `used` is that of the
source, `migrated` one less. -/
def resized (src dest : ipmb_checkpoint_state_t) : ipmb_checkpoint_state_t :=
  let used := src.used
  let migrated := if used > 0 then used - 1 else used
  { dest with
    buf := checkpoint_store.realloc dest.buf (if migrated = 0 then 1 else migrated)
    capacity := migrated
    used := used }

/-- `memcpy(dest->buf, src->buf, src->used)`. The source may be the item that was
just changed. -/
def copied (store : ipmb_checkpoint_store_t) (src : Nat) (dest : ipmb_checkpoint_state_t) :
    Except Fault (List (Option UInt8)) := do
  let it ← item store src
  store_bytes dest.buf 0 (← load_bytes it.buf it.used)

/-- `ipmb_checkpoint_migrate` with its blocks, and the block whose only pointer it
overwrote with the null pointer of a refused request. -/
def checkpoint_migrate (store : Grown ipmb_checkpoint_state_t) (src_session dst_session : UInt32) :
    Owning Fault (ipmb_status_t × Grown ipmb_checkpoint_state_t × Option Nat) :=
  match last_index ipmb_checkpoint_state_t.session_id src_session store.values with
  | none => pure (.IPMB_ERR_NOT_FOUND, store, none)
  | some src => do
    match ← find_or_add grants moves store dst_session with
    | none => pure (.IPMB_ERR_ALLOC, store, none)
    | some (dest, store, moved) =>
      if moved then lift (.error .useAfterFree)
      else do
        let src_item ← lift (elem store src)
        let dest_item ← lift (elem store dest)
        match ← realloc .useAfterFree grants dest_item.2 with
        | none => pure (.IPMB_ERR_ALLOC, set_elem store dest ({ dest_item.1 with buf := [] }, none), dest_item.2)
        | some p =>
          let state := resized src_item.1 dest_item.1
          let store := set_elem store dest (state, some p)
          let buf ← lift (copied (store_of store) src state)
          pure (.IPMB_OK, set_elem store dest ({ state with buf }, some p), none)

end programs

/-- How the two requests of a call are answered. -/
def two (growth copy : Bool) : Allocator := fun i => if i = 0 then growth else copy

section answers
variable (grants moves : Nat → Bool)

/-- An allocation fails only if requests are refused. -/
def Answers (alloc : Allocator) : Prop := ∀ i, alloc i = false → ∃ j, grants j = false

/-- A growth fails only if requests are refused, and moves the array only if blocks
move. -/
structure Grows (growth : Growth) : Prop where
  failed : growth = .failed → ∃ j, grants j = false
  moved : growth = .moved → ∃ p, moves p = true

end answers

section specs
variable {grants moves : Nat → Bool} {n : Nat}

theorem answers_two {growth copy : Bool} (hgrowth : growth = false → ∃ j, grants j = false)
    (hcopy : copy = false → ∃ j, grants j = false) : Answers grants (two growth copy) := by
  intro i hi
  rw [two] at hi
  split at hi
  · exact hgrowth hi
  · exact hcopy hi

theorem answers_grown {copy : Bool} (hcopy : copy = false → ∃ j, grants j = false) : Answers grants (two true copy) :=
  answers_two (fun h => by cases h) hcopy

theorem answers_granted : Answers grants (two true true) := answers_grown fun h => by cases h

theorem grows_inPlace : Grows grants moves .inPlace :=
  ⟨(fun h => by cases h), (fun h => by cases h)⟩

theorem grows_failed (h : ∃ j, grants j = false) : Grows grants moves .failed :=
  ⟨(fun _ => h), (fun h => by cases h)⟩

theorem grows_moved {moved : Bool} (h : moved = true → ∃ p, moves p = true) :
    Grows grants moves (if moved then .moved else .inPlace) := by
  cases moved with
  | true => exact ⟨(fun h => by cases h), (fun _ => h rfl)⟩
  | false => exact grows_inPlace

theorem storage_put_spec (store : Grown (List UInt8)) (data : List UInt8) :
    Triple (fun _ => False) n (blocks store.pointers) (storage_put grants moves store data) fun r _ own =>
      own = blocks r.2.1.pointers ∧ ∃ alloc, Answers grants alloc ∧
        ipmb_storage_put alloc (storage_of store) data = (r.1, storage_of r.2.1, r.2.2) := by
  refine Triple.bind (Grown.reserve_spec grants moves 8 store) ?_
  rintro _ _ _ ⟨hreserved, rfl⟩
  cases hreserved with
  | refused hfull hrefused =>
    refine Triple.pure ⟨rfl, two false false, answers_two (fun _ => hrefused) fun _ => hrefused, ?_⟩
    simp [ipmb_storage_put, storage_of, hfull, two]
  | @room store' moved helems hcapacity =>
    have hvalues := Grown.values_congr helems
    rw [Grown.next_capacity] at hcapacity
    refine Triple.bind Triple.malloc_any ?_
    rintro (_ | copy) _ _ ⟨rfl, hcopy⟩
    · refine Triple.pure ⟨zero_add _, two true false, answers_grown fun _ => ⟨_, hcopy rfl⟩, ?_⟩
      by_cases hfull : store.elems.length = store.capacity
      · simp [ipmb_storage_put, storage_of, two, hvalues, hcapacity, hfull]
        rfl
      · simp [ipmb_storage_put, storage_of, two, hvalues, hcapacity, hfull]
    · refine Triple.pure ⟨(Grown.blocks_push _ _ _).symm, two true true, answers_granted, ?_⟩
      by_cases hfull : store.elems.length = store.capacity
      · simp [ipmb_storage_put, storage_of, two, hvalues, hcapacity, hfull, helems]
        rfl
      · simp [ipmb_storage_put, storage_of, two, hvalues, hcapacity, hfull, helems]

theorem match_table_add_spec (table : Grown ipmb_match_rule_t) (name : List UInt8) (priority : Int32)
    (code : ipmb_rule_bytecode_t) :
    Triple (fun _ => False) n (blocks table.pointers)
      (match_table_add grants moves table name priority code) fun r _ own => own = blocks r.2.pointers ∧
        (r.1 ≠ .IPMB_OK → ∃ i, grants i = false) ∧ ∃ alloc, Answers grants alloc ∧
          ipmb_match_table_add alloc (table_of table) name priority code = (r.1, table_of r.2) := by
  refine Triple.bind (Grown.reserve_spec grants moves 4 table) ?_
  rintro _ _ _ ⟨hreserved, rfl⟩
  cases hreserved with
  | refused hfull hrefused =>
    refine Triple.pure ⟨rfl, fun _ => hrefused, two false false, answers_two (fun _ => hrefused) fun _ => hrefused, ?_⟩
    simp [ipmb_match_table_add, table_of, hfull, two]
  | @room table' moved helems hcapacity =>
    have hvalues := Grown.values_congr helems
    rw [Grown.next_capacity] at hcapacity
    refine Triple.bind Triple.malloc_any ?_
    rintro p _ _ ⟨rfl, hp⟩
    refine Triple.pure ⟨(Grown.blocks_push _ _ _).symm, fun hrc => ⟨_, hp ?_⟩, two true p.isSome,
      answers_grown fun hnone => ⟨_, hp (Option.not_isSome_iff_eq_none.mp (by simp [hnone]))⟩, ?_⟩
    · cases p with
      | none => rfl
      | some p => exact absurd rfl hrc
    simp [ipmb_match_table_add, table_of, two, hvalues, hcapacity]
    rfl

theorem event_log_snapshot_spec (log : Grown ipmb_event_snapshot_t) (tracker : ipmb_session_tracker_t) :
    Triple (fun e => ∃ alloc, Answers grants alloc ∧ ipmb_event_log_snapshot alloc (log_of log) tracker = .error e) n
      (blocks log.pointers) (event_log_snapshot grants moves log tracker) fun r _ own =>
        own = blocks r.2.pointers ∧ ∃ alloc, Answers grants alloc ∧
          ipmb_event_log_snapshot alloc (log_of log) tracker = .ok (r.1, log_of r.2) := by
  refine Triple.bind (Grown.reserve_spec grants moves 4 log) ?_
  rintro _ _ _ ⟨hreserved, rfl⟩
  cases hreserved with
  | refused hfull hrefused =>
    refine Triple.pure ⟨rfl, two false false, answers_two (fun _ => hrefused) fun _ => hrefused, ?_⟩
    simp [ipmb_event_log_snapshot, log_of, hfull, two]
  | @room log' moved helems hcapacity =>
    have hvalues := Grown.values_congr helems
    rw [Grown.next_capacity] at hcapacity
    refine Triple.bind Triple.malloc_any ?_
    rintro (_ | p) _ _ ⟨rfl, hblock⟩
    · refine Triple.pure ⟨(Grown.blocks_push _ _ _).symm, two true false,
        answers_grown fun _ => ⟨_, hblock rfl⟩, ?_⟩
      simp [ipmb_event_log_snapshot, log_of, two, hvalues, hcapacity]
      rfl
    · dsimp only
      cases hfill : fill tracker (List.replicate (if tracker.count = 0 then 1 else tracker.count) none) 0
          tracker.head with
      | error e =>
        refine Triple.lift_bind_error rfl ⟨two true true, answers_granted, ?_⟩
        simp [ipmb_event_log_snapshot, two, hfill]
      | ok entries =>
        refine Triple.lift_bind_ok rfl (Triple.pure ⟨(Grown.blocks_push _ _ _).symm, two true true,
          answers_granted, ?_⟩)
        simp [ipmb_event_log_snapshot, log_of, two, hvalues, hcapacity, hfill]
        rfl

/-- A search with its blocks is one of the values, with an array that grew in place
or elsewhere. -/
theorem find_or_add_spec (store : Grown ipmb_checkpoint_state_t) (sid : UInt32) :
    Triple (fun _ => False) n (blocks store.pointers) (find_or_add grants moves store sid) fun r _ own =>
      own = (match r with | none => blocks store.pointers | some r => blocks r.2.1.pointers) ∧
        ∃ growth, Grows grants moves growth ∧ checkpoint_store.find_or_add growth (store_of store) sid =
          r.map fun r => (r.1, store_of r.2.1, r.2.2) := by
  rw [find_or_add]
  cases hfound : store.values.findIdx? (fun it => decide (it.session_id = sid)) with
  | some i =>
    refine Triple.pure ⟨rfl, .inPlace, grows_inPlace, ?_⟩
    simp [checkpoint_store.find_or_add, store_of, hfound]
  | none =>
    dsimp only
    refine Triple.bind (Grown.reserve_spec grants moves 4 store) ?_
    rintro _ _ _ ⟨hreserved, rfl⟩
    cases hreserved with
    | refused hfull hrefused =>
      refine Triple.pure ⟨rfl, .failed, grows_failed hrefused, ?_⟩
      simp [checkpoint_store.find_or_add, store_of, hfound, hfull]
    | @room store' moved helems hcapacity hmoved =>
      have hvalues := Grown.values_congr helems
      rw [Grown.next_capacity] at hcapacity
      refine Triple.pure ⟨?_, if moved then .moved else .inPlace, grows_moved fun h => (hmoved h).2, ?_⟩
      · have hpush := Grown.blocks_push store' (.new sid) none
        rw [blocks_none, blocks_nil, zero_add] at hpush
        exact hpush.symm
      · by_cases hfull : store.elems.length = store.capacity
        · cases moved with
          | true =>
            simp [checkpoint_store.find_or_add, store_of, hfound, hvalues, hcapacity, hfull, helems]
            rfl
          | false =>
            simp [checkpoint_store.find_or_add, store_of, hfound, hvalues, hcapacity, hfull, helems]
            rfl
        · have hstays : moved = false := Bool.eq_false_iff.mpr fun h => hfull (hmoved h).1
          simp [checkpoint_store.find_or_add, store_of, hfound, hvalues, hcapacity, hfull, helems, hstays]

theorem item_store_of (store : Grown ipmb_checkpoint_state_t) (i : Nat) :
    item (store_of store) i = Prod.fst <$> elem store i := by
  rw [item, elem, store_of, Grown.values, List.getElem?_map]
  cases store.elems[i]? <;> rfl

theorem store_of_set_elem (store : Grown ipmb_checkpoint_state_t) (i : Nat)
    (it : ipmb_checkpoint_state_t × Option Nat) :
    store_of (set_elem store i it) = set_item (store_of store) i it.1 := by
  rw [store_of, set_elem, set_item, Grown.values, List.map_set]
  rfl

theorem set_elem_set_elem (store : Grown ipmb_checkpoint_state_t) (i : Nat)
    (it it' : ipmb_checkpoint_state_t × Option Nat) :
    set_elem (set_elem store i it) i it' = set_elem store i it' := by
  rw [set_elem, set_elem, set_elem, List.set_set]

/-- The blocks of a store are that of an item's buffer and others, which stay when the
item is replaced. -/
theorem exists_others {store : Grown ipmb_checkpoint_state_t} {i : Nat} {it : ipmb_checkpoint_state_t × Option Nat}
    (h : elem store i = .ok it) :
    ∃ others, blocks store.pointers = blocks [it.2] + others ∧
      ∀ it', blocks (set_elem store i it').pointers = blocks [it'.2] + others := by
  rw [elem] at h
  split at h
  · rename_i it' hget
    cases h
    obtain ⟨hi, rfl⟩ := List.getElem?_eq_some_iff.mp hget
    have hlt : i < (store.elems.map Prod.snd).length := by
      rw [List.length_map]
      exact hi
    have hset : ∀ it', blocks (set_elem store i it').pointers =
        blocks [it'.2] + (blocks [store.array] + blocks ((store.elems.map Prod.snd).eraseIdx i)) := by
      intro it'
      rw [Grown.blocks_pointers, set_elem, List.map_set, blocks_set hlt, add_left_comm]
    refine ⟨_, ?_, hset⟩
    rw [← hset, set_elem, List.set_getElem_self]
  · cases h

theorem append_elem_spec (it : ipmb_checkpoint_state_t × Option Nat) (payload : List UInt8) {others : Multiset Nat} :
    Triple (fun e => append_item true it.1 payload = .error e) n (blocks [it.2] + others)
      (append_elem grants it payload) fun r _ own =>
        own = blocks [r.2.2] + others ∧ ∃ granted, (granted = false → ∃ j, grants j = false) ∧
          append_item granted it.1 payload = .ok (r.1, r.2.1) := by
  have hlift : ∀ (buf : Option Nat) (k : Nat),
      Triple (fun e => append_item true it.1 payload = .error e) k (blocks [buf] + others)
        (do
          let (rc, state) ← lift (append_item true it.1 payload)
          pure (rc, state, buf)) fun r _ own =>
        own = blocks [r.2.2] + others ∧ ∃ granted, (granted = false → ∃ j, grants j = false) ∧
          append_item granted it.1 payload = .ok (r.1, r.2.1) := by
    intro buf k
    cases hitem : append_item true it.1 payload with
    | error e => exact Triple.lift_bind_error rfl rfl
    | ok r => exact Triple.lift_bind_ok rfl (Triple.pure ⟨rfl, true, (fun h => by cases h), hitem⟩)
  rw [append_elem]
  by_cases hgrow : it.1.used + payload.length > it.1.capacity
  · rw [if_pos hgrow]
    refine Triple.bind Triple.realloc_any ?_
    rintro _ _ _ (⟨hrefused, rfl, rfl⟩ | ⟨p, rfl, rfl⟩)
    · dsimp only
      rw [if_pos ⟨hgrow, rfl⟩]
      refine Triple.pure ⟨rfl, false, fun _ => ⟨_, hrefused⟩, ?_⟩
      rw [append_item, if_pos ⟨hgrow, rfl⟩]
    · dsimp only
      rw [if_neg (fun h => Option.some_ne_none p h.2)]
      exact hlift (some p) _
  · rw [if_neg hgrow]
    refine Triple.bind (Triple.pure (Q := fun buf _ own => buf = it.2 ∧ own = blocks [it.2] + others) ⟨rfl, rfl⟩) ?_
    rintro _ _ _ ⟨rfl, rfl⟩
    dsimp only
    rw [if_neg (fun h => hgrow h.1)]
    exact hlift it.2 _

theorem checkpoint_append_spec (store : Grown ipmb_checkpoint_state_t) (sid : UInt32) (payload : List UInt8) :
    Triple (fun e => ∃ growth, Grows grants moves growth ∧
        ipmb_checkpoint_append growth true (store_of store) sid payload = .error e) n
      (blocks store.pointers) (checkpoint_append grants moves store sid payload) fun r _ own =>
        own = blocks r.2.pointers ∧
          ∃ growth granted, Grows grants moves growth ∧ (granted = false → ∃ j, grants j = false) ∧
            ipmb_checkpoint_append growth granted (store_of store) sid payload = .ok (r.1, store_of r.2) := by
  refine Triple.bind ((find_or_add_spec store sid).mono (fun _ h => h.elim) fun _ _ _ h => h) ?_
  rintro (_ | ⟨i, store', moved⟩) _ _ ⟨rfl, growth, hgrows, hfound⟩
  · refine Triple.pure ⟨rfl, growth, true, hgrows, nofun, ?_⟩
    rw [ipmb_checkpoint_append, hfound]
    rfl
  · have happend : ∀ granted, ipmb_checkpoint_append growth granted (store_of store) sid payload =
        elem store' i >>= fun it => append_item granted it.1 payload >>= fun r =>
          pure (r.1, set_item (store_of store') i r.2) := by
      intro granted
      rw [ipmb_checkpoint_append, hfound]
      dsimp only [Option.map_some]
      rw [item_store_of]
      cases elem store' i <;> rfl
    cases helem : elem store' i with
    | error e => exact Triple.lift_bind_error helem ⟨growth, hgrows, by rw [happend, helem]; rfl⟩
    | ok it =>
      obtain ⟨others, hown, hset⟩ := exists_others helem
      simp only [helem, ok_bind] at happend
      dsimp only
      rw [hown]
      refine Triple.lift_bind_ok helem ?_
      refine Triple.bind ((append_elem_spec it payload).mono ?_ fun _ _ _ h => h) ?_
      · intro e herror
        exact ⟨growth, hgrows, by rw [happend, herror]; rfl⟩
      · rintro ⟨rc, it'⟩ _ _ ⟨rfl, granted, hgranted, hitem⟩
        refine Triple.pure ⟨(hset it').symm, growth, granted, hgrows, hgranted, ?_⟩
        rw [happend, hitem, store_of_set_elem]
        rfl

/-- A migration whose destination was found, in terms of the items with their blocks. -/
theorem ipmb_checkpoint_migrate_found {store store' : Grown ipmb_checkpoint_state_t} {src_session dst_session : UInt32}
    {growth : Growth} {src dest : Nat} {moved : Bool}
    (hsrc : last_index ipmb_checkpoint_state_t.session_id src_session store.values = some src)
    (hfound : checkpoint_store.find_or_add growth (store_of store) dst_session = some (dest, store_of store', moved))
    (granted : Bool) (p : Option Nat) :
    ipmb_checkpoint_migrate growth granted (store_of store) src_session dst_session =
      if moved then .error .useAfterFree
      else (do
        let s ← elem store' src
        let d ← elem store' dest
        if granted = false then pure (.IPMB_ERR_ALLOC, store_of (set_elem store' dest ({ d.1 with buf := [] }, none)))
        else do
          let buf ← copied (store_of (set_elem store' dest (resized s.1 d.1, p))) src (resized s.1 d.1)
          pure (.IPMB_OK, store_of (set_elem (set_elem store' dest (resized s.1 d.1, p)) dest
            ({ resized s.1 d.1 with buf }, p)))) := by
  have hsrc' : last_index ipmb_checkpoint_state_t.session_id src_session (store_of store).items = some src := hsrc
  rw [ipmb_checkpoint_migrate, hsrc']
  dsimp only
  rw [hfound]
  dsimp only
  cases moved with
  | true => rfl
  | false =>
    simp only [Bool.false_eq_true, if_false, item_store_of]
    cases hs : elem store' src with
    | error e => rfl
    | ok s =>
      cases hd : elem store' dest with
      | error e => rfl
      | ok d =>
        simp only [map_ok, ok_bind]
        cases granted with
        | false => rw [if_pos rfl, if_pos rfl, store_of_set_elem]
        | true =>
          simp only [store_of_set_elem, copied, bind_assoc]
          rfl

theorem checkpoint_migrate_spec (store : Grown ipmb_checkpoint_state_t) (src_session dst_session : UInt32) :
    Triple (fun e => ∃ growth, Grows grants moves growth ∧
        ipmb_checkpoint_migrate growth true (store_of store) src_session dst_session = .error e) n
      (blocks store.pointers) (checkpoint_migrate grants moves store src_session dst_session) fun r _ own =>
        own = blocks [r.2.2] + blocks r.2.1.pointers ∧
          ∃ growth granted, Grows grants moves growth ∧ (granted = false → ∃ j, grants j = false) ∧
            ipmb_checkpoint_migrate growth granted (store_of store) src_session dst_session =
              .ok (r.1, store_of r.2.1) := by
  rw [checkpoint_migrate]
  cases hsrc : last_index ipmb_checkpoint_state_t.session_id src_session store.values with
  | none =>
    refine Triple.pure ⟨(zero_add _).symm, .inPlace, true, grows_inPlace, nofun, ?_⟩
    simp [ipmb_checkpoint_migrate, store_of, hsrc]
  | some src =>
    dsimp only
    refine Triple.bind ((find_or_add_spec store dst_session).mono (fun _ h => h.elim) fun _ _ _ h => h) ?_
    rintro (_ | ⟨dest, store', moved⟩) _ _ ⟨rfl, growth, hgrows, hfound⟩
    · refine Triple.pure ⟨(zero_add _).symm, growth, true, hgrows, nofun, ?_⟩
      have hsrc' : last_index ipmb_checkpoint_state_t.session_id src_session (store_of store).items = some src := hsrc
      rw [ipmb_checkpoint_migrate, hsrc']
      dsimp only
      rw [hfound]
      rfl
    · have hrun := ipmb_checkpoint_migrate_found hsrc hfound
      dsimp only
      cases moved with
      | true =>
        refine Triple.lift (fun e he => ?_) fun _ hok => by cases hok
        cases he
        exact ⟨growth, hgrows, hrun true none⟩
      | false =>
        simp only [Bool.false_eq_true, if_false] at hrun
        rw [if_neg Bool.false_ne_true]
        cases hs : elem store' src with
        | error e => exact Triple.lift_bind_error rfl ⟨growth, hgrows, by rw [hrun true none, hs]; rfl⟩
        | ok s =>
          refine Triple.lift_bind_ok rfl ?_
          cases hd : elem store' dest with
          | error e => exact Triple.lift_bind_error rfl ⟨growth, hgrows, by rw [hrun true none, hs, hd]; rfl⟩
          | ok d =>
            obtain ⟨others, hown, hset⟩ := exists_others hd
            simp only [hs, hd, ok_bind] at hrun
            refine Triple.lift_bind_ok rfl ?_
            rw [hown]
            refine Triple.bind Triple.realloc_any ?_
            rintro _ _ _ (⟨hrefused, rfl, rfl⟩ | ⟨p, rfl, rfl⟩)
            · refine Triple.pure ⟨?_, growth, false, hgrows, fun _ => ⟨_, hrefused⟩, hrun false none⟩
              rw [hset, blocks_none, blocks_nil, zero_add]
            · have hgranted := hrun true (some p)
              rw [if_neg (by decide)] at hgranted
              dsimp only
              cases hcopy : copied (store_of (set_elem store' dest (resized s.1 d.1, some p))) src
                  (resized s.1 d.1) with
              | error e => exact Triple.lift_bind_error rfl ⟨growth, hgrows, by rw [hgranted, hcopy]; rfl⟩
              | ok buf =>
                refine Triple.lift_bind_ok rfl (Triple.pure ⟨?_, growth, true, hgrows, nofun, by
                  rw [hgranted, hcopy]; rfl⟩)
                have hfinal := hset ({ resized s.1 d.1 with buf }, some p)
                rw [blocks_none, blocks_nil, zero_add, set_elem_set_elem, hfinal]

end specs

end ipmb.container_memory
