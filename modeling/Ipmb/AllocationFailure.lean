import Ipmb.Containers

open fallible heap keyed
open ipmb.session_tracker ipmb.checkpoint_store ipmb.event_log ipmb.match_table ipmb.storage ipmb.rule_compiler

namespace ipmb.containers

/-- The tracker has an entry of the session. -/
def Linked (s : container_state) (session_id : UInt32) : Prop :=
  ∃ e, some e ∈ (seen_tracker s.tracker).2 ∧ e.session_id = session_id

/-- The store has an item of the session. -/
def Stored (s : container_state) (session_id : UInt32) : Prop :=
  ∃ it ∈ s.store.items, it.session_id = session_id

/-- The store has an item of the session without any bytes. -/
def StoredEmpty (s : container_state) (session_id : UInt32) : Prop :=
  ∃ it ∈ s.store.items, it.session_id = session_id ∧ it.buf.take it.used = []

/-- The item of the session has given up its buffer, and still counts room for so
many bytes more in it. -/
def Bufferless (s : container_state) (session_id : UInt32) (n : Nat) : Prop :=
  ∃ it ∈ s.store.items, it.session_id = session_id ∧ it.buf = [] ∧ it.used + n ≤ it.capacity

/-- The bytes of the source fit the block that they are copied to, and are there. -/
def Movable (s : container_state) (src_session dst_session : UInt32) : Prop :=
  ∃ it ∈ s.store.items, it.session_id = src_session ∧ it.used ≤ 1 ∧
    (src_session = dst_session ∨ it.used ≤ it.buf.length)

/-- The items array is full and the session is not in it. -/
def NoRoom (s : container_state) (session_id : UInt32) : Prop :=
  ¬Stored s session_id ∧ s.store.items.length = s.store.capacity

/-- The call touches no memory but its own: an append no null buffer, and a
migration no items array that has moved and no byte outside a block. -/
def Defined (s : container_state) : mutation → Prop
  | .append _ _ session_id payload => payload = [] ∨ ¬Bufferless s session_id payload.length
  | .migrate growth realloc_buf src_session dst_session =>
    ¬Stored s src_session ∨ (NoRoom s dst_session ∧ growth = .failed) ∨
      (¬(NoRoom s dst_session ∧ growth = .moved) ∧ (realloc_buf = false ∨ Movable s src_session dst_session))
  | _ => True

/-- No element is counted before an allocation that fails, and no buffer with
bytes is given up for one. -/
def Spared (s : container_state) : mutation → Prop
  | .upsert alloc session_id _ payload =>
    Linked s session_id ∨ alloc 0 = false ∨ payload = [] ∨ alloc 1 = true
  | .terminate _ => True
  | .append growth realloc_buf session_id payload =>
    Stored s session_id ∨ (s.store.items.length = s.store.capacity ∧ growth = .failed) ∨ payload = [] ∨
      realloc_buf = true
  | .migrate growth realloc_buf src_session dst_session =>
    ¬Stored s src_session ∨ (NoRoom s dst_session ∧ growth = .failed) ∨ realloc_buf = true ∨
      StoredEmpty s dst_session
  | .snapshot alloc => (s.log.snapshots.length = s.log.capacity ∧ alloc 0 = false) ∨ alloc 1 = true
  | .add alloc _ _ _ => (s.table.rules.length = s.table.capacity ∧ alloc 0 = false) ∨ alloc 1 = true
  | .put _ _ => True

variable {s s₁ : container_state} {m : mutation}

theorem atomic_iff_of_mutate {rc : ipmb_status_t} (hrun : mutate s m = .ok (rc, s₁)) :
    Atomic s m ↔ (rc = .IPMB_ERR_ALLOC → Same s s₁) := by
  constructor
  · rintro ⟨rc', s', hrun', hsame⟩
    rw [hrun] at hrun'
    cases hrun'
    exact hsame
  · exact fun h => ⟨rc, s₁, hrun, h⟩

/-- A call that changes nothing is atomic. -/
theorem atomic_of_same {rc : ipmb_status_t} (hrun : mutate s m = .ok (rc, s)) : Atomic s m :=
  (atomic_iff_of_mutate hrun).mpr fun _ => Same.refl s

/-- So is one that gets all its memory. -/
theorem atomic_of_ne {rc : ipmb_status_t} (hrun : mutate s m = .ok (rc, s₁)) (hrc : rc ≠ .IPMB_ERR_ALLOC) :
    Atomic s m :=
  (atomic_iff_of_mutate hrun).mpr fun hfailed => absurd hfailed hrc

theorem not_atomic_of_mutate (hrun : mutate s m = .ok (.IPMB_ERR_ALLOC, s₁)) (hchanged : ¬Same s s₁) :
    ¬Atomic s m := fun hatomic => hchanged ((atomic_iff_of_mutate hrun).mp hatomic rfl)

theorem not_atomic_of_error {e : Fault} (hrun : mutate s m = .error e) : ¬Atomic s m := by
  rintro ⟨rc, s', hrun', -⟩
  rw [hrun] at hrun'
  cases hrun'

section tracker

variable {tracker : ipmb_session_tracker_t} {es : List ipmb_session_entry_t}

theorem seen_tracker_eq (h : Tracks tracker es) : seen_tracker tracker = (es.length, es.map some) := by
  rw [seen_tracker, h.count_eq, h.holds]

theorem seen_tracker_eq_iff {tracker' : ipmb_session_tracker_t} {es' : List ipmb_session_entry_t}
    (h : Tracks tracker es) (h' : Tracks tracker' es') : seen_tracker tracker' = seen_tracker tracker ↔ es' = es := by
  rw [seen_tracker_eq h, seen_tracker_eq h', Prod.mk.injEq]
  constructor
  · intro heq
    exact List.map_injective_iff.mpr (Option.some_injective _) heq.2
  · rintro rfl
    exact ⟨rfl, rfl⟩

theorem linked_iff (h : Tracks s.tracker es) (session_id : UInt32) : Linked s session_id ↔ session_id ∈ ids es := by
  rw [Linked, seen_tracker_eq h]
  simp [List.mem_map]

/-- Only a new session without memory for its state is there afterwards. -/
theorem upserted_with_same_iff (alloc : Allocator) (session_id peer_id : UInt32) (payload : List UInt8)
    (es : List ipmb_session_entry_t) :
    ((upserted_with alloc session_id peer_id payload es).1 = .IPMB_ERR_ALLOC →
        (upserted_with alloc session_id peer_id payload es).2 = es) ↔
      session_id ∈ ids es ∨ alloc 0 = false ∨ payload = [] ∨ alloc 1 = true := by
  rw [upserted_with]
  by_cases hpresent : session_id ∈ ids es
  · rw [if_neg (not_and_of_not_left _ (not_not.mpr hpresent)), if_pos hpresent]
    refine iff_of_true ?_ (.inl hpresent)
    split
    · exact fun _ => rfl
    · intro hrc
      cases hrc
  · cases hentry : alloc 0 <;> cases hstate : alloc 1 <;> by_cases hpayload : payload = [] <;>
      simp [hpresent, hpayload]

theorem upsert_atomic_iff (h : Valid s) (alloc : Allocator) (session_id peer_id : UInt32) (payload : List UInt8) :
    Atomic s (.upsert alloc session_id peer_id payload) ↔ Spared s (.upsert alloc session_id peer_id payload) := by
  obtain ⟨es, htracks⟩ := h.tracks
  obtain ⟨tracker', hupsert, htracks', _⟩ :=
    ipmb_session_upsert_with_spec alloc htracks session_id peer_id payload
  have hrun : mutate s (.upsert alloc session_id peer_id payload) =
      .ok ((upserted_with alloc session_id peer_id payload es).1, { s with tracker := tracker' }) := by
    rw [mutate, hupsert]
    rfl
  have hsame : Same s { s with tracker := tracker' } ↔
      (upserted_with alloc session_id peer_id payload es).2 = es := by
    rw [← seen_tracker_eq_iff htracks htracks']
    exact ⟨fun h => h.tracker, fun h => ⟨h, rfl, rfl, rfl, rfl⟩⟩
  rw [atomic_iff_of_mutate hrun, hsame, upserted_with_same_iff, Spared, linked_iff htracks]

end tracker

theorem snapshot_atomic_iff (h : Valid s) (alloc : Allocator) :
    Atomic s (.snapshot alloc) ↔ Spared s (.snapshot alloc) := by
  obtain ⟨es, htracks⟩ := h.tracks
  have hsnapshot := ipmb_event_log_snapshot_with_spec alloc htracks s.log
  rw [Spared]
  by_cases hgrow : s.log.snapshots.length = s.log.capacity ∧ alloc 0 = false
  · rw [if_pos hgrow] at hsnapshot
    exact iff_of_true (atomic_of_same (by rw [mutate, hsnapshot]; rfl)) (.inl hgrow)
  · rw [if_neg hgrow] at hsnapshot
    cases hblock : alloc 1 with
    | true =>
      rw [hblock, if_neg Bool.noConfusion] at hsnapshot
      exact iff_of_true (atomic_of_ne (by rw [mutate, hsnapshot]; rfl) (by decide)) (.inr rfl)
    | false =>
      rw [hblock, if_pos rfl] at hsnapshot
      refine iff_of_false ?_ (not_or.mpr ⟨hgrow, Bool.noConfusion⟩)
      refine not_atomic_of_mutate (by rw [mutate, hsnapshot]; rfl) fun hsame => ?_
      have hlength := congrArg List.length hsame.log
      simp [ipmb_event_log_t.push] at hlength

theorem add_atomic_iff (alloc : Allocator) (name : List UInt8) (priority : Int32) (code : ipmb_rule_bytecode_t) :
    Atomic s (.add alloc name priority code) ↔ Spared s (.add alloc name priority code) := by
  have hrun : mutate s (.add alloc name priority code) =
      .ok ((ipmb_match_table_add alloc s.table name priority code).1,
        { s with table := (ipmb_match_table_add alloc s.table name priority code).2 }) := rfl
  rw [ipmb_match_table_add] at hrun
  rw [Spared]
  by_cases hgrow : s.table.rules.length = s.table.capacity ∧ alloc 0 = false
  · rw [if_pos hgrow] at hrun
    exact iff_of_true (atomic_of_same hrun) (.inl hgrow)
  · rw [if_neg hgrow] at hrun
    cases hclone : alloc 1 with
    | true =>
      rw [hclone] at hrun
      exact iff_of_true (atomic_of_ne hrun nofun) (.inr rfl)
    | false =>
      rw [hclone] at hrun
      refine iff_of_false ?_ (not_or.mpr ⟨hgrow, Bool.noConfusion⟩)
      refine not_atomic_of_mutate hrun fun hsame => ?_
      have hlength := congrArg List.length hsame.table
      simp at hlength

theorem put_atomic (alloc : Allocator) (data : List UInt8) : Atomic s (.put alloc data) := by
  have hrun : mutate s (.put alloc data) =
      .ok ((ipmb_storage_put alloc s.storage data).1,
        { s with storage := (ipmb_storage_put alloc s.storage data).2.1 }) := rfl
  rw [atomic_iff_of_mutate hrun]
  intro hrc
  obtain ⟨hok, _⟩ | ⟨_, hblocks⟩ := blocks_ipmb_storage_put alloc s.storage data
  · rw [hok] at hrc
    cases hrc
  · exact ⟨rfl, rfl, rfl, rfl, hblocks⟩

theorem terminate_atomic (h : Valid s) (session_id : UInt32) : Atomic s (.terminate session_id) := by
  obtain ⟨es, htracks⟩ := h.tracks
  obtain ⟨tracker', hterminate, _⟩ := ipmb_session_terminate_spec htracks session_id
  refine atomic_of_ne (by rw [mutate, hterminate]; rfl) ?_
  split <;> decide

section store

variable {growth : Growth} {sid : UInt32}

theorem not_stored_iff : ¬Stored s sid ↔ find s.store sid = none := by
  rw [find_none_iff, Stored]
  push Not
  rfl

/-- An item that is there is found where it is. -/
theorem find_or_add_stored (growth : Growth) (h : Stored s sid) :
    ∃ i it, find_or_add growth s.store sid = some (i, s.store, false) ∧ s.store.items[i]? = some it ∧
      it.session_id = sid := by
  cases hindex : s.store.items.findIdx? (fun it => decide (it.session_id = sid)) with
  | some i =>
    obtain ⟨hi, hkey, _⟩ := List.findIdx?_eq_some_iff_getElem.mp hindex
    exact ⟨i, s.store.items[i], by rw [find_or_add, hindex], List.getElem?_eq_getElem hi, of_decide_eq_true hkey⟩
  | none =>
    obtain ⟨it, hit, hkey⟩ := h
    have hother := List.findIdx?_eq_none_iff.mp hindex it hit
    simp [hkey] at hother

/-- A new item is counted behind the others, if there is room for it. -/
theorem find_or_add_new (growth : Growth) (h : ¬Stored s sid) :
    (s.store.items.length = s.store.capacity ∧ growth = .failed ∧ find_or_add growth s.store sid = none) ∨
      ¬(s.store.items.length = s.store.capacity ∧ growth = .failed) ∧
        ∃ capacity, find_or_add growth s.store sid =
          some (s.store.items.length, { items := s.store.items ++ [.new sid], capacity },
            decide (s.store.items.length = s.store.capacity ∧ growth = .moved)) := by
  have hindex : s.store.items.findIdx? (fun it => decide (it.session_id = sid)) = none := by
    rw [List.findIdx?_eq_none_iff]
    intro it hit
    simpa using fun hkey => h ⟨it, hit, hkey⟩
  rw [find_or_add, hindex]
  by_cases hfull : s.store.items.length = s.store.capacity
  · cases growth with
    | failed => exact .inl ⟨hfull, rfl, by simp [hfull]⟩
    | inPlace => exact .inr ⟨by simp, _, by simp [hfull]; rfl⟩
    | moved => exact .inr ⟨by simp, _, by simp [hfull]; rfl⟩
  · exact .inr ⟨fun hroom => hfull hroom.1, s.store.capacity, by simp [hfull]⟩

theorem set_item_self {store : ipmb_checkpoint_store_t} {i : Nat} {it : ipmb_checkpoint_state_t}
    (h : store.items[i]? = some it) : set_item store i it = store := by
  obtain ⟨hi, rfl⟩ := List.getElem?_eq_some_iff.mp h
  rw [set_item, List.set_getElem_self]

theorem item_unique (h : Sound s.store) {i : Nat} {it it' : ipmb_checkpoint_state_t}
    (hget : s.store.items[i]? = some it) (hmem : it' ∈ s.store.items) (hkey : it'.session_id = it.session_id) :
    it' = it := by
  obtain ⟨j, hj⟩ := List.mem_iff_getElem?.mp hmem
  rw [index_unique h.distinct hj hget hkey, hget] at hj
  exact (Option.some.inj hj).symm

/-- Without memory for its buffer an item that was just counted stays. -/
theorem append_item_new_refused {payload : List UInt8} (hpayload : payload ≠ []) (sid : UInt32) :
    append_item false (.new sid) payload = .ok (.IPMB_ERR_ALLOC, .new sid) := by
  have hlength := List.length_pos_of_ne_nil hpayload
  rw [append_item, if_pos]
  simpa [ipmb_checkpoint_state_t.new] using hlength

theorem append_item_new_nil (realloc_buf : Bool) (sid : UInt32) :
    append_item realloc_buf (.new sid) [] = .ok (.IPMB_OK, .new sid) := rfl

/-- An append to an item that is there leaves no trace when it fails. -/
theorem append_atomic_of_stored (h : Valid s) {sid : UInt32} (hstored : Stored s sid) (growth : Growth)
    (realloc_buf : Bool) (payload : List UInt8) :
    Atomic s (.append growth realloc_buf sid payload) ↔ payload = [] ∨ ¬Bufferless s sid payload.length := by
  obtain ⟨i, it, hfound, hget, hkey⟩ := find_or_add_stored growth hstored
  have hbacked := h.sound.backed it (List.mem_of_getElem? hget)
  have hbufferless : Bufferless s sid payload.length ↔ it.buf = [] ∧ it.used + payload.length ≤ it.capacity := by
    constructor
    · rintro ⟨it', hmem, hkey', hlost⟩
      obtain rfl := item_unique h.sound hget hmem (hkey'.trans hkey.symm)
      exact hlost
    · exact fun hlost => ⟨it, List.mem_of_getElem? hget, hkey, hlost⟩
  rw [hbufferless, ← append_item_runs_iff (fun hbuf => (hbacked hbuf).1) realloc_buf payload]
  cases hitem : append_item realloc_buf it payload with
  | error e =>
    refine iff_of_false (not_atomic_of_error (e := e) ?_) (by rintro ⟨r, hr⟩; cases hr)
    rw [mutate, ipmb_checkpoint_append, hfound]
    simp only [item, hget, ok_bind, hitem, error_bind]
  | ok r =>
    obtain ⟨rc, it'⟩ := r
    have hrun : mutate s (.append growth realloc_buf sid payload) =
        .ok (rc, { s with store := set_item s.store i it' }) := by
      rw [mutate, ipmb_checkpoint_append, hfound]
      simp only [item, hget, ok_bind, hitem]
      rfl
    refine iff_of_true ((atomic_iff_of_mutate hrun).mpr fun hrc => ?_) ⟨_, rfl⟩
    obtain ⟨-, -, rfl⟩ | ⟨hok, -⟩ := append_item_cases hitem
    · rw [set_item_self hget]
      exact Same.refl s
    · rw [hrc] at hok
      cases hok

theorem append_atomic_of_new {sid : UInt32} (hstored : ¬Stored s sid) (growth : Growth) (realloc_buf : Bool)
    (payload : List UInt8) :
    Atomic s (.append growth realloc_buf sid payload) ↔ Spared s (.append growth realloc_buf sid payload) := by
  obtain ⟨hfull, hfailed, hfound⟩ | ⟨hroom, capacity, hfound⟩ := find_or_add_new growth hstored
  · refine iff_of_true ?_ (.inr (.inl ⟨hfull, hfailed⟩))
    exact atomic_of_same (by rw [mutate, ipmb_checkpoint_append, hfound]; rfl)
  · have happend : ipmb_checkpoint_append growth realloc_buf s.store sid payload =
        (append_item realloc_buf (.new sid) payload >>= fun r =>
          pure (r.1, { items := s.store.items ++ [r.2], capacity })) := by
      simp [ipmb_checkpoint_append, hfound, item, set_item]
    by_cases hrefused : payload ≠ [] ∧ realloc_buf = false
    · obtain ⟨hpayload, rfl⟩ := hrefused
      rw [append_item_new_refused hpayload, ok_bind] at happend
      refine iff_of_false ?_ ?_
      · refine not_atomic_of_mutate (by rw [mutate, happend]; rfl) fun hsame => ?_
        have hlength := congrArg List.length hsame.store
        simp at hlength
      · rintro (h | h | h | h)
        · exact hstored h
        · exact hroom h
        · exact hpayload h
        · cases h
    · have hgranted : payload = [] ∨ realloc_buf = true := by
        obtain hpayload | hbuf := Decidable.not_and_iff_or_not.mp hrefused
        · exact .inl (not_not.mp hpayload)
        · exact .inr (Bool.eq_true_of_not_eq_false hbuf)
      refine iff_of_true ?_ (.inr (.inr hgranted))
      obtain ⟨it, hitem⟩ : ∃ it, append_item realloc_buf (.new sid) payload = .ok (.IPMB_OK, it) := by
        obtain rfl | rfl := hgranted
        · exact ⟨_, append_item_new_nil realloc_buf sid⟩
        · exact append_item_ok (Nat.le_refl _) payload
      rw [hitem, ok_bind] at happend
      exact atomic_of_ne (by rw [mutate, happend]; rfl) (by decide : ipmb_status_t.IPMB_OK ≠ .IPMB_ERR_ALLOC)

theorem append_atomic_iff (h : Valid s) (growth : Growth) (realloc_buf : Bool) (sid : UInt32)
    (payload : List UInt8) :
    Atomic s (.append growth realloc_buf sid payload) ↔
      Defined s (.append growth realloc_buf sid payload) ∧ Spared s (.append growth realloc_buf sid payload) := by
  by_cases hstored : Stored s sid
  · rw [append_atomic_of_stored h hstored, Defined]
    exact (and_iff_left (.inl hstored)).symm
  · have hdefined : Defined s (.append growth realloc_buf sid payload) :=
      .inr fun ⟨it, hit, hkey, _⟩ => hstored ⟨it, hit, hkey⟩
    rw [append_atomic_of_new hstored]
    exact (and_iff_right hdefined).symm

/-- Given up, a buffer takes its bytes with it. -/
theorem seen_item_without_buf (it : ipmb_checkpoint_state_t) :
    seen_item { it with buf := [] } = seen_item it ↔ it.buf.take it.used = [] := by
  simp only [seen_item, List.take_nil, Prod.mk.injEq, true_and]
  exact eq_comm

theorem storedEmpty_iff (h : Sound s.store) {i : Nat} {it : ipmb_checkpoint_state_t}
    (hget : s.store.items[i]? = some it) (hkey : it.session_id = sid) :
    StoredEmpty s sid ↔ it.buf.take it.used = [] := by
  constructor
  · rintro ⟨it', hmem, hkey', hempty⟩
    obtain rfl := item_unique h hget hmem (hkey'.trans hkey.symm)
    exact hempty
  · intro hempty
    exact ⟨it, List.mem_of_getElem? hget, hkey, hempty⟩

theorem noRoom_iff : NoRoom s sid ↔ Full s.store sid := and_congr_left fun _ => not_stored_iff

/-- With memory for the buffer a migration runs out of memory only where it
finds no room for its item. -/
theorem migrate_granted_atomic_iff (h : Valid s) {src_item : ipmb_checkpoint_state_t} (growth : Growth)
    {src dst : UInt32} (hsrc : find s.store src = some src_item) :
    Atomic s (.migrate growth true src dst) ↔
      (NoRoom s dst ∧ growth = .failed) ∨ (¬(NoRoom s dst ∧ growth = .moved) ∧ Movable s src dst) := by
  have hmem : src_item ∈ s.store.items := mem_of_lookup hsrc
  have hkey : src_item.session_id = src := key_of_lookup hsrc
  have hmovable : Movable s src dst ↔ ∃ it', migrated_item src_item (current s.store dst) = .ok it' := by
    rw [migrated_item_ok_iff, current_session_id, hkey]
    constructor
    · rintro ⟨it, hit, hsid, hmoves⟩
      obtain ⟨i, hi⟩ := List.mem_iff_getElem?.mp hmem
      obtain rfl := item_unique h.sound hi hit (hsid.trans hkey.symm)
      exact hmoves
    · exact fun hmoves => ⟨src_item, hmem, hkey, hmoves⟩
  have hcases := ipmb_checkpoint_migrate_cases h.sound src dst growth true
  rw [noRoom_iff, hmovable]
  cases hmigrate : ipmb_checkpoint_migrate growth true s.store src dst with
  | error e =>
    rw [hmigrate] at hcases
    refine iff_of_false (not_atomic_of_error (e := e) (by rw [mutate, hmigrate]; rfl)) ?_
    cases hcases with
    | moved _ hfull hmoved =>
      rintro (⟨-, hfailed⟩ | ⟨hstays, -⟩)
      · rw [hmoved] at hfailed
        cases hfailed
      · exact hstays ⟨hfull, hmoved⟩
    | faulted hfind hstays _ hitem =>
      obtain rfl := Option.some.inj (hsrc.symm.trans hfind)
      rintro (hfailed | ⟨-, it', hok⟩)
      · exact hstays.1 hfailed
      · rw [hitem] at hok
        cases hok
  | ok r =>
    rw [hmigrate] at hcases
    have hrun : mutate s (.migrate growth true src dst) = .ok (r.1, { s with store := r.2 }) := by
      rw [mutate, hmigrate]
      rfl
    cases hcases with
    | absent hnone =>
      rw [hsrc] at hnone
      cases hnone
    | full _ hfull hfailed => exact iff_of_true (atomic_of_same hrun) (.inl ⟨hfull, hfailed⟩)
    | unbuffered _ _ hbuf => cases hbuf
    | copied hfind hstays _ hitem =>
      obtain rfl := Option.some.inj (hsrc.symm.trans hfind)
      have hok : ipmb_status_t.IPMB_OK ≠ .IPMB_ERR_ALLOC := by decide
      exact iff_of_true (atomic_of_ne hrun hok) (.inr ⟨hstays.2, _, hitem⟩)

/-- Replacing an element shows exactly where what is seen of it changes. -/
theorem map_set_eq_iff {α β : Type} {f : α → β} {as : List α} {i : Nat} {a b : α} (h : as[i]? = some a) :
    (as.set i b).map f = as.map f ↔ f b = f a := by
  obtain ⟨hi, rfl⟩ := List.getElem?_eq_some_iff.mp h
  constructor
  · intro heq
    have hget := congrArg (fun bs => bs[i]?) heq
    simpa [hi] using hget
  · intro heq
    rw [List.map_set, heq, ← List.getElem_map f (h := by simpa using hi), List.set_getElem_self]

/-- Without memory for its buffer a destination that is there loses its bytes. -/
theorem migrate_refused_stored {src_item : ipmb_checkpoint_state_t} (h : Valid s) (growth : Growth)
    {src dst : UInt32} (hsrc : find s.store src = some src_item) (hdst : Stored s dst) :
    Atomic s (.migrate growth false src dst) ↔ StoredEmpty s dst := by
  obtain ⟨j, hj, hget_src⟩ := last_index_of_find h.sound hsrc
  obtain ⟨i, dest_item, hfound, hget, hkey⟩ := find_or_add_stored growth hdst
  have hrun : mutate s (.migrate growth false src dst) =
      .ok (.IPMB_ERR_ALLOC, { s with store := set_item s.store i { dest_item with buf := [] } }) := by
    rw [mutate, ipmb_checkpoint_migrate, hj]
    simp [hfound, item, hget_src, hget]
  rw [atomic_iff_of_mutate hrun, storedEmpty_iff h.sound hget hkey, ← seen_item_without_buf dest_item,
    ← map_set_eq_iff hget]
  exact ⟨fun hsame => (hsame rfl).store, fun hstore _ => ⟨rfl, hstore, rfl, rfl, rfl⟩⟩

/-- Without memory for its buffer a destination that was not there is, unless
there was no room for it either. -/
theorem migrate_refused_new {src_item : ipmb_checkpoint_state_t} (h : Valid s) (growth : Growth)
    {src dst : UInt32} (hsrc : find s.store src = some src_item) (hdst : ¬Stored s dst) :
    Atomic s (.migrate growth false src dst) ↔ NoRoom s dst ∧ growth = .failed := by
  obtain ⟨j, hj, hget_src⟩ := last_index_of_find h.sound hsrc
  obtain ⟨hfull, rfl, hfound⟩ | ⟨hroom, capacity, hfound⟩ := find_or_add_new growth hdst
  · have hrun : mutate s (.migrate .failed false src dst) = .ok (.IPMB_ERR_ALLOC, s) := by
      rw [mutate, ipmb_checkpoint_migrate, hj]
      simp only [hfound]
      rfl
    exact iff_of_true (atomic_of_same hrun) ⟨⟨hdst, hfull⟩, rfl⟩
  · refine iff_of_false ?_ fun hnone => hroom ⟨hnone.1.2, hnone.2⟩
    by_cases hmoved : s.store.items.length = s.store.capacity ∧ growth = .moved
    · obtain ⟨hfull, rfl⟩ := hmoved
      refine not_atomic_of_error (e := .useAfterFree) ?_
      rw [mutate, ipmb_checkpoint_migrate, hj]
      simp only [hfound, hfull, true_and, decide_true, if_true, error_bind]
    · have hlt := (List.getElem?_eq_some_iff.mp hget_src).1
      have hget_src' : (s.store.items ++ [ipmb_checkpoint_state_t.new dst])[j]? = some src_item := by
        rw [List.getElem?_append_left hlt, hget_src]
      have hrun : mutate s (.migrate growth false src dst) =
          .ok (.IPMB_ERR_ALLOC, { s with store := { items := s.store.items ++ [.new dst], capacity } }) := by
        rw [mutate, ipmb_checkpoint_migrate, hj]
        simp [hfound, hmoved, item, hget_src', set_item]
        rfl
      refine not_atomic_of_mutate hrun fun hsame => ?_
      have hlength := congrArg List.length hsame.store
      simp at hlength

theorem migrate_atomic_iff (h : Valid s) (growth : Growth) (realloc_buf : Bool) (src dst : UInt32) :
    Atomic s (.migrate growth realloc_buf src dst) ↔
      Defined s (.migrate growth realloc_buf src dst) ∧ Spared s (.migrate growth realloc_buf src dst) := by
  rw [Defined, Spared]
  by_cases hsrc : Stored s src
  · obtain ⟨src_item, hfind⟩ := Option.ne_none_iff_exists'.mp (fun hnone => not_stored_iff.mpr hnone hsrc)
    cases realloc_buf with
    | true =>
      rw [migrate_granted_atomic_iff h growth hfind]
      simp [hsrc]
    | false =>
      by_cases hdst : Stored s dst
      · have hroom : ¬NoRoom s dst := fun hnone => hnone.1 hdst
        rw [migrate_refused_stored h growth hfind hdst]
        simp [hsrc, hroom]
      · have hempty : ¬StoredEmpty s dst := fun ⟨it, hit, hkey, _⟩ => hdst ⟨it, hit, hkey⟩
        rw [migrate_refused_new h growth hfind hdst]
        simp only [hsrc, hempty, not_true_eq_false, Bool.false_eq_true, false_or, or_false]
        exact ⟨fun hfailed => ⟨.inl hfailed, hfailed⟩, And.right⟩
  · refine iff_of_true ?_ ⟨.inl hsrc, .inl hsrc⟩
    exact atomic_of_ne (by rw [mutate, ipmb_checkpoint_migrate_absent (not_stored_iff.mp hsrc)]; rfl) (by decide)

end store

/-- From every reachable state, a call touches no memory but its own, and leaves what
can be seen as it was if it runs out of memory, exactly when it is defined there, no
element is counted before the allocation that fails, and no bytes are given up for it. -/
theorem mutation_atomic_iff (h : Reachable s) (m : mutation) : Atomic s m ↔ Defined s m ∧ Spared s m := by
  have hvalid := h.valid
  cases m with
  | upsert alloc session_id peer_id payload =>
    exact (upsert_atomic_iff hvalid alloc session_id peer_id payload).trans (and_iff_right trivial).symm
  | terminate session_id => exact iff_of_true (terminate_atomic hvalid session_id) ⟨trivial, trivial⟩
  | append growth realloc_buf session_id payload =>
    exact append_atomic_iff hvalid growth realloc_buf session_id payload
  | migrate growth realloc_buf src_session dst_session =>
    exact migrate_atomic_iff hvalid growth realloc_buf src_session dst_session
  | snapshot alloc => exact (snapshot_atomic_iff hvalid alloc).trans (and_iff_right trivial).symm
  | add alloc name priority code => exact (add_atomic_iff alloc name priority code).trans (and_iff_right trivial).symm
  | put alloc data => exact iff_of_true (put_atomic alloc data) ⟨trivial, trivial⟩

theorem reachable_init : Reachable init := ⟨[], rfl⟩

/-- An upsert of a new session with memory for everything is atomic. -/
theorem mutation_atomic_upsert : Atomic init (.upsert Allocator.succeeds 1 2 [7]) :=
  (mutation_atomic_iff reachable_init _).mpr ⟨trivial, .inr (.inr (.inr rfl))⟩

/-- The entry is linked and counted before there is no memory for its state. -/
theorem mutation_keeps_entry : ¬∀ s m, Reachable s → Atomic s m := by
  intro hall
  obtain ⟨rc, s', hrun, hsame⟩ := hall init (.upsert (fun n => n == 0) 1 2 [7]) reachable_init
  cases hrun
  exact absurd (hsame rfl).tracker (by decide)

end ipmb.containers
