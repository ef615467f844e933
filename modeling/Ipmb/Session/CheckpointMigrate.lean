import Ipmb.Session.CheckpointCalls

open fallible keyed patch

namespace ipmb.checkpoint_store

section migrated

variable {src dst it' : ipmb_checkpoint_state_t}

/-- What was copied are the bytes that the source had before. -/
theorem take_migrated (hsame : src.session_id = dst.session_id → dst = src) (h : migrated_item src dst = .ok it')
    (hbuf : src.used ≤ src.buf.length) : it'.buf.take src.used = src.buf.take src.used := by
  obtain ⟨bytes, hload, h⟩ := bind_eq_ok_iff.mp h
  obtain ⟨buf, hstore, h⟩ := bind_eq_ok_iff.mp h
  obtain ⟨hread, rfl⟩ := load_bytes_eq_ok_iff.mp hload
  obtain ⟨hfits, rfl⟩ := store_bytes_eq_ok_iff.mp hstore
  cases h
  have hcount := List.length_take_of_le hread
  obtain hnone | hfits := hfits
  · have hzero : src.used = 0 := by rw [← hcount, hnone, List.length_nil]
    rw [hzero, List.take_zero, List.take_zero]
  have htake := take_overlay hfits
  rw [hcount, Nat.zero_add, List.take_zero, List.nil_append] at htake
  refine htake.trans ?_
  by_cases hkeys : src.session_id = dst.session_id
  · -- the resized buffer still starts with the bytes of the old one
    rw [hcount, length_realloc, Nat.zero_add] at hfits
    rw [if_pos hkeys, hsame hkeys, take_realloc hfits hbuf]
  · rw [if_neg hkeys]

/-- All that is stored in the item fits a block with one byte less: the block of
an empty item has a byte too. -/
def Copyable (it : ipmb_checkpoint_state_t) : Prop :=
  it.used = 0 ∨ it.buf ≠ [] ∧ it.used = 1

theorem Copyable.used_le (h : Copyable src) : src.used ≤ 1 ∧ src.used ≤ src.buf.length := by
  obtain hzero | ⟨hbuf, hone⟩ := h
  · omega
  · have hpos := List.length_pos_iff_ne_nil.mpr hbuf
    omega

theorem content_migrated_iff (hsame : src.session_id = dst.session_id → dst = src)
    (h : migrated_item src dst = .ok it') :
    it'.buf.take it'.used = src.buf.take src.used ↔ Copyable src := by
  obtain ⟨_, hused, _, hle, hlen⟩ := migrated_item_cases h
  rw [hused]
  constructor
  · intro heq
    have hlengths := congrArg List.length heq
    rw [List.length_take, List.length_take] at hlengths
    by_cases hzero : src.used = 0
    · exact .inl hzero
    · refine .inr ⟨?_, by omega⟩
      rintro hbuf
      rw [hbuf, List.length_nil] at hlengths
      omega
  · intro hcopyable
    exact take_migrated hsame h hcopyable.used_le.2

end migrated

theorem content_eq (store : ipmb_checkpoint_store_t) (sid : UInt32) :
    content store sid = (find store sid).map fun it => it.buf.take it.used := rfl

theorem Updated.content_self {store store' : ipmb_checkpoint_store_t} {it : ipmb_checkpoint_state_t}
    (h : Updated store it store') : content store' it.session_id = some (it.buf.take it.used) := by
  rw [content_eq, h.find_eq, if_pos rfl, Option.map_some]

theorem Updated.content_ne {store store' : ipmb_checkpoint_store_t} {it : ipmb_checkpoint_state_t}
    (h : Updated store it store') {sid : UInt32} (hne : sid ≠ it.session_id) :
    content store' sid = content store sid := by
  rw [content_eq, h.find_eq, if_neg hne, content_eq]

/-- What a migration is to do: one that succeeds stores at the destination what
the source has and leaves all other sessions alone, and one from a session that
is not there leaves the store alone. -/
def Copies (store : ipmb_checkpoint_store_t) (src dst : UInt32)
    (result : Except Fault (ipmb_status_t × ipmb_checkpoint_store_t)) : Prop :=
  ∃ rc store', result = .ok (rc, store') ∧
    (rc = .IPMB_OK → content store' dst = content store src ∧
      ∀ sid, sid ≠ dst → content store' sid = content store sid) ∧
    (content store src = none → rc = .IPMB_ERR_NOT_FOUND ∧ store' = store)

/-- When a migration does it: there is no source, or the items array has to
grow and cannot, or it stays where it is and then the destination's buffer
cannot be had or the source's item survives the copy. -/
def Migratable (store : ipmb_checkpoint_store_t) (src dst : UInt32) (growth : Growth) (realloc_buf : Bool) :
    Prop :=
  ∀ it, find store src = some it →
    Full store dst ∧ growth = .failed ∨
      ¬(Full store dst ∧ growth = .moved) ∧ (realloc_buf = false ∨ Copyable it)

theorem Copies.of_status {store store' : ipmb_checkpoint_store_t} {src dst : UInt32} {rc : ipmb_status_t}
    {it : ipmb_checkpoint_state_t} (hsrc : find store src = some it) (hrc : rc ≠ .IPMB_OK) :
    Copies store src dst (.ok (rc, store')) := by
  refine ⟨rc, store', rfl, fun hok => absurd hok hrc, fun hnone => ?_⟩
  rw [content_eq, hsrc] at hnone
  cases hnone

theorem not_copies_error {store : ipmb_checkpoint_store_t} {src dst : UInt32} {e : Fault} :
    ¬Copies store src dst (.error e) := by
  rintro ⟨_, _, hrun, _⟩
  cases hrun

theorem migratable_iff {store : ipmb_checkpoint_store_t} {src dst : UInt32} {it : ipmb_checkpoint_state_t}
    (hsrc : find store src = some it) {growth : Growth} (hstays : Stays store dst growth) :
    Migratable store src dst growth true ↔ Copyable it := by
  simp [Migratable, hsrc, hstays.1, hstays.2]

/-- A migration that copies does what it is to do exactly when the source's
item survives the copy. -/
theorem copies_iff_copyable {store store' : ipmb_checkpoint_store_t} {src dst : UInt32}
    {it it' : ipmb_checkpoint_state_t} (hsrc : find store src = some it)
    (hitem : migrated_item it (current store dst) = .ok it') (hupdated : Updated store it' store') :
    Copies store src dst (.ok (.IPMB_OK, store')) ↔ Copyable it := by
  have hdst := current_session_id store dst
  have hkey : it.session_id = src := key_of_lookup hsrc
  have hkey' : it'.session_id = dst := (migrated_item_cases hitem).1.trans hdst
  have hsame : it.session_id = (current store dst).session_id → current store dst = it := by
    intro hkeys
    rw [hdst, hkey] at hkeys
    rw [current, ← hkeys, hsrc, Option.getD_some]
  have hcontent := content_migrated_iff hsame hitem
  have hself : content store' dst = some (it'.buf.take it'.used) := by
    rw [← hkey']
    exact hupdated.content_self
  have hsource : content store src = some (it.buf.take it.used) := by
    rw [content_eq, hsrc, Option.map_some]
  constructor
  · rintro ⟨_, _, hresult, hcopied, _⟩
    cases hresult
    have heq := (hcopied rfl).1
    rw [hself, hsource] at heq
    exact hcontent.mp (Option.some.inj heq)
  · intro hcopyable
    refine ⟨_, _, rfl, fun _ => ⟨?_, fun sid hne => hupdated.content_ne (by rw [hkey']; exact hne)⟩, ?_⟩
    · rw [hself, hsource, hcontent.mpr hcopyable]
    · intro hnone
      rw [hsource] at hnone
      cases hnone

/-- Exactly when a migration copies everything and disturbs nothing. -/
theorem ipmb_checkpoint_migrate_copies_iff {store : ipmb_checkpoint_store_t} (h : Reachable store)
    (src dst : UInt32) (growth : Growth) (realloc_buf : Bool) :
    Copies store src dst (ipmb_checkpoint_migrate growth realloc_buf store src dst) ↔
      Migratable store src dst growth realloc_buf := by
  have hcases := ipmb_checkpoint_migrate_cases h.sound src dst growth realloc_buf
  generalize ipmb_checkpoint_migrate growth realloc_buf store src dst = result at hcases ⊢
  cases hcases with
  | absent hsrc =>
    refine iff_of_true ⟨_, _, rfl, nofun, fun _ => ⟨rfl, rfl⟩⟩ ?_
    intro it hit
    rw [hsrc] at hit
    cases hit
  | full hsrc hfull hgrowth =>
    exact iff_of_true (Copies.of_status hsrc nofun) fun _ _ => .inl ⟨hfull, hgrowth⟩
  | moved hsrc hfull hgrowth =>
    refine iff_of_false not_copies_error ?_
    intro hmigratable
    obtain ⟨_, hfailed⟩ | ⟨hunmoved, _⟩ := hmigratable _ hsrc
    · rw [hgrowth] at hfailed
      cases hfailed
    · exact hunmoved ⟨hfull, hgrowth⟩
  | unbuffered hsrc hstays hbuf hupdated =>
    exact iff_of_true (Copies.of_status hsrc nofun) fun _ _ => .inr ⟨hstays.2, .inl hbuf⟩
  | @faulted it e hsrc hstays hbuf hitem =>
    rw [hbuf, migratable_iff hsrc hstays]
    refine iff_of_false not_copies_error ?_
    intro hcopyable
    obtain ⟨it', hit'⟩ : ∃ it', migrated_item it (current store dst) = .ok it' :=
      migrated_item_ok_iff.mpr ⟨hcopyable.used_le.1, .inr hcopyable.used_le.2⟩
    rw [hitem] at hit'
    cases hit'
  | copied hsrc hstays hbuf hitem hupdated =>
    rw [hbuf, migratable_iff hsrc hstays]
    exact copies_iff_copyable hsrc hitem hupdated

/-- One stored byte is copied whole. -/
theorem ipmb_checkpoint_migrate_copies_byte :
    Copies ⟨[⟨1, some 7 :: List.replicate 15 none, 1, 16⟩], 4⟩ 1 2
      (ipmb_checkpoint_migrate .inPlace true ⟨[⟨1, some 7 :: List.replicate 15 none, 1, 16⟩], 4⟩ 1 2) := by
  have hreach : Reachable ⟨[⟨1, some 7 :: List.replicate 15 none, 1, 16⟩], 4⟩ :=
    ⟨[.append 1 [7] .inPlace true], rfl⟩
  refine (ipmb_checkpoint_migrate_copies_iff hreach 1 2 .inPlace true).mpr ?_
  intro it hit
  obtain rfl : it = ⟨1, some 7 :: List.replicate 15 none, 1, 16⟩ := (Option.some.inj hit).symm
  exact .inr ⟨by simp, .inr (.inr ⟨by simp, rfl⟩)⟩

/-- Two stored bytes are copied to a block of one. -/
theorem ipmb_checkpoint_migrate_loses_byte :
    ¬∀ (store : ipmb_checkpoint_store_t), Reachable store → ∀ (src dst : UInt32) (growth : Growth)
      (realloc_buf : Bool), Copies store src dst (ipmb_checkpoint_migrate growth realloc_buf store src dst) := by
  intro hall
  have hreach : Reachable ⟨[⟨1, some 1 :: some 2 :: List.replicate 14 none, 2, 16⟩], 4⟩ :=
    ⟨[.append 1 [1, 2] .inPlace true], rfl⟩
  obtain ⟨rc, store', hrun, -⟩ := hall _ hreach 1 2 .inPlace true
  cases hrun

end ipmb.checkpoint_store
