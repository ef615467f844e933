import Ipmb.Session.CheckpointCalls

open fallible keyed

namespace ipmb.checkpoint_store

/-- A store as it is meant to be. -/
structure Represented (store : ipmb_checkpoint_store_t) : Prop where
  used_le : ∀ it ∈ store.items, it.used ≤ it.capacity
  allocated : ∀ it ∈ store.items, 0 < it.used → it.used ≤ it.buf.length
  distinct : (store.items.map ipmb_checkpoint_state_t.session_id).Nodup
  count_le : store.items.length ≤ store.capacity

theorem represented_init : Represented ipmb_checkpoint_store_init :=
  ⟨by simp [ipmb_checkpoint_store_init], by simp [ipmb_checkpoint_store_init],
    by simp [ipmb_checkpoint_store_init], Nat.le_refl _⟩

/-- Memory is there for the call. -/
def Call.Succeeds : Call → Prop
  | .append _ _ growth realloc_buf => growth ≠ .failed ∧ realloc_buf = true
  | .migrate _ _ growth realloc_buf => growth ≠ .failed ∧ realloc_buf = true

/-- A migration from a session with stored bytes, and one from any session that
makes the items array move, break the store. -/
def Harmless (store : ipmb_checkpoint_store_t) : Call → Prop
  | .append _ _ _ _ => True
  | .migrate src dst growth _ => ∀ it, find store src = some it →
      it.used = 0 ∧ ¬(Full store dst ∧ growth = .moved)

/-- Between calls with memory every buffer has the whole capacity, null ones
included. -/
structure Sized (store : ipmb_checkpoint_store_t) : Prop where
  sound : Sound store
  capacity_le : ∀ it ∈ store.items, it.capacity ≤ it.buf.length

theorem sized_init : Sized ipmb_checkpoint_store_init := ⟨sound_init, by simp [ipmb_checkpoint_store_init]⟩

theorem Sized.current {store : ipmb_checkpoint_store_t} (h : Sized store) (sid : UInt32) :
    (current store sid).capacity ≤ (current store sid).buf.length :=
  current_induction (P := fun it => it.capacity ≤ it.buf.length) (fun _ => Nat.le_refl _) h.capacity_le sid

theorem Sized.updated {store store' : ipmb_checkpoint_store_t} {it : ipmb_checkpoint_state_t} (h : Sized store)
    (hsound : Sound store') (hupdated : Updated store it store') (hit : it.capacity ≤ it.buf.length) :
    Sized store' := by
  refine ⟨hsound, ?_⟩
  intro it' hmem
  obtain rfl | hmem := hupdated.mem it' hmem
  · exact hit
  · exact h.capacity_le it' hmem

/-- An append leaves the item of its session as it is meant to be. -/
theorem appended_sized {it it' : ipmb_checkpoint_state_t} {payload : List UInt8} {rc : ipmb_status_t}
    (h : it.capacity ≤ it.buf.length) (hitem : append_item true it payload = .ok (rc, it')) :
    it'.used ≤ it'.capacity ∧ it'.capacity ≤ it'.buf.length := by
  obtain ⟨_, hfails, _⟩ | ⟨_, _, _, ⟨hfits, hcap, hlen⟩ | ⟨hfits, hcap⟩⟩ := append_item_cases hitem
  · cases hfails
  · omega
  · omega

theorem migrated_sized {src dst it' : ipmb_checkpoint_state_t} (h : migrated_item src dst = .ok it') :
    it'.capacity ≤ it'.buf.length := by
  obtain ⟨_, _, hcap, hused, hlen⟩ := migrated_item_cases h
  omega

theorem Sized.call {store store' : ipmb_checkpoint_store_t} (h : Sized store) {c : Call} (hc : c.Succeeds)
    (hcall : call store c = .ok store') : Sized store' := by
  have hsound := h.sound.call hcall
  cases c with
  | append sid payload growth realloc_buf =>
    obtain ⟨hgrowth, rfl⟩ := hc
    obtain ⟨⟨rc, _⟩, happend, rfl⟩ := map_eq_ok_iff.mp hcall
    have hcases := ipmb_checkpoint_append_cases h.sound sid payload growth true
    rw [happend] at hcases
    cases hcases with
    | full => exact h
    | appended hitem hupdated => exact h.updated hsound hupdated (appended_sized (h.current sid) hitem).2
  | migrate src dst growth realloc_buf =>
    obtain ⟨hgrowth, rfl⟩ := hc
    obtain ⟨⟨rc, _⟩, hmigrate, rfl⟩ := map_eq_ok_iff.mp hcall
    have hcases := ipmb_checkpoint_migrate_cases h.sound src dst growth true
    rw [hmigrate] at hcases
    cases hcases with
    | absent => exact h
    | full => exact h
    | unbuffered _ _ hbuf => cases hbuf
    | copied _ _ _ hitem hupdated => exact h.updated hsound hupdated (migrated_sized hitem)

theorem Represented.updated_iff {store store' : ipmb_checkpoint_store_t} {it : ipmb_checkpoint_state_t}
    (h : Represented store) (hupdated : Updated store it store') (hit : it.capacity ≤ it.buf.length) :
    Represented store' ↔ it.used ≤ it.capacity := by
  constructor
  · intro h'
    have hfind := hupdated.find_eq it.session_id
    rw [if_pos rfl] at hfind
    exact h'.used_le it (mem_of_lookup hfind)
  · intro hused
    refine ⟨?_, ?_, hupdated.distinct, hupdated.count_le⟩
    · intro it' hmem
      obtain rfl | hmem := hupdated.mem it' hmem
      · exact hused
      · exact h.used_le it' hmem
    · intro it' hmem hpos
      obtain rfl | hmem := hupdated.mem it' hmem
      · omega
      · exact h.allocated it' hmem hpos

theorem append_represented {store : ipmb_checkpoint_store_t} (hsized : Sized store) (h : Represented store)
    {growth : Growth} (hgrowth : growth ≠ .failed) (sid : UInt32) (payload : List UInt8) :
    ∃ store', call store (.append sid payload growth true) = .ok store' ∧ Represented store' := by
  have hcurrent := hsized.current sid
  have hcases := ipmb_checkpoint_append_cases hsized.sound sid payload growth true
  rw [call]
  generalize ipmb_checkpoint_append growth true store sid payload = result at hcases ⊢
  cases hcases with
  | full _ hfailed => exact absurd hfailed hgrowth
  | faulted hitem =>
    obtain ⟨it, hit⟩ := append_item_ok hcurrent payload
    rw [hitem] at hit
    cases hit
  | appended hitem hupdated =>
    obtain ⟨hused, hit⟩ := appended_sized hcurrent hitem
    exact ⟨_, rfl, (h.updated_iff hupdated hit).mpr hused⟩

theorem migrate_represented_iff {store : ipmb_checkpoint_store_t} (hsized : Sized store) (h : Represented store)
    {growth : Growth} (hgrowth : growth ≠ .failed) (src dst : UInt32) :
    (∃ store', call store (.migrate src dst growth true) = .ok store' ∧ Represented store') ↔
      Harmless store (.migrate src dst growth true) := by
  have hcases := ipmb_checkpoint_migrate_cases hsized.sound src dst growth true
  rw [call]
  generalize ipmb_checkpoint_migrate growth true store src dst = result at hcases ⊢
  cases hcases with
  | absent hsrc =>
    refine iff_of_true ⟨store, rfl, h⟩ ?_
    intro it hit
    rw [hsrc] at hit
    cases hit
  | full _ _ hfailed => exact absurd hfailed hgrowth
  | moved hsrc hfull hmoved =>
    refine iff_of_false ?_ fun hharmless => (hharmless _ hsrc).2 ⟨hfull, hmoved⟩
    rintro ⟨_, hrun, _⟩
    cases hrun
  | unbuffered _ _ hbuf => cases hbuf
  | @faulted it e hsrc hstays _ hitem =>
    refine iff_of_false ?_ ?_
    · rintro ⟨_, hrun, _⟩
      cases hrun
    · intro hharmless
      have hempty := (hharmless it hsrc).1
      obtain ⟨it', hit'⟩ : ∃ it', migrated_item it (current store dst) = .ok it' :=
        migrated_item_ok_iff.mpr ⟨by omega, .inr (by omega)⟩
      rw [hitem] at hit'
      cases hit'
  | @copied it it' store' hsrc hstays _ hitem hupdated =>
    obtain ⟨_, hused, hcap, _, _⟩ := migrated_item_cases hitem
    have hrep := h.updated_iff hupdated (migrated_sized hitem)
    constructor
    · rintro ⟨_, hrun, h'⟩ x hx
      cases hrun
      obtain rfl : it = x := Option.some.inj (hsrc.symm.trans hx)
      have hle := hrep.mp h'
      exact ⟨by omega, hstays.2⟩
    · intro hharmless
      have hempty := (hharmless it hsrc).1
      exact ⟨store', rfl, hrep.mpr (by omega)⟩

/-- A call keeps the store as it is meant to be exactly when it is harmless. -/
theorem call_represented_iff {store : ipmb_checkpoint_store_t} (hsized : Sized store) (h : Represented store)
    {c : Call} (hc : c.Succeeds) :
    (∃ store', call store c = .ok store' ∧ Represented store') ↔ Harmless store c := by
  cases c with
  | append sid payload growth realloc_buf =>
    obtain ⟨hgrowth, rfl⟩ := hc
    exact iff_of_true (append_represented hsized h hgrowth sid payload) trivial
  | migrate src dst growth realloc_buf =>
    obtain ⟨hgrowth, rfl⟩ := hc
    exact migrate_represented_iff hsized h hgrowth src dst

/-- With memory a run keeps the store as it is meant to be exactly when all its
calls are harmless. -/
theorem runs_represented_iff {calls : List Call} (h : ∀ c ∈ calls, c.Succeeds) :
    Always call Represented ipmb_checkpoint_store_init calls ↔
      Guarded call Harmless ipmb_checkpoint_store_init calls :=
  always_iff_guarded (I := Sized) (A := Call.Succeeds) (fun _ _ _ hc hsized hcall => hsized.call hc hcall)
    (fun _ _ hc hsized hrep => call_represented_iff hsized hrep hc) sized_init represented_init h

theorem appends_represented :
    Always call Represented ipmb_checkpoint_store_init
      [.append 10 [1, 2] .moved true, .append 10 [3, 4] .inPlace true, .migrate 99 100 .inPlace true] := by
  refine (runs_represented_iff ?_).mpr ?_
  · intro c hc
    simp only [List.mem_cons, List.not_mem_nil, or_false] at hc
    obtain rfl | rfl | rfl := hc <;> exact ⟨nofun, rfl⟩
  · refine ⟨trivial, fun store₁ h₁ => ⟨trivial, fun store₂ h₂ => ⟨?_, fun _ _ => trivial⟩⟩⟩
    cases h₁
    cases h₂
    intro it hit
    cases hit

/-- A migrated byte is one more than there is capacity for. -/
theorem migrated_byte_unrepresented :
    ¬∀ calls : List Call, (∀ c ∈ calls, c.Succeeds) → ∀ store : ipmb_checkpoint_store_t,
      calls.foldlM call ipmb_checkpoint_store_init = .ok store → Represented store := by
  intro hall
  have hsucceeds : ∀ c ∈ [Call.append 1 [7] .inPlace true, .migrate 1 2 .inPlace true], c.Succeeds := by
    intro c hc
    simp only [List.mem_cons, List.not_mem_nil, or_false] at hc
    obtain rfl | rfl := hc <;> exact ⟨nofun, rfl⟩
  have hrep := hall _ hsucceeds _ rfl
  have hused := hrep.used_le ⟨2, [some 7], 1, 0⟩ (by decide)
  revert hused
  decide

end ipmb.checkpoint_store
