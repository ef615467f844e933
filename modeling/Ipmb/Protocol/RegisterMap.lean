import Ipmb.Protocol.FieldDecoder

open fallible
open ipmb.endian

namespace ipmb.field_decoder

/-- Where the field table of a register map starts. -/
def table_start (payload : List UInt8) : Nat := 10 + (ipmb_load_le16 (payload.drop 6)).toNat

def field_count (payload : List UInt8) : Nat := (ipmb_load_le16 (payload.drop 8)).toNat

/-- Where the data area after the table starts. -/
def data_start (payload : List UInt8) : Nat := table_start payload + field_count payload * 4

/-- A payload that holds a register map with its whole table. -/
structure HoldsMap (payload : List UInt8) : Prop where
  header : 10 ≤ payload.length
  magic : payload.take 4 = map_magic
  table : data_start payload ≤ payload.length

/-- The offset and the length of field `i`. -/
def entry (payload : List UInt8) (i : Nat) : UInt16 × UInt16 := table_entry payload (table_start payload) i

/-- The window of a field lies in the data area. -/
def Fits (payload : List UInt8) (i : Nat) : Prop :=
  data_start payload + (entry payload i).1.toNat + (entry payload i).2.toNat ≤ payload.length

/-- The check of the decoder refuses a field. -/
def Refused (payload : List UInt8) (i : Nat) : Prop :=
  payload.length < (entry payload i).1.toNat + (entry payload i).2.toNat

instance (payload : List UInt8) (i : Nat) : Decidable (Fits payload i) := inferInstanceAs (Decidable (_ ≤ _))

instance (payload : List UInt8) (i : Nat) : Decidable (Refused payload i) := inferInstanceAs (Decidable (_ < _))

/-- What the decoder is to do with a payload: read nothing outside it, and
refuse a map with a field outside its data area without leaving anything. -/
structure KeepsInside (payload : List UInt8) (r : Except Fault (ipmb_status_t × ipmb_register_map_t)) :
    Prop where
  reads_inside : r ≠ .error .readOutOfBounds
  unfit_refused : HoldsMap payload → (∃ i < field_count payload, ¬Fits payload i) →
    r = .ok (.IPMB_ERR_INVALID, .zero)

/-- Every field lies in the data area, or the number of fields is within the
limit and the check refuses a field before which every field with bytes lies in
the data area. -/
def Guarded (payload : List UInt8) : Prop :=
  HoldsMap payload → (∀ i < field_count payload, Fits payload i) ∨
    (field_count payload ≤ MAX_FIELDS ∧ ∃ j < field_count payload, Refused payload j ∧
      ∀ i < j, (entry payload i).2 = 0 ∨ Fits payload i)

/-- The three ways a round of the field loop ends when memory is available. -/
theorem decode_field_eq (payload : List UInt8) (i : Nat) :
    decode_field true payload (table_start payload) (data_start payload) i =
      if Refused payload i then .error (.status .IPMB_ERR_INVALID)
      else if (entry payload i).2 = 0 ∨ Fits payload i then
        .ok { offset := (entry payload i).1
              length := (entry payload i).2
              bytes := (payload.drop (data_start payload + (entry payload i).1.toNat)).take
                (entry payload i).2.toNat }
      else .error (.fault .readOutOfBounds) := by
  have hzero : (entry payload i).2.toNat = 0 ↔ (entry payload i).2 = 0 := UInt16.toNat_inj (b := 0)
  have hentry : table_entry payload (table_start payload) i = entry payload i := rfl
  simp only [decode_field, hentry]
  by_cases hrefused : Refused payload i
  · have hcheck : (entry payload i).1.toNat + (entry payload i).2.toNat > payload.length := hrefused
    rw [if_pos hcheck, if_pos hrefused]
    rfl
  · have hcheck : ¬(entry payload i).1.toNat + (entry payload i).2.toNat > payload.length := hrefused
    rw [if_neg hcheck, if_neg hrefused, if_neg (by decide), read_range]
    by_cases hinside : (entry payload i).2 = 0 ∨ Fits payload i
    · have hrange : (entry payload i).2.toNat = 0 ∨
          data_start payload + (entry payload i).1.toNat + (entry payload i).2.toNat ≤ payload.length :=
        hinside.imp_left hzero.mpr
      rw [if_pos hinside, if_pos hrange]
      rfl
    · have hrange : ¬((entry payload i).2.toNat = 0 ∨
          data_start payload + (entry payload i).1.toNat + (entry payload i).2.toNat ≤ payload.length) :=
        fun h => hinside (h.imp_left hzero.mp)
      rw [if_neg hinside, if_neg hrange]
      rfl

theorem Fits.not_refused {payload : List UInt8} {i : Nat} (h : Fits payload i) : ¬Refused payload i := by
  unfold Fits at h
  unfold Refused
  omega

/-- The field loop refuses the map when the check meets a field to refuse, and
every field with bytes before it lies in the data area. -/
theorem field_loop_invalid_iff (payload : List UInt8) (n : Nat) :
    (List.range n).mapM (decode_field true payload (table_start payload) (data_start payload)) =
        .error (.status .IPMB_ERR_INVALID) ↔
      ∃ j < n, Refused payload j ∧ ∀ i < j, (entry payload i).2 = 0 ∨ Fits payload i := by
  rw [mapM_range_error_iff]
  constructor
  · rintro ⟨j, hj, hbefore, hstop⟩
    refine ⟨j, hj, ?_, ?_⟩
    · by_contra hrefused
      rw [decode_field_eq, if_neg hrefused] at hstop
      split at hstop <;> cases hstop
    · intro i hi
      obtain ⟨field, hfield⟩ := hbefore i hi
      by_contra hunfit
      rw [decode_field_eq, if_neg hunfit] at hfield
      split at hfield <;> cases hfield
  · rintro ⟨j, hj, hrefused, hbefore⟩
    -- the loop ends at the first field the check refuses
    obtain ⟨first, hfirst, hmin⟩ : ∃ first, Refused payload first ∧ ∀ i < first, ¬Refused payload i :=
      ⟨Nat.find ⟨j, hrefused⟩, Nat.find_spec ⟨j, hrefused⟩, fun _ => Nat.find_min ⟨j, hrefused⟩⟩
    have hle : first ≤ j := by
      by_contra hlt
      exact hmin j (by omega) hrefused
    refine ⟨first, by omega, ?_, ?_⟩
    · intro i hi
      rw [decode_field_eq, if_neg (hmin i hi), if_pos (hbefore i (by omega))]
      exact ⟨_, rfl⟩
    · rw [decode_field_eq, if_pos hfirst]

/-- The field loop reads every field of a map whose windows all fit. -/
theorem field_loop_fits {payload : List UInt8} {n : Nat} (h : ∀ i < n, Fits payload i) :
    ∃ fields, (List.range n).mapM (decode_field true payload (table_start payload) (data_start payload)) =
      .ok fields := by
  apply mapM_range_ok_iff.mpr
  intro i hi
  rw [decode_field_eq, if_neg (h i hi).not_refused, if_pos (.inr (h i hi))]
  exact ⟨_, rfl⟩

section exits

variable {alloc : Allocator} {payload : List UInt8}

/-- Without a whole map no field is looked at, or counted. -/
theorem ipmb_decode_register_map_no_map (alloc : Allocator) (h : ¬HoldsMap payload) :
    ∃ rc map_id, ipmb_decode_register_map alloc payload = .ok (rc, { ipmb_register_map_t.zero with map_id }) := by
  unfold ipmb_decode_register_map
  split
  · exact ⟨_, 0, rfl⟩
  rename_i hheader
  split
  · exact ⟨_, 0, rfl⟩
  rename_i hmagic
  dsimp only
  split
  · exact ⟨_, _, rfl⟩
  split
  · exact ⟨_, _, rfl⟩
  rename_i htable
  refine absurd ⟨by omega, not_not.mp hmagic, ?_⟩ h
  unfold data_start table_start field_count
  omega

theorem ipmb_decode_register_map_limit (alloc : Allocator) (h : HoldsMap payload)
    (hlimit : field_count payload > MAX_FIELDS) :
    ipmb_decode_register_map alloc payload =
      .ok (.IPMB_ERR_LIMIT, { ipmb_register_map_t.zero with map_id := ipmb_load_le16 (payload.drop 4) }) := by
  obtain ⟨hheader, hmagic, _⟩ := h
  unfold field_count at hlimit
  unfold ipmb_decode_register_map
  rw [if_neg (by omega), if_neg (not_not.mpr hmagic)]
  dsimp only
  rw [if_pos hlimit]

/-- A map without memory for its fields keeps their count. -/
theorem ipmb_decode_register_map_refused (h : HoldsMap payload) (hlimit : field_count payload ≤ MAX_FIELDS)
    (hrefused : alloc 0 = false) :
    ipmb_decode_register_map alloc payload = .ok (.IPMB_ERR_ALLOC,
      { map_id := ipmb_load_le16 (payload.drop 4), field_count := ipmb_load_le16 (payload.drop 8), fields := [] }) := by
  obtain ⟨hheader, hmagic, htable⟩ := h
  unfold data_start table_start field_count at htable
  unfold field_count at hlimit
  unfold ipmb_decode_register_map
  rw [if_neg (by omega), if_neg (not_not.mpr hmagic)]
  dsimp only
  rw [if_neg (by omega), if_neg (by omega), if_pos hrefused]
  rfl

theorem ipmb_decode_register_map_loop (h : HoldsMap payload) (hlimit : field_count payload ≤ MAX_FIELDS)
    (hgranted : alloc 0 = true) :
    ipmb_decode_register_map alloc payload =
      match (List.range (field_count payload)).mapM
          (fun i => decode_field (alloc (i + 1)) payload (table_start payload) (data_start payload) i) with
      | .error (.status rc) => .ok (rc, .zero)
      | .error (.fault f) => .error f
      | .ok fields => .ok (.IPMB_OK,
        { map_id := ipmb_load_le16 (payload.drop 4), field_count := ipmb_load_le16 (payload.drop 8), fields }) := by
  obtain ⟨hheader, hmagic, htable⟩ := h
  unfold data_start table_start field_count at htable
  unfold field_count at hlimit
  unfold ipmb_decode_register_map
  rw [if_neg (by omega), if_neg (not_not.mpr hmagic)]
  dsimp only
  rw [if_neg (by omega), if_neg (by omega), if_neg (by rw [hgranted]; decide)]
  rfl

end exits

/-- The decoder keeps inside a payload exactly when the payload is guarded. -/
theorem ipmb_decode_register_map_keeps_inside_iff (payload : List UInt8) :
    KeepsInside payload (ipmb_decode_register_map Allocator.succeeds payload) ↔ Guarded payload := by
  by_cases hmap : HoldsMap payload
  swap
  · obtain ⟨rc, map_id, hrun⟩ := ipmb_decode_register_map_no_map Allocator.succeeds hmap
    refine ⟨fun _ h => absurd h hmap, fun _ => ⟨?_, fun h => absurd h hmap⟩⟩
    rw [hrun]
    exact nofun
  by_cases hlimit : field_count payload > MAX_FIELDS
  · have hrun := ipmb_decode_register_map_limit Allocator.succeeds hmap hlimit
    rw [hrun]
    constructor
    · intro hkeeps _
      refine .inl fun i hi => ?_
      by_contra hunfit
      have hinvalid := hkeeps.unfit_refused hmap ⟨i, hi, hunfit⟩
      cases hinvalid
    · intro hguarded
      refine ⟨nofun, ?_⟩
      rintro _ ⟨i, hi, hunfit⟩
      obtain hfits | ⟨hle, _⟩ := hguarded hmap
      · exact absurd (hfits i hi) hunfit
      · omega
  have hrun : ipmb_decode_register_map Allocator.succeeds payload = _ :=
    ipmb_decode_register_map_loop hmap (by omega) rfl
  have hrounds : (fun i => decode_field (Allocator.succeeds (i + 1)) payload (table_start payload)
      (data_start payload) i) = decode_field true payload (table_start payload) (data_start payload) := rfl
  rw [hrounds] at hrun
  constructor
  · intro hkeeps _
    by_cases hfits : ∀ i < field_count payload, Fits payload i
    · exact .inl hfits
    refine .inr ⟨by omega, (field_loop_invalid_iff payload _).mp ?_⟩
    have hunfit : ∃ i < field_count payload, ¬Fits payload i := by
      by_contra hnone
      exact hfits fun i hi => by_contra fun hi' => hnone ⟨i, hi, hi'⟩
    have hinvalid := hkeeps.unfit_refused hmap hunfit
    rw [hrun] at hinvalid
    split at hinvalid
    · rename_i rc hloop
      rw [hloop]
      obtain ⟨rfl, _⟩ := Prod.mk.inj (Except.ok.inj hinvalid)
      rfl
    · cases hinvalid
    · cases hinvalid
  · intro hguarded
    obtain hfits | ⟨_, hrefused⟩ := hguarded hmap
    · obtain ⟨fields, hloop⟩ := field_loop_fits hfits
      rw [hloop] at hrun
      rw [hrun]
      refine ⟨nofun, ?_⟩
      rintro _ ⟨i, hi, hunfit⟩
      exact absurd (hfits i hi) hunfit
    · rw [(field_loop_invalid_iff payload _).mpr hrefused] at hrun
      rw [hrun]
      exact ⟨nofun, fun _ _ => rfl⟩

/-- A map with one field of two bytes at offset 1 of a data area of two bytes. -/
def overrunning_map : List UInt8 :=
  map_magic ++ [0x34, 0x12] ++ [0, 0] ++ [1, 0] ++ [1, 0] ++ [2, 0] ++ [0xaa, 0xbb]

/-- The window of the field ends behind the payload. The check, made from the
start of the payload, passes, and the copy reads outside. -/
theorem overrunning_map_read :
    ¬Fits overrunning_map 0 ∧
      ipmb_decode_register_map Allocator.succeeds overrunning_map = .error .readOutOfBounds := by
  decide

end ipmb.field_decoder
