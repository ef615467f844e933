import Ipmb.Codec.DeltaRecords

open buffer fallible
open ipmb.endian ipmb.access

namespace ipmb.delta_codec

/-- A value as the encoder writes it: the tag of a whole value, then the value. -/
def value_bytes (value : Int32) : List UInt8 := 0 :: ipmb_store_le32 value.toUInt32

@[simp] theorem length_value_bytes (value : Int32) : (value_bytes value).length = 5 := rfl

/-- The twelve bytes before the values. -/
def delta_header (count : UInt32) : List UInt8 :=
  delta_magic ++ [16] ++ [0, 0, 0] ++ ipmb_store_le32 count

@[simp] theorem length_delta_header (count : UInt32) : (delta_header count).length = 12 := rfl

theorem delta_encode_value_spec (value : Int32) (buf : Buffer UInt8)
    (hroom : buf.written.length + 5 ≤ buf.capacity) :
    ∃ buf', delta_encode_value buf value = .ok buf' ∧ buf'.capacity = buf.capacity ∧
      buf'.written = buf.written ++ value_bytes value := by
  obtain ⟨buf₁, hstore₁, hcapacity₁, hwritten₁⟩ := store_of_le buf [0] (by
    rw [List.length_singleton]
    omega)
  obtain ⟨buf₂, hstore₂, hcapacity₂, hwritten₂⟩ :=
    store_of_le buf₁ (ipmb_store_le32 value.toUInt32) (by
      rw [hwritten₁, hcapacity₁, List.length_append, List.length_singleton, length_ipmb_store_le32]
      omega)
  refine ⟨buf₂, ?_, hcapacity₂.trans hcapacity₁, ?_⟩
  · rw [delta_encode_value, hstore₁, ok_bind, hstore₂]
  · rw [hwritten₂, hwritten₁, value_bytes, List.append_assoc, List.singleton_append]

theorem delta_encode_values_spec (values : List Int32) (buf : Buffer UInt8)
    (hroom : buf.written.length + values.length * 5 ≤ buf.capacity) :
    ∃ buf', values.foldlM delta_encode_value buf = .ok buf' ∧
      buf'.written = buf.written ++ values.flatMap value_bytes := by
  induction values generalizing buf with
  | nil => exact ⟨buf, rfl, by simp⟩
  | cons value values ih =>
    rw [List.length_cons] at hroom
    obtain ⟨buf₁, hvalue, hcapacity₁, hwritten₁⟩ := delta_encode_value_spec value buf (by omega)
    obtain ⟨buf', hrest, hwritten'⟩ := ih buf₁ (by
      rw [hwritten₁, hcapacity₁, List.length_append, length_value_bytes]
      omega)
    refine ⟨buf', ?_, ?_⟩
    · rw [List.foldlM_cons, hvalue, ok_bind, hrest]
    · rw [hwritten', hwritten₁, List.flatMap_cons, List.append_assoc]

/-- The encoder stays inside its buffer and writes the header and the values. -/
theorem ipmb_delta_encode_spec (values : List Int32) :
    ipmb_delta_encode true values =
      .ok (.IPMB_OK, some (delta_header (UInt32.ofNat values.length) ++ values.flatMap value_bytes)) := by
  obtain ⟨buf₁, hstore₁, hcapacity₁, hwritten₁⟩ :=
    store_of_le (Buffer.alloc (12 + values.length * 5)) delta_magic (by
      simp [delta_magic]
      omega)
  obtain ⟨buf₂, hstore₂, hcapacity₂, hwritten₂⟩ := store_of_le buf₁ [16] (by
    simp [hwritten₁, hcapacity₁, delta_magic]
    omega)
  obtain ⟨buf₃, hstore₃, hcapacity₃, hwritten₃⟩ := store_of_le buf₂ [0, 0, 0] (by
    simp [hwritten₂, hwritten₁, hcapacity₂, hcapacity₁, delta_magic]
    omega)
  obtain ⟨buf₄, hstore₄, hcapacity₄, hwritten₄⟩ :=
    store_of_le buf₃ (ipmb_store_le32 (UInt32.ofNat values.length)) (by
      simp [hwritten₃, hwritten₂, hwritten₁, hcapacity₃, hcapacity₂, hcapacity₁, delta_magic])
  have hheader : buf₄.written = delta_header (UInt32.ofNat values.length) := by
    rw [hwritten₄, hwritten₃, hwritten₂, hwritten₁, Buffer.written_alloc, List.nil_append, delta_header]
  obtain ⟨buf₅, hvalues, hwritten₅⟩ := delta_encode_values_spec values buf₄ (by
    rw [hheader, hcapacity₄, hcapacity₃, hcapacity₂, hcapacity₁, length_delta_header, Buffer.capacity_alloc])
  rw [ipmb_delta_encode, if_neg (by decide)]
  simp only [hstore₁, hstore₂, hstore₃, hstore₄, hvalues, hwritten₅, hheader, ok_bind, pure_eq_ok]

/-- The records of encoded values are the values, whole. -/
theorem delta_records_value_bytes (values : List Int32) :
    delta_records (values.flatMap value_bytes) = values.map .absolute := by
  induction values with
  | nil => rfl
  | cons value values ih =>
    have hstore : ipmb_load_le32 (ipmb_store_le32 value.toUInt32) = value.toUInt32 :=
      ipmb_load_le32_store value.toUInt32 []
    have hfirst : delta_records (value_bytes value ++ values.flatMap value_bytes) =
        .absolute (ipmb_load_le32 (ipmb_store_le32 value.toUInt32)).toInt32 ::
          delta_records (values.flatMap value_bytes) := delta_records_absolute _ _ _ _ _
    rw [List.flatMap_cons, hfirst, hstore, ih]
    rfl

/-- Whole values are kept up to the count, without an addition. -/
theorem run_records_absolute (add : Int32 → Int32 → Except Fault Int32) {count : Nat} (values : List Int32)
    (acc : Int32) {vals : List Int32} (hcount : vals.length + values.length ≤ count) :
    run_records add count acc vals (values.map .absolute) = .ok (vals ++ values) := by
  induction values generalizing acc vals with
  | nil => rw [List.map_nil, run_records, List.append_nil]
  | cons value values ih =>
    rw [List.length_cons] at hcount
    have hnext : (vals ++ [value]).length + values.length ≤ count := by
      rw [List.length_append, List.length_singleton]
      omega
    rw [List.map_cons, run_records, if_pos (by omega), run_record, ok_bind]
    dsimp only
    rw [ih value hnext, List.append_assoc, List.singleton_append]

theorem delta_header_parts (count : UInt32) (rest : List UInt8) :
    12 ≤ (delta_header count ++ rest).length ∧ (delta_header count ++ rest).take 4 = delta_magic ∧
      ipmb_load_le32 ((delta_header count ++ rest).drop 8) = count ∧
      (delta_header count ++ rest).drop 12 = rest := by
  have hcount : (delta_header count ++ rest).drop 8 = ipmb_store_le32 count ++ rest := by
    simp [delta_header, delta_magic]
  refine ⟨?_, ?_, ?_, List.drop_left' (length_delta_header count)⟩
  · rw [List.length_append, length_delta_header]
    exact Nat.le_add_right _ _
  · simp [delta_header, delta_magic]
  · rw [hcount, ipmb_load_le32_store]

/-- Up to its limit the decoder gives the values back, and beyond it refuses
them. -/
theorem ipmb_delta_decode_spec {values : List Int32} (hlength : values.length < 2 ^ 32) :
    ipmb_delta_decode true (delta_header (UInt32.ofNat values.length) ++ values.flatMap value_bytes) =
      if values.length ≤ MAX_COUNT then .ok (.IPMB_OK, some values) else .ok (.IPMB_ERR_LIMIT, none) := by
  have hcount : (UInt32.ofNat values.length).toNat = values.length := UInt32.toNat_ofNat_of_lt' hlength
  obtain ⟨hheader, hmagic, hload, hdrop⟩ :=
    delta_header_parts (UInt32.ofNat values.length) (values.flatMap value_bytes)
  by_cases hlimit : values.length ≤ MAX_COUNT
  · have hreaches : ReachesRecords true
        (delta_header (UInt32.ofNat values.length) ++ values.flatMap value_bytes) :=
      ⟨hheader, hmagic, by rw [hload, hcount]; exact hlimit, rfl⟩
    obtain ⟨hrefused, -⟩ | ⟨-, hdecode⟩ := decode_with_eq true
      (delta_header (UInt32.ofNat values.length) ++ values.flatMap value_bytes)
    · exact absurd hreaches hrefused
    · have hrun : run_records wrap_add values.length 0 [] (values.map .absolute) = .ok values :=
        run_records_absolute _ values 0 (Nat.le_of_eq (Nat.zero_add values.length))
      rw [if_pos hlimit, ipmb_delta_decode, hdecode, hload, hcount, hdrop, delta_records_value_bytes, hrun]
      rfl
  · have haccepted : ¬((delta_header (UInt32.ofNat values.length) ++ values.flatMap value_bytes).length < 12 ∨
        (delta_header (UInt32.ofNat values.length) ++ values.flatMap value_bytes).take 4 ≠ delta_magic) :=
      not_or.mpr ⟨not_lt.mpr hheader, not_not.mpr hmagic⟩
    have hword : le32_at (delta_header (UInt32.ofNat values.length) ++ values.flatMap value_bytes) 8 =
        .ok (UInt32.ofNat values.length) := by
      rw [le32_at, if_pos (by omega), hload]
    rw [ipmb_delta_decode, decode_with, if_neg haccepted, hword, ok_bind, hcount, if_pos (by omega), if_neg hlimit,
      pure_eq_ok]

/-- What is encoded decodes to the same values up to the decoder's limit, and
is refused beyond it. -/
theorem ipmb_delta_round_trip {values : List Int32} (hlength : values.length < 2 ^ 32) :
    ∃ encoded, ipmb_delta_encode true values = .ok (.IPMB_OK, some encoded) ∧
      ipmb_delta_decode true encoded =
        if values.length ≤ MAX_COUNT then .ok (.IPMB_OK, some values) else .ok (.IPMB_ERR_LIMIT, none) :=
  ⟨_, ipmb_delta_encode_spec values, ipmb_delta_decode_spec hlength⟩

/-- The three values of a short list come back. -/
theorem ipmb_delta_round_trip_three :
    ∃ encoded, ipmb_delta_encode true [10, 15, -2] = .ok (.IPMB_OK, some encoded) ∧
      ipmb_delta_decode true encoded = .ok (.IPMB_OK, some [10, 15, -2]) := by
  have hlength : ([10, 15, -2] : List Int32).length < 2 ^ 32 := by decide
  obtain ⟨encoded, hencode, hdecode⟩ := ipmb_delta_round_trip hlength
  exact ⟨encoded, hencode, hdecode⟩

/-- One value too many for the decoder. -/
theorem ipmb_delta_decode_refuses :
    ¬∀ (values : List Int32) (encoded : List UInt8),
      ipmb_delta_encode true values = .ok (.IPMB_OK, some encoded) →
        ipmb_delta_decode true encoded = .ok (.IPMB_OK, some values) := by
  intro hall
  have hlength : (List.replicate 100001 (0 : Int32)).length = 100001 := List.length_replicate
  have hdecode := hall (List.replicate 100001 0) _ (ipmb_delta_encode_spec _)
  rw [ipmb_delta_decode_spec (by omega), if_neg (by rw [hlength]; decide)] at hdecode
  cases hdecode

end ipmb.delta_codec
