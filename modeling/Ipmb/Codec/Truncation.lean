import Ipmb.Codec.DeltaRecords
import Ipmb.Codec.RlePairs

open buffer fallible run_length
open ipmb.endian ipmb.access

namespace ipmb.delta_codec

section wrapping

variable {count : Nat} {vals : List Int32}

/-- With an addition that wraps around a record always goes through. It adds values
behind those that are there, up to the count. -/
theorem run_record_wrap_add (acc : Int32) (hlt : vals.length < count) (record : delta_record) :
    ∃ acc' vals', run_record wrap_add count acc vals record = .ok (acc', vals') ∧ vals <+: vals' ∧
      vals'.length ≤ count := by
  cases record with
  | absolute v => exact ⟨v, vals ++ [v], rfl, List.prefix_append _ _, by simpa using hlt⟩
  | delta d => exact ⟨_, vals ++ [acc + d.toInt32], rfl, List.prefix_append _ _, by simpa using hlt⟩
  | run n =>
    refine ⟨acc, _, rfl, List.prefix_append _ _, ?_⟩
    rw [List.length_append, List.length_replicate]
    omega
  | reset => exact ⟨0, vals, rfl, List.prefix_rfl, hlt.le⟩

/-- So do the records of a stream. -/
theorem run_records_wrap_add (acc : Int32) (hle : vals.length ≤ count) (records : List delta_record) :
    ∃ vals', run_records wrap_add count acc vals records = .ok vals' ∧ vals <+: vals' ∧ vals'.length ≤ count := by
  induction records generalizing acc vals with
  | nil => exact ⟨vals, rfl, List.prefix_rfl, hle⟩
  | cons record records ih =>
    by_cases hlt : vals.length < count
    · obtain ⟨acc₁, vals₁, hstep, hprefix₁, hle₁⟩ := run_record_wrap_add acc hlt record
      obtain ⟨vals', hrun, hprefix, hle'⟩ := ih acc₁ hle₁
      refine ⟨vals', ?_, hprefix₁.trans hprefix, hle'⟩
      rw [run_records, if_pos hlt, hstep]
      exact hrun
    · exact ⟨vals, run_records_of_full acc hlt _, List.prefix_rfl, hle⟩

/-- More records only add values behind those of the first. -/
theorem run_records_append (acc : Int32) (hle : vals.length ≤ count) (records more : List delta_record) :
    ∃ kept vals', run_records wrap_add count acc vals records = .ok kept ∧
      run_records wrap_add count acc vals (records ++ more) = .ok vals' ∧ kept <+: vals' := by
  induction records generalizing acc vals with
  | nil =>
    obtain ⟨vals', hrun, hprefix, -⟩ := run_records_wrap_add acc hle more
    exact ⟨vals, vals', rfl, hrun, hprefix⟩
  | cons record records ih =>
    by_cases hlt : vals.length < count
    · obtain ⟨acc₁, vals₁, hstep, -, hle₁⟩ := run_record_wrap_add acc hlt record
      rw [List.cons_append, run_records, run_records, if_pos hlt, if_pos hlt, hstep]
      exact ih acc₁ hle₁
    · exact ⟨vals, vals, run_records_of_full acc hlt _, run_records_of_full acc hlt _, List.prefix_rfl⟩

end wrapping

/-- A cut loses the record it goes through and those behind it. -/
theorem delta_records_append (bytes tail : List UInt8) :
    ∃ more, delta_records (bytes ++ tail) = delta_records bytes ++ more := by
  fun_induction delta_records bytes with
  | case2 b₀ b₁ b₂ b₃ rest ih =>
    obtain ⟨more, hmore⟩ := ih
    refine ⟨more, (delta_records_absolute b₀ b₁ b₂ b₃ (rest ++ tail)).trans ?_⟩
    rw [hmore, List.cons_append]
  | case4 b₀ b₁ rest _ ih =>
    obtain ⟨more, hmore⟩ := ih
    refine ⟨more, (delta_records_delta b₀ b₁ (rest ++ tail)).trans ?_⟩
    rw [hmore, List.cons_append]
  | case6 n rest _ _ ih =>
    obtain ⟨more, hmore⟩ := ih
    refine ⟨more, (delta_records_run n (rest ++ tail)).trans ?_⟩
    rw [hmore, List.cons_append]
  | case8 rest _ _ _ ih =>
    obtain ⟨more, hmore⟩ := ih
    refine ⟨more, (delta_records_reset (rest ++ tail)).trans ?_⟩
    rw [hmore, List.cons_append]
  | case1 | case3 | case5 | case7 | case9 => exact ⟨_, rfl⟩

/-- What the decoder accepts it reads record by record, and what it does not
accept it refuses. -/
theorem ipmb_delta_decode_cases (calloc : Bool) (data : List UInt8) :
    (ReachesRecords calloc data ∧ ipmb_delta_decode calloc data = (fun vals => (.IPMB_OK, some vals)) <$>
      run_records wrap_add (ipmb_load_le32 (data.drop 8)).toNat 0 [] (delta_records (data.drop 12))) ∨
    (¬ReachesRecords calloc data ∧ ∃ status, ipmb_delta_decode calloc data = .ok (status, none)) := by
  rw [ipmb_delta_decode]
  obtain ⟨hrefused, status, hdecode⟩ | ⟨hreaches, hdecode⟩ := decode_with_eq calloc data
  · exact .inr ⟨hrefused, status, hdecode wrap_add⟩
  · exact .inl ⟨hreaches, hdecode wrap_add⟩

/-- What a cut behind the header keeps. -/
theorem ReachesRecords.of_append {calloc : Bool} {bytes tail : List UInt8}
    (h : ReachesRecords calloc (bytes ++ tail)) (hlength : 12 ≤ bytes.length) :
    ReachesRecords calloc bytes ∧
      ipmb_load_le32 ((bytes ++ tail).drop 8) = ipmb_load_le32 (bytes.drop 8) ∧
      (bytes ++ tail).drop 12 = bytes.drop 12 ++ tail := by
  obtain ⟨_, hmagic, hlimit, hcalloc⟩ := h
  have hcount : ipmb_load_le32 ((bytes ++ tail).drop 8) = ipmb_load_le32 (bytes.drop 8) := by
    have hbytes := ipmb_store_le32_load_append (bytes.drop 8) (by rw [List.length_drop]; omega)
    rw [List.drop_append_of_le_length (by omega), ← hbytes, List.append_assoc, ipmb_load_le32_store,
      ipmb_load_le32_store]
  rw [List.take_append_of_le_length (by omega)] at hmagic
  rw [hcount] at hlimit
  exact ⟨⟨hlength, hmagic, hlimit, hcalloc⟩, hcount, List.drop_append_of_le_length hlength⟩

end ipmb.delta_codec

namespace ipmb.rle_codec

theorem Accepts.of_append {alloc : Allocator} {bytes tail : List UInt8} (h : Accepts alloc (bytes ++ tail))
    (hlength : 4 ≤ bytes.length) : Accepts alloc bytes := by
  obtain ⟨_, hmagic, hfirst, hgranted⟩ := h
  obtain ⟨more, hmore⟩ := rle_pairs_append (bytes.drop 4) tail
  rw [List.take_append_of_le_length hlength] at hmagic
  rw [List.drop_append_of_le_length hlength, hmore] at hgranted
  exact ⟨hlength, hmagic, hfirst, hgranted.of_append⟩

end ipmb.rle_codec

namespace ipmb.codec

open ipmb.delta_codec ipmb.rle_codec

/-- The decoders end on any bytes without an access out of bounds. -/
theorem decoders_in_bounds (data : List UInt8) :
    (∀ calloc, ∃ status out, ipmb_delta_decode calloc data = .ok (status, out) ∧
      ∀ vals ∈ out, 12 ≤ data.length ∧ vals.length ≤ (ipmb_load_le32 (data.drop 8)).toNat) ∧
    (∀ alloc, ∃ status out, ipmb_rle_decode alloc data = .ok (status, out)) ∧
    ∀ cap need, 0 < cap → need ≤ double need cap := by
  refine ⟨?_, ?_, fun cap need hcap => le_double hcap need⟩
  · intro calloc
    obtain ⟨hreaches, hdecode⟩ | ⟨_, status, hdecode⟩ := ipmb_delta_decode_cases calloc data
    · obtain ⟨vals, hrun, -, hle⟩ := @run_records_wrap_add (ipmb_load_le32 (data.drop 8)).toNat [] 0
        (Nat.zero_le _) (delta_records (data.drop 12))
      rw [hrun, map_ok] at hdecode
      refine ⟨_, _, hdecode, ?_⟩
      intro vals' hvals
      obtain rfl := Option.some.inj hvals
      exact ⟨hreaches.1, hle⟩
    · exact ⟨_, _, hdecode, nofun⟩
  · intro alloc
    obtain ⟨_, hdecode⟩ | ⟨_, status, _, hdecode⟩ := ipmb_rle_decode_eq alloc data
    · exact ⟨_, _, hdecode⟩
    · exact ⟨_, _, hdecode⟩

/-- A cut of accepted bytes behind their header is accepted, and loses values
at the end only. -/
theorem truncation_loses_suffix (bytes tail : List UInt8) :
    (∀ calloc vals, 12 ≤ bytes.length →
      ipmb_delta_decode calloc (bytes ++ tail) = .ok (.IPMB_OK, some vals) →
      ∃ kept, ipmb_delta_decode calloc bytes = .ok (.IPMB_OK, some kept) ∧ kept <+: vals) ∧
    ∀ alloc out, 4 ≤ bytes.length →
      ipmb_rle_decode alloc (bytes ++ tail) = .ok (.IPMB_OK, some out) →
      ∃ kept, ipmb_rle_decode alloc bytes = .ok (.IPMB_OK, some kept) ∧ kept <+: out := by
  constructor
  · intro calloc vals hlength hdecode
    obtain ⟨hreaches, hwhole⟩ | ⟨_, status, hwhole⟩ := ipmb_delta_decode_cases calloc (bytes ++ tail)
    · obtain ⟨hcut, hcount, hdrop⟩ := hreaches.of_append hlength
      obtain ⟨_, hkept⟩ | ⟨hrefused, _⟩ := ipmb_delta_decode_cases calloc bytes
      · obtain ⟨more, hmore⟩ := delta_records_append (bytes.drop 12) tail
        obtain ⟨kept, vals', hrun, hrun', hprefix⟩ :=
          @run_records_append (ipmb_load_le32 (bytes.drop 8)).toNat [] 0 (Nat.zero_le _)
            (delta_records (bytes.drop 12)) more
        rw [hdecode, hcount, hdrop, hmore, hrun', map_ok] at hwhole
        obtain rfl := Option.some.inj (Prod.mk.inj (Except.ok.inj hwhole)).2
        exact ⟨kept, by rw [hkept, hrun, map_ok], hprefix⟩
      · exact absurd hcut hrefused
    · rw [hdecode] at hwhole
      cases hwhole
  · intro alloc out hlength hdecode
    obtain ⟨haccepts, hout⟩ := accepts_of_ipmb_rle_decode hdecode
    refine ⟨_, ipmb_rle_decode_of_accepts (haccepts.of_append hlength), ?_⟩
    obtain ⟨more, hmore⟩ := rle_pairs_append (bytes.drop 4) tail
    obtain rfl := Option.some.inj hout
    rw [List.drop_append_of_le_length hlength, hmore, expand, expand, List.flatMap_append]
    exact List.prefix_append _ _

/-- The cut goes through the difference behind the first value. -/
theorem truncation_loses_suffix_cut :
    ∃ kept, ipmb_delta_decode true (delta_magic ++ [16, 0, 0, 0, 2, 0, 0, 0, 0, 5, 0, 0, 0, 1, 7]) =
      .ok (.IPMB_OK, some kept) ∧ kept <+: [5, 12] :=
  (truncation_loses_suffix (delta_magic ++ [16, 0, 0, 0, 2, 0, 0, 0, 0, 5, 0, 0, 0, 1, 7]) [0]).1 true [5, 12]
    (by decide) (by rfl)

end ipmb.codec
