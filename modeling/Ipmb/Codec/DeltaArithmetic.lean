import Ipmb.Codec.DeltaRecords
import Ipmb.Util.IntArith

open buffer fallible
open ipmb.endian ipmb.access ipmb.int_arith

namespace ipmb.delta_codec

/-- The decoder with the addition that C has for its accumulator. -/
def ipmb_delta_decode_int (calloc : Bool) (data : List UInt8) :
    Except Fault (ipmb_status_t × Option (List Int32)) :=
  decode_with int_add calloc data

/-- How many values a record asks for. -/
def delta_record.values : delta_record → Nat
  | .absolute _ => 1
  | .delta _ => 1
  | .run n => n.toNat
  | .reset => 0

/-- The accumulator behind a record if it had no bounds. -/
def delta_record.exact (acc : Int) : delta_record → Int
  | .absolute v => v.toInt
  | .delta d => acc + d.toInt
  | .run _ => acc
  | .reset => 0

/-- Every delta that comes before the count is reached fits with the exact sum
of what comes before it. -/
def SumsFrom (count : Nat) (acc : Int) (n : Nat) (records : List delta_record) : Prop :=
  ∀ before d after, records = before ++ .delta d :: after →
    n + (before.map delta_record.values).sum < count →
      InIntRange (before.foldl delta_record.exact acc + d.toInt)

theorem sumsFrom_nil (count : Nat) (acc : Int) (n : Nat) : SumsFrom count acc n [] := by
  intro before d after h
  cases before <;> cases h

theorem sumsFrom_cons {count : Nat} {acc : Int} {n : Nat} {record : delta_record}
    {records : List delta_record} :
    SumsFrom count acc n (record :: records) ↔
      (∀ d, record = .delta d → n < count → InIntRange (acc + d.toInt)) ∧
        SumsFrom count (record.exact acc) (n + record.values) records := by
  constructor
  · intro h
    refine ⟨?_, ?_⟩
    · rintro d rfl hn
      exact h [] d records rfl (by simpa using hn)
    · rintro before d after rfl hn
      refine h (record :: before) d after rfl ?_
      rw [List.map_cons, List.sum_cons]
      omega
  · rintro ⟨hfirst, hrest⟩ before d after heq hn
    cases before with
    | nil =>
      cases heq
      exact hfirst d rfl (by simpa using hn)
    | cons record' before =>
      cases heq
      refine hrest before d after rfl ?_
      rw [List.map_cons, List.sum_cons] at hn
      omega

/-- Beyond the count nothing is added. -/
theorem sumsFrom_of_le {count n : Nat} (hn : count ≤ n) (acc : Int) (records : List delta_record) :
    SumsFrom count acc n records := by
  intro before d after _ hlt
  omega

/-- A record that goes through leaves the exact sum and as many values as it
asks for, up to the count. -/
theorem run_record_int_add {count : Nat} {acc acc' : Int32} {vals vals' : List Int32} {record : delta_record}
    (hlt : vals.length < count) (h : run_record int_add count acc vals record = .ok (acc', vals')) :
    acc'.toInt = record.exact acc.toInt ∧
      (vals'.length = vals.length + record.values ∨ count ≤ vals'.length ∧ count ≤ vals.length + record.values) := by
  cases record with
  | absolute v =>
    cases h
    exact ⟨rfl, .inl List.length_append⟩
  | delta d =>
    rw [run_record, bind_eq_ok_iff] at h
    obtain ⟨sum, hadd, hsum⟩ := h
    cases hsum
    rw [int_add] at hadd
    split at hadd
    · rename_i hrange
      cases hadd
      refine ⟨?_, .inl List.length_append⟩
      rw [toInt_add_of_inIntRange hrange, Int16.toInt_toInt32]
      rfl
    · cases hadd
  | run n =>
    cases h
    refine ⟨rfl, ?_⟩
    rw [List.length_append, List.length_replicate, delta_record.values]
    omega
  | reset =>
    cases h
    exact ⟨rfl, .inl rfl⟩

/-- A record goes through unless it is a delta that does not fit. -/
theorem run_record_int_add_cases (count : Nat) (acc : Int32) (vals : List Int32) (record : delta_record) :
    (∃ s, run_record int_add count acc vals record = .ok s ∧
        ∀ d, record = .delta d → InIntRange (acc.toInt + d.toInt)) ∨
      (∃ d, record = .delta d ∧ ¬InIntRange (acc.toInt + d.toInt)) ∧
        run_record int_add count acc vals record = .error .signedOverflow := by
  cases record with
  | absolute v => exact .inl ⟨_, rfl, fun d h => by cases h⟩
  | run n => exact .inl ⟨_, rfl, fun d h => by cases h⟩
  | reset => exact .inl ⟨_, rfl, fun d h => by cases h⟩
  | delta d =>
    have hd : d.toInt32.toInt = d.toInt := Int16.toInt_toInt32 d
    rw [run_record]
    by_cases hrange : InIntRange (acc.toInt + d.toInt)
    · refine .inl ⟨_, by rw [int_add_of_inIntRange (by rw [hd]; exact hrange)]; rfl, ?_⟩
      intro d' hd'
      cases hd'
      exact hrange
    · refine .inr ⟨⟨d, rfl, hrange⟩, ?_⟩
      rw [int_add_of_not_inIntRange (by rw [hd]; exact hrange), error_bind]

/-- Records go through exactly when all their sums fit, and otherwise overflow. -/
theorem run_records_int_add (count : Nat) (records : List delta_record) (acc : Int32) (vals : List Int32) :
    (∃ vals', run_records int_add count acc vals records = .ok vals') ∧
        SumsFrom count acc.toInt vals.length records ∨
      run_records int_add count acc vals records = .error .signedOverflow ∧
        ¬SumsFrom count acc.toInt vals.length records := by
  induction records generalizing acc vals with
  | nil => exact .inl ⟨⟨vals, rfl⟩, sumsFrom_nil _ _ _⟩
  | cons record records ih =>
    by_cases hlt : vals.length < count
    · rw [run_records, if_pos hlt, sumsFrom_cons]
      obtain ⟨⟨acc', vals'⟩, hstep, hfits⟩ | ⟨⟨d, hd, hrange⟩, herror⟩ :=
        run_record_int_add_cases count acc vals record
      · obtain ⟨hexact, hlength⟩ := run_record_int_add hlt hstep
        have hrest : SumsFrom count acc'.toInt vals'.length records ↔
            SumsFrom count (record.exact acc.toInt) (vals.length + record.values) records := by
          rw [hexact]
          obtain hlength | ⟨hfull, hfull'⟩ := hlength
          · rw [hlength]
          · exact iff_of_true (sumsFrom_of_le hfull _ _) (sumsFrom_of_le hfull' _ _)
        rw [hstep, ok_bind, ← hrest]
        obtain ⟨hrun, hsums⟩ | ⟨hrun, hsums⟩ := ih acc' vals'
        · exact .inl ⟨hrun, fun d hd _ => hfits d hd, hsums⟩
        · exact .inr ⟨hrun, fun h => hsums h.2⟩
      · refine .inr ⟨by rw [herror, error_bind], fun h => hrange (h.1 d hd hlt)⟩
    · rw [run_records_of_full acc hlt]
      exact .inl ⟨⟨vals, rfl⟩, sumsFrom_of_le (by omega) _ _⟩

/-- No addition of the decoder overflows exactly when, behind an accepted
header, every delta before the count is reached fits with the exact sum of the
records before it. -/
theorem ipmb_delta_decode_int_iff (calloc : Bool) (data : List UInt8) :
    (∃ result, ipmb_delta_decode_int calloc data = .ok result) ↔
      (ReachesRecords calloc data →
        SumsFrom (ipmb_load_le32 (data.drop 8)).toNat 0 0 (delta_records (data.drop 12))) := by
  rw [ipmb_delta_decode_int]
  obtain ⟨hrefused, status, hstatus⟩ | ⟨hreaches, hdecode⟩ := decode_with_eq calloc data
  · exact iff_of_true ⟨_, hstatus int_add⟩ (fun h => absurd h hrefused)
  · rw [hdecode]
    obtain ⟨⟨vals, hrun⟩, hsums⟩ | ⟨hrun, hsums⟩ := run_records_int_add
      (ipmb_load_le32 (data.drop 8)).toNat (delta_records (data.drop 12)) 0 []
    · exact iff_of_true ⟨_, congrArg _ hrun⟩ (fun _ => hsums)
    · refine iff_of_false ?_ (fun h => hsums (h hreaches))
      rintro ⟨result, hresult⟩
      rw [hrun] at hresult
      cases hresult

/-- A delta of one behind the largest value. -/
theorem ipmb_delta_decode_overflows :
    ¬∀ calloc data, ∃ result, ipmb_delta_decode_int calloc data = .ok result := by
  intro hall
  obtain ⟨result, hresult⟩ := hall true (delta_magic ++ [16, 0, 0, 0] ++ [2, 0, 0, 0] ++
    [0, 0xff, 0xff, 0xff, 0x7f] ++ [1, 1, 0])
  have hfault : ipmb_delta_decode_int true (delta_magic ++ [16, 0, 0, 0] ++ [2, 0, 0, 0] ++
      [0, 0xff, 0xff, 0xff, 0x7f] ++ [1, 1, 0]) = .error .signedOverflow := by decide +kernel
  rw [hfault] at hresult
  cases hresult

/-- What goes through in exact arithmetic goes through the same way when sums
wrap around. -/
theorem run_records_of_int_add {count : Nat} {records : List delta_record} {acc : Int32} {vals vals' : List Int32}
    (h : run_records int_add count acc vals records = .ok vals') :
    run_records wrap_add count acc vals records = .ok vals' := by
  induction records generalizing acc vals with
  | nil => exact h
  | cons record records ih =>
    rw [run_records] at h ⊢
    split at h
    · rename_i hlt
      rw [if_pos hlt]
      obtain ⟨⟨acc₁, vals₁⟩, hstep, hrest⟩ := bind_eq_ok_iff.mp h
      have hstep' : run_record wrap_add count acc vals record = .ok (acc₁, vals₁) := by
        cases record with
        | delta d =>
          obtain ⟨sum, hadd, hsum⟩ := bind_eq_ok_iff.mp hstep
          rw [int_add] at hadd
          split at hadd
          · cases hadd
            exact hsum
          · cases hadd
        | absolute v => exact hstep
        | run n => exact hstep
        | reset => exact hstep
      rw [hstep', ok_bind]
      exact ih hrest
    · rename_i hfull
      rw [if_neg hfull]
      exact h

/-- Where no addition overflows, the decoder is the one that wraps around. -/
theorem ipmb_delta_decode_of_int {calloc : Bool} {data : List UInt8} {result : ipmb_status_t × Option (List Int32)}
    (h : ipmb_delta_decode_int calloc data = .ok result) : ipmb_delta_decode calloc data = .ok result := by
  rw [ipmb_delta_decode]
  rw [ipmb_delta_decode_int] at h
  obtain ⟨_, status, hstatus⟩ | ⟨_, hdecode⟩ := decode_with_eq calloc data
  · rw [hstatus] at h ⊢
    exact h
  · rw [hdecode] at h ⊢
    obtain ⟨vals, hrun, hresult⟩ := map_eq_ok_iff.mp h
    rw [run_records_of_int_add hrun, map_ok, hresult]

end ipmb.delta_codec
