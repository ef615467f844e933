import Ipmb.Codec.DeltaCodec

open buffer fallible
open ipmb.endian ipmb.access

namespace ipmb.delta_codec

/-- What the tags of a stream stand for. -/
inductive delta_record where
  | absolute (v : Int32)
  | delta (d : Int16)
  | run (n : UInt8)
  | reset
  deriving Repr, DecidableEq

/-- The records of a stream, up to the first that is cut off or has no known tag. -/
def delta_records : List UInt8 → List delta_record
  | [] => []
  | tag :: rest =>
    if tag = 0 then
      match rest with
      | b₀ :: b₁ :: b₂ :: b₃ :: rest => .absolute (ipmb_load_le32 [b₀, b₁, b₂, b₃]).toInt32 :: delta_records rest
      | _ => []
    else if tag = 1 then
      match rest with
      | b₀ :: b₁ :: rest => .delta (ipmb_load_le16 [b₀, b₁]).toInt16 :: delta_records rest
      | _ => []
    else if tag = 2 then
      match rest with
      | n :: rest => .run n :: delta_records rest
      | _ => []
    else if tag = 3 then .reset :: delta_records rest
    else []

theorem delta_records_absolute (b₀ b₁ b₂ b₃ : UInt8) (rest : List UInt8) :
    delta_records (0 :: b₀ :: b₁ :: b₂ :: b₃ :: rest) =
      .absolute (ipmb_load_le32 [b₀, b₁, b₂, b₃]).toInt32 :: delta_records rest := rfl

theorem delta_records_delta (b₀ b₁ : UInt8) (rest : List UInt8) :
    delta_records (1 :: b₀ :: b₁ :: rest) =
      .delta (ipmb_load_le16 [b₀, b₁]).toInt16 :: delta_records rest := by
  rw [delta_records.eq_def]
  rfl

theorem delta_records_run (n : UInt8) (rest : List UInt8) :
    delta_records (2 :: n :: rest) = .run n :: delta_records rest := by
  rw [delta_records.eq_def]
  rfl

theorem delta_records_reset (rest : List UInt8) :
    delta_records (3 :: rest) = .reset :: delta_records rest := by
  rw [delta_records.eq_def]
  rfl

theorem delta_records_unknown {tag : UInt8} {rest : List UInt8} (h₀ : tag ≠ 0) (h₁ : tag ≠ 1) (h₂ : tag ≠ 2)
    (h₃ : tag ≠ 3) : delta_records (tag :: rest) = [] := by
  rw [delta_records.eq_def]
  simp only [if_neg h₀, if_neg h₁, if_neg h₂, if_neg h₃]

section Addition

variable (add : Int32 → Int32 → Except Fault Int32)

/-- The accumulator and the values after a record. -/
def run_record (count : Nat) (acc : Int32) (vals : List Int32) : delta_record → Except Fault (Int32 × List Int32)
  | .absolute v => .ok (v, vals ++ [v])
  | .delta d => do
    let acc ← add acc d.toInt32
    pure (acc, vals ++ [acc])
  | .run n => .ok (acc, vals ++ List.replicate (min n.toNat (count - vals.length)) acc)
  | .reset => .ok (0, vals)

/-- The values that some records stand for, as far as the count asks for them. -/
def run_records (count : Nat) : Int32 → List Int32 → List delta_record → Except Fault (List Int32)
  | _, vals, [] => .ok vals
  | acc, vals, record :: records =>
    if vals.length < count then do
      let (acc, vals) ← run_record add count acc vals record
      run_records count acc vals records
    else .ok vals

end Addition

/-- The decoder gets past its header and its allocation. -/
def ReachesRecords (calloc : Bool) (data : List UInt8) : Prop :=
  12 ≤ data.length ∧ data.take 4 = delta_magic ∧ (ipmb_load_le32 (data.drop 8)).toNat ≤ MAX_COUNT ∧
    calloc = true

/-- The inner loop repeats the accumulator until the count is reached. -/
theorem fill_run_spec {count : Nat} (run : Nat) (acc : Int32) {vals : Buffer Int32} (hroom : count ≤ vals.capacity) :
    ∃ vals', fill_run count acc run vals = .ok vals' ∧ vals'.capacity = vals.capacity ∧
      vals'.written = vals.written ++ List.replicate (min run (count - vals.written.length)) acc := by
  induction run generalizing vals with
  | zero => exact ⟨vals, rfl, rfl, by simp⟩
  | succ run ih =>
    rw [fill_run]
    by_cases hlt : vals.written.length < count
    · obtain ⟨vals₁, hstore, hcapacity₁, hwritten₁⟩ := store_of_le vals [acc] (by
        rw [List.length_singleton]
        omega)
      obtain ⟨vals', hfill, hcapacity', hwritten'⟩ := @ih vals₁ (by omega)
      have hmore : min (run + 1) (count - vals.written.length) =
          min run (count - vals₁.written.length) + 1 := by
        rw [hwritten₁, List.length_append, List.length_singleton]
        omega
      refine ⟨vals', ?_, hcapacity'.trans hcapacity₁, ?_⟩
      · rw [if_pos hlt, hstore, ok_bind, hfill]
      · rw [hwritten', hmore, List.replicate_succ, hwritten₁, List.append_assoc, List.singleton_append]
    · refine ⟨vals, if_neg hlt, rfl, ?_⟩
      rw [Nat.sub_eq_zero_of_le (Nat.not_lt.mp hlt), Nat.min_zero, List.replicate_zero, List.append_nil]

theorem le32_at_of_drop_cons {data rest : List UInt8} {i : Nat} {b₀ b₁ b₂ b₃ : UInt8}
    (h : data.drop i = b₀ :: b₁ :: b₂ :: b₃ :: rest) :
    le32_at data i = .ok (ipmb_load_le32 [b₀, b₁, b₂, b₃]) ∧ i + 4 ≤ data.length ∧ data.drop (i + 4) = rest := by
  refine le32_at_of_drop ?_
  rw [h, ipmb_store_le32_load b₀ b₁ b₂ b₃ []]
  rfl

theorem le16_at_of_drop_cons {data rest : List UInt8} {i : Nat} {b₀ b₁ : UInt8}
    (h : data.drop i = b₀ :: b₁ :: rest) :
    le16_at data i = .ok (ipmb_load_le16 [b₀, b₁]) ∧ i + 2 ≤ data.length ∧ data.drop (i + 2) = rest := by
  have hlength := congrArg List.length h
  rw [List.length_drop, List.length_cons, List.length_cons] at hlength
  have hroom : i + 2 ≤ data.length := by omega
  refine ⟨?_, hroom, ?_⟩
  · rw [le16_at, if_pos hroom, h]
    rfl
  · rw [← List.drop_drop, h]
    rfl

/-- What is left behind a position is shorter than what the loop asks for. -/
theorem short_of_drop {data rest : List UInt8} {i n : Nat} (h : data.drop i = rest) (hshort : rest.length < n) :
    data.length - i < n := by
  rw [← List.length_drop, h]
  exact hshort

theorem run_records_of_full {add : Int32 → Int32 → Except Fault Int32} {count : Nat} (acc : Int32)
    {vals : List Int32} (hfull : ¬vals.length < count) (records : List delta_record) :
    run_records add count acc vals records = .ok vals := by
  cases records with
  | nil => rfl
  | cons record records => rw [run_records, if_neg hfull]

/-- What a round of the decoding loop comes to: it runs the record that its
position is at and goes on behind it, or stops where there is none. -/
inductive Round (add : Int32 → Int32 → Except Fault Int32) (data : List UInt8) (count fuel pos : Nat) (acc : Int32)
    (vals : Buffer Int32) : Except Fault (Buffer Int32) → Prop
  | stops (hrecords : delta_records (data.drop pos) = []) : Round add data count fuel pos acc vals (.ok vals)
  | fails {record : delta_record} {records : List delta_record} {e : Fault}
    (hrecords : delta_records (data.drop pos) = record :: records)
    (hrun : run_record add count acc vals.written record = .error e) :
    Round add data count fuel pos acc vals (.error e)
  | goes_on {record : delta_record} {pos' : Nat} {acc' : Int32} {vals' : Buffer Int32}
    (hrecords : delta_records (data.drop pos) = record :: delta_records (data.drop pos')) (hpos : pos < pos')
    (hrun : run_record add count acc vals.written record = .ok (acc', vals'.written))
    (hroom : count ≤ vals'.capacity) :
    Round add data count fuel pos acc vals (delta_decode_loop add data count fuel pos' acc' vals')

section rounds

variable {add : Int32 → Int32 → Except Fault Int32} {data rest : List UInt8} {count pos : Nat} (fuel : Nat)
  (acc : Int32) {vals : Buffer Int32}

theorem round_absolute (hdata : data.drop pos = 0 :: rest) (hlt : vals.written.length < count)
    (hroom : count ≤ vals.capacity) :
    Round add data count fuel pos acc vals (delta_decode_loop add data count (fuel + 1) pos acc vals) := by
  rw [delta_decode_loop, if_pos ⟨hlt, lt_length_of_drop hdata⟩, byte_at_of_drop hdata, ok_bind, if_pos rfl]
  have hrest := drop_succ_of_drop hdata
  match rest, hdata, hrest with
  | b₀ :: b₁ :: b₂ :: b₃ :: rest, hdata, hrest =>
    obtain ⟨hword, hlength, hdrop⟩ := le32_at_of_drop_cons hrest
    obtain ⟨vals₁, hstore, hcapacity₁, hwritten₁⟩ :=
      store_of_le vals [(ipmb_load_le32 [b₀, b₁, b₂, b₃]).toInt32] (by
        rw [List.length_singleton]
        omega)
    have hrecords : delta_records (data.drop pos) =
        .absolute (ipmb_load_le32 [b₀, b₁, b₂, b₃]).toInt32 :: delta_records (data.drop (pos + 1 + 4)) := by
      rw [hdata, delta_records_absolute, hdrop]
    rw [if_neg (by omega)]
    simp only [hword, hstore, ok_bind]
    exact .goes_on hrecords (by omega) (by rw [run_record, hwritten₁]) (by omega)
  | [b₀, b₁, b₂], hdata, hrest
  | [b₀, b₁], hdata, hrest
  | [b₀], hdata, hrest
  | [], hdata, hrest =>
    rw [if_pos (short_of_drop hrest (by simp))]
    exact .stops (by rw [hdata]; rfl)

theorem round_delta (hdata : data.drop pos = 1 :: rest) (hlt : vals.written.length < count)
    (hroom : count ≤ vals.capacity) :
    Round add data count fuel pos acc vals (delta_decode_loop add data count (fuel + 1) pos acc vals) := by
  rw [delta_decode_loop, if_pos ⟨hlt, lt_length_of_drop hdata⟩, byte_at_of_drop hdata, ok_bind, if_neg (by decide),
    if_pos rfl]
  have hrest := drop_succ_of_drop hdata
  match rest, hdata, hrest with
  | b₀ :: b₁ :: rest, hdata, hrest =>
    obtain ⟨hdelta, hlength, hdrop⟩ := le16_at_of_drop_cons hrest
    have hrecords : delta_records (data.drop pos) =
        .delta (ipmb_load_le16 [b₀, b₁]).toInt16 :: delta_records (data.drop (pos + 1 + 2)) := by
      rw [hdata, delta_records_delta, hdrop]
    rw [if_neg (by omega)]
    simp only [hdelta, ok_bind]
    cases hadd : add acc (ipmb_load_le16 [b₀, b₁]).toInt16.toInt32 with
    | error e => exact .fails hrecords (by rw [run_record, hadd]; rfl)
    | ok acc' =>
      obtain ⟨vals₁, hstore, hcapacity₁, hwritten₁⟩ := store_of_le vals [acc'] (by
        rw [List.length_singleton]
        omega)
      simp only [hstore, ok_bind]
      exact .goes_on hrecords (by omega) (by rw [run_record, hadd, hwritten₁]; rfl) (by omega)
  | [b₀], hdata, hrest
  | [], hdata, hrest =>
    rw [if_pos (short_of_drop hrest (by simp))]
    exact .stops (by rw [hdata]; rfl)

theorem round_run (hdata : data.drop pos = 2 :: rest) (hlt : vals.written.length < count)
    (hroom : count ≤ vals.capacity) :
    Round add data count fuel pos acc vals (delta_decode_loop add data count (fuel + 1) pos acc vals) := by
  rw [delta_decode_loop, if_pos ⟨hlt, lt_length_of_drop hdata⟩, byte_at_of_drop hdata, ok_bind, if_neg (by decide),
    if_neg (by decide), if_pos rfl]
  have hrest := drop_succ_of_drop hdata
  match rest, hdata, hrest with
  | n :: rest, hdata, hrest =>
    have hpos := lt_length_of_drop hrest
    obtain ⟨vals₁, hfill, hcapacity₁, hwritten₁⟩ := fill_run_spec n.toNat acc hroom
    have hrecords : delta_records (data.drop pos) = .run n :: delta_records (data.drop (pos + 1 + 1)) := by
      rw [hdata, delta_records_run, drop_succ_of_drop hrest]
    rw [if_neg (by omega)]
    simp only [byte_at_of_drop hrest, hfill, ok_bind]
    exact .goes_on hrecords (by omega) (by rw [run_record, hwritten₁]) (by omega)
  | [], hdata, hrest =>
    rw [if_pos (List.drop_eq_nil_iff.mp hrest)]
    exact .stops (by rw [hdata]; rfl)

theorem round_reset (hdata : data.drop pos = 3 :: rest) (hlt : vals.written.length < count)
    (hroom : count ≤ vals.capacity) :
    Round add data count fuel pos acc vals (delta_decode_loop add data count (fuel + 1) pos acc vals) := by
  rw [delta_decode_loop, if_pos ⟨hlt, lt_length_of_drop hdata⟩, byte_at_of_drop hdata, ok_bind, if_neg (by decide),
    if_neg (by decide), if_neg (by decide), if_pos rfl]
  have hrecords : delta_records (data.drop pos) = .reset :: delta_records (data.drop (pos + 1)) := by
    rw [hdata, delta_records_reset, drop_succ_of_drop hdata]
  exact .goes_on hrecords (Nat.lt_succ_self pos) rfl hroom

theorem decode_round (hmore : vals.written.length < count ∧ pos < data.length) (hroom : count ≤ vals.capacity) :
    Round add data count fuel pos acc vals (delta_decode_loop add data count (fuel + 1) pos acc vals) := by
  obtain ⟨tag, rest, hdata⟩ := List.exists_cons_of_length_pos (l := data.drop pos) (by
    rw [List.length_drop]
    omega)
  by_cases h₀ : tag = 0
  · subst h₀
    exact round_absolute fuel acc hdata hmore.1 hroom
  by_cases h₁ : tag = 1
  · subst h₁
    exact round_delta fuel acc hdata hmore.1 hroom
  by_cases h₂ : tag = 2
  · subst h₂
    exact round_run fuel acc hdata hmore.1 hroom
  by_cases h₃ : tag = 3
  · subst h₃
    exact round_reset fuel acc hdata hmore.1 hroom
  rw [delta_decode_loop, if_pos hmore, byte_at_of_drop hdata, ok_bind, if_neg h₀, if_neg h₁, if_neg h₂, if_neg h₃]
  exact .stops (by rw [hdata, delta_records_unknown h₀ h₁ h₂ h₃])

end rounds

/-- The decoding loop reads records and does what they stand for. -/
theorem delta_decode_loop_spec {add : Int32 → Int32 → Except Fault Int32} {data : List UInt8} {count : Nat}
    (fuel pos : Nat) (acc : Int32) (vals : Buffer Int32) (hfuel : data.length ≤ pos + fuel)
    (hroom : count ≤ vals.capacity) :
    Buffer.written <$> delta_decode_loop add data count fuel pos acc vals =
      run_records add count acc vals.written (delta_records (data.drop pos)) := by
  induction fuel generalizing pos acc vals with
  | zero =>
    rw [delta_decode_loop, if_neg (by omega), List.drop_eq_nil_of_le (by omega)]
    rfl
  | succ fuel ih =>
    by_cases hmore : vals.written.length < count ∧ pos < data.length
    · have hround : Round add data count fuel pos acc vals _ := decode_round fuel acc hmore hroom
      generalize delta_decode_loop add data count (fuel + 1) pos acc vals = result at hround ⊢
      cases hround with
      | stops hrecords =>
        rw [hrecords]
        rfl
      | fails hrecords hrun =>
        rw [hrecords, run_records, if_pos hmore.1, hrun]
        rfl
      | goes_on hrecords hpos hrun hroom' =>
        rw [ih _ _ _ (by omega) hroom', hrecords, run_records, if_pos hmore.1, hrun]
        rfl
    · rw [delta_decode_loop, if_neg hmore, pure_eq_ok, map_ok]
      by_cases hlt : vals.written.length < count
      · rw [List.drop_eq_nil_of_le (by omega)]
        rfl
      · rw [run_records_of_full acc hlt]

/-- With room for the count the loop does what the records stand for. -/
theorem decode_records_eq {add : Int32 → Int32 → Except Fault Int32} (data : List UInt8) (count : UInt32) :
    Buffer.written <$> delta_decode_loop add data count.toNat data.length 12 0
        (Buffer.alloc (if count = 0 then 1 else count.toNat)) =
      run_records add count.toNat 0 [] (delta_records (data.drop 12)) := by
  refine delta_decode_loop_spec _ _ _ _ (by omega) ?_
  rw [Buffer.capacity_alloc]
  split
  · rename_i hzero
    rw [hzero]
    decide
  · exact Nat.le_refl _

/-- Either the bytes are refused, whatever the addition does, or the records
behind the header are run. -/
theorem decode_with_eq (calloc : Bool) (data : List UInt8) :
    (¬ReachesRecords calloc data ∧ ∃ status, ∀ add, decode_with add calloc data = .ok (status, none)) ∨
      ReachesRecords calloc data ∧ ∀ add, decode_with add calloc data =
        (fun vals => (.IPMB_OK, some vals)) <$> run_records add (ipmb_load_le32 (data.drop 8)).toNat 0 []
          (delta_records (data.drop 12)) := by
  simp only [decode_with, ReachesRecords]
  by_cases hmagic : data.length < 12 ∨ data.take 4 ≠ delta_magic
  · simp only [if_pos hmagic]
    refine .inl ⟨?_, _, fun _ => rfl⟩
    rintro ⟨hlength, htake, _⟩
    obtain hshort | hother := hmagic
    · omega
    · exact hother htake
  · obtain ⟨hlength, htake⟩ := not_or.mp hmagic
    have hcount : le32_at data 8 = .ok (ipmb_load_le32 (data.drop 8)) := if_pos (by omega)
    simp only [if_neg hmagic, hcount, ok_bind]
    by_cases hlimit : (ipmb_load_le32 (data.drop 8)).toNat > MAX_COUNT
    · simp only [if_pos hlimit]
      exact .inl ⟨fun h => absurd h.2.2.1 (by omega), _, fun _ => rfl⟩
    · simp only [if_neg hlimit]
      cases calloc with
      | false => exact .inl ⟨fun h => Bool.noConfusion h.2.2.2, _, fun _ => rfl⟩
      | true =>
        refine .inr ⟨⟨by omega, not_ne_iff.mp htake, by omega, rfl⟩, fun add => ?_⟩
        rw [if_neg (by decide), ← decode_records_eq, Functor.map_map, map_eq_pure_bind]

end ipmb.delta_codec
