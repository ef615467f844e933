import Ipmb.FailedDecodes
import Ipmb.Protocol.FragmentBounds
import Ipmb.Util.OwnedArray

open cursor fallible ownership
open ipmb.byte_read ipmb.checksum ipmb.endian ipmb.extractor ipmb.field_decoder ipmb.frame_reader ipmb.journal
open ipmb.failed_decodes ipmb.owned_array ipmb.transport_layer

namespace ipmb.decoder_memory

def message_entries : Entries ipmb_message_t ipmb_reader_t ipmb_frame_t ipmb_frame_t where
  zero := .zero
  read := fun _ r => (read_frame true).run r
  blocks := 1
  copy := .ok
  read_error := fun _ r rc h => read_frame_errors true r rc h

/-- `ipmb_parse_message` with the blocks it allocates. -/
def parse_message (grants : Nat → Bool) (data : List UInt8) :
    Owning Fault (ipmb_status_t × Output ipmb_message_t ipmb_frame_t) :=
  decode grants (fun alloc => .ok (ipmb_parse_message alloc data)) message_entries (fun out => out.frame_count.toNat)
    { data, pos := IPMB_MESSAGE_HEADER_LEN }

def journal_entries : Entries ipmb_journal_memory ipmb_reader_t ipmb_journal_record_t ipmb_journal_record_t where
  zero := .zero
  read := fun _ r => (read_record true).run r
  blocks := 1
  copy := .ok
  read_error := fun _ r rc h => read_record_refuses true r rc h

/-- `ipmb_journal_parse` with the blocks it allocates. -/
def journal_parse (grants : Nat → Bool) (data : List UInt8) :
    Owning Fault (ipmb_status_t × Output ipmb_journal_memory ipmb_journal_record_t) :=
  decode grants (fun alloc => .ok (ipmb_journal_parse alloc data)) journal_entries (fun out => out.record_count.toNat)
    { data := data.drop 4, pos := 4 }

/-- The name and the value of a point are requested before either pointer is
looked at. -/
def telemetry_entries : Entries ipmb_telemetry_batch_t ipmb_reader_t ipmb_telemetry_point_t ipmb_telemetry_point_t where
  zero := .zero
  read := fun _ r => (read_point true true).run r
  blocks := 2
  copy := .ok
  read_error := fun _ r rc h => read_point_refuses true true r rc h

/-- `ipmb_extract_telemetry` with the blocks it allocates. -/
def extract_telemetry (grants : Nat → Bool) (data : List UInt8) :
    Owning Fault (ipmb_status_t × Output ipmb_telemetry_batch_t ipmb_telemetry_point_t) :=
  decode grants (fun alloc => .ok (ipmb_extract_telemetry alloc data)) telemetry_entries
    (fun out => out.point_count.toNat) { data := data.drop 4, pos := 4 }

/-- The check of a field, in front of its block. -/
def read_field (payload : List UInt8) (i : Nat) : Except ipmb_status_t (UInt16 × UInt16) :=
  if (entry payload i).1.toNat + (entry payload i).2.toNat > payload.length then .error .IPMB_ERR_INVALID
  else .ok (entry payload i)

/-- The copy of a field, behind its block. -/
def copy_field (payload : List UInt8) (offset length : UInt16) : Except Fault ipmb_register_field_t :=
  match read_range payload (data_start payload + offset.toNat) length.toNat with
  | .error (.fault f) => .error f
  | .error (.status _) => .error .readOutOfBounds
  | .ok bytes => .ok { offset, length, bytes }

def map_entries (payload : List UInt8) : Entries ipmb_register_map_t Unit (UInt16 × UInt16) ipmb_register_field_t where
  zero := .zero
  read := fun i s => (fun v => (v, s)) <$> read_field payload i
  blocks := 1
  copy := fun v => copy_field payload v.1 v.2
  read_error := by
    intro i s rc h
    rw [read_field] at h
    split at h
    · cases h
      decide
    · cases h

/-- `ipmb_decode_register_map` with the blocks it allocates. -/
def decode_register_map (grants : Nat → Bool) (payload : List UInt8) :
    Owning Fault (ipmb_status_t × Output ipmb_register_map_t ipmb_register_field_t) :=
  decode grants (fun alloc => ipmb_decode_register_map alloc payload) (map_entries payload)
    (fun out => out.field_count.toNat) ()

/-- A check behind a decoder. -/
theorem run_then_reject {A : Type} {p : Read A} {cond : Prop} [Decidable cond] {rc : ipmb_status_t}
    (c : ipmb_reader_t) :
    (do let a ← p; reject_if cond rc; pure a).run c =
      p.run c >>= fun ac => if cond then .error rc else .ok ac := by
  rw [StateT.run_bind]
  cases p.run c with
  | error rc' => rfl
  | ok ac =>
    rw [reject_if, ok_bind]
    split <;> rfl

theorem reject_if_holds {A β ε : Type} {cond : Prop} [Decidable cond] {e : ε} (h : cond)
    (q : Unit → Decoder ε β A) : reject_if cond e >>= q = fun _ => .error e := by
  rw [reject_if, if_pos h]
  rfl

theorem granted_passes : (reject_if (true = false) .IPMB_ERR_ALLOC : Read Unit) = pure () := rfl

theorem read_frame_eq (malloc : Bool) :
    read_frame malloc = (do
      let f ← read_frame true
      reject_if (malloc = false) .IPMB_ERR_ALLOC
      pure f) := by
  simp only [read_frame, granted_passes, bind_assoc, pure_bind]

theorem read_record_eq (malloc : Bool) :
    read_record malloc = (do
      let rec_ ← read_record true
      reject_if (malloc = false) .IPMB_ERR_ALLOC
      pure rec_) := by
  simp only [read_record, granted_passes, bind_assoc, pure_bind]

theorem read_point_eq (malloc_name malloc_value : Bool) :
    read_point malloc_name malloc_value = (do
      let point ← read_point true true
      reject_if (malloc_name = false ∨ malloc_value = false) .IPMB_ERR_ALLOC
      pure point) := by
  have hgranted (name : List UInt8) :
      (reject_if (copy_name true name = none ∨ true = false) .IPMB_ERR_ALLOC : Read Unit) = pure () := rfl
  by_cases hrefused : malloc_name = false ∨ malloc_value = false
  · have hcopy (name : List UInt8) : copy_name malloc_name name = none ∨ malloc_value = false := by
      refine hrefused.imp_left fun hname => ?_
      rw [hname]
      rfl
    simp only [read_point, hgranted, bind_assoc, pure_bind, reject_if_holds hrefused, reject_if_holds (hcopy _)]
  · obtain ⟨hname, hvalue⟩ := not_or.mp hrefused
    rw [Bool.not_eq_false] at hname hvalue
    subst hname hvalue
    rw [reject_if, if_neg (by decide)]
    simp only [pure_bind, bind_pure]

theorem none_mem_answers_one {grants : Nat → Bool} {n : Nat} : none ∈ answers grants n 1 ↔ grants n = false := by
  simp [none_mem_answers]

theorem none_mem_answers_two {grants : Nat → Bool} {n : Nat} :
    none ∈ answers grants n 2 ↔ grants n = false ∨ grants (n + 1) = false := by
  rw [none_mem_answers]
  constructor
  · rintro ⟨i, hi, hrefused⟩
    obtain rfl | rfl : i = 0 ∨ i = 1 := by omega
    · exact .inl hrefused
    · exact .inr hrefused
  · rintro (hrefused | hrefused)
    · exact ⟨0, by decide, hrefused⟩
    · exact ⟨1, by decide, hrefused⟩

/-- A decoder without faults that reads its entries forward. -/
theorem begins_of_reader {H W : Type} {parse : Allocator → ipmb_status_t × H} {view : H → List W → H}
    {d : Entries H ipmb_reader_t W W} {count : H → Nat} {r : ipmb_reader_t} {p : Allocator → Nat → Read W}
    (hcopy : d.copy = .ok)
    (hp : ∀ alloc i c, (p alloc i).run c = d.read i c >>= fun wc =>
      if none ∈ answers alloc (1 + i * d.blocks) d.blocks then .error .IPMB_ERR_ALLOC else .ok wc)
    (h : (∃ rc header, rc ≠ .IPMB_OK ∧ rc ≠ .IPMB_ERR_ALLOC ∧ view header [] = header ∧
        ∀ alloc, parse alloc = (rc, header)) ∨
      ∃ header, view header [] = header ∧ ∀ alloc, parse alloc =
        if alloc 0 = false then (.IPMB_ERR_ALLOC, header)
        else match (times (p alloc) 0 (count header)).run r with
          | .error rc => (rc, d.zero)
          | .ok (ws, _) => (.IPMB_OK, view header ws)) :
    Begins (fun alloc => .ok (parse alloc)) view d count r := by
  obtain ⟨rc, header, hrc, halloc, hview, hparse⟩ | ⟨header, hview, hparse⟩ := h
  · exact .inl ⟨rc, header, hrc, halloc, hview, fun alloc => congrArg Except.ok (hparse alloc)⟩
  · refine .inr ⟨header, hview, fun alloc => ?_⟩
    dsimp only
    have hvalues : d.values alloc (count header) (1 + 0 * d.blocks) 0 r =
        .ok (Prod.fst <$> (cursor.times (p alloc) 0 (count header)).run r) :=
      values_times (fun v => congrFun hcopy v) (hp alloc)
    rw [Nat.zero_mul] at hvalues
    rw [hvalues, hparse]
    by_cases hrefused : alloc 0 = false
    · rw [if_pos hrefused, if_pos hrefused]
    · rw [if_neg hrefused, if_neg hrefused]
      cases (times (p alloc) 0 (count header)).run r with
      | error rc => rfl
      | ok wsc => rfl

/-- The structure after the header. -/
def message_header (data : List UInt8) : ipmb_message_t where
  version := ipmb_load_le16 (data.drop 4)
  flags := ipmb_load_le16 (data.drop 6)
  frame_count := ipmb_load_le32 (data.drop 8)
  session_id := ipmb_load_le64 (data.drop 12)
  sequence := ipmb_load_le32 (data.drop 20)
  frames := []

theorem ipmb_parse_message_header {data : List UInt8} (hlength : ¬data.length < IPMB_MESSAGE_HEADER_LEN)
    (hmagic : ¬data.take 4 ≠ message_magic) (alloc : Allocator) :
    ipmb_parse_message alloc data =
      if (message_header data).frame_count.toNat > IPMB_MAX_FRAMES then (.IPMB_ERR_LIMIT, message_header data)
      else if ipmb_crc32 (data.take 24) ≠ ipmb_load_le32 (data.drop 24) then (.IPMB_ERR_BAD_CRC, message_header data)
      else if alloc 0 = false then (.IPMB_ERR_ALLOC, message_header data)
      else match (times (fun i => read_frame (alloc (i + 1))) 0 (message_header data).frame_count.toNat).run
          { data, pos := IPMB_MESSAGE_HEADER_LEN } with
        | .error rc => (rc, .zero)
        | .ok (frames, _) => (.IPMB_OK, { message_header data with frames }) := by
  have hheader : 28 ≤ data.length := not_lt.mp hlength
  rw [ipmb_parse_message, if_neg hlength, if_neg hmagic, ipmb_reader_init, ipmb_read_le16, ipmb_read_le32,
    ipmb_read_le64, read_width_behind (by omega)]
  dsimp only
  rw [read_width_behind (by omega)]
  dsimp only
  rw [read_width_behind (by omega)]
  dsimp only
  rw [read_width_behind (by omega)]
  dsimp only
  rw [read_width_behind (by omega)]
  dsimp only
  rw [read_width_behind (by omega)]
  rfl

theorem parse_message_begins (data : List UInt8) :
    Begins (fun alloc => .ok (ipmb_parse_message alloc data)) (fun out frames => { out with frames }) message_entries
      (fun out => out.frame_count.toNat) { data, pos := IPMB_MESSAGE_HEADER_LEN } := by
  refine begins_of_reader (p := fun alloc i => read_frame (alloc (i + 1))) rfl ?_ ?_
  · intro alloc i c
    rw [read_frame_eq, run_then_reject]
    simp only [message_entries, none_mem_answers_one, Nat.mul_one, Nat.add_comm 1]
  by_cases hlength : data.length < IPMB_MESSAGE_HEADER_LEN
  · refine .inl ⟨.IPMB_ERR_SHORT_READ, .zero, by decide, by decide, rfl, fun alloc => ?_⟩
    rw [ipmb_parse_message, if_pos hlength]
  by_cases hmagic : data.take 4 ≠ message_magic
  · refine .inl ⟨.IPMB_ERR_BAD_MAGIC, .zero, by decide, by decide, rfl, fun alloc => ?_⟩
    rw [ipmb_parse_message, if_neg hlength, if_pos hmagic]
  by_cases hlimit : (message_header data).frame_count.toNat > IPMB_MAX_FRAMES
  · refine .inl ⟨.IPMB_ERR_LIMIT, message_header data, by decide, by decide, rfl, fun alloc => ?_⟩
    rw [ipmb_parse_message_header hlength hmagic, if_pos hlimit]
  by_cases hcrc : ipmb_crc32 (data.take 24) ≠ ipmb_load_le32 (data.drop 24)
  · refine .inl ⟨.IPMB_ERR_BAD_CRC, message_header data, by decide, by decide, rfl, fun alloc => ?_⟩
    rw [ipmb_parse_message_header hlength hmagic, if_neg hlimit, if_pos hcrc]
  refine .inr ⟨message_header data, rfl, fun alloc => ?_⟩
  rw [ipmb_parse_message_header hlength hmagic, if_neg hlimit, if_neg hcrc]
  cases (times (fun i => read_frame (alloc (i + 1))) 0 (message_header data).frame_count.toNat).run
    { data, pos := IPMB_MESSAGE_HEADER_LEN } <;> rfl

def journal_header (data : List UInt8) : ipmb_journal_memory where
  version := ipmb_load_le16 (data.drop 4)
  record_count := ipmb_load_le16 (data.drop 6)
  records := []

theorem ipmb_journal_parse_header {data : List UInt8} (hmagic : ¬(data.length < 8 ∨ data.take 4 ≠ journal_magic))
    (alloc : Allocator) :
    ipmb_journal_parse alloc data =
      if (journal_header data).record_count.toNat > MAX_RECORDS then (.IPMB_ERR_LIMIT, journal_header data)
      else if alloc 0 = false then (.IPMB_ERR_ALLOC, journal_header data)
      else match (times (fun i => read_record (alloc (i + 1))) 0 (journal_header data).record_count.toNat).run
          { data := data.drop 4, pos := 4 } with
        | .error rc => (rc, .zero)
        | .ok (records, _) => (.IPMB_OK, { journal_header data with records }) := by
  obtain ⟨hlength, _⟩ := not_or.mp hmagic
  rw [ipmb_journal_parse, if_neg hmagic, ipmb_reader_init, ipmb_read_le16, read_width_behind (by omega)]
  dsimp only
  rw [read_width_behind (by omega)]
  rfl

theorem journal_parse_begins (data : List UInt8) :
    Begins (fun alloc => .ok (ipmb_journal_parse alloc data)) (fun out records => { out with records }) journal_entries
      (fun out => out.record_count.toNat) { data := data.drop 4, pos := 4 } := by
  refine begins_of_reader (p := fun alloc i => read_record (alloc (i + 1))) rfl ?_ ?_
  · intro alloc i c
    rw [read_record_eq, run_then_reject]
    simp only [journal_entries, none_mem_answers_one, Nat.mul_one, Nat.add_comm 1]
  by_cases hmagic : data.length < 8 ∨ data.take 4 ≠ journal_magic
  · refine .inl ⟨.IPMB_ERR_BAD_MAGIC, .zero, by decide, by decide, rfl, fun alloc => ?_⟩
    rw [ipmb_journal_parse, if_pos hmagic]
  by_cases hlimit : (journal_header data).record_count.toNat > MAX_RECORDS
  · refine .inl ⟨.IPMB_ERR_LIMIT, journal_header data, by decide, by decide, rfl, fun alloc => ?_⟩
    rw [ipmb_journal_parse_header hmagic, if_pos hlimit]
  refine .inr ⟨journal_header data, rfl, fun alloc => ?_⟩
  rw [ipmb_journal_parse_header hmagic, if_neg hlimit]
  cases (times (fun i => read_record (alloc (i + 1))) 0 (journal_header data).record_count.toNat).run
    { data := data.drop 4, pos := 4 } <;> rfl

def telemetry_header (data : List UInt8) : ipmb_telemetry_batch_t where
  schema := ipmb_load_le16 (data.drop 4)
  point_count := ipmb_load_le16 (data.drop 6)
  points := []

theorem ipmb_extract_telemetry_header {data : List UInt8}
    (hmagic : ¬(data.length < 8 ∨ data.take 4 ≠ telemetry_magic)) (alloc : Allocator) :
    ipmb_extract_telemetry alloc data =
      if (telemetry_header data).point_count.toNat > MAX_POINTS then (.IPMB_ERR_LIMIT, telemetry_header data)
      else if alloc 0 = false then (.IPMB_ERR_ALLOC, telemetry_header data)
      else match (times (fun i => read_point (alloc (2 * i + 1)) (alloc (2 * i + 2))) 0
          (telemetry_header data).point_count.toNat).run { data := data.drop 4, pos := 4 } with
        | .error rc => (rc, .zero)
        | .ok (points, _) => (.IPMB_OK, { telemetry_header data with points }) := by
  obtain ⟨hlength, _⟩ := not_or.mp hmagic
  rw [ipmb_extract_telemetry, if_neg hmagic, ipmb_reader_init, ipmb_read_le16, read_width_behind (by omega)]
  dsimp only
  rw [read_width_behind (by omega)]
  rfl

theorem extract_telemetry_begins (data : List UInt8) :
    Begins (fun alloc => .ok (ipmb_extract_telemetry alloc data)) (fun out points => { out with points })
      telemetry_entries (fun out => out.point_count.toNat) { data := data.drop 4, pos := 4 } := by
  refine begins_of_reader (p := fun alloc i => read_point (alloc (2 * i + 1)) (alloc (2 * i + 2))) rfl ?_ ?_
  · intro alloc i c
    have hfirst : 1 + i * 2 = 2 * i + 1 := by omega
    rw [read_point_eq, run_then_reject]
    simp only [telemetry_entries, none_mem_answers_two, hfirst]
  by_cases hmagic : data.length < 8 ∨ data.take 4 ≠ telemetry_magic
  · refine .inl ⟨.IPMB_ERR_BAD_MAGIC, .zero, by decide, by decide, rfl, fun alloc => ?_⟩
    rw [ipmb_extract_telemetry, if_pos hmagic]
  by_cases hlimit : (telemetry_header data).point_count.toNat > MAX_POINTS
  · refine .inl ⟨.IPMB_ERR_LIMIT, telemetry_header data, by decide, by decide, rfl, fun alloc => ?_⟩
    rw [ipmb_extract_telemetry_header hmagic, if_pos hlimit]
  refine .inr ⟨telemetry_header data, rfl, fun alloc => ?_⟩
  rw [ipmb_extract_telemetry_header hmagic, if_neg hlimit]
  cases (times (fun i => read_point (alloc (2 * i + 1)) (alloc (2 * i + 2))) 0
    (telemetry_header data).point_count.toNat).run { data := data.drop 4, pos := 4 } <;> rfl

/-- A round of the field loop: the check, the block, the copy. -/
theorem decode_field_split (malloc : Bool) (payload : List UInt8) (i : Nat) :
    decode_field malloc payload (table_start payload) (data_start payload) i =
      match read_field payload i with
      | .error rc => .error (.status rc)
      | .ok v =>
        if malloc = false then .error (.status .IPMB_ERR_ALLOC)
        else match copy_field payload v.1 v.2 with
          | .error f => .error (.fault f)
          | .ok field => .ok field := by
  have hentry : table_entry payload (table_start payload) i = entry payload i := rfl
  rw [decode_field, hentry, read_field]
  generalize entry payload i = v
  obtain ⟨off, len⟩ := v
  dsimp only
  by_cases hfits : off.toNat + len.toNat > payload.length
  · rw [if_pos hfits, if_pos hfits]
    rfl
  · rw [if_neg hfits, if_neg hfits]
    by_cases hrefused : malloc = false
    · simp only [if_pos hrefused]
      rfl
    · simp only [if_neg hrefused, copy_field, read_range]
      split <;> rfl

/-- The loop over the fields, with what is left of them. -/
theorem map_values_eq (payload : List UInt8) (alloc : Allocator) (left : Nat) {i : Nat} :
    (map_entries payload).values alloc left (1 + i) i () =
      match (List.range' i left).mapM
          (fun i => decode_field (alloc (i + 1)) payload (table_start payload) (data_start payload) i) with
      | .error (.status rc) => .ok (.error rc)
      | .error (.fault f) => .error f
      | .ok fields => .ok (.ok fields) := by
  induction left generalizing i with
  | zero => rfl
  | succ left ih =>
    have hblocks : (map_entries payload).blocks = 1 := rfl
    have hread : (map_entries payload).read i () = (fun v => (v, ())) <$> read_field payload i := rfl
    rw [Entries.values, List.range'_succ, List.mapM_cons, decode_field_split, hread, hblocks, Nat.add_comm 1 i]
    simp only [none_mem_answers_one]
    cases read_field payload i with
    | error rc => rfl
    | ok v =>
      by_cases hrefused : alloc (i + 1) = false
      · simp only [map_ok, if_pos hrefused]
        rfl
      · have hrest := ih (i := i + 1)
        rw [Nat.add_comm 1] at hrest
        have hcopy : (map_entries payload).copy v = copy_field payload v.1 v.2 := rfl
        simp only [map_ok, if_neg hrefused, hcopy, hrest]
        cases copy_field payload v.1 v.2 with
        | error f => rfl
        | ok field =>
          simp only [ok_bind]
          cases (List.range' (i + 1) left).mapM
              (fun i => decode_field (alloc (i + 1)) payload (table_start payload) (data_start payload) i) with
          | error stop => cases stop <;> rfl
          | ok fields => rfl

theorem decode_register_map_begins (payload : List UInt8) :
    Begins (fun alloc => ipmb_decode_register_map alloc payload) (fun out fields => { out with fields })
      (map_entries payload) (fun out => out.field_count.toNat) () := by
  by_cases hmap : HoldsMap payload
  swap
  · by_cases hlength : payload.length < 10
    · refine .inl ⟨.IPMB_ERR_SHORT_READ, .zero, by decide, by decide, rfl, fun alloc => ?_⟩
      dsimp only
      rw [ipmb_decode_register_map, if_pos hlength]
    by_cases hmagic : payload.take 4 ≠ map_magic
    · refine .inl ⟨.IPMB_ERR_BAD_MAGIC, .zero, by decide, by decide, rfl, fun alloc => ?_⟩
      dsimp only
      rw [ipmb_decode_register_map, if_neg hlength, if_pos hmagic]
    let out : ipmb_register_map_t := { map_id := ipmb_load_le16 (payload.drop 4), field_count := 0, fields := [] }
    by_cases hlimit : (ipmb_load_le16 (payload.drop 8)).toNat > MAX_FIELDS
    · refine .inl ⟨.IPMB_ERR_LIMIT, out, by decide, by decide, rfl, fun alloc => ?_⟩
      dsimp only
      rw [ipmb_decode_register_map, if_neg hlength, if_neg hmagic]
      dsimp only
      rw [if_pos hlimit]
      rfl
    · refine .inl ⟨.IPMB_ERR_SHORT_READ, out, by decide, by decide, rfl, fun alloc => ?_⟩
      have htable : ¬data_start payload ≤ payload.length := fun h =>
        hmap ⟨not_lt.mp hlength, not_not.mp hmagic, h⟩
      unfold data_start table_start field_count at htable
      dsimp only
      rw [ipmb_decode_register_map, if_neg hlength, if_neg hmagic]
      dsimp only
      rw [if_neg hlimit, if_pos (by omega)]
      rfl
  by_cases hlimit : field_count payload > MAX_FIELDS
  · exact .inl ⟨_, _, by decide, by decide, rfl, fun alloc => ipmb_decode_register_map_limit alloc hmap hlimit⟩
  rw [not_lt] at hlimit
  refine .inr ⟨{
    map_id := ipmb_load_le16 (payload.drop 4)
    field_count := ipmb_load_le16 (payload.drop 8)
    fields := [] }, rfl, fun alloc => ?_⟩
  dsimp only
  by_cases hrefused : alloc 0 = false
  · rw [if_pos hrefused, ipmb_decode_register_map_refused hmap hlimit hrefused]
  · rw [if_neg hrefused, ipmb_decode_register_map_loop hmap hlimit (Bool.not_eq_false _ ▸ hrefused)]
    have hvalues := map_values_eq payload alloc (field_count payload) (i := 0)
    rw [← List.range_eq_range'] at hvalues
    rw [Nat.add_zero] at hvalues
    rw [field_count] at hvalues ⊢
    rw [hvalues]
    cases (List.range (ipmb_load_le16 (payload.drop 8)).toNat).mapM
        (fun i => decode_field (alloc (i + 1)) payload (table_start payload) (data_start payload) i) with
    | error stop => cases stop <;> rfl
    | ok fields => rfl

/-- Every byte that was copied went into the buffer. -/
def Reassembly.Within (total_size : UInt32) (r : Reassembly) : Prop :=
  ∀ copy ∈ r.copies, ∀ k < copy.bytes.length, copy.dst + k < total_size.toNat

instance (total_size : UInt32) (r : Reassembly) : Decidable (Reassembly.Within total_size r) := by
  unfold Reassembly.Within
  infer_instance

/-- A copy beyond the buffer ends the execution. -/
def within (total_size : UInt32) (r : Reassembly) : Except Fault Reassembly :=
  if Reassembly.Within total_size r then .ok r else .error .writeOutOfBounds

theorem within_of_no_copies {total_size : UInt32} {r : Reassembly} (h : r.copies = []) :
    within total_size r = .ok r := by
  rw [within, if_pos]
  intro copy hcopy
  rw [h] at hcopy
  cases hcopy

/-- `ipmb_reassemble_fragments` with its buffer. -/
def reassemble_fragments (grants : Nat → Bool) (frags : List ipmb_fragment_t) (total_size : UInt32) :
    Owning Fault (Reassembly × Option Nat) :=
  if total_size.toNat > MAX_TOTAL_SIZE ∨ frags.length > MAX_FRAGMENTS then
    pure ({ status := .IPMB_ERR_LIMIT, out := none, copies := [] }, none)
  else do
    let buf ← malloc grants
    if buf = none then pure ({ status := .IPMB_ERR_ALLOC, out := none, copies := [] }, none)
    else
      let r ← lift (within total_size (reassemble_loop total_size frags (List.replicate total_size.toNat 0)))
      if r.status = .IPMB_OK then pure (r, buf)
      else
        free .doubleFree buf
        pure (r, none)

/-- `ipmb_parse_fragment_payload` with the table, which it releases at its end, and
the buffer, which it leaves to the caller. -/
def parse_fragment_payload (grants : Nat → Bool) (payload : List UInt8) : Owning Fault (Reassembly × Option Nat) :=
  if payload.length < 10 ∨ payload.take 4 ≠ fragment_magic then
    pure ({ status := .IPMB_ERR_BAD_MAGIC, out := none, copies := [] }, none)
  else do
    let total := ipmb_load_le32 (payload.drop 4)
    let count := ipmb_load_le16 (payload.drop 8)
    let frags ← malloc grants
    if frags = none then pure ({ status := .IPMB_ERR_ALLOC, out := none, copies := [] }, none)
    else
      match (times (fun _ => read_fragment) 0 count.toNat).run { data := payload, pos := 10 } with
      | .error status =>
        free .doubleFree frags
        pure ({ status, out := none, copies := [] }, none)
      | .ok (fs, _) =>
        let r ← reassemble_fragments grants fs total
        free .doubleFree frags
        pure r

theorem reassemble_fragments_spec (grants : Nat → Bool) (frags : List ipmb_fragment_t) (total_size : UInt32) (n : Nat) :
    Triple (fun e => within total_size (ipmb_reassemble_fragments (grants n) frags total_size) = .error e) n 0
      (reassemble_fragments grants frags total_size) fun r _ own =>
        within total_size (ipmb_reassemble_fragments (grants n) frags total_size) = .ok r.1 ∧
          own = blocks [r.2] ∧ (r.2 = none ↔ r.1.status ≠ .IPMB_OK) := by
  rw [reassemble_fragments, ipmb_reassemble_fragments]
  by_cases hlimit : total_size.toNat > MAX_TOTAL_SIZE ∨ frags.length > MAX_FRAGMENTS
  · rw [if_pos hlimit, if_pos hlimit]
    exact Triple.pure ⟨within_of_no_copies rfl, rfl, iff_of_true rfl (by decide)⟩
  rw [if_neg hlimit, if_neg hlimit]
  refine Triple.bind (Triple.malloc (Q := fun p n' own =>
    (grants n = false ∧ p = none ∨ grants n = true ∧ p = some n) ∧ n' = n + 1 ∧ own = blocks [p])
    (fun h => ⟨.inl ⟨h, rfl⟩, rfl, rfl⟩) fun h => ⟨.inr ⟨h, rfl⟩, rfl, rfl⟩) ?_
  rintro _ _ _ ⟨⟨hgranted, rfl⟩ | ⟨hgranted, rfl⟩, rfl, rfl⟩
  · rw [if_pos rfl, hgranted]
    exact Triple.pure ⟨within_of_no_copies rfl, rfl, iff_of_true rfl (by decide)⟩
  rw [if_neg (Option.some_ne_none n), hgranted, if_neg (by decide)]
  refine Triple.bind (Triple.lift (Q := fun r n' own => within total_size (reassemble_loop total_size frags
    (List.replicate total_size.toNat 0)) = .ok r ∧ n' = n + 1 ∧ own = blocks [some n]) (fun e he => he)
    fun r hr => ⟨hr, rfl, rfl⟩) ?_
  rintro r _ _ ⟨hr, rfl, rfl⟩
  by_cases hok : r.status = .IPMB_OK
  · rw [if_pos hok]
    exact Triple.pure ⟨hr, rfl, iff_of_false (Option.some_ne_none n) (not_not.mpr hok)⟩
  · rw [if_neg hok]
    refine Triple.bind (Triple.free_last (Q := fun _ _ own => own = 0) rfl) ?_
    rintro _ _ _ rfl
    exact Triple.pure ⟨hr, rfl, iff_of_true rfl hok⟩

/-- The table is released whatever happens, and the buffer is there exactly after a
success. -/
theorem parse_fragment_payload_spec (grants : Nat → Bool) (payload : List UInt8) (n : Nat) :
    Triple (fun e => within (ipmb_load_le32 (payload.drop 4))
        (ipmb_parse_fragment_payload (fun i => grants (n + i)) payload) = .error e) n 0
      (parse_fragment_payload grants payload) fun r _ own =>
        within (ipmb_load_le32 (payload.drop 4)) (ipmb_parse_fragment_payload (fun i => grants (n + i)) payload) =
          .ok r.1 ∧ own = blocks [r.2] ∧ (r.2 = none ↔ r.1.status ≠ .IPMB_OK) := by
  rw [parse_fragment_payload, ipmb_parse_fragment_payload]
  by_cases hmagic : payload.length < 10 ∨ payload.take 4 ≠ fragment_magic
  · rw [if_pos hmagic, if_pos hmagic]
    exact Triple.pure ⟨within_of_no_copies rfl, rfl, iff_of_true rfl (by decide)⟩
  rw [if_neg hmagic, if_neg hmagic]
  refine Triple.bind (Triple.malloc (Q := fun p n' own =>
    (grants n = false ∧ p = none ∨ grants n = true ∧ p = some n) ∧ n' = n + 1 ∧ own = blocks [p])
    (fun h => ⟨.inl ⟨h, rfl⟩, rfl, rfl⟩) fun h => ⟨.inr ⟨h, rfl⟩, rfl, rfl⟩) ?_
  rintro _ _ _ ⟨⟨hgranted, rfl⟩ | ⟨hgranted, rfl⟩, rfl, rfl⟩
  · rw [if_pos rfl]
    dsimp only
    rw [Nat.add_zero, if_pos hgranted]
    exact Triple.pure ⟨within_of_no_copies rfl, rfl, iff_of_true rfl (by decide)⟩
  rw [if_neg (Option.some_ne_none n)]
  dsimp only
  rw [Nat.add_zero, if_neg (by rw [hgranted]; decide)]
  cases hwalk : (times (fun _ => read_fragment) 0 (ipmb_load_le16 (payload.drop 8)).toNat).run
      { data := payload, pos := 10 } with
  | error status =>
    have hstatus : status ≠ .IPMB_OK := ErrorsIn.times (fun _ => read_fragment_errors) _ _ _ _ hwalk
    refine Triple.bind (Triple.free_last (Q := fun _ _ own => own = 0) rfl) ?_
    rintro _ _ _ rfl
    exact Triple.pure ⟨within_of_no_copies rfl, rfl, iff_of_true rfl hstatus⟩
  | ok fsr =>
    obtain ⟨fs, r'⟩ := fsr
    have hspec := reassemble_fragments_spec grants fs (ipmb_load_le32 (payload.drop 4)) (n + 1)
    have hframed := hspec.frame (blocks [some n])
    rw [zero_add] at hframed
    refine Triple.bind hframed ?_
    rintro r n' _ ⟨_, ⟨hr, rfl, hnull⟩, rfl⟩
    rw [add_comm (blocks [r.2])]
    refine Triple.bind (Triple.free (Q := fun _ _ own => own = blocks [r.2]) rfl) ?_
    rintro _ _ _ rfl
    exact Triple.pure ⟨hr, rfl, hnull⟩

/-- On memory the decoders do what they do on values when their requests are
answered in the same way, whatever else is allocated. A success owns the array
and the blocks of every entry, or the buffer, and a failure owns nothing. -/
theorem decoders_implement (grants : Nat → Bool) (data : List UInt8) :
    Implements grants 1 (fun out frames => { out with frames }) (parse_message grants data)
      (fun alloc => .ok (ipmb_parse_message alloc data)) ∧
    Implements grants 1 (fun out records => { out with records }) (journal_parse grants data)
      (fun alloc => .ok (ipmb_journal_parse alloc data)) ∧
    Implements grants 2 (fun out points => { out with points }) (extract_telemetry grants data)
      (fun alloc => .ok (ipmb_extract_telemetry alloc data)) ∧
    Implements grants 1 (fun out fields => { out with fields }) (decode_register_map grants data)
      (fun alloc => ipmb_decode_register_map alloc data) ∧
    ∀ n, Triple (fun e => within (ipmb_load_le32 (data.drop 4))
          (ipmb_parse_fragment_payload (fun i => grants (n + i)) data) = .error e) n 0
        (parse_fragment_payload grants data) fun r _ own =>
          within (ipmb_load_le32 (data.drop 4)) (ipmb_parse_fragment_payload (fun i => grants (n + i)) data) = .ok r.1 ∧
            own = blocks [r.2] ∧ (r.2 = none ↔ r.1.status ≠ .IPMB_OK) :=
  ⟨(parse_message_begins data).implements rfl grants, (journal_parse_begins data).implements rfl grants,
    (extract_telemetry_begins data).implements rfl grants, (decode_register_map_begins data).implements rfl grants,
    parse_fragment_payload_spec grants data⟩

end ipmb.decoder_memory
