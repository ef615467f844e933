import Ipmb.Protocol.FrameReader

open cursor
open ipmb.endian ipmb.byte_read ipmb.checksum

namespace ipmb.frame_reader

/-- The twenty header bytes of a frame on the wire. -/
def ipmb_frame_t.header (f : ipmb_frame_t) : List UInt8 :=
  ipmb_store_le16 f.frame_type ++ ipmb_store_le16 f.frame_flags ++
    ipmb_store_le32 (UInt32.ofNat f.payload.length) ++ ipmb_store_le32 f.source_addr ++
    ipmb_store_le32 f.dest_addr ++ ipmb_store_le16 f.priority ++ ipmb_store_le16 f.ttl

/-- A frame on the wire: header, payload, and the checksum of both. -/
def ipmb_frame_t.enc (f : ipmb_frame_t) : List UInt8 :=
  f.header ++ f.payload ++ ipmb_store_le32 (ipmb_crc32 (f.header ++ f.payload))

/-- What a frame of a container satisfies: its payload is within the limit and
of the recorded length, and it carries its own checksum. -/
structure ipmb_frame_t.WellFormed (f : ipmb_frame_t) : Prop where
  payload_le : f.payload.length ≤ IPMB_MAX_PAYLOAD
  payload_len_eq : f.payload_len = f.payload.length
  crc_eq : f.crc = ipmb_crc32 (f.header ++ f.payload)

/-- A message within the limits of the format. -/
structure Container where
  message : ipmb_message_t
  frames_le : message.frames.length ≤ IPMB_MAX_FRAMES
  frame_count_eq : message.frame_count.toNat = message.frames.length
  frames_wellFormed : ∀ f ∈ message.frames, f.WellFormed

/-- The first 24 bytes of a container, those its header checksum covers. -/
def ipmb_message_t.header (m : ipmb_message_t) : List UInt8 :=
  message_magic ++ ipmb_store_le16 m.version ++ ipmb_store_le16 m.flags ++
    ipmb_store_le32 m.frame_count ++ store_le64 m.session_id ++ ipmb_store_le32 m.sequence

def Container.enc (m : Container) : List UInt8 :=
  m.message.header ++ ipmb_store_le32 (ipmb_crc32 m.message.header) ++
    m.message.frames.flatMap ipmb_frame_t.enc

@[simp] theorem ipmb_frame_t.length_header (f : ipmb_frame_t) :
    f.header.length = IPMB_FRAME_HEADER_LEN := by
  simp [ipmb_frame_t.header, IPMB_FRAME_HEADER_LEN]

@[simp] theorem ipmb_message_t.length_header (m : ipmb_message_t) : m.header.length = 24 := by
  simp [ipmb_message_t.header, message_magic]

theorem ipmb_frame_t.length_enc (f : ipmb_frame_t) :
    f.enc.length = IPMB_FRAME_HEADER_LEN + f.payload.length + 4 := by
  simp [ipmb_frame_t.enc, Nat.add_assoc]

/-- The window a frame's checksum is recomputed over, on input that starts
with the frame's header and payload. -/
theorem ipmb_frame_t.take_covered (f : ipmb_frame_t) (tail : List UInt8) :
    (f.header ++ f.payload ++ tail).take (IPMB_FRAME_HEADER_LEN + f.payload.length) =
      f.header ++ f.payload :=
  List.take_left' (by simp)

/-- The frame reader accepts exactly the encodings of well-formed frames. The
checksum it recomputes covers the bytes from the frame's start, which are the
header and the payload that the fields were read from. -/
theorem read_frame_exact : Exact (read_frame true) ipmb_frame_t.WellFormed ipmb_frame_t.enc := by
  intro c f c'
  simp only [read_frame, bind_eq_ok_iff, get_eq_ok_iff, reject_if_eq_ok_iff, pure_eq_ok_iff,
    ipmb_read_le16_exact _ _ _, ipmb_read_le32_exact _ _ _, ipmb_read_bytes_exact _ _ _ _,
    Prod.mk.injEq, id_eq, true_and, and_assoc, exists_eq_left, exists_and_left, exists_const]
  constructor
  · rintro ⟨_, frame_type, _, htype, rfl, frame_flags, _, hflags, rfl, payload_len, _, hlen, rfl,
      source_addr, _, hsource, rfl, dest_addr, _, hdest, rfl, priority, _, hpriority, rfl,
      ttl, _, httl, rfl, hlimit, payload, hpayload, _, hbytes, rfl, crc, _, hcrc, rfl, hsum, _, hf, rfl⟩
    have hword : UInt32.ofNat payload.length = payload_len := by
      rw [hpayload, UInt32.ofNat_toNat]
    have hheader : ipmb_store_le16 frame_type ++ ipmb_store_le16 frame_flags ++
        ipmb_store_le32 payload_len ++ ipmb_store_le32 source_addr ++ ipmb_store_le32 dest_addr ++
        ipmb_store_le16 priority ++ ipmb_store_le16 ttl = f.header := by
      rw [hf]
      simp only [ipmb_frame_t.header, hword]
    have hread := htype
    rw [hflags, hlen, hsource, hdest, hpriority, httl, hbytes, hcrc] at hread
    simp only [← List.append_assoc, hheader] at hread
    have hfpayload : f.payload = payload := by rw [hf]
    have hcovered : ipmb_crc32 (f.header ++ payload) = crc := by
      have hwindow : c.rest.take (IPMB_FRAME_HEADER_LEN + payload_len.toNat) = f.header ++ payload := by
        rw [hread, ← hpayload, List.append_assoc (f.header ++ payload), ← hfpayload]
        exact f.take_covered _
      rw [← hwindow]
      exact not_not.mp hsum
    refine ⟨⟨?_, ?_, ?_⟩, ?_, ?_⟩
    · rw [hfpayload, hpayload]
      exact not_lt.mp hlimit
    · rw [hfpayload, hpayload, hf]
    · rw [hfpayload, hcovered, hf]
    · rw [ipmb_frame_t.enc, hfpayload, hcovered]
      exact hread
    · simp [f.length_enc, hfpayload, IPMB_FRAME_HEADER_LEN]
  · rintro ⟨⟨hpayload, hlen, hcrc⟩, hrest, hadvance⟩
    have hword : (UInt32.ofNat f.payload.length).toNat = f.payload.length := by
      have : IPMB_MAX_PAYLOAD < 2 ^ 32 := by decide
      rw [UInt32.toNat_ofNat']
      exact Nat.mod_eq_of_lt (by omega)
    have hcovered := f.take_covered (ipmb_store_le32 f.crc ++ c'.rest)
    rw [ipmb_frame_t.enc, ← hcrc] at hrest
    have htype := hrest
    simp only [ipmb_frame_t.header, List.append_assoc] at htype
    have hflags := Cursor.rest_advance_of_append htype
    have hplen := Cursor.rest_advance_of_append hflags
    have hsource := Cursor.rest_advance_of_append hplen
    have hdest := Cursor.rest_advance_of_append hsource
    have hpriority := Cursor.rest_advance_of_append hdest
    have httl := Cursor.rest_advance_of_append hpriority
    have hbytes := Cursor.rest_advance_of_append httl
    have hsum := Cursor.rest_advance_of_append hbytes
    have htail := Cursor.rest_advance_of_append hsum
    refine ⟨?_, f.frame_type, _, by rw [htype, hflags], rfl, f.frame_flags, _, by rw [hflags, hplen], rfl,
      UInt32.ofNat f.payload.length, _, by rw [hplen, hsource], rfl,
      f.source_addr, _, by rw [hsource, hdest], rfl, f.dest_addr, _, by rw [hdest, hpriority], rfl,
      f.priority, _, by rw [hpriority, httl], rfl, f.ttl, _, by rw [httl, hbytes], rfl, ?_,
      f.payload, hword.symm, _, by rw [hbytes, hsum], rfl, f.crc, _, by rw [hsum, htail], rfl, ?_, ?_, ?_, ?_⟩
    · rw [ipmb_reader_remaining_eq, htype]
      simp [IPMB_FRAME_HEADER_LEN]
      omega
    · rw [hword]
      exact not_lt.mpr hpayload
    · rw [hword, not_not]
      change ipmb_crc32 (c.rest.take _) = _
      rw [hrest, List.append_assoc (f.header ++ f.payload), hcovered, hcrc]
    · simp
    · rw [hword, ← hlen]
    · rw [hadvance]
      simp [f.length_enc, IPMB_FRAME_HEADER_LEN]

/-- A frame is never refused with the status of success. -/
theorem read_frame_errors (malloc : Bool) : ErrorsIn (read_frame malloc) (· ≠ .IPMB_OK) := by
  have hread {A : Type} := read_width_refuses (A := A)
  refine ErrorsIn.get.bind fun _ => (ErrorsIn.reject_if (by decide)).bind fun _ => ?_
  refine (hread _ _).bind fun _ => (hread _ _).bind fun _ => (hread _ _).bind fun _ =>
    (hread _ _).bind fun _ => (hread _ _).bind fun _ => (hread _ _).bind fun _ => (hread _ _).bind fun _ => ?_
  refine (ErrorsIn.reject_if (by decide)).bind fun _ => (hread _ _).bind fun _ => (hread _ _).bind fun _ => ?_
  exact (ErrorsIn.reject_if (by decide)).bind fun _ => (ErrorsIn.reject_if (by decide)).bind fun _ =>
    ErrorsIn.pure

/-- A frame that is accepted got its memory. -/
theorem read_frame_granted {malloc : Bool} {c : ipmb_reader_t} {r : ipmb_frame_t × ipmb_reader_t}
    (h : (read_frame malloc).run c = .ok r) : (read_frame true).run c = .ok r := by
  cases malloc with
  | true => exact h
  | false =>
    simp only [read_frame, bind_eq_ok_iff, reject_if_eq_ok_iff, not_true_eq_false, false_and, and_false,
      exists_false] at h

/-- The frame loop reads a whole array of frames exactly. -/
theorem read_frames_exact (count : Nat) :
    Exact (times (fun i => read_frame (Allocator.succeeds (i + 1))) 0 count)
      (fun frames => frames.length = count ∧ ∀ f ∈ frames, f.WellFormed)
      (fun frames => frames.flatMap ipmb_frame_t.enc) :=
  Exact.times (fun _ => read_frame_exact) 0 count

/-- Accepted input starts with the header of the returned message, whose count
is within the limit, and the frame loop went through behind it. -/
theorem ipmb_parse_message_ok {alloc : Allocator} {data : List UInt8} {msg : ipmb_message_t}
    (h : ipmb_parse_message alloc data = (.IPMB_OK, msg)) :
    data = msg.header ++ (ipmb_store_le32 (ipmb_crc32 (data.take 24)) ++ data.drop IPMB_MESSAGE_HEADER_LEN) ∧
      msg.frame_count.toNat ≤ IPMB_MAX_FRAMES ∧
      ∃ stop, (times (fun i => read_frame (alloc (i + 1))) 0 msg.frame_count.toNat).run
        { data, pos := IPMB_MESSAGE_HEADER_LEN } = .ok (msg.frames, stop) := by
  unfold ipmb_parse_message at h
  split at h
  · simp at h
  split at h
  · simp at h
  rename_i hmagic
  split at h
  · simp at h
  rename_i version _ hversion
  split at h
  · simp at h
  rename_i flags _ hflags
  split at h
  · simp at h
  rename_i frame_count _ hcount
  split at h
  · simp at h
  rename_i session_id _ hsession
  split at h
  · simp at h
  rename_i sequence _ hsequence
  split at h
  · simp at h
  rename_i header_crc last hcrc
  dsimp only at h
  by_cases hlimit : frame_count.toNat > IPMB_MAX_FRAMES
  · rw [if_pos hlimit] at h
    simp at h
  rw [if_neg hlimit] at h
  by_cases hsum : ipmb_crc32 (data.take 24) ≠ header_crc
  · rw [if_pos hsum] at h
    simp at h
  rw [if_neg hsum] at h
  by_cases halloc : alloc 0 = false
  · rw [if_pos halloc] at h
    simp at h
  rw [if_neg halloc] at h
  split at h
  · rename_i status herror
    have hstatus := ErrorsIn.times (fun i => read_frame_errors (alloc (i + 1))) _ _ _ _ herror
    exact absurd (congrArg Prod.fst h) hstatus
  rename_i frames stop hframes
  obtain ⟨_, rfl⟩ := Prod.mk.inj h
  refine ⟨?_, not_lt.mp hlimit, stop, hframes⟩
  obtain ⟨_, hversion, rfl⟩ := (ipmb_read_le16_exact _ _ _).mp hversion
  obtain ⟨_, hflags, rfl⟩ := (ipmb_read_le16_exact _ _ _).mp hflags
  obtain ⟨_, hcount, rfl⟩ := (ipmb_read_le32_exact _ _ _).mp hcount
  obtain ⟨_, hsession, rfl⟩ := (ipmb_read_le64_exact _ _ _).mp hsession
  obtain ⟨_, hsequence, rfl⟩ := (ipmb_read_le32_exact _ _ _).mp hsequence
  obtain ⟨_, hcrc, rfl⟩ := (ipmb_read_le32_exact _ _ _).mp hcrc
  rw [hflags, hcount, hsession, hsequence, hcrc] at hversion
  simp only [rest_ipmb_reader_init, Cursor.rest_advance, List.drop_drop, length_ipmb_store_le16,
    length_ipmb_store_le32, length_store_le64] at hversion
  have hmagic := not_not.mp hmagic
  have hsum := not_not.mp hsum
  calc data = data.take 4 ++ data.drop 4 := (List.take_append_drop 4 data).symm
    _ = _ := by
      rw [hmagic, hversion, hsum]
      simp [ipmb_message_t.header, IPMB_MESSAGE_HEADER_LEN]

/-- Accepted input is a container followed by anything, and the returned
message is that container's. -/
theorem ipmb_parse_message_sound {alloc : Allocator} {data : List UInt8} {msg : ipmb_message_t}
    (h : ipmb_parse_message alloc data = (.IPMB_OK, msg)) :
    ∃ m : Container, m.message = msg ∧ ∃ suffix, data = m.enc ++ suffix := by
  obtain ⟨hheader, hlimit, stop, hframes⟩ := ipmb_parse_message_ok h
  have hgranted := times_eq_ok (q := fun i => read_frame (Allocator.succeeds (i + 1)))
    (fun _ _ _ => read_frame_granted) hframes
  obtain ⟨⟨hlength, hwellFormed⟩, hbytes, _⟩ := (read_frames_exact _ _ _ _).mp hgranted
  have hbytes : data.drop IPMB_MESSAGE_HEADER_LEN = msg.frames.flatMap ipmb_frame_t.enc ++ stop.rest := hbytes
  have hcovered : data.take 24 = msg.header := by
    rw [hheader, List.take_left' msg.length_header]
  refine ⟨⟨msg, hlength.trans_le hlimit, hlength.symm, hwellFormed⟩, rfl, stop.rest, ?_⟩
  rw [hcovered, hbytes] at hheader
  refine hheader.trans ?_
  simp [Container.enc]

/-- A container is accepted whatever follows it, and read back whole. -/
theorem ipmb_parse_message_complete (m : Container) (suffix : List UInt8) :
    ipmb_parse_message Allocator.succeeds (m.enc ++ suffix) = (.IPMB_OK, m.message) := by
  obtain ⟨msg, hframesLe, hcount, hwf⟩ := m
  have hlength : ¬ (Container.enc ⟨msg, hframesLe, hcount, hwf⟩ ++ suffix).length < IPMB_MESSAGE_HEADER_LEN := by
    simp [Container.enc, IPMB_MESSAGE_HEADER_LEN]
    omega
  generalize hdata : Container.enc ⟨msg, hframesLe, hcount, hwf⟩ ++ suffix = data at *
  have hheader : data = msg.header ++ (ipmb_store_le32 (ipmb_crc32 msg.header) ++
      (msg.frames.flatMap ipmb_frame_t.enc ++ suffix)) := by
    rw [← hdata]
    simp [Container.enc]
  have hmagic : data.take 4 = message_magic := by
    rw [hheader]
    simp [ipmb_message_t.header, message_magic]
  have hversion : (ipmb_reader_init (data.drop 4)).rest = ipmb_store_le16 msg.version ++
      (ipmb_store_le16 msg.flags ++ (ipmb_store_le32 msg.frame_count ++ (store_le64 msg.session_id ++
        (ipmb_store_le32 msg.sequence ++ (ipmb_store_le32 (ipmb_crc32 msg.header) ++
          (msg.frames.flatMap ipmb_frame_t.enc ++ suffix)))))) := by
    rw [hheader]
    simp [ipmb_message_t.header, message_magic]
  have hflags := Cursor.rest_advance_of_append hversion
  have hframeCount := Cursor.rest_advance_of_append hflags
  have hsession := Cursor.rest_advance_of_append hframeCount
  have hsequence := Cursor.rest_advance_of_append hsession
  have hcrc := Cursor.rest_advance_of_append hsequence
  have hcovered : data.take 24 = msg.header := by
    rw [hheader]
    exact List.take_left' msg.length_header
  have hframes : (⟨data, IPMB_MESSAGE_HEADER_LEN⟩ : ipmb_reader_t).rest =
      msg.frames.flatMap ipmb_frame_t.enc ++ suffix := by
    change data.drop IPMB_MESSAGE_HEADER_LEN = _
    rw [hheader, ← List.append_assoc]
    exact List.drop_left' (by simp [IPMB_MESSAGE_HEADER_LEN])
  have hloop := (read_frames_exact msg.frame_count.toNat).complete ⟨hcount.symm, hwf⟩ hframes
  unfold ipmb_parse_message
  rw [if_neg hlength, if_neg (not_not.mpr hmagic), ipmb_read_le16_exact.complete trivial hversion]
  dsimp only
  rw [ipmb_read_le16_exact.complete trivial hflags]
  dsimp only
  rw [ipmb_read_le32_exact.complete trivial hframeCount]
  dsimp only
  rw [ipmb_read_le64_exact.complete trivial hsession]
  dsimp only
  rw [ipmb_read_le32_exact.complete trivial hsequence]
  dsimp only
  rw [ipmb_read_le32_exact.complete trivial hcrc]
  dsimp only
  rw [if_neg (by omega), if_neg (not_not.mpr (by rw [hcovered])),
    if_neg (Allocator.not_refused _), hloop]

/-- The container format, both directions. Parsing succeeds exactly on
containers followed by anything, and returns the container's message: header
fields, frame count, and every frame's fields, payload and stored checksum. -/
theorem ipmb_parse_message_container :
    (∀ data, (ipmb_parse_message Allocator.succeeds data).1 = .IPMB_OK ↔
      ∃ (m : Container) (suffix : List UInt8), data = m.enc ++ suffix) ∧
    ∀ (m : Container) (suffix : List UInt8),
      ipmb_parse_message Allocator.succeeds (m.enc ++ suffix) = (.IPMB_OK, m.message) := by
  refine ⟨fun data => ⟨fun hok => ?_, ?_⟩, ipmb_parse_message_complete⟩
  · obtain ⟨m, _, suffix, hdata⟩ := ipmb_parse_message_sound (Prod.ext hok rfl)
    exact ⟨m, suffix, hdata⟩
  · rintro ⟨m, suffix, rfl⟩
    rw [ipmb_parse_message_complete]

end ipmb.frame_reader
