import Ipmb.Protocol.Container
import Ipmb.Protocol.RegisterMap
import Ipmb.Security
import Ipmb.Session.JournalFormat
import Ipmb.Telemetry.TelemetryFormat

open cursor fallible
open ipmb.byte_read ipmb.checksum ipmb.endian ipmb.extractor ipmb.field_decoder ipmb.frame_reader ipmb.journal
open ipmb.security

namespace ipmb.failed_decodes

/-- A decoder that fails leaves no elements for traversals to visit. -/
def Cleared {A : Type} (count : A → Nat) (r : ipmb_status_t × A) : Prop := r.1 ≠ .IPMB_OK → count r.2 = 0

/-- A read behind a magic number of four bytes. -/
theorem read_width_behind {A : Type} {width : Nat} {load : List UInt8 → A} {data : List UInt8} {pos : Nat}
    (h : 4 + pos + width ≤ data.length) :
    (read_width width load).run { data := data.drop 4, pos } =
      .ok (load (data.drop (4 + pos)), { data := data.drop 4, pos := pos + width }) := by
  have hrest : Cursor.rest { data := data.drop 4, pos } = data.drop (4 + pos) := List.drop_drop
  rw [read_width_run, hrest, List.length_drop, if_neg (by omega)]
  rfl

section exits

variable {A : Type} {count : A → Nat} {out : A} {n : Nat} {rc : ipmb_status_t} {cond : Prop} [Decidable cond]
  {rest : ipmb_status_t × A}

/-- An exit that leaves the output as it is clears it when the counter was not
set yet. -/
theorem cleared_last_exit_iff (hcount : count out = n) (hrc : rc ≠ .IPMB_OK) (hrest : Cleared count rest) :
    Cleared count (if cond then (rc, out) else rest) ↔ ¬(n ≠ 0 ∧ cond) := by
  by_cases hcond : cond
  · simp [Cleared, hcond, hcount, hrc]
  · rw [if_neg hcond]
    exact iff_of_true hrest fun h => hcond h.2

theorem cleared_exit_iff {later : Prop} (hcount : count out = n) (hrc : rc ≠ .IPMB_OK)
    (hrest : Cleared count rest ↔ ¬(n ≠ 0 ∧ later)) :
    Cleared count (if cond then (rc, out) else rest) ↔ ¬(n ≠ 0 ∧ (cond ∨ later)) := by
  by_cases hcond : cond
  · simp [Cleared, hcond, hcount, hrc]
  · rw [if_neg hcond, hrest, or_iff_right hcond]

/-- An exit in front of the counter; behind it the header is there. -/
theorem cleared_header_iff {header left : Prop} (hcount : count out = 0) (hcond : cond ↔ ¬header)
    (hrest : header → (Cleared count rest ↔ ¬left)) :
    Cleared count (if cond then (rc, out) else rest) ↔ ¬(header ∧ left) := by
  by_cases hheader : header
  · rw [if_neg (fun h => hcond.mp h hheader), and_iff_right hheader]
    exact hrest hheader
  · rw [if_pos (hcond.mpr hheader)]
    exact iff_of_true (fun _ => hcount) fun h => hheader h.1

theorem cleared_of_zero (h : count out = 0) : Cleared count (rc, out) := fun _ => h

theorem cleared_of_ok : Cleared count (.IPMB_OK, out) := fun hrc => absurd rfl hrc

end exits

/-- A journal that announces records is given up before there are any. -/
def JournalLeft (alloc : Allocator) (data : List UInt8) : Prop :=
  (8 ≤ data.length ∧ data.take 4 = journal_magic) ∧ (ipmb_load_le16 (data.drop 6)).toNat ≠ 0 ∧
    (MAX_RECORDS < (ipmb_load_le16 (data.drop 6)).toNat ∨ alloc 0 = false)

theorem ipmb_journal_parse_cleared_iff (alloc : Allocator) (data : List UInt8) :
    Cleared (fun j => j.record_count.toNat) (ipmb_journal_parse alloc data) ↔ ¬JournalLeft alloc data := by
  rw [JournalLeft, ipmb_journal_parse]
  refine cleared_header_iff rfl (by rw [not_and_or, not_le]) fun hheader => ?_
  rw [ipmb_reader_init, ipmb_read_le16, read_width_behind (by omega)]
  dsimp only
  rw [read_width_behind (by omega)]
  dsimp only
  refine cleared_exit_iff rfl (by decide) (cleared_last_exit_iff rfl (by decide) ?_)
  split
  · exact cleared_of_zero rfl
  · exact cleared_of_ok

/-- A batch that announces points is given up before there are any. -/
def TelemetryLeft (alloc : Allocator) (data : List UInt8) : Prop :=
  (8 ≤ data.length ∧ data.take 4 = telemetry_magic) ∧ (ipmb_load_le16 (data.drop 6)).toNat ≠ 0 ∧
    (MAX_POINTS < (ipmb_load_le16 (data.drop 6)).toNat ∨ alloc 0 = false)

theorem ipmb_extract_telemetry_cleared_iff (alloc : Allocator) (data : List UInt8) :
    Cleared (fun b => b.point_count.toNat) (ipmb_extract_telemetry alloc data) ↔ ¬TelemetryLeft alloc data := by
  rw [TelemetryLeft, ipmb_extract_telemetry]
  refine cleared_header_iff rfl (by rw [not_and_or, not_le]) fun hheader => ?_
  rw [ipmb_reader_init, ipmb_read_le16, read_width_behind (by omega)]
  dsimp only
  rw [read_width_behind (by omega)]
  dsimp only
  refine cleared_exit_iff rfl (by decide) (cleared_last_exit_iff rfl (by decide) ?_)
  split
  · exact cleared_of_zero rfl
  · exact cleared_of_ok

/-- A message that announces frames is given up before there are any. -/
def MessageLeft (alloc : Allocator) (data : List UInt8) : Prop :=
  (IPMB_MESSAGE_HEADER_LEN ≤ data.length ∧ data.take 4 = message_magic) ∧
    (ipmb_load_le32 (data.drop 8)).toNat ≠ 0 ∧ (IPMB_MAX_FRAMES < (ipmb_load_le32 (data.drop 8)).toNat ∨
      ipmb_crc32 (data.take 24) ≠ ipmb_load_le32 (data.drop 24) ∨ alloc 0 = false)

/-- Traversals of a message find it empty. -/
structure LeavesNothing (msg : ipmb_message_t) : Prop where
  count_eq : msg.frame_count.toNat = 0
  first_frame : ∀ frame_type, ipmb_message_first_frame msg frame_type = .ok none
  risk_score : ipmb_security_risk_score msg = .ok 0

/-- A message without frames is traversed without a look at the frame array. -/
theorem leavesNothing_iff {msg : ipmb_message_t} : LeavesNothing msg ↔ msg.frame_count.toNat = 0 := by
  refine ⟨LeavesNothing.count_eq, fun hzero => ⟨hzero, ?_, ?_⟩⟩
  · intro frame_type
    rw [ipmb_message_first_frame, hzero, first_frame_from]
  · rw [ipmb_security_risk_score, hzero]
    rfl

theorem ipmb_parse_message_cleared_iff (alloc : Allocator) (data : List UInt8) :
    Cleared (fun m => m.frame_count.toNat) (ipmb_parse_message alloc data) ↔ ¬MessageLeft alloc data := by
  rw [MessageLeft, ipmb_parse_message, and_assoc]
  refine cleared_header_iff rfl not_le.symm fun hlength => ?_
  refine cleared_header_iff rfl Iff.rfl fun _ => ?_
  have hheader : 28 ≤ data.length := hlength
  rw [ipmb_reader_init, ipmb_read_le16, ipmb_read_le32, ipmb_read_le64, read_width_behind (by omega)]
  dsimp only
  rw [read_width_behind (by omega)]
  dsimp only
  rw [read_width_behind (by omega)]
  dsimp only
  rw [read_width_behind (by omega)]
  dsimp only
  rw [read_width_behind (by omega)]
  dsimp only
  rw [read_width_behind (by omega)]
  dsimp only
  refine cleared_exit_iff rfl (by decide) (cleared_exit_iff rfl (by decide) (cleared_last_exit_iff rfl (by decide) ?_))
  split
  · exact cleared_of_zero rfl
  · exact cleared_of_ok

/-- A map that has fields gets no memory for them. -/
def MapLeft (alloc : Allocator) (payload : List UInt8) : Prop :=
  HoldsMap payload ∧ field_count payload ≠ 0 ∧ field_count payload ≤ MAX_FIELDS ∧ alloc 0 = false

theorem ipmb_decode_register_map_cleared_iff (alloc : Allocator) (payload : List UInt8) :
    (∀ r, ipmb_decode_register_map alloc payload = .ok r → Cleared (fun m => m.field_count.toNat) r) ↔
      ¬MapLeft alloc payload := by
  rw [MapLeft]
  by_cases hmap : HoldsMap payload
  swap
  · obtain ⟨rc, map_id, hrun⟩ := ipmb_decode_register_map_no_map alloc hmap
    rw [hrun]
    refine iff_of_true ?_ fun hleft => hmap hleft.1
    rintro _ ⟨⟩
    exact cleared_of_zero rfl
  by_cases hlimit : field_count payload > MAX_FIELDS
  · rw [ipmb_decode_register_map_limit alloc hmap hlimit]
    refine iff_of_true ?_ fun hleft => absurd hleft.2.2.1 (not_le.mpr hlimit)
    rintro _ ⟨⟩
    exact cleared_of_zero rfl
  cases halloc : alloc 0 with
  | false =>
    rw [ipmb_decode_register_map_refused hmap (by omega) halloc]
    constructor
    · rintro hcleared ⟨-, hcount, -⟩
      exact hcount (hcleared _ rfl nofun)
    · rintro hleft _ ⟨⟩
      refine cleared_of_zero ?_
      by_contra hcount
      exact hleft ⟨hmap, hcount, by omega, rfl⟩
  | true =>
    rw [ipmb_decode_register_map_loop hmap (by omega) halloc]
    refine iff_of_true ?_ fun hleft => Bool.noConfusion hleft.2.2.2
    intro r hrun
    split at hrun
    · cases hrun
      exact cleared_of_zero rfl
    · cases hrun
    · cases hrun
      exact cleared_of_ok

/-- A decoder that fails leaves no elements behind unless it gives up between
the counter and the elements: at the limit, at the checksum of the header, or
for want of memory for the array. -/
theorem decoders_clear_iff (alloc : Allocator) (data : List UInt8) :
    (((ipmb_parse_message alloc data).1 ≠ .IPMB_OK → LeavesNothing (ipmb_parse_message alloc data).2) ↔
      ¬MessageLeft alloc data) ∧
    (Cleared (fun j => j.record_count.toNat) (ipmb_journal_parse alloc data) ↔ ¬JournalLeft alloc data) ∧
    (Cleared (fun b => b.point_count.toNat) (ipmb_extract_telemetry alloc data) ↔ ¬TelemetryLeft alloc data) ∧
    ((∀ r, ipmb_decode_register_map alloc data = .ok r → Cleared (fun m => m.field_count.toNat) r) ↔
      ¬MapLeft alloc data) := by
  refine ⟨?_, ipmb_journal_parse_cleared_iff alloc data, ipmb_extract_telemetry_cleared_iff alloc data,
    ipmb_decode_register_map_cleared_iff alloc data⟩
  rw [leavesNothing_iff]
  exact ipmb_parse_message_cleared_iff alloc data

/-- The header of a message that announces 1025 frames. -/
def too_many_frames : List UInt8 := message_magic ++ [1, 0, 0, 0, 1, 4, 0, 0] ++ List.replicate 16 0

/-- The message is refused and left with a counter of frames it does not have:
the search for a frame then reads through a null pointer. -/
theorem ipmb_parse_message_leaves_count :
    ¬∀ alloc data, (ipmb_parse_message alloc data).1 ≠ .IPMB_OK →
      LeavesNothing (ipmb_parse_message alloc data).2 := by
  intro hall
  have hnothing := hall Allocator.succeeds too_many_frames (by decide)
  have hsearch : ipmb_message_first_frame (ipmb_parse_message Allocator.succeeds too_many_frames).2 0x22 =
      .error .nullPointer := by
    decide
  rw [hnothing.first_frame] at hsearch
  cases hsearch

end ipmb.failed_decodes
