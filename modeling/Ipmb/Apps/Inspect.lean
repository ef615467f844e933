import Ipmb.Apps.Route
import Ipmb.Codec.DeltaCodec
import Ipmb.Codec.RleCodec
import Ipmb.Protocol.FieldDecoder
import Ipmb.Protocol.TransportLayer
import Ipmb.Session.Journal
import Ipmb.Telemetry.Extractor

open fallible
open ipmb.delta_codec ipmb.extractor ipmb.field_decoder ipmb.frame_reader ipmb.journal ipmb.rle_codec
open ipmb.transport_layer

namespace ipmb.apps

/-- The kind that the bytes are reported as. -/
def kind (buf : List UInt8) : String :=
  if buf.length ≥ 4 ∧ buf.take 4 = message_magic then "message"
  else if buf.length ≥ 4 ∧ buf.take 4 = journal_magic then "journal"
  else if buf.length ≥ 4 ∧ buf.take 4 = telemetry_magic then "telemetry"
  else if buf.length ≥ 4 ∧ buf.take 4 = delta_magic then "delta-codec"
  else "unknown"

/-- `main` of `ipmb-inspect`, with the arguments after the program's name. -/
def ipmb_inspect (read_file : List UInt8 → Option (List UInt8)) (name : List UInt8) : List (List UInt8) → process_t
  | [path] =>
    match read_file path with
    | none => { exit_code := 1, out := [], err := [] }
    | some buf => { exit_code := 0, out := text (kind buf ++ ": " ++ toString buf.length ++ " bytes\n"), err := [] }
  | _ => { exit_code := 2, out := [], err := text "usage: " ++ name ++ text " <blob>\n" }

/-- The formats there are decoders for. -/
inductive format where
  | message
  | journal
  | telemetry
  | delta
  | rle
  | register_map
  | fragments
  deriving DecidableEq

def format.magic : format → List UInt8
  | .message => message_magic
  | .journal => journal_magic
  | .telemetry => telemetry_magic
  | .delta => delta_magic
  | .rle => rle_magic
  | .register_map => map_magic
  | .fragments => fragment_magic

/-- The kinds that the program knows. -/
def format.kind : format → String
  | .message => "message"
  | .journal => "journal"
  | .telemetry => "telemetry"
  | .delta => "delta-codec"
  | _ => "unknown"

/-- The decoder of a format, with some answers to its requests, takes the bytes. -/
def format.Accepts (data : List UInt8) : format → Prop
  | .message => ∃ alloc, (ipmb_parse_message alloc data).1 = .IPMB_OK
  | .journal => ∃ alloc, (ipmb_journal_parse alloc data).1 = .IPMB_OK
  | .telemetry => ∃ alloc, (ipmb_extract_telemetry alloc data).1 = .IPMB_OK
  | .delta => ∃ calloc values, ipmb_delta_decode calloc data = .ok (.IPMB_OK, values)
  | .rle => ∃ alloc bytes, ipmb_rle_decode alloc data = .ok (.IPMB_OK, bytes)
  | .register_map => ∃ alloc map, ipmb_decode_register_map alloc data = .ok (.IPMB_OK, map)
  | .fragments => ∃ alloc, (ipmb_parse_fragment_payload alloc data).status = .IPMB_OK

/-- Every decoder looks at the magic number first. -/
theorem format.Accepts.magic_eq {data : List UInt8} {fmt : format} (h : fmt.Accepts data) :
    data.take 4 = fmt.magic := by
  by_contra hother
  cases fmt with
  | message =>
    have hmagic : data.take 4 ≠ message_magic := hother
    obtain ⟨alloc, hok⟩ := h
    rw [ipmb_parse_message] at hok
    dsimp only at hok
    by_cases hshort : data.length < IPMB_MESSAGE_HEADER_LEN
    · rw [if_pos hshort] at hok
      cases hok
    · rw [if_neg hshort, if_pos hmagic] at hok
      cases hok
  | journal =>
    have hmagic : data.take 4 ≠ journal_magic := hother
    obtain ⟨alloc, hok⟩ := h
    rw [ipmb_journal_parse] at hok
    dsimp only at hok
    rw [if_pos (.inr hmagic)] at hok
    cases hok
  | telemetry =>
    have hmagic : data.take 4 ≠ telemetry_magic := hother
    obtain ⟨alloc, hok⟩ := h
    rw [ipmb_extract_telemetry] at hok
    dsimp only at hok
    rw [if_pos (.inr hmagic)] at hok
    cases hok
  | delta =>
    have hmagic : data.take 4 ≠ delta_magic := hother
    obtain ⟨calloc, values, hok⟩ := h
    rw [ipmb_delta_decode, decode_with, if_pos (.inr hmagic)] at hok
    cases hok
  | rle =>
    have hmagic : data.take 4 ≠ rle_magic := hother
    obtain ⟨alloc, bytes, hok⟩ := h
    rw [ipmb_rle_decode, if_pos (.inr hmagic)] at hok
    cases hok
  | register_map =>
    have hmagic : data.take 4 ≠ map_magic := hother
    obtain ⟨alloc, map, hok⟩ := h
    rw [ipmb_decode_register_map] at hok
    dsimp only at hok
    by_cases hshort : data.length < 10
    · rw [if_pos hshort] at hok
      cases hok
    · rw [if_neg hshort, if_pos hmagic] at hok
      cases hok
  | fragments =>
    have hmagic : data.take 4 ≠ fragment_magic := hother
    obtain ⟨alloc, hok⟩ := h
    rw [ipmb_parse_fragment_payload, if_pos (.inr hmagic)] at hok
    cases hok

theorem magic_injective {fmt fmt' : format} (h : fmt.magic = fmt'.magic) : fmt = fmt' := by
  cases fmt <;> cases fmt' <;> first | rfl | exact absurd h (by decide)

/-- Bytes with a magic number are of its kind. -/
theorem kind_eq {data : List UInt8} {fmt : format} (h : data.take 4 = fmt.magic) : kind data = fmt.kind := by
  have hlength : data.length ≥ 4 := by
    have htake := congrArg List.length h
    rw [List.length_take] at htake
    have hfour : fmt.magic.length = 4 := by cases fmt <;> rfl
    omega
  rw [kind, h]
  simp only [hlength, true_and]
  cases fmt <;> rfl

/-- No two decoders take the same bytes, and the program names the one that does if
it knows the format. -/
theorem ipmb_inspect_names_decoder (read_file : List UInt8 → Option (List UInt8)) (name path : List UInt8)
    (data : List UInt8) (hfile : read_file path = some data) (fmt : format) (h : fmt.Accepts data) :
    ipmb_inspect read_file name [path] =
        { exit_code := 0, out := text (fmt.kind ++ ": " ++ toString data.length ++ " bytes\n"), err := [] } ∧
      ∀ fmt' : format, fmt'.Accepts data → fmt' = fmt := by
  refine ⟨?_, fun fmt' h' => magic_injective (h'.magic_eq.symm.trans h.magic_eq)⟩
  rw [ipmb_inspect, hfile]
  dsimp only
  rw [kind_eq h.magic_eq]

/-- A journal with an update of session 7. -/
def journal_file : List UInt8 :=
  journal_magic ++ [1, 0] ++ [1, 0] ++ [IPMB_JOURNAL_UPDATE] ++ [7, 0, 0, 0] ++ [3, 0, 0, 0] ++ [2, 0] ++ [0x61, 0x62]

theorem ipmb_inspect_journal_file :
    ipmb_inspect (fun _ => some journal_file) (text "ipmb-inspect") [text "log"] =
      { exit_code := 0, out := text "journal: 21 bytes\n", err := [] } :=
  (ipmb_inspect_names_decoder (fun _ => some journal_file) (text "ipmb-inspect") (text "log") _ rfl
    .journal ⟨Allocator.succeeds, by decide⟩).1

end ipmb.apps
