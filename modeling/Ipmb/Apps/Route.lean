import Ipmb.Protocol.Container
import Ipmb.Routing.TextTable

open fallible
open ipmb.frame_reader ipmb.rule_parser ipmb.rule_compiler ipmb.route_vm ipmb.stack_machine
open ipmb.condition ipmb.text_table

namespace ipmb.apps

/-- What a program leaves behind: its exit code and what it printed. -/
structure process_t where
  exit_code : Nat
  out : List UInt8
  err : List UInt8
  deriving DecidableEq

def text (s : String) : List UInt8 := s.toUTF8.toList

def ipmb_status_string : ipmb_status_t → String
  | .IPMB_OK => "ok"
  | .IPMB_ERR_SHORT_READ => "short read"
  | .IPMB_ERR_BAD_MAGIC => "bad magic"
  | .IPMB_ERR_BAD_CRC => "bad crc"
  | .IPMB_ERR_LIMIT => "limit exceeded"
  | .IPMB_ERR_INVALID => "invalid input"
  | .IPMB_ERR_ALLOC => "allocation failed"
  | .IPMB_ERR_EVAL => "evaluation failed"
  | .IPMB_ERR_NOT_FOUND => "not found"

/-- How the requests of the calls of a program are answered. -/
structure allocators where
  message : Allocator
  compiler : Allocator

def allocators.succeed : allocators := { message := Allocator.succeeds, compiler := Allocator.succeeds }

/-- What the rule says of a frame: the status of the calls, and the flag, which is
set by the last of them only. -/
def route_frame (alloc : Allocator) (rule : List UInt8) (msg : ipmb_message_t) :
    Except Fault (ipmb_status_t × Bool) := do
  let (rc, ast) := ipmb_rule_parse rule
  let (rc, bc) := if rc = .IPMB_OK then ipmb_rule_compile alloc ast else (rc, .zero)
  if rc = .IPMB_OK then ipmb_vm_evaluate bc (← frame_at msg 0) else pure (rc, false)

/-- `main` of `ipmb-route`, with the arguments after the program's name. What
`read_file` finds under a path is given. -/
def ipmb_route (alloc : allocators) (read_file : List UInt8 → Option (List UInt8)) (name : List UInt8) :
    List (List UInt8) → Except Fault process_t
  | [rule, path] =>
    match read_file path with
    | none => .ok { exit_code := 1, out := [], err := [] }
    | some buf =>
      let (rc, msg) := ipmb_parse_message alloc.message buf
      if rc ≠ .IPMB_OK ∨ msg.frame_count = 0 then
        .ok { exit_code := 1, out := [], err := text ("message rejected: " ++ ipmb_status_string rc ++ "\n") }
      else do
        let (rc, matched) ← route_frame alloc.compiler rule msg
        pure
          { exit_code := if rc = .IPMB_OK then 0 else 1
            out := if rc = .IPMB_OK ∧ matched then text "matched\n" else text "not matched\n"
            err := [] }
  | _ => .ok { exit_code := 2, out := [], err := text "usage: " ++ name ++ text " <rule> <message.bin>\n" }

/-- The verdict on a frame that a rule's text asks for, if it is a rule about a
field that there is. -/
def verdict_of (rule : List UInt8) (f : ipmb_frame_t) : Option Bool := (condition_of rule).map (Condition.holds f)

/-- What is printed for a verdict. -/
def printed : Option Bool → process_t
  | none => { exit_code := 1, out := text "not matched\n", err := [] }
  | some matched => { exit_code := 0, out := if matched then text "matched\n" else text "not matched\n", err := [] }

/-- The calls on a rule and a frame come to the verdict that the text asks for. -/
theorem route_frame_verdict (rule : List UInt8) {msg : ipmb_message_t} {f : ipmb_frame_t} {fs : List ipmb_frame_t}
    (hframes : msg.frames = f :: fs) :
    (∃ rc, rc ≠ .IPMB_OK ∧ verdict_of rule f = none ∧ route_frame Allocator.succeeds rule msg = .ok (rc, false)) ∨
      ∃ b, verdict_of rule f = some b ∧ route_frame Allocator.succeeds rule msg = .ok (.IPMB_OK, b) := by
  rw [route_frame, verdict_of, condition_of]
  generalize ipmb_rule_parse rule = parsed
  obtain ⟨rc, ast⟩ := parsed
  dsimp only
  by_cases hrc : rc = .IPMB_OK
  · by_cases hfield : field_id ast.field = 0
    · refine .inl ⟨.IPMB_ERR_INVALID, by decide, ?_, ?_⟩
      · rw [if_pos (.inr hfield)]
        rfl
      · rw [if_pos hrc, ipmb_rule_compile_unknown _ ast hfield]
        rfl
    · have hslots := slots_test_le (field_id ast.field) ast.op ast.value ast.high
      have hframe : frame_at msg 0 = .ok f := by
        rw [frame_at, hframes]
        rfl
      refine .inr ⟨(Condition.test (field_id ast.field) ast.op ast.value ast.high).holds f, ?_, ?_⟩
      · rw [if_neg (not_or.mpr ⟨not_not.mpr hrc, hfield⟩)]
        rfl
      · rw [if_pos hrc, ipmb_rule_compile_known ast hfield, ← code_test, hframe, ok_bind]
        dsimp only
        rw [if_pos rfl, ipmb_vm_evaluate_eq]
        dsimp only
        rw [meaning_condition, if_pos hslots]
        rfl
  · refine .inl ⟨rc, hrc, ?_, ?_⟩
    · rw [if_pos (.inl hrc)]
      rfl
    · rw [if_neg hrc]
      dsimp only
      rw [if_neg hrc]
      rfl

section main
variable {read_file : List UInt8 → Option (List UInt8)} {name rule path : List UInt8}

theorem ipmb_route_message {m : Container} {suffix : List UInt8} {f : ipmb_frame_t} {fs : List ipmb_frame_t}
    (hfile : read_file path = some (m.enc ++ suffix)) (hframes : m.message.frames = f :: fs) :
    ipmb_route .succeed read_file name [rule, path] = .ok (printed (verdict_of rule f)) := by
  have hparse := ipmb_parse_message_complete m suffix
  have hcount : ¬m.message.frame_count = 0 := by
    intro hzero
    have hlength := m.frame_count_eq
    rw [hzero, hframes] at hlength
    cases hlength
  rw [ipmb_route, hfile]
  dsimp only [allocators.succeed]
  rw [hparse]
  dsimp only
  rw [if_neg (not_or.mpr ⟨not_not.mpr rfl, hcount⟩)]
  obtain ⟨rc, hrc, hverdict, hrun⟩ | ⟨b, hverdict, hrun⟩ := route_frame_verdict rule hframes
  · rw [hrun, hverdict, ok_bind]
    simp [printed, hrc]
  · rw [hrun, hverdict, ok_bind]
    simp [printed]

/-- A file without a message, and a message without a frame, are rejected. -/
theorem ipmb_route_rejects (h : ¬∃ (m : Container) (suffix : List UInt8) (f : ipmb_frame_t) (fs : List ipmb_frame_t),
    read_file path = some (m.enc ++ suffix) ∧ m.message.frames = f :: fs) :
    ∃ err, ipmb_route .succeed read_file name [rule, path] = .ok { exit_code := 1, out := [], err } := by
  rw [ipmb_route]
  cases hfile : read_file path with
  | none => exact ⟨_, rfl⟩
  | some buf =>
    dsimp only [allocators.succeed]
    generalize hparsed : ipmb_parse_message Allocator.succeeds buf = parsed
    obtain ⟨rc, msg⟩ := parsed
    dsimp only
    by_cases hrejected : rc ≠ .IPMB_OK ∨ msg.frame_count = 0
    · rw [if_pos hrejected]
      exact ⟨_, rfl⟩
    · obtain ⟨hrc, hcount⟩ := not_or.mp hrejected
      rw [not_not] at hrc
      subst hrc
      obtain ⟨m, rfl, suffix, rfl⟩ := ipmb_parse_message_sound hparsed
      cases hframes : m.message.frames with
      | nil =>
        have hlength := m.frame_count_eq
        rw [hframes] at hlength
        exact absurd (UInt32.toNat_inj.mp hlength) hcount
      | cons f fs => exact absurd ⟨m, suffix, f, fs, hfile, hframes⟩ h

end main

/-- What the program prints is the verdict of the rule's text on the first frame
of the message that the file starts with, whatever the other frames are; without
such a frame it prints nothing. -/
theorem ipmb_route_by_contents (read_file : List UInt8 → Option (List UInt8)) (name rule path : List UInt8) :
    (∀ (m : Container) (suffix : List UInt8) (f : ipmb_frame_t) (fs : List ipmb_frame_t),
      read_file path = some (m.enc ++ suffix) → m.message.frames = f :: fs →
        ipmb_route .succeed read_file name [rule, path] = .ok (printed (verdict_of rule f))) ∧
    ((¬∃ (m : Container) (suffix : List UInt8) (f : ipmb_frame_t) (fs : List ipmb_frame_t),
        read_file path = some (m.enc ++ suffix) ∧ m.message.frames = f :: fs) →
      ∃ err, ipmb_route .succeed read_file name [rule, path] = .ok { exit_code := 1, out := [], err }) :=
  ⟨fun _ _ _ _ hfile hframes => ipmb_route_message hfile hframes, ipmb_route_rejects⟩

end ipmb.apps
