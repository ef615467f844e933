import Mathlib.Algebra.BigOperators.Group.List.Basic
import Mathlib.Algebra.Order.BigOperators.Group.List
import Ipmb.Apps.Route
import Ipmb.Security

open fallible
open ipmb.frame_reader ipmb.security

namespace ipmb.apps

/-- `%x` -/
def hex (n : Nat) : String := String.ofList (Nat.toDigits 16 n)

/-- The line for the message. -/
def header_line (msg : ipmb_message_t) (risk : UInt32) : List UInt8 :=
  text ("IPMB v" ++ toString msg.version.toNat ++ " session=" ++ toString msg.session_id.toNat ++
    " sequence=" ++ toString msg.sequence.toNat ++ " frames=" ++ toString msg.frame_count.toNat ++
    " risk=" ++ toString risk.toNat ++ "\n")

/-- The line for a frame. -/
def frame_line (i : Nat) (f : ipmb_frame_t) : List UInt8 :=
  text ("frame[" ++ toString i ++ "] type=" ++ toString f.frame_type.toNat ++ " flags=0x" ++ hex f.frame_flags.toNat ++
    " payload=" ++ toString f.payload_len ++ " src=" ++ toString f.source_addr.toNat ++
    " dst=" ++ toString f.dest_addr.toNat ++ "\n")

/-- A round of the loop over the frames. -/
def print_frame (msg : ipmb_message_t) (out : List UInt8) (i : Nat) : Except Fault (List UInt8) := do
  let f ← frame_at msg i
  pure (out ++ frame_line i f)

/-- `main` of `ipmb-parse`, with the arguments after the program's name. -/
def ipmb_parse (alloc : Allocator) (read_file : List UInt8 → Option (List UInt8)) (name : List UInt8) :
    List (List UInt8) → Except Fault process_t
  | [path] =>
    match read_file path with
    | none => .ok { exit_code := 1, out := [], err := text "could not read " ++ path ++ text "\n" }
    | some buf =>
      let (rc, msg) := ipmb_parse_message alloc buf
      if rc ≠ .IPMB_OK then
        .ok { exit_code := 1, out := [], err := text ("parse failed: " ++ ipmb_status_string rc ++ "\n") }
      else do
        let risk ← ipmb_security_risk_score msg
        let out ← (List.range msg.frame_count.toNat).foldlM (print_frame msg) (header_line msg risk)
        pure { exit_code := 0, out, err := [] }
  | _ => .ok { exit_code := 2, out := [], err := text "usage: " ++ name ++ text " <message.bin>\n" }

/-- What a frame adds to the score of its message. -/
def frame_risk (f : ipmb_frame_t) : Nat :=
  (if f.ttl = 0 then 4 else 0) + (if f.priority > 100 then 6 else 0) +
    (if f.frame_flags &&& IPMB_FRAME_FLAG_FRAGMENTED ≠ 0 then 3 else 0) + if f.payload_len > 4096 then 2 else 0

theorem frame_risk_le (f : ipmb_frame_t) : frame_risk f ≤ 15 := by
  unfold frame_risk
  split_ifs <;> decide

theorem frame_at_getElem? {msg : ipmb_message_t} {i : Nat} {f : ipmb_frame_t} (h : msg.frames[i]? = some f) :
    frame_at msg i = .ok f := by
  rw [frame_at, h]

/-- An addition under a condition, where there is room for it. -/
theorem toNat_ite_add (c : Prop) [Decidable c] (k : Nat) {score : UInt32} (h : score.toNat + k < 2 ^ 32) :
    (if c then score + UInt32.ofNat k else score).toNat = score.toNat + (if c then k else 0) ∧
      (if c then k else 0) ≤ k := by
  by_cases hc : c
  · rw [if_pos hc, if_pos hc, UInt32.toNat_add, UInt32.toNat_ofNat',
      Nat.mod_eq_of_lt (a := k) (by omega), Nat.mod_eq_of_lt h]
    exact ⟨rfl, Nat.le_refl k⟩
  · rw [if_neg hc, if_neg hc, Nat.add_zero]
    exact ⟨rfl, Nat.zero_le k⟩

/-- What a round adds to the score, which has room for it. -/
theorem add_risk_spec {msg : ipmb_message_t} {i : Nat} {f : ipmb_frame_t} (h : frame_at msg i = .ok f) {score : UInt32}
    (hscore : score.toNat + 15 < 2 ^ 32) :
    ∃ score', add_risk msg score i = .ok score' ∧ score'.toNat = score.toNat + frame_risk f := by
  rw [add_risk, h, ok_bind, frame_risk]
  refine ⟨_, rfl, ?_⟩
  obtain ⟨httl, hle⟩ := toNat_ite_add (f.ttl = 0) 4 (show score.toNat + 4 < 2 ^ 32 by omega)
  generalize hs1 : (if f.ttl = 0 then score + UInt32.ofNat 4 else score) = s1 at httl
  obtain ⟨hpriority, hle'⟩ := toNat_ite_add (f.priority > 100) 6 (show s1.toNat + 6 < 2 ^ 32 by omega)
  generalize hs2 : (if f.priority > 100 then s1 + UInt32.ofNat 6 else s1) = s2 at hpriority
  obtain ⟨hflag, hle''⟩ := toNat_ite_add (f.frame_flags &&& IPMB_FRAME_FLAG_FRAGMENTED ≠ 0) 3
    (show s2.toNat + 3 < 2 ^ 32 by omega)
  generalize hs3 : (if f.frame_flags &&& IPMB_FRAME_FLAG_FRAGMENTED ≠ 0 then s2 + UInt32.ofNat 3 else s2) = s3 at hflag
  have hlength := (toNat_ite_add (f.payload_len > 4096) 2 (show s3.toNat + 2 < 2 ^ 32 by omega)).1
  subst hs1 hs2 hs3
  refine hlength.trans ?_
  rw [hflag, hpriority, httl]
  simp only [Nat.add_assoc]

section frames
variable {msg : ipmb_message_t}

/-- The loop over some of the frames. -/
theorem risk_of_frames (hcount : msg.frames.length ≤ IPMB_MAX_FRAMES) {k : Nat} (hk : k ≤ msg.frames.length) :
    ∃ score, (List.range k).foldlM (add_risk msg) 0 = .ok score ∧
      score.toNat = ((msg.frames.take k).map frame_risk).sum := by
  induction k with
  | zero => exact ⟨0, rfl, rfl⟩
  | succ k ih =>
    obtain ⟨score, hrun, hscore⟩ := ih (Nat.le_of_succ_le hk)
    have hbound : score.toNat ≤ k * 15 := by
      rw [hscore]
      have hsum := List.sum_le_card_nsmul ((msg.frames.take k).map frame_risk) 15 fun n hn => by
        obtain ⟨f, -, rfl⟩ := List.mem_map.mp hn
        exact frame_risk_le f
      simpa [Nat.min_eq_left (Nat.le_of_succ_le hk)] using hsum
    have hlimit : IPMB_MAX_FRAMES = 1024 := rfl
    have hroom : score.toNat + 15 < 2 ^ 32 := by omega
    obtain ⟨score', hstep, hscore'⟩ := add_risk_spec (frame_at_getElem? (List.getElem?_eq_getElem hk)) hroom
    refine ⟨score', ?_, ?_⟩
    · rw [List.range_succ, List.foldlM_append, hrun, ok_bind, List.foldlM_cons, hstep, ok_bind]
      rfl
    · rw [hscore', hscore, List.take_succ_eq_append_getElem hk, List.map_append, List.sum_append]
      rfl

/-- The loop that prints some of the frames. -/
theorem print_frames (out : List UInt8) {k : Nat} (hk : k ≤ msg.frames.length) :
    (List.range k).foldlM (print_frame msg) out =
      .ok (out ++ ((msg.frames.take k).mapIdx frame_line).flatten) := by
  induction k with
  | zero => simp [pure_eq_ok]
  | succ k ih =>
    rw [List.range_succ, List.foldlM_append, ih (Nat.le_of_succ_le hk), ok_bind, List.foldlM_cons, print_frame,
      frame_at_getElem? (List.getElem?_eq_getElem hk), ok_bind, List.take_succ_eq_append_getElem hk,
      List.mapIdx_append, List.length_take_of_le (Nat.le_of_succ_le hk), List.flatten_append, ← List.append_assoc]
    simp [List.mapIdx_cons, pure_eq_ok, ok_bind]

end frames

section main
variable {read_file : List UInt8 → Option (List UInt8)} {name path : List UInt8}

theorem ipmb_parse_message_file {m : Container} {suffix : List UInt8}
    (hfile : read_file path = some (m.enc ++ suffix)) :
    ∃ risk : UInt32, risk.toNat = (m.message.frames.map frame_risk).sum ∧
      ipmb_parse Allocator.succeeds read_file name [path] =
        .ok { exit_code := 0
              out := header_line m.message risk ++ (m.message.frames.mapIdx frame_line).flatten
              err := [] } := by
  obtain ⟨risk, hrun, hrisk⟩ := risk_of_frames m.frames_le (Nat.le_refl m.message.frames.length)
  have hprint := print_frames (header_line m.message risk) (Nat.le_refl m.message.frames.length)
  rw [List.take_length] at hrisk hprint
  refine ⟨risk, hrisk, ?_⟩
  rw [ipmb_parse, hfile]
  dsimp only
  rw [ipmb_parse_message_complete m suffix]
  dsimp only
  rw [if_neg (not_not.mpr rfl), ipmb_security_risk_score, m.frame_count_eq, hrun, ok_bind, hprint, ok_bind]
  rfl

/-- A file without a message is rejected. -/
theorem ipmb_parse_rejects (h : ¬∃ (m : Container) (suffix : List UInt8), read_file path = some (m.enc ++ suffix)) :
    ∃ err, ipmb_parse Allocator.succeeds read_file name [path] = .ok { exit_code := 1, out := [], err } := by
  rw [ipmb_parse]
  cases hfile : read_file path with
  | none => exact ⟨_, rfl⟩
  | some buf =>
    dsimp only
    generalize hparsed : ipmb_parse_message Allocator.succeeds buf = parsed
    obtain ⟨rc, msg⟩ := parsed
    dsimp only
    by_cases hrc : rc = .IPMB_OK
    · subst hrc
      obtain ⟨m, rfl, suffix, rfl⟩ := ipmb_parse_message_sound hparsed
      exact absurd ⟨m, suffix, hfile⟩ h
    · rw [if_pos hrc]
      exact ⟨_, rfl⟩

end main

/-- The program prints a file that starts with a message frame by frame, in the order
of the frames, after a line with the sum of their risks, which never wraps around;
for any other file it prints nothing. -/
theorem ipmb_parse_by_contents (read_file : List UInt8 → Option (List UInt8)) (name path : List UInt8) :
    (∀ (m : Container) (suffix : List UInt8), read_file path = some (m.enc ++ suffix) →
      ∃ risk : UInt32, risk.toNat = (m.message.frames.map frame_risk).sum ∧
        ipmb_parse Allocator.succeeds read_file name [path] =
          .ok { exit_code := 0
                out := header_line m.message risk ++ (m.message.frames.mapIdx frame_line).flatten
                err := [] }) ∧
    ((¬∃ (m : Container) (suffix : List UInt8), read_file path = some (m.enc ++ suffix)) →
      ∃ err, ipmb_parse Allocator.succeeds read_file name [path] = .ok { exit_code := 1, out := [], err }) :=
  ⟨fun _ _ hfile => ipmb_parse_message_file hfile, ipmb_parse_rejects⟩

end ipmb.apps
