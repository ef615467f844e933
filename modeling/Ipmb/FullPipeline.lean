import Ipmb.DecoderMemory
import Ipmb.Protocol.Container

open fallible ownership
open ipmb.decoder_memory ipmb.field_decoder ipmb.frame_reader ipmb.owned_array

namespace ipmb.full_pipeline

/-- The message behind a structure. -/
def message (msg : Output ipmb_message_t ipmb_frame_t) : ipmb_message_t := { msg.header with frames := msg.values }

/-- A round of the loop over the frames. -/
def decode_frame (grants : Nat → Bool) (msg : ipmb_message_t) (i : Nat) : Owning Fault Unit := do
  let f ← lift (frame_at msg i)
  let (rc, map) ← decode_register_map grants f.payload
  if rc = .IPMB_OK then (fun _ => ()) <$> release ipmb_register_map_t.zero map else pure ()

/-- A message is parsed, and the payload of each frame decoded as a register map. What
a failed call leaves is not released. -/
def LLVMFuzzerTestOneInput (grants : Nat → Bool) (data : List UInt8) : Owning Fault Unit := do
  let (rc, msg) ← parse_message grants data
  if rc = .IPMB_OK then do
    forM (List.range (message msg).frame_count.toNat) (decode_frame grants (message msg))
    (fun _ => ()) <$> release ipmb_message_t.zero msg
  else pure ()

/-- A map within the limit with a field that passes the check but ends behind the
payload, and none before it that is refused. -/
structure Overruns (payload : List UInt8) : Prop where
  holds : HoldsMap payload
  count_le : field_count payload ≤ MAX_FIELDS
  field : ∃ j < field_count payload, (entry payload j).2 ≠ 0 ∧ ¬Fits payload j ∧ ∀ i ≤ j, ¬Refused payload i

/-- Without its block a field is not copied. -/
theorem decode_field_refused (payload : List UInt8) (i : Nat) :
    ∃ rc, decode_field false payload (table_start payload) (data_start payload) i = .error (.status rc) := by
  rw [decode_field_split]
  cases read_field payload i with
  | error rc => exact ⟨rc, rfl⟩
  | ok v => exact ⟨_, rfl⟩

/-- A field that was read, or read outside, had its block. -/
theorem decode_field_reads {malloc : Bool} {payload : List UInt8} {i : Nat}
    (h : ∀ rc, decode_field malloc payload (table_start payload) (data_start payload) i ≠ .error (.status rc)) :
    malloc = true := by
  cases malloc with
  | true => rfl
  | false =>
    obtain ⟨rc, hrc⟩ := decode_field_refused payload i
    exact absurd hrc (h rc)

section field
variable {malloc : Bool} {payload : List UInt8} {i : Nat}

theorem not_refused_of_ok {field : ipmb_register_field_t}
    (h : decode_field malloc payload (table_start payload) (data_start payload) i = .ok field) :
    ¬Refused payload i := by
  intro hrefused
  obtain rfl : malloc = true := decode_field_reads (by rw [h]; exact nofun)
  rw [decode_field_eq, if_pos hrefused] at h
  cases h

theorem unfit_of_fault {e : Fault}
    (h : decode_field malloc payload (table_start payload) (data_start payload) i = .error (.fault e)) :
    e = .readOutOfBounds ∧ ¬Refused payload i ∧ (entry payload i).2 ≠ 0 ∧ ¬Fits payload i := by
  obtain rfl : malloc = true := decode_field_reads (by rw [h]; exact nofun)
  rw [decode_field_eq] at h
  by_cases hrefused : Refused payload i
  · rw [if_pos hrefused] at h
    cases h
  · rw [if_neg hrefused] at h
    by_cases hinside : (entry payload i).2 = 0 ∨ Fits payload i
    · rw [if_pos hinside] at h
      cases h
    · rw [if_neg hinside] at h
      cases h
      exact ⟨rfl, hrefused, not_or.mp hinside⟩

end field

/-- Wherever memory ends, only a map that overruns is read outside. -/
theorem overruns_of_error {alloc : Allocator} {payload : List UInt8} {e : Fault}
    (h : ipmb_decode_register_map alloc payload = .error e) : e = .readOutOfBounds ∧ Overruns payload := by
  by_cases hmap : HoldsMap payload
  swap
  · obtain ⟨rc, map_id, hrun⟩ := ipmb_decode_register_map_no_map alloc hmap
    rw [hrun] at h
    cases h
  by_cases hlimit : field_count payload > MAX_FIELDS
  · rw [ipmb_decode_register_map_limit alloc hmap hlimit] at h
    cases h
  have hcount : field_count payload ≤ MAX_FIELDS := Nat.not_lt.mp hlimit
  by_cases hgranted : alloc 0 = true
  swap
  · rw [ipmb_decode_register_map_refused hmap hcount (Bool.not_eq_true _ ▸ hgranted)] at h
    cases h
  rw [ipmb_decode_register_map_loop hmap hcount hgranted] at h
  split at h
  · cases h
  · rename_i f hloop
    cases h
    obtain ⟨j, hj, hbefore, hstop⟩ := mapM_range_error_iff.mp hloop
    obtain ⟨rfl, hpassed, hbytes, hunfit⟩ := unfit_of_fault hstop
    refine ⟨rfl, hmap, hcount, j, hj, hbytes, hunfit, fun i hi => ?_⟩
    obtain hi | rfl := Nat.lt_or_eq_of_le hi
    · obtain ⟨field, hfield⟩ := hbefore i hi
      exact not_refused_of_ok hfield
    · exact hpassed
  · cases h

/-- With memory such a map always is. -/
theorem error_of_overruns {payload : List UInt8} (h : Overruns payload) :
    ipmb_decode_register_map Allocator.succeeds payload = .error .readOutOfBounds := by
  obtain ⟨hmap, hcount, j, hj, hbytes, hunfit, hpassed⟩ := h
  -- the loop ends at the first field with bytes that does not fit
  have hsome : ∃ i, (entry payload i).2 ≠ 0 ∧ ¬Fits payload i := ⟨j, hbytes, hunfit⟩
  obtain ⟨first, ⟨hbytes', hunfit'⟩, hmin⟩ : ∃ first, ((entry payload first).2 ≠ 0 ∧ ¬Fits payload first) ∧
      ∀ i < first, ¬((entry payload i).2 ≠ 0 ∧ ¬Fits payload i) :=
    ⟨Nat.find hsome, Nat.find_spec hsome, fun _ => Nat.find_min hsome⟩
  have hle : first ≤ j := by
    by_contra hlt
    exact hmin j (by omega) ⟨hbytes, hunfit⟩
  have hloop : (List.range (field_count payload)).mapM
      (decode_field true payload (table_start payload) (data_start payload)) = .error (.fault .readOutOfBounds) := by
    refine mapM_range_error_iff.mpr ⟨first, by omega, fun i hi => ?_, ?_⟩
    · have hinside : (entry payload i).2 = 0 ∨ Fits payload i := by
        by_contra hout
        exact hmin i hi (not_or.mp hout)
      rw [decode_field_eq, if_neg (hpassed i (by omega)), if_pos hinside]
      exact ⟨_, rfl⟩
    · rw [decode_field_eq, if_neg (hpassed first hle), if_neg (not_or.mpr ⟨hbytes', hunfit'⟩)]
  have hrounds : (fun i => decode_field (Allocator.succeeds (i + 1)) payload (table_start payload)
      (data_start payload) i) = decode_field true payload (table_start payload) (data_start payload) := rfl
  rw [ipmb_decode_register_map_loop hmap hcount rfl, hrounds, hloop]

section run
variable {grants : Nat → Bool} {msg : ipmb_message_t}

/-- A frame's payload is decoded and everything released, or read outside. -/
theorem decode_frame_spec {i : Nat} {f : ipmb_frame_t} (hframe : frame_at msg i = .ok f) (n : Nat)
    (own : Multiset Nat) :
    Triple (fun e => ∃ n, ipmb_decode_register_map (fun i => grants (n + i)) f.payload = .error e) n own
      (decode_frame grants msg i) fun _ _ own' =>
        own' = own ∧ ∃ n r, ipmb_decode_register_map (fun i => grants (n + i)) f.payload = .ok r := by
  rw [decode_frame]
  refine Triple.lift_bind_ok hframe ?_
  have hdecode := ((decode_register_map_begins f.payload).implements rfl grants n).frame own
  rw [zero_add] at hdecode
  refine Triple.bind (hdecode.mono (fun e he => ⟨n, he⟩) fun _ _ _ h => h) ?_
  rintro ⟨rc, map⟩ n' _ ⟨own₁, ⟨hok, hbased, hown, -, hnone⟩, rfl⟩
  dsimp only at hok hbased hown hnone ⊢
  by_cases hrc : rc = .IPMB_OK
  · rw [if_pos hrc, hown]
    exact Triple.map (release_rule hbased ⟨rfl, n, _, hok⟩)
  · rw [if_neg hrc, hnone hrc, zero_add]
    exact Triple.pure ⟨rfl, n, _, hok⟩

/-- The loop over the frames. -/
theorem decode_frames_spec {k : Nat} (hk : k ≤ msg.frames.length) (n : Nat) (own : Multiset Nat) :
    Triple (fun e => ∃ f ∈ msg.frames, ∃ n, ipmb_decode_register_map (fun i => grants (n + i)) f.payload = .error e)
      n own (forM (List.range k) (decode_frame grants msg)) fun _ _ own' =>
        own' = own ∧ ∀ f ∈ msg.frames.take k, ∃ n r,
          ipmb_decode_register_map (fun i => grants (n + i)) f.payload = .ok r := by
  induction k generalizing n own with
  | zero => exact Triple.pure ⟨rfl, by simp⟩
  | succ k ih =>
    have hframe : frame_at msg k = .ok msg.frames[k] := by rw [frame_at, List.getElem?_eq_getElem hk]
    have hlast := List.getElem_mem hk
    rw [List.range_succ, List.forM_append, List.take_succ_eq_append_getElem hk]
    refine Triple.bind (ih (Nat.le_of_succ_le hk) n own) ?_
    rintro _ n' _ ⟨rfl, hfront⟩
    rw [List.forM_cons]
    refine Triple.bind ((decode_frame_spec hframe n' _).mono (fun e he => ⟨_, hlast, he⟩) fun _ _ _ h => h) ?_
    rintro _ _ _ ⟨rfl, hdecoded⟩
    refine Triple.pure ⟨rfl, fun f hf => ?_⟩
    obtain hf | hf := List.mem_append.mp hf
    · exact hfront f hf
    · rwa [List.mem_singleton.mp hf]

end run

/-- The message that the bytes start with, if it has a frame of some kind. -/
def Carries (P : ipmb_frame_t → Prop) (data : List UInt8) : Prop :=
  ∃ (m : Container) (suffix : List UInt8), data = m.enc ++ suffix ∧ ∃ f ∈ m.message.frames, P f

/-- The whole program. -/
theorem LLVMFuzzerTestOneInput_spec (grants : Nat → Bool) (data : List UInt8) (n : Nat) :
    Triple
      (fun e => Carries (fun f => ∃ n, ipmb_decode_register_map (fun i => grants (n + i)) f.payload = .error e) data)
      n 0 (LLVMFuzzerTestOneInput grants data) fun _ _ own => own = 0 ∧
        ((∀ i, grants i = true) → ¬Carries (fun f => Overruns f.payload) data) := by
  rw [LLVMFuzzerTestOneInput]
  refine Triple.bind (((parse_message_begins data).implements rfl grants n).mono nofun fun _ _ _ h => h) ?_
  rintro ⟨rc, msg⟩ n' _ ⟨hok, hbased, rfl, -, hnone⟩
  dsimp only at hok hbased hnone ⊢
  have hparse : ipmb_parse_message (fun i => grants (n + i)) data = (rc, message msg) := Except.ok.inj hok
  -- with memory the message is the one that the bytes start with
  have hunique (hgranted : ∀ i, grants i = true) (m : Container) (suffix : List UInt8)
      (hdata : data = m.enc ++ suffix) :
      rc = .IPMB_OK ∧ message msg = m.message := by
    have hsucceeds : (fun i => grants (n + i)) = Allocator.succeeds := funext fun i => hgranted (n + i)
    rw [hsucceeds, hdata, ipmb_parse_message_complete] at hparse
    obtain ⟨hstatus, hmessage⟩ := Prod.mk.inj hparse
    exact ⟨hstatus.symm, hmessage.symm⟩
  by_cases hrc : rc = .IPMB_OK
  · subst hrc
    rw [if_pos rfl]
    obtain ⟨m, hmessage, suffix, hdata⟩ := ipmb_parse_message_sound hparse
    have hcount : (message msg).frame_count.toNat = (message msg).frames.length := by
      rw [← hmessage, m.frame_count_eq]
    have hloop := @decode_frames_spec grants (message msg) _ (Nat.le_refl _) n' (blocks msg.pointers)
    rw [List.take_length, ← hcount] at hloop
    refine Triple.bind (hloop.mono ?_ fun _ _ _ h => h) ?_
    · rintro e ⟨f, hf, herror⟩
      exact ⟨m, suffix, hdata, f, by rwa [hmessage], herror⟩
    · rintro _ n'' own ⟨rfl, hdecoded⟩
      rw [← add_zero (blocks msg.pointers)]
      refine Triple.map (release_rule hbased ⟨rfl, ?_⟩)
      rintro hgranted ⟨m', suffix', hdata', f, hf, hoverruns⟩
      rw [← (hunique hgranted m' suffix' hdata').2] at hf
      obtain ⟨k, r, hr⟩ := hdecoded f hf
      have hsucceeds : (fun i => grants (k + i)) = Allocator.succeeds := funext fun i => hgranted (k + i)
      rw [hsucceeds, error_of_overruns hoverruns] at hr
      cases hr
  · rw [if_neg hrc, hnone hrc]
    refine Triple.pure ⟨rfl, ?_⟩
    rintro hgranted ⟨m, suffix, hdata, -⟩
    exact hrc (hunique hgranted m suffix hdata).1

/-- However requests are answered, the program ends with all its memory released, or with
a read out of bounds. The message then has a frame with a map that overruns; and with
memory for every request each such message ends so. -/
theorem full_pipeline_runs (data : List UInt8) :
    (∀ grants : Nat → Bool,
      (LLVMFuzzerTestOneInput grants data).run Blocks.empty = .error .readOutOfBounds ∧
          Carries (fun f => Overruns f.payload) data ∨
        ∃ m, (LLVMFuzzerTestOneInput grants data).run Blocks.empty = .ok ((), m) ∧ m.live = 0) ∧
      (Carries (fun f => Overruns f.payload) data →
        (LLVMFuzzerTestOneInput (fun _ => true) data).run Blocks.empty = .error .readOutOfBounds) := by
  have hruns (grants : Nat → Bool) :
      (LLVMFuzzerTestOneInput grants data).run Blocks.empty = .error .readOutOfBounds ∧
          Carries (fun f => Overruns f.payload) data ∨
        ∃ m, (LLVMFuzzerTestOneInput grants data).run Blocks.empty = .ok ((), m) ∧ m.live = 0 ∧
          ((∀ i, grants i = true) → ¬Carries (fun f => Overruns f.payload) data) := by
    obtain ⟨e, herror, m, suffix, hdata, f, hf, n, hdecode⟩ | ⟨_, m, own, hok, ⟨hown, hnone⟩, hlive⟩ :=
      LLVMFuzzerTestOneInput_spec grants data 0 Blocks.empty 0 rfl rfl
    · obtain ⟨rfl, hoverruns⟩ := overruns_of_error hdecode
      exact .inl ⟨herror, m, suffix, hdata, f, hf, hoverruns⟩
    · exact .inr ⟨m, hok, by rw [hlive, hown, add_zero], hnone⟩
  refine ⟨fun grants => ?_, fun hcarries => ?_⟩
  · obtain hread | ⟨m, hok, hlive, -⟩ := hruns grants
    · exact .inl hread
    · exact .inr ⟨m, hok, hlive⟩
  · obtain ⟨herror, -⟩ | ⟨m, -, -, hnone⟩ := hruns fun _ => true
    · exact herror
    · exact absurd hcarries (hnone fun _ => rfl)

end ipmb.full_pipeline
