import Ipmb.DecoderMemory

open cursor fallible ownership
open ipmb.endian ipmb.extractor ipmb.field_decoder ipmb.frame_reader ipmb.journal ipmb.transport_layer
open ipmb.decoder_memory ipmb.owned_array

namespace ipmb.decoder_runs

/-- What a program holds: the structures that it decoded into, and the buffers of
reassembled payloads. -/
inductive structure_t where
  | message (out : Output ipmb_message_t ipmb_frame_t)
  | journal (out : Output ipmb_journal_memory ipmb_journal_record_t)
  | telemetry (out : Output ipmb_telemetry_batch_t ipmb_telemetry_point_t)
  | register_map (out : Output ipmb_register_map_t ipmb_register_field_t)
  | buffer (p : Option Nat)

def structure_t.pointers : structure_t → List (Option Nat)
  | .message out => out.pointers
  | .journal out => out.pointers
  | .telemetry out => out.pointers
  | .register_map out => out.pointers
  | .buffer p => [p]

def structure_t.Based : structure_t → Prop
  | .message out => out.Based
  | .journal out => out.Based
  | .telemetry out => out.Based
  | .register_map out => out.Based
  | .buffer _ => True

/-- The release of a structure, which zeroes it. The program forgets a buffer that
it gave to `free`. -/
def structure_t.release : structure_t → Owning Fault structure_t
  | .message out => .message <$> owned_array.release ipmb_message_t.zero out
  | .journal out => .journal <$> owned_array.release ipmb_journal_memory.zero out
  | .telemetry out => .telemetry <$> owned_array.release ipmb_telemetry_batch_t.zero out
  | .register_map out => .register_map <$> owned_array.release ipmb_register_map_t.zero out
  | .buffer p => (fun _ => .buffer none) <$> free Fault.doubleFree p

/-- A program decodes into new structures and releases those that it holds, also
more than once. -/
inductive call where
  | parse_message (data : List UInt8)
  | journal_parse (data : List UInt8)
  | extract_telemetry (data : List UInt8)
  | decode_register_map (payload : List UInt8)
  | parse_fragment_payload (payload : List UInt8)
  | release (i : Nat)

/-- One call, whatever its status is. -/
def step (grants : Nat → Bool) (held : List structure_t) : call → Owning Fault (List structure_t)
  | .parse_message data => (fun r => held ++ [.message r.2]) <$> parse_message grants data
  | .journal_parse data => (fun r => held ++ [.journal r.2]) <$> journal_parse grants data
  | .extract_telemetry data => (fun r => held ++ [.telemetry r.2]) <$> extract_telemetry grants data
  | .decode_register_map payload => (fun r => held ++ [.register_map r.2]) <$> decode_register_map grants payload
  | .parse_fragment_payload payload => (fun r => held ++ [.buffer r.2]) <$> parse_fragment_payload grants payload
  | .release i =>
    match held[i]? with
    | none => pure held
    | some st => (fun st => held.set i st) <$> st.release

/-- How a call ends on values: with a copy that goes out of bounds, or not. -/
def call.outcome (alloc : Allocator) : call → Except Fault Unit
  | .decode_register_map payload => (fun _ => ()) <$> ipmb_decode_register_map alloc payload
  | .parse_fragment_payload payload =>
    (fun _ => ()) <$> within (ipmb_load_le32 (payload.drop 4)) (ipmb_parse_fragment_payload alloc payload)
  | _ => .ok ()

/-- The pointers of everything held. -/
def pointers (held : List structure_t) : List (Option Nat) := held.flatMap structure_t.pointers

/-- What is owned are the blocks of what is held. -/
structure Owns (held : List structure_t) (own : Multiset Nat) : Prop where
  based : ∀ st ∈ held, st.Based
  own_eq : own = blocks (pointers held)

section step

variable {E : Fault → Prop} {grants : Nat → Bool} {held : List structure_t} {own : Multiset Nat} {n : Nat}

theorem Owns.append (h : Owns held own) (st : structure_t) (hbased : st.Based) :
    Owns (held ++ [st]) (blocks st.pointers + own) := by
  refine ⟨?_, ?_⟩
  · intro st' hst'
    obtain hst' | hst' := List.mem_append.mp hst'
    · exact h.based st' hst'
    · rwa [List.mem_singleton.mp hst']
  · rw [h.own_eq, pointers, pointers, List.flatMap_append, blocks_append, add_comm, List.flatMap_singleton]

/-- A decoder on memory, with what is held left alone. -/
theorem decode_step {H W : Type} {k : Nat} {view : H → List W → H} {prog : Owning Fault (ipmb_status_t × Output H W)}
    {parse : Allocator → Except Fault (ipmb_status_t × H)} {make : Output H W → structure_t}
    (himplements : Implements grants k view prog parse) (h : Owns held own)
    (hpointers : ∀ out, (make out).pointers = out.pointers) (hbased : ∀ out : Output H W, out.Based → (make out).Based)
    (hE : ∀ e, parse (fun i => grants (n + i)) = .error e → E e) :
    Triple E n own ((fun r => held ++ [make r.2]) <$> prog) fun held' _ own' => Owns held' own' := by
  have hprog := (himplements n).frame own
  rw [zero_add] at hprog
  refine Triple.map (hprog.mono hE ?_)
  rintro r _ _ ⟨_, ⟨_, hout, rfl, _⟩, rfl⟩
  rw [← hpointers]
  exact h.append _ (hbased _ hout)

theorem structure_t.release_rule {st : structure_t} {Q : structure_t → Nat → Multiset Nat → Prop} (hbased : st.Based)
    (h : ∀ st' : structure_t, st'.Based → blocks st'.pointers = 0 → Q st' n own) :
    Triple E n (blocks st.pointers + own) st.release Q := by
  cases st with
  | message out => exact Triple.map (owned_array.release_rule hbased (h _ (Output.bare_based _) rfl))
  | journal out => exact Triple.map (owned_array.release_rule hbased (h _ (Output.bare_based _) rfl))
  | telemetry out => exact Triple.map (owned_array.release_rule hbased (h _ (Output.bare_based _) rfl))
  | register_map out => exact Triple.map (owned_array.release_rule hbased (h _ (Output.bare_based _) rfl))
  | buffer p => exact Triple.map (Triple.free (h (.buffer none) trivial rfl))

/-- A structure and the others. -/
theorem blocks_split {i : Nat} {st : structure_t} (h : held[i]? = some st) (st' : structure_t) :
    blocks (pointers (held.set i st')) = blocks st'.pointers + blocks (pointers (held.eraseIdx i)) := by
  obtain ⟨hi, _⟩ := List.getElem?_eq_some_iff.mp h
  rw [List.set_eq_take_append_cons_drop, if_pos hi, List.eraseIdx_eq_take_drop_succ]
  simp only [pointers, List.flatMap_append, List.flatMap_cons, blocks_append]
  rw [add_left_comm]

theorem release_step (h : Owns held own) (i : Nat) :
    Triple E n own (step grants held (.release i)) fun held' _ own' => Owns held' own' := by
  rw [step]
  cases hget : held[i]? with
  | none => exact Triple.pure h
  | some st =>
    have hself : held.set i st = held := by
      obtain ⟨hi, rfl⟩ := List.getElem?_eq_some_iff.mp hget
      exact List.set_getElem_self hi
    have hown : own = blocks st.pointers + blocks (pointers (held.eraseIdx i)) := by
      rw [← blocks_split hget, hself, h.own_eq]
    rw [hown]
    refine Triple.map (st.release_rule (h.based st (List.mem_of_getElem? hget)) fun st' hbased' hnull => ⟨?_, ?_⟩)
    · intro st'' hst''
      obtain hst'' | rfl := List.mem_or_eq_of_mem_set hst''
      · exact h.based st'' hst''
      · exact hbased'
    · rw [blocks_split hget, hnull, zero_add]

/-- A call keeps what is held and what is owned together; it ends in an error only
as it does on values. -/
theorem step_spec (h : Owns held own) (c : call) :
    Triple (fun e => c.outcome (fun i => grants (n + i)) = .error e) n own (step grants held c)
      fun held' _ own' => Owns held' own' := by
  cases c with
  | parse_message data =>
    exact decode_step ((parse_message_begins data).implements rfl grants) h (fun _ => rfl) (fun _ h => h) nofun
  | journal_parse data =>
    exact decode_step ((journal_parse_begins data).implements rfl grants) h (fun _ => rfl) (fun _ h => h) nofun
  | extract_telemetry data =>
    exact decode_step ((extract_telemetry_begins data).implements rfl grants) h (fun _ => rfl) (fun _ h => h) nofun
  | decode_register_map payload =>
    refine decode_step ((decode_register_map_begins payload).implements rfl grants) h (fun _ => rfl)
      (fun _ h => h) fun e he => ?_
    rw [call.outcome, he]
    rfl
  | parse_fragment_payload payload =>
    have hprog := (parse_fragment_payload_spec grants payload n).frame own
    rw [zero_add] at hprog
    refine Triple.map (hprog.mono (fun e he => ?_) ?_)
    · rw [call.outcome, he]
      rfl
    · rintro r _ _ ⟨_, ⟨_, rfl, _⟩, rfl⟩
      exact h.append (.buffer r.2) trivial
  | release i => exact release_step h i

end step

theorem copy_field_error {payload : List UInt8} {offset length : UInt16} {e : Fault}
    (h : copy_field payload offset length = .error e) : e = .readOutOfBounds := by
  rw [copy_field, read_range] at h
  by_cases hrange : length.toNat = 0 ∨ data_start payload + offset.toNat + length.toNat ≤ payload.length
  · rw [if_pos hrange] at h
    cases h
  · rw [if_neg hrange] at h
    cases h
    rfl

theorem map_values_error {payload : List UInt8} {alloc : Allocator} {left n i : Nat} {e : Fault}
    (h : (map_entries payload).values alloc left n i () = .error e) : e = .readOutOfBounds := by
  induction left generalizing n i with
  | zero => cases h
  | succ left ih =>
    rw [Entries.values] at h
    split at h
    · cases h
    split at h
    · cases h
    rename_i v s _ _
    cases hcopy : (map_entries payload).copy v with
    | error f =>
      rw [hcopy] at h
      cases h
      exact copy_field_error hcopy
    | ok w =>
      rw [hcopy, ok_bind] at h
      cases hrest : (map_entries payload).values alloc left (n + (map_entries payload).blocks) (i + 1) s with
      | error f =>
        rw [hrest] at h
        cases h
        exact ih hrest
      | ok rest =>
        rw [hrest] at h
        cases h

/-- The faults of a call are copies out of bounds. -/
theorem outcome_error {c : call} {alloc : Allocator} {e : Fault} (h : c.outcome alloc = .error e) :
    e = .readOutOfBounds ∨ e = .writeOutOfBounds := by
  cases c with
  | decode_register_map payload =>
    left
    rw [call.outcome] at h
    obtain ⟨rc, header, _, _, _, hparse⟩ | ⟨header, _, hparse⟩ := decode_register_map_begins payload
    · dsimp only at hparse
      rw [hparse] at h
      cases h
    · dsimp only at hparse
      rw [hparse] at h
      by_cases hrefused : alloc 0 = false
      · rw [if_pos hrefused] at h
        cases h
      · rw [if_neg hrefused] at h
        split at h
        · rename_i hvalues
          cases h
          exact map_values_error hvalues
        · cases h
        · cases h
  | parse_fragment_payload payload =>
    right
    rw [call.outcome, within] at h
    split at h
    · cases h
    · cases h
      rfl
  | _ => cases h

def run (grants : Nat → Bool) (calls : List call) : Owning Fault (List structure_t) := calls.foldlM (step grants) []

def release_all (held : List structure_t) : Owning Fault Unit := forM held fun st => (fun _ => ()) <$> st.release

theorem release_all_spec {E : Fault → Prop} {n : Nat} {held : List structure_t} {own : Multiset Nat}
    (h : Owns held own) : Triple E n own (release_all held) fun _ _ own' => own' = 0 := by
  induction held generalizing n own with
  | nil => exact Triple.pure h.own_eq
  | cons st held ih =>
    have hown : own = blocks st.pointers + blocks (pointers held) := by
      rw [h.own_eq, pointers, List.flatMap_cons, blocks_append]
      rfl
    rw [hown, release_all, List.forM_cons]
    refine Triple.bind (Q := fun _ _ own' => own' = blocks (pointers held))
      (Triple.map (st.release_rule (h.based st List.mem_cons_self) fun _ _ _ => rfl)) ?_
    rintro _ n' _ rfl
    exact ih ⟨fun st' hst' => h.based st' (List.mem_cons_of_mem st hst'), rfl⟩

/-- However the requests of a program are answered, a run of decoder calls and
releases goes through, or ends with a copy out of bounds that one of the calls
also makes on values: no block is released twice. The blocks that are allocated
then are those of the structures held, each in one place, and releasing these
leaves nothing. -/
theorem decoder_runs_keep_memory (grants : Nat → Bool) (calls : List call) :
    (∃ e, (run grants calls).run Blocks.empty = .error e ∧ (e = .readOutOfBounds ∨ e = .writeOutOfBounds) ∧
        ∃ c ∈ calls, ∃ n, c.outcome (fun i => grants (n + i)) = .error e) ∨
      ∃ held m, (run grants calls).run Blocks.empty = .ok (held, m) ∧ m.live = blocks (pointers held) ∧
        ∃ m', (release_all held).run m = .ok ((), m') ∧ m'.live = 0 := by
  have hrun : Triple (fun e => ∃ c ∈ calls, ∃ n, c.outcome (fun i => grants (n + i)) = .error e) 0 0
      (run grants calls) fun held _ own => Owns held own := by
    refine Triple.foldlM ⟨nofun, rfl⟩ fun c hc held n own hheld => ?_
    exact (step_spec hheld c).mono (fun e he => ⟨c, hc, n, he⟩) fun _ _ _ hheld' => hheld'
  obtain ⟨e, herror, c, hc, n, he⟩ | ⟨held, m, own, hok, hheld, hlive⟩ := hrun Blocks.empty 0 rfl rfl
  · exact .inl ⟨e, herror, outcome_error he, c, hc, n, he⟩
  · rw [add_zero] at hlive
    refine .inr ⟨held, m, hok, by rw [hlive, hheld.own_eq], ?_⟩
    have hrelease := release_all_spec (E := fun _ => False) (n := m.asked) hheld
    obtain ⟨e, _, himpossible⟩ | ⟨_, m', _, hreleased, rfl, hlive'⟩ := hrelease m 0 rfl (by rw [hlive, add_zero])
    · exact absurd himpossible id
    · exact ⟨m', hreleased, by rw [hlive', add_zero]⟩

end ipmb.decoder_runs
