import Ipmb.Protocol.Reassembly

open cursor patch
open ipmb.endian ipmb.byte_read

namespace ipmb.transport_layer

/-- The bounds that reassembly is to keep: success means that no fragment
reaches beyond the size, no byte is written beyond it, and a fragment that
reaches beyond it is refused. -/
structure Bounded (total_size : UInt32) (frags : List ipmb_fragment_t) (r : Reassembly) : Prop where
  ok_within : r.status = .IPMB_OK → ∀ frag ∈ frags, ¬Exceeds total_size frag
  writes_within : ∀ copy ∈ r.copies, ∀ k < copy.bytes.length, copy.dst + k < total_size.toNat
  exceeding_invalid : (∃ frag ∈ frags, Exceeds total_size frag) → r.status = .IPMB_ERR_INVALID

/-- The end of a fragment is above the size even modulo 2^32. -/
def StaysAbove (total_size : UInt32) (frag : ipmb_fragment_t) : Prop :=
  frag.stop < 2 ^ 32 ∨ 2 ^ 32 + total_size.toNat < frag.stop

/-- No fragment exceeds the size, or the sizes are within the limits and the
first fragment that exceeds stays above the size modulo 2^32. -/
def Guarded (total_size : UInt32) (frags : List ipmb_fragment_t) : Prop :=
  (∀ frag ∈ frags, ¬Exceeds total_size frag) ∨
    (total_size.toNat ≤ MAX_TOTAL_SIZE ∧ frags.length ≤ MAX_FRAGMENTS ∧
      ∃ frag, frags.find? (fun f => decide (Exceeds total_size f)) = some frag ∧
        StaysAbove total_size frag)

/-- On a fragment that exceeds the size, the check in 32-bit arithmetic fires
exactly when the end stays above. -/
theorem check_fires_iff {total_size : UInt32} {frag : ipmb_fragment_t} (h : Exceeds total_size frag) :
    frag.offset + frag.length > total_size ↔ StaysAbove total_size frag := by
  have hoffset := frag.offset.toNat_lt
  have hlength := frag.length.toNat_lt
  rw [gt_iff_lt, UInt32.lt_iff_toNat_lt, UInt32.toNat_add]
  unfold Exceeds ipmb_fragment_t.stop at h
  unfold StaysAbove ipmb_fragment_t.stop
  omega

/-- Fragments within the size are copied before the loop goes on. -/
theorem reassemble_loop_append {total_size : UInt32} {front : List ipmb_fragment_t}
    (h : ∀ frag ∈ front, ¬Exceeds total_size frag) (rest : List ipmb_fragment_t) (buf : List UInt8) :
    ∃ buf', reassemble_loop total_size (front ++ rest) buf =
      { reassemble_loop total_size rest buf' with
        copies := front.map ipmb_fragment_t.copy ++ (reassemble_loop total_size rest buf').copies } := by
  induction front generalizing buf with
  | nil => exact ⟨buf, rfl⟩
  | cons frag front ih =>
    have hpass := check_passes (h frag List.mem_cons_self)
    obtain ⟨buf', hloop⟩ := ih (fun f hf => h f (List.mem_cons_of_mem frag hf))
      (overlay buf frag.offset.toNat frag.data)
    refine ⟨buf', ?_⟩
    rw [List.cons_append, reassemble_loop, if_neg hpass]
    simp only [hloop]
    rfl

theorem copy_within {total_size : UInt32} {frag : ipmb_fragment_t} (h : ¬Exceeds total_size frag)
    {k : Nat} (hk : k < frag.copy.bytes.length) : frag.copy.dst + k < total_size.toNat := by
  have hlen : frag.copy.bytes.length = frag.length.toNat := frag.data_length
  have hdst : frag.copy.dst = frag.offset.toNat := rfl
  unfold Exceeds ipmb_fragment_t.stop at h
  omega

/-- A fragment that exceeds the size unnoticed has its last byte written
beyond it. -/
theorem copy_beyond {total_size : UInt32} {frag : ipmb_fragment_t} (h : Exceeds total_size frag)
    (hunnoticed : ¬StaysAbove total_size frag) :
    ∃ k < frag.copy.bytes.length, ¬frag.copy.dst + k < total_size.toNat := by
  have hlen : frag.copy.bytes.length = frag.length.toNat := frag.data_length
  have hdst : frag.copy.dst = frag.offset.toNat := rfl
  have hoffset := frag.offset.toNat_lt
  unfold Exceeds ipmb_fragment_t.stop at h
  unfold StaysAbove ipmb_fragment_t.stop at hunnoticed
  refine ⟨frag.length.toNat - 1, by omega, by omega⟩

/-- Fragments within the size keep the bounds, whatever the limits say. -/
theorem bounded_of_within {total_size : UInt32} {frags : List ipmb_fragment_t}
    (h : ∀ frag ∈ frags, ¬Exceeds total_size frag) :
    Bounded total_size frags (ipmb_reassemble_fragments true frags total_size) := by
  have hnone : ¬∃ frag ∈ frags, Exceeds total_size frag := by
    rintro ⟨frag, hfrag, hexceeds⟩
    exact h frag hfrag hexceeds
  refine ⟨fun _ => h, ?_, fun hsome => absurd hsome hnone⟩
  by_cases hlimits : total_size.toNat > MAX_TOTAL_SIZE ∨ frags.length > MAX_FRAGMENTS
  · rw [ipmb_reassemble_fragments, if_pos hlimits]
    simp
  · rw [ipmb_reassemble_fragments_within (by omega) (by omega) h]
    intro copy hcopy k hk
    obtain ⟨frag, hfrag, rfl⟩ := List.mem_map.mp hcopy
    exact copy_within (h frag hfrag) hk

/-- The first fragment that exceeds the size ends the loop if the check fires
on it; otherwise it is copied. -/
theorem reassemble_loop_first_exceeding {total_size : UInt32} {front : List ipmb_fragment_t}
    {frag : ipmb_fragment_t} (hfront : ∀ f ∈ front, ¬Exceeds total_size f)
    (hexceeds : Exceeds total_size frag) (rest : List ipmb_fragment_t) (buf : List UInt8) :
    (StaysAbove total_size frag →
      reassemble_loop total_size (front ++ frag :: rest) buf =
        { status := .IPMB_ERR_INVALID, out := none, copies := front.map ipmb_fragment_t.copy }) ∧
    (¬StaysAbove total_size frag →
      frag.copy ∈ (reassemble_loop total_size (front ++ frag :: rest) buf).copies) := by
  obtain ⟨buf', hloop⟩ := reassemble_loop_append hfront (frag :: rest) buf
  rw [hloop, reassemble_loop]
  constructor
  · intro habove
    rw [if_pos ((check_fires_iff hexceeds).mpr habove)]
    simp
  · intro hunnoticed
    rw [if_neg (mt (check_fires_iff hexceeds).mp hunnoticed)]
    exact List.mem_append_right _ List.mem_cons_self

/-- Of fragments that exceed the total size there is a first one. -/
theorem exists_first_exceeding {total_size : UInt32} {frags : List ipmb_fragment_t}
    (hsome : ∃ frag ∈ frags, Exceeds total_size frag) :
    ∃ front frag rest, frags = front ++ frag :: rest ∧ (∀ f ∈ front, ¬Exceeds total_size f) ∧
      Exceeds total_size frag ∧ frags.find? (fun f => decide (Exceeds total_size f)) = some frag := by
  cases hfind : frags.find? (fun f => decide (Exceeds total_size f)) with
  | none =>
    obtain ⟨frag, hfrag, hexceeds⟩ := hsome
    exact absurd hexceeds (by simpa using List.find?_eq_none.mp hfind frag hfrag)
  | some frag =>
    obtain ⟨hexceeds, front, rest, hsplit, hfront⟩ := List.find?_eq_some_iff_append.mp hfind
    exact ⟨front, frag, rest, hsplit, fun f hf => by simpa using hfront f hf, of_decide_eq_true hexceeds, rfl⟩

/-- Reassembly keeps its bounds exactly on guarded fragments. -/
theorem bounded_iff_guarded (total_size : UInt32) (frags : List ipmb_fragment_t) :
    Bounded total_size frags (ipmb_reassemble_fragments true frags total_size) ↔
      Guarded total_size frags := by
  by_cases hwithin : ∀ frag ∈ frags, ¬Exceeds total_size frag
  · exact ⟨fun _ => .inl hwithin, fun _ => bounded_of_within hwithin⟩
  have hsome : ∃ frag ∈ frags, Exceeds total_size frag := by
    by_contra hnone
    exact hwithin fun frag hfrag hexceeds => hnone ⟨frag, hfrag, hexceeds⟩
  by_cases hlimits : total_size.toNat > MAX_TOTAL_SIZE ∨ frags.length > MAX_FRAGMENTS
  · have hstatus : (ipmb_reassemble_fragments true frags total_size).status = .IPMB_ERR_LIMIT := by
      rw [ipmb_reassemble_fragments, if_pos hlimits]
    constructor
    · intro hbounded
      have hinvalid := hbounded.exceeding_invalid hsome
      rw [hstatus] at hinvalid
      cases hinvalid
    · rintro (h | ⟨htotal, hcount, _⟩)
      · exact absurd h hwithin
      · omega
  obtain ⟨front, frag, rest, hsplit, hfront, hexceeds, hfind⟩ := exists_first_exceeding hsome
  have hrun : ipmb_reassemble_fragments true frags total_size =
      reassemble_loop total_size (front ++ frag :: rest) (List.replicate total_size.toNat 0) := by
    rw [ipmb_reassemble_fragments, if_neg hlimits, if_neg (by decide), ← hsplit]
  obtain ⟨hfires, hcopied⟩ := reassemble_loop_first_exceeding hfront hexceeds rest
    (List.replicate total_size.toNat 0)
  constructor
  · intro hbounded
    refine .inr ⟨by omega, by omega, frag, hfind, ?_⟩
    by_contra hunnoticed
    have hwrites := hbounded.writes_within
    rw [hrun] at hwrites
    obtain ⟨k, hk, hbeyond⟩ := copy_beyond hexceeds hunnoticed
    exact hbeyond (hwrites frag.copy (hcopied hunnoticed) k hk)
  · rintro (h | ⟨_, _, first, hfirst, habove⟩)
    · exact absurd h hwithin
    obtain rfl : frag = first := Option.some.inj (hfind.symm.trans hfirst)
    rw [hrun, hfires habove]
    refine ⟨?_, ?_, fun _ => rfl⟩
    · intro hok
      cases hok
    · intro copy hcopy k hk
      obtain ⟨f, hf, rfl⟩ := List.mem_map.mp hcopy
      exact copy_within (hfront f hf) hk

/-- What a fragment payload carries: a size and fragments, followed by
anything. -/
def Carries (payload : List UInt8) (total_size : UInt32) (frags : List ipmb_fragment_t) : Prop :=
  ∃ (count : UInt16) (tail : List UInt8), frags.length = count.toNat ∧
    payload = fragment_magic ++ ipmb_store_le32 total_size ++ ipmb_store_le16 count ++
      frags.flatMap ipmb_fragment_t.enc ++ tail

theorem read_fragment_errors : ErrorsIn read_fragment (· ≠ .IPMB_OK) := by
  intro r status h
  simp only [StateT.run, read_fragment] at h
  split at h
  · cases h
    decide
  split at h
  · cases h
    decide
  · cases h

/-- The parser copies nothing from a payload that does not carry fragments, and
does not succeed on it. -/
theorem ipmb_parse_fragment_payload_malformed {payload : List UInt8}
    (h : ¬∃ total_size frags, Carries payload total_size frags) :
    (ipmb_parse_fragment_payload Allocator.succeeds payload).status ≠ .IPMB_OK ∧
      (ipmb_parse_fragment_payload Allocator.succeeds payload).copies = [] := by
  unfold ipmb_parse_fragment_payload
  split
  · simp
  rename_i hmagic
  rw [not_or, not_not] at hmagic
  obtain ⟨hlong, hmagic⟩ := hmagic
  rw [if_neg (Allocator.not_refused _)]
  split
  · rename_i status herror
    exact ⟨ErrorsIn.times (fun _ => read_fragment_errors) _ _ _ _ herror, rfl⟩
  · rename_i frags stop hwalk
    obtain ⟨⟨hcount, _⟩, hbytes, _⟩ := (Exact.times (fun _ => read_fragment_exact) _ _ _ _ _).mp hwalk
    refine absurd ⟨ipmb_load_le32 (payload.drop 4), frags, ipmb_load_le16 (payload.drop 8), stop.rest,
      hcount, ?_⟩ h
    have htotal := ipmb_store_le32_load_append (payload.drop 4) (by
      rw [List.length_drop]
      omega)
    have hcount := ipmb_store_le16_load_append (payload.drop 8) (by
      rw [List.length_drop]
      omega)
    rw [List.drop_drop] at htotal hcount
    have hbytes : payload.drop 10 = frags.flatMap ipmb_fragment_t.enc ++ stop.rest := hbytes
    calc payload = payload.take 4 ++ payload.drop 4 := (List.take_append_drop 4 payload).symm
      _ = fragment_magic ++ (ipmb_store_le32 (ipmb_load_le32 (payload.drop 4)) ++ payload.drop 8) := by
        rw [hmagic, htotal]
      _ = fragment_magic ++ (ipmb_store_le32 (ipmb_load_le32 (payload.drop 4)) ++
          (ipmb_store_le16 (ipmb_load_le16 (payload.drop 8)) ++ payload.drop 10)) := by rw [hcount]
      _ = _ := by
        rw [hbytes]
        simp only [List.append_assoc]

/-- Reassembly keeps its bounds exactly on guarded fragments, called directly
or through the parser of a payload that carries them. From a payload that
carries none nothing is copied. -/
theorem fragments_bounded_iff_guarded (total_size : UInt32) (frags : List ipmb_fragment_t)
    (payload : List UInt8) :
    (Bounded total_size frags (ipmb_reassemble_fragments true frags total_size) ↔ Guarded total_size frags) ∧
    (Carries payload total_size frags →
      (Bounded total_size frags (ipmb_parse_fragment_payload Allocator.succeeds payload) ↔
        Guarded total_size frags)) ∧
    ((¬∃ total_size frags, Carries payload total_size frags) →
      (ipmb_parse_fragment_payload Allocator.succeeds payload).status ≠ .IPMB_OK ∧
        (ipmb_parse_fragment_payload Allocator.succeeds payload).copies = []) := by
  refine ⟨bounded_iff_guarded total_size frags, ?_, ipmb_parse_fragment_payload_malformed⟩
  rintro ⟨count, tail, hcount, rfl⟩
  rw [ipmb_parse_fragment_payload_eq _ hcount tail]
  exact bounded_iff_guarded total_size frags

/-- One byte for index 0xFFFFFFFF of an output of one byte. -/
def wrapping_payload : List UInt8 :=
  fragment_magic ++ [1, 0, 0, 0] ++ [1, 0] ++ [0xff, 0xff, 0xff, 0xff] ++ [1, 0, 0, 0] ++ [0xaa]

/-- The end of the fragment wraps to 0, the check passes, and the parser
reports success after it wrote outside the buffer. -/
theorem wrapping_payload_accepted :
    ipmb_parse_fragment_payload Allocator.succeeds wrapping_payload =
      { status := .IPMB_OK
        out := some [0]
        copies := [{ dst := 0xffffffff, bytes := [0xaa] }] } ∧
    ¬Bounded 1 [{ offset := 0xffffffff, length := 1, data := [0xaa], data_length := rfl }]
      (ipmb_parse_fragment_payload Allocator.succeeds wrapping_payload) := by
  have hrun : ipmb_parse_fragment_payload Allocator.succeeds wrapping_payload =
      { status := .IPMB_OK
        out := some [0]
        copies := [{ dst := 0xffffffff, bytes := [0xaa] }] } := by
    rfl
  refine ⟨hrun, ?_⟩
  rintro ⟨_, hwrites, _⟩
  rw [hrun] at hwrites
  exact absurd (hwrites _ List.mem_cons_self 0 (by decide)) (by decide)

end ipmb.transport_layer
