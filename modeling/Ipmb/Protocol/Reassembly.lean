import Ipmb.Protocol.TransportLayer

open cursor patch
open ipmb.endian ipmb.byte_read

namespace ipmb.transport_layer

/-- The end of a fragment, as a natural number. -/
def ipmb_fragment_t.stop (frag : ipmb_fragment_t) : Nat := frag.offset.toNat + frag.length.toNat

/-- A fragment that reaches beyond the announced size in exact arithmetic. -/
def Exceeds (total_size : UInt32) (frag : ipmb_fragment_t) : Prop := total_size.toNat < frag.stop

instance (total_size : UInt32) (frag : ipmb_fragment_t) : Decidable (Exceeds total_size frag) :=
  inferInstanceAs (Decidable (total_size.toNat < frag.stop))

def ipmb_fragment_t.copy (frag : ipmb_fragment_t) : Copy := { dst := frag.offset.toNat, bytes := frag.data }

theorem check_passes {total_size : UInt32} {frag : ipmb_fragment_t} (h : ¬Exceeds total_size frag) :
    ¬frag.offset + frag.length > total_size := by
  rw [Exceeds, ipmb_fragment_t.stop] at h
  have htotal := total_size.toNat_lt
  rw [gt_iff_lt, UInt32.lt_iff_toNat_lt, UInt32.toNat_add, Nat.mod_eq_of_lt (by omega)]
  exact h

/-- Fragments within the announced size are all copied, in order. -/
theorem reassemble_loop_within {total_size : UInt32} {frags : List ipmb_fragment_t}
    (h : ∀ frag ∈ frags, ¬Exceeds total_size frag) (buf : List UInt8) :
    reassemble_loop total_size frags buf =
      { status := .IPMB_OK
        out := some (frags.foldl (fun buf frag => overlay buf frag.copy.dst frag.copy.bytes) buf)
        copies := frags.map ipmb_fragment_t.copy } := by
  induction frags generalizing buf with
  | nil => rfl
  | cons frag frags ih =>
    have hpass := check_passes (h frag List.mem_cons_self)
    rw [reassemble_loop, if_neg hpass]
    simp only [ih fun f hf => h f (List.mem_cons_of_mem frag hf)]
    rfl

/-- A byte string within the size limit and windows of it, no more than the
limit of fragments, that leave no byte of it out. -/
structure Cover where
  whole : List UInt8
  windows : List Window
  size_le : whole.length ≤ MAX_TOTAL_SIZE
  count_le : windows.length ≤ MAX_FRAGMENTS
  fits : ∀ w ∈ windows, w.Fits whole
  covers : ∀ i < whole.length, ∃ w ∈ windows, w.Contains i

/-- A window on the wire: where it starts, how long it is, and its bytes. -/
def window_enc (whole : List UInt8) (w : Window) : List UInt8 :=
  ipmb_store_le32 (UInt32.ofNat w.offset) ++ ipmb_store_le32 (UInt32.ofNat w.length) ++ w.slice whole

/-- The payload that carries the windows of a byte string. -/
def Cover.payload (c : Cover) : List UInt8 :=
  fragment_magic ++ ipmb_store_le32 (UInt32.ofNat c.whole.length) ++
    ipmb_store_le16 (UInt16.ofNat c.windows.length) ++ c.windows.flatMap (window_enc c.whole)

/-- Windows are fragments that end within the string, and storing the
fragments stores the windows. -/
theorem exists_fragments {whole : List UInt8} {ws : List Window} (hsize : whole.length < 2 ^ 32)
    (hfits : ∀ w ∈ ws, w.Fits whole) :
    ∃ frags : List ipmb_fragment_t, frags.length = ws.length ∧
      frags.flatMap ipmb_fragment_t.enc = ws.flatMap (window_enc whole) ∧
      (∀ frag ∈ frags, frag.stop ≤ whole.length) ∧
      ∀ buf : List UInt8, frags.foldl (fun buf frag => overlay buf frag.copy.dst frag.copy.bytes) buf =
        ws.foldl (fun buf w => overlay buf w.offset (w.slice whole)) buf := by
  induction ws with
  | nil => exact ⟨[], rfl, rfl, by simp, fun _ => rfl⟩
  | cons w ws ih =>
    obtain ⟨frags, hcount, henc, hstop, hfold⟩ := ih fun v hv => hfits v (List.mem_cons_of_mem w hv)
    have hw := hfits w List.mem_cons_self
    have hslice := Window.length_slice hw
    rw [Window.Fits] at hw
    have hoffset : (UInt32.ofNat w.offset).toNat = w.offset :=
      UInt32.toNat_ofNat_of_lt' (lt_of_le_of_lt (by omega) hsize)
    have hlength : (UInt32.ofNat w.length).toNat = w.length :=
      UInt32.toNat_ofNat_of_lt' (lt_of_le_of_lt (by omega) hsize)
    let frag : ipmb_fragment_t :=
      { offset := UInt32.ofNat w.offset
        length := UInt32.ofNat w.length
        data := w.slice whole
        data_length := by rw [hslice, hlength] }
    refine ⟨frag :: frags, by simp [hcount], ?_, ?_, ?_⟩
    · rw [List.flatMap_cons, List.flatMap_cons, henc]
      rfl
    · intro f hf
      obtain rfl | hf := List.mem_cons.mp hf
      · simp only [ipmb_fragment_t.stop, frag, hoffset, hlength]
        exact hw
      · exact hstop f hf
    · intro buf
      rw [List.foldl_cons, List.foldl_cons, hfold]
      simp only [ipmb_fragment_t.copy, frag, hoffset]

/-- The parser hands the fragments of a payload over to reassembly. -/
theorem ipmb_parse_fragment_payload_eq (total : UInt32) {count : UInt16} {frags : List ipmb_fragment_t}
    (hcount : frags.length = count.toNat) (tail : List UInt8) :
    ipmb_parse_fragment_payload Allocator.succeeds
        (fragment_magic ++ ipmb_store_le32 total ++ ipmb_store_le16 count ++
          frags.flatMap ipmb_fragment_t.enc ++ tail) =
      ipmb_reassemble_fragments true frags total := by
  generalize hpayload : fragment_magic ++ ipmb_store_le32 total ++ ipmb_store_le16 count ++
    frags.flatMap ipmb_fragment_t.enc ++ tail = payload
  simp only [List.append_assoc] at hpayload
  have hmagic : payload.take 4 = fragment_magic := by
    rw [← hpayload]
    rfl
  have htotal : ipmb_load_le32 (payload.drop 4) = total := by
    rw [← hpayload]
    exact ipmb_load_le32_store total _
  have hdrop : payload.drop 8 = ipmb_store_le16 count ++ (frags.flatMap ipmb_fragment_t.enc ++ tail) := by
    rw [← hpayload]
    rfl
  have hwalk : (⟨payload, 10⟩ : ipmb_reader_t).rest = frags.flatMap ipmb_fragment_t.enc ++ tail := by
    have hrest : (⟨payload, 10⟩ : ipmb_reader_t).rest = (payload.drop 8).drop 2 := by
      rw [List.drop_drop]
      rfl
    rw [hrest, hdrop]
    rfl
  have hlong : ¬(payload.length < 10 ∨ payload.take 4 ≠ fragment_magic) := by
    rw [not_or, not_not]
    refine ⟨?_, hmagic⟩
    rw [← hpayload]
    simp [fragment_magic]
    omega
  have hloop := (Exact.times (fun _ => read_fragment_exact) 0 count.toNat).complete
    ⟨hcount, fun _ _ => trivial⟩ hwalk
  unfold ipmb_parse_fragment_payload
  rw [if_neg hlong]
  simp only [htotal, hdrop, ipmb_load_le16_store, hloop]
  rfl

/-- Fragments within a size and a number within the limits are all copied into
the zeroed buffer. -/
theorem ipmb_reassemble_fragments_within {total_size : UInt32} {frags : List ipmb_fragment_t}
    (htotal : total_size.toNat ≤ MAX_TOTAL_SIZE) (hcount : frags.length ≤ MAX_FRAGMENTS)
    (h : ∀ frag ∈ frags, ¬Exceeds total_size frag) :
    ipmb_reassemble_fragments true frags total_size =
      { status := .IPMB_OK
        out := some (frags.foldl (fun buf frag => overlay buf frag.copy.dst frag.copy.bytes)
          (List.replicate total_size.toNat 0))
        copies := frags.map ipmb_fragment_t.copy } := by
  rw [ipmb_reassemble_fragments, if_neg (by omega), if_neg (by decide), reassemble_loop_within h]

/-- Reassembly does not depend on the order of the windows, on overlaps,
repetitions or empty windows, nor on what follows them in the payload: windows
that leave nothing out give back the byte string. -/
theorem ipmb_parse_fragment_payload_cover (c : Cover) (tail : List UInt8) :
    (ipmb_parse_fragment_payload Allocator.succeeds (c.payload ++ tail)).status = .IPMB_OK ∧
      (ipmb_parse_fragment_payload Allocator.succeeds (c.payload ++ tail)).out = some c.whole := by
  have hsize : c.whole.length < 2 ^ 32 := lt_of_le_of_lt c.size_le (by decide)
  obtain ⟨frags, hlen, henc, hstop, hfold⟩ := exists_fragments hsize c.fits
  have htotal : (UInt32.ofNat c.whole.length).toNat = c.whole.length := UInt32.toNat_ofNat_of_lt' hsize
  have hcount : (UInt16.ofNat c.windows.length).toNat = c.windows.length :=
    UInt16.toNat_ofNat_of_lt' (lt_of_le_of_lt c.count_le (by decide))
  have hwithin : ∀ frag ∈ frags, ¬Exceeds (UInt32.ofNat c.whole.length) frag := by
    intro frag hfrag
    rw [Exceeds, htotal, not_lt]
    exact hstop frag hfrag
  have hfrags : frags.length = (UInt16.ofNat c.windows.length).toNat := by rw [hcount, hlen]
  have hparse := ipmb_parse_fragment_payload_eq (UInt32.ofNat c.whole.length) hfrags tail
  rw [henc, ipmb_reassemble_fragments_within (by rw [htotal]; exact c.size_le)
    (by rw [hlen]; exact c.count_le) hwithin, hfold, htotal,
    foldl_overlay_eq c.fits c.covers List.length_replicate] at hparse
  rw [Cover.payload, hparse]
  exact ⟨rfl, rfl⟩

/-- Windows in no order that share bytes, one of them empty. -/
def shared_windows : Cover where
  whole := [5, 6, 7, 8, 9]
  windows := [⟨3, 2⟩, ⟨0, 4⟩, ⟨1, 0⟩, ⟨2, 2⟩]
  size_le := by decide
  count_le := by decide
  fits := by decide
  covers := by decide

example : (ipmb_parse_fragment_payload Allocator.succeeds (shared_windows.payload ++ [0xff])).out =
    some [5, 6, 7, 8, 9] := by decide

end ipmb.transport_layer
