import Ipmb.Support.Patch
import Ipmb.Util.ByteRead

open cursor patch
open ipmb.endian ipmb.byte_read

namespace ipmb.transport_layer

/-- The data pointer is the list of the bytes behind it, which callers provide
as many of as the length says. -/
structure ipmb_fragment_t where
  offset : UInt32
  length : UInt32
  data : List UInt8
  data_length : data.length = length.toNat

/-- A copy into the output buffer: the index of the first byte written and the
bytes. -/
structure Copy where
  dst : Nat
  bytes : List UInt8
  deriving Repr, DecidableEq

/-- The status, the bytes behind `*out` with `*out_len` as their number if they
were set, and every copy made on the way. -/
structure Reassembly where
  status : ipmb_status_t
  out : Option (List UInt8)
  copies : List Copy
  deriving Repr, DecidableEq

def MAX_TOTAL_SIZE : Nat := 4 * 1024 * 1024

def MAX_FRAGMENTS : Nat := 4096

/-- The copy loop. The sum in the check is one of 32-bit numbers. Bytes copied
to indices outside the buffer are not part of it. -/
def reassemble_loop (total_size : UInt32) : List ipmb_fragment_t → List UInt8 → Reassembly
  | [], buf => { status := .IPMB_OK, out := some buf, copies := [] }
  | frag :: frags, buf =>
    if frag.offset + frag.length > total_size then
      { status := .IPMB_ERR_INVALID, out := none, copies := [] }
    else
      let copy := { dst := frag.offset.toNat, bytes := frag.data }
      let rest := reassemble_loop total_size frags (overlay buf copy.dst copy.bytes)
      { rest with copies := copy :: rest.copies }

def ipmb_reassemble_fragments (calloc : Bool) (frags : List ipmb_fragment_t) (total_size : UInt32) :
    Reassembly :=
  if total_size.toNat > MAX_TOTAL_SIZE ∨ frags.length > MAX_FRAGMENTS then
    { status := .IPMB_ERR_LIMIT, out := none, copies := [] }
  else if calloc = false then { status := .IPMB_ERR_ALLOC, out := none, copies := [] }
  else reassemble_loop total_size frags (List.replicate total_size.toNat 0)

/-- The magic number `IFRG`. -/
def fragment_magic : List UInt8 := [0x49, 0x46, 0x52, 0x47]

/-- One round of the wire walk, at the position of the cursor. -/
def read_fragment : Read ipmb_fragment_t := fun r =>
  if r.data.length - r.pos < 8 then .error .IPMB_ERR_SHORT_READ
  else
    let offset := ipmb_load_le32 (r.data.drop r.pos)
    let length := ipmb_load_le32 (r.data.drop (r.pos + 4))
    let pos := r.pos + 8
    if h : length.toNat > r.data.length - pos then .error .IPMB_ERR_SHORT_READ
    else
      let data := (r.data.drop pos).take length.toNat
      have data_length : data.length = length.toNat := by
        rw [List.length_take, List.length_drop]
        omega
      .ok ({ offset, length, data, data_length }, { r with pos := pos + length.toNat })

/-- Allocation 0 is the fragment table and allocation 1 the output buffer. -/
def ipmb_parse_fragment_payload (alloc : Allocator) (payload : List UInt8) : Reassembly :=
  if payload.length < 10 ∨ payload.take 4 ≠ fragment_magic then
    { status := .IPMB_ERR_BAD_MAGIC, out := none, copies := [] }
  else
    let total := ipmb_load_le32 (payload.drop 4)
    let count := ipmb_load_le16 (payload.drop 8)
    if alloc 0 = false then { status := .IPMB_ERR_ALLOC, out := none, copies := [] }
    else
      match (times (fun _ => read_fragment) 0 count.toNat).run { data := payload, pos := 10 } with
      | .error status => { status, out := none, copies := [] }
      | .ok (frags, _) => ipmb_reassemble_fragments (alloc 1) frags total

/-- A fragment on the wire. -/
def ipmb_fragment_t.enc (frag : ipmb_fragment_t) : List UInt8 :=
  ipmb_store_le32 frag.offset ++ ipmb_store_le32 frag.length ++ frag.data

theorem ipmb_fragment_t.length_enc (frag : ipmb_fragment_t) :
    frag.enc.length = 8 + frag.length.toNat := by
  simp only [ipmb_fragment_t.enc, List.length_append, length_ipmb_store_le32, frag.data_length]

/-- What a round of the wire walk takes from the bytes at its position. -/
theorem read_fragment_eq_ok_iff {r r' : ipmb_reader_t} {frag : ipmb_fragment_t} :
    read_fragment.run r = .ok (frag, r') ↔
      8 + frag.length.toNat ≤ r.rest.length ∧ frag.offset = ipmb_load_le32 r.rest ∧
        frag.length = ipmb_load_le32 (r.rest.drop 4) ∧
        frag.data = (r.rest.drop 8).take frag.length.toNat ∧ r' = r.advance (8 + frag.length.toNat) := by
  have hroom : r.rest.length = r.data.length - r.pos := List.length_drop
  have hlength : r.rest.drop 4 = r.data.drop (r.pos + 4) := List.drop_drop
  have hdata : r.rest.drop 8 = r.data.drop (r.pos + 8) := List.drop_drop
  have hrest : r.rest = r.data.drop r.pos := rfl
  simp only [StateT.run, read_fragment, hlength, hdata]
  constructor
  · intro h
    split at h
    · cases h
    split at h
    · cases h
    obtain ⟨rfl, rfl⟩ := Prod.mk.inj (Except.ok.inj h)
    refine ⟨?_, rfl, rfl, rfl, by simp [Cursor.advance, Nat.add_assoc]⟩
    simp only
    omega
  · rintro ⟨hlong, hoff, hlen, hbytes, rfl⟩
    obtain ⟨offset, length, data, data_length⟩ := frag
    simp only at hlong hoff hlen hbytes
    subst hoff hlen hbytes
    rw [if_neg (by omega), dif_neg (by omega)]
    simp only [Cursor.advance, hrest, Nat.add_assoc]

/-- The wire walk reads exactly the encodings of fragments. -/
theorem read_fragment_exact : Exact read_fragment (fun _ => True) ipmb_fragment_t.enc := by
  intro r frag r'
  rw [read_fragment_eq_ok_iff, frag.length_enc, true_and]
  constructor
  · rintro ⟨hlong, hoff, hlen, hbytes, rfl⟩
    refine ⟨?_, rfl⟩
    have hoffset := ipmb_store_le32_load_append r.rest (by omega)
    have hlength := ipmb_store_le32_load_append (r.rest.drop 4) (by
      rw [List.length_drop]
      omega)
    rw [List.drop_drop] at hlength
    calc r.rest = ipmb_store_le32 frag.offset ++ r.rest.drop 4 := by rw [hoff, hoffset]
      _ = ipmb_store_le32 frag.offset ++ (ipmb_store_le32 frag.length ++ r.rest.drop 8) := by
        rw [hlen, hlength]
      _ = ipmb_store_le32 frag.offset ++ (ipmb_store_le32 frag.length ++
          (frag.data ++ (r.rest.drop 8).drop frag.length.toNat)) := by
        rw [hbytes, List.take_append_drop]
      _ = frag.enc ++ (r.advance (8 + frag.length.toNat)).rest := by
        simp [ipmb_fragment_t.enc]
  · rintro ⟨hrest, rfl⟩
    have hlen : r.rest.length = frag.enc.length + (r.advance (8 + frag.length.toNat)).rest.length := by
      rw [← List.length_append, ← hrest]
    rw [frag.length_enc] at hlen
    generalize (r.advance (8 + frag.length.toNat)).rest = tail at hrest hlen
    simp only [ipmb_fragment_t.enc, List.append_assoc] at hrest
    have hlength : r.rest.drop 4 = ipmb_store_le32 frag.length ++ (frag.data ++ tail) := by
      rw [hrest]
      exact List.drop_left' (length_ipmb_store_le32 _)
    have hdata : r.rest.drop 8 = frag.data ++ tail := by
      have hdrop : r.rest.drop 8 = (r.rest.drop 4).drop 4 := by rw [List.drop_drop]
      rw [hdrop, hlength]
      exact List.drop_left' (length_ipmb_store_le32 _)
    refine ⟨by omega, ?_, ?_, ?_, rfl⟩
    · rw [hrest, ipmb_load_le32_store]
    · rw [hlength, ipmb_load_le32_store]
    · rw [hdata, List.take_left' frag.data_length]

end ipmb.transport_layer
