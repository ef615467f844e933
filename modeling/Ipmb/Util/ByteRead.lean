import Ipmb.Types
import Ipmb.Util.Endian

open cursor
open ipmb.endian

namespace ipmb.byte_read

/-- The C readers advance the reader and store through an out parameter, or
return a status that is not `IPMB_OK` and leave both alone. -/
abbrev Read := Decoder ipmb_status_t UInt8

def ipmb_reader_init (data : List UInt8) : ipmb_reader_t := { data, pos := 0 }

def ipmb_reader_remaining (r : ipmb_reader_t) : Nat :=
  if r.pos ≤ r.data.length then r.data.length - r.pos else 0

/-- The common body of the readers: check the remaining bytes, use the bytes
at the current position, advance. -/
def read_width {A : Type} (width : Nat) (load : List UInt8 → A) : Read A := fun r =>
  if ipmb_reader_remaining r < width then .error .IPMB_ERR_SHORT_READ
  else .ok (load (r.data.drop r.pos), { r with pos := r.pos + width })

def ipmb_read_u8 : Read UInt8 := read_width 1 (fun p => p.getD 0 0)

def ipmb_read_le16 : Read UInt16 := read_width 2 ipmb_load_le16

def ipmb_read_le32 : Read UInt32 := read_width 4 ipmb_load_le32

def ipmb_read_le64 : Read UInt64 := read_width 8 ipmb_load_le64

/-- The C function returns the current position as a pointer; its callers use
the `n` bytes there. -/
def ipmb_read_bytes (n : Nat) : Read (List UInt8) := read_width n (fun p => p.take n)

@[simp] theorem rest_ipmb_reader_init (data : List UInt8) : (ipmb_reader_init data).rest = data := rfl

theorem ipmb_reader_remaining_eq (r : ipmb_reader_t) : ipmb_reader_remaining r = r.rest.length := by
  unfold ipmb_reader_remaining Cursor.rest
  rw [List.length_drop]
  split <;> omega

theorem read_width_run {A : Type} (width : Nat) (load : List UInt8 → A) (r : ipmb_reader_t) :
    (read_width width load).run r =
      if r.rest.length < width then .error .IPMB_ERR_SHORT_READ
      else .ok (load r.rest, r.advance width) := by
  simp only [StateT.run, read_width, ipmb_reader_remaining_eq]
  rfl

/-- Failing for lack of bytes is the only way a reader fails. -/
theorem read_width_errors {A : Type} (width : Nat) (load : List UInt8 → A) :
    ErrorsIn (read_width width load) (· = .IPMB_ERR_SHORT_READ) := by
  intro r status h
  rw [read_width_run] at h
  split at h
  · simpa using h.symm
  · cases h

/-- A reader never fails with the status of success. -/
theorem read_width_refuses {A : Type} (width : Nat) (load : List UInt8 → A) :
    ErrorsIn (read_width width load) (· ≠ .IPMB_OK) := by
  intro r status h
  rw [read_width_errors width load r status h]
  decide

/-- A reader is exact for a fixed-width format when loading and storing are
inverse on windows of that width. -/
theorem read_width_exact {A : Type} {width : Nat} {load : List UInt8 → A} {Valid : A → Prop}
    {store : A → List UInt8} (hlength : ∀ a, Valid a → (store a).length = width)
    (hload : ∀ a tail, Valid a → load (store a ++ tail) = a)
    (hstore : ∀ bytes, width ≤ bytes.length → Valid (load bytes) ∧ store (load bytes) = bytes.take width) :
    Exact (read_width width load) Valid store := by
  intro r a r'
  rw [read_width_run]
  constructor
  · intro h
    split at h
    · cases h
    · rename_i hroom
      obtain ⟨rfl, rfl⟩ := Prod.mk.inj (Except.ok.inj h)
      obtain ⟨hvalid, hbytes⟩ := hstore r.rest (by omega)
      refine ⟨hvalid, ?_, by rw [hlength _ hvalid]⟩
      rw [hbytes, Cursor.rest_advance, List.take_append_drop]
  · rintro ⟨hvalid, hrest, hadvance⟩
    rw [hlength a hvalid] at hadvance
    have hroom : ¬ r.rest.length < width := by
      rw [hrest, List.length_append, hlength a hvalid]
      omega
    rw [if_neg hroom, hadvance, hrest, hload a _ hvalid]

theorem ipmb_read_u8_exact : Exact ipmb_read_u8 (fun _ => True) (fun v => [v]) := by
  apply read_width_exact
  · simp
  · simp
  · intro bytes hroom
    cases bytes with
    | nil => simp at hroom
    | cons b tail => simp

theorem ipmb_read_le16_exact : Exact ipmb_read_le16 (fun _ => True) ipmb_store_le16 := by
  apply read_width_exact
  · simp
  · exact fun v tail _ => ipmb_load_le16_store v tail
  · intro bytes hroom
    match bytes, hroom with
    | b₀ :: b₁ :: tail, _ => simp [ipmb_store_le16_load]

theorem ipmb_read_le32_exact : Exact ipmb_read_le32 (fun _ => True) ipmb_store_le32 := by
  apply read_width_exact
  · simp
  · exact fun v tail _ => ipmb_load_le32_store v tail
  · intro bytes hroom
    match bytes, hroom with
    | b₀ :: b₁ :: b₂ :: b₃ :: tail, _ => simp [ipmb_store_le32_load]

theorem ipmb_read_le64_exact : Exact ipmb_read_le64 (fun _ => True) store_le64 := by
  apply read_width_exact
  · simp
  · exact fun v tail _ => ipmb_load_le64_store v tail
  · intro bytes hroom
    match bytes, hroom with
    | b₀ :: b₁ :: b₂ :: b₃ :: b₄ :: b₅ :: b₆ :: b₇ :: tail, _ => simp [store_le64_load]

theorem ipmb_read_bytes_exact (n : Nat) :
    Exact (ipmb_read_bytes n) (fun bytes => bytes.length = n) id := by
  apply read_width_exact
  · simp
  · rintro bytes tail rfl
    simp
  · intro bytes hroom
    simpa using hroom

end ipmb.byte_read
