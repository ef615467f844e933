import Ipmb.Telemetry.Extractor

open cursor
open ipmb.endian ipmb.byte_read

namespace ipmb.extractor

/-- A point on the wire, where the name has a length. -/
structure Point where
  type : UInt8
  name : List UInt8
  value : List UInt8
  deriving Repr, DecidableEq

def Point.enc (p : Point) : List UInt8 :=
  [p.type] ++ ipmb_store_le16 (UInt16.ofNat p.name.length) ++ p.name ++
    ipmb_store_le32 (UInt32.ofNat p.value.length) ++ p.value

/-- The lengths of a point fit their fields. -/
structure Point.Fits (p : Point) : Prop where
  name_lt : p.name.length < 2 ^ 16
  value_lt : p.value.length < 2 ^ 32

instance (p : Point) : Decidable p.Fits :=
  decidable_of_iff (p.name.length < 2 ^ 16 ∧ p.value.length < 2 ^ 32) ⟨fun h => ⟨h.1, h.2⟩, fun h => ⟨h.1, h.2⟩⟩

/-- A point as it lies in memory. -/
def Point.memory (p : Point) : ipmb_telemetry_point_t := { type := p.type, name := p.name ++ [0], value := p.value }

/-- A batch within the limits of the format. -/
structure WireBatch where
  schema : UInt16
  points : List Point
  points_le : points.length ≤ MAX_POINTS
  points_fit : ∀ p ∈ points, p.Fits

def WireBatch.enc (b : WireBatch) : List UInt8 :=
  telemetry_magic ++ ipmb_store_le16 b.schema ++ ipmb_store_le16 (UInt16.ofNat b.points.length) ++
    b.points.flatMap Point.enc

def WireBatch.memory (b : WireBatch) : ipmb_telemetry_batch_t :=
  { schema := b.schema
    point_count := UInt16.ofNat b.points.length
    points := b.points.map Point.memory }

/-- The point that a point in memory was copied from. -/
def ipmb_telemetry_point_t.wire (m : ipmb_telemetry_point_t) : Point :=
  { type := m.type, name := m.name.dropLast, value := m.value }

@[simp] theorem wire_memory (p : Point) : p.memory.wire = p := by
  simp [Point.memory, ipmb_telemetry_point_t.wire]

/-- The point reader accepts exactly the encodings of points. -/
theorem read_point_exact :
    Exact (read_point true true) (fun m => m.wire.Fits ∧ m.wire.memory = m) (fun m => m.wire.enc) := by
  have hlast (type : UInt8) (name value : List UInt8) :=
    (Exact.pure (ε := ipmb_status_t) (β := UInt8)
      ({ type, name := (copy_name true name).getD [], value } : ipmb_telemetry_point_t)).reject_if
        (e := .IPMB_ERR_ALLOC) (by simp [copy_name] : ¬(copy_name true name = none ∨ true = false))
  have hvalue (type : UInt8) (name : List UInt8) (value_len : UInt32) :=
    (ipmb_read_bytes_exact value_len.toNat).bind ipmb_telemetry_point_t.value (hlast type name)
      (by rintro value m rfl; rfl)
  have hvalueLen (type : UInt8) (name : List UInt8) :=
    ipmb_read_le32_exact.bind (fun m => UInt32.ofNat m.value.length) (hvalue type name)
      (by rintro value_len m ⟨hlength, _⟩; rw [hlength, UInt32.ofNat_toNat])
  have hname (type : UInt8) (name_len : UInt16) :=
    (ipmb_read_bytes_exact name_len.toNat).bind (fun m => m.wire.name) (hvalueLen type)
      (by
        rintro name m ⟨_, _, hm⟩
        refine (congrArg (fun m => m.wire.name) hm).trans ?_
        simp [copy_name, ipmb_telemetry_point_t.wire])
  have hnameLen (type : UInt8) :=
    ipmb_read_le16_exact.bind (fun m => UInt16.ofNat m.wire.name.length) (hname type)
      (by rintro name_len m ⟨hlength, _⟩; rw [hlength, UInt16.ofNat_toNat])
  have hpoint := ipmb_read_u8_exact.bind ipmb_telemetry_point_t.type hnameLen
    (by rintro type m ⟨_, _, _, _, hm⟩; exact congrArg _ hm)
  refine hpoint.congr (fun m => ?_) (fun m _ => ?_)
  · constructor
    · rintro ⟨_, _, hname, _, hvalue, hm⟩
      refine ⟨⟨?_, ?_⟩, ?_⟩
      · rw [hname]
        exact UInt16.toNat_lt _
      · rw [show m.wire.value.length = _ from hvalue]
        exact UInt32.toNat_lt _
      · exact hm.symm
    · rintro ⟨⟨hname, hvalue⟩, hm⟩
      refine ⟨trivial, trivial, (UInt16.toNat_ofNat_of_lt' hname).symm, trivial,
        (UInt32.toNat_ofNat_of_lt' hvalue).symm, hm.symm⟩
  · simp [Point.enc, ipmb_telemetry_point_t.wire]

/-- A point is never refused with the status of success. -/
theorem read_point_refuses (malloc_name malloc_value : Bool) :
    ErrorsIn (read_point malloc_name malloc_value) (· ≠ .IPMB_OK) := by
  have hread {A : Type} := read_width_refuses (A := A)
  refine (hread _ _).bind fun _ => (hread _ _).bind fun _ => (hread _ _).bind fun _ => ?_
  refine (hread _ _).bind fun _ => (hread _ _).bind fun _ => ?_
  exact (ErrorsIn.reject_if (by decide)).bind fun _ => ErrorsIn.pure

/-- A point that is accepted got its memory. -/
theorem read_point_granted {malloc_name malloc_value : Bool} {c : ipmb_reader_t}
    {r : ipmb_telemetry_point_t × ipmb_reader_t} (h : (read_point malloc_name malloc_value).run c = .ok r) :
    (read_point true true).run c = .ok r := by
  have hrun := h
  obtain ⟨type, _, _, h⟩ := bind_eq_ok_iff.mp h
  obtain ⟨name_len, _, _, h⟩ := bind_eq_ok_iff.mp h
  obtain ⟨name, _, _, h⟩ := bind_eq_ok_iff.mp h
  obtain ⟨value_len, _, _, h⟩ := bind_eq_ok_iff.mp h
  obtain ⟨value, _, _, h⟩ := bind_eq_ok_iff.mp h
  obtain ⟨_, _, hguard, _⟩ := bind_eq_ok_iff.mp h
  obtain ⟨hgranted, _⟩ := reject_if_eq_ok_iff.mp hguard
  cases malloc_name with
  | false => exact absurd (.inl rfl) hgranted
  | true =>
    cases malloc_value with
    | false => exact absurd (.inr rfl) hgranted
    | true => exact hrun

/-- The point loop reads a whole array of points exactly. -/
theorem read_points_exact (count : Nat) :
    Exact (times (fun i => read_point (Allocator.succeeds (2 * i + 1)) (Allocator.succeeds (2 * i + 2))) 0 count)
      (fun ms => ms.length = count ∧ ∀ m ∈ ms, m.wire.Fits ∧ m.wire.memory = m)
      (fun ms => ms.flatMap fun m => m.wire.enc) :=
  Exact.times (fun _ => read_point_exact) 0 count

/-- Accepted input is a batch followed by anything, and that batch is returned. -/
theorem ipmb_extract_telemetry_sound {alloc : Allocator} {data : List UInt8} {out : ipmb_telemetry_batch_t}
    (h : ipmb_extract_telemetry alloc data = (.IPMB_OK, out)) :
    ∃ b : WireBatch, b.memory = out ∧ ∃ suffix, data = b.enc ++ suffix := by
  unfold ipmb_extract_telemetry at h
  split at h
  · simp at h
  rename_i hmagic
  split at h
  · simp at h
  rename_i schema r₁ hschema
  split at h
  · simp at h
  rename_i point_count r₂ hcount
  dsimp only at h
  by_cases hlimit : point_count.toNat > MAX_POINTS
  · rw [if_pos hlimit] at h
    simp at h
  rw [if_neg hlimit] at h
  by_cases halloc : alloc 0 = false
  · rw [if_pos halloc] at h
    simp at h
  rw [if_neg halloc] at h
  split at h
  · rename_i status herror
    have hstatus := ErrorsIn.times
      (fun i => read_point_refuses (alloc (2 * i + 1)) (alloc (2 * i + 2))) _ _ _ _ herror
    exact absurd (congrArg Prod.fst h) hstatus
  rename_i ms stop hpoints
  obtain ⟨_, rfl⟩ := Prod.mk.inj h
  have hgranted := times_eq_ok
    (q := fun i => read_point (Allocator.succeeds (2 * i + 1)) (Allocator.succeeds (2 * i + 2)))
    (fun _ _ _ => read_point_granted) hpoints
  obtain ⟨⟨hlength, hvalid⟩, hbytes, _⟩ := (read_points_exact _ _ _ _).mp hgranted
  obtain ⟨_, hschema, _⟩ := (ipmb_read_le16_exact _ _ _).mp hschema
  obtain ⟨_, hcount, _⟩ := (ipmb_read_le16_exact _ _ _).mp hcount
  have hword : UInt16.ofNat (ms.map ipmb_telemetry_point_t.wire).length = point_count := by
    rw [List.length_map, hlength, UInt16.ofNat_toNat]
  have hmemory : (ms.map ipmb_telemetry_point_t.wire).map Point.memory = ms := by
    rw [List.map_map]
    conv_rhs => rw [← List.map_id ms]
    apply List.map_congr_left
    intro m hm
    exact (hvalid m hm).2
  refine ⟨{ schema, points := ms.map ipmb_telemetry_point_t.wire, points_le := ?_, points_fit := ?_ }, ?_,
    stop.rest, ?_⟩
  · rw [List.length_map, hlength]
    exact not_lt.mp hlimit
  · intro p hp
    obtain ⟨m, hm, rfl⟩ := List.mem_map.mp hp
    exact (hvalid m hm).1
  · simp only [WireBatch.memory, hword, hmemory]
  · rw [not_or, not_not] at hmagic
    rw [hcount, hbytes, rest_ipmb_reader_init] at hschema
    rw [← List.take_append_drop 4 data, hmagic.2, hschema]
    simp [WireBatch.enc, ← hword, List.flatMap_map]

/-- A batch is accepted whatever follows it, and read back whole. -/
theorem ipmb_extract_telemetry_complete (b : WireBatch) (suffix : List UInt8) :
    ipmb_extract_telemetry Allocator.succeeds (b.enc ++ suffix) = (.IPMB_OK, b.memory) := by
  have hmagic : (b.enc ++ suffix).take 4 = telemetry_magic := by
    simp [WireBatch.enc, telemetry_magic]
  have hlength : ¬(b.enc ++ suffix).length < 8 := by
    simp [WireBatch.enc, telemetry_magic]
    omega
  have hschema : (ipmb_reader_init ((b.enc ++ suffix).drop 4)).rest =
      ipmb_store_le16 b.schema ++ (ipmb_store_le16 (UInt16.ofNat b.points.length) ++
        ((b.points.map Point.memory).flatMap (fun m => m.wire.enc) ++ suffix)) := by
    simp [WireBatch.enc, telemetry_magic, List.flatMap_map]
  have hcount := Cursor.rest_advance_of_append hschema
  have hpoints := Cursor.rest_advance_of_append hcount
  have hword : (UInt16.ofNat b.points.length).toNat = b.points.length :=
    UInt16.toNat_ofNat_of_lt' (lt_of_le_of_lt b.points_le (by decide))
  have hloop := (read_points_exact (UInt16.ofNat b.points.length).toNat).complete (by
    refine ⟨by rw [List.length_map, hword], ?_⟩
    intro m hm
    obtain ⟨p, hp, rfl⟩ := List.mem_map.mp hm
    rw [wire_memory]
    exact ⟨b.points_fit p hp, rfl⟩) hpoints
  have hlimit : ¬(UInt16.ofNat b.points.length).toNat > MAX_POINTS := by
    rw [hword]
    exact not_lt.mpr b.points_le
  unfold ipmb_extract_telemetry
  rw [if_neg (not_or.mpr ⟨hlength, not_not.mpr hmagic⟩), ipmb_read_le16_exact.complete trivial hschema]
  dsimp only
  rw [ipmb_read_le16_exact.complete trivial hcount]
  dsimp only
  rw [if_neg hlimit, if_neg (Allocator.not_refused _), hloop]
  rfl

theorem WireBatch.memory_inj {b b' : WireBatch} (h : b.memory = b'.memory) : b = b' := by
  have hpoints : b.points.map Point.memory = b'.points.map Point.memory :=
    congrArg ipmb_telemetry_batch_t.points h
  have hwire := congrArg (List.map ipmb_telemetry_point_t.wire) hpoints
  have hid : ipmb_telemetry_point_t.wire ∘ Point.memory = id := funext wire_memory
  rw [List.map_map, List.map_map, hid, List.map_id, List.map_id] at hwire
  have hschema : b.schema = b'.schema := congrArg ipmb_telemetry_batch_t.schema h
  cases b
  cases b'
  cases hwire
  cases hschema
  rfl

/-- Data starts with the encoding of one batch at most. -/
theorem WireBatch.enc_unique {b b' : WireBatch} {suffix suffix' : List UInt8}
    (h : b.enc ++ suffix = b'.enc ++ suffix') : b = b' ∧ suffix = suffix' := by
  have hfirst := ipmb_extract_telemetry_complete b suffix
  rw [h, ipmb_extract_telemetry_complete b' suffix'] at hfirst
  obtain rfl := WireBatch.memory_inj (Prod.mk.inj hfirst).2
  exact ⟨rfl, List.append_cancel_left h⟩

/-- What a point in memory shows: its name ends at the first terminator. -/
def ipmb_telemetry_point_t.shown (m : ipmb_telemetry_point_t) : Point :=
  { type := m.type, name := c_string m.name, value := m.value }

theorem c_string_terminated {name : List UInt8} (hname : 0 ∉ name) : c_string (name ++ [0]) = name := by
  rw [c_string, List.takeWhile_append_of_pos]
  · simp
  · intro c hc
    rw [bne_iff_ne]
    rintro rfl
    exact hname hc

theorem shown_memory {p : Point} (hname : 0 ∉ p.name) : p.memory.shown = p := by
  rw [ipmb_telemetry_point_t.shown, Point.memory, c_string_terminated hname]

theorem map_shown_memory {points : List Point} (hnames : ∀ p ∈ points, 0 ∉ p.name) :
    (points.map Point.memory).map ipmb_telemetry_point_t.shown = points := by
  rw [List.map_map]
  exact (List.map_congr_left fun p hp => shown_memory (hnames p hp)).trans (List.map_id points)

/-- A batch whose names are strings. -/
structure TextBatch extends WireBatch where
  names_nul_free : ∀ p ∈ points, 0 ∉ p.name

/-- A batch comes back from its encoding, whatever follows, and none is read
from a part of an encoding. -/
theorem ipmb_extract_telemetry_decodes (b : TextBatch) :
    (∀ suffix, ∃ out, ipmb_extract_telemetry Allocator.succeeds (b.enc ++ suffix) = (.IPMB_OK, out) ∧
      out.schema = b.schema ∧ out.point_count.toNat = b.points.length ∧
      out.points.map ipmb_telemetry_point_t.shown = b.points) ∧
    ∀ alloc part, part <+: b.enc → part ≠ b.enc → (ipmb_extract_telemetry alloc part).1 ≠ .IPMB_OK := by
  constructor
  · intro suffix
    refine ⟨b.memory, ipmb_extract_telemetry_complete b.toWireBatch suffix, rfl, ?_, ?_⟩
    · exact UInt16.toNat_ofNat_of_lt' (lt_of_le_of_lt b.points_le (by decide))
    · exact map_shown_memory b.names_nul_free
  · rintro alloc part ⟨tail, htail⟩ hne hok
    obtain ⟨b', -, suffix, hpart⟩ := ipmb_extract_telemetry_sound (Prod.ext hok rfl)
    -- the part would hold a whole batch, which is then the batch itself
    have henc : b.enc ++ [] = b'.enc ++ (suffix ++ tail) := by
      rw [List.append_nil, ← htail, hpart, List.append_assoc]
    obtain ⟨-, hnil⟩ := WireBatch.enc_unique henc
    apply hne
    rw [← htail, (List.append_eq_nil_iff.mp hnil.symm).2, List.append_nil]

/-- A speed and a flag without a value. -/
def speed_batch : TextBatch where
  schema := 3
  points := [{ type := 1, name := [0x72, 0x70, 0x6d], value := [0xdc, 0x05] }, { type := 2, name := [], value := [] }]
  points_le := by decide
  points_fit := by decide
  names_nul_free := by decide

example : (ipmb_extract_telemetry Allocator.succeeds speed_batch.enc).2.points.map ipmb_telemetry_point_t.shown =
    speed_batch.points := by decide

end ipmb.extractor
