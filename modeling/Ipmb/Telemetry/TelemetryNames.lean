import Ipmb.Telemetry.TelemetryFormat
import Mathlib.Data.List.TakeWhile

open ipmb.endian

namespace ipmb.extractor

/-- What a batch in memory shows, in the layout of the format. -/
def reencode (out : ipmb_telemetry_batch_t) : List UInt8 :=
  telemetry_magic ++ ipmb_store_le16 out.schema ++ ipmb_store_le16 out.point_count ++
    (out.points.map ipmb_telemetry_point_t.shown).flatMap Point.enc

/-- Where the data is accepted, the batch shows all that was read of it. -/
def Lossless (data : List UInt8) : Prop :=
  ∀ (b : WireBatch) suffix, data = b.enc ++ suffix →
    ∀ alloc out, ipmb_extract_telemetry alloc data = (.IPMB_OK, out) → reencode out = b.enc

/-- No name on the wire has a zero byte. -/
def PlainNames (data : List UInt8) : Prop :=
  ∀ (b : WireBatch) suffix, data = b.enc ++ suffix → ∀ p ∈ b.points, 0 ∉ p.name

theorem length_c_string_le (block : List UInt8) : (c_string (block ++ [0])).length ≤ block.length := by
  rw [c_string, List.takeWhile_append]
  split
  · simp
  · exact (List.takeWhile_prefix _).length_le

theorem notMem_c_string (block : List UInt8) : 0 ∉ c_string block := by
  intro hmem
  have hne := List.mem_takeWhile_imp hmem
  simp at hne

/-- The batch that a batch in memory shows. -/
def WireBatch.shown (b : WireBatch) : WireBatch where
  schema := b.schema
  points := b.memory.points.map ipmb_telemetry_point_t.shown
  points_le := by
    rw [WireBatch.memory, List.length_map, List.length_map]
    exact b.points_le
  points_fit := by
    intro p hp
    obtain ⟨m, hm, rfl⟩ := List.mem_map.mp hp
    obtain ⟨q, hq, rfl⟩ := List.mem_map.mp hm
    obtain ⟨hname, hvalue⟩ := b.points_fit q hq
    exact ⟨lt_of_le_of_lt (length_c_string_le q.name) hname, hvalue⟩

theorem reencode_memory (b : WireBatch) : reencode b.memory = b.shown.enc := by
  rw [reencode, WireBatch.enc, WireBatch.shown]
  simp only [WireBatch.memory, List.length_map]

theorem shown_eq_iff (b : WireBatch) : b.shown = b ↔ ∀ p ∈ b.points, 0 ∉ p.name := by
  constructor
  · intro hshown p hp
    rw [← hshown] at hp
    obtain ⟨m, -, rfl⟩ := List.mem_map.mp hp
    exact notMem_c_string m.name
  · intro hplain
    have hpoints : b.shown.points = b.points := map_shown_memory hplain
    cases b
    simp only [WireBatch.shown, WireBatch.mk.injEq, true_and]
    exact hpoints

/-- A batch shows all of the data it was read from exactly when no name of it
has a zero byte. -/
theorem ipmb_extract_telemetry_lossless_iff (data : List UInt8) : Lossless data ↔ PlainNames data := by
  constructor
  · rintro hlossless b suffix rfl
    have hsame := hlossless b suffix rfl Allocator.succeeds b.memory (ipmb_extract_telemetry_complete b suffix)
    rw [reencode_memory] at hsame
    apply (shown_eq_iff b).mp
    have henc : b.shown.enc ++ [] = b.enc ++ [] := by
      rw [hsame]
    exact (WireBatch.enc_unique henc).1
  · intro hplain b suffix hdata alloc out hok
    obtain ⟨b', rfl, suffix', hdata'⟩ := ipmb_extract_telemetry_sound hok
    obtain ⟨rfl, -⟩ := WireBatch.enc_unique (hdata.symm.trans hdata')
    rw [reencode_memory, (shown_eq_iff b).mpr (hplain b suffix hdata)]

/-- A batch with one point, whose name is the letters `a` and `b` with a zero
byte between them. -/
def zero_in_name : WireBatch where
  schema := 3
  points := [{ type := 1, name := [0x61, 0, 0x62], value := [0x2a] }]
  points_le := by decide
  points_fit := by
    simp only [List.mem_cons, List.not_mem_nil, or_false, forall_eq]
    exact ⟨by decide, by decide⟩

/-- The name that is shown ends at the zero byte. -/
theorem ipmb_extract_telemetry_cuts_name : ¬∀ data, Lossless data := by
  intro hall
  have hsame := hall zero_in_name.enc zero_in_name [] (List.append_nil _).symm Allocator.succeeds
    zero_in_name.memory (by decide)
  revert hsame
  decide

end ipmb.extractor
