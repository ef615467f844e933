import Ipmb.Session.Journal

open cursor
open ipmb.endian ipmb.byte_read

namespace ipmb.journal

/-- A record on the wire. -/
def ipmb_journal_record_t.enc (r : ipmb_journal_record_t) : List UInt8 :=
  [r.type] ++ ipmb_store_le32 r.session_id ++ ipmb_store_le32 r.peer_id ++
    ipmb_store_le16 (UInt16.ofNat r.payload.length) ++ r.payload

/-- A journal within the limits of the format: at most 4096 records, the length
of each payload in 16 bits. -/
structure WireJournal where
  contents : ipmb_journal_t
  records_le : contents.records.length ≤ MAX_RECORDS
  payload_lt : ∀ r ∈ contents.records, r.payload.length < 2 ^ 16

def WireJournal.enc (j : WireJournal) : List UInt8 :=
  journal_magic ++ ipmb_store_le16 j.contents.version ++
    ipmb_store_le16 (UInt16.ofNat j.contents.records.length) ++
    j.contents.records.flatMap ipmb_journal_record_t.enc

/-- A journal as it lies in memory. -/
def WireJournal.memory (j : WireJournal) : ipmb_journal_memory :=
  { version := j.contents.version
    record_count := UInt16.ofNat j.contents.records.length
    records := j.contents.records }

/-- The record reader accepts exactly the encodings of records. -/
theorem read_record_exact :
    Exact (read_record true) (fun r => r.payload.length < 2 ^ 16) ipmb_journal_record_t.enc := by
  have hlast (type : UInt8) (session_id peer_id : UInt32) (payload : List UInt8) :=
    (Exact.pure (ε := ipmb_status_t) (β := UInt8)
      ({ type, session_id, peer_id, payload } : ipmb_journal_record_t)).reject_if
        (e := .IPMB_ERR_ALLOC) (nofun : ¬true = false)
  have hpayload (type : UInt8) (session_id peer_id : UInt32) (plen : UInt16) :=
    (ipmb_read_bytes_exact plen.toNat).bind ipmb_journal_record_t.payload
      (hlast type session_id peer_id) (by rintro payload r rfl; rfl)
  have hplen (type : UInt8) (session_id peer_id : UInt32) :=
    ipmb_read_le16_exact.bind (fun r => UInt16.ofNat r.payload.length) (hpayload type session_id peer_id)
      (by rintro plen r ⟨hlength, _⟩; rw [hlength, UInt16.ofNat_toNat])
  have hpeer (type : UInt8) (session_id : UInt32) :=
    ipmb_read_le32_exact.bind ipmb_journal_record_t.peer_id (hplen type session_id)
      (by rintro peer_id r ⟨_, _, hr⟩; rw [hr])
  have hsession (type : UInt8) :=
    ipmb_read_le32_exact.bind ipmb_journal_record_t.session_id (hpeer type)
      (by rintro session_id r ⟨_, _, _, hr⟩; rw [hr])
  have hrecord := ipmb_read_u8_exact.bind ipmb_journal_record_t.type hsession
    (by rintro type r ⟨_, _, _, _, hr⟩; rw [hr])
  refine hrecord.congr (fun r => ?_) (fun r _ => ?_)
  · constructor
    · rintro ⟨_, _, _, _, hlength, _⟩
      rw [hlength]
      exact UInt16.toNat_lt _
    · intro hlt
      exact ⟨trivial, trivial, trivial, trivial, (UInt16.toNat_ofNat_of_lt' hlt).symm, rfl⟩
  · simp [ipmb_journal_record_t.enc]

/-- A record is never refused with the status of success. -/
theorem read_record_refuses (malloc : Bool) : ErrorsIn (read_record malloc) (· ≠ .IPMB_OK) := by
  have hread {A : Type} := read_width_refuses (A := A)
  refine (hread _ _).bind fun _ => (hread _ _).bind fun _ => (hread _ _).bind fun _ => ?_
  refine (hread _ _).bind fun _ => (hread _ _).bind fun _ => ?_
  exact (ErrorsIn.reject_if (by decide)).bind fun _ => ErrorsIn.pure

/-- The record loop reads a whole array of records exactly. -/
theorem read_records_exact (count : Nat) :
    Exact (times (fun i => read_record (Allocator.succeeds (i + 1))) 0 count)
      (fun records => records.length = count ∧ ∀ r ∈ records, r.payload.length < 2 ^ 16)
      (fun records => records.flatMap ipmb_journal_record_t.enc) :=
  Exact.times (fun _ => read_record_exact) 0 count

/-- Accepted input is a journal followed by anything, and that journal is
returned. -/
theorem ipmb_journal_parse_sound {data : List UInt8} {out : ipmb_journal_memory}
    (h : ipmb_journal_parse Allocator.succeeds data = (.IPMB_OK, out)) :
    ∃ j : WireJournal, j.memory = out ∧ ∃ suffix, data = j.enc ++ suffix := by
  unfold ipmb_journal_parse at h
  split at h
  · simp at h
  rename_i hmagic
  split at h
  · simp at h
  rename_i version r₁ hversion
  split at h
  · simp at h
  rename_i record_count r₂ hcount
  dsimp only at h
  by_cases hlimit : record_count.toNat > MAX_RECORDS
  · rw [if_pos hlimit] at h
    simp at h
  rw [if_neg hlimit, if_neg (Allocator.not_refused _)] at h
  split at h
  · rename_i status herror
    have hstatus := ErrorsIn.times (fun i => read_record_refuses (Allocator.succeeds (i + 1))) _ _ _ _ herror
    exact absurd (congrArg Prod.fst h) hstatus
  rename_i records stop hrecords
  obtain ⟨_, rfl⟩ := Prod.mk.inj h
  obtain ⟨⟨hlength, hpayloads⟩, hbytes, _⟩ := (read_records_exact _ _ _ _).mp hrecords
  obtain ⟨_, hversion, _⟩ := (ipmb_read_le16_exact _ _ _).mp hversion
  obtain ⟨_, hcount, _⟩ := (ipmb_read_le16_exact _ _ _).mp hcount
  have hlt := record_count.toNat_lt
  have hword : UInt16.ofNat records.length = record_count := by
    rw [hlength, UInt16.ofNat_toNat]
  refine ⟨⟨{ version, records, record_count_lt := by omega }, ?_, hpayloads⟩, ?_, stop.rest, ?_⟩
  · simp only [hlength]
    omega
  · simp only [WireJournal.memory, hword]
  · rw [not_or, not_not] at hmagic
    rw [hcount, hbytes, rest_ipmb_reader_init] at hversion
    rw [← List.take_append_drop 4 data, hmagic.2, hversion]
    simp [WireJournal.enc, hword]

/-- A journal is accepted whatever follows it, and read back whole. -/
theorem ipmb_journal_parse_complete (j : WireJournal) (suffix : List UInt8) :
    ipmb_journal_parse Allocator.succeeds (j.enc ++ suffix) = (.IPMB_OK, j.memory) := by
  have hmagic : (j.enc ++ suffix).take 4 = journal_magic := by
    simp [WireJournal.enc, journal_magic]
  have hlength : ¬(j.enc ++ suffix).length < 8 := by
    simp [WireJournal.enc, journal_magic]
    omega
  have hversion : (ipmb_reader_init ((j.enc ++ suffix).drop 4)).rest =
      ipmb_store_le16 j.contents.version ++ (ipmb_store_le16 (UInt16.ofNat j.contents.records.length) ++
        (j.contents.records.flatMap ipmb_journal_record_t.enc ++ suffix)) := by
    simp [WireJournal.enc, journal_magic]
  have hcount := Cursor.rest_advance_of_append hversion
  have hrecords := Cursor.rest_advance_of_append hcount
  have hword : (UInt16.ofNat j.contents.records.length).toNat = j.contents.records.length :=
    UInt16.toNat_ofNat_of_lt' j.contents.record_count_lt
  have hloop := (read_records_exact (UInt16.ofNat j.contents.records.length).toNat).complete
    ⟨hword.symm, j.payload_lt⟩ hrecords
  have hlimit : ¬(UInt16.ofNat j.contents.records.length).toNat > MAX_RECORDS := by
    rw [hword]
    exact not_lt.mpr j.records_le
  unfold ipmb_journal_parse
  rw [if_neg (not_or.mpr ⟨hlength, not_not.mpr hmagic⟩), ipmb_read_le16_exact.complete trivial hversion]
  dsimp only
  rw [ipmb_read_le16_exact.complete trivial hcount]
  dsimp only
  rw [if_neg hlimit, if_neg (Allocator.not_refused _), hloop]
  rfl

/-- The journal format, both directions. Parsing succeeds exactly on
journals followed by anything, and returns the journal's version, count and
records in order. -/
theorem ipmb_journal_parse_format :
    (∀ data, (ipmb_journal_parse Allocator.succeeds data).1 = .IPMB_OK ↔
      ∃ (j : WireJournal) (suffix : List UInt8), data = j.enc ++ suffix) ∧
    ∀ (j : WireJournal) (suffix : List UInt8),
      ipmb_journal_parse Allocator.succeeds (j.enc ++ suffix) = (.IPMB_OK, j.memory) := by
  refine ⟨fun data => ⟨fun hok => ?_, ?_⟩, ipmb_journal_parse_complete⟩
  · obtain ⟨j, _, suffix, hdata⟩ := ipmb_journal_parse_sound (Prod.ext hok rfl)
    exact ⟨j, suffix, hdata⟩
  · rintro ⟨j, suffix, rfl⟩
    rw [ipmb_journal_parse_complete]

end ipmb.journal
