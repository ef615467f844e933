import Ipmb.Codec.RlePairs

open buffer fallible run_length
open ipmb.access

namespace ipmb.rle_codec

/-- Runs on the wire: the length in one byte, then the value. -/
def rle_bytes (rs : List (Nat × UInt8)) : List UInt8 := rs.flatMap fun r => [UInt8.ofNat r.1, r.2]

@[simp] theorem rle_bytes_nil : rle_bytes [] = [] := rfl

@[simp] theorem rle_bytes_cons (r : Nat × UInt8) (rs : List (Nat × UInt8)) :
    rle_bytes (r :: rs) = UInt8.ofNat r.1 :: r.2 :: rle_bytes rs := rfl

theorem length_rle_bytes (rs : List (Nat × UInt8)) : (rle_bytes rs).length = 2 * rs.length := by
  induction rs with
  | nil => rfl
  | cons r rs ih =>
    rw [rle_bytes_cons, List.length_cons, List.length_cons, ih, List.length_cons]
    omega

/-- Runs are read back from the wire. -/
theorem rle_pairs_rle_bytes {rs : List (Nat × UInt8)} (hbytes : ∀ r ∈ rs, r.1 < 256) :
    rle_pairs (rle_bytes rs) = rs := by
  induction rs with
  | nil => rfl
  | cons r rs ih =>
    have hrun : (UInt8.ofNat r.1).toNat = r.1 := UInt8.toNat_ofNat_of_lt' (hbytes r List.mem_cons_self)
    rw [rle_bytes_cons, rle_pairs, hrun, ih fun r hr => hbytes r (List.mem_cons_of_mem _ hr)]

/-- The inner loop counts the repetitions that a run has room for. -/
theorem scan_run_spec (data : List UInt8) (i : Nat) (value : UInt8) (fuel : Nat) (run : UInt8)
    (hfuel : 256 ≤ run.toNat + fuel) :
    ∃ r, scan_run data i value fuel run = .ok r ∧
      r.toNat = run.toNat + leading value (255 - run.toNat) (data.drop (i + run.toNat)) := by
  induction fuel generalizing run with
  | zero =>
    have hlt := run.toNat_lt
    omega
  | succ fuel ih =>
    rw [scan_run]
    cases hrest : data.drop (i + run.toNat) with
    | nil =>
      have hend : ¬i + run.toNat < data.length := by
        rw [List.drop_eq_nil_iff] at hrest
        omega
      rw [if_neg hend, leading_nil]
      exact ⟨run, rfl, rfl⟩
    | cons next rest =>
      rw [if_pos (lt_length_of_drop hrest)]
      simp only [byte_at_of_drop hrest, ok_bind]
      by_cases hgoes : next = value ∧ run < 255
      · obtain ⟨hnext, hrun⟩ := hgoes
        have hlt : run.toNat < 255 := hrun
        have hone : (1 : UInt8).toNat = 1 := rfl
        have hsucc : (run + 1).toNat = run.toNat + 1 := by
          rw [UInt8.toNat_add, hone]
          exact Nat.mod_eq_of_lt (by omega)
        obtain ⟨r, hscan, hr⟩ := ih (run + 1) (by omega)
        have hlimit : 255 - run.toNat = 255 - (run + 1).toNat + 1 := by omega
        refine ⟨r, by rw [if_pos ⟨hnext, hrun⟩, hscan], ?_⟩
        rw [hr, hlimit, leading, if_pos hnext, hsucc, ← Nat.add_assoc i, drop_succ_of_drop hrest]
        omega
      · rw [if_neg hgoes]
        refine ⟨run, rfl, ?_⟩
        rw [not_and_or] at hgoes
        cases hlimit : 255 - run.toNat with
        | zero => rfl
        | succ limit =>
          have hrun : run < 255 := by
            change run.toNat < 255
            omega
          rw [leading, if_neg (hgoes.resolve_right (not_not.mpr hrun)), Nat.add_zero]

/-- The encoder's loop writes the runs of what is left. -/
theorem rle_encode_loop_spec (data : List UInt8) (fuel i : Nat) (buf : Buffer UInt8)
    (hfuel : data.length ≤ i + fuel)
    (hroom : buf.written.length + 2 * (runs 254 (data.drop i)).length ≤ buf.capacity) :
    ∃ buf', rle_encode_loop data fuel i buf = .ok buf' ∧
      buf'.written = buf.written ++ rle_bytes (runs 254 (data.drop i)) := by
  induction fuel generalizing i buf with
  | zero =>
    rw [Nat.add_zero] at hfuel
    rw [rle_encode_loop, if_neg (by omega), List.drop_eq_nil_of_le hfuel, runs_nil]
    exact ⟨buf, rfl, by simp⟩
  | succ fuel ih =>
    rw [rle_encode_loop]
    cases hrest : data.drop i with
    | nil =>
      rw [if_neg (by rw [List.drop_eq_nil_iff] at hrest; omega), runs_nil]
      exact ⟨buf, rfl, by simp⟩
    | cons value rest =>
      rw [hrest, runs_cons, List.length_cons] at hroom
      obtain ⟨run, hscan, hrun⟩ := scan_run_spec data i value 255 1 (by decide)
      have hone : (1 : UInt8).toNat = 1 := rfl
      rw [hone, drop_succ_of_drop hrest] at hrun
      obtain ⟨buf₁, hstore₁, hcapacity₁, hwritten₁⟩ :=
        store_of_le buf [run] (by rw [List.length_singleton]; omega)
      have hlength₁ : buf₁.written.length = buf.written.length + 1 := by
        rw [hwritten₁, List.length_append, List.length_singleton]
      obtain ⟨buf₂, hstore₂, hcapacity₂, hwritten₂⟩ :=
        store_of_le buf₁ [value] (by rw [List.length_singleton]; omega)
      have hlength₂ : buf₂.written.length = buf.written.length + 2 := by
        rw [hwritten₂, List.length_append, List.length_singleton, hlength₁]
      have hdrop : data.drop (i + run.toNat) = rest.drop (leading value 254 rest) := by
        rw [hrun, ← Nat.add_assoc, ← List.drop_drop, drop_succ_of_drop hrest]
      obtain ⟨buf', hloop, hwritten'⟩ := ih (i + run.toNat) buf₂ (by omega) (by
        rw [hdrop, hlength₂, hcapacity₂, hcapacity₁]
        omega)
      have hbyte : UInt8.ofNat (leading value 254 rest + 1) = run := by
        rw [Nat.add_comm, ← hrun, UInt8.ofNat_toNat]
      refine ⟨buf', ?_, ?_⟩
      · rw [if_pos (lt_length_of_drop hrest)]
        simp only [byte_at_of_drop hrest, ok_bind, hscan, hstore₁, hstore₂, hloop]
      · rw [hwritten', hwritten₂, hwritten₁, hdrop, runs_cons, rle_bytes_cons, hbyte]
        simp

/-- The encoder stays inside its buffer and writes the runs of its input. -/
theorem ipmb_rle_encode_spec (data : List UInt8) :
    ipmb_rle_encode true data = .ok (.IPMB_OK, some (rle_magic ++ rle_bytes (runs 254 data))) := by
  have hmagic : rle_magic.length = 4 := rfl
  have hruns := length_runs_le 254 data
  obtain ⟨buf₁, hstore, hcapacity, hwritten⟩ := store_of_le (Buffer.alloc (4 + data.length * 2 + 2))
    rle_magic (by rw [Buffer.written_alloc, Buffer.capacity_alloc, List.length_nil]; omega)
  rw [Buffer.written_alloc, List.nil_append] at hwritten
  rw [Buffer.capacity_alloc] at hcapacity
  obtain ⟨buf₂, hloop, hwritten₂⟩ := rle_encode_loop_spec data data.length 0 buf₁ (by omega) (by
    rw [hwritten, List.drop_zero]
    omega)
  rw [List.drop_zero, hwritten] at hwritten₂
  rw [ipmb_rle_encode, if_neg (by decide), hstore, ok_bind, hloop, ok_bind, hwritten₂, pure_eq_ok]

/-- The decoder reads runs after the magic number. -/
theorem ipmb_rle_decode_spec {rs : List (Nat × UInt8)} (hbytes : ∀ r ∈ rs, r.1 < 256) :
    ipmb_rle_decode Allocator.succeeds (rle_magic ++ rle_bytes rs) = .ok (.IPMB_OK, some (expand rs)) := by
  have hmagic : rle_magic.length = 4 := rfl
  have hdrop : (rle_magic ++ rle_bytes rs).drop 4 = rle_bytes rs := List.drop_left' hmagic
  have haccepts : Accepts Allocator.succeeds (rle_magic ++ rle_bytes rs) :=
    ⟨by rw [List.length_append]; omega, List.take_left' hmagic, rfl, granted_succeeds _ _ _ _⟩
  rw [ipmb_rle_decode_of_accepts haccepts, hdrop, rle_pairs_rle_bytes hbytes]

/-- Encoding goes through inside its buffer, and decoding what was written
gives the input back. -/
theorem ipmb_rle_round_trip (data : List UInt8) :
    ∃ encoded, ipmb_rle_encode true data = .ok (.IPMB_OK, some encoded) ∧
      ipmb_rle_decode Allocator.succeeds encoded = .ok (.IPMB_OK, some data) := by
  refine ⟨_, ipmb_rle_encode_spec data, ?_⟩
  rw [ipmb_rle_decode_spec fun r hr => Nat.lt_succ_of_le (mem_runs hr).2, expand_runs]

/-- No bytes that decode to a sequence are shorter than the encoding of it. -/
theorem ipmb_rle_encode_optimal {alloc : Allocator} {e x : List UInt8}
    (h : ipmb_rle_decode alloc e = .ok (.IPMB_OK, some x)) :
    ∃ encoded, ipmb_rle_encode true x = .ok (.IPMB_OK, some encoded) ∧ encoded.length ≤ e.length := by
  obtain ⟨⟨hlength, _⟩, hx⟩ := accepts_of_ipmb_rle_decode h
  obtain rfl := Option.some.inj hx
  refine ⟨_, ipmb_rle_encode_spec _, ?_⟩
  obtain ⟨hruns, hpairs⟩ := rle_pairs_bounds (e.drop 4)
  have hfewest := length_runs_expand_le hruns
  have hmagic : rle_magic.length = 4 := rfl
  rw [List.length_drop] at hpairs
  rw [List.length_append, length_rle_bytes]
  omega

/-- A run that is split in two, an empty run and an odd byte. -/
theorem ipmb_rle_encode_optimal_split :
    ∃ encoded, ipmb_rle_encode true [7, 7, 7] = .ok (.IPMB_OK, some encoded) ∧
      encoded.length ≤ (rle_magic ++ [1, 7, 0, 9, 2, 7, 5]).length :=
  @ipmb_rle_encode_optimal Allocator.succeeds _ _ (by rfl)

end ipmb.rle_codec
