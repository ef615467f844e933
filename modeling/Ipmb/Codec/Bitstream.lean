import Ipmb.Support.BitFields
import Ipmb.Util.Access

open fallible bit_fields
open ipmb.access

namespace ipmb.bitstream

/-- The pointer and the length are one byte list. Positions wrap around like a
64-bit `size_t`. -/
structure ipmb_bitreader_t where
  data : List UInt8
  bit_pos : UInt64
  deriving Repr, DecidableEq

def ipmb_bitreader_init (data : List UInt8) : ipmb_bitreader_t := { data, bit_pos := 0 }

/-- Round `i` of the reading loop. -/
def read_bit (s : ipmb_bitreader_t × UInt32) (i : Nat) : Except Fault (ipmb_bitreader_t × UInt32) := do
  let bit := s.1.bit_pos
  let b ← byte_at s.1.data (bit / 8).toNat
  pure ({ s.1 with bit_pos := bit + 1 },
    s.2 ||| (((b >>> (bit % 8).toUInt8) &&& 1).toUInt32 <<< UInt32.ofNat i))

/-- Status, the value where the out parameter is set, and the reader after. -/
def ipmb_bitreader_read (br : ipmb_bitreader_t) (bits : UInt32) :
    Except Fault ((ipmb_status_t × Option UInt32) × ipmb_bitreader_t) :=
  if bits > 24 then .ok ((.IPMB_ERR_LIMIT, none), br)
  else if br.bit_pos + bits.toUInt64 > UInt64.ofNat br.data.length * 8 then
    .ok ((.IPMB_ERR_SHORT_READ, none), br)
  else do
    let s ← (List.range bits.toNat).foldlM read_bit (br, 0)
    pure ((.IPMB_OK, some s.2), s.1)

/-- A caller that reads one width after the other. -/
def read_widths : ipmb_bitreader_t → List UInt32 →
    Except Fault (List (ipmb_status_t × Option UInt32) × ipmb_bitreader_t)
  | br, [] => .ok ([], br)
  | br, bits :: widths => do
    let first ← ipmb_bitreader_read br bits
    let rest ← read_widths first.2 widths
    pure (first.1 :: rest.1, rest.2)

/-- The bits of the data as one number. -/
def ipmb_bitreader_t.stream (br : ipmb_bitreader_t) : Nat :=
  little_endian.value br.data

/-- A shifted byte shows one of its bits. -/
theorem toNat_shifted_bit (b shift : UInt8) (hshift : shift.toNat < 8) :
    ((b >>> shift) &&& 1).toNat = (b.toNat.testBit shift.toNat).toNat := by
  rw [UInt8.toNat_and, UInt8.toNat_shiftRight, Nat.mod_eq_of_lt hshift, UInt8.toNat_one,
    Nat.and_one_is_mod, Nat.shiftRight_eq_div_pow, Nat.toNat_testBit]

/-- A round adds the next bit of the stream above those of the value. -/
theorem read_bit_spec {br : ipmb_bitreader_t} {v : UInt32} {p i : Nat} (hi : i < 24)
    (hpos : br.bit_pos.toNat = p + i) (hlt : p + i < 8 * br.data.length)
    (hbits : p + i + 1 < 2 ^ 64) (hv : v.toNat = field br.stream p i) :
    ∃ s, read_bit (br, v) i = .ok s ∧ s.1.data = br.data ∧ s.1.bit_pos.toNat = p + (i + 1) ∧
      s.2.toNat = field br.stream p (i + 1) := by
  have hindex : (br.bit_pos / 8).toNat = (p + i) / 8 := by
    rw [UInt64.toNat_div, hpos]
    rfl
  have hshift : ((br.bit_pos % 8).toUInt8).toNat = (p + i) % 8 := by
    have height : (8 : UInt64).toNat = 8 := rfl
    rw [UInt64.toNat_toUInt8, UInt64.toNat_mod, hpos, height]
    omega
  have hbyte : byte_at br.data ((p + i) / 8) = .ok (br.data.getD ((p + i) / 8) 0) := by
    have hroom : (p + i) / 8 < br.data.length := by omega
    rw [byte_at, List.getElem?_eq_getElem hroom, List.getD_eq_getElem _ _ hroom]
  refine ⟨_, by rw [read_bit, hindex, hbyte, ok_bind]; rfl, rfl, ?_, ?_⟩
  · rw [UInt64.toNat_add, hpos]
    have : (1 : UInt64).toNat = 1 := rfl
    omega
  · have hround : (UInt32.ofNat i).toNat = i := by
      rw [UInt32.toNat_ofNat']
      exact Nat.mod_eq_of_lt (by omega)
    have hfits : (br.stream.testBit (p + i)).toNat <<< i < 2 ^ 32 := by
      have hbit := Bool.toNat_le (br.stream.testBit (p + i))
      have hle := Nat.mul_le_mul_right (2 ^ i) hbit
      have hpow : 2 ^ i < 2 ^ 32 := Nat.pow_lt_pow_right (by omega) (by omega)
      rw [Nat.shiftLeft_eq]
      omega
    rw [UInt32.toNat_or, hv, UInt32.toNat_shiftLeft, UInt8.toNat_toUInt32,
      toNat_shifted_bit _ _ (by rw [hshift]; exact Nat.mod_lt _ (by omega)), hshift, hround,
      ← testBit_value, Nat.mod_eq_of_lt (by omega : i < 32)]
    change field br.stream p i ||| (br.stream.testBit (p + i)).toNat <<< i % 2 ^ 32 = _
    rw [Nat.mod_eq_of_lt hfits, ← field_succ]

/-- The reading loop reads a field. -/
theorem read_bits_spec {br : ipmb_bitreader_t} {p : Nat} (hpos : br.bit_pos.toNat = p) {bits : Nat}
    (hwidth : bits ≤ 24) (hroom : p + bits ≤ 8 * br.data.length) (hsize : 8 * br.data.length < 2 ^ 64) :
    ∃ s, (List.range bits).foldlM read_bit (br, 0) = .ok s ∧ s.1.data = br.data ∧
      s.1.bit_pos.toNat = p + bits ∧ s.2.toNat = field br.stream p bits := by
  induction bits with
  | zero => exact ⟨_, rfl, rfl, hpos, (field_zero _ _).symm⟩
  | succ bits ih =>
    obtain ⟨s, hrun, hdata, hpos, hvalue⟩ := ih (by omega) (by omega)
    have hstream : s.1.stream = br.stream := congrArg little_endian.value hdata
    rw [← hstream] at hvalue
    obtain ⟨s', hround, hdata', hpos', hvalue'⟩ :=
      read_bit_spec (by omega) hpos (by rw [hdata]; omega) (by omega) hvalue
    refine ⟨s', ?_, hdata'.trans hdata, hpos', hstream ▸ hvalue'⟩
    rw [List.range_succ, List.foldlM_append, hrun, ok_bind, List.foldlM_cons, hround]
    rfl

/-- The check before the loop, where no sum in it wraps around. -/
theorem past_end_iff {br : ipmb_bitreader_t} {bits : UInt32} (hsize : 8 * br.data.length < 2 ^ 64)
    (hwrap : br.bit_pos.toNat + bits.toNat < 2 ^ 64) :
    br.bit_pos + bits.toUInt64 > UInt64.ofNat br.data.length * 8 ↔
      8 * br.data.length < br.bit_pos.toNat + bits.toNat := by
  have height : (8 : UInt64).toNat = 8 := rfl
  rw [gt_iff_lt, UInt64.lt_iff_toNat_lt, UInt64.toNat_add, UInt64.toNat_mul, UInt64.toNat_ofNat',
    UInt32.toNat_toUInt64, height, Nat.mod_eq_of_lt hwrap,
    Nat.mod_eq_of_lt (by omega : br.data.length < 2 ^ 64), Nat.mod_eq_of_lt (by omega), Nat.mul_comm]

theorem wide_iff (bits : UInt32) : bits > 24 ↔ 24 < bits.toNat := by
  rw [gt_iff_lt, UInt32.lt_iff_toNat_lt]
  rfl

/-- A read of up to 24 bits that are left reads a field. -/
theorem ipmb_bitreader_read_ok {br : ipmb_bitreader_t} {bits : UInt32} (hwidth : bits.toNat ≤ 24)
    (hroom : br.bit_pos.toNat + bits.toNat ≤ 8 * br.data.length) (hsize : 8 * br.data.length < 2 ^ 64) :
    ∃ v br', ipmb_bitreader_read br bits = .ok ((.IPMB_OK, some v), br') ∧ br'.data = br.data ∧
      br'.bit_pos.toNat = br.bit_pos.toNat + bits.toNat ∧
      v.toNat = field br.stream br.bit_pos.toNat bits.toNat := by
  obtain ⟨s, hrun, hdata, hpos, hvalue⟩ := read_bits_spec rfl hwidth hroom hsize
  have hleft : ¬br.bit_pos + bits.toUInt64 > UInt64.ofNat br.data.length * 8 := by
    rw [past_end_iff hsize (by omega)]
    omega
  refine ⟨s.2, s.1, ?_, hdata, hpos, hvalue⟩
  rw [ipmb_bitreader_read, if_neg (by rw [wide_iff]; omega), if_neg hleft, hrun, ok_bind]
  rfl

/-- Reads of widths that are left read the fields one behind the other. -/
theorem read_widths_ok (br : ipmb_bitreader_t) (widths : List UInt32)
    (hwidths : ∀ bits ∈ widths, bits.toNat ≤ 24)
    (hroom : br.bit_pos.toNat + (widths.map UInt32.toNat).sum ≤ 8 * br.data.length)
    (hsize : 8 * br.data.length < 2 ^ 64) :
    ∃ (values : List UInt32) (br' : ipmb_bitreader_t),
      read_widths br widths = .ok (values.map fun v => (.IPMB_OK, some v), br') ∧ br'.data = br.data ∧
      br'.bit_pos.toNat = br.bit_pos.toNat + (widths.map UInt32.toNat).sum ∧
      values.map UInt32.toNat = fields br.stream br.bit_pos.toNat (widths.map UInt32.toNat) := by
  induction widths generalizing br with
  | nil => exact ⟨[], br, rfl, rfl, rfl, rfl⟩
  | cons bits widths ih =>
    rw [List.map_cons, List.sum_cons] at hroom
    obtain ⟨v, br₁, hread, hdata, hpos, hvalue⟩ :=
      ipmb_bitreader_read_ok (hwidths bits List.mem_cons_self) (by omega) hsize
    obtain ⟨values, br', hrest, hdata', hpos', hvalues⟩ :=
      ih br₁ (fun bits hbits => hwidths bits (List.mem_cons_of_mem _ hbits))
        (by rw [hpos, hdata]; omega) (by rw [hdata]; exact hsize)
    have hstream : br₁.stream = br.stream := congrArg little_endian.value hdata
    refine ⟨v :: values, br', ?_, hdata'.trans hdata, ?_, ?_⟩
    · rw [read_widths, hread, ok_bind, hrest]
      rfl
    · rw [hpos', hpos, List.map_cons, List.sum_cons, Nat.add_assoc]
    · rw [List.map_cons, hvalues, hvalue, hpos, hstream]
      rfl

/-- What a reader answers at the end of its data. -/
def end_answer (bits : UInt32) : ipmb_status_t × Option UInt32 :=
  if bits > 24 then (.IPMB_ERR_LIMIT, none)
  else if bits = 0 then (.IPMB_OK, some 0)
  else (.IPMB_ERR_SHORT_READ, none)

/-- At the end of the data no read moves the reader. -/
theorem ipmb_bitreader_read_at_end {br : ipmb_bitreader_t} (hend : br.bit_pos.toNat = 8 * br.data.length)
    {bits : UInt32} (hwrap : bits.toNat ≤ 24 → 8 * br.data.length + bits.toNat < 2 ^ 64) :
    ipmb_bitreader_read br bits = .ok (end_answer bits, br) := by
  have hsize : 8 * br.data.length < 2 ^ 64 := hend ▸ br.bit_pos.toNat_lt
  rw [ipmb_bitreader_read, end_answer]
  by_cases hwide : bits > 24
  · rw [if_pos hwide, if_pos hwide]
  · rw [if_neg hwide, if_neg hwide]
    rw [wide_iff] at hwide
    have hpast := past_end_iff hsize (hend ▸ hwrap (by omega))
    rw [hend] at hpast
    by_cases hzero : bits = 0
    · subst hzero
      rw [if_neg (by rw [hpast]; simp)]
      rfl
    · have hpos : bits.toNat ≠ 0 := fun h => hzero (UInt32.toNat_inj.mp h)
      rw [if_pos (by rw [hpast]; omega), if_neg hzero]

/-- At the end of data so long that the sum in the check wraps around, a read
goes past them. -/
theorem ipmb_bitreader_read_past_end {br : ipmb_bitreader_t} (hend : br.bit_pos.toNat = 8 * br.data.length)
    {bits : UInt32} (hwidth : bits.toNat ≤ 24) (hwrap : 2 ^ 64 ≤ 8 * br.data.length + bits.toNat) :
    ipmb_bitreader_read br bits = .error .readOutOfBounds := by
  have hsize : 8 * br.data.length < 2 ^ 64 := hend ▸ br.bit_pos.toNat_lt
  have hlength : (UInt64.ofNat br.data.length * 8).toNat = 8 * br.data.length := by
    have height : (8 : UInt64).toNat = 8 := rfl
    rw [UInt64.toNat_mul, UInt64.toNat_ofNat', height, Nat.mod_eq_of_lt (by omega : br.data.length < 2 ^ 64),
      Nat.mod_eq_of_lt (by omega), Nat.mul_comm]
  have hcheck : ¬br.bit_pos + bits.toUInt64 > UInt64.ofNat br.data.length * 8 := by
    rw [gt_iff_lt, UInt64.lt_iff_toNat_lt, UInt64.toNat_add, UInt32.toNat_toUInt64, hlength, hend]
    omega
  have hround : read_bit (br, 0) 0 = .error .readOutOfBounds := by
    have hindex : (br.bit_pos / 8).toNat = br.data.length := by
      have height : (8 : UInt64).toNat = 8 := rfl
      rw [UInt64.toNat_div, hend, height, Nat.mul_div_cancel_left _ (by omega)]
    rw [read_bit, hindex, byte_at, List.getElem?_eq_none (Nat.le_refl _)]
    rfl
  obtain ⟨n, hn⟩ : ∃ n, bits.toNat = n + 1 := Nat.exists_eq_succ_of_ne_zero (by omega)
  rw [ipmb_bitreader_read, if_neg (by rw [wide_iff]; omega), if_neg hcheck, hn, List.range_succ_eq_map,
    List.foldlM_cons, hround]
  rfl

theorem read_widths_at_end {br : ipmb_bitreader_t} (hend : br.bit_pos.toNat = 8 * br.data.length)
    {widths : List UInt32}
    (hwrap : ∀ bits ∈ widths, bits.toNat ≤ 24 → 8 * br.data.length + bits.toNat < 2 ^ 64) :
    read_widths br widths = .ok (widths.map end_answer, br) := by
  induction widths with
  | nil => rfl
  | cons bits widths ih =>
    rw [read_widths, ipmb_bitreader_read_at_end hend (hwrap bits List.mem_cons_self), ok_bind,
      ih fun bits hbits => hwrap bits (List.mem_cons_of_mem _ hbits)]
    rfl

/-- Fields of widths that cover the data put it together again, and behind
them there is nothing to read. -/
theorem ipmb_bitreader_read_reassembles (data : List UInt8) (hsize : 8 * data.length < 2 ^ 64)
    (widths : List UInt32) (hwidths : ∀ bits ∈ widths, bits.toNat ≤ 24)
    (hsum : (widths.map UInt32.toNat).sum = 8 * data.length) :
    ∃ (values : List UInt32) (br : ipmb_bitreader_t),
      read_widths (ipmb_bitreader_init data) widths =
        .ok (values.map fun v => (.IPMB_OK, some v), br) ∧
      values.length = widths.length ∧
      ∑ k ∈ Finset.range widths.length,
          (values.getD k 0).toNat * 2 ^ ((widths.take k).map UInt32.toNat).sum =
        ∑ i ∈ Finset.range data.length, (data.getD i 0).toNat * 256 ^ i ∧
      ∀ later : List UInt32,
        (∀ bits ∈ later, bits.toNat ≤ 24 → 8 * data.length + bits.toNat < 2 ^ 64) →
        read_widths br later = .ok (later.map end_answer, br) := by
  obtain ⟨values, br, hrun, hdata, hpos, hvalues⟩ :=
    read_widths_ok (ipmb_bitreader_init data) widths hwidths (by simp [ipmb_bitreader_init, hsum]) hsize
  have hstart : (ipmb_bitreader_init data).bit_pos.toNat = 0 := rfl
  rw [hstart, Nat.zero_add, hsum] at hpos
  rw [hstart] at hvalues
  have hlength : values.length = widths.length := by
    have := congrArg List.length hvalues
    simpa using this
  have hdata : br.data = data := hdata
  refine ⟨values, br, hrun, hlength, ?_, ?_⟩
  · have hsmall : little_endian.value data < 2 ^ (widths.map UInt32.toNat).sum := by
      rw [hsum, Nat.pow_mul]
      exact little_endian.value_lt data
    rw [← value_eq_sum, ← field_of_lt hsmall, ← sum_fields, List.length_map]
    apply Finset.sum_congr rfl
    intro k _
    have hvalue : (values.getD k 0).toNat = (values.map UInt32.toNat).getD k 0 :=
      (List.getD_map values 0 UInt32.toNat).symm
    rw [hvalue, hvalues, List.map_take]
    rfl
  · intro later hlater
    exact read_widths_at_end (hpos.trans (by rw [hdata])) (by rw [hdata]; exact hlater)

theorem ipmb_bitreader_read_reassembles_two :
    ∃ (values : List UInt32) (br : ipmb_bitreader_t),
      read_widths (ipmb_bitreader_init [0xab, 0xcd]) [5, 11] =
        .ok (values.map fun v => (.IPMB_OK, some v), br) ∧
      values.length = 2 ∧
      ∑ k ∈ Finset.range 2,
          (values.getD k 0).toNat * 2 ^ (([5, 11].take k).map UInt32.toNat).sum =
        ∑ i ∈ Finset.range 2, ([0xab, 0xcd].getD i (0 : UInt8)).toNat * 256 ^ i ∧
      ∀ later : List UInt32, (∀ bits ∈ later, bits.toNat ≤ 24 → 8 * 2 + bits.toNat < 2 ^ 64) →
        read_widths br later = .ok (later.map end_answer, br) :=
  ipmb_bitreader_read_reassembles [0xab, 0xcd] (by decide) [5, 11] (by simp) rfl

/-- At the end of the data a width over 24 is over the limit, and where the
check wraps around a read goes past them. -/
theorem ipmb_bitreader_read_end_not_short :
    read_widths (ipmb_bitreader_init [0xff]) [8, 25] =
        .ok ([(.IPMB_OK, some 0xff), (.IPMB_ERR_LIMIT, none)], { data := [0xff], bit_pos := 8 }) ∧
      ∃ (values : List UInt32) (br : ipmb_bitreader_t),
        read_widths (ipmb_bitreader_init (List.replicate (2 ^ 61 - 1) 0)) (List.replicate (2 ^ 61 - 1) 8) =
          .ok (values.map fun v => (.IPMB_OK, some v), br) ∧
        ipmb_bitreader_read br 24 = .error .readOutOfBounds := by
  refine ⟨rfl, ?_⟩
  have hsum : ((List.replicate (2 ^ 61 - 1) (8 : UInt32)).map UInt32.toNat).sum = 8 * (2 ^ 61 - 1) := by
    rw [List.map_replicate, List.sum_replicate_nat, Nat.mul_comm]
    rfl
  obtain ⟨values, br, hrun, hdata, hpos, -⟩ :=
    read_widths_ok (ipmb_bitreader_init (List.replicate (2 ^ 61 - 1) 0)) (List.replicate (2 ^ 61 - 1) 8)
      (by
        intro bits hbits
        rw [List.eq_of_mem_replicate hbits]
        decide)
      (by
        rw [hsum]
        simp only [ipmb_bitreader_init, List.length_replicate]
        decide)
      (by
        simp only [ipmb_bitreader_init, List.length_replicate]
        decide)
  have hlength : br.data.length = 2 ^ 61 - 1 := by
    rw [hdata]
    exact List.length_replicate
  refine ⟨values, br, hrun, ipmb_bitreader_read_past_end ?_ (by decide) ?_⟩
  · rw [hpos, hsum, hlength]
    exact Nat.zero_add _
  · rw [hlength]
    decide

end ipmb.bitstream
