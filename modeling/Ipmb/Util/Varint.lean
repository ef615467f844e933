import Ipmb.Support.Base128
import Ipmb.Util.Access
import Mathlib.Data.Nat.Bitwise

open buffer fallible
open ipmb.access

namespace ipmb.varint

/-- The decoding loop with a bound on its rounds. The shift stays below 64. -/
def varint_decode_loop (data : List UInt8) :
    Nat → Nat → UInt32 → UInt64 → Except Fault (ipmb_status_t × Option (UInt64 × Nat))
  | fuel, i, shift, result =>
    if i < data.length ∧ i < 10 then
      match fuel with
      | 0 => .error .outOfFuel
      | fuel + 1 => do
        let b ← byte_at data i
        let result := result ||| ((b &&& 0x7f).toUInt64 <<< shift.toUInt64)
        if b &&& 0x80 = 0 then pure (.IPMB_OK, some (result, i + 1))
        else varint_decode_loop data fuel (i + 1) (shift + 7) result
    else pure (.IPMB_ERR_SHORT_READ, none)

/-- Status and, where the out parameters are set, the value and the number of
bytes used. -/
def ipmb_varint_decode (data : List UInt8) : Except Fault (ipmb_status_t × Option (UInt64 × Nat)) :=
  varint_decode_loop data 10 0 0 0

/-- The encoding loop with a bound on its rounds. The number of bytes is how
many were written. -/
def varint_encode_loop :
    Nat → UInt64 → Buffer UInt8 → Except Fault (ipmb_status_t × Option Nat × Buffer UInt8)
  | 0, _, _ => .error .outOfFuel
  | fuel + 1, value, out =>
    if out.written.length ≥ out.capacity then pure (.IPMB_ERR_SHORT_READ, none, out)
    else do
      let b := (value &&& 0x7f).toUInt8
      let value := value >>> 7
      let b := if value ≠ 0 then b ||| 0x80 else b
      let out ← store out [b]
      if value ≠ 0 then varint_encode_loop fuel value out
      else pure (.IPMB_OK, some out.written.length, out)

/-- Status, the number of bytes used where that is set, and the bytes of the
caller's buffer that were written. -/
def ipmb_varint_encode (value : UInt64) (out_len : Nat) :
    Except Fault (ipmb_status_t × Option Nat × List UInt8) := do
  let (status, used, out) ← varint_encode_loop 10 value (Buffer.alloc out_len)
  pure (status, used, out.written)

/-- The low seven bits of a byte. -/
theorem toNat_low_bits (b : UInt8) : (b &&& 0x7f).toNat = b.toNat % 128 :=
  Nat.and_two_pow_sub_one_eq_mod b.toNat 7

/-- The high bit tells whether more bytes follow. -/
theorem high_bit_eq_zero_iff (b : UInt8) : b &&& 0x80 = 0 ↔ b.toNat < 128 := by
  have hbit : (b &&& 0x80).toNat = (b.toNat.testBit 7).toNat * 2 ^ 7 := Nat.and_two_pow b.toNat 7
  have hlt := b.toNat_lt
  rw [← UInt8.toNat_inj, hbit, Nat.testBit_eq_decide_div_mod_eq]
  by_cases hlow : b.toNat < 128
  · simp [hlow, Nat.div_eq_of_lt hlow]
  · have hhigh : b.toNat / 2 ^ 7 % 2 = 1 := by omega
    rw [hhigh]
    simp [hlow]

/-- A round of the decoder puts the low bits of a byte above those it has, and
drops what does not fit. -/
theorem decode_step {front : List UInt8} (b : UInt8) {shift : UInt32} (hfront : front.length < 10)
    (hshift : shift.toNat = 7 * front.length) :
    UInt64.ofNat (base128.value front) ||| ((b &&& 0x7f).toUInt64 <<< shift.toUInt64) =
      UInt64.ofNat (base128.value (front ++ [b])) := by
  have hlow : base128.value front < 2 ^ (7 * front.length) := by
    rw [Nat.pow_mul]
    exact base128.value_lt front
  have hfits : 2 ^ (7 * front.length) ≤ 2 ^ 64 := Nat.pow_le_pow_right (by omega) (by omega)
  apply UInt64.toNat_inj.mp
  rw [UInt64.toNat_or, UInt64.toNat_shiftLeft, UInt8.toNat_toUInt64, UInt32.toNat_toUInt64, hshift,
    toNat_low_bits, Nat.mod_eq_of_lt (show 7 * front.length < 64 by omega), UInt64.toNat_ofNat',
    UInt64.toNat_ofNat', ← Nat.or_mod_two_pow, little_endian.or_shiftLeft _ _ _ hlow,
    base128.value_append, Nat.pow_mul]
  simp

/-- What the decoding loop finds behind the bytes it has read. -/
theorem varint_decode_loop_eq (front rest : List UInt8) (fuel : Nat) (shift : UInt32)
    (hfuel : front.length + fuel = 10) (hshift : shift.toNat = 7 * front.length) :
    varint_decode_loop (front ++ rest) fuel front.length shift (UInt64.ofNat (base128.value front)) =
      .ok (match base128.first_number fuel rest with
        | some bytes => (.IPMB_OK, some (UInt64.ofNat (base128.value (front ++ bytes)),
            (front ++ bytes).length))
        | none => (.IPMB_ERR_SHORT_READ, none)) := by
  induction fuel generalizing front rest shift with
  | zero =>
    rw [varint_decode_loop, if_neg (by omega)]
    rfl
  | succ fuel ih =>
    cases rest with
    | nil =>
      rw [varint_decode_loop, if_neg (by simp)]
      rfl
    | cons b rest =>
      have hbyte : byte_at (front ++ b :: rest) front.length = .ok b :=
        byte_at_of_drop (List.drop_left' rfl)
      rw [varint_decode_loop, if_pos ⟨by simp, by omega⟩]
      simp only [hbyte, ok_bind, decode_step b (by omega : front.length < 10) hshift,
        high_bit_eq_zero_iff, base128.first_number]
      split
      · simp
      · have hnext := ih (front ++ [b]) rest (shift + 7) (by simp; omega) (by
          rw [UInt32.toNat_add, hshift, List.length_append, List.length_singleton]
          have : (7 : UInt32).toNat = 7 := rfl
          omega)
        rw [List.append_assoc, List.length_append] at hnext
        simp only [List.singleton_append, List.length_singleton] at hnext
        rw [hnext]
        cases base128.first_number fuel rest with
        | none => rfl
        | some bytes => simp

/-- The decoder reads the number in front, modulo 2 to the 64. -/
theorem ipmb_varint_decode_eq (data : List UInt8) :
    ipmb_varint_decode data =
      .ok (match base128.first_number 10 data with
        | some bytes => (.IPMB_OK, some (UInt64.ofNat (base128.value bytes), bytes.length))
        | none => (.IPMB_ERR_SHORT_READ, none)) :=
  varint_decode_loop_eq [] data 10 0 rfl rfl

/-- Success means a terminated number of at most ten bytes in front. -/
theorem ipmb_varint_decode_ok {data : List UInt8} {out : Option (UInt64 × Nat)}
    (h : ipmb_varint_decode data = .ok (.IPMB_OK, out)) :
    ∃ bytes suffix, data = bytes ++ suffix ∧ base128.Terminated bytes ∧ bytes.length ≤ 10 ∧
      out = some (UInt64.ofNat (base128.value bytes), bytes.length) := by
  rw [ipmb_varint_decode_eq] at h
  cases hfirst : base128.first_number 10 data with
  | none => simp [hfirst] at h
  | some bytes =>
    obtain ⟨hterminated, hlength, suffix, hdata⟩ := base128.first_number_some hfirst
    simp only [hfirst, Except.ok.injEq, Prod.mk.injEq, true_and] at h
    exact ⟨bytes, suffix, hdata, hterminated, hlength, h.symm⟩

theorem ipmb_varint_decode_append {bytes : List UInt8} (h : base128.Terminated bytes)
    (hlength : bytes.length ≤ 10) (suffix : List UInt8) :
    ipmb_varint_decode (bytes ++ suffix) =
      .ok (.IPMB_OK, some (UInt64.ofNat (base128.value bytes), bytes.length)) := by
  rw [ipmb_varint_decode_eq, base128.first_number_append h hlength]

/-- Up to nine bytes fit into 64 bits. -/
theorem value_lt_of_length_le {bytes : List UInt8} (h : bytes.length ≤ 9) :
    base128.value bytes < 2 ^ 63 :=
  (base128.value_lt bytes).trans_le
    (Nat.pow_le_pow_right (by omega : 0 < 128) h)

/-- A round of the encoder goes on with the number without its low bits. -/
theorem toNat_high_bits (value : UInt64) : (value >>> 7).toNat = value.toNat / 128 := by
  rw [UInt64.toNat_shiftRight]
  exact Nat.shiftRight_eq_div_pow value.toNat 7

theorem high_bits_eq_zero_iff (value : UInt64) : value >>> 7 = 0 ↔ value.toNat < 128 := by
  rw [← UInt64.toNat_inj, toNat_high_bits]
  exact Nat.div_eq_zero_iff_lt (by omega)

/-- The byte a round of the encoder stores. -/
theorem encode_byte (value : UInt64) :
    (if value >>> 7 ≠ 0 then (value &&& 0x7f).toUInt8 ||| 0x80 else (value &&& 0x7f).toUInt8) =
      if value.toNat < 128 then UInt8.ofNat value.toNat else UInt8.ofNat (value.toNat % 128 + 128) := by
  have hlow : ((value &&& 0x7f).toUInt8).toNat = value.toNat % 128 := by
    rw [UInt64.toNat_toUInt8, UInt64.toNat_and]
    have hmask : value.toNat &&& (0x7f : UInt64).toNat = value.toNat % 128 :=
      Nat.and_two_pow_sub_one_eq_mod value.toNat 7
    omega
  apply UInt8.toNat_inj.mp
  by_cases hlast : value.toNat < 128
  · rw [if_neg (not_not.mpr ((high_bits_eq_zero_iff value).mpr hlast)), if_pos hlast, hlow,
      UInt8.toNat_ofNat']
    omega
  · have hor : value.toNat % 128 ||| (0x80 : UInt8).toNat = value.toNat % 128 + 2 ^ 7 * 1 :=
      little_endian.or_shiftLeft (value.toNat % 128) 1 7 (Nat.mod_lt _ (by omega))
    rw [if_pos (mt (high_bits_eq_zero_iff value).mp hlast), if_neg hlast, UInt8.toNat_or, hlow, hor,
      UInt8.toNat_ofNat']
    omega

/-- With room for a byte a round of the encoder stores the lowest one of the
shortest form, and goes on with the number without it. -/
theorem varint_encode_loop_step (fuel : Nat) (value : UInt64) {out : Buffer UInt8}
    (hroom : out.written.length + 1 ≤ out.capacity) :
    ∃ out₁, out₁.capacity = out.capacity ∧
      if value.toNat < 128 then
        out₁.written = out.written ++ base128.encode value.toNat ∧
          varint_encode_loop (fuel + 1) value out = .ok (.IPMB_OK, some out₁.written.length, out₁)
      else
        out₁.written ++ base128.encode (value >>> 7).toNat = out.written ++ base128.encode value.toNat ∧
          varint_encode_loop (fuel + 1) value out = varint_encode_loop fuel (value >>> 7) out₁ := by
  rw [varint_encode_loop, if_neg (by omega)]
  simp only [encode_byte]
  by_cases hlast : value.toNat < 128
  · obtain ⟨out₁, hstore, hcapacity, hwritten⟩ := store_of_le out [UInt8.ofNat value.toNat] hroom
    have hdone := (high_bits_eq_zero_iff value).mpr hlast
    refine ⟨out₁, hcapacity, ?_⟩
    rw [if_pos hlast, if_pos hlast, hstore, ok_bind, if_neg (not_not.mpr hdone), base128.encode_of_lt hlast]
    exact ⟨hwritten, rfl⟩
  · obtain ⟨out₁, hstore, hcapacity, hwritten⟩ :=
      store_of_le out [UInt8.ofNat (value.toNat % 128 + 128)] hroom
    have hmore := mt (high_bits_eq_zero_iff value).mp hlast
    refine ⟨out₁, hcapacity, ?_⟩
    rw [if_neg hlast, if_neg hlast, hstore, ok_bind, if_pos hmore, hwritten, toNat_high_bits,
      base128.encode_of_le (Nat.not_lt.mp hlast), List.append_assoc]
    exact ⟨rfl, rfl⟩

/-- With room for all its bytes the encoder appends the shortest form, and
otherwise it refuses. -/
theorem varint_encode_loop_eq (fuel : Nat) (value : UInt64) (out : Buffer UInt8) (hpos : 0 < fuel)
    (hfuel : value.toNat < 128 ^ fuel) :
    ∃ out', varint_encode_loop fuel value out =
      .ok (if out.written.length + (base128.encode value.toNat).length ≤ out.capacity then
          (.IPMB_OK, some (out.written.length + (base128.encode value.toNat).length), out')
        else (.IPMB_ERR_SHORT_READ, none, out')) ∧
      (out.written.length + (base128.encode value.toNat).length ≤ out.capacity →
        out'.written = out.written ++ base128.encode value.toNat) := by
  induction fuel generalizing value out with
  | zero => omega
  | succ fuel ih =>
    have hlength := base128.length_encode_pos value.toNat
    by_cases hfull : out.capacity ≤ out.written.length
    · refine ⟨out, ?_, fun hroom => by omega⟩
      rw [varint_encode_loop, if_pos hfull, if_neg (by omega)]
      rfl
    · obtain ⟨out₁, hcapacity, hstep⟩ := varint_encode_loop_step fuel value (Nat.lt_of_not_le hfull)
      by_cases hlast : value.toNat < 128
      · rw [if_pos hlast] at hstep
        obtain ⟨hwritten, hrun⟩ := hstep
        have hone : (base128.encode value.toNat).length = 1 := by
          rw [base128.encode_of_lt hlast, List.length_singleton]
        refine ⟨out₁, ?_, fun _ => hwritten⟩
        rw [hrun, hwritten, List.length_append, if_pos (by omega)]
      · rw [if_neg hlast] at hstep
        obtain ⟨hwritten, hrun⟩ := hstep
        have hnext : (value >>> 7).toNat < 128 ^ fuel := by
          rw [toNat_high_bits]
          exact Nat.div_lt_of_lt_mul (by rwa [← Nat.pow_succ'])
        have hpos : 0 < fuel := by
          by_contra hzero
          obtain rfl : fuel = 0 := by omega
          omega
        obtain ⟨out', hloop, hwritten'⟩ := ih (value >>> 7) out₁ hpos hnext
        have hlength₁ := congrArg List.length hwritten
        rw [List.length_append, List.length_append] at hlength₁
        rw [hlength₁, hcapacity] at hloop hwritten'
        exact ⟨out', hrun.trans hloop, fun hfits => (hwritten' hfits).trans hwritten⟩

theorem ipmb_varint_encode_eq (value : UInt64) (out_len : Nat) :
    ∃ written, ipmb_varint_encode value out_len =
      .ok (if (base128.encode value.toNat).length ≤ out_len then
          (.IPMB_OK, some (base128.encode value.toNat).length, base128.encode value.toNat)
        else (.IPMB_ERR_SHORT_READ, none, written)) := by
  have hfuel : value.toNat < 128 ^ 10 := value.toNat_lt.trans (by omega)
  obtain ⟨out', hrun, hwritten⟩ := varint_encode_loop_eq 10 value (Buffer.alloc out_len) (by omega) hfuel
  simp only [Buffer.written_alloc, Buffer.capacity_alloc, List.length_nil, Nat.zero_add, List.nil_append]
    at hrun hwritten
  refine ⟨out'.written, ?_⟩
  rw [ipmb_varint_encode, hrun, ok_bind]
  by_cases hfits : (base128.encode value.toNat).length ≤ out_len
  · simp [hfits, hwritten hfits]
  · simp [hfits]

/-- Encoding a number and decoding it gives it back, whatever follows its
bytes, and no shorter bytes decode to it. -/
theorem ipmb_varint_round_trip (v : UInt64) :
    ∃ bytes : List UInt8, 1 ≤ bytes.length ∧ bytes.length ≤ 10 ∧
      (∀ out_len, bytes.length ≤ out_len →
        ipmb_varint_encode v out_len = .ok (.IPMB_OK, some bytes.length, bytes)) ∧
      (∀ suffix, ipmb_varint_decode (bytes ++ suffix) = .ok (.IPMB_OK, some (v, bytes.length))) ∧
      (∀ shorter : List UInt8, shorter.length < bytes.length →
        ∀ used, ipmb_varint_decode shorter ≠ .ok (.IPMB_OK, some (v, used))) ∧
      (∀ out_len, out_len < bytes.length →
        ∃ written, ipmb_varint_encode v out_len = .ok (.IPMB_ERR_SHORT_READ, none, written)) := by
  have hten : (base128.encode v.toNat).length ≤ 10 :=
    base128.length_encode_le (v.toNat_lt.trans (by omega))
  refine ⟨base128.encode v.toNat, base128.length_encode_pos _, hten, ?_, ?_, ?_, ?_⟩
  · intro out_len hroom
    obtain ⟨_, hencode⟩ := ipmb_varint_encode_eq v out_len
    rw [hencode, if_pos hroom]
  · intro suffix
    rw [ipmb_varint_decode_append (base128.encode_terminated _) hten, base128.value_encode,
      UInt64.ofNat_toNat]
  · intro shorter hshorter used hdecode
    obtain ⟨bytes, suffix, rfl, hterminated, _, hout⟩ := ipmb_varint_decode_ok hdecode
    obtain ⟨hv, _⟩ := Prod.mk.inj (Option.some.inj hout)
    have hbytes : bytes.length < (base128.encode v.toNat).length := by
      rw [List.length_append] at hshorter
      omega
    have hvalue : v.toNat = base128.value bytes := by
      have := value_lt_of_length_le (by omega : bytes.length ≤ 9)
      rw [hv, UInt64.toNat_ofNat']
      omega
    have hsmall := base128.value_lt bytes
    cases bytes with
    | nil => exact hterminated
    | cons b bytes =>
      have hlarge := base128.pow_le_of_length_encode hbytes
      rw [hvalue] at hlarge
      exact absurd hsmall (Nat.not_lt.mpr hlarge)
  · intro out_len hshort
    obtain ⟨written, hencode⟩ := ipmb_varint_encode_eq v out_len
    refine ⟨written, ?_⟩
    rw [hencode, if_neg (Nat.not_le.mpr hshort)]

/-- Nine bytes go on and the tenth ends with more than the one bit there is
room for. -/
def LosesBits (data : List UInt8) : Prop :=
  (∀ i < 9, 128 ≤ (data.getD i 0).toNat) ∧ 2 ≤ (data.getD 9 0).toNat ∧ (data.getD 9 0).toNat < 128

/-- Numbers that lose bits are those that do not fit. -/
theorem losesBits_iff {bytes : List UInt8} (h : base128.Terminated bytes) (hlength : bytes.length ≤ 10)
    (suffix : List UInt8) : LosesBits (bytes ++ suffix) ↔ 2 ^ 64 ≤ base128.value bytes := by
  obtain ⟨front, b, rfl⟩ : ∃ front b, bytes = front ++ [b] := by
    obtain rfl | hlast := List.eq_nil_or_concat' bytes
    · exact h.elim
    · exact hlast
  obtain ⟨hfront, hb⟩ := base128.terminated_append_singleton.mp h
  have hlast : ((front ++ [b] ++ suffix).getD front.length 0).toNat = b.toNat := by simp
  rw [List.length_append, List.length_singleton] at hlength
  by_cases hshort : front.length < 9
  · have hvalue : base128.value (front ++ [b]) < 2 ^ 63 := value_lt_of_length_le (by simp; omega)
    refine iff_of_false ?_ (by omega)
    rintro ⟨hmore, _⟩
    have hlow := hmore front.length hshort
    omega
  · have hnine : front.length = 9 := by omega
    have hvalue : base128.value (front ++ [b]) = base128.value front + 2 ^ 63 * b.toNat := by
      rw [base128.value_append, hnine, base128.value_cons, base128.value_nil, Nat.mod_eq_of_lt hb]
      rfl
    have hlow := value_lt_of_length_le (Nat.le_of_eq hnine)
    rw [hnine] at hlast
    constructor
    · rintro ⟨_, htenth, _⟩
      omega
    · intro hlarge
      refine ⟨?_, by omega, by omega⟩
      intro i hi
      have hget : (front ++ [b] ++ suffix).getD i 0 = front.getD i 0 := by
        rw [List.append_assoc, List.getD_append _ _ _ _ (by omega)]
      rw [hget, List.getD_eq_getElem _ _ (by omega)]
      exact hfront _ (List.getElem_mem _)

/-- Inputs that lose bits start with ten bytes of a number. -/
theorem LosesBits.terminated {data : List UInt8} (h : LosesBits data) :
    base128.Terminated (data.take 10) ∧ (data.take 10).length = 10 := by
  obtain ⟨hmore, htenth, hlast⟩ := h
  have hlength : 9 < data.length := by
    by_contra hshort
    rw [List.getD_eq_default _ _ (by omega)] at htenth
    exact absurd htenth (by simp)
  refine ⟨?_, by rw [List.length_take]; omega⟩
  rw [List.take_add_one, List.getElem?_eq_getElem hlength]
  rw [List.getD_eq_getElem _ _ hlength] at hlast
  refine base128.terminated_append_singleton.mpr ⟨?_, hlast⟩
  intro c hc
  obtain ⟨i, hi, rfl⟩ := List.mem_iff_getElem.mp hc
  rw [List.length_take] at hi
  have hbyte := hmore i (by omega)
  rw [List.getD_eq_getElem _ _ (by omega)] at hbyte
  rwa [List.getElem_take]

/-- The decoder is exact on the inputs that lose no bits. -/
theorem ipmb_varint_decode_exact_iff (data : List UInt8) :
    ((∀ w used, ipmb_varint_decode data = .ok (.IPMB_OK, some (w, used)) →
        w.toNat = ∑ i ∈ Finset.range used, (data.getD i 0).toNat % 128 * 2 ^ (7 * i)) ∧
      (∀ n, base128.Terminated (data.take n) →
        2 ^ 64 ≤ ∑ i ∈ Finset.range n, (data.getD i 0).toNat % 128 * 2 ^ (7 * i) →
        ∀ out, ipmb_varint_decode data ≠ .ok (.IPMB_OK, out))) ↔ ¬LosesBits data := by
  simp only [← base128.value_take]
  constructor
  · rintro ⟨_, hrejects⟩ hloses
    obtain ⟨hterminated, hlength⟩ := hloses.terminated
    have hdecode := ipmb_varint_decode_append hterminated hlength.le (data.drop 10)
    have hlarge := losesBits_iff hterminated hlength.le (data.drop 10)
    rw [List.take_append_drop] at hdecode hlarge
    exact hrejects 10 hterminated (hlarge.mp hloses) _ hdecode
  · intro hkeeps
    have hsmall : ∀ n, base128.Terminated (data.take n) → (data.take n).length ≤ 10 →
        base128.value (data.take n) < 2 ^ 64 := by
      intro n hterminated hlength
      by_contra hlarge
      have hloses := (losesBits_iff hterminated hlength (data.drop n)).mpr (Nat.not_lt.mp hlarge)
      rw [List.take_append_drop] at hloses
      exact hkeeps hloses
    constructor
    · intro w used hdecode
      obtain ⟨bytes, suffix, hdata, hterminated, hlength, hout⟩ := ipmb_varint_decode_ok hdecode
      obtain ⟨rfl, rfl⟩ := Prod.mk.inj (Option.some.inj hout)
      have htake : data.take bytes.length = bytes := by
        rw [hdata, List.take_left' rfl]
      have hfits := hsmall bytes.length
      rw [htake] at hfits ⊢
      rw [UInt64.toNat_ofNat']
      exact Nat.mod_eq_of_lt (hfits hterminated hlength)
    · intro n hterminated hlarge out hdecode
      obtain ⟨bytes, suffix, hdata, hfirst, hlength, _⟩ := ipmb_varint_decode_ok hdecode
      have htake : data.take n = bytes :=
        hterminated.unique hfirst ((List.take_append_drop n data).trans hdata)
      have hfits := hsmall n hterminated (htake ▸ hlength)
      exact absurd hlarge (Nat.not_le.mpr hfits)

/-- The exact number of these bytes is 2 to the 64. -/
theorem ipmb_varint_decode_drops_bits :
    ipmb_varint_decode (List.replicate 9 0x80 ++ [0x02]) = .ok (.IPMB_OK, some (0, 10)) ∧
      ∑ i ∈ Finset.range 10,
        ((List.replicate 9 0x80 ++ [0x02] : List UInt8).getD i 0).toNat % 128 * 2 ^ (7 * i) = 2 ^ 64 := by
  refine ⟨by rfl, ?_⟩
  rw [← base128.value_take]
  rfl

end ipmb.varint
