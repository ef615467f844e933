import Ipmb.Session.CheckpointAccumulation
import Ipmb.Support.Doubling

open doubling fallible
open ipmb.checkpoint_memory (realloc_block copy_payload copy_payload_spec length_realloc_block take_realloc_block)

namespace ipmb.sample_buffer

/-- The buffer is the block that it points to, a byte that was never written being
`none`; a null pointer has no bytes. -/
structure ipmb_sample_buffer_t where
  data : List (Option UInt8)
  used : UInt64
  capacity : UInt64
  deriving DecidableEq

def ipmb_sample_buffer_init : ipmb_sample_buffer_t := { data := [], used := 0, capacity := 0 }

/-- `while (cap < need) cap *= 2u;` with a bound on its rounds. -/
def grow_loop (need : UInt64) : Nat → UInt64 → Except Fault UInt64
  | 0, cap => if cap < need then .error .outOfFuel else .ok cap
  | rounds + 1, cap => if cap < need then grow_loop need rounds (cap * 2) else .ok cap

/-- The arguments of a call, and whether a larger block would be granted. -/
structure push_call where
  granted : Bool
  data : List UInt8
  len : UInt64
  length_data : data.length = len.toNat

/-- `memcpy` and what follows it. -/
def copy_in (buf : ipmb_sample_buffer_t) (c : push_call) : Except Fault (ipmb_status_t × ipmb_sample_buffer_t) := do
  let data ← copy_payload buf.data buf.used c.data
  pure (.IPMB_OK, { buf with data, used := buf.used + c.len })

/-- A capacity doubled 64 times is zero, so that more rounds would not help. -/
def ipmb_sample_buffer_push (buf : ipmb_sample_buffer_t) (c : push_call) :
    Except Fault (ipmb_status_t × ipmb_sample_buffer_t) :=
  if buf.used + c.len > buf.capacity then do
    let cap := if buf.capacity ≠ 0 then buf.capacity * 2 else 64
    let cap ← grow_loop (buf.used + c.len) 64 cap
    if c.granted then copy_in { buf with data := realloc_block buf.data cap.toNat, capacity := cap } c
    else pure (.IPMB_ERR_ALLOC, buf)
  else copy_in buf c

/-- A call on a buffer, with the bytes of the calls so far that returned `IPMB_OK`. -/
def call (s : ipmb_sample_buffer_t × List UInt8) (c : push_call) :
    Except Fault (ipmb_sample_buffer_t × List UInt8) := do
  let (rc, buf) ← ipmb_sample_buffer_push s.1 c
  pure (buf, if rc = .IPMB_OK then s.2 ++ c.data else s.2)

/-- More bytes than these cannot be held. -/
def limit : Nat := 2 ^ 63

/-- A buffer whose block starts with the bytes, and is of the first capacity with
room for them. -/
structure Holds (buf : ipmb_sample_buffer_t) (bytes : List UInt8) : Prop where
  used : buf.used.toNat = bytes.length
  capacity : buf.capacity.toNat = room 64 bytes.length
  length_data : buf.data.length = room 64 bytes.length
  taken : buf.data.take bytes.length = bytes.map some
  length_le : bytes.length ≤ limit

theorem holds_init : Holds ipmb_sample_buffer_init [] := ⟨rfl, rfl, rfl, rfl, Nat.zero_le _⟩

theorem limit_eq : limit = 64 * 2 ^ 57 := by decide

theorem room_le_limit {n : Nat} (h : n ≤ limit) : room 64 n ≤ limit := by
  obtain rfl | hn := Nat.eq_zero_or_pos n
  · exact Nat.zero_le _
  · rw [limit_eq] at h ⊢
    exact (room_le_iff (by decide) hn).mpr h

section loop
variable {need cap : UInt64} {k rounds : Nat}

/-- A capacity on the way to the first one with room is that one if it has room. -/
theorem room_of_enough (hcap : cap.toNat = 64 * 2 ^ k) (hlow : cap.toNat ≤ room 64 need.toNat) (henough : ¬cap < need) :
    cap.toNat = room 64 need.toNat := by
  have hle := UInt64.le_iff_toNat_le.mp (UInt64.not_lt.mp henough)
  have hpos : 0 < need.toNat := by
    by_contra hzero
    rw [Nat.eq_zero_of_not_pos hzero, hcap, room_zero] at hlow
    have hpow := Nat.two_pow_pos k
    omega
  rw [hcap] at hle hlow ⊢
  exact Nat.le_antisymm hlow ((room_le_iff (by decide) hpos).mpr hle)

/-- The loop ends with the first capacity that has room. -/
theorem grow_loop_room (hneed : need.toNat ≤ limit) (hcap : cap.toNat = 64 * 2 ^ k)
    (hlow : cap.toNat ≤ room 64 need.toNat) (hrounds : 57 ≤ k + rounds) :
    ∃ cap', grow_loop need rounds cap = .ok cap' ∧ cap'.toNat = room 64 need.toNat := by
  induction rounds generalizing cap k with
  | zero =>
    have henough : ¬cap < need := by
      have hpow := Nat.mul_le_mul_left 64 (Nat.pow_le_pow_right Nat.two_pos hrounds)
      rw [← limit_eq, Nat.add_zero, ← hcap] at hpow
      exact UInt64.not_lt.mpr (UInt64.le_iff_toNat_le.mpr (hneed.trans hpow))
    exact ⟨cap, if_neg henough, room_of_enough hcap hlow henough⟩
  | succ rounds ih =>
    rw [grow_loop]
    by_cases hshort : cap < need
    · have hdouble : 2 * cap.toNat ≤ room 64 need.toNat := by
        have hlt := UInt64.lt_iff_toNat_lt.mp hshort
        rw [hcap] at hlt ⊢
        exact two_mul_le_room (by decide) hlt
      have hnext : (cap * 2).toNat = 2 * cap.toNat := by
        have hroom := room_le_limit hneed
        rw [limit] at hroom
        rw [UInt64.toNat_mul]
        simp only [UInt64.reduceToNat]
        omega
      rw [if_pos hshort]
      refine ih (k := k + 1) ?_ ?_ (by omega)
      · rw [hnext, hcap, mul_pow_succ]
      · rw [hnext]
        exact hdouble
    · exact ⟨cap, if_neg hshort, room_of_enough hcap hlow hshort⟩

/-- What a capacity can become by doubling. -/
def Doubled (cap : UInt64) : Prop := cap.toNat = 0 ∨ ∃ i ≤ 63, cap.toNat = 2 ^ i

theorem Doubled.le_limit (h : Doubled cap) : cap.toNat ≤ limit := by
  obtain hzero | ⟨i, hi, hpow⟩ := h
  · rw [hzero]
    exact Nat.zero_le _
  · rw [hpow]
    exact Nat.pow_le_pow_right Nat.two_pos hi

/-- The highest power wraps around to zero, which stays zero. -/
theorem Doubled.mul_two (h : Doubled cap) : Doubled (cap * 2) := by
  rw [Doubled, UInt64.toNat_mul]
  obtain hzero | ⟨i, hi, hpow⟩ := h
  · rw [hzero]
    exact .inl rfl
  · obtain rfl | hlt := Nat.eq_or_lt_of_le hi
    · rw [hpow]
      exact .inl rfl
    · have hsmall : 2 ^ (i + 1) < 2 ^ 64 := Nat.pow_lt_pow_right Nat.one_lt_two (by omega)
      refine .inr ⟨i + 1, hlt, ?_⟩
      rw [hpow]
      exact Nat.mod_eq_of_lt hsmall

/-- Beyond the limit no capacity has room, and the loop never ends. -/
theorem grow_loop_diverges (hneed : limit < need.toNat) (hcap : Doubled cap) (rounds : Nat) :
    grow_loop need rounds cap = .error .outOfFuel := by
  induction rounds generalizing cap with
  | zero => exact if_pos (UInt64.lt_iff_toNat_lt.mpr (Nat.lt_of_le_of_lt hcap.le_limit hneed))
  | succ rounds ih =>
    have hshort : cap < need := UInt64.lt_iff_toNat_lt.mpr (Nat.lt_of_le_of_lt hcap.le_limit hneed)
    rw [grow_loop, if_pos hshort]
    exact ih hcap.mul_two

end loop

section push
variable {buf : ipmb_sample_buffer_t} {bytes : List UInt8} {c : push_call}

/-- The size that a call asks for, which wraps around only beyond the limit. -/
theorem toNat_need (h : Holds buf bytes) : (buf.used + c.len).toNat = (bytes.length + c.data.length) % 2 ^ 64 := by
  rw [UInt64.toNat_add, h.used, c.length_data]

/-- Bytes are copied behind those that are there. -/
theorem copy_in_holds (hused : buf.used.toNat = bytes.length)
    (hcapacity : buf.capacity.toNat = room 64 (bytes.length + c.data.length))
    (hdata : buf.data.length = room 64 (bytes.length + c.data.length))
    (htaken : buf.data.take bytes.length = bytes.map some) (hlimit : bytes.length + c.data.length ≤ limit) :
    ∃ buf', copy_in buf c = .ok (.IPMB_OK, buf') ∧ Holds buf' (bytes ++ c.data) := by
  have hroom : buf.used.toNat + c.data.length ≤ buf.data.length := by
    rw [hused, hdata]
    exact le_room (by decide)
  obtain ⟨data, hcopy, hlength, htake⟩ := copy_payload_spec hroom
  refine ⟨{ buf with data, used := buf.used + c.len }, by rw [copy_in, hcopy, ok_bind, pure_eq_ok], ?_⟩
  rw [limit] at hlimit
  constructor
  · rw [UInt64.toNat_add, hused, ← c.length_data, List.length_append]
    exact Nat.mod_eq_of_lt (by omega)
  · rw [hcapacity, List.length_append]
  · rw [hlength, hdata, List.length_append]
  · rw [hused] at htake
    rw [List.length_append, htake, htaken, List.map_append]
  · rw [List.length_append]
    exact hlimit

/-- Where the loop starts it is on its way to the first capacity with room. -/
theorem first_cap (h : Holds buf bytes) {need : UInt64} (hgrow : need > buf.capacity) (hneed : need.toNat ≤ limit) :
    ∃ k, (if buf.capacity ≠ 0 then buf.capacity * 2 else 64).toNat = 64 * 2 ^ k ∧ 64 * 2 ^ k ≤ room 64 need.toNat := by
  have hlt := UInt64.lt_iff_toNat_lt.mp hgrow
  by_cases hzero : buf.capacity = 0
  · obtain ⟨k, hk⟩ := exists_room_eq 64 (Nat.lt_of_le_of_lt (Nat.zero_le _) hlt)
    have hpow := Nat.two_pow_pos k
    refine ⟨0, by rw [if_neg (not_not.mpr hzero)]; rfl, ?_⟩
    rw [hk]
    omega
  · have hpos : 0 < bytes.length := by
      by_contra hnil
      have hnone := h.capacity
      rw [Nat.eq_zero_of_not_pos hnil, room_zero] at hnone
      exact hzero (UInt64.toNat_inj.mp hnone)
    obtain ⟨k, hk⟩ := exists_room_eq 64 hpos
    have hcapacity : buf.capacity.toNat = 64 * 2 ^ k := h.capacity.trans hk
    have hdouble : 2 * (64 * 2 ^ k) ≤ room 64 need.toNat := by
      rw [hcapacity] at hlt
      exact two_mul_le_room (by decide) hlt
    have hroom := room_le_limit hneed
    refine ⟨k + 1, ?_, by rw [mul_pow_succ]; exact hdouble⟩
    rw [if_pos hzero, UInt64.toNat_mul, hcapacity, mul_pow_succ]
    rw [limit] at hroom
    simp only [UInt64.reduceToNat]
    omega

/-- Within the limit a call goes through: the bytes are added, or there is no memory
for them and nothing changes. -/
theorem push_within (h : Holds buf bytes) (hlimit : bytes.length + c.data.length ≤ limit) :
    ∃ rc buf', ipmb_sample_buffer_push buf c = .ok (rc, buf') ∧
      (rc = .IPMB_OK ∧ Holds buf' (bytes ++ c.data) ∨ rc = .IPMB_ERR_ALLOC ∧ buf' = buf) := by
  have hneed : (buf.used + c.len).toNat = bytes.length + c.data.length := by
    rw [toNat_need h]
    rw [limit] at hlimit
    exact Nat.mod_eq_of_lt (by omega)
  rw [ipmb_sample_buffer_push]
  by_cases hgrow : buf.used + c.len > buf.capacity
  · obtain ⟨k, hfirst, hlow⟩ := first_cap h hgrow (by rw [hneed]; exact hlimit)
    obtain ⟨cap, hloop, hcap⟩ : ∃ cap, grow_loop (buf.used + c.len) 64
        (if buf.capacity ≠ 0 then buf.capacity * 2 else 64) = .ok cap ∧ cap.toNat = room 64 (buf.used + c.len).toNat :=
      grow_loop_room (by rw [hneed]; exact hlimit) hfirst (by rw [hfirst]; exact hlow) (by omega)
    rw [hneed] at hcap
    rw [if_pos hgrow]
    dsimp only
    rw [hloop, ok_bind]
    by_cases hgranted : c.granted = true
    · have hfits : bytes.length ≤ cap.toNat := by
        rw [hcap]
        exact (Nat.le_add_right _ _).trans (le_room (by decide))
      have hblock : bytes.length ≤ buf.data.length := by
        rw [h.length_data]
        exact le_room (by decide)
      rw [if_pos hgranted]
      obtain ⟨buf', hcopy, hholds⟩ := @copy_in_holds
        { buf with data := realloc_block buf.data cap.toNat, capacity := cap } bytes c h.used hcap
        (by rw [length_realloc_block, hcap]) (by rw [take_realloc_block hblock hfits, h.taken]) hlimit
      exact ⟨_, buf', hcopy, .inl ⟨rfl, hholds⟩⟩
    · rw [if_neg hgranted]
      exact ⟨_, buf, rfl, .inr ⟨rfl, rfl⟩⟩
  · have hle := UInt64.le_iff_toNat_le.mp (UInt64.not_lt.mp hgrow)
    rw [hneed, h.capacity] at hle
    have hsame := room_eq_of_le (by decide) (Nat.le_add_right _ _) hle
    rw [if_neg hgrow]
    obtain ⟨buf', hcopy, hholds⟩ := copy_in_holds h.used (h.capacity.trans hsame.symm)
      (h.length_data.trans hsame.symm) h.taken hlimit
    exact ⟨_, buf', hcopy, .inl ⟨rfl, hholds⟩⟩

theorem Holds.doubled (h : Holds buf bytes) : Doubled buf.capacity := by
  obtain hnil | hpos := Nat.eq_zero_or_pos bytes.length
  · refine .inl ?_
    rw [h.capacity, hnil, room_zero]
  · obtain ⟨k, hk⟩ := exists_room_eq 64 hpos
    have hpow : 64 * 2 ^ k = 2 ^ (k + 6) := by
      rw [Nat.pow_add, Nat.mul_comm]
    have hlimit := room_le_limit h.length_le
    rw [hk, hpow, limit, Nat.pow_le_pow_iff_right Nat.one_lt_two] at hlimit
    exact .inr ⟨k + 6, hlimit, by rw [h.capacity, hk, hpow]⟩

/-- A copy that does not fit writes where nothing was allocated. -/
theorem copy_in_faults (hdata : c.data ≠ []) (hroom : buf.data.length < buf.used.toNat + c.data.length) :
    ∃ e, copy_in buf c = .error e := by
  rw [copy_in, copy_payload, if_neg hdata]
  by_cases hnull : buf.data = []
  · rw [if_pos hnull]
    exact ⟨_, rfl⟩
  · rw [if_neg hnull, if_neg (Nat.not_le.mpr hroom)]
    exact ⟨_, rfl⟩

/-- Beyond the limit a call never ends, or it writes behind the block. -/
theorem push_beyond (h : Holds buf bytes) (hlimit : limit < bytes.length + c.data.length) :
    ∃ e, ipmb_sample_buffer_push buf c = .error e := by
  have hlen := c.len.toNat_lt
  have hneed := toNat_need (c := c) h
  rw [← c.length_data] at hlen
  rw [ipmb_sample_buffer_push]
  by_cases hwraps : bytes.length + c.data.length < 2 ^ 64
  · rw [Nat.mod_eq_of_lt hwraps] at hneed
    have hgrow : buf.used + c.len > buf.capacity := by
      rw [gt_iff_lt, UInt64.lt_iff_toNat_lt, hneed]
      exact Nat.lt_of_le_of_lt h.doubled.le_limit hlimit
    have hfirst : Doubled (if buf.capacity ≠ 0 then buf.capacity * 2 else 64) := by
      split
      · exact h.doubled.mul_two
      · exact .inr ⟨6, by decide, rfl⟩
    rw [if_pos hgrow]
    dsimp only
    rw [grow_loop_diverges (by rw [hneed]; exact hlimit) hfirst]
    exact ⟨_, rfl⟩
  · have hroom := room_le_limit h.length_le
    have hle := h.length_le
    have hheld : bytes.length ≤ room 64 bytes.length := le_room (by decide)
    rw [limit] at hroom hle
    have hstays : ¬buf.used + c.len > buf.capacity := by
      rw [gt_iff_lt, UInt64.lt_iff_toNat_lt, hneed, h.capacity]
      omega
    rw [if_neg hstays]
    refine copy_in_faults (List.ne_nil_of_length_pos (by omega)) ?_
    rw [h.length_data, h.used]
    omega

end push

section runs
variable {s s' : ipmb_sample_buffer_t × List UInt8} {calls : List push_call}

theorem call_within {c : push_call} (h : Holds s.1 s.2) (hlimit : s.2.length + c.data.length ≤ limit) :
    ∃ s', call s c = .ok s' ∧ Holds s'.1 s'.2 := by
  obtain ⟨rc, buf, hpush, ⟨rfl, hholds⟩ | ⟨rfl, rfl⟩⟩ := push_within h hlimit
  · exact ⟨(buf, s.2 ++ c.data), by rw [call, hpush]; rfl, hholds⟩
  · exact ⟨s, by rw [call, hpush]; rfl, h⟩

theorem call_beyond {c : push_call} (h : Holds s.1 s.2) (hlimit : limit < s.2.length + c.data.length) :
    ∃ e, call s c = .error e := by
  obtain ⟨e, hpush⟩ := push_beyond h hlimit
  exact ⟨e, by rw [call, hpush]; rfl⟩

theorem run_holds (h : Holds s.1 s.2) (hrun : calls.foldlM call s = .ok s') : Holds s'.1 s'.2 := by
  refine foldlM_invariant (P := fun s => Holds s.1 s.2) ?_ h hrun
  intro s c s' hs hcall
  by_cases hlimit : s.2.length + c.data.length ≤ limit
  · obtain ⟨s₁, hok, hholds⟩ := call_within hs hlimit
    rw [hok] at hcall
    cases hcall
    exact hholds
  · obtain ⟨e, herror⟩ := call_beyond hs (Nat.not_le.mp hlimit)
    rw [herror] at hcall
    cases hcall

end runs

/-- A buffer holds what it was given. Calls in any order, whichever of their
allocations are refused, go through up to the first one that would take what the
buffer holds beyond the limit, and that one does not return. What they leave is
the bytes of the calls that returned `IPMB_OK`, in order, at the start of a block
of the first capacity with room for them. -/
theorem ipmb_sample_buffer_runs (calls : List push_call) :
    ((∃ s, calls.foldlM call (ipmb_sample_buffer_init, []) = .ok s) ↔
      ∀ before c after s, calls = before ++ c :: after →
        before.foldlM call (ipmb_sample_buffer_init, []) = .ok s → s.2.length + c.data.length ≤ limit) ∧
    ∀ s, calls.foldlM call (ipmb_sample_buffer_init, []) = .ok s → Holds s.1 s.2 := by
  refine ⟨⟨?_, ?_⟩, fun s hrun => run_holds holds_init hrun⟩
  · rintro ⟨s', hrun⟩ before c after s rfl hbefore
    rw [List.foldlM_append, hbefore, ok_bind, List.foldlM_cons] at hrun
    by_contra hlimit
    obtain ⟨e, herror⟩ := call_beyond (run_holds holds_init hbefore) (Nat.not_le.mp hlimit)
    rw [herror] at hrun
    cases hrun
  · intro hlimits
    induction calls using List.reverseRecOn with
    | nil => exact ⟨_, rfl⟩
    | append_singleton calls c ih =>
      obtain ⟨s, hrun⟩ := ih fun before c' after s hcalls =>
        hlimits before c' (after ++ [c]) s (by rw [hcalls]; simp)
      obtain ⟨s', hcall, -⟩ := call_within (run_holds holds_init hrun) (hlimits calls c [] s rfl hrun)
      exact ⟨s', by rw [List.foldlM_append, hrun, ok_bind, List.foldlM_cons, hcall]; rfl⟩

end ipmb.sample_buffer
