import Mathlib.Algebra.Order.Floor.Div
import Mathlib.Data.Nat.Log

namespace doubling

/-- The first of the sizes `first`, `2 * first`, `4 * first` and so on that has room
for so many elements; none of them is needed for nothing. -/
def room (first n : Nat) : Nat := if n = 0 then 0 else first * 2 ^ Nat.clog 2 (n ⌈/⌉ first)

@[simp] theorem room_zero (first : Nat) : room first 0 = 0 := rfl

variable {first n m : Nat}

theorem mul_pow_succ (first k : Nat) : first * 2 ^ (k + 1) = 2 * (first * 2 ^ k) := by
  rw [Nat.pow_succ, Nat.mul_comm (2 ^ k), Nat.mul_left_comm]

theorem exists_room_eq (first : Nat) (hn : 0 < n) : ∃ k, room first n = first * 2 ^ k :=
  ⟨_, if_neg (Nat.ne_of_gt hn)⟩

theorem room_le_iff (hfirst : 0 < first) (hn : 0 < n) {k : Nat} :
    room first n ≤ first * 2 ^ k ↔ n ≤ first * 2 ^ k := by
  rw [room, if_neg (Nat.ne_of_gt hn), Nat.mul_le_mul_left_iff hfirst, Nat.pow_le_pow_iff_right Nat.one_lt_two,
    Nat.clog_le_iff_le_pow Nat.one_lt_two, ceilDiv_le_iff_le_mul hfirst]

theorem le_room (hfirst : 0 < first) : n ≤ room first n := by
  obtain rfl | hn := Nat.eq_zero_or_pos n
  · exact Nat.zero_le _
  · obtain ⟨k, hk⟩ := exists_room_eq first hn
    rw [hk]
    exact (room_le_iff hfirst hn).mp (Nat.le_of_eq hk)

/-- A size with room for more is that for all it has room for. -/
theorem room_eq_of_le (hfirst : 0 < first) (hle : n ≤ m) (hroom : m ≤ room first n) : room first m = room first n := by
  obtain rfl | hn := Nat.eq_zero_or_pos n
  · rw [Nat.eq_zero_of_le_zero hroom]
  · have hm : 0 < m := Nat.lt_of_lt_of_le hn hle
    obtain ⟨k, hk⟩ := exists_room_eq first hn
    obtain ⟨j, hj⟩ := exists_room_eq first hm
    apply Nat.le_antisymm
    · rw [hk] at hroom ⊢
      exact (room_le_iff hfirst hm).mpr hroom
    · have hle_room : m ≤ room first m := le_room hfirst
      rw [hj] at hle_room ⊢
      exact (room_le_iff hfirst hn).mpr (hle.trans hle_room)

/-- A size that is too small is at most half of the one there is room in. -/
theorem two_mul_le_room (hfirst : 0 < first) {k : Nat} (h : first * 2 ^ k < n) :
    2 * (first * 2 ^ k) ≤ room first n := by
  have hn : 0 < n := Nat.lt_of_le_of_lt (Nat.zero_le _) h
  obtain ⟨j, hj⟩ := exists_room_eq first hn
  have hroom : n ≤ room first n := le_room hfirst
  rw [hj] at hroom ⊢
  have hkj : k < j := by
    by_contra hjk
    have hpow := Nat.mul_le_mul_left first (Nat.pow_le_pow_right Nat.two_pos (Nat.not_lt.mp hjk))
    omega
  calc 2 * (first * 2 ^ k) = first * 2 ^ (k + 1) := (mul_pow_succ first k).symm
    _ ≤ first * 2 ^ j := Nat.mul_le_mul_left first (Nat.pow_le_pow_right Nat.two_pos hkj)

theorem room_one (hfirst : 0 < first) : room first 1 = first := by
  have hceil : 1 ⌈/⌉ first ≤ 1 := (ceilDiv_le_iff_le_mul hfirst).mpr (by rwa [Nat.mul_one])
  rw [room, if_neg Nat.one_ne_zero, Nat.clog_of_right_le_one hceil, Nat.pow_zero, Nat.mul_one]

/-- One more than a whole size has room for needs the next. -/
theorem room_succ_of_room_eq (hfirst : 0 < first) (hn : 0 < n) (hroom : room first n = n) :
    room first (n + 1) = n * 2 := by
  obtain ⟨k, hk⟩ := exists_room_eq first hn
  rw [hroom] at hk
  have hnext : n * 2 = first * 2 ^ (k + 1) := by rw [mul_pow_succ, ← hk, Nat.mul_comm]
  apply Nat.le_antisymm
  · rw [hnext]
    exact (room_le_iff hfirst (Nat.succ_pos n)).mpr (by omega)
  · rw [hnext, mul_pow_succ]
    exact two_mul_le_room hfirst (by omega)

/-- The next size of a full array is that with room for one more. -/
theorem doubled_eq_room (hfirst : 0 < first) (hfull : n = room first n) :
    (if room first n = 0 then first else room first n * 2) = room first (n + 1) := by
  rw [← hfull]
  by_cases hzero : n = 0
  · rw [if_pos hzero, hzero, room_one hfirst]
  · rw [if_neg hzero, room_succ_of_room_eq hfirst (Nat.pos_of_ne_zero hzero) hfull.symm]

theorem room_succ_of_ne (hfirst : 0 < first) (hroom : n ≠ room first n) : room first (n + 1) = room first n :=
  room_eq_of_le hfirst (Nat.le_succ n) (Nat.lt_of_le_of_ne (le_room hfirst) hroom)

/-- Beyond the first size at least half of the room is needed. -/
theorem room_le (hfirst : 0 < first) : room first n ≤ max first (2 * (n - 1)) := by
  obtain rfl | hn := Nat.eq_zero_or_pos n
  · exact Nat.zero_le _
  · obtain ⟨k, hk⟩ := exists_room_eq first hn
    cases k with
    | zero =>
      rw [hk, Nat.pow_zero, Nat.mul_one]
      exact Nat.le_max_left _ _
    | succ k =>
      have hsmall : first * 2 ^ k < n := by
        by_contra hge
        have hle := (room_le_iff hfirst hn).mpr (Nat.not_lt.mp hge)
        have hpos : 0 < first * 2 ^ k := Nat.mul_pos hfirst (Nat.two_pow_pos k)
        rw [hk, mul_pow_succ] at hle
        omega
      rw [hk, mul_pow_succ]
      exact Nat.le_trans (by omega) (Nat.le_max_right _ _)

end doubling
