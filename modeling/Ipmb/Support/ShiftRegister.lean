import Mathlib.Data.BitVec
import Mathlib.Logic.Function.Iterate

namespace shift_register

variable {w k : Nat}

/-- One step of a register with feedback: it shifts towards the low end, and a
bit that falls out brings the polynomial in. -/
def step (poly x : BitVec w) : BitVec w := x >>> 1 ^^^ if x.getLsbD 0 then poly else 0

/-- A symbol goes into the low end and through the register. -/
def feed (poly x : BitVec w) (c : BitVec k) : BitVec w := (step poly)^[k] (x ^^^ c.setWidth w)

/-- Symbols as one number, the first one at the low end. -/
def pack (w : Nat) : List (BitVec k) → BitVec w
  | [] => 0
  | c :: cs => c.setWidth w ^^^ pack w cs <<< k

variable {poly : BitVec w}

theorem getLsbD_step (poly x : BitVec w) (i : Nat) :
    (step poly x).getLsbD i = (x.getLsbD (i + 1) ^^ (x.getLsbD 0 && poly.getLsbD i)) := by
  rw [step, BitVec.getLsbD_xor, BitVec.getLsbD_ushiftRight, Nat.add_comm]
  cases x.getLsbD 0 <;> simp

theorem step_xor (poly x y : BitVec w) : step poly (x ^^^ y) = step poly x ^^^ step poly y := by
  apply BitVec.eq_of_getLsbD_eq
  intro i _
  simp only [getLsbD_step, BitVec.getLsbD_xor]
  cases x.getLsbD 0 <;> cases y.getLsbD 0 <;> cases x.getLsbD (i + 1) <;> cases y.getLsbD (i + 1) <;>
    cases poly.getLsbD i <;> rfl

theorem iterate_step_xor (poly x y : BitVec w) (n : Nat) :
    (step poly)^[n] (x ^^^ y) = (step poly)^[n] x ^^^ (step poly)^[n] y := by
  induction n generalizing x y with
  | zero => rfl
  | succ n ih => rw [Function.iterate_succ_apply, step_xor, ih]; rfl

/-- Where the polynomial has the top bit, only nothing leads to nothing. -/
theorem eq_zero_of_step (hpoly : poly.getLsbD (w - 1) = true) {x : BitVec w} (h : step poly x = 0) : x = 0 := by
  have hbit : ∀ i, (x.getLsbD (i + 1) ^^ (x.getLsbD 0 && poly.getLsbD i)) = false := by
    intro i
    rw [← getLsbD_step, h]
    simp
  have hw : 0 < w := by
    by_contra hzero
    rw [BitVec.getLsbD_of_ge _ _ (by omega)] at hpoly
    cases hpoly
  have hlow : x.getLsbD 0 = false := by
    have htop := hbit (w - 1)
    rw [hpoly, Nat.sub_add_cancel hw, BitVec.getLsbD_of_ge _ _ (Nat.le_refl w)] at htop
    simpa using htop
  apply BitVec.eq_of_getLsbD_eq
  intro i _
  cases i with
  | zero => simpa using hlow
  | succ i => simpa [hlow] using hbit i

theorem step_injective (hpoly : poly.getLsbD (w - 1) = true) : Function.Injective (step poly) := by
  intro x y h
  have hzero : step poly (x ^^^ y) = 0 := by
    rw [step_xor, h, BitVec.xor_self]
    rfl
  exact BitVec.xor_eq_zero_iff.mp (eq_zero_of_step hpoly hzero)

/-- Shifting up by one undoes a step as long as no bit is lost. -/
theorem step_shiftLeft {x : BitVec w} (h : x.getLsbD (w - 1) = false) : step poly (x <<< 1) = x := by
  apply BitVec.eq_of_getLsbD_eq
  intro i hi
  rw [getLsbD_step, BitVec.getLsbD_shiftLeft, BitVec.getLsbD_shiftLeft]
  by_cases hlast : i + 1 < w
  · simp [hlast]
  · have htop : i = w - 1 := by omega
    simp [htop, h]

theorem iterate_step_shiftLeft {x : BitVec w} {n : Nat} (h : ∀ i, w - n ≤ i → x.getLsbD i = false) :
    (step poly)^[n] (x <<< n) = x := by
  induction n with
  | zero => rw [BitVec.shiftLeft_zero]; rfl
  | succ n ih =>
    have htop : (x <<< n).getLsbD (w - 1) = false := by
      rw [BitVec.getLsbD_shiftLeft]
      by_cases hn : n ≤ w - 1
      · rw [h (w - 1 - n) (by omega), Bool.and_false]
      · simp [Nat.not_le.mp hn]
    rw [Function.iterate_succ_apply, BitVec.shiftLeft_add, step_shiftLeft htop]
    exact ih fun i hi => h i (by omega)

theorem getLsbD_pack (cs : List (BitVec k)) {i : Nat} (hi : k * cs.length ≤ i) :
    (pack w cs).getLsbD i = false := by
  induction cs generalizing i with
  | nil => exact BitVec.getLsbD_zero
  | cons c cs ih =>
    rw [List.length_cons, Nat.mul_succ] at hi
    rw [pack, BitVec.getLsbD_xor, BitVec.getLsbD_setWidth, BitVec.getLsbD_of_ge c i (by omega),
      BitVec.getLsbD_shiftLeft, ih (by omega)]
    simp

/-- Symbols that fit go in as one number. -/
theorem foldl_feed_eq (poly x : BitVec w) {cs : List (BitVec k)} (hfit : k * cs.length ≤ w) :
    cs.foldl (feed poly) x = (step poly)^[k * cs.length] (x ^^^ pack w cs) := by
  induction cs generalizing x with
  | nil => simp [pack]
  | cons c cs ih =>
    rw [List.length_cons, Nat.mul_succ] at hfit
    have hundo : pack w cs = (step poly)^[k] (pack w cs <<< k) := by
      rw [iterate_step_shiftLeft]
      intro i hi
      exact getLsbD_pack cs (by omega)
    rw [List.foldl_cons, ih _ (by omega), feed, List.length_cons, Nat.mul_succ, Function.iterate_add_apply, pack,
      ← BitVec.xor_assoc, iterate_step_xor poly _ (pack w cs <<< k), ← hundo]

/-- Symbols that fit can be told apart as one number. -/
theorem pack_injective {cs cs' : List (BitVec k)} (hlength : cs.length = cs'.length)
    (hfit : k * cs.length ≤ w) (h : pack w cs = pack w cs') : cs = cs' := by
  induction cs generalizing cs' with
  | nil => exact (List.length_eq_zero_iff.mp hlength.symm).symm
  | cons c cs ih =>
    cases cs' with
    | nil => cases hlength
    | cons c' cs' =>
      rw [List.length_cons, Nat.mul_succ] at hfit
      have hbits : ∀ i, (pack w (c :: cs)).getLsbD i = (pack w (c' :: cs')).getLsbD i := by
        intro i
        rw [h]
      simp only [pack, BitVec.getLsbD_xor, BitVec.getLsbD_setWidth, BitVec.getLsbD_shiftLeft] at hbits
      have hhead : c = c' := by
        apply BitVec.eq_of_getLsbD_eq
        intro i hi
        have hlow : i < w := by omega
        simpa [hi, hlow] using hbits i
      have htail : pack w cs = pack w cs' := by
        apply BitVec.eq_of_getLsbD_eq
        intro i hi
        by_cases hin : i + k < w
        · have hhigh : ¬i + k < k := by omega
          simpa [hin, hhigh] using hbits (i + k)
        · rw [List.length_cons, List.length_cons, Nat.add_right_cancel_iff] at hlength
          rw [getLsbD_pack cs (by omega), getLsbD_pack cs' (by rw [← hlength]; omega)]
      rw [hhead, ih (by simpa using hlength) (by omega) htail]

/-- What is fed to two registers keeps them apart. -/
theorem foldl_feed_injective (hpoly : poly.getLsbD (w - 1) = true) (cs : List (BitVec k)) {x y : BitVec w}
    (h : cs.foldl (feed poly) x = cs.foldl (feed poly) y) : x = y := by
  induction cs generalizing x y with
  | nil => exact h
  | cons c cs ih => exact (BitVec.xor_left_inj _).mp ((step_injective hpoly).iterate k (ih h))

/-- A register tells apart what is fed to it as long as it fits into it,
whatever is fed afterwards. -/
theorem burst (hpoly : poly.getLsbD (w - 1) = true) {x : BitVec w} {cs cs' after : List (BitVec k)}
    (hlength : cs.length = cs'.length) (hfit : k * cs.length ≤ w)
    (h : (cs ++ after).foldl (feed poly) x = (cs' ++ after).foldl (feed poly) x) : cs = cs' := by
  rw [List.foldl_append, List.foldl_append] at h
  have hregister := foldl_feed_injective hpoly after h
  rw [foldl_feed_eq poly x hfit, foldl_feed_eq poly x (by rw [← hlength]; exact hfit), hlength] at hregister
  have hpacked := (step_injective hpoly).iterate _ hregister
  exact pack_injective hlength hfit ((BitVec.xor_right_inj _).mp hpacked)

/-- A register in two parts: a symbol at the low end, and what is above it. -/
theorem eq_shiftLeft_xor_setWidth (k : Nat) (x : BitVec w) : x = (x >>> k) <<< k ^^^ (x.setWidth k).setWidth w := by
  apply BitVec.eq_of_getLsbD_eq
  intro i hi
  rw [BitVec.getLsbD_xor, BitVec.getLsbD_shiftLeft, BitVec.getLsbD_ushiftRight, BitVec.getLsbD_setWidth,
    BitVec.getLsbD_setWidth]
  by_cases hlow : i < k
  · simp [hi, hlow]
  · simp [hi, hlow, Nat.add_sub_of_le (Nat.not_lt.mp hlow)]

/-- A symbol goes into the register as by a table: what is above the low end moves
down, and what the low end leaves of an empty register comes on top. -/
theorem feed_eq_table (poly x : BitVec w) (c : BitVec k) :
    feed poly x c = (x ^^^ c.setWidth w) >>> k ^^^ feed poly 0 ((x ^^^ c.setWidth w).setWidth k) := by
  have hhigh : (step poly)^[k] (((x ^^^ c.setWidth w) >>> k) <<< k) = (x ^^^ c.setWidth w) >>> k := by
    apply iterate_step_shiftLeft
    intro i hi
    rw [BitVec.getLsbD_ushiftRight, BitVec.getLsbD_of_ge _ _ (by omega)]
  have hzero : (0 : BitVec w) ^^^ ((x ^^^ c.setWidth w).setWidth k).setWidth w =
      ((x ^^^ c.setWidth w).setWidth k).setWidth w := BitVec.zero_xor
  calc feed poly x c = (step poly)^[k] (((x ^^^ c.setWidth w) >>> k) <<< k ^^^
        ((x ^^^ c.setWidth w).setWidth k).setWidth w) := by rw [feed, ← eq_shiftLeft_xor_setWidth]
    _ = _ := by rw [iterate_step_xor, hhigh, feed, hzero]

/-- Different symbols leave different registers. -/
theorem feed_injective (hpoly : poly.getLsbD (w - 1) = true) (hk : k ≤ w) (x : BitVec w) :
    Function.Injective (feed poly x : BitVec k → BitVec w) := by
  intro c c' h
  have hsame := Function.Injective.iterate (step_injective hpoly) k h
  rw [BitVec.xor_right_inj] at hsame
  have hback := congrArg (BitVec.setWidth k) hsame
  rwa [BitVec.setWidth_setWidth_of_le _ hk, BitVec.setWidth_setWidth_of_le _ hk, BitVec.setWidth_eq,
    BitVec.setWidth_eq] at hback

end shift_register
