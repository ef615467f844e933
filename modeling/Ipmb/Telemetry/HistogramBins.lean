import Ipmb.Telemetry.Histogram

open fallible

namespace ipmb.histogram

/-- The bin that a call increments if its index passes the check. The sum wraps
around. -/
def sample_call.touched (bucket_count : UInt32) (call : sample_call) : Option Nat :=
  if call.bin_index < bucket_count then some (call.bin_index + bin_offset call.schema).toNat else none

/-- The bins that calls increment, one after the other. -/
def touched (bucket_count : UInt32) (calls : List sample_call) : List Nat :=
  calls.filterMap (sample_call.touched bucket_count)

/-- How often each bin is among the incremented ones. A bin wraps around. -/
def counted (bucket_count : UInt32) (is : List Nat) : List UInt32 :=
  (List.range bucket_count.toNat).map fun i => UInt32.ofNat (is.count i)

/-- The histogram after increments, and how many there were. -/
def incremented (bucket_count : UInt32) (is : List Nat) : ipmb_histogram_t × Nat :=
  ({ bucket_count
     bins := counted bucket_count is
     length_bins := by rw [counted, List.length_map, List.length_range] }, is.length)

variable {bucket_count : UInt32}

theorem getElem?_counted (is : List Nat) {i : Nat} (hi : i < bucket_count.toNat) :
    (counted bucket_count is)[i]? = some (UInt32.ofNat (is.count i)) := by
  rw [counted, List.getElem?_map, List.getElem?_range hi, Option.map_some]

/-- One more increment of a bin. -/
theorem set_counted (is : List Nat) {i : Nat} (hi : i < bucket_count.toNat) :
    (counted bucket_count is).set i (UInt32.ofNat (is.count i) + 1) = counted bucket_count (is ++ [i]) := by
  apply List.ext_getElem?
  intro j
  rw [List.getElem?_set]
  by_cases hj : j < bucket_count.toNat
  · rw [getElem?_counted _ hj, getElem?_counted _ hj, List.count_append]
    by_cases hij : i = j
    · subst hij
      simp [counted, hi, UInt32.ofNat_add]
    · rw [if_neg hij, List.count_singleton, if_neg (by simpa using hij), Nat.add_zero]
  · have hnone (is : List Nat) : (counted bucket_count is)[j]? = none := by
      rw [counted, List.getElem?_eq_none_iff, List.length_map, List.length_range]
      exact Nat.not_lt.mp hj
    have hij : i ≠ j := fun heq => hj (heq ▸ hi)
    rw [if_neg hij, hnone, hnone]

theorem counted_perm {is js : List Nat} (h : is.Perm js) : counted bucket_count is = counted bucket_count js := by
  rw [counted, counted]
  exact List.map_congr_left fun i _ => by rw [h.count_eq]

theorem incremented_perm {is js : List Nat} (h : is.Perm js) :
    incremented bucket_count is = incremented bucket_count js := by
  simp only [incremented, counted_perm h, h.length_eq]

theorem bin_incr_incremented (is : List Nat) (index : UInt32) :
    ipmb_histogram_bin_incr (incremented bucket_count is).1 index =
      if index.toNat < bucket_count.toNat then .ok (incremented bucket_count (is ++ [index.toNat])).1
      else .error .writeOutOfBounds := by
  rw [ipmb_histogram_bin_incr]
  by_cases hi : index.toNat < bucket_count.toNat
  · rw [if_pos hi]
    split
    · rename_i hnone
      rw [incremented, getElem?_counted is hi] at hnone
      cases hnone
    · rename_i n hsome
      rw [incremented, getElem?_counted is hi, Option.some.injEq] at hsome
      subst hsome
      simp only [incremented, set_counted is hi]
  · rw [if_neg hi]
    split
    · rfl
    · rename_i n hsome
      have hlt := (List.getElem?_eq_some_iff.mp hsome).1
      rw [(incremented bucket_count is).1.length_bins] at hlt
      exact absurd hlt hi

theorem add_call_touched (is : List Nat) (call : sample_call) :
    add_call (incremented bucket_count is) call =
      match call.touched bucket_count with
      | none => .ok (incremented bucket_count is)
      | some i =>
        if i < bucket_count.toNat then .ok (incremented bucket_count (is ++ [i])) else .error .writeOutOfBounds := by
  have hcount : (incremented bucket_count is).1.bucket_count = bucket_count := rfl
  rw [add_call, ipmb_histogram_add_sample, sample_call.touched, hcount, bin_incr_incremented]
  by_cases hpasses : call.bin_index < bucket_count
  · rw [if_neg (UInt32.not_le.mpr hpasses), if_pos hpasses]
    dsimp only
    split
    · rw [ok_bind, pure_eq_ok, ok_bind, if_pos rfl]
      simp only [incremented, List.length_append, List.length_singleton, pure_eq_ok]
    · rfl
  · rw [if_pos (UInt32.not_lt.mp hpasses), if_neg hpasses]
    rfl

theorem run_touched (calls : List sample_call) (is : List Nat) :
    calls.foldlM add_call (incremented bucket_count is) =
      if ∀ i ∈ touched bucket_count calls, i < bucket_count.toNat then
        .ok (incremented bucket_count (is ++ touched bucket_count calls))
      else .error .writeOutOfBounds := by
  induction calls generalizing is with
  | nil => simp [touched]
  | cons call calls ih =>
    rw [List.foldlM_cons, add_call_touched]
    cases hcall : call.touched bucket_count with
    | none =>
      have hcons : touched bucket_count (call :: calls) = touched bucket_count calls := by
        rw [touched, List.filterMap_cons_none hcall, touched]
      rw [ok_bind, ih is, hcons]
    | some i =>
      have hcons : touched bucket_count (call :: calls) = i :: touched bucket_count calls := by
        rw [touched, List.filterMap_cons_some hcall, touched]
      rw [hcons]
      simp only [List.forall_mem_cons]
      by_cases hi : i < bucket_count.toNat
      · rw [if_pos hi, ok_bind, ih, List.append_assoc, List.singleton_append]
        simp only [hi, true_and]
      · rw [if_neg hi, error_bind, if_neg fun hall => hi hall.1]

/-- Whatever the schemas, a sequence of calls writes out of bounds exactly when one of
them touches a bin there is not. Otherwise a bin counts the calls that touched it,
modulo its width, and the order of the calls does not matter. -/
theorem ipmb_histogram_counts (calloc : Bool) (bucket_count : UInt32) (calls : List sample_call) :
    let hist := (ipmb_histogram_init calloc bucket_count).2
    (calls.foldlM add_call (hist, 0) =
      if ∀ i ∈ touched hist.bucket_count calls, i < hist.bucket_count.toNat then
        .ok (incremented hist.bucket_count (touched hist.bucket_count calls))
      else .error .writeOutOfBounds) ∧
    ∀ calls' : List sample_call, calls'.Perm calls →
      calls'.foldlM add_call (hist, 0) = calls.foldlM add_call (hist, 0) := by
  dsimp only
  have hinit : ((ipmb_histogram_init calloc bucket_count).2, 0) =
      incremented (ipmb_histogram_init calloc bucket_count).2.bucket_count [] := by
    rw [ipmb_histogram_init]
    split_ifs
    · rfl
    · rfl
    · simp [incremented, counted, List.map_const']
  generalize (ipmb_histogram_init calloc bucket_count).2 = hist at hinit ⊢
  rw [hinit]
  refine ⟨run_touched calls [], fun calls' hperm => ?_⟩
  have htouched : (touched hist.bucket_count calls').Perm (touched hist.bucket_count calls) := hperm.filterMap _
  rw [run_touched, run_touched, List.nil_append, List.nil_append, incremented_perm htouched]
  simp only [htouched.mem_iff]

end ipmb.histogram
