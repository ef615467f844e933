import Mathlib.Algebra.Order.BigOperators.Group.List
import Mathlib.Algebra.Order.Group.Nat
import Mathlib.Algebra.Ring.Nat
import Ipmb.Support.Fallible
import Ipmb.Types

open fallible

namespace ipmb.histogram

/-- Only its offset is used when a sample is added. -/
structure ipmb_histogram_schema_t where
  bucket_count : UInt32
  bin_offset : UInt32
  deriving Repr, DecidableEq

/-- As many bins as the count says. There are none after a failed init. -/
structure ipmb_histogram_t where
  bucket_count : UInt32
  bins : List UInt32
  length_bins : bins.length = bucket_count.toNat
  deriving DecidableEq

/-- The histogram that `memset` leaves. -/
def ipmb_histogram_t.zero : ipmb_histogram_t := { bucket_count := 0, bins := [], length_bins := rfl }

def ipmb_histogram_init (calloc : Bool) (bucket_count : UInt32) : ipmb_status_t × ipmb_histogram_t :=
  if bucket_count = 0 ∨ bucket_count.toNat > 1000000 then (.IPMB_ERR_LIMIT, .zero)
  else if calloc = false then (.IPMB_ERR_ALLOC, .zero)
  else
    (.IPMB_OK,
      { bucket_count, bins := List.replicate bucket_count.toNat 0, length_bins := List.length_replicate })

/-- `hist->bins[index]++`, which wraps around. -/
def ipmb_histogram_bin_incr (hist : ipmb_histogram_t) (index : UInt32) : Except Fault ipmb_histogram_t :=
  match hist.bins[index.toNat]? with
  | none => .error .writeOutOfBounds
  | some n => .ok
      { hist with
        bins := hist.bins.set index.toNat (n + 1)
        length_bins := by rw [List.length_set, hist.length_bins] }

/-- The offset of a schema, if there is one. -/
def bin_offset : Option ipmb_histogram_schema_t → UInt32
  | some schema => schema.bin_offset
  | none => 0

def ipmb_histogram_add_sample (hist : ipmb_histogram_t) (schema : Option ipmb_histogram_schema_t)
    (bin_index : UInt32) : Except Fault (ipmb_status_t × ipmb_histogram_t) :=
  if bin_index ≥ hist.bucket_count then .ok (.IPMB_ERR_LIMIT, hist)
  else do
    let hist ← ipmb_histogram_bin_incr hist (bin_index + bin_offset schema)
    pure (.IPMB_OK, hist)

/-- The arguments of a call, apart from the histogram. -/
structure sample_call where
  schema : Option ipmb_histogram_schema_t
  bin_index : UInt32
  deriving Repr, DecidableEq

/-- A call, with the number of calls so far that returned `IPMB_OK`. -/
def add_call (s : ipmb_histogram_t × Nat) (call : sample_call) : Except Fault (ipmb_histogram_t × Nat) := do
  let (rc, hist) ← ipmb_histogram_add_sample s.1 call.schema call.bin_index
  return (hist, if rc = .IPMB_OK then s.2 + 1 else s.2)

/-- The bin that a sample is meant for. -/
def sample_call.effective (call : sample_call) : Nat := call.bin_index.toNat + (bin_offset call.schema).toNat

/-- The sum of all bins. -/
def ipmb_histogram_t.total (hist : ipmb_histogram_t) : Nat := (hist.bins.map UInt32.toNat).sum

/-- A sequence of calls only ever increments bins there are, refuses the samples
that are meant for others, and is accounted for by the bins. -/
def Conserves (hist : ipmb_histogram_t) (calls : List sample_call) : Prop :=
  ∃ final oks, calls.foldlM add_call (hist, 0) = .ok (final, oks) ∧
    (calls.length < 2 ^ 32 → final.total = oks) ∧
    ∀ before call after s, calls = before ++ call :: after → before.foldlM add_call (hist, 0) = .ok s →
      s.1.bucket_count.toNat ≤ call.effective →
        ipmb_histogram_add_sample s.1 call.schema call.bin_index = .ok (.IPMB_ERR_LIMIT, s.1)

/-- An index that passes the check leads to a bin. -/
def Fits (bucket_count : UInt32) (call : sample_call) : Prop :=
  call.bin_index < bucket_count → call.effective < bucket_count.toNat

theorem total_set {bins : List UInt32} {i : Nat} {n : UInt32} (hget : bins[i]? = some n) (hn : n.toNat + 1 < 2 ^ 32) :
    ((bins.set i (n + 1)).map UInt32.toNat).sum = (bins.map UInt32.toNat).sum + 1 := by
  induction bins generalizing i with
  | nil => cases hget
  | cons bin bins ih =>
    cases i with
    | zero =>
      cases hget
      rw [List.set_cons_zero, List.map_cons, List.sum_cons, List.map_cons, List.sum_cons,
        UInt32.toNat_add, UInt32.toNat_one, Nat.mod_eq_of_lt hn]
      exact Nat.add_right_comm _ _ _
    | succ i =>
      rw [List.set_cons_succ, List.map_cons, List.sum_cons, List.map_cons, List.sum_cons, ih hget]
      omega

/-- An increment of a bin that is there adds one to the sum. -/
theorem ipmb_histogram_bin_incr_of_lt {hist : ipmb_histogram_t} {index : UInt32}
    (h : index.toNat < hist.bucket_count.toNat) :
    ∃ hist', ipmb_histogram_bin_incr hist index = .ok hist' ∧ hist'.bucket_count = hist.bucket_count ∧
      (hist.total + 1 < 2 ^ 32 → hist'.total = hist.total + 1) := by
  rw [← hist.length_bins] at h
  have hget : hist.bins[index.toNat]? = some hist.bins[index.toNat] := List.getElem?_eq_getElem h
  have hle : hist.bins[index.toNat].toNat ≤ hist.total :=
    List.single_le_sum (fun _ _ => Nat.zero_le _) _ (List.mem_map_of_mem (List.getElem_mem h))
  rw [ipmb_histogram_bin_incr]
  split
  · rename_i hnone
    rw [hnone] at hget
    cases hget
  · rename_i n hsome
    rw [hsome, Option.some.injEq] at hget
    refine ⟨_, rfl, rfl, ?_⟩
    intro hroom
    exact total_set hsome (by rw [hget]; omega)

/-- A sample that fits is counted in its bin, or refused. -/
theorem add_call_of_fits {s : ipmb_histogram_t × Nat} {call : sample_call} (h : Fits s.1.bucket_count call) :
    ∃ s', add_call s call = .ok s' ∧ s'.1.bucket_count = s.1.bucket_count ∧
      (s.1.total = s.2 → s.2 + 1 < 2 ^ 32 → s'.1.total = s'.2 ∧ s'.2 ≤ s.2 + 1) := by
  obtain ⟨hist, oks⟩ := s
  rw [add_call, ipmb_histogram_add_sample]
  by_cases hrefused : call.bin_index ≥ hist.bucket_count
  · rw [if_pos hrefused]
    exact ⟨_, rfl, rfl, fun htotal _ => ⟨htotal, Nat.le_succ _⟩⟩
  · have heffective := h (UInt32.not_le.mp hrefused)
    have hindex : (call.bin_index + bin_offset call.schema).toNat = call.effective := by
      have hlt := hist.bucket_count.toNat_lt
      rw [UInt32.toNat_add, sample_call.effective]
      exact Nat.mod_eq_of_lt (Nat.lt_trans heffective hlt)
    have hbin : (call.bin_index + bin_offset call.schema).toNat < hist.bucket_count.toNat := by
      rw [hindex]
      exact heffective
    obtain ⟨hist', hincr, hcount, htotal'⟩ := ipmb_histogram_bin_incr_of_lt hbin
    rw [if_neg hrefused]
    simp only [hincr, ok_bind]
    refine ⟨_, rfl, hcount, ?_⟩
    intro htotal hroom
    have htotal : hist.total = oks := htotal
    exact ⟨by rw [htotal' (by omega), htotal]; rfl, Nat.le_refl _⟩

/-- A sequence of samples that fit. -/
theorem run_of_fits {calls : List sample_call} {s : ipmb_histogram_t × Nat}
    (h : ∀ call ∈ calls, Fits s.1.bucket_count call) :
    ∃ s', calls.foldlM add_call s = .ok s' ∧ s'.1.bucket_count = s.1.bucket_count ∧
      (s.1.total = s.2 → s.2 + calls.length < 2 ^ 32 → s'.1.total = s'.2) := by
  induction calls generalizing s with
  | nil => exact ⟨s, rfl, rfl, fun htotal _ => htotal⟩
  | cons call calls ih =>
    obtain ⟨s₁, hcall, hcount₁, htotal₁⟩ := add_call_of_fits (h call List.mem_cons_self)
    obtain ⟨s', hrun, hcount', htotal'⟩ := ih (s := s₁) (by
      rw [hcount₁]
      exact fun c hc => h c (List.mem_cons_of_mem _ hc))
    refine ⟨s', ?_, hcount'.trans hcount₁, ?_⟩
    · rw [List.foldlM_cons, hcall, ok_bind, hrun]
    · intro htotal hroom
      rw [List.length_cons] at hroom
      obtain ⟨hsum, hle⟩ := htotal₁ htotal (by omega)
      exact htotal' hsum (by omega)

/-- Whatever it returns, a call leaves the number of bins alone. -/
theorem add_call_bucket_count {s s' : ipmb_histogram_t × Nat} {call : sample_call}
    (h : add_call s call = .ok s') : s'.1.bucket_count = s.1.bucket_count := by
  obtain ⟨⟨rc, hist⟩, hcall, hs'⟩ := bind_eq_ok_iff.mp h
  cases hs'
  rw [ipmb_histogram_add_sample] at hcall
  split at hcall
  · cases hcall
    rfl
  · obtain ⟨hist', hincr, hhist⟩ := bind_eq_ok_iff.mp hcall
    cases hhist
    rw [ipmb_histogram_bin_incr] at hincr
    split at hincr
    · cases hincr
    · cases hincr
      rfl

theorem run_bucket_count {s s' : ipmb_histogram_t × Nat} {calls : List sample_call}
    (h : calls.foldlM add_call s = .ok s') : s'.1.bucket_count = s.1.bucket_count :=
  foldlM_invariant (P := fun s' => s'.1.bucket_count = s.1.bucket_count)
    (fun _ _ _ hs hcall => (add_call_bucket_count hcall).trans hs) rfl h

/-- A call that gets past the check returns no `IPMB_ERR_LIMIT`. -/
theorem add_sample_of_lt {hist hist' : ipmb_histogram_t} {schema : Option ipmb_histogram_schema_t}
    {bin_index : UInt32} (hlt : bin_index < hist.bucket_count) :
    ipmb_histogram_add_sample hist schema bin_index ≠ .ok (.IPMB_ERR_LIMIT, hist') := by
  rw [ipmb_histogram_add_sample, if_neg (UInt32.not_le.mpr hlt)]
  cases ipmb_histogram_bin_incr hist (bin_index + bin_offset schema) with
  | error e => simp
  | ok hist => simp

/-- After an init the histogram conserves a sequence of calls exactly when
every index of it that passes the check leads to a bin. -/
theorem ipmb_histogram_conserves_iff (calloc : Bool) (bucket_count : UInt32) (calls : List sample_call) :
    Conserves (ipmb_histogram_init calloc bucket_count).2 calls ↔
      ∀ call ∈ calls, Fits (ipmb_histogram_init calloc bucket_count).2.bucket_count call := by
  have hempty : (ipmb_histogram_init calloc bucket_count).2.total = 0 := by
    rw [ipmb_histogram_init]
    split_ifs
    · rfl
    · rfl
    · simp [ipmb_histogram_t.total]
  generalize (ipmb_histogram_init calloc bucket_count).2 = hist at hempty ⊢
  constructor
  · rintro ⟨final, oks, hrun, -, hrefuses⟩ call hmem hlt
    by_contra hout
    obtain ⟨before, after, rfl⟩ := List.append_of_mem hmem
    rw [List.foldlM_append] at hrun
    obtain ⟨s, hbefore, -⟩ := bind_eq_ok_iff.mp hrun
    have hcount : s.1.bucket_count = hist.bucket_count := run_bucket_count hbefore
    refine add_sample_of_lt (by rw [hcount]; exact hlt) (hrefuses before call after s rfl hbefore ?_)
    rw [hcount]
    exact Nat.not_lt.mp hout
  · intro hfits
    obtain ⟨⟨final, oks⟩, hrun, -, htotal⟩ := run_of_fits (s := (hist, 0)) hfits
    refine ⟨final, oks, hrun, fun hfew => htotal hempty (by omega), ?_⟩
    intro before call after s heq hbefore hout
    have hcount : s.1.bucket_count = hist.bucket_count := run_bucket_count hbefore
    rw [ipmb_histogram_add_sample, if_pos]
    refine UInt32.not_lt.mp fun hlt => ?_
    rw [hcount] at hlt hout
    have heffective := hfits call (by rw [heq]; simp) hlt
    omega

/-- The offset leads behind the last of four bins. -/
theorem ipmb_histogram_writes_behind :
    ¬∀ bucket_count calls, Conserves (ipmb_histogram_init true bucket_count).2 calls := by
  intro hall
  obtain ⟨final, oks, hrun, -⟩ := hall 4 [{ schema := some { bucket_count := 4, bin_offset := 1 }, bin_index := 3 }]
  have hfault : [({ schema := some { bucket_count := 4, bin_offset := 1 }, bin_index := 3 } : sample_call)].foldlM
      add_call ((ipmb_histogram_init true 4).2, 0) = .error .writeOutOfBounds := by
    decide
  rw [hfault] at hrun
  cases hrun

end ipmb.histogram
