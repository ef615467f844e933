import Ipmb.Codec.RleCodec
import Ipmb.Support.RunLength

open buffer fallible run_length
open ipmb.access

namespace ipmb.rle_codec

/-- The pairs of a stream. An odd byte at the end is not looked at. -/
def rle_pairs : List UInt8 → List (Nat × UInt8)
  | run :: value :: rest => (run.toNat, value) :: rle_pairs rest
  | _ => []

/-- The capacity after a reallocation, if there is one. -/
def grown (need cap : Nat) : Nat := if need > cap then double need cap else cap

/-- Every reallocation that is made for some pairs succeeds. -/
def Granted (alloc : Allocator) : Nat → Nat → Nat → List (Nat × UInt8) → Prop
  | _, _, _, [] => True
  | pos, cap, used, r :: rs => (used + r.1 > cap → alloc pos = true) ∧
      Granted alloc (pos + 2) (grown (used + r.1) cap) (used + r.1) rs

theorem granted_succeeds (pos cap used : Nat) (rs : List (Nat × UInt8)) :
    Granted Allocator.succeeds pos cap used rs := by
  induction rs generalizing pos cap used with
  | nil => trivial
  | cons r rs ih => exact ⟨fun _ => rfl, ih _ _ _⟩

theorem Granted.of_append {alloc : Allocator} {pos cap used : Nat} {rs more : List (Nat × UInt8)}
    (h : Granted alloc pos cap used (rs ++ more)) : Granted alloc pos cap used rs := by
  induction rs generalizing pos cap used with
  | nil => trivial
  | cons r rs ih => exact ⟨h.1, ih h.2⟩

/-- The doubling loop ends with room for what is needed. -/
theorem le_double_loop {need rounds cap : Nat} (hcap : 0 < cap) (h : need ≤ cap + rounds) :
    need ≤ double_loop need rounds cap := by
  induction rounds generalizing cap with
  | zero => exact h
  | succ rounds ih =>
    rw [double_loop]
    split
    · exact ih (by omega) (by omega)
    · omega

theorem le_double {cap : Nat} (hcap : 0 < cap) (need : Nat) : need ≤ double need cap :=
  le_double_loop hcap (by omega)

theorem le_grown {cap : Nat} (hcap : 0 < cap) (need : Nat) : need ≤ grown need cap ∧ cap ≤ grown need cap := by
  rw [grown]
  split
  · have hdouble := le_double hcap need
    exact ⟨hdouble, by omega⟩
  · exact ⟨by omega, Nat.le_refl _⟩

/-- A reallocation keeps what was written. -/
theorem grow_spec (buf : Buffer UInt8) (hcap : 0 < buf.capacity) (run : Nat) :
    ∃ buf', (if buf.written.length + run > buf.capacity then
        buf.resize (double (buf.written.length + run) buf.capacity) else buf) = buf' ∧
      buf'.written = buf.written ∧ buf'.capacity = grown (buf.written.length + run) buf.capacity := by
  refine ⟨_, rfl, ?_⟩
  rw [grown]
  split
  · have hdouble := le_double hcap (buf.written.length + run)
    exact ⟨Buffer.written_resize (by omega), Buffer.capacity_resize _ _⟩
  · exact ⟨rfl, rfl⟩

theorem rle_decode_loop_stop {alloc : Allocator} {data : List UInt8} {fuel pos : Nat} {buf : Buffer UInt8}
    (hend : ¬pos + 1 < data.length) :
    rle_decode_loop alloc data fuel pos buf = .ok (.IPMB_OK, some buf.written) := by
  cases fuel with
  | zero => rw [rle_decode_loop, if_neg hend, pure_eq_ok]
  | succ fuel => rw [rle_decode_loop, if_neg hend, pure_eq_ok]

theorem rle_pairs_of_length_le {bytes : List UInt8} (h : bytes.length ≤ 1) : rle_pairs bytes = [] := by
  match bytes, h with
  | [], _ => rfl
  | [b], _ => rfl

theorem rle_pairs_bounds (bytes : List UInt8) :
    (∀ r ∈ rle_pairs bytes, r.1 ≤ 254 + 1) ∧ 2 * (rle_pairs bytes).length ≤ bytes.length := by
  fun_induction rle_pairs bytes with
  | case1 run value rest ih =>
    obtain ⟨hruns, hlength⟩ := ih
    have hrun := run.toNat_lt
    refine ⟨List.forall_mem_cons.mpr ⟨by omega, hruns⟩, ?_⟩
    simp only [List.length_cons]
    omega
  | case2 => simp

/-- A cut loses the pair it goes through and those behind it. -/
theorem rle_pairs_append (bytes tail : List UInt8) :
    ∃ more, rle_pairs (bytes ++ tail) = rle_pairs bytes ++ more := by
  fun_induction rle_pairs bytes with
  | case1 run value rest ih =>
    obtain ⟨more, hmore⟩ := ih
    refine ⟨more, ?_⟩
    rw [List.cons_append, List.cons_append, rle_pairs, hmore, List.cons_append]
  | case2 => exact ⟨_, rfl⟩

/-- The decoder's loop writes what the pairs of the rest stand for, unless a
reallocation fails. -/
theorem rle_decode_loop_eq (alloc : Allocator) (data : List UInt8) (fuel pos : Nat) (buf : Buffer UInt8)
    (hfuel : data.length ≤ pos + fuel) (hcap : 0 < buf.capacity) :
    (Granted alloc pos buf.capacity buf.written.length (rle_pairs (data.drop pos)) ∧
      rle_decode_loop alloc data fuel pos buf =
        .ok (.IPMB_OK, some (buf.written ++ expand (rle_pairs (data.drop pos))))) ∨
    (¬Granted alloc pos buf.capacity buf.written.length (rle_pairs (data.drop pos)) ∧
      rle_decode_loop alloc data fuel pos buf = .ok (.IPMB_ERR_ALLOC, none)) := by
  induction fuel generalizing pos buf with
  | zero =>
    rw [rle_decode_loop_stop (by omega), rle_pairs_of_length_le (by rw [List.length_drop]; omega), expand_nil,
      List.append_nil]
    exact .inl ⟨trivial, rfl⟩
  | succ fuel ih =>
    by_cases hmore : pos + 1 < data.length
    · obtain ⟨run, value, rest, hdata⟩ : ∃ run value rest, data.drop pos = run :: value :: rest :=
        ⟨_, _, _, by rw [List.drop_eq_getElem_cons (by omega), List.drop_eq_getElem_cons hmore]⟩
      have hnext := drop_succ_of_drop hdata
      obtain ⟨buf₁, hgrown, hwritten₁, hcapacity₁⟩ := grow_spec buf hcap run.toNat
      obtain ⟨hneed, hle⟩ := le_grown hcap (buf.written.length + run.toNat)
      obtain ⟨buf₂, hstore, hcapacity₂, hwritten₂⟩ :=
        store_of_le buf₁ (List.replicate run.toNat value) (by
          rw [List.length_replicate, hwritten₁, hcapacity₁]
          exact hneed)
      rw [rle_decode_loop, if_pos hmore, hdata, rle_pairs]
      simp only [byte_at_of_drop hdata, byte_at_of_drop hnext, ok_bind]
      by_cases hrefused : buf.written.length + run.toNat > buf.capacity ∧ alloc pos = false
      · rw [if_pos hrefused]
        refine .inr ⟨?_, rfl⟩
        rintro ⟨hgranted, _⟩
        rw [hgranted hrefused.1] at hrefused
        exact Bool.noConfusion hrefused.2
      · have hgranted : buf.written.length + run.toNat > buf.capacity → alloc pos = true := by
          intro hneeds
          rw [← Bool.not_eq_false]
          exact fun hfails => hrefused ⟨hneeds, hfails⟩
        have hlength₂ : buf₂.written.length = buf.written.length + run.toNat := by
          rw [hwritten₂, hwritten₁, List.length_append, List.length_replicate]
        have hrest := ih (pos + 2) buf₂ (by omega) (by omega)
        rw [drop_succ_of_drop hnext, hcapacity₂, hcapacity₁, hlength₂] at hrest
        rw [if_neg hrefused, hgrown, hstore, ok_bind, Granted]
        obtain ⟨hgo, hloop⟩ | ⟨hstop, hloop⟩ := hrest
        · refine .inl ⟨⟨hgranted, hgo⟩, ?_⟩
          rw [hloop, hwritten₂, hwritten₁, expand_cons, List.append_assoc]
        · exact .inr ⟨fun h => hstop h.2, hloop⟩
    · rw [rle_decode_loop_stop hmore, rle_pairs_of_length_le (by rw [List.length_drop]; omega), expand_nil,
        List.append_nil]
      exact .inl ⟨trivial, rfl⟩

/-- The decoder gets past the magic number and its allocations. -/
def Accepts (alloc : Allocator) (data : List UInt8) : Prop :=
  4 ≤ data.length ∧ data.take 4 = rle_magic ∧ alloc 0 = true ∧ Granted alloc 4 64 0 (rle_pairs (data.drop 4))

/-- What the decoder accepts it reads whole, and what it does not accept it
refuses. -/
theorem ipmb_rle_decode_eq (alloc : Allocator) (data : List UInt8) :
    (Accepts alloc data ∧
      ipmb_rle_decode alloc data = .ok (.IPMB_OK, some (expand (rle_pairs (data.drop 4))))) ∨
    (¬Accepts alloc data ∧
      ∃ status, status ≠ .IPMB_OK ∧ ipmb_rle_decode alloc data = .ok (status, none)) := by
  rw [ipmb_rle_decode]
  by_cases hmagic : data.length < 4 ∨ data.take 4 ≠ rle_magic
  · rw [if_pos hmagic]
    refine .inr ⟨?_, _, by decide, rfl⟩
    rintro ⟨hlength, htake, _⟩
    exact hmagic.elim (by omega) (fun h => h htake)
  · rw [if_neg hmagic]
    obtain ⟨hlength, htake⟩ := not_or.mp hmagic
    cases hfirst : alloc 0 with
    | false =>
      rw [if_pos rfl]
      exact .inr ⟨fun h => Bool.noConfusion (hfirst.symm.trans h.2.2.1), _, by decide, rfl⟩
    | true =>
      rw [if_neg (by decide)]
      obtain ⟨hgranted, hloop⟩ | ⟨hrefused, hloop⟩ :=
        rle_decode_loop_eq alloc data data.length 4 (Buffer.alloc 64) (by omega) (by simp)
      · exact .inl ⟨⟨by omega, not_not.mp htake, hfirst, hgranted⟩, hloop⟩
      · exact .inr ⟨fun h => hrefused h.2.2.2, _, by decide, hloop⟩

theorem ipmb_rle_decode_of_accepts {alloc : Allocator} {data : List UInt8} (h : Accepts alloc data) :
    ipmb_rle_decode alloc data = .ok (.IPMB_OK, some (expand (rle_pairs (data.drop 4)))) := by
  obtain ⟨_, hdecode⟩ | ⟨hrefused, _⟩ := ipmb_rle_decode_eq alloc data
  · exact hdecode
  · exact absurd h hrefused

theorem accepts_of_ipmb_rle_decode {alloc : Allocator} {data : List UInt8} {out : Option (List UInt8)}
    (h : ipmb_rle_decode alloc data = .ok (.IPMB_OK, out)) :
    Accepts alloc data ∧ out = some (expand (rle_pairs (data.drop 4))) := by
  obtain ⟨haccepts, hdecode⟩ | ⟨_, status, hstatus, hdecode⟩ := ipmb_rle_decode_eq alloc data
  · rw [hdecode] at h
    exact ⟨haccepts, (Prod.mk.inj (Except.ok.inj h)).2.symm⟩
  · rw [hdecode] at h
    exact absurd (Prod.mk.inj (Except.ok.inj h)).1 hstatus

end ipmb.rle_codec
