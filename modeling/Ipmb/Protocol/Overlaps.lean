import Ipmb.Protocol.FragmentBounds

open patch
open ipmb.endian ipmb.byte_read

namespace ipmb.transport_layer

/-- What a fragment puts at an index of the output. -/
def ipmb_fragment_t.at (frag : ipmb_fragment_t) (i : Nat) : Option UInt8 := reach frag.offset.toNat frag.data i

/-- The byte that the last of the fragments around an index has for it. -/
def byte_at (frags : List ipmb_fragment_t) (i : Nat) : UInt8 := (frags.reverse.findSome? fun frag => frag.at i).getD 0

/-- Where two fragments meet they have the same bytes. -/
def Agree (frags : List ipmb_fragment_t) : Prop :=
  ∀ i, ∀ frag ∈ frags, ∀ frag' ∈ frags, ∀ x y, frag.at i = some x → frag'.at i = some y → x = y

/-- Fragments and their size within the limits, none beyond the end. -/
structure Admissible (total_size : UInt32) (frags : List ipmb_fragment_t) : Prop where
  size_le : total_size.toNat ≤ MAX_TOTAL_SIZE
  count_le : frags.length ≤ MAX_FRAGMENTS
  within : ∀ frag ∈ frags, ¬Exceeds total_size frag

/-- The output of admissible fragments, byte by byte. -/
theorem ipmb_parse_fragment_payload_bytes {payload : List UInt8} {total_size : UInt32} {frags : List ipmb_fragment_t}
    (hcarries : Carries payload total_size frags) (h : Admissible total_size frags) :
    ipmb_parse_fragment_payload Allocator.succeeds payload =
      { status := .IPMB_OK
        out := some ((List.range total_size.toNat).map (byte_at frags))
        copies := frags.map ipmb_fragment_t.copy } := by
  obtain ⟨count, tail, hcount, rfl⟩ := hcarries
  rw [ipmb_parse_fragment_payload_eq _ hcount tail, ipmb_reassemble_fragments_within h.size_le h.count_le h.within]
  have hfold : frags.foldl (fun buf frag => overlay buf frag.copy.dst frag.copy.bytes)
        (List.replicate total_size.toNat 0) =
      (frags.map fun frag => (frag.offset.toNat, frag.data)).foldl (fun block s => overlay block s.1 s.2)
        (List.replicate total_size.toNat 0) := by
    rw [List.foldl_map]
    rfl
  rw [hfold]
  congr 2
  apply List.ext_getElem?
  intro i
  by_cases hi : i < total_size.toNat
  · rw [getElem?_foldl_overlay_last _ (by rwa [List.length_replicate]), ← List.map_reverse, List.findSome?_map,
      List.getElem?_replicate_of_lt hi, List.getElem?_map, List.getElem?_range hi, Option.map_some, byte_at]
    change (frags.reverse.findSome? fun frag => frag.at i).or (some 0) = _
    cases frags.reverse.findSome? fun frag => frag.at i <;> rfl
  · rw [List.getElem?_eq_none, List.getElem?_eq_none]
    · simpa using hi
    · rw [length_foldl_overlay]
      simpa using hi

/-- Fragments may overlap as they like: every byte of the output is that of the last
fragment around it, or 0; and where they agree on what they share, neither their order
nor repetitions matter. -/
theorem fragments_last_writer_wins (payload : List UInt8) (total_size : UInt32) (frags : List ipmb_fragment_t)
    (hcarries : Carries payload total_size frags) (h : Admissible total_size frags) :
    (ipmb_parse_fragment_payload Allocator.succeeds payload).status = .IPMB_OK ∧
      (ipmb_parse_fragment_payload Allocator.succeeds payload).out =
        some ((List.range total_size.toNat).map (byte_at frags)) ∧
      (Agree frags → ∀ (payload' : List UInt8) (frags' : List ipmb_fragment_t), Carries payload' total_size frags' →
        frags'.length ≤ MAX_FRAGMENTS → (∀ frag, frag ∈ frags' ↔ frag ∈ frags) →
          (ipmb_parse_fragment_payload Allocator.succeeds payload').status = .IPMB_OK ∧
            (ipmb_parse_fragment_payload Allocator.succeeds payload').out =
              (ipmb_parse_fragment_payload Allocator.succeeds payload).out) := by
  have hrun := ipmb_parse_fragment_payload_bytes hcarries h
  refine ⟨by rw [hrun], by rw [hrun], ?_⟩
  intro hagree payload' frags' hcarries' hcount' hmem
  have h' : Admissible total_size frags' := ⟨h.size_le, hcount', fun frag hfrag => h.within frag ((hmem frag).mp hfrag)⟩
  have hbytes : byte_at frags' = byte_at frags := by
    funext i
    have hmem' : ∀ frag, frag ∈ frags'.reverse ↔ frag ∈ frags.reverse := by simpa using hmem
    rw [byte_at, byte_at, findSome?_eq_of_agree hmem']
    intro frag hfrag frag' hfrag'
    exact hagree i frag (List.mem_reverse.mp hfrag) frag' (List.mem_reverse.mp hfrag')
  rw [hrun, ipmb_parse_fragment_payload_bytes hcarries' h', hbytes]
  exact ⟨rfl, rfl⟩

/-- Two fragments that meet at index 1, where they differ. -/
theorem second_fragment_wins :
    (ipmb_parse_fragment_payload Allocator.succeeds
        (fragment_magic ++ [4, 0, 0, 0] ++ [2, 0] ++ [0, 0, 0, 0, 2, 0, 0, 0, 10, 11] ++
          [1, 0, 0, 0, 2, 0, 0, 0, 20, 21])).out = some [10, 20, 21, 0] :=
  (fragments_last_writer_wins _ 4
    [{ offset := 0, length := 2, data := [10, 11], data_length := rfl },
      { offset := 1, length := 2, data := [20, 21], data_length := rfl }]
    ⟨2, [], rfl, rfl⟩ ⟨by decide, by decide, by decide⟩).2.1

end ipmb.transport_layer
