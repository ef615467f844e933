import Ipmb.Support.Fallible
import Ipmb.Support.Ownership
import Ipmb.Types

open fallible ownership

namespace ipmb.owned_array

/-- The memory of a structure with an array: the other fields, the pointer to the
array, the pointers in each of its slots, and what was stored in the slots so far. -/
structure Output (H W : Type) where
  header : H
  array : Option Nat
  slots : List (List (Option Nat))
  values : List W

variable {β H σ V W : Type}

/-- A structure whose array pointer is null. -/
def Output.bare (header : H) : Output H W := { header, array := none, slots := [], values := [] }

def Output.pointers (out : Output H W) : List (Option Nat) := out.array :: out.slots.flatten

theorem blocks_pointers (out : Output H W) :
    blocks out.pointers = blocks [out.array] + blocks out.slots.flatten := blocks_cons _ _

/-- Slots are there only behind an array. -/
def Output.Based (out : Output H W) : Prop := out.array = none → out.slots = []

theorem Output.bare_based (header : H) : (Output.bare header : Output H W).Based := fun _ => rfl

/-- Releases what the slots point to, if there is an array of them. -/
def release_slots (out : Output H W) : Owning Fault Unit :=
  if out.array = none then pure () else forM out.slots fun ps => forM ps (free .doubleFree)

/-- Releases a structure and zeroes it. -/
def release (zero : H) (out : Output H W) : Owning Fault (Output H W) := do
  release_slots out
  free .doubleFree out.array
  pure (.bare zero)

/-- How the entries of an array are decoded: the fields of a structure without
any, what is read and checked of an entry before its blocks are allocated, how
many these are, and the copy into them. -/
structure Entries (H σ V W : Type) where
  zero : H
  read : Nat → σ → Except ipmb_status_t (V × σ)
  blocks : Nat
  copy : V → Except Fault W
  read_error : ∀ i s rc, read i s = .error rc → rc ≠ .IPMB_OK

/-- The loop over the entries, with how many are left. Pointers are stored before
they are looked at, so that an entry with some of its blocks is released too. -/
def fill (grants : Nat → Bool) (d : Entries H σ V W) : Nat → Nat → σ → Output H W →
    Owning Fault (ipmb_status_t × Output H W)
  | 0, _, _, out => pure (.IPMB_OK, out)
  | left + 1, i, s, out =>
    match d.read i s with
    | .error rc => do
      let out ← release d.zero out
      pure (rc, out)
    | .ok (v, s) => do
      let ps ← mallocs grants d.blocks
      let out := { out with slots := out.slots.set i ps }
      if none ∈ ps then
        let out ← release d.zero out
        pure (.IPMB_ERR_ALLOC, out)
      else
        let w ← lift (d.copy v)
        fill grants d left (i + 1) s { out with values := out.values ++ [w] }

/-- `calloc` of the array, and the loop. -/
def decode_entries (grants : Nat → Bool) (d : Entries H σ V W) (header : H) (count : Nat) (s : σ) :
    Owning Fault (ipmb_status_t × Output H W) := do
  let array ← malloc grants
  if array = none then pure (.IPMB_ERR_ALLOC, .bare header)
  else
    let slots := List.replicate count (List.replicate d.blocks none)
    fill grants d count 0 s { header, array, slots, values := [] }

/-- What the loop decodes when requests from one on are answered so: the values,
or the status of the entry that it ends with. -/
def Entries.values (d : Entries H σ V W) (grants : Nat → Bool) : Nat → Nat → Nat → σ →
    Except Fault (Except ipmb_status_t (List W))
  | 0, _, _, _ => .ok (.ok [])
  | left + 1, n, i, s =>
    match d.read i s with
    | .error rc => .ok (.error rc)
    | .ok (v, s) =>
      if none ∈ answers grants n d.blocks then .ok (.error .IPMB_ERR_ALLOC)
      else do
        let w ← d.copy v
        let rest ← d.values grants left (n + d.blocks) (i + 1) s
        pure ((w :: ·) <$> rest)

/-- Every slot has all its blocks. -/
def Complete (k : Nat) (slots : List (List (Option Nat))) : Prop := ∀ ps ∈ slots, ps.length = k ∧ none ∉ ps

/-- What the loop comes to: the structure has the values and owns a block for the
array and those of each entry, or it is zeroed and owns nothing. -/
def Decoded (d : Entries H σ V W) (header : H) (count : Nat) (r : ipmb_status_t × Output H W) (own : Multiset Nat) :
    Except ipmb_status_t (List W) → Prop
  | .ok ws => r.1 = .IPMB_OK ∧ r.2.header = header ∧ r.2.values = ws ∧ r.2.array ≠ none ∧
      r.2.slots.length = count ∧ Complete d.blocks r.2.slots ∧ own = blocks r.2.pointers
  | .error rc => r = (rc, .bare d.zero) ∧ rc ≠ .IPMB_OK ∧ own = 0

section release
variable {E : Fault → Prop} {n : Nat} {own : Multiset Nat}

/-- Releasing gives back all blocks of a structure, once each. -/
theorem release_rule {zero : H} {out : Output H W} {Q : Output H W → Nat → Multiset Nat → Prop} (hbased : out.Based)
    (h : Q (.bare zero) n own) : Triple E n (blocks out.pointers + own) (release zero out) Q := by
  rw [blocks_pointers, add_assoc, add_left_comm, release]
  refine Triple.bind (Q := fun _ n' own' => n' = n ∧ own' = blocks [out.array] + own) ?_ ?_
  · rw [release_slots]
    by_cases hnull : out.array = none
    · rw [if_pos hnull, hbased hnull, List.flatten_nil, blocks_nil, zero_add]
      exact Triple.pure ⟨rfl, rfl⟩
    · rw [if_neg hnull]
      exact Triple.forM_forM_free ⟨rfl, rfl⟩
  · rintro _ n _ ⟨rfl, rfl⟩
    refine Triple.bind (Triple.free (Q := fun _ n' own' => n' = n ∧ own' = own) ⟨rfl, rfl⟩) ?_
    rintro _ _ _ ⟨rfl, rfl⟩
    exact Triple.pure h

/-- A decoder that has given up owns nothing any more. -/
theorem release_then {zero : H} {out : Output H W} {rc : ipmb_status_t}
    {R : ipmb_status_t × Output H W → Nat → Multiset Nat → Prop} (hbased : out.Based) (h : R (rc, .bare zero) n 0) :
    Triple E n (blocks out.pointers) (do let out ← release zero out; pure (rc, out)) R := by
  have hrelease : Triple E n (blocks out.pointers + 0) (release zero out)
      fun out n' own' => out = .bare zero ∧ n' = n ∧ own' = 0 := release_rule hbased ⟨rfl, rfl, rfl⟩
  rw [add_zero] at hrelease
  refine Triple.bind hrelease ?_
  rintro _ _ _ ⟨rfl, rfl, rfl⟩
  exact Triple.pure h

end release

/-- Replacing the null pointers of the first slot not reached yet. -/
theorem set_first_null (done : List (List (Option Nat))) (ps : List (Option Nat)) (left k : Nat) :
    (done ++ List.replicate (left + 1) (List.replicate k none)).set done.length ps =
      (done ++ [ps]) ++ List.replicate left (List.replicate k none) := by
  rw [List.replicate_succ, List.set_append_right _ _ (Nat.le_refl _), Nat.sub_self, List.set_cons_zero,
    List.append_assoc, List.singleton_append]

theorem blocks_null_slots (left k : Nat) : blocks (List.replicate left (List.replicate k none)).flatten = 0 := by
  rw [List.flatten_replicate_replicate]
  exact blocks_replicate_none _

/-- The loop, with some slots done, releases what it took unless it comes to
the end. -/
theorem fill_spec (grants : Nat → Bool) (d : Entries H σ V W) {left n : Nat} {s : σ} (out : Output H W)
    (done : List (List (Option Nat))) (harray : out.array ≠ none)
    (hslots : out.slots = done ++ List.replicate left (List.replicate d.blocks none))
    (hdone : Complete d.blocks done) :
    Triple (fun e => d.values grants left n done.length s = .error e) n (blocks out.pointers)
      (fill grants d left done.length s out) fun r _ own' =>
        ∃ verdict, d.values grants left n done.length s = .ok verdict ∧
          Decoded d out.header (done.length + left) r own' ((out.values ++ ·) <$> verdict) := by
  induction left generalizing n s out done with
  | zero =>
    rw [List.replicate_zero, List.append_nil] at hslots
    refine Triple.pure ⟨.ok [], rfl, ?_⟩
    refine ⟨rfl, rfl, (List.append_nil _).symm, harray, ?_, ?_, rfl⟩
    · rw [hslots, Nat.add_zero]
    · rw [hslots]
      exact hdone
  | succ left ih =>
    have hbased : out.Based := fun h => absurd h harray
    rw [fill]
    cases hread : d.read done.length s with
    | error rc =>
      refine release_then hbased ⟨.error rc, ?_, rfl, d.read_error _ _ _ hread, rfl⟩
      rw [Entries.values, hread]
    | ok vs =>
      obtain ⟨v, s'⟩ := vs
      apply Triple.bind (Triple.mallocs (Q := fun ps n' own' => ps = answers grants n d.blocks ∧
        n' = n + d.blocks ∧ own' = blocks ps + blocks out.pointers) ⟨rfl, rfl, rfl⟩)
      rintro ps _ _ ⟨hps, rfl, rfl⟩
      have hstored : out.slots.set done.length ps =
          (done ++ [ps]) ++ List.replicate left (List.replicate d.blocks none) := by
        rw [hslots, set_first_null]
      have hpointers : blocks ps + blocks out.pointers =
          blocks (Output.pointers { out with slots := out.slots.set done.length ps }) := by
        rw [blocks_pointers, blocks_pointers, hstored, hslots]
        simp only [List.flatten_append, blocks_append, blocks_null_slots, List.flatten_singleton, add_zero]
        rw [add_left_comm, add_comm (blocks ps)]
      rw [hpointers]
      by_cases hrefused : none ∈ ps
      · rw [if_pos hrefused]
        refine release_then (fun h => absurd h harray) ⟨.error .IPMB_ERR_ALLOC, ?_, rfl, by decide, rfl⟩
        rw [Entries.values, hread]
        simp only [← hps, if_pos hrefused]
      · rw [if_neg hrefused]
        have hvalues : d.values grants (left + 1) n done.length s = (do
            let w ← d.copy v
            let rest ← d.values grants left (n + d.blocks) (done.length + 1) s'
            pure ((w :: ·) <$> rest)) := by
          rw [Entries.values, hread]
          simp only [← hps, if_neg hrefused]
        rw [hvalues]
        refine Triple.bind (Triple.lift (Q := fun w n' own' => d.copy v = .ok w ∧ n' = n + d.blocks ∧
          own' = blocks (Output.pointers { out with slots := out.slots.set done.length ps })) ?_ ?_) ?_
        · intro e hcopy
          rw [hcopy]
          rfl
        · exact fun w hcopy => ⟨hcopy, rfl, rfl⟩
        rintro w _ _ ⟨hcopy, rfl, rfl⟩
        have hcomplete : Complete d.blocks (done ++ [ps]) := by
          intro qs hqs
          obtain hqs | hqs := List.mem_append.mp hqs
          · exact hdone qs hqs
          · rw [List.mem_singleton.mp hqs, hps, length_answers, ← hps]
            exact ⟨rfl, hrefused⟩
        have hlength : (done ++ [ps]).length = done.length + 1 := List.length_append
        have hrest := @ih (n + d.blocks) s' { out with
          slots := out.slots.set done.length ps, values := out.values ++ [w] } (done ++ [ps]) harray hstored hcomplete
        rw [hlength] at hrest
        rw [hcopy]
        refine hrest.mono ?_ ?_
        · intro e he
          rw [ok_bind, he]
          rfl
        · rintro r n' own' ⟨verdict, hverdict, hdecoded⟩
          rw [Nat.add_assoc, Nat.add_comm 1] at hdecoded
          refine ⟨(w :: ·) <$> verdict, by rw [ok_bind, hverdict]; rfl, ?_⟩
          cases verdict with
          | error rc => exact hdecoded
          | ok ws =>
            rw [map_ok, List.append_assoc, List.singleton_append] at hdecoded
            exact hdecoded

theorem decode_entries_spec (grants : Nat → Bool) (d : Entries H σ V W) (header : H) (count n : Nat) (s : σ) :
    Triple (fun e => grants n = true ∧ d.values grants count (n + 1) 0 s = .error e) n 0
      (decode_entries grants d header count s) fun r _ own =>
        (grants n = false ∧ r = (.IPMB_ERR_ALLOC, .bare header) ∧ own = 0) ∨
          grants n = true ∧ ∃ verdict, d.values grants count (n + 1) 0 s = .ok verdict ∧
            Decoded d header count r own verdict := by
  rw [decode_entries]
  refine Triple.bind (Triple.malloc (Q := fun p n' own =>
    (grants n = false ∧ p = none ∨ grants n = true ∧ p = some n) ∧ n' = n + 1 ∧ own = blocks [p])
    (fun h => ⟨.inl ⟨h, rfl⟩, rfl, rfl⟩) fun h => ⟨.inr ⟨h, rfl⟩, rfl, rfl⟩) ?_
  rintro _ _ _ ⟨⟨hgranted, rfl⟩ | ⟨hgranted, rfl⟩, rfl, rfl⟩
  · rw [if_pos rfl]
    exact Triple.pure (.inl ⟨hgranted, rfl, rfl⟩)
  · rw [if_neg (Option.some_ne_none n)]
    have hnull : blocks [some n] = blocks (Output.pointers
        { header, array := some n, slots := List.replicate count (List.replicate d.blocks none),
          values := ([] : List W) }) := by
      rw [blocks_pointers, blocks_null_slots, add_zero]
    rw [hnull]
    refine (fill_spec grants d _ [] (Option.some_ne_none n) rfl nofun).mono (fun e he => ⟨hgranted, he⟩) ?_
    rintro r n' own ⟨verdict, hverdict, hdecoded⟩
    refine .inr ⟨hgranted, verdict, hverdict, ?_⟩
    have hvalues : (([] : List W) ++ ·) <$> verdict = verdict := by
      cases verdict <;> rfl
    rwa [hvalues, List.length_nil, Nat.zero_add] at hdecoded

/-- The answers to later requests are those of a later allocator. -/
theorem values_later (d : Entries H σ V W) (grants : Nat → Bool) (n : Nat) {left k i : Nat} {s : σ} :
    d.values (fun j => grants (n + j)) left k i s = d.values grants left (n + k) i s := by
  induction left generalizing k i s with
  | zero => rfl
  | succ left ih =>
    rw [Entries.values, Entries.values]
    cases d.read i s with
    | error rc => rfl
    | ok vs =>
      have hnone : none ∈ answers (fun j => grants (n + j)) k d.blocks ↔ none ∈ answers grants (n + k) d.blocks := by
        simp only [none_mem_answers, Nat.add_assoc]
      simp only [hnone, ih, Nat.add_assoc]

theorem length_values {d : Entries H σ V W} {grants : Nat → Bool} {left n i : Nat} {s : σ} {ws : List W}
    (h : d.values grants left n i s = .ok (.ok ws)) : ws.length = left := by
  induction left generalizing n i s ws with
  | zero =>
    rw [Entries.values] at h
    cases h
    rfl
  | succ left ih =>
    rw [Entries.values] at h
    split at h
    · cases h
    split at h
    · cases h
    obtain ⟨w, _, h⟩ := bind_eq_ok_iff.mp h
    obtain ⟨rest, hrest, h⟩ := bind_eq_ok_iff.mp h
    cases rest with
    | error rc => cases h
    | ok rest =>
      cases h
      rw [List.length_cons, ih hrest]

/-- The allocator that grants nothing. -/
def refuses : Allocator := fun _ => false

/-- A decoder on memory. What comes before the array is what the decoder on values
does when the array is refused. -/
def decode (grants : Nat → Bool) (parse : Allocator → Except Fault (ipmb_status_t × H)) (d : Entries H σ V W)
    (count : H → Nat) (s : σ) : Owning Fault (ipmb_status_t × Output H W) :=
  match parse refuses with
  | .error e => lift (.error e)
  | .ok (.IPMB_ERR_ALLOC, header) => decode_entries grants d header (count header) s
  | .ok (rc, header) => pure (rc, .bare header)

/-- A decoder on values gives up in front of the array, whatever the answers are,
or requests it and goes on with the entries. -/
def Begins (parse : Allocator → Except Fault (ipmb_status_t × H)) (view : H → List W → H) (d : Entries H σ V W)
    (count : H → Nat) (s : σ) : Prop :=
  (∃ rc header, rc ≠ .IPMB_OK ∧ rc ≠ .IPMB_ERR_ALLOC ∧ view header [] = header ∧
    ∀ alloc, parse alloc = .ok (rc, header)) ∨
  ∃ header, view header [] = header ∧ ∀ alloc, parse alloc =
    if alloc 0 = false then .ok (.IPMB_ERR_ALLOC, header)
    else match d.values alloc (count header) 1 0 s with
      | .error e => .error e
      | .ok (.error rc) => .ok (rc, d.zero)
      | .ok (.ok ws) => .ok (.IPMB_OK, view header ws)

/-- On memory a decoder does what it does on values when its requests are answered
in the same way. What it owns then are the blocks of its result: one for the
array and a number for each entry after a success, none after a failure. -/
def Implements (grants : Nat → Bool) (k : Nat) (view : H → List W → H)
    (prog : Owning Fault (ipmb_status_t × Output H W))
    (parse : Allocator → Except Fault (ipmb_status_t × H)) : Prop :=
  ∀ n, Triple (fun e => parse (fun i => grants (n + i)) = .error e) n 0 prog fun r _ own =>
    parse (fun i => grants (n + i)) = .ok (r.1, view r.2.header r.2.values) ∧ r.2.Based ∧
      own = blocks r.2.pointers ∧
      (r.1 = .IPMB_OK → r.2.array ≠ none ∧ r.2.slots.length = r.2.values.length ∧ Complete k r.2.slots) ∧
      (r.1 ≠ .IPMB_OK → own = 0)

theorem ok_bare {view : H → List W → H} {header : H} {rc : ipmb_status_t} (h : view header [] = header) :
    (.ok (rc, header) : Except Fault (ipmb_status_t × H)) =
      .ok (rc, view (Output.bare header : Output H W).header (Output.bare header : Output H W).values) := by
  rw [Output.bare, h]

theorem Begins.implements {parse : Allocator → Except Fault (ipmb_status_t × H)} {view : H → List W → H}
    {d : Entries H σ V W} {count : H → Nat} {s : σ} (h : Begins parse view d count s) (hzero : view d.zero [] = d.zero)
    (grants : Nat → Bool) : Implements grants d.blocks view (decode grants parse d count s) parse := by
  intro n
  obtain ⟨rc, header, hrc, halloc, hview, hparse⟩ | ⟨header, hview, hparse⟩ := h
  · have hdecode : decode grants parse d count s = pure (rc, .bare header) := by
      rw [decode, hparse]
      cases rc <;> first | rfl | exact absurd rfl halloc
    rw [hdecode, hparse]
    exact Triple.pure ⟨ok_bare hview, Output.bare_based header, rfl, fun hok => absurd hok hrc, fun _ => rfl⟩
  · have hdecode : decode grants parse d count s = decode_entries grants d header (count header) s := by
      rw [decode, (hparse refuses).trans (if_pos rfl)]
    rw [hdecode, hparse, values_later, Nat.add_zero]
    refine (decode_entries_spec grants d header (count header) n s).mono ?_ ?_
    · rintro e ⟨hgranted, hvalues⟩
      rw [if_neg (by rw [hgranted]; decide), hvalues]
    · rintro r _ own (⟨hrefused, rfl, rfl⟩ | ⟨hgranted, verdict, hverdict, hdecoded⟩)
      · rw [if_pos hrefused]
        exact ⟨ok_bare hview, Output.bare_based header, rfl, nofun, fun _ => rfl⟩
      · rw [if_neg (by rw [hgranted]; decide), hverdict]
        cases verdict with
        | error rc =>
          obtain ⟨rfl, hrc, rfl⟩ := hdecoded
          exact ⟨ok_bare hzero, Output.bare_based d.zero, rfl, fun hok => absurd hok hrc, fun _ => rfl⟩
        | ok ws =>
          obtain ⟨hok, hheader, hws, harray, hslots, hcomplete, rfl⟩ := hdecoded
          refine ⟨by rw [hok, hheader, hws], fun hnull => absurd hnull harray, rfl, fun _ => ⟨harray, ?_, hcomplete⟩,
            fun hrc => absurd hok hrc⟩
          rw [hslots, hws, length_values hverdict]

/-- Entries that are read in the way of a decoder and copied without fault. -/
theorem values_times {d : Entries H (cursor.Cursor β) V W} {p : Nat → cursor.Decoder ipmb_status_t β W} {f : V → W}
    {alloc : Nat → Bool} {n : Nat} (hcopy : ∀ v, d.copy v = .ok (f v))
    (hp : ∀ i c, (p i).run c = d.read i c >>= fun vc =>
      if none ∈ answers alloc (n + i * d.blocks) d.blocks then .error .IPMB_ERR_ALLOC else .ok (f vc.1, vc.2))
    {left i : Nat} {c : cursor.Cursor β} :
    d.values alloc left (n + i * d.blocks) i c = .ok (Prod.fst <$> (cursor.times p i left).run c) := by
  induction left generalizing i c with
  | zero => rfl
  | succ left ih =>
    have hnext : n + i * d.blocks + d.blocks = n + (i + 1) * d.blocks := by rw [Nat.succ_mul, Nat.add_assoc]
    rw [Entries.values, cursor.times, StateT.run_bind, hp, hnext]
    cases d.read i c with
    | error rc => rfl
    | ok vc =>
      obtain ⟨v, c'⟩ := vc
      by_cases hrefused : none ∈ answers alloc (n + i * d.blocks) d.blocks
      · simp only [ok_bind, if_pos hrefused]
        rfl
      · simp only [if_neg hrefused, hcopy, ih, ok_bind, StateT.run_bind]
        cases (cursor.times p (i + 1) left).run c' with
        | error rc => rfl
        | ok wsc => rfl

end ipmb.owned_array
