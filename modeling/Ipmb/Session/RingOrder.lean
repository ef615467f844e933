import Ipmb.Session.RingRollback
import Ipmb.Support.Circular

open fallible heap

namespace ipmb.ring_window

/-- The calls that fill a ring or checkpoint it, with how their allocations
end. -/
inductive Fill where
  | append (data : List UInt8) (malloc : Bool)
  | advance (data : List UInt8) (malloc : Bool)
  | checkpoint (malloc_segments malloc_lengths : Bool)
  deriving Repr, DecidableEq

def fill_call (st : ring_state) : Fill → Except Fault ring_state
  | .append data malloc => Prod.snd <$> ipmb_ring_append malloc st data
  | .advance data malloc => Prod.snd <$> ipmb_ring_advance malloc st data
  | .checkpoint malloc_segments malloc_lengths =>
    .ok (ipmb_ring_checkpoint malloc_segments malloc_lengths st)

/-- The payload that a call appends. -/
def Fill.payload : Fill → Option (List UInt8)
  | .append data true => some data
  | .advance data true => some data
  | _ => none

/-- The payloads that some calls append, in their order. -/
def appended (calls : List Fill) : List (List UInt8) := calls.filterMap Fill.payload

def Ring.fill (r : Ring) (c : Fill) : Ring :=
  match c.payload with
  | some data => r.append data
  | none => r

/-- Every call goes through and appends its payload, if it has one. -/
theorem Represents.fill {st : ring_state} {r : Ring} (h : Represents st r) (c : Fill) :
    ∃ st', fill_call st c = .ok st' ∧ Represents st' (r.fill c) := by
  have happend : ∀ (data : List UInt8) (malloc : Bool), ∃ st', Prod.snd <$> ipmb_ring_append malloc st data = .ok st' ∧
      Represents st' (r.fill (.append data malloc)) := by
    intro data malloc
    cases malloc with
    | false => exact ⟨st, rfl, h⟩
    | true =>
      obtain ⟨st', hstep, h'⟩ := h.append data
      exact ⟨st', by rw [hstep, map_ok], h'⟩
  cases c with
  | append data malloc => exact happend data malloc
  | advance data malloc =>
    have hsame : r.fill (.advance data malloc) = r.fill (.append data malloc) := by
      cases malloc <;> rfl
    rw [hsame]
    exact happend data malloc
  | checkpoint malloc_segments malloc_lengths => exact ⟨_, rfl, h.checkpoint⟩

theorem foldl_ring_fill (calls : List Fill) (r : Ring) :
    calls.foldl Ring.fill r = (appended calls).foldl Ring.append r := by
  induction calls generalizing r with
  | nil => rfl
  | cons c calls ih =>
    rw [List.foldl_cons, ih, appended, appended, Ring.fill]
    cases hc : c.payload with
    | none => rw [List.filterMap_cons_none hc]
    | some data => rw [List.filterMap_cons_some hc, List.foldl_cons]

/-- The slots of a ring are filled in a circle. -/
theorem foldl_ring_append (ps : List (List UInt8)) (r : Ring) :
    ((ps.foldl Ring.append r).slots, (ps.foldl Ring.append r).head) =
      ps.foldl circular.push (r.slots, r.head) := by
  induction ps generalizing r with
  | nil => rfl
  | cons data ps ih => exact ih (r.append data)

/-- A ring that was filled and never rolled back shows in every slot the last
payload whose turn it was, and from its head on the last payloads in their
order. -/
theorem ring_window_order {k : Nat} {ring : ipmb_ring_window_t}
    (hinit : ipmb_ring_init true true k = (.IPMB_OK, ring)) (calls : List Fill) :
    ∃ st slots, calls.foldlM fill_call (init_state ring) = .ok st ∧
      observe st = .ok ((appended calls).length % k, slots, slots.map slot_length) ∧ slots.length = k ∧
      (∀ j < k, (∀ i < (appended calls).length, i % k ≠ j) → slots[j]? = some none) ∧
      (∀ i < (appended calls).length, (∀ i' < (appended calls).length, i' % k = i % k → i' ≤ i) →
        slots[i % k]? = some (appended calls)[i]?) ∧
      (slots.rotate ((appended calls).length % k)).reduceOption =
        (appended calls).drop ((appended calls).length - min (appended calls).length k) := by
  obtain ⟨hk, -⟩ := ipmb_ring_init_ok hinit
  obtain ⟨st, hrun, hrep⟩ := foldlM_simulates (f := Ring.fill) (R := Represents) (fun _ _ c h => h.fill c)
    (represents_init hinit) calls
  rw [foldl_ring_fill] at hrep
  have hfill := foldl_ring_append (appended calls) (Ring.empty k)
  obtain ⟨hlength, hhead, hrotate⟩ := circular.fill_spec hk (appended calls)
  have hslots : ((appended calls).foldl Ring.append (Ring.empty k)).slots =
      (circular.fill k (appended calls)).1 := congrArg Prod.fst hfill
  have hhead' : ((appended calls).foldl Ring.append (Ring.empty k)).head =
      (circular.fill k (appended calls)).2 := congrArg Prod.snd hfill
  refine ⟨st, (circular.fill k (appended calls)).1, hrun, ?_, hlength, ?_, ?_, ?_⟩
  · rw [hrep.observe_eq, Ring.view, hslots, hhead', hhead]
  · intro j hj hnone
    apply circular.getElem?_fill_empty hj
    by_contra hmore
    exact hnone j (by omega) (Nat.mod_eq_of_lt hj)
  · intro i hi hlast
    apply circular.getElem?_fill hk hi
    by_contra hlater
    have hturn := hlast (i + k) (by omega) (Nat.add_mod_right i k)
    omega
  · have hcount : (appended calls).length - min (appended calls).length k = (appended calls).length - k := by
      omega
    rw [hrotate, circular.reduceOption_window, hcount]

/-- Three payloads in a ring of two slots, the second of them empty, and a
checkpoint in between. -/
theorem ring_window_order_three :
    ∃ st slots, [Fill.append [1] true, .checkpoint true true, .advance [] true, .append [3] true].foldlM fill_call
        (init_state (ipmb_ring_init true true 2).2) = .ok st ∧
      observe st = .ok (1, slots, slots.map slot_length) ∧ slots.length = 2 ∧
      (slots.rotate 1).reduceOption = [[], [3]] := by
  obtain ⟨st, slots, hrun, hview, hlength, -, -, hlast⟩ := ring_window_order (k := 2) (by rfl)
    [Fill.append [1] true, .checkpoint true true, .advance [] true, .append [3] true]
  exact ⟨st, slots, hrun, hview, hlength, hlast⟩

end ipmb.ring_window
