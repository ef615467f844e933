import Mathlib.Data.List.Nodup
import Mathlib.Tactic.SplitIfs

namespace keyed

variable {α κ : Type} [DecidableEq κ] {key : α → κ}

/-- The first entry with a key. -/
def lookup (key : α → κ) (k : κ) (entries : List α) : Option α :=
  entries.find? (fun a => decide (key a = k))

theorem key_of_lookup {k : κ} {entries : List α} {a : α} (h : lookup key k entries = some a) : key a = k := by
  simpa using List.find?_some h

theorem mem_of_lookup {k : κ} {entries : List α} {a : α} (h : lookup key k entries = some a) : a ∈ entries :=
  List.mem_of_find?_eq_some h

theorem lookup_eq_none_iff {k : κ} {entries : List α} :
    lookup key k entries = none ↔ ∀ a ∈ entries, key a ≠ k := by
  simp [lookup]

theorem lookup_eq_none_iff_notMem {k : κ} {entries : List α} :
    lookup key k entries = none ↔ k ∉ entries.map key := by
  rw [lookup_eq_none_iff, List.mem_map]
  exact ⟨fun h ⟨a, ha, hkey⟩ => h a ha hkey, fun h a ha hkey => h ⟨a, ha, hkey⟩⟩

theorem lookup_split {k : κ} {entries : List α} {a : α} (h : lookup key k entries = some a) :
    key a = k ∧ ∃ front back, entries = front ++ a :: back ∧ ∀ b ∈ front, key b ≠ k := by
  obtain ⟨hkey, front, back, rfl, hfront⟩ := List.find?_eq_some_iff_append.mp h
  refine ⟨of_decide_eq_true hkey, front, back, rfl, ?_⟩
  intro b hb
  simpa using hfront b hb

omit [DecidableEq κ] in
theorem nodup_split {front back : List α} {a : α} (h : ((front ++ a :: back).map key).Nodup) :
    ((front ++ back).map key).Nodup ∧ ∀ b ∈ front ++ back, key b ≠ key a := by
  rw [List.map_append, List.map_cons, List.nodup_middle, List.nodup_cons, ← List.map_append] at h
  refine ⟨h.2, ?_⟩
  intro b hb hkey
  exact h.1 (by rw [← hkey]; exact List.mem_map_of_mem hb)

/-- With distinct keys an entry is found by its key. -/
theorem lookup_of_mem {entries : List α} (hnodup : (entries.map key).Nodup) {a : α} (ha : a ∈ entries) :
    lookup key (key a) entries = some a := by
  induction entries with
  | nil => simp at ha
  | cons b entries ih =>
    rw [List.map_cons, List.nodup_cons] at hnodup
    obtain rfl | ha := List.mem_cons.mp ha
    · simp [lookup]
    · have hne : key b ≠ key a := by
        intro heq
        exact hnodup.1 (by rw [heq]; exact List.mem_map_of_mem ha)
      have htail := ih hnodup.2 ha
      simpa [lookup, hne] using htail

/-- Changing entries without their keys. -/
theorem lookup_map {f : α → α} (hf : ∀ a, key (f a) = key a) (k : κ) (entries : List α) :
    lookup key k (entries.map f) = (lookup key k entries).map f := by
  rw [lookup, List.find?_map, lookup]
  congr 1
  congr 1
  funext a
  simp [hf]

/-- Dropping the entries with a key hides that key only. -/
theorem lookup_filter_ne (j k : κ) (entries : List α) :
    lookup key k (entries.filter fun a => key a ≠ j) = if k = j then none else lookup key k entries := by
  split_ifs with hk
  · rw [lookup_eq_none_iff]
    intro a ha
    rw [hk]
    simpa using (List.mem_filter.mp ha).2
  · rw [lookup, List.find?_filter, lookup]
    congr 1
    funext a
    by_cases ha : key a = k
    · simp [ha, hk]
    · simp [ha]

omit [DecidableEq κ] in
theorem map_key_set {entries : List α} {i : Nat} {a b : α} (ha : entries[i]? = some a)
    (hkey : key b = key a) : (entries.set i b).map key = entries.map key := by
  rw [List.map_set, hkey]
  apply List.ext_getElem?
  intro j
  by_cases hj : i = j
  · subst hj
    have hi : i < (entries.map key).length := by
      by_contra hlong
      rw [List.length_map] at hlong
      rw [List.getElem?_eq_none (by omega)] at ha
      cases ha
    rw [List.getElem?_set_self hi, List.getElem?_map, ha]
    rfl
  · rw [List.getElem?_set_ne hj]

omit [DecidableEq κ] in
/-- With distinct keys an entry's key determines where it is. -/
theorem index_unique {entries : List α} (hnodup : (entries.map key).Nodup) {i j : Nat} {a b : α}
    (ha : entries[i]? = some a) (hb : entries[j]? = some b) (hkey : key a = key b) : i = j := by
  have hi : i < (entries.map key).length := by
    rw [List.length_map]
    exact (List.getElem?_eq_some_iff.mp ha).1
  have hmap : (entries.map key)[i]? = (entries.map key)[j]? := by
    rw [List.getElem?_map, List.getElem?_map, ha, hb, Option.map_some, Option.map_some, hkey]
  exact (List.getElem?_inj hi hnodup).mp hmap

/-- Changing an entry without its key shows under its key only. -/
theorem lookup_set {entries : List α} (hnodup : (entries.map key).Nodup) {i : Nat} {a b : α}
    (ha : entries[i]? = some a) (hkey : key b = key a) (k : κ) :
    lookup key k (entries.set i b) = if k = key a then some b else lookup key k entries := by
  induction entries generalizing i with
  | nil => simp at ha
  | cons c entries ih =>
    rw [List.map_cons, List.nodup_cons] at hnodup
    cases i with
    | zero =>
      obtain rfl : c = a := by simpa using ha
      by_cases hk : k = key c
      · simp [lookup, hkey, hk]
      · simp [lookup, hkey, hk, Ne.symm hk]
    | succ i =>
      have hmem : a ∈ entries := List.mem_of_getElem? ha
      have hne : key c ≠ key a := by
        intro heq
        exact hnodup.1 (by rw [heq]; exact List.mem_map_of_mem hmem)
      have htail := ih hnodup.2 (i := i) (by simpa using ha)
      by_cases hk : k = key a
      · simpa [lookup, hk, hne] using htail
      · by_cases hc : key c = k
        · simp [lookup, hc, hk]
        · simpa [lookup, hc, hk] using htail

/-- A new entry shows under its key only. -/
theorem lookup_append_new {entries : List α} {b : α} (hnew : ∀ a ∈ entries, key a ≠ key b) (k : κ) :
    lookup key k (entries ++ [b]) = if k = key b then some b else lookup key k entries := by
  have happend : lookup key k (entries ++ [b]) = (lookup key k entries).or (lookup key k [b]) :=
    List.find?_append
  rw [happend]
  by_cases hk : k = key b
  · subst hk
    rw [lookup_eq_none_iff.mpr hnew, if_pos rfl]
    simp [lookup]
  · rw [if_neg hk]
    simp [lookup, Ne.symm hk]

/-- The position of the last entry with a key, as a search that goes through
all entries leaves it. -/
def last_index (key : α → κ) (k : κ) (entries : List α) : Option Nat :=
  (List.range entries.length).foldl
    (fun found i => if (entries[i]?.map key) = some k then some i else found) none

theorem last_index_spec (key : α → κ) (k : κ) (entries : List α) :
    (∀ i, last_index key k entries = some i → ∃ a, entries[i]? = some a ∧ key a = k) ∧
      (last_index key k entries = none ↔ ∀ a ∈ entries, key a ≠ k) := by
  have hprefix : ∀ n ≤ entries.length,
      let found := (List.range n).foldl
        (fun found i => if (entries[i]?.map key) = some k then some i else found) none
      (∀ i, found = some i → ∃ a, entries[i]? = some a ∧ key a = k) ∧
        (found = none ↔ ∀ i < n, entries[i]?.map key ≠ some k) := by
    intro n
    induction n with
    | zero => simp
    | succ n ih =>
      intro hn
      obtain ⟨hsome, hnone⟩ := ih (by omega)
      simp only [List.range_succ, List.foldl_append, List.foldl_cons, List.foldl_nil]
      by_cases hit : entries[n]?.map key = some k
      · rw [if_pos hit]
        refine ⟨?_, ?_⟩
        · rintro i hi
          cases hi
          exact Option.map_eq_some_iff.mp hit
        · exact ⟨nofun, fun h => absurd hit (h n (Nat.lt_succ_self n))⟩
      · rw [if_neg hit]
        refine ⟨hsome, hnone.trans ⟨fun h i hi => ?_, fun h i hi => h i (Nat.lt_succ_of_lt hi)⟩⟩
        obtain hi | rfl := Nat.lt_succ_iff_lt_or_eq.mp hi
        · exact h i hi
        · exact hit
  obtain ⟨hsome, hnone⟩ := hprefix entries.length (Nat.le_refl _)
  refine ⟨hsome, hnone.trans ⟨fun h a ha => ?_, fun h i hi => ?_⟩⟩
  · obtain ⟨i, hi, rfl⟩ := List.getElem_of_mem ha
    intro hkey
    exact h i hi (by rw [List.getElem?_eq_getElem hi, Option.map_some, hkey])
  · rw [List.getElem?_eq_getElem hi, Option.map_some, Ne, Option.some_inj]
    exact h _ (List.getElem_mem hi)

end keyed
