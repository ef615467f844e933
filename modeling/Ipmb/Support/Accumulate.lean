import Mathlib.Data.List.Induction
import Mathlib.Data.List.Nodup

namespace accumulate

variable {κ α : Type} [DecidableEq κ]

/-- The values under a key with more behind them; a new key comes last. -/
def upsert (k : κ) (more : List α) : List (κ × List α) → List (κ × List α)
  | [] => [(k, more)]
  | (k', as) :: entries =>
    if k' = k then (k', as ++ more) :: entries else (k', as) :: upsert k more entries

/-- All that calls bring for a key, in their order. -/
def collected (k : κ) (calls : List (κ × List α)) : List α :=
  calls.flatMap fun c => if c.1 = k then c.2 else []

/-- The number of values under all keys. -/
def size (entries : List (κ × List α)) : Nat := (entries.flatMap Prod.snd).length

theorem upsert_found {k : κ} {front back : List (κ × List α)} (hfront : ∀ e ∈ front, e.1 ≠ k)
    (as more : List α) : upsert k more (front ++ (k, as) :: back) = front ++ (k, as ++ more) :: back := by
  induction front with
  | nil => rw [List.nil_append, List.nil_append, upsert, if_pos rfl]
  | cons e front ih =>
    rw [List.cons_append, upsert, if_neg (hfront e List.mem_cons_self),
      ih fun e he => hfront e (List.mem_cons_of_mem _ he)]
    rfl

theorem upsert_new {k : κ} {entries : List (κ × List α)} (hnew : ∀ e ∈ entries, e.1 ≠ k) (more : List α) :
    upsert k more entries = entries ++ [(k, more)] := by
  induction entries with
  | nil => rfl
  | cons e entries ih =>
    rw [upsert, if_neg (hnew e List.mem_cons_self), ih fun e he => hnew e (List.mem_cons_of_mem _ he)]
    rfl

/-- A key is there behind entries with other keys, or not at all. -/
theorem found_or_new (k : κ) (entries : List (κ × List α)) :
    (∃ front as back, entries = front ++ (k, as) :: back ∧ ∀ e ∈ front, e.1 ≠ k) ∨
      ∀ e ∈ entries, e.1 ≠ k := by
  induction entries with
  | nil => exact .inr fun e he => absurd he List.not_mem_nil
  | cons e entries ih =>
    by_cases hkey : e.1 = k
    · subst hkey
      exact .inl ⟨[], e.2, entries, rfl, fun e he => absurd he List.not_mem_nil⟩
    · obtain ⟨front, as, back, rfl, hfront⟩ | hnew := ih
      · refine .inl ⟨e :: front, as, back, rfl, ?_⟩
        intro e' he'
        obtain rfl | he' := List.mem_cons.mp he'
        · exact hkey
        · exact hfront e' he'
      · refine .inr fun e' he' => ?_
        obtain rfl | he' := List.mem_cons.mp he'
        · exact hkey
        · exact hnew e' he'

theorem size_upsert (k : κ) (more : List α) (entries : List (κ × List α)) :
    size (upsert k more entries) = size entries + more.length := by
  obtain ⟨front, as, back, rfl, hfront⟩ | hnew := found_or_new k entries
  · rw [upsert_found hfront]
    simp [size]
    omega
  · rw [upsert_new hnew]
    simp [size]

omit [DecidableEq κ] in
theorem length_le_size {e : κ × List α} {entries : List (κ × List α)} (he : e ∈ entries) :
    e.2.length ≤ size entries := by
  obtain ⟨front, back, rfl⟩ := List.append_of_mem he
  simp only [size, List.flatMap_append, List.flatMap_cons, List.length_append]
  omega

/-- Keys stay distinct. -/
theorem nodup_upsert {k : κ} {entries : List (κ × List α)} (h : (entries.map Prod.fst).Nodup)
    (more : List α) : ((upsert k more entries).map Prod.fst).Nodup := by
  obtain ⟨front, as, back, rfl, hfront⟩ | hnew := found_or_new k entries
  · rw [upsert_found hfront]
    simpa using h
  · rw [upsert_new hnew, List.map_append]
    refine List.nodup_append'.mpr ⟨h, List.nodup_singleton k, ?_⟩
    rw [List.map_singleton, List.disjoint_singleton, List.mem_map]
    rintro ⟨e, he, hkey⟩
    exact hnew e he hkey

theorem eraseDups_concat (ks : List κ) (k : κ) :
    (ks ++ [k]).eraseDups = if k ∈ ks then ks.eraseDups else ks.eraseDups ++ [k] := by
  rw [List.eraseDups_append]
  split_ifs with hk
  · simp [List.removeAll, hk]
  · simp [List.removeAll, hk, List.eraseDups_cons]

theorem nodup_eraseDups (ks : List κ) : ks.eraseDups.Nodup := by
  induction ks using List.reverseRecOn with
  | nil => exact List.nodup_nil
  | append_singleton ks k ih =>
    rw [eraseDups_concat]
    split_ifs with hk
    · exact ih
    · refine List.nodup_append'.mpr ⟨ih, List.nodup_singleton k, ?_⟩
      rw [List.disjoint_singleton, List.mem_eraseDups]
      exact hk

theorem collected_concat (k k' : κ) (more : List α) (calls : List (κ × List α)) :
    collected k' (calls ++ [(k, more)]) =
      if k = k' then collected k' calls ++ more else collected k' calls := by
  rw [collected, List.flatMap_append, List.flatMap_singleton, ← collected]
  split_ifs
  · rfl
  · exact List.append_nil _

theorem collected_eq_nil {k : κ} {calls : List (κ × List α)} (hk : k ∉ calls.map Prod.fst) :
    collected k calls = [] := by
  rw [collected, List.flatMap_eq_nil_iff]
  intro c hc
  rw [if_neg]
  rintro rfl
  exact hk (List.mem_map_of_mem hc)

/-- More under one of distinct keys. -/
theorem upsert_map {k : κ} {ks : List κ} (hks : ks.Nodup) (hk : k ∈ ks) (f : κ → List α) (more : List α) :
    upsert k more (ks.map fun k' => (k', f k')) =
      ks.map fun k' => (k', if k = k' then f k' ++ more else f k') := by
  induction ks with
  | nil => cases hk
  | cons k' ks ih =>
    rw [List.nodup_cons] at hks
    rw [List.map_cons, List.map_cons, upsert]
    by_cases hkey : k' = k
    · subst hkey
      have hrest : (ks.map fun k => (k, f k)) = ks.map fun k => (k, if k' = k then f k ++ more else f k) := by
        apply List.map_congr_left
        intro k hmem
        rw [if_neg]
        rintro rfl
        exact hks.1 hmem
      rw [if_pos rfl, if_pos rfl, hrest]
    · have hmem : k ∈ ks := List.mem_of_ne_of_mem (Ne.symm hkey) hk
      rw [if_neg hkey, if_neg (Ne.symm hkey), ih hks.2 hmem]

/-- What calls leave: an entry for every key in the order of their first calls,
with all that the calls brought for it. -/
theorem foldl_upsert (calls : List (κ × List α)) :
    calls.foldl (fun entries c => upsert c.1 c.2 entries) [] =
      (calls.map Prod.fst).eraseDups.map fun k => (k, collected k calls) := by
  induction calls using List.reverseRecOn with
  | nil => rfl
  | append_singleton calls c ih =>
    obtain ⟨k, more⟩ := c
    rw [List.foldl_append, ih, List.map_append, List.map_singleton, eraseDups_concat]
    simp only [List.foldl_cons, List.foldl_nil, collected_concat]
    split_ifs with hk
    · exact upsert_map (nodup_eraseDups _) (List.mem_eraseDups.mpr hk) _ more
    · have hnew : ∀ e ∈ (calls.map Prod.fst).eraseDups.map fun k => (k, collected k calls), e.1 ≠ k := by
        intro e he
        obtain ⟨k', hk', rfl⟩ := List.mem_map.mp he
        rintro rfl
        exact hk (List.mem_eraseDups.mp hk')
      rw [upsert_new hnew, List.map_append, List.map_singleton, if_pos rfl, collected_eq_nil hk,
        List.nil_append]
      congr 1
      apply List.map_congr_left
      intro k' hk'
      rw [if_neg]
      rintro rfl
      exact hk (List.mem_eraseDups.mp hk')

end accumulate
