import Mathlib.Data.List.Basic

namespace patch

variable {α : Type}

/-- A block after values were stored into it from a position on. Values beyond
its end are not part of it. -/
def overlay (block : List α) (pos : Nat) (src : List α) : List α :=
  block.mapIdx fun i x => if pos ≤ i then src.getD (i - pos) x else x

@[simp] theorem length_overlay (block : List α) (pos : Nat) (src : List α) :
    (overlay block pos src).length = block.length := by
  simp [overlay]

theorem getElem?_overlay_inside {block src : List α} {pos i : Nat} (hblock : i < block.length)
    (hlow : pos ≤ i) (hhigh : i < pos + src.length) : (overlay block pos src)[i]? = src[i - pos]? := by
  have hsrc : i - pos < src.length := by omega
  simp [overlay, List.getElem?_mapIdx, List.getElem?_eq_getElem hblock, hlow, hsrc]

theorem getElem?_overlay_outside {block src : List α} {pos i : Nat}
    (h : i < pos ∨ pos + src.length ≤ i) : (overlay block pos src)[i]? = block[i]? := by
  rw [overlay, List.getElem?_mapIdx]
  cases block[i]? with
  | none => rfl
  | some x =>
    by_cases hlow : pos ≤ i
    · have hsrc : src.length ≤ i - pos := by omega
      simp [hlow, hsrc]
    · simp [hlow]

theorem overlay_nil (block : List α) (pos : Nat) : overlay block pos [] = block := by
  apply List.ext_getElem?
  intro i
  exact getElem?_overlay_outside (Nat.lt_or_ge i pos)

/-- A block up to the end of what was stored. -/
theorem take_overlay {block src : List α} {pos : Nat} (h : pos + src.length ≤ block.length) :
    (overlay block pos src).take (pos + src.length) = block.take pos ++ src := by
  apply List.ext_getElem?
  intro i
  rw [List.getElem?_take, List.getElem?_append, List.length_take_of_le (by omega)]
  by_cases hlow : i < pos
  · rw [if_pos (by omega), if_pos hlow, getElem?_overlay_outside (.inl hlow), List.getElem?_take_of_lt hlow]
  · rw [if_neg hlow]
    by_cases hhigh : i < pos + src.length
    · rw [if_pos hhigh, getElem?_overlay_inside (by omega) (by omega) hhigh]
    · rw [if_neg hhigh, List.getElem?_eq_none (by omega)]

/-- Of two sequences with a common beginning, the shorter one's starts the
longer one's. -/
theorem exists_append_of_le {as bs cs ds : List α} (h : as ++ bs = cs ++ ds) (hle : as.length ≤ cs.length) :
    ∃ mid, cs = as ++ mid ∧ bs = mid ++ ds := by
  have has : as <+: cs ++ ds := by
    rw [← h]
    exact List.prefix_append as bs
  obtain ⟨mid, rfl⟩ := List.prefix_of_prefix_length_le has (List.prefix_append cs ds) hle
  rw [List.append_assoc] at h
  exact ⟨mid, rfl, List.append_cancel_left h⟩

/-- Sequences of one length that agree outside a range have the same before and
after it. -/
theorem split_of_same_outside {xs ys : List α} {start len : Nat} (hlength : ys.length = xs.length)
    (hroom : start + len ≤ xs.length) (hsame : ∀ i, i < start ∨ start + len ≤ i → ys[i]? = xs[i]?) :
    ∃ before bytes bytes' after, xs = before ++ bytes ++ after ∧ ys = before ++ bytes' ++ after ∧
      before.length = start ∧ bytes.length = len ∧ bytes'.length = len := by
  have hsplit : ∀ zs : List α, zs = zs.take start ++ (zs.drop start).take len ++ zs.drop (start + len) := by
    intro zs
    rw [List.append_assoc, ← List.drop_drop, List.take_append_drop, List.take_append_drop]
  have hbefore : ys.take start = xs.take start := by
    apply List.ext_getElem?
    intro i
    rw [List.getElem?_take, List.getElem?_take]
    split_ifs with hi
    · exact hsame i (.inl hi)
    · rfl
  have hafter : ys.drop (start + len) = xs.drop (start + len) := by
    apply List.ext_getElem?
    intro i
    rw [List.getElem?_drop, List.getElem?_drop]
    exact hsame _ (.inr (Nat.le_add_right _ _))
  refine ⟨xs.take start, (xs.drop start).take len, (ys.drop start).take len, xs.drop (start + len),
    hsplit xs, ?_, ?_, ?_, ?_⟩
  · rw [← hbefore, ← hafter]
    exact hsplit ys
  · rw [List.length_take]
    omega
  · rw [List.length_take, List.length_drop]
    omega
  · rw [List.length_take, List.length_drop]
    omega

/-- A part of a sequence: where it starts and how long it is. -/
structure Window where
  offset : Nat
  length : Nat
  deriving DecidableEq

def Window.Contains (w : Window) (i : Nat) : Prop := w.offset ≤ i ∧ i < w.offset + w.length

instance (w : Window) (i : Nat) : Decidable (w.Contains i) :=
  inferInstanceAs (Decidable (w.offset ≤ i ∧ i < w.offset + w.length))

/-- The part of a sequence that a window shows. -/
def Window.slice (w : Window) (whole : List α) : List α := (whole.drop w.offset).take w.length

def Window.Fits (w : Window) (whole : List α) : Prop := w.offset + w.length ≤ whole.length

instance (w : Window) (whole : List α) : Decidable (w.Fits whole) :=
  inferInstanceAs (Decidable (w.offset + w.length ≤ whole.length))

theorem Window.length_slice {w : Window} {whole : List α} (h : w.Fits whole) :
    (w.slice whole).length = w.length := by
  unfold Window.Fits at h
  rw [Window.slice, List.length_take, List.length_drop]
  omega

/-- Storing a part of a sequence at its own place shows the sequence there and
changes nothing elsewhere. -/
theorem getElem?_overlay_slice {w : Window} {whole block : List α} (hfits : w.Fits whole)
    (hlen : block.length = whole.length) (i : Nat) :
    (overlay block w.offset (w.slice whole))[i]? =
      if w.Contains i then whole[i]? else block[i]? := by
  have hslice := Window.length_slice hfits
  unfold Window.Fits at hfits
  split_ifs with hin
  · obtain ⟨hlow, hhigh⟩ := hin
    rw [getElem?_overlay_inside (by omega) hlow (by omega), Window.slice,
      List.getElem?_take_of_lt (by omega), List.getElem?_drop]
    congr 1
    omega
  · apply getElem?_overlay_outside
    rw [Window.Contains] at hin
    omega

/-- The parts of one sequence can be stored in any order and over each other. -/
theorem getElem?_foldl_overlay {whole : List α} {ws : List Window} (hfits : ∀ w ∈ ws, w.Fits whole)
    {block : List α} (hlen : block.length = whole.length) (i : Nat) :
    (ws.foldl (fun block w => overlay block w.offset (w.slice whole)) block)[i]? =
      if ∃ w ∈ ws, w.Contains i then whole[i]? else block[i]? := by
  induction ws generalizing block with
  | nil => simp
  | cons w ws ih =>
    have hhead := getElem?_overlay_slice (hfits w List.mem_cons_self) hlen i
    have hlen' : (overlay block w.offset (w.slice whole)).length = whole.length := by
      rw [length_overlay, hlen]
    rw [List.foldl_cons, ih (fun v hv => hfits v (List.mem_cons_of_mem w hv)) hlen', hhead]
    by_cases hw : w.Contains i
    · simp [hw]
    · simp [hw]

/-- Parts that cover a sequence rebuild it. -/
theorem foldl_overlay_eq {whole : List α} {ws : List Window} (hfits : ∀ w ∈ ws, w.Fits whole)
    (hcover : ∀ i < whole.length, ∃ w ∈ ws, w.Contains i) {block : List α}
    (hlen : block.length = whole.length) :
    ws.foldl (fun block w => overlay block w.offset (w.slice whole)) block = whole := by
  apply List.ext_getElem?
  intro i
  rw [getElem?_foldl_overlay hfits hlen]
  by_cases hi : i < whole.length
  · rw [if_pos (hcover i hi)]
  · have hwhole : whole[i]? = none := List.getElem?_eq_none (by omega)
    have hblock : block[i]? = none := List.getElem?_eq_none (by omega)
    rw [hwhole, hblock, ite_self]

/-- What values stored from a position on put at an index. -/
def reach (pos : Nat) (src : List α) (i : Nat) : Option α := if pos ≤ i then src[i - pos]? else none

theorem getElem?_overlay {block : List α} {i : Nat} (hi : i < block.length) (pos : Nat) (src : List α) :
    (overlay block pos src)[i]? = (reach pos src i).or block[i]? := by
  rw [reach]
  by_cases hlow : pos ≤ i
  · rw [if_pos hlow]
    by_cases hhigh : i < pos + src.length
    · have hsrc : i - pos < src.length := by omega
      rw [getElem?_overlay_inside hi hlow hhigh, List.getElem?_eq_getElem hsrc, Option.some_or]
    · have hsrc : src.length ≤ i - pos := by omega
      rw [getElem?_overlay_outside (.inr (by omega)), List.getElem?_eq_none hsrc, Option.none_or]
  · rw [if_neg hlow, getElem?_overlay_outside (.inl (by omega)), Option.none_or]

/-- Of values stored over each other the last ones show. -/
theorem getElem?_foldl_overlay_last (stores : List (Nat × List α)) {block : List α} {i : Nat} (hi : i < block.length) :
    (stores.foldl (fun block s => overlay block s.1 s.2) block)[i]? =
      (stores.reverse.findSome? fun s => reach s.1 s.2 i).or block[i]? := by
  induction stores generalizing block with
  | nil => rfl
  | cons s stores ih =>
    rw [List.foldl_cons, ih (by rwa [length_overlay]), getElem?_overlay hi, List.reverse_cons, List.findSome?_append,
      Option.or_assoc]
    simp

theorem length_foldl_overlay (stores : List (Nat × List α)) (block : List α) :
    (stores.foldl (fun block s => overlay block s.1 s.2) block).length = block.length := by
  induction stores generalizing block with
  | nil => rfl
  | cons s stores ih => rw [List.foldl_cons, ih, length_overlay]

/-- What is found first does not depend on the order of things that agree. -/
theorem findSome?_eq_of_agree {β : Type} {f : α → Option β} {as as' : List α} (hmem : ∀ a, a ∈ as' ↔ a ∈ as)
    (hagree : ∀ a ∈ as, ∀ b ∈ as, ∀ x y, f a = some x → f b = some y → x = y) :
    as'.findSome? f = as.findSome? f := by
  cases hfound : as.findSome? f with
  | none =>
    rw [List.findSome?_eq_none_iff] at hfound ⊢
    exact fun a ha => hfound a ((hmem a).mp ha)
  | some x =>
    obtain ⟨a, ha, hx⟩ := List.exists_of_findSome?_eq_some hfound
    cases hfound' : as'.findSome? f with
    | none =>
      rw [List.findSome?_eq_none_iff] at hfound'
      rw [hfound' a ((hmem a).mpr ha)] at hx
      cases hx
    | some y =>
      obtain ⟨b, hb, hy⟩ := List.exists_of_findSome?_eq_some hfound'
      rw [hagree a ha b ((hmem b).mp hb) x y hx hy]

end patch
