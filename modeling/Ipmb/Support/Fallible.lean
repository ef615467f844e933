import Mathlib.Data.List.Basic
import Mathlib.Data.List.Induction

namespace fallible

variable {ε α β σ τ : Type}

@[simp] theorem ok_bind (a : α) (f : α → Except ε β) : (Except.ok a >>= f) = f a := rfl

@[simp] theorem error_bind (e : ε) (f : α → Except ε β) :
    (Except.error e >>= f) = Except.error e := rfl

@[simp] theorem pure_eq_ok (a : α) : (pure a : Except ε α) = .ok a := rfl

theorem bind_eq_ok_iff {x : Except ε α} {f : α → Except ε β} {b : β} :
    x >>= f = .ok b ↔ ∃ a, x = .ok a ∧ f a = .ok b := by
  cases x with
  | error e => simp
  | ok a => simp

theorem map_eq_ok_iff {x : Except ε α} {f : α → β} {b : β} :
    f <$> x = .ok b ↔ ∃ a, x = .ok a ∧ f a = b := by
  cases x with
  | error e => simp [Functor.map, Except.map]
  | ok a => simp [Functor.map, Except.map]

@[simp] theorem map_ok (f : α → β) (a : α) : f <$> (Except.ok a : Except ε α) = .ok (f a) := rfl

/-- If every step goes through and follows a step of a model, so does a run. -/
theorem foldlM_simulates {step : σ → α → Except ε σ} {f : τ → α → τ} {R : σ → τ → Prop}
    (h : ∀ s t a, R s t → ∃ s', step s a = .ok s' ∧ R s' (f t a)) {s : σ} {t : τ} (hR : R s t)
    (as : List α) : ∃ s', as.foldlM step s = .ok s' ∧ R s' (as.foldl f t) := by
  induction as generalizing s t with
  | nil => exact ⟨s, rfl, hR⟩
  | cons a as ih =>
    obtain ⟨s₁, hstep, hR₁⟩ := h s t a hR
    obtain ⟨s', hrun, hR'⟩ := ih hR₁
    refine ⟨s', ?_, hR'⟩
    rw [List.foldlM_cons, hstep, ok_bind, hrun]

/-- What every step that goes through keeps up with a model, a run that goes
through keeps up too. -/
theorem foldlM_tracks {step : σ → α → Except ε σ} {f : τ → α → τ} {R : σ → τ → Prop}
    (h : ∀ s t a s', R s t → step s a = .ok s' → R s' (f t a)) {s s' : σ} {t : τ} (hR : R s t)
    {as : List α} (hrun : as.foldlM step s = .ok s') : R s' (as.foldl f t) := by
  induction as generalizing s t with
  | nil =>
    rw [List.foldlM_nil, pure_eq_ok] at hrun
    cases hrun
    exact hR
  | cons a as ih =>
    rw [List.foldlM_cons, bind_eq_ok_iff] at hrun
    obtain ⟨s₁, hstep, hrun⟩ := hrun
    exact ih (h s t a s₁ hR hstep) hrun

/-- An invariant of the steps is one of runs. -/
theorem foldlM_invariant {step : σ → α → Except ε σ} {P : σ → Prop}
    (h : ∀ s a s', P s → step s a = .ok s' → P s') {s s' : σ} (hP : P s) {as : List α}
    (hrun : as.foldlM step s = .ok s') : P s' :=
  foldlM_tracks (R := fun s (_ : Unit) => P s) (f := fun t _ => t)
    (fun s _ a s' hP hstep => h s a s' hP hstep) (t := ()) hP hrun

/-- A loop whose steps all go through. -/
theorem foldlM_eq_foldl {step : σ → α → Except ε σ} {f : σ → α → σ} {as : List α}
    (h : ∀ s, ∀ a ∈ as, step s a = .ok (f s a)) (s : σ) : as.foldlM step s = .ok (as.foldl f s) := by
  induction as generalizing s with
  | nil => rfl
  | cons a as ih =>
    rw [List.foldlM_cons, h s a List.mem_cons_self, ok_bind, List.foldl_cons]
    exact ih (fun s a ha => h s a (List.mem_cons_of_mem _ ha)) (f s a)

/-- A loop whose steps do not look at their number. -/
theorem foldlM_zipIdx (step : σ → α → Except ε σ) (as : List α) (n : Nat) (s : σ) :
    (as.zipIdx n).foldlM (fun s a => step s a.1) s = as.foldlM step s := by
  induction as generalizing n s with
  | nil => rfl
  | cons a as ih =>
    rw [List.zipIdx_cons, List.foldlM_cons, List.foldlM_cons]
    congr 1
    funext s'
    exact ih (n + 1) s'

/-- A loop over the indices of a list that looks at the entries only. -/
theorem foldlM_range_eq {f : σ → Nat → Except ε σ} {step : σ → α → Except ε σ} {as : List α}
    (h : ∀ s j a, as[j]? = some a → f s j = step s a) (s : σ) :
    (List.range as.length).foldlM f s = as.foldlM step s := by
  induction as using List.reverseRecOn generalizing s with
  | nil => rfl
  | append_singleton as a ih =>
    have hfront : ∀ s j b, as[j]? = some b → f s j = step s b := by
      intro s j b hb
      refine h s j b ?_
      rw [List.getElem?_append_left (List.getElem?_eq_some_iff.mp hb).1, hb]
    have hlast : ∀ s, f s as.length = step s a := fun s => h s as.length a (by simp)
    rw [List.length_append, List.length_singleton, List.range_succ, List.foldlM_append, ih hfront,
      List.foldlM_append]
    congr 1
    funext s'
    rw [List.foldlM_cons, List.foldlM_cons, hlast]
    rfl

/-- Where all steps that fail fail alike, a run with such a step fails so. -/
theorem foldlM_error_of_mem {step : σ → α → Except ε σ} {e : ε} {as : List α}
    (h : ∀ s, ∀ a ∈ as, (∃ s', step s a = .ok s') ∨ step s a = .error e) {a : α} (ha : a ∈ as)
    (herror : ∀ s, step s a = .error e) (s : σ) : as.foldlM step s = .error e := by
  induction as generalizing s with
  | nil => cases ha
  | cons b as ih =>
    rw [List.foldlM_cons]
    obtain ⟨s', hs'⟩ | hb := h s b List.mem_cons_self
    · rw [hs', ok_bind]
      obtain rfl | ha := List.mem_cons.mp ha
      · rw [herror s] at hs'
        cases hs'
      · exact ih (fun s a ha => h s a (List.mem_cons_of_mem _ ha)) ha s'
    · rw [hb, error_bind]

/-- Every step of a run goes through, and all its states have a property. -/
def Always (step : σ → α → Except ε σ) (P : σ → Prop) (s : σ) : List α → Prop
  | [] => P s
  | a :: as => P s ∧ ∃ s', step s a = .ok s' ∧ Always step P s' as

/-- Every step of a run meets a guard, as far as the run goes. -/
def Guarded (step : σ → α → Except ε σ) (G : σ → α → Prop) (s : σ) : List α → Prop
  | [] => True
  | a :: as => G s a ∧ ∀ s', step s a = .ok s' → Guarded step G s' as

/-- A guard that a step has to meet to keep a property is the one that runs
have to meet. -/
theorem always_iff_guarded {step : σ → α → Except ε σ} {I P : σ → Prop} {G : σ → α → Prop} {A : α → Prop}
    (hinv : ∀ s a s', A a → I s → step s a = .ok s' → I s')
    (hstep : ∀ s a, A a → I s → P s → ((∃ s', step s a = .ok s' ∧ P s') ↔ G s a)) {s : σ} (hI : I s)
    (hP : P s) {as : List α} (hA : ∀ a ∈ as, A a) : Always step P s as ↔ Guarded step G s as := by
  induction as generalizing s with
  | nil => exact iff_of_true hP trivial
  | cons a as ih =>
    have ha := hA a List.mem_cons_self
    have has : ∀ a ∈ as, A a := fun a ha => hA a (List.mem_cons_of_mem _ ha)
    have hkeeps := hstep s a ha hI hP
    constructor
    · rintro ⟨_, s', hs', hrest⟩
      have hP' : P s' := by
        cases as with
        | nil => exact hrest
        | cons => exact hrest.1
      refine ⟨hkeeps.mp ⟨s', hs', hP'⟩, ?_⟩
      intro t ht
      rw [hs'] at ht
      cases ht
      exact (ih (hinv s a s' ha hI hs') hP' has).mp hrest
    · rintro ⟨hguard, hrest⟩
      obtain ⟨s', hs', hP'⟩ := hkeeps.mpr hguard
      exact ⟨hP, s', hs', (ih (hinv s a s' ha hI hs') hP' has).mpr (hrest s' hs')⟩

/-- Every state that a run reaches has a property, as far as the run goes. -/
def Throughout (step : σ → α → Except ε σ) (P : σ → Prop) (s : σ) : List α → Prop
  | [] => P s
  | a :: as => P s ∧ ∀ s', step s a = .ok s' → Throughout step P s' as

theorem Throughout.head {step : σ → α → Except ε σ} {P : σ → Prop} {s : σ} {as : List α}
    (h : Throughout step P s as) : P s := by
  cases as with
  | nil => exact h
  | cons => exact h.1

/-- A guard that a step has to meet to lead to a property only is the one that
runs have to meet. -/
theorem throughout_iff_guarded {step : σ → α → Except ε σ} {I P : σ → Prop} {G : σ → α → Prop}
    (hinv : ∀ s a s', I s → step s a = .ok s' → I s')
    (hstep : ∀ s a, I s → P s → ((∀ s', step s a = .ok s' → P s') ↔ G s a)) {s : σ} (hI : I s) (hP : P s)
    (as : List α) : Throughout step P s as ↔ Guarded step G s as := by
  induction as generalizing s with
  | nil => exact iff_of_true hP trivial
  | cons a as ih =>
    constructor
    · rintro ⟨_, hrest⟩
      have hnext : ∀ s', step s a = .ok s' → P s' := fun s' hs' => (hrest s' hs').head
      refine ⟨(hstep s a hI hP).mp hnext, ?_⟩
      intro s' hs'
      exact (ih (hinv s a s' hI hs') (hnext s' hs')).mp (hrest s' hs')
    · rintro ⟨hguard, hrest⟩
      refine ⟨hP, ?_⟩
      intro s' hs'
      have hP' := (hstep s a hI hP).mpr hguard s' hs'
      exact (ih (hinv s a s' hI hs') hP').mpr (hrest s' hs')

/-- Where every step goes through, and leads to a property exactly from the
property and a guard, a run that meets the guard is what leads to it. -/
theorem foldlM_iff_guarded {step : σ → α → Except ε σ} {I P : σ → Prop} {G : σ → α → Prop}
    (hstep : ∀ s a, I s → ∃ s', step s a = .ok s' ∧ I s' ∧ (P s' ↔ P s ∧ G s a)) {s : σ} (hI : I s)
    (as : List α) : ∃ s', as.foldlM step s = .ok s' ∧ (P s' ↔ P s ∧ Guarded step G s as) := by
  induction as generalizing s with
  | nil => exact ⟨s, rfl, (and_iff_left trivial).symm⟩
  | cons a as ih =>
    obtain ⟨s₁, hs₁, hI₁, hkeeps⟩ := hstep s a hI
    obtain ⟨s', hrun, hiff⟩ := ih hI₁
    have hguarded : Guarded step G s (a :: as) ↔ G s a ∧ Guarded step G s₁ as := by
      simp [Guarded, hs₁]
    refine ⟨s', ?_, ?_⟩
    · rw [List.foldlM_cons, hs₁, ok_bind, hrun]
    · rw [hiff, hkeeps, hguarded, and_assoc]

/-- Where steps that meet a guard go through and keep an invariant, so do runs. -/
theorem run_of_guarded {step : σ → α → Except ε σ} {I : σ → Prop} {G : σ → α → Prop}
    (hstep : ∀ s a, I s → G s a → ∃ s', step s a = .ok s' ∧ I s') {s : σ} (hI : I s) {as : List α}
    (h : Guarded step G s as) : ∃ s', as.foldlM step s = .ok s' ∧ I s' := by
  induction as generalizing s with
  | nil => exact ⟨s, rfl, hI⟩
  | cons a as ih =>
    obtain ⟨s₁, hs₁, hI₁⟩ := hstep s a hI h.1
    obtain ⟨s', hrun, hI'⟩ := ih hI₁ (h.2 s₁ hs₁)
    exact ⟨s', by rw [List.foldlM_cons, hs₁, ok_bind, hrun], hI'⟩

/-- Where a step against a guard leads to a state that no later step puts right, a
run that ends well meets the guard. -/
theorem guarded_of_run {step : σ → α → Except ε σ} {I D : σ → Prop} {G : σ → α → Prop}
    (hstep : ∀ s a s', I s → G s a → step s a = .ok s' → I s')
    (hdooms : ∀ s a s', I s → ¬G s a → step s a = .ok s' → D s')
    (hdoomed : ∀ s a s', D s → step s a = .ok s' → D s') {s s' : σ} (hI : I s) {as : List α}
    (hrun : as.foldlM step s = .ok s') (hwell : ¬D s') : Guarded step G s as := by
  induction as generalizing s with
  | nil => trivial
  | cons a as ih =>
    rw [List.foldlM_cons, bind_eq_ok_iff] at hrun
    obtain ⟨s₁, hs₁, hrest⟩ := hrun
    have hguard : G s a := by
      by_contra hguard
      exact hwell (foldlM_invariant (fun s a s' => hdoomed s a s') (hdooms s a s₁ hI hguard hs₁) hrest)
    refine ⟨hguard, fun s₂ hs₂ => ?_⟩
    rw [hs₁] at hs₂
    cases hs₂
    exact ih (hstep s a s₁ hI hguard hs₁) hrest

/-- A loop over the indices of a list whose rounds all go through. -/
theorem mapM_range_eq_map {f : Nat → Except ε β} {g : α → β} {as : List α}
    (h : ∀ i a, as[i]? = some a → f i = .ok (g a)) : (List.range as.length).mapM f = .ok (as.map g) := by
  induction as using List.reverseRecOn with
  | nil => rfl
  | append_singleton as a ih =>
    have hfront : ∀ i b, as[i]? = some b → f i = .ok (g b) := by
      intro i b hb
      refine h i b ?_
      rw [List.getElem?_append_left (List.getElem?_eq_some_iff.mp hb).1, hb]
    have hlast : f as.length = .ok (g a) := h as.length a (by simp)
    rw [List.length_append, List.length_singleton, List.range_succ, List.mapM_append, ih hfront, ok_bind,
      List.mapM_cons, hlast, ok_bind, List.mapM_nil, List.map_append]
    rfl

/-- A loop over the first numbers succeeds exactly when every round does. -/
theorem mapM_range_ok_iff {f : Nat → Except ε α} {n : Nat} :
    (∃ ys, (List.range n).mapM f = .ok ys) ↔ ∀ i < n, ∃ a, f i = .ok a := by
  induction n with
  | zero => simp
  | succ n ih =>
    rw [List.range_succ, List.mapM_append, List.mapM_cons, List.mapM_nil]
    constructor
    · rintro ⟨ys, hys⟩ i hi
      cases hfront : (List.range n).mapM f with
      | error e => simp [hfront] at hys
      | ok front =>
        cases hlast : f n with
        | error e => simp [hfront, hlast] at hys
        | ok a =>
          obtain hi | rfl := Nat.lt_succ_iff_lt_or_eq.mp hi
          · exact ih.mp ⟨front, hfront⟩ i hi
          · exact ⟨a, hlast⟩
    · intro h
      obtain ⟨front, hfront⟩ := ih.mpr fun i hi => h i (Nat.lt_succ_of_lt hi)
      obtain ⟨a, hlast⟩ := h n (Nat.lt_succ_self n)
      exact ⟨front ++ [a], by simp [hfront, hlast]⟩

/-- A loop over the first numbers ends with the error of the first round that
has one. -/
theorem mapM_range_error_iff {f : Nat → Except ε α} {n : Nat} {e : ε} :
    (List.range n).mapM f = .error e ↔ ∃ j < n, (∀ i < j, ∃ a, f i = .ok a) ∧ f j = .error e := by
  induction n with
  | zero => simp
  | succ n ih =>
    rw [List.range_succ, List.mapM_append, List.mapM_cons, List.mapM_nil]
    cases hfront : (List.range n).mapM f with
    | error e' =>
      rw [hfront] at ih
      constructor
      · intro h
        obtain ⟨j, hj, hbefore, herror⟩ := ih.mp (by simpa using h)
        exact ⟨j, Nat.lt_succ_of_lt hj, hbefore, herror⟩
      · rintro ⟨j, hj, hbefore, herror⟩
        obtain hj | rfl := Nat.lt_succ_iff_lt_or_eq.mp hj
        · simpa using ih.mpr ⟨j, hj, hbefore, herror⟩
        · obtain ⟨ys, hys⟩ := mapM_range_ok_iff.mpr hbefore
          rw [hfront] at hys
          cases hys
    | ok front =>
      have hbefore := mapM_range_ok_iff.mp ⟨front, hfront⟩
      constructor
      · intro h
        refine ⟨n, Nat.lt_succ_self n, hbefore, ?_⟩
        cases hlast : f n with
        | error e' => simpa [hlast] using h
        | ok a => simp [hlast] at h
      · rintro ⟨j, hj, _, herror⟩
        obtain hj | rfl := Nat.lt_succ_iff_lt_or_eq.mp hj
        · obtain ⟨a, ha⟩ := hbefore j hj
          rw [ha] at herror
          cases herror
        · simp [herror]

end fallible
