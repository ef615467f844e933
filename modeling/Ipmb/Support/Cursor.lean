import Mathlib.Data.List.Basic

namespace cursor

/-- A read position in a fixed sequence. Positions past the end are allowed
and have nothing left to read. -/
structure Cursor (β : Type) where
  data : List β
  pos : Nat
  deriving Repr, DecidableEq

variable {β ε A B : Type}

/-- What is left to read. -/
def Cursor.rest (c : Cursor β) : List β := c.data.drop c.pos

def Cursor.advance (c : Cursor β) (n : Nat) : Cursor β := { c with pos := c.pos + n }

@[simp] theorem Cursor.rest_advance (c : Cursor β) (n : Nat) : (c.advance n).rest = c.rest.drop n := by
  simp [Cursor.rest, Cursor.advance]

@[simp] theorem Cursor.advance_advance (c : Cursor β) (m n : Nat) :
    (c.advance m).advance n = c.advance (m + n) := by
  simp [Cursor.advance, Nat.add_assoc]

@[simp] theorem Cursor.advance_zero (c : Cursor β) : c.advance 0 = c := rfl

/-- Stepping over what the rest starts with leaves what follows it. -/
theorem Cursor.rest_advance_of_append {c : Cursor β} {front tail : List β}
    (h : c.rest = front ++ tail) : (c.advance front.length).rest = tail := by
  rw [Cursor.rest_advance, h, List.drop_left]

/-- A decoder reads a value and moves the cursor, or fails with an error. -/
abbrev Decoder (ε β : Type) := StateT (Cursor β) (Except ε)

/-- Fail with an error when a condition holds. -/
def reject_if (cond : Prop) [Decidable cond] (e : ε) : Decoder ε β Unit :=
  if cond then throw e else pure ()

theorem bind_eq_ok_iff {p : Decoder ε β A} {q : A → Decoder ε β B} {c : Cursor β} {r : B × Cursor β} :
    (p >>= q).run c = .ok r ↔ ∃ a c', p.run c = .ok (a, c') ∧ (q a).run c' = .ok r := by
  rw [StateT.run_bind]
  cases h : p.run c with
  | error e => simp [Bind.bind, Except.bind]
  | ok s =>
    obtain ⟨a, c'⟩ := s
    simp [Bind.bind, Except.bind]

@[simp] theorem pure_eq_ok_iff {a : A} {c : Cursor β} {r : A × Cursor β} :
    (pure a : Decoder ε β A).run c = .ok r ↔ r = (a, c) := by
  rw [StateT.run_pure]
  simp [Pure.pure, Except.pure, eq_comm]

@[simp] theorem get_eq_ok_iff {c : Cursor β} {r : Cursor β × Cursor β} :
    (get : Decoder ε β (Cursor β)).run c = .ok r ↔ r = (c, c) := by
  simp [Pure.pure, Except.pure, eq_comm]

@[simp] theorem reject_if_eq_ok_iff {cond : Prop} [Decidable cond] {e : ε} {c : Cursor β}
    {r : Unit × Cursor β} :
    (reject_if cond e : Decoder ε β Unit).run c = .ok r ↔ ¬ cond ∧ r.2 = c := by
  unfold reject_if
  by_cases h : cond
  · simp [h, throw, throwThe, MonadExceptOf.throw, StateT.lift, StateT.run, Bind.bind, Except.bind]
  · obtain ⟨u, c'⟩ := r
    rw [if_neg h, pure_eq_ok_iff]
    simp [h]

/-- Every error a decoder can end with has a property. -/
def ErrorsIn (p : Decoder ε β A) (P : ε → Prop) : Prop :=
  ∀ c e, p.run c = .error e → P e

theorem ErrorsIn.pure {a : A} {P : ε → Prop} : ErrorsIn (pure a : Decoder ε β A) P := by
  intro c e h
  rw [StateT.run_pure] at h
  cases h

theorem ErrorsIn.get {P : ε → Prop} : ErrorsIn (get : Decoder ε β (Cursor β)) P := by
  intro c e h
  rw [StateT.run_get] at h
  cases h

theorem ErrorsIn.reject_if {cond : Prop} [Decidable cond] {e : ε} {P : ε → Prop} (h : P e) :
    ErrorsIn (reject_if cond e : Decoder ε β Unit) P := by
  intro c e' hrun
  unfold cursor.reject_if at hrun
  by_cases hcond : cond
  · rw [if_pos hcond] at hrun
    cases hrun
    exact h
  · rw [if_neg hcond] at hrun
    cases hrun

theorem ErrorsIn.bind {p : Decoder ε β A} {q : A → Decoder ε β B} {P : ε → Prop}
    (hp : ErrorsIn p P) (hq : ∀ a, ErrorsIn (q a) P) : ErrorsIn (p >>= q) P := by
  intro c e h
  rw [StateT.run_bind] at h
  cases hrun : p.run c with
  | error e' =>
    rw [hrun] at h
    cases h
    exact hp c _ hrun
  | ok s =>
    rw [hrun] at h
    exact hq s.1 s.2 e h

/-- A decoder is exact for a format when it succeeds precisely on inputs that
start with the encoding of a valid value, returns that value, and stops right
after the encoding. -/
def Exact (p : Decoder ε β A) (Valid : A → Prop) (enc : A → List β) : Prop :=
  ∀ c a c', p.run c = .ok (a, c') ↔
    Valid a ∧ c.rest = enc a ++ c'.rest ∧ c' = c.advance (enc a).length

/-- An exact decoder succeeds on every encoding, whatever follows it. -/
theorem Exact.complete {p : Decoder ε β A} {Valid : A → Prop} {enc : A → List β}
    (h : Exact p Valid enc) {c : Cursor β} {a : A} {tail : List β} (hvalid : Valid a)
    (hrest : c.rest = enc a ++ tail) :
    p.run c = .ok (a, c.advance (enc a).length) := by
  apply (h c a _).mpr
  refine ⟨hvalid, ?_, rfl⟩
  rw [Cursor.rest_advance_of_append hrest, hrest]

/-- What a decoder reads exactly determines the value and where it ends. -/
theorem Exact.unique {p : Decoder ε β A} {Valid : A → Prop} {enc : A → List β} (h : Exact p Valid enc)
    {a b : A} {front back : List β} (ha : Valid a) (hb : Valid b) (heq : enc a ++ front = enc b ++ back) :
    a = b ∧ front = back := by
  have hfirst := h.complete (c := { data := enc a ++ front, pos := 0 }) ha rfl
  have hsecond := h.complete (c := { data := enc a ++ front, pos := 0 }) hb heq
  rw [hfirst] at hsecond
  obtain ⟨rfl, _⟩ := Prod.mk.inj (Except.ok.inj hsecond)
  exact ⟨rfl, List.append_cancel_left heq⟩

theorem Exact.congr {p : Decoder ε β A} {Valid Valid' : A → Prop} {enc enc' : A → List β}
    (h : Exact p Valid enc) (hvalid : ∀ a, Valid a ↔ Valid' a) (henc : ∀ a, Valid' a → enc a = enc' a) :
    Exact p Valid' enc' := by
  intro c a c'
  rw [h c a c', hvalid a]
  constructor
  · rintro ⟨ha, hrest⟩
    rw [henc a ha] at hrest
    exact ⟨ha, hrest⟩
  · rintro ⟨ha, hrest⟩
    rw [← henc a ha] at hrest
    exact ⟨ha, hrest⟩

/-- A value that is already there takes no input. -/
theorem Exact.pure (a : A) : Exact (pure a : Decoder ε β A) (· = a) (fun _ => []) := by
  intro c b c'
  rw [pure_eq_ok_iff, Prod.mk.injEq]
  constructor
  · rintro ⟨rfl, rfl⟩
    exact ⟨rfl, rfl, rfl⟩
  · rintro ⟨rfl, _, rfl⟩
    exact ⟨rfl, rfl⟩

/-- A guard that holds takes no input either. -/
theorem Exact.reject_if {cond : Prop} [Decidable cond] {e : ε} {q : Decoder ε β A} {Valid : A → Prop}
    {enc : A → List β} (hcond : ¬cond) (h : Exact q Valid enc) :
    Exact (do reject_if cond e; q) Valid enc := by
  intro c a c'
  rw [bind_eq_ok_iff, ← h c a c']
  constructor
  · rintro ⟨_, c₁, hguard, hrun⟩
    obtain ⟨_, rfl⟩ := reject_if_eq_ok_iff.mp hguard
    exact hrun
  · intro hrun
    exact ⟨(), c, reject_if_eq_ok_iff.mpr ⟨hcond, rfl⟩, hrun⟩

/-- Exact decoders in sequence, where the value of the second one shows that of
the first. -/
theorem Exact.bind {p : Decoder ε β A} {q : A → Decoder ε β B} {Valid : A → Prop} {enc : A → List β}
    {Valid' : A → B → Prop} {enc' : A → B → List β} (hp : Exact p Valid enc) (shown : B → A)
    (hq : ∀ a, Exact (q a) (Valid' a) (enc' a)) (hshown : ∀ a b, Valid' a b → shown b = a) :
    Exact (p >>= q) (fun b => Valid (shown b) ∧ Valid' (shown b) b)
      (fun b => enc (shown b) ++ enc' (shown b) b) := by
  intro c b c'
  rw [bind_eq_ok_iff]
  constructor
  · rintro ⟨a, c₁, hfirst, hsecond⟩
    obtain ⟨ha, hrest, rfl⟩ := (hp c a c₁).mp hfirst
    obtain ⟨hb, hrest', rfl⟩ := (hq a _ b c').mp hsecond
    obtain rfl := hshown a b hb
    refine ⟨⟨ha, hb⟩, ?_, ?_⟩
    · rw [List.append_assoc, ← hrest', hrest]
    · rw [Cursor.advance_advance, List.length_append]
  · rintro ⟨⟨ha, hb⟩, hrest, rfl⟩
    rw [List.append_assoc] at hrest
    refine ⟨shown b, _, hp.complete ha hrest, ?_⟩
    apply (hq (shown b) _ b _).mpr
    refine ⟨hb, ?_, ?_⟩
    · rw [Cursor.rest_advance_of_append hrest]
    · rw [Cursor.advance_advance, List.length_append]

/-- Run one decoder after another for every index of a range, collecting the
values in order. -/
def times (p : Nat → Decoder ε β A) : Nat → Nat → Decoder ε β (List A)
  | _, 0 => pure []
  | start, count + 1 => do
    let a ← p start
    let rest ← times p (start + 1) count
    pure (a :: rest)

theorem ErrorsIn.times {p : Nat → Decoder ε β A} {P : ε → Prop} (h : ∀ i, ErrorsIn (p i) P)
    (start count : Nat) : ErrorsIn (times p start count) P := by
  induction count generalizing start with
  | zero => exact ErrorsIn.pure
  | succ count ih => exact (h start).bind fun _ => (ih (start + 1)).bind fun _ => ErrorsIn.pure

/-- Decoders that go through where others do, also one after another. -/
theorem times_eq_ok {p q : Nat → Decoder ε β A}
    (h : ∀ i c r, (p i).run c = .ok r → (q i).run c = .ok r) {start count : Nat} {c : Cursor β}
    {r : List A × Cursor β} (hrun : (times p start count).run c = .ok r) :
    (times q start count).run c = .ok r := by
  induction count generalizing start c r with
  | zero => exact hrun
  | succ count ih =>
    rw [times, bind_eq_ok_iff] at hrun ⊢
    obtain ⟨a, c₁, hfirst, hrest⟩ := hrun
    obtain ⟨tail, c₂, htail, hlast⟩ := bind_eq_ok_iff.mp hrest
    exact ⟨a, c₁, h start c _ hfirst, bind_eq_ok_iff.mpr ⟨tail, c₂, ih htail, hlast⟩⟩

/-- Repeating an exact decoder is exact for the concatenated encodings of a
list of the requested length. -/
theorem Exact.times {p : Nat → Decoder ε β A} {Valid : A → Prop} {enc : A → List β}
    (h : ∀ i, Exact (p i) Valid enc) (start count : Nat) :
    Exact (times p start count) (fun values => values.length = count ∧ ∀ a ∈ values, Valid a)
      (fun values => values.flatMap enc) := by
  induction count generalizing start with
  | zero =>
    intro c values c'
    simp only [cursor.times, pure_eq_ok_iff, Prod.mk.injEq, List.length_eq_zero_iff]
    constructor
    · rintro ⟨rfl, rfl⟩
      simp
    · rintro ⟨⟨rfl, _⟩, _, rfl⟩
      simp
  | succ count ih =>
    intro c values c'
    simp only [cursor.times, bind_eq_ok_iff, pure_eq_ok_iff, Prod.mk.injEq]
    constructor
    · rintro ⟨a, c₁, hfirst, tail, c₂, htail, rfl, rfl⟩
      obtain ⟨ha, hrest, rfl⟩ := (h start c a c₁).mp hfirst
      obtain ⟨⟨hlength, htailValid⟩, hrestTail, rfl⟩ := (ih (start + 1) _ tail _).mp htail
      refine ⟨⟨by simp [hlength], ?_⟩, ?_, ?_⟩
      · simpa using ⟨ha, htailValid⟩
      · rw [hrest, hrestTail, List.flatMap_cons, List.append_assoc]
      · simp
    · rintro ⟨⟨hlength, hvalid⟩, hrest, rfl⟩
      cases values with
      | nil => simp at hlength
      | cons a tail =>
        rw [List.flatMap_cons, List.append_assoc] at hrest
        have hfirst := (h start).complete (hvalid a (by simp)) hrest
        refine ⟨a, _, hfirst, tail, _, ?_, rfl, rfl⟩
        apply (ih (start + 1) _ tail _).mpr
        refine ⟨⟨by simpa using hlength, fun b hb => hvalid b (by simp [hb])⟩, ?_, by simp⟩
        rw [Cursor.rest_advance_of_append hrest, List.flatMap_cons]

end cursor
