import Ipmb.Support.Fallible

open fallible

namespace logged

variable {ε E A B : Type}

/-- Programs that may fail and write down what they do, the last event first. -/
abbrev Logged (ε E : Type) := StateT (List E) (Except ε)

/-- An operation that leaves events behind if it goes through. -/
def noting (x : Except ε A) (events : A → List E) : Logged ε E A := fun log =>
  (fun a => (a, events a ++ log)) <$> x

/-- A program does what another one does, apart from its log. -/
def Erases (p : Logged ε E A) (x : Except ε A) : Prop := ∀ log, Prod.fst <$> p.run log = x

theorem Erases.pure (a : A) : Erases (pure a : Logged ε E A) (pure a) := fun _ => rfl

theorem Erases.noting (x : Except ε A) (events : A → List E) : Erases (noting x events) x := by
  intro log
  cases x <;> rfl

theorem Erases.bind {p : Logged ε E A} {x : Except ε A} {q : A → Logged ε E B} {y : A → Except ε B}
    (hp : Erases p x) (hq : ∀ a, Erases (q a) (y a)) : Erases (p >>= q) (x >>= y) := by
  intro log
  rw [StateT.run_bind, ← hp log]
  cases p.run log with
  | error e => rfl
  | ok r => exact hq r.1 r.2

theorem Erases.ite {cond : Prop} [Decidable cond] {p q : Logged ε E A} {x y : Except ε A} (hp : Erases p x)
    (hq : Erases q y) : Erases (if cond then p else q) (if cond then x else y) := by
  split
  · exact hp
  · exact hq

/-- A program goes through from a log, and its value and the log it leaves have
a property. -/
def Ensures (p : Logged ε E A) (log : List E) (Q : A → List E → Prop) : Prop :=
  ∃ a log', p.run log = .ok (a, log') ∧ Q a log'

theorem Ensures.pure {a : A} {log : List E} {Q : A → List E → Prop} (h : Q a log) :
    Ensures (pure a : Logged ε E A) log Q :=
  ⟨a, log, rfl, h⟩

theorem Ensures.bind {p : Logged ε E A} {q : A → Logged ε E B} {log : List E} {P : A → List E → Prop}
    {Q : B → List E → Prop} (hp : Ensures p log P) (hq : ∀ a log', P a log' → Ensures (q a) log' Q) :
    Ensures (p >>= q) log Q := by
  obtain ⟨a, log', hrun, hP⟩ := hp
  obtain ⟨b, log'', hrun', hQ⟩ := hq a log' hP
  refine ⟨b, log'', ?_, hQ⟩
  rw [StateT.run_bind, hrun, ok_bind, hrun']

/-- There is one run, of which both properties hold. -/
theorem Ensures.and {p : Logged ε E A} {log : List E} {P Q : A → List E → Prop} (hp : Ensures p log P)
    (hq : Ensures p log Q) : Ensures p log fun a log' => P a log' ∧ Q a log' := by
  obtain ⟨a, log', hrun, hP⟩ := hp
  obtain ⟨b, log'', hrun', hQ⟩ := hq
  cases hrun.symm.trans hrun'
  exact ⟨a, log', hrun, hP, hQ⟩

theorem Ensures.noting {x : Except ε A} {events : A → List E} {log : List E} {Q : A → List E → Prop} {a : A}
    (hx : x = .ok a) (h : Q a (events a ++ log)) : Ensures (noting x events) log Q := by
  refine ⟨a, events a ++ log, ?_, h⟩
  rw [hx]
  rfl

theorem Ensures.ite {cond : Prop} [Decidable cond] {p q : Logged ε E A} {log : List E} {Q : A → List E → Prop}
    (hp : cond → Ensures p log Q) (hq : ¬cond → Ensures q log Q) :
    Ensures (if cond then p else q) log Q := by
  by_cases h : cond
  · rw [if_pos h]
    exact hp h
  · rw [if_neg h]
    exact hq h

/-- What a program ensures is what the program without a log returns. -/
theorem Ensures.erase {p : Logged ε E A} {x : Except ε A} {log : List E} {Q : A → List E → Prop}
    (herases : Erases p x) (h : Ensures p log Q) : ∃ a log', p.run log = .ok (a, log') ∧ x = .ok a ∧ Q a log' := by
  obtain ⟨a, log', hrun, hQ⟩ := h
  refine ⟨a, log', hrun, ?_, hQ⟩
  rw [← herases log, hrun, map_ok]

end logged
