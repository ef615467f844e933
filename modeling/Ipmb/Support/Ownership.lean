import Mathlib.Algebra.Order.Group.Multiset

namespace ownership

/-- The blocks that are allocated now, and how many requests there were. A block
is known by the number of the request that it answers. -/
structure Blocks where
  live : Multiset Nat
  asked : Nat
  nodup : live.Nodup
  lt_asked : ∀ p ∈ live, p < asked

variable {ε A B : Type}

/-- Programs that take blocks and give them back, and may end in an error. -/
abbrev Owning (ε : Type) := StateT Blocks (Except ε)

def Blocks.empty : Blocks :=
  { live := 0
    asked := 0
    nodup := Multiset.nodup_zero
    lt_asked := fun p hp => absurd hp (Multiset.notMem_zero p) }

/-- A pointer to a new block, or a null pointer if the request is refused. -/
def malloc (grants : Nat → Bool) : Owning ε (Option Nat) := fun m =>
  if grants m.asked then
    .ok (some m.asked,
      { live := m.asked ::ₘ m.live
        asked := m.asked + 1
        nodup := Multiset.nodup_cons.mpr ⟨fun hmem => Nat.lt_irrefl _ (m.lt_asked _ hmem), m.nodup⟩
        lt_asked := by
          intro p hp
          obtain rfl | hp := Multiset.mem_cons.mp hp
          · exact Nat.lt_succ_self _
          · exact Nat.lt_succ_of_lt (m.lt_asked p hp) })
  else
    .ok (none, { m with asked := m.asked + 1, lt_asked := fun p hp => Nat.lt_succ_of_lt (m.lt_asked p hp) })

/-- Requests one after the other. -/
def mallocs (grants : Nat → Bool) : Nat → Owning ε (List (Option Nat))
  | 0 => pure []
  | k + 1 => do
    let p ← malloc grants
    let ps ← mallocs grants k
    pure (p :: ps)

/-- Giving a block back, which is an error if it is not allocated. A null
pointer has none. -/
def free (e : ε) : Option Nat → Owning ε Unit
  | none => pure ()
  | some p => fun m =>
    if p ∈ m.live then
      .ok ((),
        { m with
          live := m.live.erase p
          nodup := m.nodup.erase p
          lt_asked := fun q hq => m.lt_asked q (Multiset.mem_of_mem_erase hq) })
    else .error e

/-- An error unless the pointer is null or names an allocated block. -/
def check (e : ε) : Option Nat → Owning ε Unit
  | none => pure ()
  | some p => fun m => if p ∈ m.live then .ok ((), m) else .error e

/-- A new block in the place of an old one, which is given back then. If the
request is refused the old one stays. -/
def realloc (e : ε) (grants : Nat → Bool) (p : Option Nat) : Owning ε (Option Nat) := do
  check e p
  let q ← malloc grants
  if q ≠ none then free e p
  pure q

/-- Something that does not touch the blocks. -/
def lift (x : Except ε A) : Owning ε A := fun m => (fun a => (a, m)) <$> x

/-- The blocks that pointers name. -/
def blocks (ps : List (Option Nat)) : Multiset Nat := ↑(ps.filterMap id)

@[simp] theorem blocks_nil : blocks [] = 0 := rfl

@[simp] theorem blocks_none (ps : List (Option Nat)) : blocks (none :: ps) = blocks ps := rfl

@[simp] theorem blocks_some (p : Nat) (ps : List (Option Nat)) : blocks (some p :: ps) = p ::ₘ blocks ps := rfl

@[simp] theorem blocks_append (ps qs : List (Option Nat)) : blocks (ps ++ qs) = blocks ps + blocks qs := by
  rw [blocks, List.filterMap_append]
  rfl

@[simp] theorem blocks_replicate_none (n : Nat) : blocks (List.replicate n none) = 0 := by
  rw [blocks, List.filterMap_replicate_of_none rfl]
  rfl

theorem blocks_cons (p : Option Nat) (ps : List (Option Nat)) : blocks (p :: ps) = blocks [p] + blocks ps :=
  blocks_append [p] ps

/-- One pointer of many and the others. -/
theorem blocks_set {ps : List (Option Nat)} {i : Nat} (hi : i < ps.length) (p : Option Nat) :
    blocks (ps.set i p) = blocks [p] + blocks (ps.eraseIdx i) := by
  rw [List.set_eq_take_append_cons_drop, if_pos hi, List.eraseIdx_eq_take_drop_succ, blocks_append, blocks_append,
    blocks_cons, add_left_comm]

/-- What requests from one on are answered with. -/
def answers (grants : Nat → Bool) : Nat → Nat → List (Option Nat)
  | _, 0 => []
  | n, k + 1 => (if grants n then some n else none) :: answers grants (n + 1) k

theorem length_answers (grants : Nat → Bool) (n k : Nat) : (answers grants n k).length = k := by
  induction k generalizing n with
  | zero => rfl
  | succ k ih => rw [answers, List.length_cons, ih]

theorem none_mem_answers {grants : Nat → Bool} {n k : Nat} :
    none ∈ answers grants n k ↔ ∃ i < k, grants (n + i) = false := by
  induction k generalizing n with
  | zero => simp [answers]
  | succ k ih =>
    rw [answers, List.mem_cons, ih]
    constructor
    · rintro (hfirst | ⟨i, hi, hrefused⟩)
      · refine ⟨0, Nat.succ_pos k, ?_⟩
        by_contra hgranted
        rw [Nat.add_zero, Bool.not_eq_false] at hgranted
        rw [if_pos hgranted] at hfirst
        cases hfirst
      · exact ⟨i + 1, Nat.succ_lt_succ hi, by rw [← hrefused]; congr 1; omega⟩
    · rintro ⟨i, hi, hrefused⟩
      cases i with
      | zero =>
        rw [Nat.add_zero] at hrefused
        exact .inl (by rw [hrefused]; rfl)
      | succ i => exact .inr ⟨i, Nat.lt_of_succ_lt_succ hi, by rw [← hrefused]; congr 1; omega⟩

/-- From a number of requests on and owning some of the blocks, a program ends in
one of the errors, or it leaves the other blocks alone and has a result, a number
of requests and blocks of its own that are as said. -/
def Triple (E : ε → Prop) (n : Nat) (own : Multiset Nat) (prog : Owning ε A)
    (Q : A → Nat → Multiset Nat → Prop) : Prop :=
  ∀ m rest, m.asked = n → m.live = own + rest →
    (∃ e, prog.run m = .error e ∧ E e) ∨
      ∃ a m' own', prog.run m = .ok (a, m') ∧ Q a m'.asked own' ∧ m'.live = own' + rest

section rules
variable {E : ε → Prop} {n : Nat} {own : Multiset Nat} {Q : A → Nat → Multiset Nat → Prop}

theorem Triple.pure {a : A} (h : Q a n own) : Triple E n own (pure a : Owning ε A) Q := by
  rintro m rest rfl hlive
  exact .inr ⟨a, m, own, rfl, h, hlive⟩

theorem Triple.bind {p : Owning ε A} {q : A → Owning ε B} {R : B → Nat → Multiset Nat → Prop}
    (hp : Triple E n own p Q) (hq : ∀ a n' own', Q a n' own' → Triple E n' own' (q a) R) :
    Triple E n own (p >>= q) R := by
  intro m rest hn hlive
  rw [StateT.run_bind]
  obtain ⟨e, hrun, he⟩ | ⟨a, m', own', hrun, hQ, hlive'⟩ := hp m rest hn hlive
  · rw [hrun]
    exact .inl ⟨e, rfl, he⟩
  · rw [hrun]
    exact hq a _ own' hQ m' rest rfl hlive'

theorem Triple.map {p : Owning ε A} {f : A → B} {R : B → Nat → Multiset Nat → Prop}
    (hp : Triple E n own p fun a n' own' => R (f a) n' own') : Triple E n own (f <$> p) R := by
  rw [map_eq_pure_bind]
  exact hp.bind fun _ _ _ hR => Triple.pure hR

theorem Triple.mono {E' : ε → Prop} {p : Owning ε A} {R : A → Nat → Multiset Nat → Prop} (hp : Triple E n own p Q)
    (herror : ∀ e, E e → E' e) (h : ∀ a n' own', Q a n' own' → R a n' own') : Triple E' n own p R := by
  intro m rest hn hlive
  obtain ⟨e, hrun, he⟩ | ⟨a, m', own', hrun, hQ, hlive'⟩ := hp m rest hn hlive
  · exact .inl ⟨e, hrun, herror e he⟩
  · exact .inr ⟨a, m', own', hrun, h _ _ _ hQ, hlive'⟩

/-- Blocks that a program does not own stay as they are. -/
theorem Triple.frame {p : Owning ε A} (hp : Triple E n own p Q) (more : Multiset Nat) :
    Triple E n (own + more) p fun a n' own' => ∃ own₁, Q a n' own₁ ∧ own' = own₁ + more := by
  intro m rest hn hlive
  rw [add_assoc] at hlive
  obtain herror | ⟨a, m', own', hrun, hQ, hlive'⟩ := hp m (more + rest) hn hlive
  · exact .inl herror
  · refine .inr ⟨a, m', own' + more, hrun, ⟨own', hQ, rfl⟩, ?_⟩
    rw [hlive', add_assoc]

theorem Triple.lift {x : Except ε A} (herror : ∀ e, x = .error e → E e) (hok : ∀ a, x = .ok a → Q a n own) :
    Triple E n own (lift x) Q := by
  rintro m rest rfl hlive
  cases x with
  | error e => exact .inl ⟨e, rfl, herror e rfl⟩
  | ok a => exact .inr ⟨a, m, own, rfl, hok a rfl, hlive⟩

theorem Triple.lift_bind_ok {x : Except ε A} {a : A} {q : A → Owning ε B} {R : B → Nat → Multiset Nat → Prop}
    (hx : x = .ok a) (hq : Triple E n own (q a) R) : Triple E n own (ownership.lift x >>= q) R := by
  subst hx
  exact hq

theorem Triple.lift_bind_error {x : Except ε A} {e : ε} {q : A → Owning ε B} {R : B → Nat → Multiset Nat → Prop}
    (hx : x = .error e) (he : E e) : Triple E n own (ownership.lift x >>= q) R := by
  subst hx
  exact fun _ _ _ _ => .inl ⟨e, rfl, he⟩

theorem Triple.malloc {grants : Nat → Bool} {Q : Option Nat → Nat → Multiset Nat → Prop}
    (hrefused : grants n = false → Q none (n + 1) own)
    (hgranted : grants n = true → Q (some n) (n + 1) (n ::ₘ own)) : Triple E n own (malloc grants) Q := by
  rintro m rest rfl hlive
  cases hanswer : grants m.asked with
  | true =>
    refine .inr ⟨_, _, _, if_pos hanswer, hgranted hanswer, ?_⟩
    have hnew : m.asked ::ₘ own + rest = m.asked ::ₘ m.live := by
      rw [hlive, Multiset.cons_add]
    exact hnew.symm
  | false =>
    refine .inr ⟨_, _, _, if_neg (by rw [hanswer]; decide), hrefused hanswer, ?_⟩
    exact hlive

/-- What is owned after a request, however it is answered. -/
theorem Triple.malloc_any {grants : Nat → Bool} :
    Triple E n own (ownership.malloc grants) fun p _ own' =>
      own' = blocks [p] + own ∧ (p = none → grants n = false) :=
  Triple.malloc (fun hrefused => ⟨(zero_add own).symm, fun _ => hrefused⟩) fun _ =>
    ⟨rfl, fun hnone => by cases hnone⟩

theorem Triple.mallocs {grants : Nat → Bool} {k : Nat} {Q : List (Option Nat) → Nat → Multiset Nat → Prop}
    (h : Q (answers grants n k) (n + k) (blocks (answers grants n k) + own)) :
    Triple E n own (mallocs grants k) Q := by
  induction k generalizing n own Q with
  | zero =>
    rw [answers, blocks_nil, zero_add] at h
    exact Triple.pure h
  | succ k ih =>
    refine Triple.bind (Triple.malloc (Q := fun p n' own' => p = (if grants n then some n else none) ∧
      n' = n + 1 ∧ own' = blocks [p] + own) ?_ ?_) ?_
    · intro hrefused
      exact ⟨by rw [hrefused]; rfl, rfl, (zero_add own).symm⟩
    · intro hgranted
      exact ⟨by rw [hgranted]; rfl, rfl, rfl⟩
    rintro p _ _ ⟨hp, rfl, rfl⟩
    refine Triple.bind (ih (Q := fun ps n' own' => ps = answers grants (n + 1) k ∧ n' = n + 1 + k ∧
      own' = blocks ps + (blocks [p] + own)) ⟨rfl, rfl, rfl⟩) ?_
    rintro ps _ _ ⟨hps, rfl, rfl⟩
    apply Triple.pure
    have hanswers : answers grants n (k + 1) = p :: ps := by rw [answers, hp, hps]
    have hown : blocks (p :: ps) + own = blocks ps + (blocks [p] + own) := by
      rw [blocks_cons, add_assoc, add_left_comm]
    have hcount : n + (k + 1) = n + 1 + k := by omega
    rwa [hanswers, hown, hcount] at h

theorem Triple.free {e : ε} {p : Option Nat} {Q : Unit → Nat → Multiset Nat → Prop} (h : Q () n own) :
    Triple E n (blocks [p] + own) (free e p) Q := by
  cases p with
  | none =>
    rw [blocks_none, blocks_nil, zero_add]
    exact Triple.pure h
  | some p =>
    rintro m rest rfl hlive
    rw [blocks_some, blocks_nil, Multiset.cons_zero, Multiset.singleton_add, Multiset.cons_add] at hlive
    have hmem : p ∈ m.live := by
      rw [hlive]
      exact Multiset.mem_cons_self p _
    refine .inr ⟨(), _, own, if_pos hmem, h, ?_⟩
    have herased : m.live.erase p = own + rest := by
      rw [hlive, Multiset.erase_cons_head]
    exact herased

theorem Triple.free_last {e : ε} {p : Option Nat} {Q : Unit → Nat → Multiset Nat → Prop} (h : Q () n 0) :
    Triple E n (blocks [p]) (ownership.free e p) Q := by
  rw [← add_zero (blocks [p])]
  exact Triple.free h

theorem Triple.check {e : ε} {p : Option Nat} {Q : Unit → Nat → Multiset Nat → Prop} (h : Q () n (blocks [p] + own)) :
    Triple E n (blocks [p] + own) (check e p) Q := by
  cases p with
  | none => exact Triple.pure h
  | some p =>
    rintro m rest rfl hlive
    have hmem : p ∈ m.live := by
      rw [hlive, blocks_some, blocks_nil]
      simp
    exact .inr ⟨(), m, _, if_pos hmem, h, hlive⟩

theorem Triple.realloc {e : ε} {grants : Nat → Bool} {p : Option Nat} {Q : Option Nat → Nat → Multiset Nat → Prop}
    (hrefused : grants n = false → Q none (n + 1) (blocks [p] + own))
    (hgranted : grants n = true → Q (some n) (n + 1) (blocks [some n] + own)) :
    Triple E n (blocks [p] + own) (realloc e grants p) Q := by
  refine Triple.bind (Triple.check (Q := fun _ n' own' => n' = n ∧ own' = blocks [p] + own) ⟨rfl, rfl⟩) ?_
  rintro _ n _ ⟨rfl, rfl⟩
  refine Triple.bind (Triple.malloc (Q := fun q n' own' =>
    (grants n = false ∧ q = none ∨ grants n = true ∧ q = some n) ∧ n' = n + 1 ∧ own' = blocks [q] + (blocks [p] + own))
    (fun h => ⟨.inl ⟨h, rfl⟩, rfl, (zero_add _).symm⟩) fun h => ⟨.inr ⟨h, rfl⟩, rfl, rfl⟩) ?_
  rintro _ _ _ ⟨⟨hanswer, rfl⟩ | ⟨hanswer, rfl⟩, rfl, rfl⟩
  · rw [blocks_none, blocks_nil, zero_add]
    exact Triple.pure (hrefused hanswer)
  · rw [add_left_comm]
    refine Triple.bind (Triple.free (Q := fun _ n' own' => n' = n + 1 ∧ own' = blocks [some n] + own) ⟨rfl, rfl⟩) ?_
    rintro _ _ _ ⟨rfl, rfl⟩
    exact Triple.pure (hgranted hanswer)

theorem Triple.realloc_any {e : ε} {grants : Nat → Bool} {p : Option Nat} :
    Triple E n (blocks [p] + own) (ownership.realloc e grants p) fun q _ own' =>
      grants n = false ∧ q = none ∧ own' = blocks [p] + own ∨ ∃ b, q = some b ∧ own' = blocks [some b] + own :=
  Triple.realloc (fun hrefused => .inl ⟨hrefused, rfl, rfl⟩) fun _ => .inr ⟨n, rfl, rfl⟩

/-- The one block that is owned, and how its request was answered. -/
theorem Triple.realloc_cases {e : ε} {grants : Nat → Bool} {p : Option Nat} :
    Triple E n (blocks [p]) (ownership.realloc e grants p) fun q n' own' =>
      grants n = false ∧ q = none ∧ own' = blocks [p] ∨
        grants n = true ∧ q = some n ∧ n' = n + 1 ∧ own' = blocks [some n] := by
  rw [← add_zero (blocks [p])]
  exact Triple.realloc (fun hrefused => .inl ⟨hrefused, rfl, rfl⟩) fun hgranted =>
    .inr ⟨hgranted, rfl, rfl, add_zero _⟩

/-- A loop that gives blocks back. -/
theorem Triple.forM_free {e : ε} {ps : List (Option Nat)} {Q : Unit → Nat → Multiset Nat → Prop} (h : Q () n own) :
    Triple E n (blocks ps + own) (forM ps (ownership.free e)) Q := by
  induction ps generalizing own with
  | nil =>
    rw [blocks_nil, zero_add]
    exact Triple.pure h
  | cons p ps ih =>
    rw [List.forM_cons, blocks_cons, add_assoc]
    refine Triple.bind (Triple.free (Q := fun _ n' own' => n' = n ∧ own' = blocks ps + own) ⟨rfl, rfl⟩) ?_
    rintro _ _ _ ⟨rfl, rfl⟩
    exact ih h

theorem Triple.forM_forM_free {e : ε} {pss : List (List (Option Nat))} {Q : Unit → Nat → Multiset Nat → Prop}
    (h : Q () n own) : Triple E n (blocks pss.flatten + own) (forM pss fun ps => forM ps (ownership.free e)) Q := by
  induction pss generalizing own with
  | nil =>
    rw [List.flatten_nil, blocks_nil, zero_add]
    exact Triple.pure h
  | cons ps pss ih =>
    rw [List.forM_cons, List.flatten_cons, blocks_append, add_assoc]
    refine Triple.bind (Triple.forM_free (Q := fun _ n' own' => n' = n ∧ own' = blocks pss.flatten + own)
      ⟨rfl, rfl⟩) ?_
    rintro _ _ _ ⟨rfl, rfl⟩
    exact ih h

/-- A loop whose rounds keep an invariant of the elements that are done. -/
theorem Triple.foldlM_done {S : Type} {step : S → A → Owning ε S} {I : List A → S → Multiset Nat → Prop}
    {as : List A} {s : S} (done : List A) (h : I done s own)
    (hstep : ∀ front a back, done ++ as = front ++ a :: back → ∀ s n own, I front s own →
      Triple E n own (step s a) fun s' _ own' => I (front ++ [a]) s' own') :
    Triple E n own (as.foldlM step s) fun s' _ own' => I (done ++ as) s' own' := by
  induction as generalizing done s n own with
  | nil =>
    rw [List.append_nil]
    exact Triple.pure h
  | cons a as ih =>
    rw [List.foldlM_cons, List.append_cons]
    refine (hstep done a as rfl s n own h).bind fun s₁ _ _ h₁ => ih (done ++ [a]) h₁ fun front b back hsplit => ?_
    rw [← List.append_cons] at hsplit
    exact hstep front b back hsplit

/-- A loop whose rounds keep an invariant. -/
theorem Triple.foldlM {S : Type} {step : S → A → Owning ε S} {I : S → Multiset Nat → Prop} {as : List A} {s : S}
    (h : I s own) (hstep : ∀ a ∈ as, ∀ s n own, I s own → Triple E n own (step s a) fun s' _ own' => I s' own') :
    Triple E n own (as.foldlM step s) fun s' _ own' => I s' own' := by
  refine Triple.foldlM_done (I := fun _ => I) [] h fun front a back hsplit => hstep a ?_
  rw [List.nil_append] at hsplit
  rw [hsplit]
  exact List.mem_append_right front List.mem_cons_self

end rules

end ownership
