import Ipmb.ContainerMemory

open fallible ownership
open ipmb.session_tracker ipmb.checkpoint_store ipmb.event_log ipmb.match_table ipmb.rule_compiler
open ipmb.grown_array ipmb.containers ipmb.container_memory

namespace ipmb.container_runs

/-- One of each of the containers with their blocks, and the blocks that no pointer
names any more. The entries of the tracker have a heap of their own. -/
structure memory_state where
  tracker : ipmb_session_tracker_t
  store : Grown ipmb_checkpoint_state_t
  log : Grown ipmb_event_snapshot_t
  table : Grown ipmb_match_rule_t
  storage : Grown (List UInt8)
  lost : List (Option Nat)

def init : memory_state where
  tracker := ipmb_session_tracker_init
  store := .empty
  log := .empty
  table := .empty
  storage := .empty
  lost := []

/-- The containers as values. -/
def memory_state.contents (s : memory_state) : container_state where
  tracker := s.tracker
  store := store_of s.store
  log := log_of s.log
  table := table_of s.table
  storage := storage_of s.storage

def memory_state.pointers (s : memory_state) : List (Option Nat) :=
  s.store.pointers ++ (s.log.pointers ++ (s.table.pointers ++ s.storage.pointers))

inductive call where
  | upsert (alloc : Allocator) (session_id peer_id : UInt32) (payload : List UInt8)
  | terminate (session_id : UInt32)
  | append (session_id : UInt32) (payload : List UInt8)
  | migrate (src_session dst_session : UInt32)
  | snapshot
  | add (name : List UInt8) (priority : Int32) (code : ipmb_rule_bytecode_t)
  | put (data : List UInt8)

/-- Only a migration can lose a block, or end in a fault. -/
def call.migrates : call → Bool
  | .migrate _ _ => true
  | _ => false

/-- One call, whatever its status is. -/
def step (grants moves : Nat → Bool) (s : memory_state) : call → Owning Fault memory_state
  | .upsert alloc session_id peer_id payload =>
    (fun r => { s with tracker := r.2 }) <$> lift (ipmb_session_upsert alloc s.tracker session_id peer_id payload)
  | .terminate session_id =>
    (fun r => { s with tracker := r.2 }) <$> lift (ipmb_session_terminate s.tracker session_id)
  | .append session_id payload =>
    (fun r => { s with store := r.2 }) <$> checkpoint_append grants moves s.store session_id payload
  | .migrate src_session dst_session =>
    (fun r => { s with store := r.2.1, lost := s.lost ++ [r.2.2] }) <$>
      checkpoint_migrate grants moves s.store src_session dst_session
  | .snapshot => (fun r => { s with log := r.2 }) <$> event_log_snapshot grants moves s.log s.tracker
  | .add name priority code =>
    (fun r => { s with table := r.2 }) <$> match_table_add grants moves s.table name priority code
  | .put data => (fun r => { s with storage := r.2.1 }) <$> storage_put grants moves s.storage data

/-- A call on values that a call of a run can be: with the call's own arguments, and
with no request refused and nothing moved that could not be. -/
inductive Performs (grants moves : Nat → Bool) : call → mutation → Prop where
  | upsert (alloc : Allocator) (session_id peer_id : UInt32) (payload : List UInt8) :
      Performs grants moves (.upsert alloc session_id peer_id payload) (.upsert alloc session_id peer_id payload)
  | terminate (session_id : UInt32) : Performs grants moves (.terminate session_id) (.terminate session_id)
  | append {growth : Growth} {granted : Bool} (session_id : UInt32) (payload : List UInt8)
      (hgrowth : Grows grants moves growth) (hgranted : granted = false → ∃ j, grants j = false) :
      Performs grants moves (.append session_id payload) (.append growth granted session_id payload)
  | migrate {growth : Growth} {granted : Bool} (src_session dst_session : UInt32)
      (hgrowth : Grows grants moves growth) (hgranted : granted = false → ∃ j, grants j = false) :
      Performs grants moves (.migrate src_session dst_session) (.migrate growth granted src_session dst_session)
  | snapshot {alloc : Allocator} (halloc : Answers grants alloc) : Performs grants moves .snapshot (.snapshot alloc)
  | add {alloc : Allocator} (name : List UInt8) (priority : Int32) (code : ipmb_rule_bytecode_t)
      (halloc : Answers grants alloc) :
      Performs grants moves (.add name priority code) (.add alloc name priority code)
  | put {alloc : Allocator} (data : List UInt8) (halloc : Answers grants alloc) :
      Performs grants moves (.put data) (.put alloc data)

/-- A run of calls on values. -/
def run_values (muts : List mutation) : Except Fault container_state :=
  muts.foldlM (fun s m => Prod.snd <$> mutate s m) containers.init

/-- A call on the containers with their blocks is the same call on their values, and
what is owned afterwards are the blocks that pointers name and those lost. -/
structure Followed (grants moves : Nat → Bool) (s : memory_state) (c : call) (s' : memory_state)
    (own : Multiset Nat) : Prop where
  own_eq : own = blocks s'.pointers + blocks s'.lost
  mutated : ∃ m rc, Performs grants moves c m ∧ mutate s.contents m = .ok (rc, s'.contents)
  kept : c.migrates = false → s'.lost = s.lost

section values
variable {grants moves : Nat → Bool}

theorem answers_granted : Answers grants fun _ => true := by
  intro i hi
  cases hi

theorem nothing_refused (h : true = false) : ∃ j, grants j = false := by cases h

/-- Every call is one on values, if only one that is granted everything. -/
theorem exists_performs (grants moves : Nat → Bool) (c : call) : ∃ m, Performs grants moves c m := by
  cases c with
  | upsert alloc session_id peer_id payload => exact ⟨_, .upsert alloc session_id peer_id payload⟩
  | terminate session_id => exact ⟨_, .terminate session_id⟩
  | append session_id payload => exact ⟨_, .append session_id payload grows_inPlace nothing_refused⟩
  | migrate src_session dst_session => exact ⟨_, .migrate src_session dst_session grows_inPlace nothing_refused⟩
  | snapshot => exact ⟨_, .snapshot answers_granted⟩
  | add name priority code => exact ⟨_, .add name priority code answers_granted⟩
  | put data => exact ⟨_, .put data answers_granted⟩

theorem exists_forall₂_performs (grants moves : Nat → Bool) (calls : List call) :
    ∃ muts, List.Forall₂ (Performs grants moves) calls muts := by
  induction calls with
  | nil => exact ⟨[], .nil⟩
  | cons c calls ih =>
    obtain ⟨m, hm⟩ := exists_performs grants moves c
    obtain ⟨muts, hmuts⟩ := ih
    exact ⟨m :: muts, .cons hm hmuts⟩

/-- Every buffer of the store has its item's whole capacity. -/
def Roomy (s : container_state) : Prop := ∀ it ∈ s.store.items, it.capacity ≤ it.buf.length

theorem roomy_append_item {it : ipmb_checkpoint_state_t} (h : it.capacity ≤ it.buf.length) (realloc_buf : Bool)
    (payload : List UInt8) :
    ∃ rc it', append_item realloc_buf it payload = .ok (rc, it') ∧ it'.capacity ≤ it'.buf.length := by
  have hruns : payload = [] ∨ ¬(it.buf = [] ∧ it.used + payload.length ≤ it.capacity) := by
    rw [or_iff_not_imp_left]
    rintro hpayload ⟨hbuf, hroom⟩
    have hlength := List.length_pos_of_ne_nil hpayload
    rw [hbuf, List.length_nil] at h
    omega
  obtain ⟨⟨rc, it'⟩, hitem⟩ := (append_item_runs_iff (fun _ => h) realloc_buf payload).mpr hruns
  refine ⟨rc, it', hitem, ?_⟩
  obtain ⟨-, -, rfl⟩ | ⟨-, -, -, ⟨-, hcapacity, hlength⟩ | ⟨-, hcapacity⟩⟩ := append_item_cases hitem
  · exact h
  · rw [hcapacity, hlength]
    exact h
  · exact Nat.le_of_eq hcapacity

/-- Without a migration a call goes through, and leaves the buffers as they should be. -/
theorem Roomy.mutate {s : container_state} (hroomy : Roomy s) (hvalid : Valid s) {c : call} {m : mutation}
    (hm : Performs grants moves c m) (hstays : c.migrates = false) :
    ∃ rc s', mutate s m = .ok (rc, s') ∧ Roomy s' := by
  obtain ⟨es, htracks⟩ := hvalid.tracks
  cases hm with
  | upsert alloc session_id peer_id payload =>
    obtain ⟨tracker', hupsert, -⟩ := ipmb_session_upsert_with_spec alloc htracks session_id peer_id payload
    exact ⟨_, { s with tracker := tracker' }, by rw [containers.mutate, hupsert]; rfl, hroomy⟩
  | terminate session_id =>
    obtain ⟨tracker', hterminate, -⟩ := ipmb_session_terminate_spec htracks session_id
    exact ⟨_, { s with tracker := tracker' }, by rw [containers.mutate, hterminate]; rfl, hroomy⟩
  | @append growth granted session_id payload _ _ =>
    have hcurrent : (current s.store session_id).capacity ≤ (current s.store session_id).buf.length :=
      current_induction (fun _ => Nat.le_refl 0) hroomy session_id
    obtain ⟨rc, it, hitem, hit⟩ := roomy_append_item hcurrent granted payload
    have hcases := ipmb_checkpoint_append_cases hvalid.sound session_id payload growth granted
    generalize happend : ipmb_checkpoint_append growth granted s.store session_id payload = r at hcases
    cases hcases with
    | full => exact ⟨_, s, by rw [containers.mutate, happend]; rfl, hroomy⟩
    | faulted hfault =>
      rw [hitem] at hfault
      cases hfault
    | @appended _ _ store' hitem' hupdated =>
      rw [hitem] at hitem'
      cases hitem'
      refine ⟨rc, { s with store := store' }, by rw [containers.mutate, happend]; rfl, fun it' hit' => ?_⟩
      obtain rfl | hold := hupdated.mem it' hit'
      · exact hit
      · exact hroomy it' hold
  | migrate src_session dst_session => cases hstays
  | snapshot =>
    rename_i alloc _
    obtain ⟨⟨rc, log⟩, hsnapshot⟩ : ∃ r, ipmb_event_log_snapshot alloc s.log s.tracker = .ok r :=
      ⟨_, ipmb_event_log_snapshot_with_spec alloc htracks s.log⟩
    exact ⟨rc, { s with log }, by rw [containers.mutate, hsnapshot]; rfl, hroomy⟩
  | add name priority code => exact ⟨_, _, rfl, hroomy⟩
  | put data => exact ⟨_, _, rfl, hroomy⟩

end values

section step
variable {grants moves : Nat → Bool} {n : Nat}

theorem blocks_pointers (s : memory_state) :
    blocks s.pointers =
      blocks s.store.pointers + (blocks s.log.pointers + (blocks s.table.pointers + blocks s.storage.pointers)) := by
  rw [memory_state.pointers, blocks_append, blocks_append, blocks_append]

/-- The blocks of the store and the rest. -/
theorem own_store (s : memory_state) :
    blocks s.pointers + blocks s.lost = blocks s.store.pointers +
      (blocks s.log.pointers + (blocks s.table.pointers + blocks s.storage.pointers) + blocks s.lost) := by
  rw [blocks_pointers, add_assoc]

/-- The blocks of the log and the rest. -/
theorem own_log (s : memory_state) :
    blocks s.pointers + blocks s.lost = blocks s.log.pointers +
      (blocks s.store.pointers + (blocks s.table.pointers + blocks s.storage.pointers) + blocks s.lost) := by
  rw [blocks_pointers]
  ac_rfl

/-- The blocks of the table and the rest. -/
theorem own_table (s : memory_state) :
    blocks s.pointers + blocks s.lost = blocks s.table.pointers +
      (blocks s.store.pointers + (blocks s.log.pointers + blocks s.storage.pointers) + blocks s.lost) := by
  rw [blocks_pointers]
  ac_rfl

/-- The blocks of the storage and the rest. -/
theorem own_storage (s : memory_state) :
    blocks s.pointers + blocks s.lost = blocks s.storage.pointers +
      (blocks s.store.pointers + (blocks s.log.pointers + blocks s.table.pointers) + blocks s.lost) := by
  rw [blocks_pointers]
  ac_rfl

theorem step_spec (s : memory_state) (c : call) :
    Triple (fun e => ∃ m, Performs grants moves c m ∧ mutate s.contents m = .error e) n
      (blocks s.pointers + blocks s.lost) (step grants moves s c) fun s' _ own =>
        Followed grants moves s c s' own := by
  cases c with
  | upsert alloc session_id peer_id payload =>
    refine Triple.map (Triple.lift (fun e he => ?_) fun r hr => ?_)
    · exact ⟨_, .upsert alloc session_id peer_id payload, by rw [mutate, memory_state.contents, he]; rfl⟩
    · exact ⟨rfl, ⟨_, r.1, .upsert alloc session_id peer_id payload, by
        rw [mutate, memory_state.contents, hr]; rfl⟩, fun _ => rfl⟩
  | terminate session_id =>
    refine Triple.map (Triple.lift (fun e he => ?_) fun r hr => ?_)
    · exact ⟨_, .terminate session_id, by rw [mutate, memory_state.contents, he]; rfl⟩
    · exact ⟨rfl, ⟨_, r.1, .terminate session_id, by rw [mutate, memory_state.contents, hr]; rfl⟩, fun _ => rfl⟩
  | append session_id payload =>
    rw [own_store]
    refine Triple.map (((checkpoint_append_spec s.store session_id payload).frame _).mono ?_ ?_)
    · rintro e ⟨growth, hgrowth, he⟩
      exact ⟨_, .append session_id payload hgrowth nothing_refused, by rw [mutate, memory_state.contents, he]; rfl⟩
    · rintro r _ _ ⟨_, ⟨rfl, growth, granted, hgrowth, hgranted, hr⟩, rfl⟩
      exact ⟨(own_store { s with store := r.2 }).symm, ⟨_, r.1, .append session_id payload hgrowth hgranted, by
        rw [mutate, memory_state.contents, hr]; rfl⟩, fun _ => rfl⟩
  | migrate src_session dst_session =>
    rw [own_store]
    refine Triple.map (((checkpoint_migrate_spec s.store src_session dst_session).frame _).mono ?_ ?_)
    · rintro e ⟨growth, hgrowth, he⟩
      exact ⟨_, .migrate src_session dst_session hgrowth nothing_refused, by
        rw [mutate, memory_state.contents, he]; rfl⟩
    · rintro r _ _ ⟨_, ⟨rfl, growth, granted, hgrowth, hgranted, hr⟩, rfl⟩
      refine ⟨?_, ⟨_, r.1, .migrate src_session dst_session hgrowth hgranted, by
        rw [mutate, memory_state.contents, hr]; rfl⟩, fun hstays => by cases hstays⟩
      rw [own_store, blocks_append]
      ac_rfl
  | snapshot =>
    rw [own_log]
    refine Triple.map (((event_log_snapshot_spec s.log s.tracker).frame _).mono ?_ ?_)
    · rintro e ⟨alloc, halloc, he⟩
      exact ⟨_, .snapshot halloc, by rw [mutate, memory_state.contents, he]; rfl⟩
    · rintro r _ _ ⟨_, ⟨rfl, alloc, halloc, hr⟩, rfl⟩
      exact ⟨(own_log { s with log := r.2 }).symm, ⟨_, r.1, .snapshot halloc, by
        rw [mutate, memory_state.contents, hr]; rfl⟩, fun _ => rfl⟩
  | add name priority code =>
    rw [own_table]
    refine Triple.map (((match_table_add_spec s.table name priority code).frame _).mono (fun _ h => h.elim) ?_)
    rintro r _ _ ⟨_, ⟨rfl, -, alloc, halloc, hr⟩, rfl⟩
    exact ⟨(own_table { s with table := r.2 }).symm, ⟨_, r.1, .add name priority code halloc, by
      rw [mutate, memory_state.contents, hr]; rfl⟩, fun _ => rfl⟩
  | put data =>
    rw [own_storage]
    refine Triple.map (((storage_put_spec s.storage data).frame _).mono (fun _ h => h.elim) ?_)
    rintro r _ _ ⟨_, ⟨rfl, alloc, halloc, hr⟩, rfl⟩
    exact ⟨(own_storage { s with storage := r.2.1 }).symm, ⟨_, r.1, .put data halloc, by
      rw [mutate, memory_state.contents, hr]; rfl⟩, fun _ => rfl⟩

end step

def run (grants moves : Nat → Bool) (calls : List call) : Owning Fault memory_state :=
  calls.foldlM (step grants moves) init

/-- The containers are released one after the other. -/
def release_all (s : memory_state) : Owning Fault Unit := do
  let _ ← s.store.release
  let _ ← s.log.release
  let _ ← s.table.release
  let _ ← s.storage.release
  pure ()

/-- What holds after some calls of a run. -/
structure Kept (grants moves : Nat → Bool) (done : List call) (s : memory_state) (own : Multiset Nat) : Prop where
  own_eq : own = blocks s.pointers + blocks s.lost
  contents : ∃ muts, List.Forall₂ (Performs grants moves) done muts ∧ run_values muts = .ok s.contents
  unmigrated : (∀ c ∈ done, c.migrates = false) → s.lost = [] ∧ Roomy s.contents

section run
variable {grants moves : Nat → Bool} {done : List call} {s s' : memory_state} {own own' : Multiset Nat} {c : call}

theorem Kept.valid (h : Kept grants moves done s own) : Valid s.contents := by
  obtain ⟨muts, -, hrun⟩ := h.contents
  exact containers.Reachable.valid ⟨muts, hrun⟩

theorem run_values_concat {muts : List mutation} {t : container_state} (h : run_values muts = .ok t) (m : mutation) :
    run_values (muts ++ [m]) = Prod.snd <$> mutate t m := by
  rw [run_values, List.foldlM_append, ← run_values, h, ok_bind, List.foldlM_cons]
  cases mutate t m <;> rfl

theorem Kept.step (h : Kept grants moves done s own) (hfollowed : Followed grants moves s c s' own') :
    Kept grants moves (done ++ [c]) s' own' := by
  obtain ⟨m, rc, hm, hmutate⟩ := hfollowed.mutated
  refine ⟨hfollowed.own_eq, ?_, fun hnone => ?_⟩
  · obtain ⟨muts, hmuts, hrun⟩ := h.contents
    refine ⟨muts ++ [m], List.rel_append hmuts (.cons hm .nil), ?_⟩
    rw [run_values_concat hrun, hmutate]
    rfl
  · have hc : c.migrates = false := hnone c (List.mem_append_right done List.mem_cons_self)
    obtain ⟨hlost, hroomy⟩ := h.unmigrated fun c hc => hnone c (List.mem_append_left _ hc)
    obtain ⟨_, _, hrun, hroomy'⟩ := hroomy.mutate h.valid hm hc
    rw [hmutate] at hrun
    cases hrun
    exact ⟨(hfollowed.kept hc).trans hlost, hroomy'⟩

/-- A run that a call ends is one on values that the call ends, and the call migrates
or an earlier one did. -/
theorem Kept.error (h : Kept grants moves done s own) {back : List call} {m : mutation} {e : Fault}
    (hm : Performs grants moves c m) (he : mutate s.contents m = .error e) :
    (∃ c' ∈ done ++ c :: back, c'.migrates = true) ∧
      ∃ muts, List.Forall₂ (Performs grants moves) (done ++ c :: back) muts ∧ run_values muts = .error e := by
  constructor
  · by_contra hnone
    have hstays : ∀ c' ∈ done ++ c :: back, c'.migrates = false := fun c' hc' =>
      Bool.eq_false_iff.mpr fun hmigrates => hnone ⟨c', hc', hmigrates⟩
    obtain ⟨-, hroomy⟩ := h.unmigrated fun c' hc' => hstays c' (List.mem_append_left _ hc')
    obtain ⟨_, _, hrun, -⟩ := hroomy.mutate h.valid hm
      (hstays c (List.mem_append_right done List.mem_cons_self))
    rw [hrun] at he
    cases he
  · obtain ⟨muts, hmuts, hrun⟩ := h.contents
    obtain ⟨rest, hrest⟩ := exists_forall₂_performs grants moves back
    refine ⟨muts ++ m :: rest, List.rel_append hmuts (.cons hm hrest), ?_⟩
    rw [run_values, List.foldlM_append, ← run_values, hrun, ok_bind, List.foldlM_cons, he]
    rfl

end run

theorem release_all_spec {E : Fault → Prop} {n : Nat} (s : memory_state) :
    Triple E n (blocks s.pointers + blocks s.lost) (release_all s) fun _ _ own => own = blocks s.lost := by
  rw [blocks_pointers, add_assoc, add_assoc, add_assoc]
  refine Triple.bind (Grown.release_rule (Q := fun _ _ own => own = blocks s.log.pointers +
    (blocks s.table.pointers + (blocks s.storage.pointers + blocks s.lost))) rfl) ?_
  rintro _ _ _ rfl
  refine Triple.bind (Grown.release_rule (Q := fun _ _ own => own = blocks s.table.pointers +
    (blocks s.storage.pointers + blocks s.lost)) rfl) ?_
  rintro _ _ _ rfl
  refine Triple.bind (Grown.release_rule (Q := fun _ _ own => own = blocks s.storage.pointers + blocks s.lost) rfl) ?_
  rintro _ _ _ rfl
  exact Triple.bind (Grown.release_rule (Q := fun _ _ own => own = blocks s.lost) rfl) fun _ _ _ h => Triple.pure h

end ipmb.container_runs
