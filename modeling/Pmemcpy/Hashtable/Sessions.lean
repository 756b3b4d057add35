import Pmemcpy.Lib.Run
import Pmemcpy.Hashtable.Operations

/-!
# The hashtable is a map from ids to stacks of values

The abstract model of the storage keeps a stack of values for each id: an
insertion pushes, a `free` pops, reopening the pool does nothing. Every run of
successful calls on ids that fit the id field refines it, with any hash
function, any collisions and any placement of the objects in the pool.
-/

namespace Pmemcpy

open Lib PMDKHashtableStorage

/-- The abstract model: the values stored under each id, the most recent first. -/
abbrev Stacks := Bytes → List Bytes

namespace Stacks

/-- Nothing is stored. -/
def empty : Stacks := fun _ => []

/-- An insertion under `id`. -/
def push (σ : Stacks) (id v : Bytes) : Stacks := Function.update σ id (v :: σ id)

/-- The most recent insertion under `id` is gone. -/
def pop (σ : Stacks) (id : Bytes) : Stacks := Function.update σ id (σ id).tail

/-- Where nothing is stored nothing is popped. -/
theorem pop_of_nil {σ : Stacks} {id : Bytes} (h : σ id = []) : σ.pop id = σ := by
  rw [pop, h, List.tail_nil, ← h, Function.update_eq_self]

end Stacks

/-- What a call does to the abstract model. -/
def Call.stackStep (σ : Stacks) (c : Call) : Stacks :=
  match c with
  | .store id src _ _ => σ.push id src
  | .alloc id _ fill _ _ => σ.push id fill
  | .free id => σ.pop id
  | .reopen => σ

/-- The abstract model after a sequence of calls. -/
def stacksOf (calls : List Call) : Stacks := calls.foldl Call.stackStep Stacks.empty

/-- An insertion is a push, whichever of the two calls it is. -/
theorem Call.stackStep_of_inserts {c : Call} {id src : Bytes} (h : c.inserts = some (id, src))
    (σ : Stacks) : c.stackStep σ = σ.push id src := by
  cases c <;> simp_all [Call.inserts, Call.stackStep]

/-- The ids a client uses: without NUL bytes, and with room in `char id[512]`. -/
structure StorableId (id : Bytes) : Prop where
  nulFree : NulFree id
  room : id.length ≤ PMEMPointer.idRoom

/-- A step of a client's session: a successful call on such an id. -/
def SessionStep (hash : Bytes → ℕ) (s : PMDKHashtableStorage) (c : Call)
    (t : PMDKHashtableStorage) : Prop :=
  c.Succeeds hash s t ∧ ∀ id, c.id? = some id → StorableId id

/-- The storage holds exactly the stacks of the abstract model. -/
structure Represents (hash : Bytes → ℕ) (s : PMDKHashtableStorage) (σ : Stacks) : Prop where
  wf : s.Wf hash
  stack : ∀ id, NulFree id → s.pool.stack hash id = σ id

section Simulation

variable {hash : Bytes → ℕ} {s t : PMDKHashtableStorage} {σ : Stacks} {id : Bytes} {c : Call}
  {calls : List Call}

/-- Ids without NUL bytes are in one bucket and indistinguishable only if they are equal. -/
theorem sameBucket_iff {id' : Bytes} {n : ℕ} (hid : NulFree id) :
    (hash id' % n = hash id % n ∧ SameKey id id') ↔ id' = id := by
  constructor
  · rintro ⟨_, hkey⟩
    exact (hkey.eq hid).symm
  · rintro rfl
    exact ⟨rfl, SameKey.refl _⟩

/-- A created storage represents the empty model. -/
theorem created_represents : Represents hash created Stacks.empty :=
  ⟨created_wf, fun id _ => Pool.stack_empty 1000 id⟩

/-- Every successful call is simulated by its step of the abstract model. -/
theorem Represents.step (h : Represents hash s σ) (hstep : SessionStep hash s c t) :
    Represents hash t (c.stackStep σ) := by
  obtain ⟨hsucc, hid⟩ := hstep
  rcases hsucc.effect with ⟨id, src, a, e, hc, hcid, ha, he, rfl⟩ | ⟨id, x, rfl, hfind, rfl⟩ |
    ⟨rfl, rfl⟩
  · have hidok := hid id hcid
    refine ⟨h.wf.store ha he hidok.room, ?_⟩
    intro id' hid'
    rw [Call.stackStep_of_inserts hc, h.wf.stack_store ha he hidok.room,
      if_congr (sameBucket_iff hidok.nulFree) rfl rfl, h.stack id' hid', Stacks.push]
    by_cases heq : id' = id
    · simp [heq]
    · simp [heq]
  · have hnul := (hid id rfl).nulFree
    cases hs : s.pool.stack hash id with
    | nil =>
      rw [h.wf.findEntry_nil hs] at hfind
      cases hfind
    | cons v rest =>
      obtain ⟨y, l, hnamed, hy, _, _, hrest⟩ := h.wf.findEntry_cons hs
      obtain rfl : y = x := by simpa using hy.symm.trans hfind
      refine ⟨h.wf.free (h.wf.mem_of_named hnamed), ?_⟩
      intro id' hid'
      by_cases heq : id' = id
      · subst heq
        rw [h.wf.stack_free_self hnamed, hrest, Call.stackStep, Stacks.pop, ← h.stack id' hid', hs]
        simp
      · rw [h.wf.stack_free_other hnamed (by rwa [sameBucket_iff hnul]), h.stack id' hid',
          Call.stackStep, Stacks.pop, Function.update_of_ne heq]
  · have hs : ({ s with nbuckets := s.pool.nbuckets } : PMDKHashtableStorage) = s := by
      rw [← h.wf.nbuckets]
    rw [hs]
    exact h

/-- Every session represents the abstract model of its calls. -/
theorem session_represents (hrun : Run (SessionStep hash) created calls s) :
    Represents hash s (stacksOf calls) :=
  hrun.simulates created_represents fun _ _ _ _ h hstep => h.step hstep

/-- A call leaves the stacks of the other ids of the abstract model alone. -/
theorem Call.stackStep_other (h : c.id? ≠ some id) : c.stackStep σ id = σ id := by
  cases c with
  | store id' src block entry =>
    have hne : id ≠ id' := fun heq => h (congrArg some heq.symm)
    simp [Call.stackStep, Stacks.push, Function.update_of_ne hne]
  | alloc id' size fill block entry =>
    have hne : id ≠ id' := fun heq => h (congrArg some heq.symm)
    simp [Call.stackStep, Stacks.push, Function.update_of_ne hne]
  | free id' =>
    have hne : id ≠ id' := fun heq => h (congrArg some heq.symm)
    simp [Call.stackStep, Stacks.pop, Function.update_of_ne hne]
  | reopen => rfl

/-- A step of a session is a step of a run. -/
theorem SessionStep.fitting (h : SessionStep hash s c t) : FittingStep hash s c t := by
  obtain ⟨⟨hposs, _, hexec⟩, hid⟩ := h
  exact ⟨⟨hposs, by rw [hexec]⟩, fun id hcid => (hid id hcid).room⟩

/-- The table after any run of calls is in order. -/
theorem fitting_run_wf (hrun : Run (FittingStep hash) created calls s) : s.Wf hash :=
  hrun.invariant created_wf fun _ _ _ hwf hstep => hwf.step hstep

end Simulation

/-- A `store` with fresh objects is a step of a session. -/
theorem SessionStep.store {hash : Bytes → ℕ} {s : PMDKHashtableStorage} {id src : Bytes}
    {a e : Allocation} (hid : StorableId id) (ha : s.pool.Fresh src.length a)
    (he : (s.pool.pobjAlloc (allocStr src) (some a)).2.Fresh PMEMPointer.structSize e) :
    SessionStep hash s (.store id src (some a) (some e))
      { s with pool := s.storePool hash id src a e } := by
  refine ⟨⟨⟨ha, he⟩, ?_, rfl⟩, ?_⟩
  · rintro block entry ⟨⟩
    exact ⟨rfl, rfl⟩
  · rintro id' ⟨⟩
    exact hid

/-- A `free` that finds an entry is a step of a session. -/
theorem SessionStep.free {hash : Bytes → ℕ} {s : PMDKHashtableStorage} {id : Bytes} {x : ListElem}
    (hid : StorableId id) (hfind : s.findEntry hash id = .ok x) :
    SessionStep hash s (.free id) { s with pool := s.freePool hash id x } := by
  refine ⟨⟨trivial, ?_, free_found hfind⟩, ?_⟩
  · rintro block entry ⟨⟩
  · rintro id' ⟨⟩
    exact hid

/-- Reopening the pool is a step of a session. -/
theorem SessionStep.reopen (hash : Bytes → ℕ) (s : PMDKHashtableStorage) :
    SessionStep hash s .reopen { s with nbuckets := s.pool.nbuckets } := by
  refine ⟨⟨trivial, ?_, rfl⟩, ?_⟩
  · rintro block entry ⟨⟩
  · rintro id ⟨⟩

/-- **The hashtable refines a map from ids to stacks of values, across sessions.**
After every run of successful calls, `load` and `find` return exactly the most
recent insertion under the id that has not been freed, and throw exactly when
there is none; `free` throws in the same case, and otherwise is the step that
removes this insertion; and a call on one id changes nothing that another id
returns. -/
theorem session_refines_stacks (hash : Bytes → ℕ) {calls : List Call} {s : PMDKHashtableStorage}
    (hrun : Run (SessionStep hash) created calls s) {id : Bytes} (hid : StorableId id) :
    s.load hash id = outcome (stacksOf calls id) ∧
      s.findBytes hash id = (outcome (stacksOf calls id)).map (fun v => (v.length, v)) ∧
      (stacksOf calls id = [] → s.free hash id = (.error (.thrown .pmdkCantFindKey), s)) ∧
      (stacksOf calls id ≠ [] → ∃ t, s.free hash id = (.ok (), t) ∧
        Run (SessionStep hash) created (calls ++ [.free id]) t ∧
        t.load hash id = outcome (stacksOf calls id).tail) ∧
      ∀ c t, SessionStep hash s c t → c.id? ≠ some id →
        t.load hash id = s.load hash id ∧ t.findBytes hash id = s.findBytes hash id := by
  have hrep := session_represents hrun
  have hstack := hrep.stack id hid.nulFree
  refine ⟨by rw [hrep.wf.load_eq, hstack], by rw [hrep.wf.findBytes_eq, hstack], ?_, ?_, ?_⟩
  · intro hnil
    exact hrep.wf.free_nil (hstack.trans hnil)
  · intro hne
    obtain ⟨v, rest, hcons⟩ := List.exists_cons_of_ne_nil hne
    obtain ⟨x, l, _, hfind, _⟩ := hrep.wf.findEntry_cons (hstack.trans hcons)
    have hfree := free_found hfind
    have hstep := SessionStep.free hid hfind
    have hnext := hrep.step hstep
    refine ⟨_, hfree, hrun.snoc hstep, ?_⟩
    rw [hnext.wf.load_eq, hnext.stack id hid.nulFree]
    simp [Call.stackStep, Stacks.pop]
  · intro c t hstep hother
    have hnext := hrep.step hstep
    have heq : t.pool.stack hash id = s.pool.stack hash id := by
      rw [hnext.stack id hid.nulFree, hstack, Call.stackStep_other hother]
    rw [hnext.wf.load_eq, hrep.wf.load_eq, hnext.wf.findBytes_eq, hrep.wf.findBytes_eq, heq]
    exact ⟨rfl, rfl⟩

/-! ### Runs with an allocator that counts

The witnesses below, and those of the later modules, place their objects at
increasing offsets of the pool, in zeroed memory. -/

/-- The object at offset `k`, in zeroed memory. -/
def zeroed (k size : ℕ) : Allocation := ⟨⟨1, UInt64.ofNat k⟩, List.replicate size 0⟩

/-- All objects of the pool lie below offset `k`. -/
structure Pool.Below (p : Pool) (k : ℕ) : Prop where
  blocks : ∀ o : PMEMoid, k ≤ o.off.toNat → p.blocks o = none
  entries : ∀ b, ∀ x ∈ p.buckets b, x.oid.off.toNat < k

/-- A pool without objects lies below every offset. -/
theorem Pool.below_empty (n k : ℕ) : (Pool.empty n).Below k where
  blocks _ _ := rfl
  entries b x hx := by simp [Pool.empty] at hx

section Below

variable {p : Pool} {k n : ℕ}

/-- An offset within the pool is read back from its OID. -/
theorem zeroed_off (hk : k < 2 ^ 64) : (zeroed k n).oid.off.toNat = k := by
  simp only [zeroed, UInt64.toNat_ofNat']
  exact Nat.mod_eq_of_lt hk

/-- The next offset is fresh. -/
theorem Pool.Below.fresh (h : p.Below k) (hpos : 0 < k) (hk : k < 2 ^ 64)
    (hsize : n < 2 ^ 64) : p.Fresh n (zeroed k n) where
  size_lt := hsize
  raw := by simp [zeroed]
  not_null := by
    have hoff := zeroed_off (n := n) hk
    rw [PMEMoid.isNull, beq_eq_false_iff_ne]
    intro hzero
    rw [hzero] at hoff
    simp at hoff
    omega
  block := h.blocks _ (zeroed_off hk).ge
  entry b x hx := by
    intro heq
    have hlt := h.entries b x hx
    rw [heq, zeroed_off hk] at hlt
    omega

/-- After the next block has been allocated the pool lies below the offset that follows. -/
theorem Pool.Below.pobjAlloc (h : p.Below k) (hk : k < 2 ^ 64) (constructor : Bytes → Bytes) :
    (p.pobjAlloc constructor (some (zeroed k n))).2.Below (k + 1) where
  blocks o ho := by
    have hne : o ≠ (zeroed k n).oid := by
      rintro rfl
      rw [zeroed_off hk] at ho
      omega
    simp [Pool.pobjAlloc, Function.update_of_ne hne, h.blocks o (by omega)]
  entries b x hx := Nat.lt_succ_of_lt (h.entries b x hx)

/-- After the next entry has been inserted the pool lies below the offset that follows. -/
theorem Pool.Below.insertEntry (h : p.Below k) (hk : k < 2 ^ 64) (b : ℕ) (info : PMEMListArgs) :
    (p.insertEntry b info (zeroed k n)).Below (k + 1) where
  blocks o ho := h.blocks o (by omega)
  entries b' x hx := by
    rcases Pool.mem_insertEntry.mp hx with ⟨_, rfl⟩ | hx
    · rw [zeroed_off hk]
      omega
    · exact Nat.lt_succ_of_lt (h.entries b' x hx)

/-- The storage after a `store` whose objects are the next two. -/
def storedAt (hash : Bytes → ℕ) (s : PMDKHashtableStorage) (id src : Bytes) (k : ℕ) :
    PMDKHashtableStorage :=
  { s with pool :=
    s.storePool hash id src (zeroed k src.length) (zeroed (k + 1) PMEMPointer.structSize) }

/-- The `store` whose objects are the next two. -/
def storeAt (id src : Bytes) (k : ℕ) : Call :=
  .store id src (some (zeroed k src.length)) (some (zeroed (k + 1) PMEMPointer.structSize))

/-- With objects at increasing offsets, every `store` is a step of a session. -/
theorem SessionStep.storeAt {hash : Bytes → ℕ} {s : PMDKHashtableStorage} {id src : Bytes}
    (h : s.pool.Below k) (hid : StorableId id) (hpos : 0 < k) (hk : k + 1 < 2 ^ 64)
    (hsrc : src.length < 2 ^ 64) :
    SessionStep hash s (storeAt id src k) (storedAt hash s id src k) ∧
      (storedAt hash s id src k).pool.Below (k + 2) := by
  have halloc := h.pobjAlloc (n := src.length) (by omega) (allocStr src)
  have hentry := halloc.fresh (n := PMEMPointer.structSize) (by omega) hk (by decide)
  exact ⟨SessionStep.store hid (h.fresh hpos (by omega) hsrc) hentry, halloc.insertEntry hk _ _⟩

end Below

/-- The id `a` can be stored. -/
theorem storable_a : StorableId [97] := ⟨by decide, by decide⟩

/-- The first `store`: one byte under the id `a`, in a table with one chain for all ids. -/
theorem firstStore (v : UInt8) :
    SessionStep (fun _ => 0) created (storeAt [97] [v] 1)
        (storedAt (fun _ => 0) created [97] [v] 1) ∧
      (storedAt (fun _ => 0) created [97] [v] 1).pool.Below 3 :=
  SessionStep.storeAt (Pool.below_empty 1000 1) storable_a (by decide) (by decide) (by simp)

/-- The first `store` is read back after the pool has been closed and opened again. -/
theorem session_refines_stacks_reopened :
    ∃ s, Run (SessionStep fun _ => 0) created
        [storeAt [97] [7] 1, .reopen] s ∧
      s.load (fun _ => 0) [97] = .ok [7] := by
  have hrun := (Run.single (firstStore 7).1).snoc (SessionStep.reopen _ _)
  exact ⟨_, hrun, (session_refines_stacks _ hrun storable_a).1⟩

end Pmemcpy
