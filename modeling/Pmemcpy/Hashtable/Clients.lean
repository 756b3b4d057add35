import Pmemcpy.Hashtable.Sessions
import Mathlib.Logic.Function.Basic

/-!
# Clients that share one storage

Nothing in the storage keeps its callers apart, and the benchmark with OpenMP
threads shares one object. Here any number of clients take turns, one PMDK call
or one step of the walk in `_find` at a time. The abstract account of a client
is the sequence of calls it has completed, each with the reply that the stacks of
its own calls determine.
-/

namespace Pmemcpy

open Lib PMDKHashtableStorage

/-- What an entry is looked up for. -/
inductive Lookup where
  | find
  | load
  | free
  deriving DecidableEq, Repr

/-- A call of a client. -/
inductive Request where
  | store (id src : Bytes)
  | lookup (use : Lookup) (id : Bytes)
  deriving DecidableEq, Repr

/-- The id a request is about. -/
def Request.id : Request → Bytes
  | store id _ => id
  | lookup _ id => id

/-- What a call returns: nothing, the size of a buffer and the bytes behind it, or a copy. -/
inductive Value where
  | done
  | buffer (size : ℕ) (bytes : Bytes)
  | copy (bytes : Bytes)
  deriving DecidableEq, Repr

/-- A call that has returned or thrown, and whether PMDK served its two allocations. -/
structure Completed where
  request : Request
  block : Bool
  entry : Bool
  reply : Except Failure Value

/-- A completed call without its reply. -/
def Completed.asked (c : Completed) : Request × Bool × Bool := (c.request, c.block, c.entry)

/-! ### Calls one after the other -/

namespace Request

/-- What a request does when nobody else uses the storage. -/
def exec (hash : Bytes → ℕ) (s : PMDKHashtableStorage) (block entry : Option Allocation) :
    Request → Except Failure Value × PMDKHashtableStorage
  | store id src =>
    let (result, t) := s.store hash id src block entry
    (result.map fun _ => .done, t)
  | lookup .find id => ((s.findBytes hash id).map fun (size, v) => .buffer size v, s)
  | lookup .load id => ((s.load hash id).map .copy, s)
  | lookup .free id =>
    let (result, t) := s.free hash id
    (result.map fun _ => .done, t)

/-- The answers are ones PMDK can give. -/
def Possible (s : PMDKHashtableStorage) (block entry : Option Allocation) : Request → Prop
  | store id src => (Call.store id src block entry).Possible s
  | lookup _ _ => block = none ∧ entry = none

/-- The reply that the stacks of a client determine, and what the request makes of them. -/
def spec (block entry : Bool) (τ : Stacks) : Request → Except Failure Value × Stacks
  | store id src =>
    if block then (.ok .done, if entry then τ.push id src else τ)
    else (.error (.thrown .pmdkCantAllocateStr), τ)
  | lookup .find id => ((outcome (τ id)).map fun v => .buffer v.length v, τ)
  | lookup .load id => ((outcome (τ id)).map .copy, τ)
  | lookup .free id => ((outcome (τ id)).map fun _ => .done, τ.pop id)

end Request

/-- A step of a client that has the storage to itself: one whole call. -/
def SoloStep (hash : Bytes → ℕ) (s : PMDKHashtableStorage) (c : Completed)
    (t : PMDKHashtableStorage) : Prop :=
  ∃ block entry, block.isSome = c.block ∧ entry.isSome = c.entry ∧
    c.request.Possible s block entry ∧ c.request.exec hash s block entry = (c.reply, t)

/-- A step of the abstract account. -/
def SpecStep (τ : Stacks) (c : Completed) (τ' : Stacks) : Prop :=
  c.request.spec c.block c.entry τ = (c.reply, τ')

/-! ### Calls step by step -/

/-- Where `list_entry` of a walk points: to an entry, or to one that has been
removed since the walk got there. -/
inductive Cursor where
  | on (oid : PMEMoid)
  | dangling
  deriving DecidableEq, Repr

/-- How far a client is with its call. -/
inductive Pc where
  | idle
  /-- `POBJ_ALLOC` is done, the list entry is not. -/
  | inserting (id src : Bytes) (data : PMEMoid)
  /-- In the loop of `_find`. -/
  | walking (use : Lookup) (id : Bytes) (cursor : Cursor)
  /-- `_find` has returned the entry at `oid`. -/
  | found (use : Lookup) (id : Bytes) (oid : PMEMoid)
  /-- `POBJ_FREE` is done, the entry at `oid` is still linked. -/
  | removing (id : Bytes) (oid : PMEMoid)
  deriving DecidableEq, Repr

namespace Pc

/-- The data block that an insertion has ready. -/
def pending : Pc → Option PMEMoid
  | inserting _ _ data => some data
  | _ => none

/-- The entry that the next step removes. -/
def removes : Pc → Option PMEMoid
  | removing _ oid => some oid
  | _ => none

/-- The entry that a walk stands on. -/
def standsOn : Pc → Option PMEMoid
  | walking _ _ (.on oid) => some oid
  | _ => none

/-- What the removal of an entry makes of another client. -/
def afterRemoval (oid : PMEMoid) (pc : Pc) : Pc :=
  match pc with
  | walking use id (.on oid') => if oid' = oid then walking use id .dangling else pc
  | _ => pc

/-- The size of the object that the next step asks for. -/
def wants : Pc → Option ℕ
  | inserting _ _ _ => some PMEMPointer.structSize
  | _ => none

end Pc

/-- What a step leads to: another step of the same call, or its end. -/
inductive Progress where
  | next (pc : Pc)
  | returns (c : Completed)

/-- The end of a lookup. -/
def Lookup.returns (use : Lookup) (id : Bytes) (reply : Except Failure Value) : Progress :=
  .returns ⟨.lookup use id, false, false, reply⟩

/-- The loop of `_find`, arrived at what is left of the list. -/
def walkTo (use : Lookup) (id : Bytes) : List ListElem → Progress
  | [] => use.returns id (.error (.thrown .pmdkCantFindKey))
  | x :: _ => .next (.walking use id (.on x.oid))

/-- The list of a bucket from the entry at an OID on. -/
def Pool.entriesFrom (p : Pool) (bucket : ℕ) (oid : PMEMoid) : List ListElem :=
  (p.buckets bucket).dropWhile fun x => x.oid ≠ oid

/-- The size of the object that the first step of a request asks for. -/
def Request.wants : Request → Option ℕ
  | store _ src => some src.length
  | lookup _ _ => none

section Steps

variable (hash : Bytes → ℕ) (s : PMDKHashtableStorage) (answer : Option Allocation)

/-- The first step of a call: `POBJ_ALLOC`, or reading the head of the bucket. -/
def Request.begin : Request → PMDKHashtableStorage × Progress
  | store id src =>
    match stralloc s.pool (allocStr src) answer with
    | (.error e, p) => ({ s with pool := p }, .returns ⟨.store id src, false, false, .error e⟩)
    | (.ok data, p) => ({ s with pool := p }, .next (.inserting id src data))
  | lookup use id => (s, walkTo use id (s.pool.buckets (s.hashfun hash id)))

/-- What a lookup does with the entry it found. -/
def Lookup.finish (id : Bytes) (x : ListElem) : Lookup → PMDKHashtableStorage × Progress
  | find =>
    (s, find.returns id ((s.pool.read ⟨x.entry.data, x.entry.len⟩).map (.buffer x.entry.len)))
  | load => (s, load.returns id ((s.pool.read ⟨x.entry.data, x.entry.len⟩).map .copy))
  | free =>
    ({ s with pool := s.pool.pobjFree (s.hashfun hash id) x }, .next (.removing id x.oid))

/-- The next step of a call. Reading an entry that has been removed is undefined. -/
def Pc.step : Pc → PMDKHashtableStorage × Progress
  | idle => (s, .next .idle)
  | inserting id src data =>
    let info : PMEMListArgs := ⟨id.length, id, src.length, data⟩
    let (oid, p) := s.pool.pobjListInsertNewHead (s.hashfun hash id) (add info) answer
    ({ s with pool := p }, .returns ⟨.store id src, true, oid.isSome, .ok .done⟩)
  | walking use id .dangling => (s, use.returns id (.error .undefined))
  | walking use id (.on oid) =>
    match s.pool.entriesFrom (s.hashfun hash id) oid with
    | [] => (s, use.returns id (.error .undefined))
    | x :: rest =>
      if x.entry.isNamed id then (s, .next (.found use id oid)) else (s, walkTo use id rest)
  | found use id oid =>
    match s.pool.entriesFrom (s.hashfun hash id) oid with
    | [] => (s, use.returns id (.error .undefined))
    | x :: _ => use.finish hash s id x
  | removing id oid =>
    ({ s with pool := s.pool.pobjListRemoveFree (s.hashfun hash id) oid },
      Lookup.free.returns id (.ok .done))

end Steps

/-! ### The system of all clients -/

/-- A client: the call it is in, and the calls it has completed. -/
structure Client where
  pc : Pc
  log : List Completed

/-- A client after a step of its own. -/
def Client.advance (c : Client) : Progress → Client
  | .next pc => ⟨pc, c.log⟩
  | .returns done => ⟨.idle, c.log ++ [done]⟩

/-- A client after the step of another one. -/
def Client.observe (c : Client) : Option PMEMoid → Client
  | some oid => { c with pc := c.pc.afterRemoval oid }
  | none => c

/-- A storage and its clients. -/
structure System (κ : Type*) where
  storage : PMDKHashtableStorage
  clients : κ → Client

/-- What a client does when its turn comes, with PMDK's answer if it allocates. -/
inductive Action where
  | call (r : Request) (answer : Option Allocation)
  | tick (answer : Option Allocation)

namespace System

variable {κ : Type*} [DecidableEq κ]

/-- All clients are idle. -/
def initial (s : PMDKHashtableStorage) : System κ := ⟨s, fun _ => ⟨.idle, []⟩⟩

/-- The system after a step of the client `k` with the given result. -/
def after (σ : System κ) (k : κ) (result : PMDKHashtableStorage × Progress) : System κ :=
  ⟨result.1, fun j =>
    if j = k then (σ.clients k).advance result.2
    else (σ.clients j).observe (σ.clients k).pc.removes⟩

/-- PMDK's answer fits what a step asks for. -/
def Answers (p : Pool) : Option ℕ → Option Allocation → Prop
  | some size, answer => p.CanAnswer size answer
  | none, answer => answer = none

/-- The steps of the system: a client that is idle calls with one of its own ids, a
client in a call takes its next step. -/
inductive Step (hash : Bytes → ℕ) (owns : κ → Set Bytes) (σ : System κ) :
    κ × Action → System κ → Prop
  | call {k : κ} {r : Request} {answer : Option Allocation} :
      (σ.clients k).pc = .idle → r.id ∈ owns k → Answers σ.storage.pool r.wants answer →
      Step hash owns σ (k, .call r answer) (σ.after k (r.begin hash σ.storage answer))
  | tick {k : κ} {answer : Option Allocation} :
      (σ.clients k).pc ≠ .idle → Answers σ.storage.pool (σ.clients k).pc.wants answer →
      Step hash owns σ (k, .tick answer)
        (σ.after k ((σ.clients k).pc.step hash σ.storage answer))

/-- The next step of the client `k` removes an entry that the walk of another client stands on. -/
def RemovesUnderWalk (σ : System κ) (k : κ) : Prop :=
  ∃ oid j, j ≠ k ∧ (σ.clients k).pc.removes = some oid ∧ (σ.clients j).pc.standsOn = some oid

/-- A step that removes no entry under a walk. -/
def CarefulStep (hash : Bytes → ℕ) (owns : κ → Set Bytes) (σ : System κ) (m : κ × Action)
    (τ : System κ) : Prop :=
  σ.Step hash owns m τ ∧ ¬σ.RemovesUnderWalk m.1

end System

/-- The ids that the clients own are storable, and no id has two owners. -/
structure Separate {κ : Type*} (owns : κ → Set Bytes) : Prop where
  storable : ∀ k, ∀ id ∈ owns k, StorableId id
  disjoint : ∀ j k, ∀ id ∈ owns j, id ∈ owns k → j = k

section Accounts

variable {hash : Bytes → ℕ} {s t : PMDKHashtableStorage} {τ τ' : Stacks} {c : Completed}

/-- The abstract account determines the replies. -/
theorem account_unique {τ₀ : Stacks} {log log' : List Completed}
    (h : Run SpecStep τ₀ log τ) (h' : Run SpecStep τ₀ log' τ')
    (hasked : log.map Completed.asked = log'.map Completed.asked) : log = log' ∧ τ = τ' := by
  induction h generalizing log' τ' with
  | nil =>
    obtain rfl : log' = [] := by simpa using hasked.symm
    exact ⟨rfl, h'.nil_inv.symm⟩
  | @snoc log σ c υ hrun hstep ih =>
    obtain ⟨log₁, c', rfl⟩ : ∃ l c', log' = l ++ [c'] := by
      rcases List.eq_nil_or_concat log' with rfl | ⟨l, c', rfl⟩
      · simp at hasked
      · exact ⟨l, c', by simp⟩
    obtain ⟨σ', hrun', hstep'⟩ := h'.snoc_inv
    rw [List.map_append, List.map_append] at hasked
    obtain ⟨hinit, hlast⟩ := List.append_inj' hasked rfl
    obtain ⟨rfl, rfl⟩ := ih hrun' hinit
    have hc : c.asked = c'.asked := by simpa using hlast
    obtain ⟨request, block, entry, reply⟩ := c
    obtain ⟨request', block', entry', reply'⟩ := c'
    obtain ⟨rfl, rfl, rfl⟩ : request = request' ∧ block = block' ∧ entry = entry' := by
      simpa [Completed.asked] using hc
    rw [SpecStep] at hstep hstep'
    obtain ⟨rfl, rfl⟩ := Prod.mk.inj (hstep.symm.trans hstep')
    exact ⟨rfl, rfl⟩

/-- A `store` of a client that is alone replies as its account says. -/
theorem Represents.soloStore (h : Represents hash s τ) {id src : Bytes} (hid : StorableId id)
    {block entry : Option Allocation} {reply : Except Failure Value}
    (hblock : s.pool.CanAnswer src.length block)
    (hentry : (s.pool.pobjAlloc (allocStr src) block).2.CanAnswer PMEMPointer.structSize entry)
    (hexec : (Request.store id src).exec hash s block entry = (reply, t)) :
    ∃ τ', SpecStep τ ⟨.store id src, block.isSome, entry.isSome, reply⟩ τ' ∧
      Represents hash t τ' := by
  obtain ⟨rfl, rfl⟩ := Prod.mk.inj hexec
  cases block with
  | none => exact ⟨τ, rfl, h⟩
  | some a =>
    cases entry with
    | none =>
      refine ⟨τ, rfl, ⟨h.wf.pool.pobjAlloc _ hblock, h.wf.nbuckets⟩, ?_⟩
      intro id' hid'
      exact (h.wf.pool.stack_pobjAlloc _ hblock id').trans (h.stack id' hid')
    | some e => exact ⟨τ.push id src, rfl, h.step (SessionStep.store hid hblock hentry)⟩

/-- A `free` of a client that is alone replies as its account says. -/
theorem Represents.soloFree (h : Represents hash s τ) {id : Bytes} (hid : StorableId id)
    {reply : Except Failure Value}
    (hexec : (Request.lookup .free id).exec hash s none none = (reply, t)) :
    ∃ τ', SpecStep τ ⟨.lookup .free id, false, false, reply⟩ τ' ∧ Represents hash t τ' := by
  have hstack := h.stack id hid.nulFree
  cases hτ : τ id with
  | nil =>
    rw [Request.exec, h.wf.free_nil (hstack.trans hτ)] at hexec
    obtain ⟨rfl, rfl⟩ := Prod.mk.inj hexec
    refine ⟨τ, ?_, h⟩
    rw [SpecStep, Request.spec, Stacks.pop_of_nil hτ, hτ]
    rfl
  | cons v rest =>
    obtain ⟨x, l, _, hfind, _⟩ := h.wf.findEntry_cons (hstack.trans hτ)
    rw [Request.exec, free_found hfind] at hexec
    obtain ⟨rfl, rfl⟩ := Prod.mk.inj hexec
    refine ⟨τ.pop id, ?_, h.step (SessionStep.free hid hfind)⟩
    rw [SpecStep, Request.spec, hτ]
    rfl

/-- A call of a client that is alone replies as its account says. -/
theorem Represents.solo (h : Represents hash s τ) (hid : StorableId c.request.id)
    (hstep : SoloStep hash s c t) : ∃ τ', SpecStep τ c τ' ∧ Represents hash t τ' := by
  obtain ⟨block, entry, hblock, hentry, hposs, hexec⟩ := hstep
  obtain ⟨request, servedBlock, servedEntry, reply⟩ := c
  dsimp only at hblock hentry hposs hexec hid
  subst hblock hentry
  cases request with
  | store id src => exact h.soloStore hid hposs.1 hposs.2 hexec
  | lookup use id =>
    obtain ⟨rfl, rfl⟩ := hposs
    have hstack := h.stack id hid.nulFree
    cases use with
    | find =>
      obtain ⟨rfl, rfl⟩ := Prod.mk.inj hexec
      refine ⟨τ, ?_, h⟩
      rw [SpecStep, Request.spec, h.wf.findBytes_eq, hstack]
      cases outcome (τ id) <;> rfl
    | load =>
      obtain ⟨rfl, rfl⟩ := Prod.mk.inj hexec
      refine ⟨τ, ?_, h⟩
      rw [SpecStep, Request.spec, h.wf.load_eq, hstack]
    | free => exact h.soloFree hid hexec

end Accounts

end Pmemcpy
