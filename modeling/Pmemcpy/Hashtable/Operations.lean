import Pmemcpy.Hashtable.Invariant

/-!
# What each call of the storage does

Every operation is described by what it does to the stacks of values: `store`
pushes, `find` and `load` read the top, `free` pops. Filling the buffer of an
`alloc` gives exactly the pool that a `store` of the same bytes gives.
-/

namespace Pmemcpy

open Lib

/-- The invariant of an open storage: the table is in order, no entry is half
freed, and `nbuckets_` is the number of buckets of the table. -/
structure PMDKHashtableStorage.Wf (hash : Bytes → ℕ) (s : PMDKHashtableStorage) : Prop where
  pool : s.pool.Wf hash ∅
  nbuckets : s.nbuckets = s.pool.nbuckets

namespace PMDKHashtableStorage

variable {hash : Bytes → ℕ} {s t : PMDKHashtableStorage} {id id' src : Bytes}
  {block entry : Option Allocation} {a e : Allocation}

/-- A freshly created storage satisfies the invariant. -/
theorem created_wf : created.Wf hash := ⟨Pool.Wf.empty (by decide), rfl⟩

/-- The bucket of an id is computed with the number of buckets of the table. -/
theorem Wf.hashfun_eq (h : s.Wf hash) (id : Bytes) :
    s.hashfun hash id = hash id % s.pool.nbuckets := by
  rw [hashfun, h.nbuckets]

/-! ### `store` and `alloc` -/

/-- The pool after a `store` whose allocations are both served. -/
def storePool (hash : Bytes → ℕ) (s : PMDKHashtableStorage) (id src : Bytes) (a e : Allocation) :
    Pool :=
  (s.pool.pobjAlloc (allocStr src) (some a)).2.insertEntry (s.hashfun hash id)
    ⟨id.length, id, src.length, a.oid⟩ e

/-- The list element that a `store` inserts. -/
def storeElem (id src : Bytes) (a e : Allocation) : ListElem :=
  ⟨e.oid, add ⟨id.length, id, src.length, a.oid⟩ e.raw⟩

/-- The entries after a `store` are the new one and those from before. -/
theorem mem_storePool {b : ℕ} {y : ListElem} :
    y ∈ (s.storePool hash id src a e).buckets b ↔
      (b = s.hashfun hash id ∧ y = storeElem id src a e) ∨ y ∈ s.pool.buckets b :=
  Pool.mem_insertEntry

/-- A `store` whose data block is refused throws and changes nothing. -/
theorem store_refused (s : PMDKHashtableStorage) (id src : Bytes) (entry : Option Allocation) :
    s.store hash id src none entry = (.error (.thrown .pmdkCantAllocateStr), s) := rfl

/-- An `alloc` whose data block is refused throws and changes nothing. -/
theorem alloc_refused (s : PMDKHashtableStorage) (id : Bytes) (size : ℕ)
    (entry : Option Allocation) :
    s.alloc hash id size none entry = (.error (.thrown .pmdkCantAllocateStr), s) := rfl

/-- A `store` with a data block returns normally, even without a list entry. -/
theorem store_returns (s : PMDKHashtableStorage) (id src : Bytes) (a : Allocation)
    (entry : Option Allocation) : (s.store hash id src (some a) entry).1 = .ok () := rfl

/-- The block that `_stralloc` has filled can be referred to by a new entry. -/
theorem Wf.insertable (h : s.Wf hash) (ha : s.pool.Fresh src.length a)
    (hid : id.length ≤ PMEMPointer.idRoom) :
    (s.pool.pobjAlloc (allocStr src) (some a)).2.Insertable hash (s.hashfun hash id)
      ⟨id.length, id, src.length, a.oid⟩ src where
  bucket := h.hashfun_eq id
  idLen := rfl
  id_le := hid
  block := by simp [Pool.pobjAlloc, allocStr, splice_zero_of_length ha.raw.symm]
  len := rfl
  len_lt := ha.size_lt
  unreferenced := h.pool.data_ne_of_fresh ha

/-- The element that a `store` inserts has the fields of the value. -/
theorem storeElem_fields (hlt : src.length < 2 ^ 64) (hid : id.length ≤ PMEMPointer.idRoom)
    (hraw : e.raw.length = PMEMPointer.structSize) :
    (storeElem id src a e).entry.Wf ∧ (storeElem id src a e).entry.id = id ∧
      (storeElem id src a e).entry.len = src.length ∧
      (storeElem id src a e).entry.data = a.oid := by
  let info : PMEMListArgs := ⟨id.length, id, src.length, a.oid⟩
  have hidLen : info.idLen = info.id.length := rfl
  have hfields := add_fields hraw hidLen hid
  exact ⟨hfields.1, hfields.2.1, hfields.2.2.1.trans (Nat.mod_eq_of_lt hlt), hfields.2.2.2⟩

/-- The blocks after a `store` are the new one and those from before. -/
theorem blocks_storePool (ha : s.pool.Fresh src.length a) (o : PMEMoid) :
    (s.storePool hash id src a e).blocks o =
      if o = a.oid then some src else s.pool.blocks o := by
  have hsrc : allocStr src a.raw = src := splice_zero_of_length ha.raw.symm
  by_cases ho : o = a.oid
  · subst ho
    simp [storePool, Pool.insertEntry, Pool.pobjListInsertNewHead, Pool.pobjAlloc, hsrc]
  · simp [storePool, Pool.insertEntry, Pool.pobjListInsertNewHead, Pool.pobjAlloc, ho]

/-- A `store` keeps the invariant. -/
theorem Wf.store (h : s.Wf hash) (ha : s.pool.Fresh src.length a)
    (he : (s.pool.pobjAlloc (allocStr src) (some a)).2.Fresh PMEMPointer.structSize e)
    (hid : id.length ≤ PMEMPointer.idRoom) :
    Wf hash { s with pool := s.storePool hash id src a e } where
  pool := (h.pool.pobjAlloc _ ha).insertEntry (h.insertable ha hid) he (Set.notMem_empty _)
  nbuckets := h.nbuckets

/-- A `store` pushes its value on the stack of its id, and of the ids that the
lookup cannot tell from it. -/
theorem Wf.stack_store (h : s.Wf hash) (ha : s.pool.Fresh src.length a)
    (he : (s.pool.pobjAlloc (allocStr src) (some a)).2.Fresh PMEMPointer.structSize e)
    (hid : id.length ≤ PMEMPointer.idRoom) (id' : Bytes) :
    (s.storePool hash id src a e).stack hash id' =
      if hash id' % s.pool.nbuckets = hash id % s.pool.nbuckets ∧ SameKey id id' then
        src :: s.pool.stack hash id'
      else s.pool.stack hash id' := by
  have hins := Pool.stack_insertEntry (h.insertable ha hid) he id'
  rw [h.pool.stack_pobjAlloc _ ha, h.hashfun_eq] at hins
  rw [storePool, h.hashfun_eq]
  exact hins

/-- Filling the buffer that `alloc` returned gives the pool of a `store` of the
same bytes, whatever PMDK answered. -/
theorem exec_alloc_eq_store {size : ℕ} {fill : Bytes} (hfill : fill.length = size) :
    (Call.alloc id size fill block entry).exec hash s =
      (Call.store id fill block entry).exec hash s := by
  subst hfill
  cases block with
  | none => rfl
  | some a =>
    have hwrite : ∀ (p : Pool) (m : PMEMoid → Option Bytes),
        p.blocks = Function.update m a.oid (some a.raw) →
        p.write ⟨a.oid, fill.length⟩ fill =
          { p with blocks := Function.update m a.oid (some (allocStr fill a.raw)) } := by
      intro p m hp
      simp [Pool.write, hp, allocStr]
    cases entry with
    | none =>
      simp only [Call.exec, alloc, stralloc, Pool.pobjAlloc, Pool.pobjListInsertNewHead, store]
      rw [hwrite _ s.pool.blocks rfl]
    | some e =>
      simp only [Call.exec, alloc, stralloc, Pool.pobjAlloc, Pool.pobjListInsertNewHead, store]
      rw [hwrite _ s.pool.blocks rfl]

/-! ### `find` and `load` -/

/-- When nothing is stored under an id, the walk finds no entry. -/
theorem Wf.findEntry_nil (h : s.Wf hash) (hs : s.pool.stack hash id = []) :
    s.findEntry hash id = .error (.thrown .pmdkCantFindKey) := by
  have hnone : (s.pool.buckets (s.hashfun hash id)).find? (fun x => x.entry.isNamed id) = none := by
    rw [List.find?_eq_none, h.hashfun_eq]
    intro x hx hnamed
    obtain ⟨v, hv, _⟩ := h.pool.live hx (Set.notMem_empty _)
    have hmem : v ∈ s.pool.stack hash id :=
      List.mem_filterMap.mpr ⟨x, List.mem_filter.mpr ⟨hx, hnamed⟩, hv⟩
    rw [hs] at hmem
    cases hmem
  rw [findEntry, hnone]

/-- When something is stored under an id, the walk finds the entry of the value on top. -/
theorem Wf.findEntry_cons (h : s.Wf hash) {v : Bytes} {rest : List Bytes}
    (hs : s.pool.stack hash id = v :: rest) :
    ∃ x l, s.pool.named hash id = x :: l ∧ s.findEntry hash id = .ok x ∧
      s.pool.blocks x.entry.data = some v ∧ v.length = x.entry.len ∧ s.pool.values l = rest := by
  cases hnamed : s.pool.named hash id with
  | nil => simp [Pool.stack, hnamed, Pool.values] at hs
  | cons x l =>
    have hx : x ∈ s.pool.named hash id := by simp [hnamed]
    have hbucket := (List.mem_filter.mp hx).1
    obtain ⟨w, hw, hlen⟩ := h.pool.live hbucket (Set.notMem_empty _)
    have hcons : s.pool.stack hash id = w :: s.pool.values l := by
      simp [Pool.stack, hnamed, Pool.values, hw]
    rw [hcons] at hs
    obtain ⟨rfl, hrest⟩ := List.cons.inj hs
    have hfind : (s.pool.buckets (s.hashfun hash id)).find? (fun x => x.entry.isNamed id) =
        some x := by
      rw [← List.head?_filter, h.hashfun_eq]
      simpa [Pool.named] using congrArg List.head? hnamed
    exact ⟨x, l, rfl, by rw [findEntry, hfind], hw, hlen, hrest⟩

/-- The entry found for an id lies in its bucket and passes the test. -/
theorem mem_of_findEntry {x : ListElem} (hx : s.findEntry hash id = .ok x) :
    x ∈ s.pool.buckets (s.hashfun hash id) ∧ x.entry.isNamed id = true := by
  rw [findEntry] at hx
  split at hx
  · rename_i y hfind
    obtain rfl : y = x := by simpa using hx
    exact ⟨List.mem_of_find?_eq_some hfind,
      List.find?_some (p := fun x : ListElem => x.entry.isNamed id) hfind⟩
  · cases hx

/-- The outcome of reading the top of a stack of values. -/
def outcome : List Bytes → Except Failure Bytes
  | [] => .error (.thrown .pmdkCantFindKey)
  | v :: _ => .ok v

/-- `find` as its caller uses it: the size of the buffer, and the bytes behind it. -/
def findBytes (hash : Bytes → ℕ) (s : PMDKHashtableStorage) (id : Bytes) :
    Except Failure (ℕ × Bytes) := do
  let buf ← s.find hash id
  let v ← s.pool.read buf
  return (buf.size, v)

/-- Reading as many bytes as a block has gives the block. -/
theorem read_whole {p : Pool} {o : PMEMoid} {v : Bytes} {n : ℕ} (hv : p.blocks o = some v)
    (hn : v.length = n) : p.read ⟨o, n⟩ = .ok v := by
  simp [Pool.read, hv, ← hn]

/-- `load` copies the value on the top of the stack. -/
theorem Wf.load_eq (h : s.Wf hash) (id : Bytes) :
    s.load hash id = outcome (s.pool.stack hash id) := by
  cases hs : s.pool.stack hash id with
  | nil => simp [load, h.findEntry_nil hs, outcome, bind, Except.bind]
  | cons v rest =>
    obtain ⟨x, l, _, hfind, hv, hlen, _⟩ := h.findEntry_cons hs
    simp [load, hfind, outcome, bind, Except.bind, read_whole hv hlen]

/-- `find` points to the value on the top of the stack, with its length. -/
theorem Wf.findBytes_eq (h : s.Wf hash) (id : Bytes) :
    s.findBytes hash id = (outcome (s.pool.stack hash id)).map fun v => (v.length, v) := by
  cases hs : s.pool.stack hash id with
  | nil => simp [findBytes, find, h.findEntry_nil hs, outcome, bind, Except.bind, Except.map]
  | cons v rest =>
    obtain ⟨x, l, _, hfind, hv, hlen, _⟩ := h.findEntry_cons hs
    simp [findBytes, find, hfind, outcome, bind, Except.bind, Except.map, read_whole hv hlen, hlen,
      pure, Except.pure]

/-! ### `free` -/

/-- A `free` of an id that is not stored throws, and changes nothing. -/
theorem Wf.free_nil (h : s.Wf hash) (hs : s.pool.stack hash id = []) :
    s.free hash id = (.error (.thrown .pmdkCantFindKey), s) := by
  rw [free, h.findEntry_nil hs]

/-- The pool after a `free` that found the entry `x`. -/
def freePool (hash : Bytes → ℕ) (s : PMDKHashtableStorage) (id : Bytes) (x : ListElem) : Pool :=
  (s.pool.pobjFree (s.hashfun hash id) x).pobjListRemoveFree (s.hashfun hash id) x.oid

/-- A `free` that finds an entry returns with that pool. -/
theorem free_found {x : ListElem} (hx : s.findEntry hash id = .ok x) :
    s.free hash id = (.ok (), { s with pool := s.freePool hash id x }) := by
  rw [free, hx]
  rfl

/-- The entry found for an id lies in the bucket of the id. -/
theorem Wf.mem_of_named (h : s.Wf hash) {x : ListElem} {l : List ListElem}
    (hx : s.pool.named hash id = x :: l) : x ∈ s.pool.buckets (s.hashfun hash id) := by
  have hmem : x ∈ s.pool.named hash id := by simp [hx]
  rw [h.hashfun_eq]
  exact (List.mem_filter.mp hmem).1

/-- The element that `POBJ_FREE` cleared is still linked. -/
theorem Wf.mem_pobjFree (h : s.Wf hash) {x : ListElem} {b : ℕ} (hx : x ∈ s.pool.buckets b) :
    Pool.clearElem x x ∈ (s.pool.pobjFree b x).buckets b := by
  rw [h.pool.buckets_pobjFree hx]
  exact List.mem_map_of_mem hx

/-- The blocks after a `free` are those from before, except the one of its entry. -/
theorem blocks_freePool {x : ListElem} (o : PMEMoid) :
    (s.freePool hash id x).blocks o = if o = x.entry.data then none else s.pool.blocks o := by
  simp [freePool, Pool.pobjListRemoveFree, Pool.pobjFree, Function.update_apply]

/-- The entries after a `free` are those from before, except the one it found. -/
theorem Wf.mem_freePool_iff (h : s.Wf hash) {x y : ListElem} {b : ℕ}
    (hx : x ∈ s.pool.buckets (s.hashfun hash id)) :
    y ∈ (s.freePool hash id x).buckets b ↔ y ∈ s.pool.buckets b ∧ y.oid ≠ x.oid := by
  have hfree := h.pool.pobjFree hx (Set.notMem_empty _)
  have hremove := hfree.buckets_remove (h.mem_pobjFree hx) b
  rw [Pool.clearElem_oid] at hremove
  rw [freePool, hremove, h.pool.buckets_pobjFree hx]
  have hkeep {z : ListElem} (hne : z.oid ≠ x.oid) : Pool.clearElem x z = z := by
    simp [Pool.clearElem, hne]
  constructor
  · intro hy
    obtain ⟨hmem, hne⟩ := List.mem_filter.mp hy
    obtain ⟨z, hz, rfl⟩ := List.mem_map.mp hmem
    have hzx : z.oid ≠ x.oid := by simpa using hne
    rw [hkeep hzx]
    exact ⟨hz, hzx⟩
  · rintro ⟨hy, hne⟩
    exact List.mem_filter.mpr ⟨List.mem_map.mpr ⟨y, hy, hkeep hne⟩, by simpa using hne⟩

/-- A `free` keeps the invariant. -/
theorem Wf.free (h : s.Wf hash) {x : ListElem} (hx : x ∈ s.pool.buckets (s.hashfun hash id)) :
    Wf hash { s with pool := s.freePool hash id x } where
  pool := by
    have hfree := h.pool.pobjFree hx (Set.notMem_empty _)
    have hremove := hfree.remove (h.mem_pobjFree hx)
    have hset : insert x.oid (∅ : Set PMEMoid) \ {(Pool.clearElem x x).oid} = ∅ := by simp
    rwa [hset, Pool.clearElem_oid] at hremove
  nbuckets := h.nbuckets

/-- A `free` takes the value of the entry it found from the stacks that have it. -/
theorem Wf.stack_free (h : s.Wf hash) {x : ListElem}
    (hx : x ∈ s.pool.buckets (s.hashfun hash id)) (id' : Bytes) :
    (s.freePool hash id x).stack hash id' =
      s.pool.values ((s.pool.named hash id').filter fun y => y.oid ≠ x.oid) := by
  have hfree := h.pool.pobjFree hx (Set.notMem_empty _)
  have hcleared : (Pool.clearElem x x).oid ∈ insert x.oid (∅ : Set PMEMoid) := by simp
  have hremove := hfree.stack_remove (h.mem_pobjFree hx) hcleared id'
  rw [Pool.clearElem_oid] at hremove
  rw [freePool, hremove, h.pool.stack_pobjFree hx (Set.notMem_empty _)]

/-- A `free` pops the stack of its id. -/
theorem Wf.stack_free_self (h : s.Wf hash) {x : ListElem} {l : List ListElem}
    (hx : s.pool.named hash id = x :: l) :
    (s.freePool hash id x).stack hash id = s.pool.values l := by
  rw [h.stack_free (h.mem_of_named hx), h.pool.filter_first hx]

/-- A `free` leaves the stacks of the ids that the lookup tells from its own. -/
theorem Wf.stack_free_other (h : s.Wf hash) {x : ListElem} {l : List ListElem}
    (hx : s.pool.named hash id = x :: l)
    (hne : ¬(hash id' % s.pool.nbuckets = hash id % s.pool.nbuckets ∧ SameKey id id')) :
    (s.freePool hash id x).stack hash id' = s.pool.stack hash id' := by
  have hbucket := h.mem_of_named hx
  have hnamed : x.entry.isNamed id = true := by
    have hmem : x ∈ s.pool.named hash id := by simp [hx]
    exact (List.mem_filter.mp hmem).2
  rw [h.stack_free hbucket, Pool.stack]
  congr 1
  rw [List.filter_eq_self]
  intro y hy
  have hybucket := (List.mem_filter.mp hy).1
  have hynamed := (List.mem_filter.mp hy).2
  have hoid : y.oid ≠ x.oid := by
    intro heq
    have hyx := h.pool.oid_inj hybucket hbucket heq
    subst hyx
    apply hne
    have hkey := ((h.pool.entry hbucket).isNamed_iff).mp hnamed
    have hkey' := ((h.pool.entry hbucket).isNamed_iff).mp hynamed
    rw [← h.hashfun_eq id]
    exact ⟨(h.pool.placed hybucket).trans (h.pool.placed hbucket).symm, hkey.symm.trans hkey'⟩
  simpa using hoid

/-! ### `munmap` and `_open` -/

end PMDKHashtableStorage

open PMDKHashtableStorage

/-! ### The cases of a step -/

/-- What a call can have done to the storage, by PMDK's answers to its allocations
and by what `_find` met. -/
inductive Call.Effect (hash : Bytes → ℕ) (s : PMDKHashtableStorage) :
    Call → PMDKHashtableStorage → Prop
  /-- The data block of an insertion was not allocated: the call throws. -/
  | refused {c : Call} {id src : Bytes} {entry : Option Allocation} :
      c.inserts = some (id, src) → c.answers = some (none, entry) → Effect hash s c s
  /-- The list entry was not allocated: the call returns, and its block is nobody's. -/
  | orphaned {c : Call} {id src : Bytes} {a : Allocation} :
      c.inserts = some (id, src) → c.answers = some (some a, none) → s.pool.Fresh src.length a →
      Effect hash s c { s with pool := (s.pool.pobjAlloc (allocStr src) (some a)).2 }
  /-- An insertion went through. -/
  | stored {c : Call} {id src : Bytes} {a e : Allocation} :
      c.inserts = some (id, src) → c.answers = some (some a, some e) →
      s.pool.Fresh src.length a →
      (s.pool.pobjAlloc (allocStr src) (some a)).2.Fresh PMEMPointer.structSize e →
      Effect hash s c { s with pool := s.storePool hash id src a e }
  | missing {id : Bytes} {f : Failure} :
      s.findEntry hash id = .error f → Effect hash s (.free id) s
  | freed {id : Bytes} {x : ListElem} :
      s.findEntry hash id = .ok x → Effect hash s (.free id) { s with pool := s.freePool hash id x }
  | reopened : Effect hash s .reopen { s with nbuckets := s.pool.nbuckets }

section Steps

variable {hash : Bytes → ℕ} {s t : PMDKHashtableStorage} {id src : Bytes}
  {block entry : Option Allocation} {c : Call}

/-- Whether PMDK can answer does not depend on what a new block is filled with. -/
theorem Pool.canAnswer_pobjAlloc {p : Pool} {constructor constructor' : Bytes → Bytes} {n : ℕ}
    (h : (p.pobjAlloc constructor block).2.CanAnswer n entry) :
    (p.pobjAlloc constructor' block).2.CanAnswer n entry := by
  cases block with
  | none => exact h
  | some a =>
    cases entry with
    | none => trivial
    | some e =>
      obtain ⟨hsize, hraw, hnull, hnone, hne⟩ := h
      refine ⟨hsize, hraw, hnull, ?_, hne⟩
      simp only [Pool.pobjAlloc, Function.update_apply] at hnone ⊢
      split at hnone
      · cases hnone
      · rename_i hoid
        rw [if_neg hoid, hnone]

/-- Every `store` has the effect that the answers of PMDK tell. -/
private theorem store_effect (hc : c.inserts = some (id, src))
    (hans : c.answers = some (block, entry)) (hblock : s.pool.CanAnswer src.length block)
    (hentry : (s.pool.pobjAlloc (allocStr src) block).2.CanAnswer PMEMPointer.structSize entry) :
    c.Effect hash s (s.store hash id src block entry).2 := by
  cases block with
  | none => exact .refused hc hans
  | some a =>
    cases entry with
    | none => exact .orphaned hc hans hblock
    | some e => exact .stored hc hans hblock hentry

/-- Every step of a client has one of these effects. -/
theorem Call.Step.effect (h : c.Step hash s t) : c.Effect hash s t := by
  obtain ⟨hposs, rfl⟩ := h
  cases c with
  | store id src block entry => exact store_effect rfl rfl hposs.1 hposs.2
  | alloc id size fill block entry =>
    obtain ⟨hfill, hblock, hentry⟩ := hposs
    rw [exec_alloc_eq_store hfill]
    exact store_effect rfl rfl (by rwa [hfill]) (Pool.canAnswer_pobjAlloc hentry)
  | free id =>
    cases hfind : s.findEntry hash id with
    | error f =>
      rw [Call.exec, PMDKHashtableStorage.free, hfind]
      exact .missing hfind
    | ok x =>
      rw [Call.exec, free_found hfind]
      exact .freed hfind
  | reopen => exact .reopened

/-- An insertion is made under the id of its call. -/
theorem Call.id?_of_inserts (h : c.inserts = some (id, src)) : c.id? = some id := by
  cases c <;> simp_all [Call.inserts, Call.id?]

/-- A successful call inserts an entry, frees one, or reopens the pool. -/
theorem Call.Succeeds.effect (h : c.Succeeds hash s t) :
    (∃ id src a e, c.inserts = some (id, src) ∧ c.id? = some id ∧ s.pool.Fresh src.length a ∧
      (s.pool.pobjAlloc (allocStr src) (some a)).2.Fresh PMEMPointer.structSize e ∧
      t = { s with pool := s.storePool hash id src a e }) ∨
    (∃ id x, c = .free id ∧ s.findEntry hash id = .ok x ∧
      t = { s with pool := s.freePool hash id x }) ∨
    (c = .reopen ∧ t = { s with nbuckets := s.pool.nbuckets }) := by
  obtain ⟨hposs, hserved, hexec⟩ := h
  have hstep : c.Step hash s t := ⟨hposs, by rw [hexec]⟩
  cases hstep.effect with
  | refused _ hans => simpa using hserved _ _ hans
  | orphaned _ hans _ => simpa using hserved _ _ hans
  | @stored _ id src a e hc hans ha he =>
    exact Or.inl ⟨id, src, a, e, hc, Call.id?_of_inserts hc, ha, he, rfl⟩
  | missing hfind =>
    rw [Call.exec, PMDKHashtableStorage.free, hfind] at hexec
    cases hexec
  | freed hfind => exact Or.inr (Or.inl ⟨_, _, rfl, hfind, rfl⟩)
  | reopened => exact Or.inr (Or.inr ⟨rfl, rfl⟩)

/-- The id of a call lies inside the id field of an entry. -/
def Call.FitsField (c : Call) : Prop := ∀ id, c.id? = some id → id.length ≤ PMEMPointer.idRoom

/-- A step of a run: any call on an id that fits its field, however it ends. -/
def FittingStep (hash : Bytes → ℕ) (s : PMDKHashtableStorage) (c : Call)
    (t : PMDKHashtableStorage) : Prop :=
  c.Step hash s t ∧ c.FitsField

/-- Every step of a client keeps the invariant, however it ends. -/
theorem PMDKHashtableStorage.Wf.step (h : s.Wf hash) (hstep : FittingStep hash s c t) :
    t.Wf hash := by
  obtain ⟨hstep, hfit⟩ := hstep
  cases hstep.effect with
  | refused => exact h
  | orphaned _ _ ha => exact ⟨h.pool.pobjAlloc _ ha, h.nbuckets⟩
  | stored hc _ ha he => exact h.store ha he (hfit _ (Call.id?_of_inserts hc))
  | missing => exact h
  | freed hfind => exact h.free (mem_of_findEntry hfind).1
  | reopened => exact ⟨h.pool, rfl⟩

/-- An insertion pushes its value on the stack of its id, and of the ids that the
lookup cannot tell from it, if both allocations are served; otherwise no stack changes. -/
theorem PMDKHashtableStorage.Wf.stack_insertion (h : s.Wf hash)
    (hstep : FittingStep hash s (.store id src block entry) t) (id' : Bytes) :
    t.pool.stack hash id' =
      if (block.isSome ∧ entry.isSome) ∧
          hash id' % s.pool.nbuckets = hash id % s.pool.nbuckets ∧ SameKey id id' then
        src :: s.pool.stack hash id'
      else s.pool.stack hash id' := by
  obtain ⟨⟨⟨hblock, hentry⟩, rfl⟩, hfit⟩ := hstep
  cases block with
  | none =>
    rw [if_neg (by rintro ⟨⟨⟨⟩, _⟩, _⟩)]
    rfl
  | some a =>
    cases entry with
    | none =>
      rw [if_neg (by rintro ⟨⟨_, ⟨⟩⟩, _⟩)]
      exact h.pool.stack_pobjAlloc _ hblock id'
    | some e =>
      rw [if_congr (and_iff_right ⟨rfl, rfl⟩) rfl rfl]
      exact h.stack_store hblock hentry (hfit id rfl) id'

/-- Filling the buffer of an `alloc` from its start is a `store` of all the bytes that
the buffer then holds. -/
theorem alloc_fill (hash : Bytes → ℕ) (s : PMDKHashtableStorage) {size : ℕ} {a : Allocation}
    (hid : id.length ≤ PMEMPointer.idRoom) (hblock : s.pool.Fresh size a)
    (hentry : (s.pool.pobjAlloc (fun raw => raw) (some a)).2.CanAnswer PMEMPointer.structSize
      entry) :
    ∃ t, s.alloc hash id size (some a) entry = (.ok ⟨a.oid, size⟩, t) ∧
      ∀ bytes, bytes.length ≤ size →
        FittingStep hash s (.store id (splice a.raw 0 bytes) (some a) entry)
          { t with pool := t.pool.write ⟨a.oid, size⟩ bytes } := by
  refine ⟨_, rfl, ?_⟩
  intro bytes hbytes
  have hraw := hblock.raw
  have hlen : (splice a.raw 0 bytes).length = size := by
    rw [length_splice (by omega), hraw]
  have hsame : allocStr (splice a.raw 0 bytes) a.raw = splice a.raw 0 bytes :=
    splice_zero_of_length (hlen.trans hraw.symm)
  refine ⟨⟨⟨hlen.symm ▸ hblock, Pool.canAnswer_pobjAlloc hentry⟩, ?_⟩, ?_⟩
  · cases entry <;>
      simp [Call.exec, Pool.write, store, stralloc, Pool.pobjAlloc, Pool.pobjListInsertNewHead,
        hsame, hlen]
  · rintro id' ⟨⟩
    exact hid

/-- Writing nothing changes nothing. -/
theorem write_nil (p : Pool) (buf : PmemBuffer) : p.write buf [] = p := by
  have hmap : ((p.blocks buf.data).map fun v => splice v 0 []) = p.blocks buf.data := by
    simp [splice]
  rw [Pool.write, hmap, Function.update_eq_self]

end Steps

end Pmemcpy
