import Pmemcpy.Errors
import Pmemcpy.Hashtable.Entry
import Mathlib.Logic.Function.Basic

/-!
# The hashtable storage

`PMDKHashtableStorage` keeps its table in a PMDK pool: an array of list heads,
the entries linked from them, and one data block for each entry. The answers of
PMDK's allocator are arguments of the calls, so that every placement of the
objects and every failure of an allocation is covered.
-/

namespace Pmemcpy

open Lib

/-- PMDK's answer to a successful allocation: the object, and the bytes its memory holds. -/
structure Allocation where
  oid : PMEMoid
  raw : Bytes
  deriving DecidableEq, Repr

/-- An element of a bucket list: the entry at an OID. -/
structure ListElem where
  oid : PMEMoid
  entry : PMEMPointer
  deriving DecidableEq, Repr

/-- The contents of a pool whose table exists: the persisted `nbuckets`, the number
of list heads the table was allocated with, the bucket lists from their heads on,
and the live data blocks. -/
structure Pool where
  nbuckets : ℕ
  heads : ℕ
  buckets : ℕ → List ListElem
  blocks : PMEMoid → Option Bytes

namespace Pool

/-- The pool after `_create`, before anything is stored. -/
def empty (nbuckets : ℕ) : Pool := ⟨nbuckets, nbuckets, fun _ => [], fun _ => none⟩

/-- What PMDK promises of an object it allocates: it has the size asked for, and
its OID is not null and names no other object. -/
structure Fresh (p : Pool) (size : ℕ) (a : Allocation) : Prop where
  size_lt : size < 2 ^ 64
  raw : a.raw.length = size
  not_null : a.oid.isNull = false
  block : p.blocks a.oid = none
  entry : ∀ b, ∀ x ∈ p.buckets b, x.oid ≠ a.oid

/-- The answers an allocation of `size` bytes can get: a failure, or a fresh object. -/
def CanAnswer (p : Pool) (size : ℕ) : Option Allocation → Prop
  | none => True
  | some a => p.Fresh size a

/-- `POBJ_ALLOC` of a data block with its constructor. -/
def pobjAlloc (p : Pool) (constructor : Bytes → Bytes) : Option Allocation → Option PMEMoid × Pool
  | none => (none, p)
  | some a =>
    (some a.oid,
      { p with blocks := Function.update p.blocks a.oid (some (constructor a.raw)) })

/-- `POBJ_LIST_INSERT_NEW_HEAD` into a bucket, with its constructor. -/
def pobjListInsertNewHead (p : Pool) (bucket : ℕ) (constructor : Bytes → PMEMPointer) :
    Option Allocation → Option PMEMoid × Pool
  | none => (none, p)
  | some a =>
    (some a.oid,
      { p with
        buckets :=
          Function.update p.buckets bucket (⟨a.oid, constructor a.raw⟩ :: p.buckets bucket) })

/-- `POBJ_FREE(&D_RO(entry)->data)`: the data block is gone and the OID that named it is null. -/
def pobjFree (p : Pool) (bucket : ℕ) (x : ListElem) : Pool :=
  { p with
    buckets := Function.update p.buckets bucket ((p.buckets bucket).map fun y =>
      if y.oid = x.oid then { y with entry := y.entry.clearData } else y)
    blocks := Function.update p.blocks x.entry.data none }

/-- `POBJ_LIST_REMOVE_FREE`: the entry is unlinked and its memory released. -/
def pobjListRemoveFree (p : Pool) (bucket : ℕ) (oid : PMEMoid) : Pool :=
  { p with
    buckets := Function.update p.buckets bucket ((p.buckets bucket).filter fun y => y.oid ≠ oid) }

end Pool

/-- `pmem_buffer`: a pointer to a data block, and a size. -/
structure PmemBuffer where
  data : PMEMoid
  size : ℕ
  deriving DecidableEq, Repr

namespace Pool

/-- The bytes seen through a `pmem_buffer`. A null or dangling pointer, or a size
past the end of the block, makes the read undefined. -/
def read (p : Pool) (buf : PmemBuffer) : Except Failure Bytes :=
  match p.blocks buf.data with
  | some v => if buf.size ≤ v.length then .ok (v.take buf.size) else .error .undefined
  | none => .error .undefined

/-- Writing `bytes` through a `pmem_buffer`, from its start. -/
def write (p : Pool) (buf : PmemBuffer) (bytes : Bytes) : Pool :=
  { p with
    blocks := Function.update p.blocks buf.data
      ((p.blocks buf.data).map fun v => splice v 0 bytes) }

end Pool

/-- `PMDKHashtableStorage` with an open pool: `ppool_` and `root_` lead to the
pool, `nbuckets_` is the copy of the number of buckets. -/
structure PMDKHashtableStorage where
  pool : Pool
  nbuckets : ℕ

namespace PMDKHashtableStorage

/-- `_alloc_str`: the block is filled with the bytes of the source buffer. -/
def allocStr (src : Bytes) (raw : Bytes) : Bytes := splice raw 0 src

/-- `_stralloc`, for both of its overloads: `_alloc_str` constructs the block from
a buffer, and without a constructor the memory stays as it is. -/
def stralloc (p : Pool) (constructor : Bytes → Bytes) (answer : Option Allocation) :
    Except Failure PMEMoid × Pool :=
  match p.pobjAlloc constructor answer with
  | (some oid, p) => (.ok oid, p)
  | (none, p) => (.error (.thrown .pmdkCantAllocateStr), p)

variable (hash : Bytes → ℕ) (s : PMDKHashtableStorage)

/-- `_hashfun`. -/
def hashfun (id : Bytes) : ℕ := hash id % s.nbuckets

/-- `store`. The error for a null entry OID is built and dropped: the call returns normally. -/
def store (id src : Bytes) (block entry : Option Allocation) :
    Except Failure Unit × PMDKHashtableStorage :=
  match stralloc s.pool (allocStr src) block with
  | (.error e, p) => (.error e, { s with pool := p })
  | (.ok data, p) =>
    let info : PMEMListArgs := ⟨id.length, id, src.length, data⟩
    let (_oid, p) := p.pobjListInsertNewHead (hashfun hash s id) (add info) entry
    -- `if(OID_IS_NULL(oid)) PMDK_CANT_ALLOCATE_OBJ.format(..)` has no `throw`
    (.ok (), { s with pool := p })

/-- `alloc`: like `store`, with an uninitialised block that the caller fills through the buffer. -/
def alloc (id : Bytes) (size : ℕ) (block entry : Option Allocation) :
    Except Failure PmemBuffer × PMDKHashtableStorage :=
  match stralloc s.pool (fun raw => raw) block with
  | (.error e, p) => (.error e, { s with pool := p })
  | (.ok data, p) =>
    let info : PMEMListArgs := ⟨id.length, id, size, data⟩
    let (_oid, p) := p.pobjListInsertNewHead (hashfun hash s id) (add info) entry
    (.ok ⟨data, size⟩, { s with pool := p })

/-- `_find`: the first entry of the bucket that passes the test. -/
def findEntry (id : Bytes) : Except Failure ListElem :=
  match (s.pool.buckets (hashfun hash s id)).find? fun x => x.entry.isNamed id with
  | some x => .ok x
  | none => .error (.thrown .pmdkCantFindKey)

/-- `find`: a buffer that points into the pool. -/
def find (id : Bytes) : Except Failure PmemBuffer := do
  let x ← findEntry hash s id
  return ⟨x.entry.data, x.entry.len⟩

/-- `load`: a copy of the bytes. -/
def load (id : Bytes) : Except Failure Bytes := do
  let x ← findEntry hash s id
  s.pool.read ⟨x.entry.data, x.entry.len⟩

/-- `free`: first the data block, then the list entry. -/
def free (id : Bytes) : Except Failure Unit × PMDKHashtableStorage :=
  match findEntry hash s id with
  | .error e => (.error e, s)
  | .ok x =>
    let p := s.pool.pobjFree (hashfun hash s id) x
    let p := p.pobjListRemoveFree (hashfun hash s id) x.oid
    (.ok (), { s with pool := p })

end PMDKHashtableStorage

/-- A pool file as `_create` and `_open` see it: the table the root object refers
to, and the snapshot `TX_ADD` took of the root while a transaction is running. -/
structure PoolFile where
  table : Option Pool
  undo : Option (Option Pool)

/-- A transaction that was interrupted is rolled back when the pool is opened. -/
def PoolFile.recover (f : PoolFile) : PoolFile :=
  match f.undo with
  | some old => ⟨old, none⟩
  | none => f

namespace PMDKHashtableStorage

/-- `_open` of a pool file that `pmemobj_open` accepts: a null table is dereferenced
without a test. -/
def openPool (f : PoolFile) : Except Failure PMDKHashtableStorage :=
  match f.recover.table with
  | some p => .ok ⟨p, p.nbuckets⟩
  | none => .error .undefined

/-- `munmap`: what stays behind is the committed contents of the pool. -/
def munmap (s : PMDKHashtableStorage) : PoolFile := ⟨some s.pool, none⟩

/-- The storage right after `_create` with its default of a thousand buckets. -/
def created : PMDKHashtableStorage := ⟨Pool.empty 1000, 1000⟩

end PMDKHashtableStorage

/-- A call of a client of the storage, with PMDK's answers to its allocations.
`alloc` is followed by filling the buffer it returned; `reopen` is `munmap`
followed by `mmap` of the existing pool. -/
inductive Call where
  | store (id src : Bytes) (block entry : Option Allocation)
  | alloc (id : Bytes) (size : ℕ) (fill : Bytes) (block entry : Option Allocation)
  | free (id : Bytes)
  | reopen
  deriving DecidableEq, Repr

namespace Call

/-- The id a call is about. -/
def id? : Call → Option Bytes
  | store id _ _ _ => some id
  | alloc id _ _ _ _ => some id
  | free id => some id
  | reopen => none

/-- The id and the bytes a call inserts. -/
def inserts : Call → Option (Bytes × Bytes)
  | store id src _ _ => some (id, src)
  | alloc id _ fill _ _ => some (id, fill)
  | free _ => none
  | reopen => none

/-- PMDK answered the allocations of an insertion: the data block, then the list entry. -/
def answers : Call → Option (Option Allocation × Option Allocation)
  | store _ _ block entry => some (block, entry)
  | alloc _ _ _ block entry => some (block, entry)
  | free _ => none
  | reopen => none

variable (hash : Bytes → ℕ)

/-- What a call does. -/
def exec (s : PMDKHashtableStorage) : Call → Except Failure Unit × PMDKHashtableStorage
  | store id src block entry => s.store hash id src block entry
  | alloc id size fill block entry =>
    match s.alloc hash id size block entry with
    | (.error e, t) => (.error e, t)
    | (.ok buf, t) => (.ok (), { t with pool := t.pool.write buf fill })
  | free id => s.free hash id
  | reopen =>
    match PMDKHashtableStorage.openPool s.munmap with
    | .ok t => (.ok (), t)
    | .error e => (.error e, s)

/-- The answers in a call are ones PMDK can give in this state, and a buffer is filled exactly. -/
def Possible (s : PMDKHashtableStorage) : Call → Prop
  | store _ src block entry =>
    s.pool.CanAnswer src.length block ∧
      (s.pool.pobjAlloc (PMDKHashtableStorage.allocStr src) block).2.CanAnswer
        PMEMPointer.structSize entry
  | alloc _ size fill block entry =>
    fill.length = size ∧ s.pool.CanAnswer size block ∧
      (s.pool.pobjAlloc (fun raw => raw) block).2.CanAnswer PMEMPointer.structSize entry
  | free _ => True
  | reopen => True

/-- Both allocations of an insertion are served. -/
def Served (c : Call) : Prop := ∀ b e, c.answers = some (b, e) → b.isSome ∧ e.isSome

/-- A step of a client's run: any call with answers PMDK can give, however it ends. -/
def Step (s : PMDKHashtableStorage) (c : Call) (t : PMDKHashtableStorage) : Prop :=
  c.Possible s ∧ (c.exec hash s).2 = t

/-- A successful call: its allocations are served and it returns normally. -/
def Succeeds (s : PMDKHashtableStorage) (c : Call) (t : PMDKHashtableStorage) : Prop :=
  c.Possible s ∧ c.Served ∧ c.exec hash s = (.ok (), t)

end Call

end Pmemcpy
