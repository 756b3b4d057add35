import Pmemcpy.Hashtable.Operations
import Mathlib.Data.List.Induction

/-!
# The life cycle of a pool

`mmap` creates the pool file if there is none at the path and opens it
otherwise. `_create` makes the file first and its table in a transaction after
that, so a crash in between leaves a file without a table, and `_open` does not
look whether there is one. A history of `mmap`, `munmap`, `release` and calls of
the open storage is safe if and only if no `mmap` opens such a leftover.
-/

namespace Pmemcpy

open Lib PMDKHashtableStorage

/-! ### The steps of `_create` -/

/-- The steps of `_create`, with what each does to the file at the path. -/
def createSteps (nbuckets : ℕ) : List (Option PoolFile → Option PoolFile) :=
  [ -- `pmemobj_create` and `POBJ_ROOT`: the root object is zeroed
    fun _ => some ⟨none, none⟩,
    -- `TX_ADD(root_)`
    Option.map fun f => { f with undo := some f.table },
    -- `TX_ZALLOC` of the table, with room for all the bucket heads
    Option.map fun f => { f with table := some ⟨0, nbuckets, fun _ => [], fun _ => none⟩ },
    -- `ROOT_TABLE_RW(root_)->nbuckets = nbuckets`
    Option.map fun f => { f with table := f.table.map fun p => { p with nbuckets := nbuckets } },
    -- `TX_END`
    Option.map fun f => { f with undo := none }]

/-- The file after the first `n` steps of `_create`. -/
def createdFile (n : ℕ) : Option PoolFile :=
  ((createSteps 1000).take n).foldl (fun f step => step f) none

/-- How a `_create` can end. -/
inductive CreateEnd where
  /-- `pmemobj_create` returns null. -/
  | poolFailed
  /-- The process dies after some steps. -/
  | died (steps : ℕ)
  /-- The transaction aborts after some steps, and its handler releases the path and throws. -/
  | aborted (steps : ℕ)
  /-- The process dies in the handler, before or after the path is released. -/
  | diedInAbort (steps : ℕ) (released : Bool)
  | done
  deriving DecidableEq, Repr

/-- What happens at one path: the pool file there, the storage that has its pool
open, and whether this pool is still the file at the path. -/
structure World where
  file : Option PoolFile
  storage : Option PMDKHashtableStorage
  linked : Bool

namespace World

/-- Nothing exists, nothing is open. -/
def initial : World := ⟨none, none, false⟩

/-- `_create`. There is no result where the process dies. -/
def create (w : World) : CreateEnd → Option (Except Failure Unit) × World
  | .poolFailed => (some (.error (.thrown .pmdkHashPoolFailed)), ⟨w.file, none, false⟩)
  | .died n => (none, ⟨createdFile n, none, false⟩)
  | .aborted _ => (some (.error (.thrown .pmdkCreateHeaderFailed)), ⟨none, none, false⟩)
  | .diedInAbort n released =>
    (none, ⟨if released then none else (createdFile n).map PoolFile.recover, none, false⟩)
  | .done => (some (.ok ()), ⟨createdFile 5, some created, true⟩)

/-- `_open`, with the answer of `pmemobj_open`. -/
def openFile (w : World) (f : PoolFile) : Bool → Option (Except Failure Unit) × World
  | false => (some (.error (.thrown .pmdkCantOpenPool)), ⟨w.file, none, false⟩)
  | true =>
    match openPool f with
    | .ok s => (some (.ok ()), ⟨some f.recover, some s, true⟩)
    | .error e => (some (.error e), ⟨some f.recover, none, false⟩)

/-- `mmap(path)`: what it does depends only on whether the file exists. -/
def mmap (w : World) (creates : CreateEnd) (opens : Bool) : Option (Except Failure Unit) × World :=
  match w.file with
  | none => w.create creates
  | some f => w.openFile f opens

/-- `munmap()`. -/
def munmap (w : World) : World := ⟨w.file, none, false⟩

/-- `release(path)`: an open pool stays open without a name. -/
def release (w : World) : World := ⟨none, w.storage, false⟩

/-- A call of the open storage. -/
def use (hash : Bytes → ℕ) (w : World) (c : Call) : World :=
  match w.storage with
  | none => w
  | some s =>
    let t := (c.exec hash s).2
    ⟨if w.linked then some t.munmap else w.file, some t, w.linked⟩

end World

/-- What can happen at a path. -/
inductive Event where
  | mmap (creates : CreateEnd) (opens : Bool)
  | munmap
  | release
  | use (c : Call)
  deriving DecidableEq, Repr

/-- What an event does. -/
def World.step (hash : Bytes → ℕ) (w : World) : Event → World
  | .mmap creates opens => (w.mmap creates opens).2
  | .munmap => w.munmap
  | .release => w.release
  | .use c => w.use hash c

/-- The world after a history, which begins with nothing at the path. -/
def worldAfter (hash : Bytes → ℕ) (events : List Event) : World :=
  events.foldl (World.step hash) World.initial

/-! ### Safety -/

/-- `sizeof(struct PMEMPointerTable)`, without its flexible array. -/
def tableHeaderSize : ℕ := 8

/-- `sizeof(struct PMEMPointerList)`: the first entry and a lock. -/
def listHeadSize : ℕ := 80

/-- The offset of `BUCKET_RW(root_, idx)` in the table. -/
def bucketOffset (idx : ℕ) : ℕ := tableHeaderSize + idx * listHeadSize

/-- The size that the table was allocated with. -/
def tableSize (heads : ℕ) : ℕ := tableHeaderSize + listHeadSize * heads

/-- The storage has as many buckets as its table has heads, and at least one. -/
structure PMDKHashtableStorage.Sound (s : PMDKHashtableStorage) : Prop where
  pos : 0 < s.nbuckets
  heads : s.nbuckets = s.pool.heads

/-- The modulus of `_hashfun` is not zero, and every bucket it leads to lies in the table. -/
def PMDKHashtableStorage.Addressable (hash : Bytes → ℕ) (s : PMDKHashtableStorage) : Prop :=
  s.nbuckets ≠ 0 ∧
    ∀ id, bucketOffset (s.hashfun hash id) + listHeadSize ≤ tableSize s.pool.heads

/-- An `mmap` that does not take its process down throws an error of the library or
returns with a sound storage. -/
def SafeMmap (result : Option (Except Failure Unit) × World) : Prop :=
  result.1 = none ∨ (∃ e, result.1 = some (.error (.thrown e))) ∨
    (result.1 = some (.ok ()) ∧ ∃ s, result.2.storage = some s ∧ s.Sound)

/-- Every `mmap` of a history is safe, and at every time the buckets of an open
storage can be addressed. -/
def SafeHistory (hash : Bytes → ℕ) (events : List Event) : Prop :=
  ∀ pre, pre <+: events →
    (∀ s, (worldAfter hash pre).storage = some s → s.Addressable hash) ∧
      ∀ creates opens, pre ++ [.mmap creates opens] <+: events →
        SafeMmap ((worldAfter hash pre).mmap creates opens)

/-! ### The abstract path -/

/-- What is at a path: nothing, a pool with its table, or what an interrupted
`_create` left. -/
inductive PathState where
  | absent
  | whole
  | leftover
  deriving DecidableEq, Repr

namespace PathState

/-- What the first `n` steps of `_create` leave, after recovery. -/
def ofSteps (n : ℕ) : PathState := if n = 0 then absent else if n < 5 then leftover else whole

/-- What an event does to the path. -/
def step (p : PathState) : Event → PathState
  | .mmap creates _ =>
    match p, creates with
    | absent, .poolFailed => absent
    | absent, .died n => ofSteps n
    | absent, .aborted _ => absent
    | absent, .diedInAbort n released => if released then absent else ofSteps n
    | absent, .done => whole
    | p, _ => p
  | .munmap => p
  | .release => absent
  | .use _ => p

end PathState

/-- What a history leaves at the path. -/
def pathAfter (events : List Event) : PathState := events.foldl PathState.step .absent

/-- No `mmap` of a history gets what an interrupted `_create` has left opened. -/
def OpensNoLeftover (events : List Event) : Prop :=
  ∀ pre creates, pre ++ [.mmap creates true] <+: events → pathAfter pre ≠ .leftover

section Simulation

variable {hash : Bytes → ℕ} {w : World} {p : PathState} {s : PMDKHashtableStorage}

/-- A storage whose two copies of the number of buckets agree with its table. -/
structure PMDKHashtableStorage.Sized (s : PMDKHashtableStorage) : Prop where
  sound : s.Sound
  nbuckets : s.nbuckets = s.pool.nbuckets

/-- The pool file at the path is as the abstract path says. -/
def FileIs (file : Option PoolFile) : PathState → Prop
  | .absent => file = none
  | .leftover => ∃ f, file = some f ∧ f.recover.table = none
  | .whole => ∃ f t, file = some f ∧ f.recover.table = some t ∧ (⟨t, t.nbuckets⟩ :
      PMDKHashtableStorage).Sized

/-- The world is as the abstract path says. -/
structure Follows (w : World) (p : PathState) : Prop where
  file : FileIs w.file p
  storage : ∀ s, w.storage = some s → s.Sized
  linked : w.linked = true → p = .whole

/-- No call changes the number of buckets. -/
theorem PMDKHashtableStorage.Sized.exec (h : s.Sized) (c : Call) : ((c.exec hash s).2).Sized := by
  have hkept : (c.exec hash s).2.pool.nbuckets = s.pool.nbuckets ∧
      (c.exec hash s).2.pool.heads = s.pool.heads ∧
      ((c.exec hash s).2.nbuckets = s.nbuckets ∨ (c.exec hash s).2.nbuckets = s.pool.nbuckets) := by
    cases c with
    | store id src block entry =>
      cases block <;> cases entry <;> exact ⟨rfl, rfl, Or.inl rfl⟩
    | alloc id size fill block entry =>
      cases block <;> cases entry <;> exact ⟨rfl, rfl, Or.inl rfl⟩
    | free id =>
      cases hfind : s.findEntry hash id with
      | error f =>
        rw [Call.exec, PMDKHashtableStorage.free, hfind]
        exact ⟨rfl, rfl, Or.inl rfl⟩
      | ok x =>
        rw [Call.exec, free_found hfind]
        exact ⟨rfl, rfl, Or.inl rfl⟩
    | reopen => exact ⟨rfl, rfl, Or.inr rfl⟩
  obtain ⟨hn, hheads, hcopy⟩ := hkept
  obtain ⟨⟨hpos, hsound⟩, heq⟩ := h
  refine ⟨⟨?_, ?_⟩, ?_⟩
  · omega
  · omega
  · omega

/-- What recovery makes of the file after the first steps of `_create`. -/
theorem fileIs_createdFile (n : ℕ) :
    FileIs (createdFile n) (.ofSteps n) ∧
      FileIs ((createdFile n).map PoolFile.recover) (.ofSteps n) := by
  match n with
  | 0 => exact ⟨rfl, rfl⟩
  | 1 => exact ⟨⟨_, rfl, rfl⟩, ⟨_, rfl, rfl⟩⟩
  | 2 => exact ⟨⟨_, rfl, rfl⟩, ⟨_, rfl, rfl⟩⟩
  | 3 => exact ⟨⟨_, rfl, rfl⟩, ⟨_, rfl, rfl⟩⟩
  | 4 => exact ⟨⟨_, rfl, rfl⟩, ⟨_, rfl, rfl⟩⟩
  | n + 5 =>
    have hfile : createdFile (n + 5) = createdFile 5 := by
      rw [createdFile, createdFile, List.take_of_length_le (by simp [createSteps]),
        List.take_of_length_le (by simp [createSteps])]
    have hstate : PathState.ofSteps (n + 5) = .whole := by
      simp [PathState.ofSteps]
    rw [hfile, hstate]
    have hsized : (⟨Pool.empty 1000, 1000⟩ : PMDKHashtableStorage).Sized :=
      ⟨⟨by decide, rfl⟩, rfl⟩
    exact ⟨⟨_, _, rfl, rfl, hsized⟩, ⟨_, _, rfl, rfl, hsized⟩⟩

/-- Recovery is done once. -/
theorem recover_recover (f : PoolFile) : f.recover.recover = f.recover := by
  obtain ⟨table, undo⟩ := f
  cases undo <;> rfl

/-- `_open` of a file with a table returns. -/
theorem openFile_whole {f : PoolFile} {t : Pool} (h : f.recover.table = some t) :
    w.openFile f true = (some (.ok ()), ⟨some f.recover, some ⟨t, t.nbuckets⟩, true⟩) := by
  have hopen : openPool f = .ok ⟨t, t.nbuckets⟩ := by rw [openPool, h]
  simp only [World.openFile, hopen]

/-- `_open` of a file without a table reads through a null pointer. -/
theorem openFile_leftover {f : PoolFile} (h : f.recover.table = none) :
    w.openFile f true = (some (.error .undefined), ⟨some f.recover, none, false⟩) := by
  have hopen : openPool f = .error .undefined := by rw [openPool, h]
  simp only [World.openFile, hopen]

/-- An event that finds nothing at the path finds an absent abstract path. -/
theorem Follows.absent_iff (h : Follows w p) : w.file = none ↔ p = .absent := by
  have hfile := h.file
  cases p with
  | absent => exact ⟨fun _ => rfl, fun _ => hfile⟩
  | leftover =>
    obtain ⟨f, hf, _⟩ := hfile
    simp [hf]
  | whole =>
    obtain ⟨f, t, hf, _⟩ := hfile
    simp [hf]

/-- A `_create` is simulated by its step of the abstract path. -/
theorem Follows.create (creates : CreateEnd) (opens : Bool) (hw : w.file = none) :
    Follows (w.create creates).2 (PathState.step .absent (.mmap creates opens)) := by
  have hclosed : ∀ s : PMDKHashtableStorage, (none : Option PMDKHashtableStorage) = some s →
      s.Sized := by
    rintro s ⟨⟩
  cases creates with
  | poolFailed => exact ⟨hw, hclosed, by rintro ⟨⟩⟩
  | died n => exact ⟨(fileIs_createdFile n).1, hclosed, by rintro ⟨⟩⟩
  | aborted n => exact ⟨rfl, hclosed, by rintro ⟨⟩⟩
  | diedInAbort n released =>
    refine ⟨?_, hclosed, by rintro ⟨⟩⟩
    cases released with
    | false => exact (fileIs_createdFile n).2
    | true => rfl
  | done =>
    refine ⟨(fileIs_createdFile 5).1, ?_, fun _ => rfl⟩
    rintro s ⟨⟩
    exact ⟨⟨by decide, rfl⟩, rfl⟩

/-- An `_open` leaves the abstract path as it is. -/
theorem Follows.openFile (h : Follows w p) (opens : Bool) {f : PoolFile} (hf : w.file = some f) :
    Follows (w.openFile f opens).2 p := by
  have hclosed : ∀ s : PMDKHashtableStorage, (none : Option PMDKHashtableStorage) = some s →
      s.Sized := by
    rintro s ⟨⟩
  have hfile := h.file
  cases opens with
  | false => exact ⟨h.file, hclosed, by rintro ⟨⟩⟩
  | true =>
    cases p with
    | absent =>
      rw [h.absent_iff.mpr rfl] at hf
      cases hf
    | leftover =>
      obtain ⟨f', hf', htable⟩ := hfile
      obtain rfl := Option.some.inj (hf.symm.trans hf')
      rw [openFile_leftover htable]
      exact ⟨⟨_, rfl, by rw [recover_recover, htable]⟩, hclosed, by rintro ⟨⟩⟩
    | whole =>
      obtain ⟨f', t, hf', htable, hsized⟩ := hfile
      obtain rfl := Option.some.inj (hf.symm.trans hf')
      rw [openFile_whole htable]
      refine ⟨⟨_, t, rfl, by rw [recover_recover, htable], hsized⟩, ?_, fun _ => rfl⟩
      rintro s ⟨⟩
      exact hsized

/-- Every event is simulated by its step of the abstract path. -/
theorem Follows.step (h : Follows w p) (e : Event) : Follows (w.step hash e) (p.step e) := by
  cases e with
  | munmap => exact ⟨h.file, by rintro s ⟨⟩, by rintro ⟨⟩⟩
  | release => exact ⟨rfl, h.storage, by rintro ⟨⟩⟩
  | use c =>
    change Follows (w.use hash c) p
    cases hs : w.storage with
    | none =>
      rw [World.use, hs]
      exact h
    | some s =>
      have hsized : ((c.exec hash s).2).Sized := (h.storage s hs).exec c
      rw [World.use, hs]
      refine ⟨?_, ?_, h.linked⟩
      · change FileIs (if w.linked then some ((c.exec hash s).2).munmap else w.file) p
        by_cases hl : w.linked = true
        · rw [if_pos hl, h.linked hl]
          exact ⟨_, _, rfl, rfl, ⟨hsized.nbuckets ▸ hsized.sound.pos,
            hsized.nbuckets ▸ hsized.sound.heads⟩, rfl⟩
        · rw [if_neg hl]
          exact h.file
      · rintro t ⟨⟩
        exact hsized
  | mmap creates opens =>
    change Follows (w.mmap creates opens).2 _
    cases hf : w.file with
    | none =>
      obtain rfl := h.absent_iff.mp hf
      rw [World.mmap, hf]
      exact Follows.create creates opens hf
    | some f =>
      have hne : p ≠ .absent := fun hp => by simp [h.absent_iff.mpr hp] at hf
      have hkeep : p.step (.mmap creates opens) = p := by
        cases p with
        | absent => exact absurd rfl hne
        | leftover => rfl
        | whole => rfl
      rw [World.mmap, hf, hkeep]
      exact h.openFile opens hf

/-- The world of a history is as its abstract path says. -/
theorem worldAfter_follows (hash : Bytes → ℕ) (events : List Event) :
    Follows (worldAfter hash events) (pathAfter events) := by
  induction events using List.reverseRecOn with
  | nil => exact ⟨rfl, by rintro s ⟨⟩, by rintro ⟨⟩⟩
  | append_singleton events e ih =>
    rw [worldAfter, pathAfter, List.foldl_append, List.foldl_append]
    exact ih.step e

/-- A storage with as many buckets as heads leads `_hashfun` into its table. -/
theorem PMDKHashtableStorage.Sound.addressable (h : s.Sound) (hash : Bytes → ℕ) :
    s.Addressable hash := by
  refine ⟨h.pos.ne', ?_⟩
  intro id
  have hlt : s.hashfun hash id < s.pool.heads := by
    rw [← h.heads]
    exact Nat.mod_lt _ h.pos
  simp only [bucketOffset, tableSize, listHeadSize]
  omega

/-- An `mmap` is safe unless it gets a leftover opened. -/
theorem safeMmap_iff (h : Follows w p) (creates : CreateEnd) (opens : Bool) :
    SafeMmap (w.mmap creates opens) ↔ ¬(p = .leftover ∧ opens = true) := by
  cases hf : w.file with
  | none =>
    obtain rfl := h.absent_iff.mp hf
    rw [World.mmap, hf]
    refine iff_of_true ?_ (by simp)
    cases creates with
    | poolFailed => exact Or.inr (Or.inl ⟨_, rfl⟩)
    | died n => exact Or.inl rfl
    | aborted n => exact Or.inr (Or.inl ⟨_, rfl⟩)
    | diedInAbort n released => exact Or.inl rfl
    | done => exact Or.inr (Or.inr ⟨rfl, _, rfl, by decide, rfl⟩)
  | some f =>
    have hfile := h.file
    have hmmap : w.mmap creates opens = w.openFile f opens := by rw [World.mmap, hf]
    rw [hmmap]
    cases opens with
    | false => exact iff_of_true (Or.inr (Or.inl ⟨_, rfl⟩)) (by simp)
    | true =>
      cases p with
      | absent =>
        rw [h.absent_iff.mpr rfl] at hf
        cases hf
      | leftover =>
        obtain ⟨f', hf', htable⟩ := hfile
        obtain rfl := Option.some.inj (hf.symm.trans hf')
        rw [openFile_leftover htable]
        refine iff_of_false ?_ (by simp)
        rintro (hr | ⟨e, hr⟩ | ⟨hr, _⟩) <;> cases hr
      | whole =>
        obtain ⟨f', t, hf', htable, hsized⟩ := hfile
        obtain rfl := Option.some.inj (hf.symm.trans hf')
        rw [openFile_whole htable]
        exact iff_of_true (Or.inr (Or.inr ⟨rfl, _, rfl, hsized.sound⟩)) (by simp)

end Simulation

/-- **Safety of the life cycle of a pool.** Every `mmap` of a history throws an
error of the library or returns with a table, and with as many buckets as this
has heads, so that every bucket can be addressed until `munmap`, if and only if
no `mmap` of the history opens what an interrupted `_create` has left behind. -/
theorem safeHistory_iff (hash : Bytes → ℕ) (events : List Event) :
    SafeHistory hash events ↔ OpensNoLeftover events := by
  constructor
  · intro hsafe pre creates hpre hleft
    have hmmap := (hsafe pre ((List.prefix_append _ _).trans hpre)).2 creates true hpre
    exact (safeMmap_iff (worldAfter_follows hash pre) creates true).mp hmmap ⟨hleft, rfl⟩
  · intro hopens pre hpre
    have hfollows := worldAfter_follows hash pre
    refine ⟨fun s hs => (hfollows.storage s hs).sound.addressable hash, ?_⟩
    intro creates opens hmmap
    rw [safeMmap_iff hfollows]
    rintro ⟨hleft, rfl⟩
    exact hopens pre creates hmmap hleft

/-- A process that dies after `pmemobj_create` leaves a file that no later `mmap` survives. -/
theorem died_create_unsafe :
    ¬SafeHistory (fun _ => 0) [.mmap (.died 1) true, .mmap .done true] := by
  intro hsafe
  have hmmap := (hsafe [.mmap (.died 1) true] ⟨[.mmap .done true], rfl⟩).2 .done true
    (List.prefix_refl _)
  rcases hmmap with h | ⟨e, h⟩ | ⟨h, _⟩ <;> cases h

end Pmemcpy
