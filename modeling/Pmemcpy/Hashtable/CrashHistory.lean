import Pmemcpy.Hashtable.Crash
import Pmemcpy.Hashtable.Interference

/-!
# The table after any number of crashes

A process may die between any two PMDK calls of any operation, and the next one
goes on with the pool it finds. The abstract model keeps a stack of slots for
each id: a slot holds a value, or nothing when a `free` died after `POBJ_FREE`.
Every history of calls and crashes refines it, and the live blocks without an
entry are exactly those of the insertions that died, or were refused their
entry, after they got their block.
-/

namespace Pmemcpy

open Lib PMDKHashtableStorage

/-- The slots of each id, the most recent first; `none` is an entry whose block is freed. -/
abbrev Slots := Bytes → List (Option Bytes)

/-- What an event does to the slots and the blocks. -/
inductive Change where
  | keep
  /-- The block at this OID is allocated, and no entry refers to it. -/
  | lose (block : PMEMoid)
  | push (id v : Bytes)
  /-- The value of the first slot is gone. -/
  | tear (id : Bytes)
  | pop (id : Bytes)
  deriving DecidableEq, Repr

namespace Change

/-- The slots after a change. -/
def apply (σ : Slots) : Change → Slots
  | keep => σ
  | lose _ => σ
  | push id v => Function.update σ id (some v :: σ id)
  | tear id => Function.update σ id ((σ id).modifyHead fun _ => none)
  | pop id => Function.update σ id (σ id).tail

/-- The block that a change loses. -/
def lost : Change → Option PMEMoid
  | lose block => some block
  | keep | push _ _ | tear _ | pop _ => none

end Change

/-- An event of a history: a call that ran to its end, or one whose process died after
`k` of its PMDK calls, whereupon the pool was opened again. -/
inductive PoolEvent where
  | ran (c : Call)
  | died (c : Call) (k : ℕ)
  deriving DecidableEq, Repr

/-- What the first `k` PMDK calls of an insertion do. -/
def insertionChange (id v : Bytes) (block entry : Option Allocation) (k : ℕ) : Change :=
  match block with
  | none => .keep
  | some a => if k = 0 then .keep else if k = 1 ∨ entry = none then .lose a.oid else .push id v

/-- What the first `k` PMDK calls of a `free` do. -/
def freeChange (id : Bytes) (k : ℕ) : Change :=
  if k = 0 then .keep else if k = 1 then .tear id else .pop id

namespace PoolEvent

/-- The call of an event. -/
def call : PoolEvent → Call
  | ran c => c
  | died c _ => c

/-- What an event does. A process that dies in `alloc` has not filled its buffer. -/
def change : PoolEvent → Change
  | ran (.store id src block entry) => insertionChange id src block entry 2
  | ran (.alloc id _ fill block entry) => insertionChange id fill block entry 2
  | ran (.free id) => freeChange id 2
  | ran .reopen => .keep
  | died (.store id src block entry) k => insertionChange id src block entry k
  | died (.alloc id _ _ block entry) k =>
    insertionChange id ((block.map Allocation.raw).getD []) block entry k
  | died (.free id) k => freeChange id k
  | died .reopen _ => .keep

/-- A step of a history. -/
def Step (hash : Bytes → ℕ) (s : PMDKHashtableStorage) (event : PoolEvent)
    (t : PMDKHashtableStorage) : Prop :=
  (∀ id, event.call.id? = some id → StorableId id) ∧
    match event with
    | ran c => c.Step hash s t
    | died c k => c.Possible s ∧ openPool ⟨some (crashPool hash s c k), none⟩ = .ok t

end PoolEvent

/-- The slots after a history. -/
def slotsOf (events : List PoolEvent) : Slots :=
  events.foldl (fun σ event => event.change.apply σ) fun _ => []

/-- The blocks that a history has lost. -/
def lostBlocks (events : List PoolEvent) : List PMEMoid :=
  events.filterMap fun event => event.change.lost

/-- The outcome of reading the first slot: a value whose block is freed is read through
a null pointer. -/
def slotOutcome : List (Option Bytes) → Except Failure Bytes
  | [] => .error (.thrown .pmdkCantFindKey)
  | none :: _ => .error .undefined
  | some v :: _ => .ok v

namespace Pool

/-- The slots of an id in the table, in the order of the walk. -/
def slots (hash : Bytes → ℕ) (p : Pool) (id : Bytes) : List (Option Bytes) :=
  (p.named hash id).map fun x => p.blocks x.entry.data

/-- Some entry refers to this object. -/
def Owns (p : Pool) (o : PMEMoid) : Prop :=
  o ≠ PMEMoid.null ∧ ∃ b, ∃ x ∈ p.buckets b, x.entry.data = o

/-- The entries whose data OID is null. -/
def torn (p : Pool) : Set PMEMoid :=
  {o | ∃ b, ∃ x ∈ p.buckets b, x.oid = o ∧ x.entry.data = PMEMoid.null}

/-- The live blocks are those with an entry, and the lost ones, which are all different. -/
structure Accounts (p : Pool) (lost : List PMEMoid) : Prop where
  live : ∀ o, (p.blocks o).isSome ↔ p.Owns o ∨ o ∈ lost
  unreferenced : ∀ o ∈ lost, p.Unreferenced o
  nodup : lost.Nodup

section Torn

variable {hash : Bytes → ℕ} {p : Pool} {freed : Set PMEMoid} {b size : ℕ} {a : Allocation}
  {x y : ListElem} {id id' : Bytes} {lost : List PMEMoid}

/-- Which entries are cleared can be read off the table. -/
theorem Wf.mem_torn_iff (h : p.Wf hash freed) (hx : x ∈ p.buckets b) :
    x.oid ∈ p.torn ↔ x.oid ∈ freed := by
  constructor
  · rintro ⟨b', y, hy, hoid, hdata⟩
    obtain rfl := h.oid_inj hy hx hoid
    by_contra hfreed
    obtain ⟨v, hv, _⟩ := h.live hy hfreed
    rw [hdata, h.blocks_null] at hv
    cases hv
  · intro hfreed
    exact ⟨b, x, hx, rfl, h.cleared hx hfreed⟩

/-- A table that is in order but for some cleared entries is so for those that are seen to be
cleared. -/
theorem Wf.to_torn (h : p.Wf hash freed) : p.Wf hash p.torn where
  nbuckets_pos := h.nbuckets_pos
  heads := h.heads
  placed := h.placed
  entry := h.entry
  nodup := h.nodup
  oid_inj := h.oid_inj
  live hx htorn := h.live hx fun hfreed => htorn ((h.mem_torn_iff hx).mpr hfreed)
  cleared hx htorn := h.cleared hx ((h.mem_torn_iff hx).mp htorn)
  owned hx hy hxtorn hytorn := by
    rw [h.mem_torn_iff hx] at hxtorn
    rw [h.mem_torn_iff hy] at hytorn
    exact h.owned hx hy hxtorn hytorn
  null := h.null

/-- `POBJ_FREE` of a null OID does nothing. -/
theorem Wf.pobjFree_torn (h : p.Wf hash freed) (hx : x ∈ p.buckets b)
    (hdata : x.entry.data = PMEMoid.null) : p.pobjFree b x = p := by
  have hsize := (h.entry hx).size
  have hslice : slice x.entry.image PMEMPointer.dataOff 16 = PMEMoid.null.toBytes := by
    have hlength : (slice x.entry.image PMEMPointer.dataOff 16).length = 16 := by
      apply length_slice
      rw [hsize]
      decide
    rw [← PMEMoid.toBytes_ofBytes hlength]
    exact congrArg PMEMoid.toBytes hdata
  have hclear : x.entry.clearData = x.entry := by
    unfold PMEMPointer.clearData
    rw [← hslice, splice_slice]
    rw [hsize]
    decide
  have hmap : (p.buckets b).map (fun y =>
      if y.oid = x.oid then { y with entry := y.entry.clearData } else y) = p.buckets b := by
    refine (List.map_congr_left ?_).trans (List.map_id _)
    intro y hy
    split
    · rename_i hoid
      obtain rfl := h.oid_inj hy hx hoid
      rw [hclear]
      rfl
    · rfl
  have hblocks : Function.update p.blocks PMEMoid.null none = p.blocks := by
    rw [← h.blocks_null, Function.update_eq_self]
  rw [Pool.pobjFree, hdata, hmap, hblocks, Function.update_eq_self]

/-- `POBJ_FREE` keeps the invariant, also on an entry that was cleared before. -/
theorem Wf.pobjFree_again (h : p.Wf hash p.torn) (hx : x ∈ p.buckets b) :
    (p.pobjFree b x).Wf hash (insert x.oid p.torn) := by
  by_cases htorn : x.oid ∈ p.torn
  · rw [h.pobjFree_torn hx (h.cleared hx htorn), Set.insert_eq_of_mem htorn]
    exact h
  · exact h.pobjFree hx htorn

/-! ### The slots -/

/-- A new block changes no slot. -/
theorem Wf.slots_pobjAlloc (h : p.Wf hash freed) (ha : p.Fresh size a)
    (constructor : Bytes → Bytes) (id : Bytes) :
    (p.pobjAlloc constructor (some a)).2.slots hash id = p.slots hash id := by
  apply List.map_congr_left
  intro x hx
  have hbucket : x ∈ p.buckets (hash id % p.nbuckets) := (List.mem_filter.mp hx).1
  exact Function.update_of_ne (h.data_ne_of_fresh ha _ _ hbucket) _ _

/-- An insertion pushes a slot. -/
theorem slots_insertEntry {info : PMEMListArgs} {v : Bytes} (hi : p.Insertable hash b info v)
    (ha : p.Fresh PMEMPointer.structSize a) (hid : NulFree info.id) (id : Bytes) :
    (p.insertEntry b info a).slots hash id =
      if id = info.id then some v :: p.slots hash id else p.slots hash id := by
  obtain ⟨_, _, _, hdata⟩ := hi.fields ha
  have hblocks : (p.insertEntry b info a).blocks = p.blocks := rfl
  rw [slots, named_insertEntry hi ha, hblocks, hi.bucket, if_congr (sameBucket_iff hid) rfl rfl]
  split
  · rw [List.map_cons, hdata, hi.block, slots]
  · rfl

/-- What the entries hold after `POBJ_FREE`, also on an entry that was cleared before. -/
theorem Wf.blocks_pobjFree_again (h : p.Wf hash p.torn) (hx : x ∈ p.buckets b) {b' : ℕ}
    (hy : y ∈ p.buckets b') :
    (p.pobjFree b x).blocks (clearElem x y).entry.data =
      if y.oid = x.oid then none else p.blocks y.entry.data := by
  by_cases htorn : x.oid ∈ p.torn
  · rw [h.pobjFree_torn hx (h.cleared hx htorn)]
    split
    · rename_i hoid
      have hnull : (clearElem x y).entry.data = PMEMoid.null := by
        simp [clearElem, hoid, (h.entry hy).clearData.2.2.2]
      rw [hnull, h.blocks_null]
    · rename_i hoid
      rw [clearElem, if_neg hoid]
  · exact h.blocks_pobjFree hx htorn hy

/-- `POBJ_FREE` empties the slot of its entry. -/
theorem Wf.slots_pobjFree (h : p.Wf hash p.torn) (hx : x ∈ p.buckets b) (id : Bytes) :
    (p.pobjFree b x).slots hash id =
      (p.named hash id).map fun y => if y.oid = x.oid then none else p.blocks y.entry.data := by
  rw [slots, h.named_pobjFree hx, List.map_map]
  apply List.map_congr_left
  intro y hy
  exact h.blocks_pobjFree_again hx (List.mem_filter.mp hy).1

/-- `POBJ_FREE` empties the first slot of the id whose entry it clears. -/
theorem Wf.slots_pobjFree_self (h : p.Wf hash p.torn) {rest : List ListElem}
    (hx : p.named hash id = x :: rest) :
    (p.pobjFree (hash id % p.nbuckets) x).slots hash id =
      (p.slots hash id).modifyHead fun _ => none := by
  have hmem : x ∈ p.named hash id := by simp [hx]
  have hrest := h.filter_first hx
  rw [h.slots_pobjFree (List.mem_filter.mp hmem).1, slots, hx, List.map_cons, List.map_cons,
    List.modifyHead_cons, if_pos rfl]
  congr 1
  apply List.map_congr_left
  intro y hy
  rw [← hrest] at hy
  have hne : y.oid ≠ x.oid := by simpa using (List.mem_filter.mp hy).2
  rw [if_neg hne]

/-- `POBJ_FREE` leaves the slots of the other ids. -/
theorem Wf.slots_pobjFree_other (h : p.Wf hash p.torn) (hx : x ∈ p.named hash id)
    (hid : NulFree id) (hne : id ≠ id') :
    (p.pobjFree (hash id % p.nbuckets) x).slots hash id' = p.slots hash id' := by
  rw [h.slots_pobjFree (List.mem_filter.mp hx).1, slots]
  apply List.map_congr_left
  intro y hy
  rw [if_neg (h.oid_ne hx hy hid hne).symm]

/-- The entry that `POBJ_FREE` has cleared is still linked. -/
theorem Wf.mem_cleared (h : p.Wf hash freed) (hx : x ∈ p.buckets b) :
    clearElem x x ∈ (p.pobjFree b x).buckets b := by
  rw [h.buckets_pobjFree hx]
  exact List.mem_map_of_mem hx

/-- A `free` takes the slot of its entry. -/
theorem Wf.slots_free (h : p.Wf hash p.torn) (hx : x ∈ p.buckets b) (id : Bytes) :
    ((p.pobjFree b x).pobjListRemoveFree b x.oid).slots hash id =
      ((p.named hash id).filter fun y => y.oid ≠ x.oid).map fun y => p.blocks y.entry.data := by
  have hremove := (h.pobjFree_again hx).named_remove (h.mem_cleared hx) id
  have hblocks : ((p.pobjFree b x).pobjListRemoveFree b x.oid).blocks = (p.pobjFree b x).blocks :=
    rfl
  rw [clearElem_oid, h.named_pobjFree hx, List.filter_map] at hremove
  rw [slots, hremove, hblocks, List.map_map]
  have hfilter : (p.named hash id).filter ((fun y => decide (y.oid ≠ x.oid)) ∘ clearElem x) =
      (p.named hash id).filter fun y => y.oid ≠ x.oid := by
    apply List.filter_congr
    intro y _
    simp
  rw [hfilter]
  apply List.map_congr_left
  intro y hy
  obtain ⟨hnamed, hne⟩ := List.mem_filter.mp hy
  have hoid : y.oid ≠ x.oid := by simpa using hne
  have hblock := h.blocks_pobjFree_again hx (List.mem_filter.mp hnamed).1
  rw [if_neg hoid] at hblock
  exact hblock

/-! ### The blocks -/

/-- The empty table accounts for no block. -/
theorem accounts_empty (n : ℕ) : (Pool.empty n).Accounts [] := by
  refine ⟨?_, by simp, List.nodup_nil⟩
  intro o
  simp [Owns, Pool.empty]

/-- A live block is not null. -/
theorem Wf.ne_null (h : p.Wf hash freed) {o : PMEMoid} (ho : (p.blocks o).isSome) :
    o ≠ PMEMoid.null := by
  rintro rfl
  rw [h.blocks_null] at ho
  cases ho

/-- A fresh object is not null. -/
theorem Fresh.ne_null (ha : p.Fresh size a) : a.oid ≠ PMEMoid.null := by
  intro hnull
  have hfalse := ha.not_null
  rw [hnull, PMEMoid.isNull_null] at hfalse
  cases hfalse

/-- After an allocation the live blocks are the new one and those from before. -/
theorem isSome_pobjAlloc (constructor : Bytes → Bytes) (o : PMEMoid) :
    ((p.pobjAlloc constructor (some a)).2.blocks o).isSome ↔ o = a.oid ∨ (p.blocks o).isSome := by
  by_cases ho : o = a.oid
  · simp [Pool.pobjAlloc, ho]
  · simp [Pool.pobjAlloc, ho]

/-- A block that is allocated and forgotten is one more lost block. -/
theorem Accounts.pobjAlloc (h : p.Accounts lost) (hwf : p.Wf hash freed) (ha : p.Fresh size a)
    (constructor : Bytes → Bytes) :
    (p.pobjAlloc constructor (some a)).2.Accounts (lost ++ [a.oid]) := by
  have hnew : a.oid ∉ lost := by
    intro hmem
    have hlive := (h.live a.oid).mpr (Or.inr hmem)
    rw [ha.block] at hlive
    cases hlive
  refine ⟨?_, ?_, ?_⟩
  · intro o
    have howns : (p.pobjAlloc constructor (some a)).2.Owns o ↔ p.Owns o := Iff.rfl
    rw [isSome_pobjAlloc, howns, h.live, List.mem_append, List.mem_singleton]
    tauto
  · intro o ho
    rcases List.mem_append.mp ho with ho | ho
    · exact h.unreferenced o ho
    · obtain rfl := List.mem_singleton.mp ho
      exact hwf.data_ne_of_fresh ha
  · rw [List.nodup_append]
    refine ⟨h.nodup, List.nodup_singleton _, ?_⟩
    rintro o ho o' ho' rfl
    exact hnew (List.mem_singleton.mp ho' ▸ ho)

/-- An entry for the block that was allocated last accounts for that block. -/
theorem Accounts.insertEntry {info : PMEMListArgs} {v : Bytes}
    (h : p.Accounts (lost ++ [info.data])) (hi : p.Insertable hash b info v)
    (ha : p.Fresh PMEMPointer.structSize a) (hnull : info.data ≠ PMEMoid.null) :
    (p.insertEntry b info a).Accounts lost := by
  obtain ⟨_, _, _, hdata⟩ := hi.fields ha
  have hblocks : (p.insertEntry b info a).blocks = p.blocks := rfl
  have hnodup := List.nodup_append.mp h.nodup
  refine ⟨?_, ?_, hnodup.1⟩
  · intro o
    have howns : (p.insertEntry b info a).Owns o ↔ p.Owns o ∨ o = info.data := by
      constructor
      · rintro ⟨ho, b', y, hy, hyo⟩
        rcases mem_insertEntry.mp hy with ⟨_, rfl⟩ | hy
        · exact Or.inr (hyo.symm.trans hdata)
        · exact Or.inl ⟨ho, b', y, hy, hyo⟩
      · rintro (⟨ho, b', y, hy, hyo⟩ | rfl)
        · exact ⟨ho, b', y, mem_insertEntry.mpr (Or.inr hy), hyo⟩
        · exact ⟨hnull, b, _, mem_insertEntry.mpr (Or.inl ⟨rfl, rfl⟩), hdata⟩
    rw [hblocks, howns, h.live, List.mem_append, List.mem_singleton, ← or_assoc, or_right_comm]
  · intro o ho b' y hy
    rcases mem_insertEntry.mp hy with ⟨_, rfl⟩ | hy
    · rw [hdata]
      exact (hnodup.2.2 o ho info.data (by simp)).symm
    · exact h.unreferenced o (by simp [ho]) b' y hy

/-- After `POBJ_FREE` the entries refer to all objects from before but the one that is freed. -/
theorem Wf.owns_pobjFree (h : p.Wf hash p.torn) (hx : x ∈ p.buckets b) (htorn : x.oid ∉ p.torn)
    (o : PMEMoid) : (p.pobjFree b x).Owns o ↔ o ≠ x.entry.data ∧ p.Owns o := by
  constructor
  · rintro ⟨ho, b', y, hy, hyo⟩
    rw [h.buckets_pobjFree hx] at hy
    obtain ⟨z, hz, rfl⟩ := List.mem_map.mp hy
    by_cases hzx : z.oid = x.oid
    · have hnull : (clearElem x z).entry.data = PMEMoid.null := by
        simp [clearElem, hzx, (h.entry hz).clearData.2.2.2]
      exact absurd (hyo.symm.trans hnull) ho
    · have hkeep : clearElem x z = z := by simp [clearElem, hzx]
      rw [hkeep] at hyo
      refine ⟨?_, ho, b', z, hz, hyo⟩
      rintro rfl
      have hztorn : z.oid ∉ p.torn := by
        intro hmem
        exact ho (hyo.symm.trans (h.cleared hz hmem))
      exact hzx (h.owned hz hx hztorn htorn hyo)
  · rintro ⟨hox, ho, b', z, hz, hzo⟩
    have hkeep : clearElem x z = z := by
      have hne : z.oid ≠ x.oid := by
        intro hoid
        obtain rfl := h.oid_inj hz hx hoid
        exact hox hzo.symm
      simp [clearElem, hne]
    refine ⟨ho, b', z, ?_, hzo⟩
    rw [h.buckets_pobjFree hx, ← hkeep]
    exact List.mem_map_of_mem hz

/-- `POBJ_FREE` loses no block. -/
theorem Accounts.pobjFree (h : p.Accounts lost) (hwf : p.Wf hash p.torn)
    (hx : x ∈ p.buckets b) : (p.pobjFree b x).Accounts lost := by
  by_cases htorn : x.oid ∈ p.torn
  · rwa [hwf.pobjFree_torn hx (hwf.cleared hx htorn)]
  · refine ⟨?_, ?_, h.nodup⟩
    · intro o
      have hlive : ((p.pobjFree b x).blocks o).isSome ↔
          o ≠ x.entry.data ∧ (p.blocks o).isSome := by
        by_cases ho : o = x.entry.data
        · simp [Pool.pobjFree, ho]
        · simp [Pool.pobjFree, ho]
      have hlost : o ∈ lost → o ≠ x.entry.data := by
        rintro ho rfl
        exact h.unreferenced _ ho b x hx rfl
      rw [hlive, hwf.owns_pobjFree hx htorn, h.live]
      tauto
    · intro o ho b' y hy
      rw [hwf.buckets_pobjFree hx] at hy
      obtain ⟨z, hz, rfl⟩ := List.mem_map.mp hy
      by_cases hzx : z.oid = x.oid
      · have hnull : (clearElem x z).entry.data = PMEMoid.null := by
          simp [clearElem, hzx, (hwf.entry hz).clearData.2.2.2]
        rw [hnull]
        exact (hwf.ne_null ((h.live o).mpr (Or.inr ho))).symm
      · have hkeep : clearElem x z = z := by simp [clearElem, hzx]
        rw [hkeep]
        exact h.unreferenced o ho b' z hz

/-- Unlinking a cleared entry loses no block. -/
theorem Accounts.remove (h : p.Accounts lost) (hwf : p.Wf hash freed) (hx : x ∈ p.buckets b)
    (hdata : x.entry.data = PMEMoid.null) : (p.pobjListRemoveFree b x.oid).Accounts lost := by
  have hmem {b' : ℕ} {y : ListElem} :
      y ∈ (p.pobjListRemoveFree b x.oid).buckets b' ↔ y ∈ p.buckets b' ∧ y.oid ≠ x.oid := by
    rw [hwf.buckets_remove hx, List.mem_filter, decide_eq_true_iff]
  have hblocks : (p.pobjListRemoveFree b x.oid).blocks = p.blocks := rfl
  refine ⟨?_, ?_, h.nodup⟩
  · intro o
    have howns : (p.pobjListRemoveFree b x.oid).Owns o ↔ p.Owns o := by
      constructor
      · rintro ⟨ho, b', y, hy, hyo⟩
        exact ⟨ho, b', y, (hmem.mp hy).1, hyo⟩
      · rintro ⟨ho, b', y, hy, hyo⟩
        refine ⟨ho, b', y, hmem.mpr ⟨hy, ?_⟩, hyo⟩
        intro hoid
        obtain rfl := hwf.oid_inj hy hx hoid
        exact ho (hyo.symm.trans hdata)
    rw [hblocks, howns, h.live]
  · intro o ho b' y hy
    exact h.unreferenced o ho b' y (hmem.mp hy).1

end Torn

end Pool

/-! ### The effect of an event -/

/-- The pools that a change can lead to. -/
inductive Change.Effect (hash : Bytes → ℕ) (s : PMDKHashtableStorage) : Change → Pool → Prop
  | keep : Effect hash s .keep s.pool
  | lose {size : ℕ} {a : Allocation} (constructor : Bytes → Bytes) : s.pool.Fresh size a →
      Effect hash s (.lose a.oid) (s.pool.pobjAlloc constructor (some a)).2
  | push {id src : Bytes} {a e : Allocation} : StorableId id → s.pool.Fresh src.length a →
      (s.pool.pobjAlloc (allocStr src) (some a)).2.Fresh PMEMPointer.structSize e →
      Effect hash s (.push id src) (s.storePool hash id src a e)
  | missing {id : Bytes} {f : Failure} {c : Change} : StorableId id →
      s.findEntry hash id = .error f → c = .tear id ∨ c = .pop id → Effect hash s c s.pool
  | tear {id : Bytes} {x : ListElem} : StorableId id → s.findEntry hash id = .ok x →
      Effect hash s (.tear id) (s.pool.pobjFree (s.hashfun hash id) x)
  | pop {id : Bytes} {x : ListElem} : StorableId id → s.findEntry hash id = .ok x →
      Effect hash s (.pop id) (s.freePool hash id x)

section Effects

variable {hash : Bytes → ℕ} {s t : PMDKHashtableStorage} {c : Call} {id src : Bytes}
  {block entry : Option Allocation} {k : ℕ}

/-- A call that ran to its end makes the change that the answers of PMDK tell. -/
theorem PoolEvent.change_ran (hc : c.inserts = some (id, src))
    (hans : c.answers = some (block, entry)) :
    (PoolEvent.ran c).change = insertionChange id src block entry 2 := by
  cases c with
  | store | alloc =>
    cases hc
    cases hans
    rfl
  | free | reopen => cases hc

/-- A process that dies in an `alloc` dies in a `store` of what its block happens to hold. -/
theorem crashPool_alloc {size : ℕ} {fill : Bytes} {a : Allocation} (ha : a.raw.length = size) :
    crashPool hash s (.alloc id size fill (some a) entry) k =
      crashPool hash s (.store id a.raw (some a) entry) k := by
  have hraw : allocStr a.raw a.raw = a.raw := splice_zero_of_length rfl
  have hcalls : (Call.alloc id size fill (some a) entry).pmdkCalls hash s =
      (Call.store id a.raw (some a) entry).pmdkCalls hash s := by
    simp [Call.pmdkCalls, Pool.pobjAlloc, hraw, ha]
  rw [crashPool, hcalls, crashPool]

/-- A `store` whose process dies has one of these effects. -/
theorem effect_died_store (hid : StorableId id) (hblock : s.pool.CanAnswer src.length block)
    (hentry : (s.pool.pobjAlloc (allocStr src) block).2.CanAnswer PMEMPointer.structSize entry) :
    (insertionChange id src block entry k).Effect hash s
      (crashPool hash s (.store id src block entry) k) := by
  cases block with
  | none =>
    have hcalls : (Call.store id src none entry).pmdkCalls hash s = [_] := rfl
    have hkeep : crashPool hash s (.store id src none entry) k = s.pool := by
      cases k with
      | zero => rfl
      | succ k => exact crashPool_one hcalls k
    rw [hkeep]
    exact .keep
  | some a =>
    obtain ⟨hone, htwo⟩ := crashPool_two
      (rfl : (Call.store id src (some a) entry).pmdkCalls hash s = [_, _])
    obtain rfl | rfl | ⟨k, rfl⟩ : k = 0 ∨ k = 1 ∨ ∃ n, k = n + 2 := by
      rcases k with _ | _ | k
      · exact Or.inl rfl
      · exact Or.inr (Or.inl rfl)
      · exact Or.inr (Or.inr ⟨k, rfl⟩)
    · exact .keep
    · rw [hone]
      exact .lose _ hblock
    · rw [htwo]
      cases entry with
      | none =>
        simp only [insertionChange]
        exact .lose _ hblock
      | some e => exact .push hid hblock hentry

/-- An event of a history has the effect of its change. -/
theorem PoolEvent.Step.effect {event : PoolEvent} (hn : s.nbuckets = s.pool.nbuckets)
    (h : event.Step hash s t) :
    ∃ q, event.change.Effect hash s q ∧ t = ⟨q, q.nbuckets⟩ := by
  obtain ⟨hids, hstep⟩ := h
  cases event with
  | ran c =>
    cases Call.Step.effect hstep with
    | refused hc hans =>
      rw [change_ran hc hans]
      exact ⟨_, .keep, by rw [← hn]⟩
    | orphaned hc hans ha =>
      rw [change_ran hc hans]
      exact ⟨_, .lose _ ha, congrArg (PMDKHashtableStorage.mk _) hn⟩
    | stored hc hans ha he =>
      rw [change_ran hc hans]
      exact ⟨_, .push (hids _ (Call.id?_of_inserts hc)) ha he,
        congrArg (PMDKHashtableStorage.mk _) hn⟩
    | missing hfind => exact ⟨_, .missing (hids _ rfl) hfind (Or.inr rfl), by rw [← hn]⟩
    | freed hfind =>
      exact ⟨_, .pop (hids _ rfl) hfind, congrArg (PMDKHashtableStorage.mk _) hn⟩
    | reopened => exact ⟨_, .keep, rfl⟩
  | died c k =>
    obtain ⟨hposs, hopen⟩ := hstep
    obtain rfl : t = ⟨crashPool hash s c k, (crashPool hash s c k).nbuckets⟩ := by
      cases hopen
      rfl
    refine ⟨_, ?_, rfl⟩
    cases c with
    | store id src block entry => exact effect_died_store (hids _ rfl) hposs.1 hposs.2
    | alloc id size fill block entry =>
      obtain ⟨_, hblock, hentry⟩ := hposs
      cases block with
      | none =>
        have hcalls : (Call.alloc id size fill none entry).pmdkCalls hash s = [_] := rfl
        have hkeep : crashPool hash s (.alloc id size fill none entry) k = s.pool := by
          cases k with
          | zero => rfl
          | succ k => exact crashPool_one hcalls k
        rw [hkeep]
        exact .keep
      | some a =>
        have hlen : a.raw.length = size := hblock.raw
        have hblock' : s.pool.CanAnswer a.raw.length (some a) := hlen.symm ▸ hblock
        rw [crashPool_alloc hlen]
        exact effect_died_store (hids _ rfl) hblock' (Pool.canAnswer_pobjAlloc hentry)
    | free id =>
      cases hfind : s.findEntry hash id with
      | error f =>
        have hkeep : crashPool hash s (.free id) k = s.pool := by
          simp [crashPool, Call.pmdkCalls, hfind]
        rw [hkeep]
        simp only [change, freeChange]
        split
        · exact .keep
        · split
          · exact .missing (hids _ rfl) hfind (Or.inl rfl)
          · exact .missing (hids _ rfl) hfind (Or.inr rfl)
      | ok x =>
        obtain ⟨hone, htwo⟩ := crashPool_two (pmdkCalls_free hfind)
        rcases k with _ | _ | k
        · exact .keep
        · rw [hone]
          exact .tear (hids _ rfl) hfind
        · rw [htwo]
          exact .pop (hids _ rfl) hfind
    | reopen =>
      have hkeep : crashPool hash s .reopen k = s.pool := by
        simp [crashPool, Call.pmdkCalls]
      rw [hkeep]
      exact .keep

end Effects

/-! ### Histories -/

/-- The table holds these slots, and has lost these blocks. -/
structure Recovered (hash : Bytes → ℕ) (s : PMDKHashtableStorage) (σ : Slots)
    (lost : List PMEMoid) : Prop where
  pool : s.pool.Wf hash s.pool.torn
  nbuckets : s.nbuckets = s.pool.nbuckets
  slots : ∀ id, NulFree id → s.pool.slots hash id = σ id
  blocks : s.pool.Accounts lost

namespace Recovered

variable {hash : Bytes → ℕ} {s t : PMDKHashtableStorage} {σ : Slots} {lost : List PMEMoid}
  {id : Bytes} {c : Change} {q : Pool}

/-- A created storage has no slots and has lost nothing. -/
theorem created : Recovered hash created (fun _ => []) [] :=
  ⟨(Pool.Wf.empty (by decide)).to_torn, rfl, fun _ _ => rfl, Pool.accounts_empty 1000⟩

/-- The bucket of an id is computed with the number of buckets of the table. -/
theorem hashfun_eq (h : Recovered hash s σ lost) (id : Bytes) :
    s.hashfun hash id = hash id % s.pool.nbuckets := by
  rw [hashfun, h.nbuckets]

/-- Where there is no slot, the walk finds nothing. -/
theorem findEntry_nil (h : Recovered hash s σ lost) (hid : NulFree id) (hnil : σ id = []) :
    s.findEntry hash id = .error (.thrown .pmdkCantFindKey) := by
  rw [← h.slots id hid, Pool.slots, List.map_eq_nil_iff] at hnil
  have hfirst : (s.pool.buckets (s.hashfun hash id)).find? (fun x => x.entry.isNamed id) =
      none := by
    rw [← List.head?_filter, h.hashfun_eq]
    exact congrArg List.head? hnil
  rw [findEntry, hfirst]

/-- Where there is a slot, the walk finds the entry of the first one. -/
theorem findEntry_cons (h : Recovered hash s σ lost) (hid : NulFree id) {v : Option Bytes}
    {slots : List (Option Bytes)} (hcons : σ id = v :: slots) :
    ∃ x rest, s.pool.named hash id = x :: rest ∧ s.findEntry hash id = .ok x ∧
      s.pool.blocks x.entry.data = v := by
  rw [← h.slots id hid, Pool.slots] at hcons
  obtain ⟨x, rest, hnamed, hv, _⟩ := List.map_eq_cons_iff.mp hcons
  have hfirst : (s.pool.buckets (s.hashfun hash id)).find? (fun x => x.entry.isNamed id) =
      some x := by
    rw [← List.head?_filter, h.hashfun_eq]
    exact congrArg List.head? hnamed
  exact ⟨x, rest, hnamed, by rw [findEntry, hfirst], hv⟩

/-- An entry that is found is the first one with the id. -/
theorem named_of_findEntry (h : Recovered hash s σ lost) {x : ListElem}
    (hx : s.findEntry hash id = .ok x) : ∃ rest, s.pool.named hash id = x :: rest := by
  have hfirst : (s.pool.named hash id).head? =
      (s.pool.buckets (s.hashfun hash id)).find? fun x => x.entry.isNamed id := by
    rw [← List.head?_filter, h.hashfun_eq]
    rfl
  rw [findEntry, ← hfirst] at hx
  cases hnamed : s.pool.named hash id with
  | nil =>
    rw [hnamed] at hx
    cases hx
  | cons y rest =>
    rw [hnamed] at hx
    cases hx
    exact ⟨rest, rfl⟩

/-- Linking a fresh entry to a block that has just been allocated pushes a slot. -/
theorem push (h : Recovered hash s σ lost) (hid : StorableId id) {src : Bytes} {a e : Allocation}
    (ha : s.pool.Fresh src.length a)
    (he : (s.pool.pobjAlloc (allocStr src) (some a)).2.Fresh PMEMPointer.structSize e) :
    Recovered hash ⟨s.storePool hash id src a e, s.pool.nbuckets⟩
      (Function.update σ id (some src :: σ id)) lost := by
  have hi : (s.pool.pobjAlloc (allocStr src) (some a)).2.Insertable hash (s.hashfun hash id)
      ⟨id.length, id, src.length, a.oid⟩ src :=
    { bucket := h.hashfun_eq id
      idLen := rfl
      id_le := hid.room
      block := by simp [Pool.pobjAlloc, allocStr, splice_zero_of_length ha.raw.symm]
      len := rfl
      len_lt := ha.size_lt
      unreferenced := h.pool.data_ne_of_fresh ha }
  have hnew : e.oid ∉ s.pool.torn := by
    rintro ⟨b, x, hx, hoid, _⟩
    exact he.entry b x hx hoid
  refine ⟨((h.pool.pobjAlloc _ ha).insertEntry hi he hnew).to_torn, rfl, ?_,
    (h.blocks.pobjAlloc h.pool ha _).insertEntry hi he ha.ne_null⟩
  intro id' hid'
  have hslots := Pool.slots_insertEntry hi he hid.nulFree id'
  rw [h.pool.slots_pobjAlloc ha, h.slots id' hid'] at hslots
  rw [storePool, hslots, Function.update_apply]
  split
  · rename_i heq
    subst heq
    rfl
  · rfl

/-- A change keeps the account of the table. -/
theorem step (h : Recovered hash s σ lost) (hchange : c.Effect hash s q) :
    Recovered hash ⟨q, q.nbuckets⟩ (c.apply σ) (lost ++ c.lost.toList) := by
  have hkeep : lost ++ (none : Option PMEMoid).toList = lost := List.append_nil lost
  cases hchange with
  | keep => exact ⟨h.pool, rfl, h.slots, by simpa [Change.lost] using h.blocks⟩
  | lose constructor ha =>
    refine ⟨(h.pool.pobjAlloc constructor ha).to_torn, rfl, ?_,
      h.blocks.pobjAlloc h.pool ha constructor⟩
    intro id hid
    rw [h.pool.slots_pobjAlloc ha, h.slots id hid]
    rfl
  | push hid ha he =>
    rw [Change.lost, hkeep]
    exact h.push hid ha he
  | @missing id f _ hid hfind hc =>
    have hnil : σ id = [] := by
      cases hσ : σ id with
      | nil => rfl
      | cons v slots =>
        obtain ⟨x, _, _, hx, _⟩ := h.findEntry_cons hid.nulFree hσ
        rw [hx] at hfind
        cases hfind
    have hsame : Function.update σ id [] = σ := by rw [← hnil, Function.update_eq_self]
    rcases hc with rfl | rfl
    · rw [Change.lost, hkeep, Change.apply, hnil, List.modifyHead_nil, hsame]
      exact ⟨h.pool, rfl, h.slots, h.blocks⟩
    · rw [Change.lost, hkeep, Change.apply, hnil, List.tail_nil, hsame]
      exact ⟨h.pool, rfl, h.slots, h.blocks⟩
  | @tear id x hid hfind =>
    obtain ⟨rest, hx⟩ := h.named_of_findEntry hfind
    have hmem : x ∈ s.pool.named hash id := by simp [hx]
    have hbucket := (List.mem_filter.mp hmem).1
    rw [Change.lost, hkeep, h.hashfun_eq]
    refine ⟨(h.pool.pobjFree_again hbucket).to_torn, rfl, ?_, h.blocks.pobjFree h.pool hbucket⟩
    intro id' hid'
    by_cases heq : id = id'
    · subst heq
      rw [h.pool.slots_pobjFree_self hx, h.slots id hid', Change.apply, Function.update_self]
    · rw [h.pool.slots_pobjFree_other hmem hid.nulFree heq, h.slots id' hid', Change.apply,
        Function.update_of_ne (Ne.symm heq)]
  | @pop id x hid hfind =>
    obtain ⟨rest, hx⟩ := h.named_of_findEntry hfind
    have hmem : x ∈ s.pool.named hash id := by simp [hx]
    have hbucket := (List.mem_filter.mp hmem).1
    have hcleared := h.pool.mem_cleared hbucket
    have hfree := h.pool.pobjFree_again hbucket
    have hnull := hfree.cleared hcleared (by simp)
    have hremove := hfree.remove hcleared
    have haccount := (h.blocks.pobjFree h.pool hbucket).remove hfree hcleared hnull
    rw [Pool.clearElem_oid] at hremove haccount
    rw [Change.lost, hkeep, freePool, h.hashfun_eq]
    refine ⟨hremove.to_torn, rfl, ?_, haccount⟩
    intro id' hid'
    rw [h.pool.slots_free hbucket, Change.apply]
    by_cases heq : id = id'
    · subst heq
      rw [h.pool.filter_first hx, Function.update_self, ← h.slots id hid', Pool.slots, hx]
      rfl
    · rw [h.pool.filter_named hmem hid.nulFree heq, Function.update_of_ne (Ne.symm heq),
        ← h.slots id' hid', Pool.slots]

/-- The first slot of an id tells what the reads of the id see, and whether a `free` finds
something. -/
theorem reads (h : Recovered hash s σ lost) (hid : NulFree id) :
    s.load hash id = slotOutcome (σ id) ∧
      s.findBytes hash id = (slotOutcome (σ id)).map (fun v => (v.length, v)) ∧
      ((s.free hash id).1 = .ok () ↔ σ id ≠ []) := by
  cases hσ : σ id with
  | nil =>
    have hfind := h.findEntry_nil hid hσ
    simp [load, findBytes, find, PMDKHashtableStorage.free, hfind, slotOutcome, bind, Except.bind,
      Except.map]
  | cons v slots =>
    obtain ⟨x, rest, hnamed, hfind, hv⟩ := h.findEntry_cons hid hσ
    have hread : s.pool.read ⟨x.entry.data, x.entry.len⟩ = slotOutcome (v :: slots) ∧
        ∀ w, v = some w → w.length = x.entry.len := by
      cases v with
      | none => exact ⟨by simp [Pool.read, hv, slotOutcome], by rintro _ ⟨⟩⟩
      | some w =>
        have hmem : x ∈ s.pool.named hash id := by simp [hnamed]
        have hbucket := (List.mem_filter.mp hmem).1
        have htorn : x.oid ∉ s.pool.torn := by
          intro htorn
          rw [h.pool.cleared hbucket htorn, h.pool.blocks_null] at hv
          cases hv
        obtain ⟨w', hw, hlen⟩ := h.pool.live hbucket htorn
        obtain rfl : w' = w := by simpa [hv] using hw.symm
        refine ⟨read_whole hv hlen, ?_⟩
        rintro _ ⟨⟩
        exact hlen
    refine ⟨?_, ?_, ?_⟩
    · simp [load, hfind, bind, Except.bind, hread.1]
    · cases v with
      | none =>
        simp [findBytes, find, hfind, bind, Except.bind, pure, Except.pure, hread.1, slotOutcome,
          Except.map]
      | some w =>
        simp [findBytes, find, hfind, bind, Except.bind, pure, Except.pure, hread.1, slotOutcome,
          Except.map, hread.2 w rfl]
    · simp [free_found hfind]

end Recovered

section Histories

variable {hash : Bytes → ℕ} {s t : PMDKHashtableStorage} {events more : List PoolEvent} {id : Bytes}

/-- The slots of a history with one more event are one step of the model further. -/
theorem slotsOf_append_singleton (event : PoolEvent) :
    slotsOf (events ++ [event]) = event.change.apply (slotsOf events) := by
  rw [slotsOf, List.foldl_append, slotsOf, List.foldl_cons, List.foldl_nil]

/-- One more event of a history adds the block that it loses to the lost ones. -/
theorem lostBlocks_append_singleton (event : PoolEvent) :
    lostBlocks (events ++ [event]) = lostBlocks events ++ event.change.lost.toList := by
  rw [lostBlocks, List.filterMap_append, lostBlocks]
  congr 1

/-- Every history keeps the account of the table. -/
theorem history_recovered (hrun : Run (PoolEvent.Step hash) created events s) :
    Recovered hash s (slotsOf events) (lostBlocks events) := by
  induction hrun with
  | nil => exact Recovered.created
  | snoc _ hstep ih =>
    obtain ⟨q, heffect, rfl⟩ := hstep.effect ih.nbuckets
    rw [slotsOf_append_singleton, lostBlocks_append_singleton]
    exact ih.step heffect

/-- A client can free an id any number of times. -/
theorem exists_frees (hash : Bytes → ℕ) (hid : StorableId id) (s : PMDKHashtableStorage) (n : ℕ) :
    ∃ t, Run (PoolEvent.Step hash) s (List.replicate n (.ran (.free id))) t := by
  induction n with
  | zero => exact ⟨s, Run.nil⟩
  | succ n ih =>
    obtain ⟨t, ht⟩ := ih
    rw [List.replicate_succ']
    refine ⟨_, ht.snoc ⟨?_, trivial, rfl⟩⟩
    rintro id' ⟨⟩
    exact hid

/-- Each `free` takes one slot of its id, and loses no block. -/
theorem slotsOf_frees (n : ℕ) :
    slotsOf (events ++ List.replicate n (.ran (.free id))) =
        Function.update (slotsOf events) id ((slotsOf events id).drop n) ∧
      lostBlocks (events ++ List.replicate n (.ran (.free id))) = lostBlocks events := by
  induction n with
  | zero => simp
  | succ n ih =>
    have hchange : (PoolEvent.ran (.free id)).change = .pop id := rfl
    rw [List.replicate_succ', ← List.append_assoc, slotsOf_append_singleton,
      lostBlocks_append_singleton, ih.1, ih.2, hchange]
    constructor
    · rw [Change.apply, Function.update_self, Function.update_idem, List.tail_drop]
    · exact List.append_nil _

end Histories

/-- **The hashtable after any number of crashes.** In every history of calls, with
processes that die between any two PMDK calls, the reads of an id see its first
slot, and only where a `free` has died on it they follow a null pointer; the live
blocks are those with exactly one entry and those that the history has lost, which
stay allocated; and as many calls of `free` as an id has slots leave nothing of it
and change no other id. -/
theorem crash_history (hash : Bytes → ℕ) {events : List PoolEvent} {s : PMDKHashtableStorage}
    (hrun : Run (PoolEvent.Step hash) created events s) :
    (∀ id, NulFree id →
      s.load hash id = slotOutcome (slotsOf events id) ∧
      s.findBytes hash id = (slotOutcome (slotsOf events id)).map (fun v => (v.length, v)) ∧
      ((s.free hash id).1 = .ok () ↔ slotsOf events id ≠ [])) ∧
    (lostBlocks events).Nodup ∧
    (∀ o ∈ lostBlocks events, (s.pool.blocks o).isSome ∧ s.pool.Unreferenced o) ∧
    (∀ o, (s.pool.blocks o).isSome → o ∉ lostBlocks events →
      ∃! x : ListElem, (∃ b, x ∈ s.pool.buckets b) ∧ x.entry.data = o) ∧
    (∀ b, ∀ x ∈ s.pool.buckets b, x.entry.data = PMEMoid.null ∨
      ∃ v, s.pool.blocks x.entry.data = some v ∧ v.length = x.entry.len) ∧
    ∀ id, StorableId id → ∃ t,
      Run (PoolEvent.Step hash) created
        (events ++ List.replicate (slotsOf events id).length (.ran (.free id))) t ∧
      t.load hash id = .error (.thrown .pmdkCantFindKey) ∧
      ∀ id', NulFree id' → id' ≠ id → t.load hash id' = s.load hash id' := by
  have hrec := history_recovered hrun
  refine ⟨fun id hid => hrec.reads hid, hrec.blocks.nodup, ?_, ?_, ?_, ?_⟩
  · intro o ho
    exact ⟨(hrec.blocks.live o).mpr (Or.inr ho), hrec.blocks.unreferenced o ho⟩
  · intro o ho hlost
    obtain ⟨hnull, b, x, hx, hdata⟩ := ((hrec.blocks.live o).mp ho).resolve_right hlost
    have hintact {b' : ℕ} {y : ListElem} (hy : y ∈ s.pool.buckets b') (hyo : y.entry.data = o) :
        y.oid ∉ s.pool.torn := by
      intro htorn
      exact hnull (hyo.symm.trans (hrec.pool.cleared hy htorn))
    refine ⟨x, ⟨⟨b, hx⟩, hdata⟩, ?_⟩
    rintro y ⟨⟨b', hy⟩, hydata⟩
    have hoid := hrec.pool.owned hy hx (hintact hy hydata) (hintact hx hdata)
      (hydata.trans hdata.symm)
    exact hrec.pool.oid_inj hy hx hoid
  · intro b x hx
    by_cases htorn : x.oid ∈ s.pool.torn
    · exact Or.inl (hrec.pool.cleared hx htorn)
    · exact Or.inr (hrec.pool.live hx htorn)
  · intro id hid
    obtain ⟨t, ht⟩ := exists_frees hash hid s (slotsOf events id).length
    have hall := hrun.append ht
    have hafter := history_recovered hall
    rw [(slotsOf_frees _).1] at hafter
    refine ⟨t, hall, ?_, ?_⟩
    · rw [(hafter.reads hid.nulFree).1, Function.update_self, List.drop_length, slotOutcome]
    · intro id' hid' hne
      rw [(hafter.reads hid').1, Function.update_of_ne hne, (hrec.reads hid').1]

/-- A process dies in the first `store`, the next one stores the value, and a third one dies
in the `free` of it. -/
theorem crash_history_thrice :
    ∃ s, Run (PoolEvent.Step fun _ => 0) created
        [.died (storeAt [97] [7] 1) 1, .ran (storeAt [97] [7] 2), .died (.free [97]) 1] s ∧
      s.load (fun _ => 0) [97] = .error .undefined ∧
      (s.pool.blocks (zeroed 1 1).oid).isSome ∧ s.pool.Unreferenced (zeroed 1 1).oid := by
  have hids (event : PoolEvent) (hcall : event.call.id? = some [97]) :
      ∀ id, event.call.id? = some id → StorableId id := by
    rintro id hid
    rw [hcall] at hid
    cases hid
    exact storable_a
  let dead : PMDKHashtableStorage :=
    ⟨(created.pool.pobjAlloc (allocStr [7]) (some (zeroed 1 1))).2, 1000⟩
  have hbelow : dead.pool.Below 2 := (Pool.below_empty 1000 1).pobjAlloc (by decide) (allocStr [7])
  have hfirst : PoolEvent.Step (fun _ => 0) created (.died (storeAt [97] [7] 1) 1) dead :=
    ⟨hids _ rfl, (firstStore 7).1.1.1, rfl⟩
  have hstore : SessionStep (fun _ => 0) dead (storeAt [97] [7] 2)
      (storedAt (fun _ => 0) dead [97] [7] 2) :=
    (SessionStep.storeAt hbelow storable_a (by decide) (by decide) (by simp)).1
  have hsecond : PoolEvent.Step (fun _ => 0) dead (.ran (storeAt [97] [7] 2))
      (storedAt (fun _ => 0) dead [97] [7] 2) := ⟨hids _ rfl, hstore.fitting.1⟩
  have hrun := ((Run.single hfirst).snoc hsecond).snoc
    (⟨hids _ rfl, trivial, rfl⟩ : PoolEvent.Step (fun _ => 0) _ (.died (.free [97]) 1) _)
  have hhistory := crash_history (fun _ => 0) hrun
  refine ⟨_, hrun, (hhistory.1 [97] storable_a.nulFree).1, ?_⟩
  exact hhistory.2.2.1 _ (by decide)

end Pmemcpy
