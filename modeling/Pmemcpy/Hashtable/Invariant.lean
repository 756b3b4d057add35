import Pmemcpy.Hashtable.Pool
import Mathlib.Data.Set.Insert
import Mathlib.Data.List.Nodup

/-!
# The invariant of the table, one PMDK call at a time

The invariant is stated relative to the set of entries whose data block has
been freed while the entry itself is still linked: it is empty between two
calls of a client, and it is what an interrupted `free` leaves behind. Each PMDK
call has one lemma for the invariant and one for the stack of values that an id
names, read from the head of its bucket.
-/

namespace Pmemcpy

open Lib

namespace Pool

/-- The invariant of the table. `freed` holds the linked entries that `POBJ_FREE`
has already cleared. -/
structure Wf (hash : Bytes → ℕ) (p : Pool) (freed : Set PMEMoid) : Prop where
  nbuckets_pos : 0 < p.nbuckets
  /-- The table has as many list heads as it says. -/
  heads : p.heads = p.nbuckets
  /-- Every entry is in the bucket of its id. -/
  placed : ∀ {b x}, x ∈ p.buckets b → b = hash x.entry.id % p.nbuckets
  entry : ∀ {b x}, x ∈ p.buckets b → x.entry.Wf
  nodup : ∀ b, ((p.buckets b).map ListElem.oid).Nodup
  oid_inj : ∀ {b b' x y}, x ∈ p.buckets b → y ∈ p.buckets b' → x.oid = y.oid → x = y
  /-- The data of an entry is a live block of the recorded length. -/
  live : ∀ {b x}, x ∈ p.buckets b → x.oid ∉ freed →
    ∃ v, p.blocks x.entry.data = some v ∧ v.length = x.entry.len
  cleared : ∀ {b x}, x ∈ p.buckets b → x.oid ∈ freed → x.entry.data = PMEMoid.null
  /-- No two entries share a data block. -/
  owned : ∀ {b b' x y}, x ∈ p.buckets b → y ∈ p.buckets b' → x.oid ∉ freed → y.oid ∉ freed →
    x.entry.data = y.entry.data → x.oid = y.oid
  null : ∀ {o : PMEMoid}, o.isNull = true → p.blocks o = none

/-- No entry refers to this block. -/
def Unreferenced (p : Pool) (o : PMEMoid) : Prop := ∀ b, ∀ x ∈ p.buckets b, x.entry.data ≠ o

/-- The values of the entries of a list, in their order. -/
def values (p : Pool) (l : List ListElem) : List Bytes := l.filterMap fun x => p.blocks x.entry.data

/-- The entries of an id in its bucket, in the order of the walk. -/
def named (hash : Bytes → ℕ) (p : Pool) (id : Bytes) : List ListElem :=
  (p.buckets (hash id % p.nbuckets)).filter fun x => x.entry.isNamed id

/-- The stack of values stored under an id, the one that `find` sees first. -/
def stack (hash : Bytes → ℕ) (p : Pool) (id : Bytes) : List Bytes := p.values (p.named hash id)

variable {hash : Bytes → ℕ} {p : Pool} {freed : Set PMEMoid} {b size : ℕ} {a : Allocation}
  {x : ListElem} {id : Bytes}

/-- The empty table satisfies the invariant. -/
theorem Wf.empty {n : ℕ} (hn : 0 < n) : (Pool.empty n).Wf hash ∅ where
  nbuckets_pos := hn
  heads := rfl
  placed h := by simp [Pool.empty] at h
  entry h := by simp [Pool.empty] at h
  nodup b := by simp [Pool.empty]
  oid_inj h := by simp [Pool.empty] at h
  live h := by simp [Pool.empty] at h
  cleared h := by simp [Pool.empty] at h
  owned h := by simp [Pool.empty] at h
  null _ := rfl

/-- Nothing is stored in the empty table. -/
@[simp] theorem stack_empty (n : ℕ) (id : Bytes) : (Pool.empty n).stack hash id = [] := rfl

/-- There is no block at the null OID. -/
theorem Wf.blocks_null (h : p.Wf hash freed) : p.blocks PMEMoid.null = none :=
  h.null PMEMoid.isNull_null

/-- A live block is not null. -/
theorem Wf.isNull_of_live (h : p.Wf hash freed) {o : PMEMoid} {v : Bytes}
    (hv : p.blocks o = some v) : o.isNull = false := by
  by_contra hnull
  rw [h.null (by simpa using hnull)] at hv
  cases hv

/-- The data of an entry is either null or a block that is live. -/
theorem Wf.data_ne_of_fresh (h : p.Wf hash freed) (ha : p.Fresh size a) :
    p.Unreferenced a.oid := by
  intro b x hx hdata
  by_cases hfreed : x.oid ∈ freed
  · have hnull := ha.not_null
    rw [← hdata, h.cleared hx hfreed, PMEMoid.isNull_null] at hnull
    cases hnull
  · obtain ⟨v, hv, _⟩ := h.live hx hfreed
    rw [hdata, ha.block] at hv
    cases hv

/-- Leaving out the first entry of an id leaves the others. -/
theorem Wf.filter_first (h : p.Wf hash freed) {rest : List ListElem}
    (hx : p.named hash id = x :: rest) :
    (p.named hash id).filter (fun y => y.oid ≠ x.oid) = rest := by
  have hnodup : ((p.named hash id).map ListElem.oid).Nodup :=
    (h.nodup _).sublist (List.filter_sublist.map _)
  rw [hx, List.map_cons, List.nodup_cons] at hnodup
  have hrest : rest.filter (fun y => y.oid ≠ x.oid) = rest := by
    rw [List.filter_eq_self]
    intro y hy
    have hne : y.oid ≠ x.oid := by
      intro heq
      exact hnodup.1 (heq ▸ List.mem_map_of_mem hy)
    simpa using hne
  rw [hx, List.filter_cons_of_neg (by simp), hrest]

/-! ### `POBJ_ALLOC` -/

section Alloc

variable (constructor : Bytes → Bytes)

/-- A new block leaves the invariant in place. -/
theorem Wf.pobjAlloc (h : p.Wf hash freed) (ha : p.Fresh size a) :
    (p.pobjAlloc constructor (some a)).2.Wf hash freed where
  nbuckets_pos := h.nbuckets_pos
  heads := h.heads
  placed := h.placed
  entry := h.entry
  nodup := h.nodup
  oid_inj := h.oid_inj
  live hx hfreed := by
    obtain ⟨v, hv, hlen⟩ := h.live hx hfreed
    have hne := h.data_ne_of_fresh ha _ _ hx
    exact ⟨v, by simp [Pool.pobjAlloc, Function.update_of_ne hne, hv], hlen⟩
  cleared := h.cleared
  owned := h.owned
  null := by
    intro o ho
    have hne : o ≠ a.oid := by
      rintro rfl
      simp [ha.not_null] at ho
    simp [Pool.pobjAlloc, Function.update_of_ne hne, h.null ho]

/-- A new block changes the value of no entry. -/
theorem Wf.stack_pobjAlloc (h : p.Wf hash freed) (ha : p.Fresh size a) (id : Bytes) :
    (p.pobjAlloc constructor (some a)).2.stack hash id = p.stack hash id := by
  apply List.filterMap_congr
  intro x hx
  have hmem : x ∈ p.buckets (hash id % p.nbuckets) := (List.mem_filter.mp hx).1
  simp [Pool.pobjAlloc, Function.update_of_ne (h.data_ne_of_fresh ha _ _ hmem)]

end Alloc

/-! ### `POBJ_LIST_INSERT_NEW_HEAD` -/

section Insert

variable {info : PMEMListArgs} {v : Bytes}

/-- The pool after an entry has been inserted. -/
def insertEntry (p : Pool) (b : ℕ) (info : PMEMListArgs) (a : Allocation) : Pool :=
  (p.pobjListInsertNewHead b (add info) (some a)).2

/-- An insertion puts the entry at the head of its bucket, and leaves the others. -/
theorem buckets_insertEntry (b' : ℕ) :
    (p.insertEntry b info a).buckets b' =
      if b' = b then ⟨a.oid, add info a.raw⟩ :: p.buckets b else p.buckets b' :=
  Function.update_apply _ _ _ _

/-- The entries after an insertion are the new one and those from before. -/
theorem mem_insertEntry {b' : ℕ} {y : ListElem} :
    y ∈ (p.insertEntry b info a).buckets b' ↔
      (b' = b ∧ y = ⟨a.oid, add info a.raw⟩) ∨ y ∈ p.buckets b' := by
  by_cases hb : b' = b
  · subst hb
    simp [insertEntry, pobjListInsertNewHead]
  · simp [insertEntry, pobjListInsertNewHead, hb]

/-- What an entry needs in order to be inserted: its id fits, and it refers to a
live block of the length it records, which no other entry refers to. -/
structure Insertable (hash : Bytes → ℕ) (p : Pool) (b : ℕ) (info : PMEMListArgs) (v : Bytes) :
    Prop where
  bucket : b = hash info.id % p.nbuckets
  idLen : info.idLen = info.id.length
  id_le : info.id.length ≤ PMEMPointer.idRoom
  block : p.blocks info.data = some v
  len : v.length = info.len
  len_lt : info.len < 2 ^ 64
  unreferenced : p.Unreferenced info.data

/-- An inserted entry has the fields that were written to it. -/
theorem Insertable.fields (hi : p.Insertable hash b info v)
    (ha : p.Fresh PMEMPointer.structSize a) :
    (add info a.raw).Wf ∧ (add info a.raw).id = info.id ∧ (add info a.raw).len = info.len ∧
      (add info a.raw).data = info.data := by
  obtain ⟨hwf, hid, hlen, hdata⟩ := add_fields ha.raw hi.idLen hi.id_le
  exact ⟨hwf, hid, by rw [hlen, Nat.mod_eq_of_lt hi.len_lt], hdata⟩

/-- Inserting an entry keeps the invariant. -/
theorem Wf.insertEntry (h : p.Wf hash freed) (hi : p.Insertable hash b info v)
    (ha : p.Fresh PMEMPointer.structSize a) (hnew : a.oid ∉ freed) :
    (p.insertEntry b info a).Wf hash freed := by
  obtain ⟨hwf, hid, hlen, hdata⟩ := hi.fields ha
  have hblocks : (p.insertEntry b info a).blocks = p.blocks := rfl
  refine ⟨h.nbuckets_pos, h.heads, ?_, ?_, ?_, ?_, ?_, ?_, ?_, h.null⟩
  · intro b' y hy
    rcases mem_insertEntry.mp hy with ⟨rfl, rfl⟩ | hy
    · rw [hid]
      exact hi.bucket
    · exact h.placed hy
  · intro b' y hy
    rcases mem_insertEntry.mp hy with ⟨rfl, rfl⟩ | hy
    · exact hwf
    · exact h.entry hy
  · intro b'
    by_cases hb : b' = b
    · subst hb
      have hnot : a.oid ∉ (p.buckets b').map ListElem.oid := by
        intro hmem
        obtain ⟨y, hy, heq⟩ := List.mem_map.mp hmem
        exact ha.entry _ _ hy heq
      simpa [Pool.insertEntry, pobjListInsertNewHead] using ⟨by simpa using hnot, h.nodup b'⟩
    · simpa [Pool.insertEntry, pobjListInsertNewHead, Function.update_of_ne hb] using h.nodup b'
  · intro b' b'' y z hy hz heq
    rcases mem_insertEntry.mp hy with ⟨rfl, rfl⟩ | hy' <;>
      rcases mem_insertEntry.mp hz with ⟨rfl, rfl⟩ | hz'
    · rfl
    · exact absurd heq.symm (ha.entry _ _ hz')
    · exact absurd heq (ha.entry _ _ hy')
    · exact h.oid_inj hy' hz' heq
  · intro b' y hy hfreed
    rcases mem_insertEntry.mp hy with ⟨rfl, rfl⟩ | hy
    · exact ⟨v, by rw [hblocks, hdata]; exact hi.block, by rw [hlen]; exact hi.len⟩
    · exact h.live hy hfreed
  · intro b' y hy hfreed
    rcases mem_insertEntry.mp hy with ⟨rfl, rfl⟩ | hy
    · exact absurd hfreed hnew
    · exact h.cleared hy hfreed
  · intro b' b'' y z hy hz hyf hzf heq
    rcases mem_insertEntry.mp hy with ⟨rfl, rfl⟩ | hy' <;>
      rcases mem_insertEntry.mp hz with ⟨rfl, rfl⟩ | hz'
    · rfl
    · exact absurd (heq.symm.trans hdata) (hi.unreferenced _ _ hz')
    · exact absurd (heq.trans hdata) (hi.unreferenced _ _ hy')
    · exact h.owned hy' hz' hyf hzf heq

/-- The walk for an id after an insertion meets the new entry first, if it has
this id and this bucket. -/
theorem named_insertEntry (hi : p.Insertable hash b info v)
    (ha : p.Fresh PMEMPointer.structSize a) (id : Bytes) :
    (p.insertEntry b info a).named hash id =
      if hash id % p.nbuckets = b ∧ SameKey info.id id then
        ⟨a.oid, add info a.raw⟩ :: p.named hash id
      else p.named hash id := by
  obtain ⟨hwf, hid, _, _⟩ := hi.fields ha
  have hnb : (p.insertEntry b info a).nbuckets = p.nbuckets := rfl
  by_cases hb : hash id % p.nbuckets = b
  · have hiff : (add info a.raw).isNamed id = true ↔ SameKey info.id id := by
      rw [hwf.isNamed_iff, hid]
    by_cases hkey : SameKey info.id id
    · simp [named, hb, hkey, hiff.mpr hkey, Pool.insertEntry, pobjListInsertNewHead]
    · have hfalse : (add info a.raw).isNamed id = false := by
        simpa [hkey] using hiff
      simp [named, hb, hkey, hfalse, Pool.insertEntry, pobjListInsertNewHead]
  · simp [named, hb, Pool.insertEntry, pobjListInsertNewHead]

/-- An insertion pushes its value on the stack of its own id. -/
theorem stack_insertEntry (hi : p.Insertable hash b info v)
    (ha : p.Fresh PMEMPointer.structSize a) (id : Bytes) :
    (p.insertEntry b info a).stack hash id =
      if hash id % p.nbuckets = b ∧ SameKey info.id id then v :: p.stack hash id
      else p.stack hash id := by
  obtain ⟨_, _, _, hdata⟩ := hi.fields ha
  have hblocks : (p.insertEntry b info a).blocks = p.blocks := rfl
  rw [stack, named_insertEntry hi ha]
  split
  · simp [values, hblocks, hdata, hi.block, stack]
  · simp [values, hblocks, stack]

end Insert

/-! ### `POBJ_FREE` -/

section Free

/-- What `POBJ_FREE` makes of a list element. -/
def clearElem (x y : ListElem) : ListElem :=
  if y.oid = x.oid then { y with entry := y.entry.clearData } else y

/-- Clearing the data of an entry leaves its OID. -/
@[simp] theorem clearElem_oid (x y : ListElem) : (clearElem x y).oid = y.oid := by
  unfold clearElem
  split <;> rfl

/-- Clearing the data of an entry leaves its key alone. -/
theorem Wf.clearElem_entry (h : p.Wf hash freed) {y : ListElem} (hy : y ∈ p.buckets b) :
    (clearElem x y).entry.Wf ∧ (clearElem x y).entry.id = y.entry.id := by
  unfold clearElem
  split
  · exact ⟨(h.entry hy).clearData.1, (h.entry hy).clearData.2.1⟩
  · exact ⟨h.entry hy, rfl⟩

/-- Clearing the data of an entry does not change which ids it passes for. -/
theorem Wf.clearElem_isNamed (h : p.Wf hash freed) {y : ListElem} (hy : y ∈ p.buckets b) :
    (clearElem x y).entry.isNamed id = y.entry.isNamed id := by
  obtain ⟨hwf, hid⟩ := h.clearElem_entry (x := x) hy
  rw [Bool.eq_iff_iff, hwf.isNamed_iff, hid, (h.entry hy).isNamed_iff]

/-- `POBJ_FREE` clears one entry, and leaves the buckets otherwise. -/
theorem Wf.buckets_pobjFree (h : p.Wf hash freed) (hx : x ∈ p.buckets b) (b' : ℕ) :
    (p.pobjFree b x).buckets b' = (p.buckets b').map (clearElem x) := by
  by_cases hb : b' = b
  · subst hb
    simp [Pool.pobjFree, clearElem]
  · have hid : ∀ y ∈ p.buckets b', clearElem x y = y := by
      intro y hy
      have hne : y.oid ≠ x.oid := by
        intro heq
        have hyx := h.oid_inj hy hx heq
        subst hyx
        exact hb ((h.placed hy).trans (h.placed hx).symm)
      simp [clearElem, hne]
    rw [List.map_congr_left hid]
    simp [Pool.pobjFree, Function.update_of_ne hb]

/-- The data of another entry survives `POBJ_FREE`. -/
theorem Wf.blocks_pobjFree (h : p.Wf hash freed) (hx : x ∈ p.buckets b) (hxf : x.oid ∉ freed)
    {b' : ℕ} {y : ListElem} (hy : y ∈ p.buckets b') :
    (p.pobjFree b x).blocks (clearElem x y).entry.data =
      if y.oid = x.oid then none else p.blocks y.entry.data := by
  obtain ⟨w, hw, _⟩ := h.live hx hxf
  have hxnull := h.isNull_of_live hw
  split
  · rename_i heq
    have hnull : (clearElem x y).entry.data = PMEMoid.null := by
      simp [clearElem, heq, (h.entry hy).clearData.2.2.2]
    have hne : PMEMoid.null ≠ x.entry.data := by
      intro hcon
      rw [← hcon, PMEMoid.isNull_null] at hxnull
      cases hxnull
    rw [hnull, Pool.pobjFree]
    simp [Function.update_of_ne hne, h.blocks_null]
  · rename_i hne
    have hkeep : clearElem x y = y := by simp [clearElem, hne]
    have hdata : y.entry.data ≠ x.entry.data := by
      intro hcon
      by_cases hyf : y.oid ∈ freed
      · rw [← hcon, h.cleared hy hyf, PMEMoid.isNull_null] at hxnull
        cases hxnull
      · exact hne (h.owned hy hx hyf hxf hcon)
    rw [hkeep, Pool.pobjFree]
    simp [Function.update_of_ne hdata]

/-- `POBJ_FREE` keeps the invariant, with its entry among the cleared ones. -/
theorem Wf.pobjFree (h : p.Wf hash freed) (hx : x ∈ p.buckets b) (hxf : x.oid ∉ freed) :
    (p.pobjFree b x).Wf hash (insert x.oid freed) := by
  have hmem {b' : ℕ} {y : ListElem} (hy : y ∈ (p.pobjFree b x).buckets b') :
      ∃ z ∈ p.buckets b', clearElem x z = y := by
    rw [h.buckets_pobjFree hx] at hy
    simpa using hy
  have hkeep {z : ListElem} (hz : (clearElem x z).oid ∉ insert x.oid freed) :
      z.oid ≠ x.oid ∧ z.oid ∉ freed ∧ clearElem x z = z := by
    rw [clearElem_oid, Set.mem_insert_iff, not_or] at hz
    exact ⟨hz.1, hz.2, by simp [clearElem, hz.1]⟩
  refine ⟨h.nbuckets_pos, h.heads, ?_, ?_, ?_, ?_, ?_, ?_, ?_, ?_⟩
  · intro b' y hy
    obtain ⟨z, hz, rfl⟩ := hmem hy
    rw [(h.clearElem_entry hz).2]
    exact h.placed hz
  · intro b' y hy
    obtain ⟨z, hz, rfl⟩ := hmem hy
    exact (h.clearElem_entry hz).1
  · intro b'
    have hoids : ListElem.oid ∘ clearElem x = ListElem.oid := funext fun y => clearElem_oid x y
    rw [h.buckets_pobjFree hx, List.map_map, hoids]
    exact h.nodup b'
  · intro b' b'' y z hy hz heq
    obtain ⟨y, hy', rfl⟩ := hmem hy
    obtain ⟨z, hz', rfl⟩ := hmem hz
    rw [clearElem_oid, clearElem_oid] at heq
    rw [h.oid_inj hy' hz' heq]
  · intro b' y hy hfreed
    obtain ⟨z, hz, rfl⟩ := hmem hy
    obtain ⟨hne, hzf, heq⟩ := hkeep hfreed
    obtain ⟨v, hv, hlen⟩ := h.live hz hzf
    refine ⟨v, ?_, by rw [heq]; exact hlen⟩
    rw [h.blocks_pobjFree hx hxf hz, if_neg hne]
    exact hv
  · intro b' y hy hfreed
    obtain ⟨z, hz, rfl⟩ := hmem hy
    by_cases hzx : z.oid = x.oid
    · simp [clearElem, hzx, (h.entry hz).clearData.2.2.2]
    · have hzf : z.oid ∈ freed := by simpa [hzx] using hfreed
      simp [clearElem, hzx, h.cleared hz hzf]
  · intro b' b'' y z hy hz hyf hzf heq
    obtain ⟨y, hy', rfl⟩ := hmem hy
    obtain ⟨z, hz', rfl⟩ := hmem hz
    obtain ⟨_, hyf', hyx⟩ := hkeep hyf
    obtain ⟨_, hzf', hzx⟩ := hkeep hzf
    rw [hyx, hzx] at heq ⊢
    exact h.owned hy' hz' hyf' hzf' heq
  · intro o ho
    by_cases hox : o = x.entry.data
    · simp [Pool.pobjFree, hox]
    · simp [Pool.pobjFree, Function.update_of_ne hox, h.null ho]

/-- The walk for an id after `POBJ_FREE` meets the same entries. -/
theorem Wf.named_pobjFree (h : p.Wf hash freed) (hx : x ∈ p.buckets b) (id : Bytes) :
    (p.pobjFree b x).named hash id = (p.named hash id).map (clearElem x) := by
  have hnb : (p.pobjFree b x).nbuckets = p.nbuckets := rfl
  rw [named, hnb, h.buckets_pobjFree hx, List.filter_map, named]
  congr 1
  apply List.filter_congr
  intro y hy
  exact h.clearElem_isNamed hy

/-- `POBJ_FREE` drops the value of its entry from every stack that has it. -/
theorem Wf.stack_pobjFree (h : p.Wf hash freed) (hx : x ∈ p.buckets b) (hxf : x.oid ∉ freed)
    (id : Bytes) :
    (p.pobjFree b x).stack hash id =
      p.values ((p.named hash id).filter fun y => y.oid ≠ x.oid) := by
  rw [stack, h.named_pobjFree hx, values, List.filterMap_map, values, List.filterMap_filter]
  apply List.filterMap_congr
  intro y hy
  have hmem : y ∈ p.buckets (hash id % p.nbuckets) := (List.mem_filter.mp hy).1
  simp only [Function.comp_apply, h.blocks_pobjFree hx hxf hmem]
  by_cases heq : y.oid = x.oid <;> simp [heq]

end Free

/-! ### `POBJ_LIST_REMOVE_FREE` -/

section Remove

/-- Unlinking a cleared entry takes it from its bucket, and leaves the others. -/
theorem Wf.buckets_remove (h : p.Wf hash freed) (hx : x ∈ p.buckets b) (b' : ℕ) :
    (p.pobjListRemoveFree b x.oid).buckets b' =
      (p.buckets b').filter fun y => y.oid ≠ x.oid := by
  by_cases hb : b' = b
  · subst hb
    simp [pobjListRemoveFree]
  · have hkeep : (p.buckets b').filter (fun y => y.oid ≠ x.oid) = p.buckets b' := by
      rw [List.filter_eq_self]
      intro y hy
      have hne : y.oid ≠ x.oid := by
        intro heq
        have hyx := h.oid_inj hy hx heq
        subst hyx
        exact hb ((h.placed hy).trans (h.placed hx).symm)
      simpa using hne
    rw [hkeep]
    simp [pobjListRemoveFree, Function.update_of_ne hb]

/-- Unlinking a cleared entry keeps the invariant. -/
theorem Wf.remove (h : p.Wf hash freed) (hx : x ∈ p.buckets b) :
    (p.pobjListRemoveFree b x.oid).Wf hash (freed \ {x.oid}) := by
  have hmem {b' : ℕ} {y : ListElem} (hy : y ∈ (p.pobjListRemoveFree b x.oid).buckets b') :
      y ∈ p.buckets b' ∧ y.oid ≠ x.oid := by
    rw [h.buckets_remove hx] at hy
    simpa using hy
  have hfreed {y : ListElem} (hne : y.oid ≠ x.oid) (hy : y.oid ∉ freed \ {x.oid}) :
      y.oid ∉ freed := fun hcon => hy ⟨hcon, hne⟩
  refine ⟨h.nbuckets_pos, h.heads, ?_, ?_, ?_, ?_, ?_, ?_, ?_, h.null⟩
  · intro b' y hy
    exact h.placed (hmem hy).1
  · intro b' y hy
    exact h.entry (hmem hy).1
  · intro b'
    rw [h.buckets_remove hx]
    exact (h.nodup b').sublist (List.filter_sublist.map _)
  · intro b' b'' y z hy hz heq
    exact h.oid_inj (hmem hy).1 (hmem hz).1 heq
  · intro b' y hy hyf
    exact h.live (hmem hy).1 (hfreed (hmem hy).2 hyf)
  · intro b' y hy hyf
    exact h.cleared (hmem hy).1 hyf.1
  · intro b' b'' y z hy hz hyf hzf heq
    exact h.owned (hmem hy).1 (hmem hz).1 (hfreed (hmem hy).2 hyf) (hfreed (hmem hz).2 hzf) heq

/-- Unlinking a cleared entry takes it from the entries that the walk meets for its id. -/
theorem Wf.named_remove (h : p.Wf hash freed) (hx : x ∈ p.buckets b) (id : Bytes) :
    (p.pobjListRemoveFree b x.oid).named hash id =
      (p.named hash id).filter fun y => y.oid ≠ x.oid := by
  have hnb : (p.pobjListRemoveFree b x.oid).nbuckets = p.nbuckets := rfl
  rw [named, hnb, h.buckets_remove hx, List.filter_comm, named]

/-- Unlinking a cleared entry changes no stack. -/
theorem Wf.stack_remove (h : p.Wf hash freed) (hx : x ∈ p.buckets b) (hxf : x.oid ∈ freed)
    (id : Bytes) : (p.pobjListRemoveFree b x.oid).stack hash id = p.stack hash id := by
  have hblocks : (p.pobjListRemoveFree b x.oid).blocks = p.blocks := rfl
  rw [stack, h.named_remove hx, values, hblocks, List.filterMap_filter, stack, values]
  apply List.filterMap_congr
  intro y hy
  have hmem : y ∈ p.buckets (hash id % p.nbuckets) := (List.mem_filter.mp hy).1
  by_cases heq : y.oid = x.oid
  · have hyf : y.oid ∈ freed := heq ▸ hxf
    simp [heq, h.cleared hmem hyf, h.blocks_null]
  · simp [heq]

end Remove

end Pool

end Pmemcpy
