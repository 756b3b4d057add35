import Pmemcpy.Hashtable.Sessions

/-!
# Whether a lookup finds only its own key

The history of a run tells under which id each linked entry was inserted. The
lookup compares the bucket, the length, and the bytes up to the first NUL, so
that two ids are kept apart exactly when one of these differs.
-/

namespace Pmemcpy

open Lib PMDKHashtableStorage

/-- The id and the OID of the list entry that a call inserts, if it inserts one. -/
def Call.linked (c : Call) : Option (Bytes × PMEMoid) :=
  match c.inserts, c.answers with
  | some (id, _), some (some _, some e) => some (id, e.oid)
  | _, _ => none

/-- The id under which the entry at an OID was inserted by a run: that of the last
call that was given this OID. -/
def insertedUnder (calls : List Call) (o : PMEMoid) : Option Bytes :=
  calls.foldl (fun under c => match c.linked with
    | some (id, o') => if o' = o then some id else under
    | none => under) none

/-- The ids that share a bucket of the table and pass the test for one another. -/
def Confused (hash : Bytes → ℕ) (id id' : Bytes) : Prop :=
  hash id % 1000 = hash id' % 1000 ∧ SameKey id id'

instance (hash : Bytes → ℕ) (id id' : Bytes) : Decidable (Confused hash id id') :=
  inferInstanceAs (Decidable (_ ∧ _))

/-- Every entry that a lookup for `id` finds was inserted under this very id. -/
def FindsOwn (hash : Bytes → ℕ) (id : Bytes) : Prop :=
  ∀ calls s x, Run (FittingStep hash) created calls s → s.findEntry hash id = .ok x →
    insertedUnder calls x.oid = some id

/-- A call on `id` never touches the entry `x`: it is not what `find` and `load` walk
to, the buffer of `find` does not point to its data, and `free` leaves both. -/
structure LeavesAlone (hash : Bytes → ℕ) (s : PMDKHashtableStorage) (id : Bytes) (b : ℕ)
    (x : ListElem) : Prop where
  found : s.findEntry hash id ≠ .ok x
  buffer : ∀ buf, s.find hash id = .ok buf → buf.data ≠ x.entry.data
  entry : x ∈ (s.free hash id).2.pool.buckets b
  block : (s.free hash id).2.pool.blocks x.entry.data = s.pool.blocks x.entry.data

/-- No call on `id` ever touches an entry that was inserted under `id'`. -/
def KeepsApart (hash : Bytes → ℕ) (id id' : Bytes) : Prop :=
  ∀ calls s b x, Run (FittingStep hash) created calls s → x ∈ s.pool.buckets b →
    insertedUnder calls x.oid = some id' → LeavesAlone hash s id b x

section History

variable {hash : Bytes → ℕ} {s t : PMDKHashtableStorage} {id id' : Bytes} {calls : List Call}
  {c : Call} {o : PMEMoid}

/-- One more call changes the history of the OID of the entry that it links, and of no other. -/
theorem insertedUnder_snoc :
    insertedUnder (calls ++ [c]) o =
      match c.linked with
      | some (id, o') => if o' = o then some id else insertedUnder calls o
      | none => insertedUnder calls o := by
  rw [insertedUnder, List.foldl_append]
  rfl

/-- A call that links an entry decides the history of its OID. -/
theorem insertedUnder_of_linked (hc : c.linked = some (id, o)) :
    insertedUnder (calls ++ [c]) o = some id := by
  rw [insertedUnder_snoc, hc]
  exact if_pos rfl

/-- A call that links no entry leaves the history as it is. -/
theorem insertedUnder_of_not_linked (hc : c.linked = none) :
    insertedUnder (calls ++ [c]) o = insertedUnder calls o := by
  rw [insertedUnder_snoc, hc]

/-- What the table keeps of the history: its size, and the id of every entry. -/
structure Remembers (calls : List Call) (s : PMDKHashtableStorage) : Prop where
  nbuckets : s.pool.nbuckets = 1000
  under : ∀ b, ∀ x ∈ s.pool.buckets b, insertedUnder calls x.oid = some x.entry.id

/-- Every step keeps the account of the ids that entries were inserted under. -/
theorem Remembers.step (h : Remembers calls s) (hwf : s.Wf hash) (hstep : FittingStep hash s c t) :
    Remembers (calls ++ [c]) t := by
  obtain ⟨hstep, hfit⟩ := hstep
  cases hstep.effect with
  | refused hc hans =>
    have hnone : c.linked = none := by simp [Call.linked, hc, hans]
    exact ⟨h.nbuckets, fun b x hx => by
      rw [insertedUnder_of_not_linked hnone, h.under b x hx]⟩
  | orphaned hc hans _ =>
    have hnone : c.linked = none := by simp [Call.linked, hc, hans]
    exact ⟨h.nbuckets, fun b x hx => by
      rw [insertedUnder_of_not_linked hnone, h.under b x hx]⟩
  | @stored _ id src a e hc hans ha he =>
    have hsome : c.linked = some (id, e.oid) := by simp [Call.linked, hc, hans]
    have hid := hfit id (Call.id?_of_inserts hc)
    refine ⟨h.nbuckets, ?_⟩
    intro b x hx
    rcases mem_storePool.mp hx with ⟨_, rfl⟩ | hold
    · have hentry := (storeElem_fields (a := a) ha.size_lt hid he.raw).2.1
      rw [hentry]
      exact insertedUnder_of_linked hsome
    · have hne : e.oid ≠ x.oid := fun heq => he.entry b x hold heq.symm
      rw [insertedUnder_snoc, hsome]
      exact (if_neg hne).trans (h.under b x hold)
  | missing _ =>
    exact ⟨h.nbuckets, fun b x hx => by
      rw [insertedUnder_of_not_linked rfl, h.under b x hx]⟩
  | freed hfind =>
    refine ⟨h.nbuckets, ?_⟩
    intro b x hx
    have hold := ((hwf.mem_freePool_iff (mem_of_findEntry hfind).1).mp hx).1
    rw [insertedUnder_of_not_linked rfl, h.under b x hold]
  | reopened =>
    exact ⟨h.nbuckets, fun b x hx => by
      rw [insertedUnder_of_not_linked rfl, h.under b x hx]⟩

/-- After every run each entry has the id it was inserted under. -/
theorem run_remembers (hrun : Run (FittingStep hash) created calls s) : Remembers calls s := by
  induction hrun with
  | nil => exact ⟨rfl, fun b x hx => by simp [created, Pool.empty] at hx⟩
  | snoc hrun hstep ih => exact ih.step (fitting_run_wf hrun) hstep

end History

section Lookup

variable {hash : Bytes → ℕ} {s : PMDKHashtableStorage} {id id' : Bytes} {b : ℕ} {x : ListElem}

/-- The entry found for an id has an id that the lookup confuses with it. -/
theorem confused_of_findEntry (hwf : s.Wf hash) (hn : s.pool.nbuckets = 1000)
    (hx : s.findEntry hash id = .ok x) : Confused hash id x.entry.id := by
  obtain ⟨hmem, hnamed⟩ := mem_of_findEntry hx
  have hplaced := hwf.pool.placed hmem
  rw [hwf.hashfun_eq, hn] at hplaced
  exact ⟨hplaced, ((hwf.pool.entry hmem).isNamed_iff.mp hnamed).symm⟩

/-- An entry whose id is not confused with `id` is left alone by the calls on `id`. -/
theorem leavesAlone_of_not_confused (hwf : s.Wf hash) (hn : s.pool.nbuckets = 1000)
    (hx : x ∈ s.pool.buckets b) (hne : ¬Confused hash id x.entry.id) :
    LeavesAlone hash s id b x := by
  have hother : ∀ y, s.findEntry hash id = .ok y → y.oid ≠ x.oid := by
    intro y hy heq
    have hyx := hwf.pool.oid_inj (mem_of_findEntry hy).1 hx heq
    exact hne (hyx ▸ confused_of_findEntry hwf hn hy)
  have hdata : ∀ y, s.findEntry hash id = .ok y → y.entry.data ≠ x.entry.data := by
    intro y hy heq
    exact hother y hy (hwf.pool.owned (mem_of_findEntry hy).1 hx (Set.notMem_empty _)
      (Set.notMem_empty _) heq)
  refine ⟨fun hfound => hother x hfound rfl, ?_, ?_, ?_⟩
  · intro buf hbuf
    cases hy : s.findEntry hash id with
    | error f => simp [find, hy, bind, Except.bind] at hbuf
    | ok y =>
      obtain rfl : ⟨y.entry.data, y.entry.len⟩ = buf := by
        simpa [find, hy, bind, Except.bind, pure, Except.pure] using hbuf
      exact hdata y hy
  · cases hy : s.findEntry hash id with
    | error f => simpa [free, hy] using hx
    | ok y =>
      rw [free_found hy]
      exact (hwf.mem_freePool_iff (mem_of_findEntry hy).1).mpr ⟨hx, (hother y hy).symm⟩
  · cases hy : s.findEntry hash id with
    | error f => simp [free, hy]
    | ok y => rw [free_found hy, blocks_freePool, if_neg (hdata y hy).symm]

/-- After a `store`, a lookup for an id that is confused with its own finds the new entry. -/
theorem findEntry_storePool {src : Bytes} {a e : Allocation} (hid : id'.length ≤ PMEMPointer.idRoom)
    (hlt : src.length < 2 ^ 64) (hraw : e.raw.length = PMEMPointer.structSize)
    (hbucket : s.hashfun hash id = s.hashfun hash id') (hkey : SameKey id id') :
    findEntry hash { s with pool := s.storePool hash id' src a e } id =
      .ok (storeElem id' src a e) := by
  obtain ⟨hwf, hidEq, _⟩ := storeElem_fields (a := a) hlt hid hraw
  have hnamed : (storeElem id' src a e).entry.isNamed id = true := by
    rw [hwf.isNamed_iff, hidEq]
    exact hkey.symm
  have hlist : (s.storePool hash id' src a e).buckets (s.hashfun hash id) =
      storeElem id' src a e :: s.pool.buckets (s.hashfun hash id') := by
    rw [hbucket, storePool, Pool.buckets_insertEntry, if_pos rfl]
    rfl
  have hhash : hashfun hash { s with pool := s.storePool hash id' src a e } id =
      s.hashfun hash id := rfl
  rw [findEntry, hhash]
  simp [hlist, hnamed]

/-- The first `store` of an id, of one byte, is a step of a run. -/
theorem fitting_first (hash : Bytes → ℕ) (hid : id'.length ≤ PMEMPointer.idRoom) :
    FittingStep hash created (storeAt id' [7] 1) (storedAt hash created id' [7] 1) := by
  have hbelow : created.pool.Below 1 := Pool.below_empty 1000 1
  have halloc := hbelow.pobjAlloc (n := 1) (by decide) (allocStr [7])
  have hentry := halloc.fresh (n := PMEMPointer.structSize) (by decide) (by decide) (by decide)
  refine ⟨⟨⟨hbelow.fresh (by decide) (by decide) (by decide), hentry⟩, rfl⟩, ?_⟩
  rintro id ⟨⟩
  exact hid

/-- After the first `store` of an id, its entry is found for every id that is confused with it. -/
theorem exists_found_confused (hid : id'.length ≤ PMEMPointer.idRoom)
    (hc : Confused hash id id') :
    ∃ calls s b x, Run (FittingStep hash) created calls s ∧ x ∈ s.pool.buckets b ∧
      insertedUnder calls x.oid = some id' ∧ s.findEntry hash id = .ok x := by
  have hraw : (zeroed 2 PMEMPointer.structSize).raw.length = PMEMPointer.structSize :=
    List.length_replicate
  have hfind := findEntry_storePool (s := created) (a := zeroed 1 1) hid
    (by decide : ([7] : Bytes).length < 2 ^ 64) hraw hc.1 hc.2
  have hunder : insertedUnder ([] ++ [storeAt id' [7] 1]) (zeroed 2 PMEMPointer.structSize).oid =
      some id' := insertedUnder_of_linked rfl
  exact ⟨_, _, _, _, Run.single (fitting_first hash hid), (mem_of_findEntry hfind).1, hunder, hfind⟩

end Lookup

/-- **A lookup finds its own key only, up to the first NUL.** An entry found for an id
was inserted under this very id exactly when no other id of its length agrees
with it up to the first NUL and shares its bucket; and two ids are kept apart in
every run exactly when they are not such a pair. -/
theorem findsOwn_iff (hash : Bytes → ℕ) (id : Bytes) :
    (FindsOwn hash id ↔
      ∀ id', id'.length ≤ PMEMPointer.idRoom → Confused hash id id' → id' = id) ∧
    ∀ id', id'.length ≤ PMEMPointer.idRoom → id' ≠ id →
      (KeepsApart hash id id' ↔ ¬Confused hash id id') := by
  refine ⟨⟨?_, ?_⟩, ?_⟩
  · intro hown id' hid hc
    obtain ⟨calls, s, b, x, hrun, _, hunder, hfind⟩ := exists_found_confused hid hc
    exact Option.some.inj (hunder.symm.trans (hown calls s x hrun hfind))
  · intro honly calls s x hrun hx
    have hwf := fitting_run_wf hrun
    have hrem := run_remembers hrun
    have hmem := (mem_of_findEntry hx).1
    have hentry := hwf.pool.entry hmem
    have hfits : x.entry.id.length ≤ PMEMPointer.idRoom := by
      rw [hentry.length_id]
      exact hentry.idLen_le
    have hid := honly _ hfits (confused_of_findEntry hwf hrem.nbuckets hx)
    rw [hrem.under _ x hmem, hid]
  · intro id' hid hne
    constructor
    · intro hapart hc
      obtain ⟨calls, s, b, x, hrun, hmem, hunder, hfind⟩ := exists_found_confused hid hc
      exact (hapart calls s b x hrun hmem hunder).found hfind
    · intro hc calls s b x hrun hx hunder
      have hrem := run_remembers hrun
      have hid' : x.entry.id = id' := Option.some.inj ((hrem.under b x hx).symm.trans hunder)
      exact leavesAlone_of_not_confused (fitting_run_wf hrun) hrem.nbuckets hx (hid' ▸ hc)

/-- Ids that differ in their last byte are kept apart when it does not follow a NUL. -/
theorem findsOwn_iff_text : KeepsApart (fun _ => 0) [97, 98] [97, 99] :=
  ((findsOwn_iff (fun _ => 0) [97, 98]).2 [97, 99] (by decide) (by decide)).mpr (by decide)

/-- Two ids that differ only behind a NUL pass for one another, and the entry of one is found for
the other. -/
theorem nul_ids_confused :
    ¬FindsOwn (fun _ => 0) [97, 0, 98] ∧ ¬KeepsApart (fun _ => 0) [97, 0, 98] [97, 0, 99] := by
  have hc : Confused (fun _ => 0) [97, 0, 98] [97, 0, 99] := ⟨rfl, by decide⟩
  obtain ⟨calls, s, b, x, hrun, hmem, hunder, hfind⟩ :=
    exists_found_confused (by decide) hc
  refine ⟨?_, ?_⟩
  · intro hown
    have heq := hunder.symm.trans (hown calls s x hrun hfind)
    revert heq
    decide
  · intro hapart
    exact (hapart calls s b x hrun hmem hunder).found hfind

end Pmemcpy
