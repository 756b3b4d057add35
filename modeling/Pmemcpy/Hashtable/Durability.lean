import Pmemcpy.Lib.Persistence
import Pmemcpy.Hashtable.Crash
import Mathlib.Data.List.Forall2
import Mathlib.Data.Option.Basic

/-!
# What survives a power failure

PMDK keeps its list links and its allocator durable. The bytes of an entry and
of a data block are durable only where a persist call covers them: `_alloc_str`
persists the block it copies to, `_add` persists the pointer variable it was
called with instead of the entry, and a block that is filled through a buffer
is never persisted. So an inserted entry survives exactly where the memory it
was given held the same bytes before.
-/

namespace Pmemcpy

open Lib PMDKHashtableStorage

/-- A call, and the durable contents of the memory that its data block and its
entry are given. -/
structure DurableCall where
  call : Call
  blockMem : Bytes
  entryMem : Bytes

/-- The storage in its volatile image, and the durable images of entries and data blocks. -/
structure DurableStorage where
  volatile : PMDKHashtableStorage
  entries : PMEMoid → Bytes
  blocks : PMEMoid → Bytes

/-- `pmemobj_memcpy_persist` in `_alloc_str` covers what it copies. -/
def allocStrPersists (src : Bytes) : List PersistRange := [.object 0 src.length]

/-- `pmemobj_persist(ppool, &bucket_entry, sizeof(struct PMEMPointer))` in `_add`:
the address is that of the local variable, not that of the entry it points to. -/
def addPersists : List PersistRange := [.elsewhere PMEMPointer.structSize]

namespace DurableCall

variable (c : DurableCall) (dur : PMEMoid → Bytes)

/-- The durable images of the data blocks after the call. What is written through
the buffer of an `alloc` is not persisted. -/
def blocks : PMEMoid → Bytes :=
  match c.call with
  | .store _ src (some a) _ => Function.update dur a.oid
      (persisted (allocStr src a.raw) c.blockMem (allocStrPersists src))
  | .alloc _ _ _ (some a) _ => Function.update dur a.oid (persisted a.raw c.blockMem [])
  | _ => dur

/-- The durable images of the entries after the call. -/
def entries : PMEMoid → Bytes :=
  match c.call with
  | .store id src (some a) (some e) => Function.update dur e.oid
      (persisted (add ⟨id.length, id, src.length, a.oid⟩ e.raw).image c.entryMem addPersists)
  | .alloc id size _ (some a) (some e) => Function.update dur e.oid
      (persisted (add ⟨id.length, id, size, a.oid⟩ e.raw).image c.entryMem addPersists)
  | _ => dur

/-- The durable memory is that of objects of the sizes asked for. -/
def Sized : Prop := ∀ block entry, c.call.answers = some (block, entry) →
  (∀ a ∈ block, c.blockMem.length = a.raw.length) ∧ ∀ e ∈ entry, c.entryMem.length = e.raw.length

end DurableCall

/-- A step of a run: any call on an id that fits its field, however it ends. -/
def DurableStep (hash : Bytes → ℕ) (σ : DurableStorage) (c : DurableCall) (τ : DurableStorage) :
    Prop :=
  FittingStep hash σ.volatile c.call τ.volatile ∧ c.Sized ∧
    τ.entries = c.entries σ.entries ∧ τ.blocks = c.blocks σ.blocks

/-- The moment after the first `k` PMDK calls of a call. -/
def DurableStorage.during (hash : Bytes → ℕ) (σ : DurableStorage) (c : DurableCall) (k : ℕ) :
    DurableStorage :=
  ⟨{ σ.volatile with pool := crashPool hash σ.volatile c.call k }, c.entries σ.entries,
    c.blocks σ.blocks⟩

/-- A pool that a power failure can leave. -/
structure CrashImage (σ : DurableStorage) (q : Pool) : Prop where
  nbuckets : q.nbuckets = σ.volatile.pool.nbuckets
  heads : q.heads = σ.volatile.pool.heads
  buckets : ∀ b, List.Forall₂ (fun x y => y.oid = x.oid ∧
    Mixed x.entry.image (σ.entries x.oid) y.entry.image) (σ.volatile.pool.buckets b) (q.buckets b)
  blocks : ∀ o,
    Option.Rel (fun v w => Mixed v (σ.blocks o) w) (σ.volatile.pool.blocks o) (q.blocks o)

/-- The table has an entry under `id` with the id and the lengths it was inserted
with, on the data block it was inserted with, and this block begins with `out`. -/
def HasEntry (hash : Bytes → ℕ) (p : Pool) (id : Bytes) (len : ℕ) (data : PMEMoid) (out : Bytes) :
    Prop :=
  ∃ x ∈ p.buckets (hash id % p.nbuckets), x.entry.idLen = id.length ∧ x.entry.id = id ∧
    x.entry.len = len ∧ x.entry.data = data ∧ ∃ v, p.blocks data = some v ∧ out <+: v

/-- Whenever the power fails before the id is stored again or freed, between two
calls or in the middle of one, the reopened pool has the entry. -/
def SurvivesPowerFailure (hash : Bytes → ℕ) (σ : DurableStorage) (id : Bytes) (len : ℕ)
    (data : PMEMoid) (out : Bytes) : Prop :=
  ∀ calls τ, Run (DurableStep hash) σ calls τ →
    ∀ c υ, DurableStep hash τ c υ → (∀ c' ∈ calls ++ [c], c'.call.id? ≠ some id) →
      ∀ k q, CrashImage (τ.during hash c k) q →
        ∃ t, openPool ⟨some q, none⟩ = .ok t ∧ HasEntry hash t.pool id len data out

/-- The call copies its bytes with `_alloc_str`. -/
def Call.Copies : Call → Prop
  | .store _ _ _ _ => True
  | _ => False

/-- The memory that the entry and the block of the call are given already holds,
durably, all that the call writes without persisting it. -/
structure AlreadyDurable (c : DurableCall) (id : Bytes) (len : ℕ) (data : PMEMoid) (out : Bytes) :
    Prop where
  idLen : slice c.entryMem PMEMPointer.idLenOff 8 = leBytes 8 id.length
  id : slice c.entryMem PMEMPointer.idOff id.length = id
  len : slice c.entryMem PMEMPointer.lenOff 8 = leBytes 8 len
  data : slice c.entryMem PMEMPointer.dataOff 16 = data.toBytes
  payload : c.call.Copies ∨ out <+: c.blockMem

/-- A created storage. -/
def durableCreated : DurableStorage := ⟨created, fun _ => [], fun _ => []⟩

section Images

variable {hash : Bytes → ℕ} {σ τ : DurableStorage} {c : DurableCall} {calls : List DurableCall}
  {id src out : Bytes} {a e : Allocation} {block entry : Option Allocation}

/-- The volatile image of a run is a run of the storage. -/
theorem durable_run_wf (hrun : Run (DurableStep hash) durableCreated calls σ) :
    σ.volatile.Wf hash :=
  fitting_run_wf (hrun.map (g := DurableCall.call) fun _ _ _ h => h.1)

/-- The durable image of the block of an insertion is what is copied to it, or else what its memory
held before. -/
theorem DurableCall.blocks_insert (hans : c.call.answers = some (some a, entry))
    (hins : c.call.inserts = some (id, src)) (hsized : c.Sized) (hraw : a.raw.length = src.length)
    (dur : PMEMoid → Bytes) :
    (c.call.Copies ∧ c.blocks dur = Function.update dur a.oid src) ∨
      (¬c.call.Copies ∧ c.blocks dur = Function.update dur a.oid c.blockMem) := by
  have hmem : c.blockMem.length = a.raw.length := (hsized _ _ hans).1 a rfl
  cases hc : c.call with
  | store id' src' block' entry' =>
    rw [hc] at hans hins
    obtain ⟨rfl, rfl⟩ : block' = some a ∧ entry' = entry := by simpa [Call.answers] using hans
    obtain ⟨rfl, rfl⟩ : id' = id ∧ src' = src := by simpa [Call.inserts] using hins
    have hvol : allocStr src' a.raw = src' := splice_zero_of_length hraw.symm
    refine Or.inl ⟨trivial, ?_⟩
    rw [DurableCall.blocks, hc]
    simp only [allocStrPersists, hvol]
    rw [persisted_whole (hmem.trans hraw)]
  | alloc id' size fill block' entry' =>
    rw [hc] at hans
    obtain ⟨rfl, rfl⟩ : block' = some a ∧ entry' = entry := by simpa [Call.answers] using hans
    refine Or.inr ⟨fun h => h, ?_⟩
    rw [DurableCall.blocks, hc]
    rfl
  | free id' => simp [hc, Call.answers] at hans
  | reopen => simp [hc, Call.answers] at hans

/-- The durable image of the entry of an insertion is what its memory held before. -/
theorem DurableCall.entries_insert (hans : c.call.answers = some (some a, some e))
    (dur : PMEMoid → Bytes) : c.entries dur = Function.update dur e.oid c.entryMem := by
  cases hc : c.call with
  | store id' src' block' entry' =>
    rw [hc] at hans
    obtain ⟨rfl, rfl⟩ : block' = some a ∧ entry' = some e := by simpa [Call.answers] using hans
    rw [DurableCall.entries, hc]
    rfl
  | alloc id' size fill block' entry' =>
    rw [hc] at hans
    obtain ⟨rfl, rfl⟩ : block' = some a ∧ entry' = some e := by simpa [Call.answers] using hans
    rw [DurableCall.entries, hc]
    rfl
  | free id' => simp [hc, Call.answers] at hans
  | reopen => simp [hc, Call.answers] at hans

/-- A call changes the durable image of no block but its own. -/
theorem DurableCall.blocks_other {o : PMEMoid} (dur : PMEMoid → Bytes)
    (h : ∀ a entry, c.call.answers = some (some a, entry) → o ≠ a.oid) :
    c.blocks dur o = dur o := by
  have hcases : (∃ a entry m, c.call.answers = some (some a, entry) ∧
      c.blocks dur = Function.update dur a.oid m) ∨ c.blocks dur = dur := by
    rw [DurableCall.blocks]
    split
    · rename_i hc
      exact Or.inl ⟨_, _, _, by rw [hc]; rfl, rfl⟩
    · rename_i hc
      exact Or.inl ⟨_, _, _, by rw [hc]; rfl, rfl⟩
    · exact Or.inr rfl
  rcases hcases with ⟨a, entry, m, hans, heq⟩ | heq
  · rw [heq, Function.update_of_ne (h a entry hans)]
  · rw [heq]

/-- A call changes the durable image of no entry but its own. -/
theorem DurableCall.entries_other {o : PMEMoid} (dur : PMEMoid → Bytes)
    (h : ∀ a e, c.call.answers = some (some a, some e) → o ≠ e.oid) :
    c.entries dur o = dur o := by
  have hcases : (∃ a e m, c.call.answers = some (some a, some e) ∧
      c.entries dur = Function.update dur e.oid m) ∨ c.entries dur = dur := by
    rw [DurableCall.entries]
    split
    · rename_i hc
      exact Or.inl ⟨_, _, _, by rw [hc]; rfl, rfl⟩
    · rename_i hc
      exact Or.inl ⟨_, _, _, by rw [hc]; rfl, rfl⟩
    · exact Or.inr rfl
  rcases hcases with ⟨a, e, m, hans, heq⟩ | heq
  · rw [heq, Function.update_of_ne (h a e hans)]
  · rw [heq]

/-- An entry and its block as they stay while nobody touches their id: the
volatile images, and what is durable of them. -/
structure Kept (σ : DurableStorage) (b : ℕ) (x : ListElem) (v entryMem blockMem : Bytes) :
    Prop where
  entry : x ∈ σ.volatile.pool.buckets b
  block : σ.volatile.pool.blocks x.entry.data = some v
  durEntry : σ.entries x.oid = entryMem
  durBlock : σ.blocks x.entry.data = blockMem

/-- The entry that `_find` meets for another id is another entry, on another block. -/
theorem found_other {s : PMDKHashtableStorage} {b : ℕ} {x y : ListElem} (hwf : s.Wf hash)
    (hx : x ∈ s.pool.buckets b) (hid : NulFree x.entry.id) (hother : some id ≠ some x.entry.id)
    (hfind : s.findEntry hash id = .ok y) : x.oid ≠ y.oid ∧ x.entry.data ≠ y.entry.data := by
  obtain ⟨hy, hnamed⟩ := mem_of_findEntry hfind
  have hoid : x.oid ≠ y.oid := by
    intro heq
    obtain rfl := hwf.pool.oid_inj hx hy heq
    have hkey := ((hwf.pool.entry hx).isNamed_iff).mp hnamed
    exact hother (congrArg some (hkey.eq hid).symm)
  exact ⟨hoid, fun heq =>
    hoid (hwf.pool.owned hx hy (Set.notMem_empty _) (Set.notMem_empty _) heq)⟩

/-- A call on another id keeps an entry and its block in the volatile image. -/
theorem volatile_kept {s t : PMDKHashtableStorage} {c : Call} {b : ℕ} {x : ListElem} {v : Bytes}
    (hwf : s.Wf hash) (hx : x ∈ s.pool.buckets b) (hv : s.pool.blocks x.entry.data = some v)
    (hstep : FittingStep hash s c t) (hid : NulFree x.entry.id) (hother : c.id? ≠ some x.entry.id) :
    x ∈ t.pool.buckets b ∧ t.pool.blocks x.entry.data = some v := by
  cases hstep.1.effect with
  | refused => exact ⟨hx, hv⟩
  | orphaned _ _ ha =>
    have hne := hwf.pool.data_ne_of_fresh ha _ _ hx
    exact ⟨hx, by simp [Pool.pobjAlloc, Function.update_of_ne hne, hv]⟩
  | stored _ _ ha he =>
    have hne := hwf.pool.data_ne_of_fresh ha _ _ hx
    refine ⟨mem_storePool.mpr (Or.inr hx), ?_⟩
    exact (blocks_storePool ha _).trans (by rw [if_neg hne, hv])
  | missing => exact ⟨hx, hv⟩
  | freed hfind =>
    obtain ⟨hoid, hdata⟩ := found_other hwf hx hid hother hfind
    refine ⟨(hwf.mem_freePool_iff (mem_of_findEntry hfind).1).mpr ⟨hx, hoid⟩, ?_⟩
    exact (blocks_freePool _).trans (by rw [if_neg hdata, hv])
  | reopened => exact ⟨hx, hv⟩

/-- A call on another id keeps an entry and its block at every crash between its PMDK calls. -/
theorem crashPool_kept {s : PMDKHashtableStorage} {c : Call} {b : ℕ} {x : ListElem} {v : Bytes}
    (hwf : s.Wf hash) (hx : x ∈ s.pool.buckets b) (hv : s.pool.blocks x.entry.data = some v)
    (hc : c.Possible s) (hid : NulFree x.entry.id) (hother : c.id? ≠ some x.entry.id) (k : ℕ) :
    x ∈ (crashPool hash s c k).buckets b ∧
      (crashPool hash s c k).blocks x.entry.data = some v ∧
      (crashPool hash s c k).nbuckets = s.pool.nbuckets := by
  have hbefore : crashPool hash s c 0 = s.pool := rfl
  have halloc {src : Bytes} {a : Allocation} (ha : s.pool.Fresh src.length a) :
      (s.pool.pobjAlloc (allocStr src) (some a)).2.blocks x.entry.data = some v := by
    have hne := hwf.pool.data_ne_of_fresh ha _ _ hx
    simp [Pool.pobjAlloc, Function.update_of_ne hne, hv]
  obtain rfl | rfl | ⟨k, rfl⟩ : k = 0 ∨ k = 1 ∨ ∃ n, k = n + 2 := by
    rcases k with _ | _ | n
    · exact Or.inl rfl
    · exact Or.inr (Or.inl rfl)
    · exact Or.inr (Or.inr ⟨n, rfl⟩)
  · rw [hbefore]
    exact ⟨hx, hv, rfl⟩
  · cases crashEffect hash hc with
    | none _ hpool =>
      rw [hpool]
      exact ⟨hx, hv, rfl⟩
    | orphaned src a _ ha _ hpool =>
      rw [hpool 0]
      exact ⟨hx, halloc ha, rfl⟩
    | stored id src a e _ _ ha _ _ hfirst =>
      rw [hfirst]
      exact ⟨hx, halloc ha, rfl⟩
    | freed id y _ hcid hfind _ hfirst =>
      obtain ⟨hoid, hdata⟩ := found_other hwf hx hid (hcid ▸ hother) hfind
      have hkeep : Pool.clearElem y x = x := by simp [Pool.clearElem, hoid]
      rw [hfirst]
      refine ⟨?_, ?_, rfl⟩
      · rw [hwf.pool.buckets_pobjFree (mem_of_findEntry hfind).1]
        exact List.mem_map.mpr ⟨x, hx, hkeep⟩
      · simp [Pool.pobjFree, Function.update_of_ne hdata, hv]
  · cases crashEffect hash hc with
    | none _ hpool =>
      rw [hpool]
      exact ⟨hx, hv, rfl⟩
    | orphaned src a _ ha _ hpool =>
      rw [hpool (k + 1)]
      exact ⟨hx, halloc ha, rfl⟩
    | stored id src a e _ _ ha _ _ _ hlast =>
      have hne := hwf.pool.data_ne_of_fresh ha _ _ hx
      rw [hlast]
      refine ⟨mem_storePool.mpr (Or.inr hx), ?_, rfl⟩
      rw [blocks_storePool ha, if_neg hne, hv]
    | freed id y _ hcid hfind _ _ hlast =>
      obtain ⟨hoid, hdata⟩ := found_other hwf hx hid (hcid ▸ hother) hfind
      rw [hlast]
      refine ⟨(hwf.mem_freePool_iff (mem_of_findEntry hfind).1).mpr ⟨hx, hoid⟩, ?_, rfl⟩
      rw [blocks_freePool, if_neg hdata, hv]

/-- The objects that a call is given are not those of an entry in the table. -/
theorem answers_fresh {s t : PMDKHashtableStorage} {c : Call} {b : ℕ} {x : ListElem}
    (hwf : s.Wf hash) (hx : x ∈ s.pool.buckets b) (hstep : FittingStep hash s c t) :
    (∀ a entry, c.answers = some (some a, entry) → x.entry.data ≠ a.oid) ∧
      ∀ a e, c.answers = some (some a, some e) → x.oid ≠ e.oid := by
  cases hstep.1.effect with
  | refused _ hans => simp [hans]
  | orphaned _ hans ha =>
    simp only [hans, Option.some.injEq, Prod.mk.injEq, reduceCtorEq, and_false, false_implies,
      implies_true, and_true]
    rintro a' entry ⟨rfl, _⟩
    exact hwf.pool.data_ne_of_fresh ha _ _ hx
  | stored _ hans ha he =>
    simp only [hans, Option.some.injEq, Prod.mk.injEq]
    constructor
    · rintro a' entry ⟨rfl, _⟩
      exact hwf.pool.data_ne_of_fresh ha _ _ hx
    · rintro a' e' ⟨_, rfl⟩
      exact he.entry _ x hx
  | missing => simp [Call.answers]
  | freed => simp [Call.answers]
  | reopened => simp [Call.answers]

/-- Calls on other ids keep an entry and its block. -/
theorem Kept.step {b : ℕ} {x : ListElem} {v entryMem blockMem : Bytes} (hwf : σ.volatile.Wf hash)
    (h : Kept σ b x v entryMem blockMem) (hstep : DurableStep hash σ c τ)
    (hid : NulFree x.entry.id) (hother : c.call.id? ≠ some x.entry.id) :
    Kept τ b x v entryMem blockMem := by
  obtain ⟨hcall, _, hentries, hblocks⟩ := hstep
  obtain ⟨hx, hv⟩ := volatile_kept hwf h.entry h.block hcall hid hother
  obtain ⟨hdata, hoid⟩ := answers_fresh hwf h.entry hcall
  refine ⟨hx, hv, ?_, ?_⟩
  · rw [hentries, DurableCall.entries_other _ hoid, h.durEntry]
  · rw [hblocks, DurableCall.blocks_other _ hdata, h.durBlock]

/-- Any run on other ids keeps an entry and its block. -/
theorem Kept.run {b : ℕ} {x : ListElem} {v entryMem blockMem : Bytes} (hwf : σ.volatile.Wf hash)
    (h : Kept σ b x v entryMem blockMem) (hrun : Run (DurableStep hash) σ calls τ)
    (hid : NulFree x.entry.id) (hother : ∀ c ∈ calls, c.call.id? ≠ some x.entry.id) :
    τ.volatile.Wf hash ∧ Kept τ b x v entryMem blockMem := by
  induction hrun with
  | nil => exact ⟨hwf, h⟩
  | snoc _ hstep ih =>
    obtain ⟨hwf', hkept⟩ := ih fun c hc => hother c (by simp [hc])
    exact ⟨hwf'.step hstep.1, hkept.step hwf' hstep hid (hother _ (by simp))⟩

/-- A call on another id keeps an entry and its block at every moment. -/
theorem Kept.during {b : ℕ} {x : ListElem} {v entryMem blockMem : Bytes} (hwf : σ.volatile.Wf hash)
    (h : Kept σ b x v entryMem blockMem) (hstep : DurableStep hash σ c τ)
    (hid : NulFree x.entry.id) (hother : c.call.id? ≠ some x.entry.id) (k : ℕ) :
    Kept (σ.during hash c k) b x v entryMem blockMem ∧
      (σ.during hash c k).volatile.pool.nbuckets = σ.volatile.pool.nbuckets := by
  obtain ⟨hx, hv, hn⟩ := crashPool_kept hwf h.entry h.block hstep.1.1.1 hid hother k
  obtain ⟨hdata, hoid⟩ := answers_fresh hwf h.entry hstep.1
  refine ⟨⟨hx, hv, ?_, ?_⟩, hn⟩
  · exact (DurableCall.entries_other _ hoid).trans h.durEntry
  · exact (DurableCall.blocks_other _ hdata).trans h.durBlock

end Images

section Failure

variable {hash : Bytes → ℕ} {σ τ : DurableStorage} {c : DurableCall} {calls : List DurableCall}
  {id src out : Bytes} {a e : Allocation} {entry : Option Allocation} {len : ℕ} {q : Pool}

/-- An entry has these fields exactly if the bytes at their offsets are theirs. -/
theorem fields_iff {m : Bytes} (hm : m.length = PMEMPointer.structSize)
    (hid : id.length ≤ PMEMPointer.idRoom) (hlen : len < 2 ^ 64) {data : PMEMoid} :
    ((⟨m⟩ : PMEMPointer).idLen = id.length ∧ (⟨m⟩ : PMEMPointer).id = id ∧
      (⟨m⟩ : PMEMPointer).len = len ∧ (⟨m⟩ : PMEMPointer).data = data) ↔
    slice m PMEMPointer.idLenOff 8 = leBytes 8 id.length ∧
      slice m PMEMPointer.idOff id.length = id ∧
      slice m PMEMPointer.lenOff 8 = leBytes 8 len ∧
      slice m PMEMPointer.dataOff 16 = data.toBytes := by
  have hnumber (off n : ℕ) (hoff : off + 8 ≤ m.length) (hn : n < 256 ^ 8) :
      ofLe (slice m off 8) = n ↔ slice m off 8 = leBytes 8 n := by
    constructor
    · rintro rfl
      have hle := leBytes_ofLe (slice m off 8)
      rw [length_slice hoff] at hle
      exact hle.symm
    · intro h
      rw [h, ofLe_leBytes_of_lt hn]
  have hidLen := hnumber PMEMPointer.idLenOff id.length (by rw [hm]; decide)
    (by simp only [PMEMPointer.idRoom] at hid; omega)
  have hdlen := hnumber PMEMPointer.lenOff len (by rw [hm]; decide) (by omega)
  have hdata : PMEMoid.ofBytes (slice m PMEMPointer.dataOff 16) = data ↔
      slice m PMEMPointer.dataOff 16 = data.toBytes := by
    constructor
    · rintro rfl
      rw [PMEMoid.toBytes_ofBytes (length_slice (by rw [hm]; decide))]
    · intro h
      rw [h, PMEMoid.ofBytes_toBytes]
  simp only [PMEMPointer.idLen, PMEMPointer.id, PMEMPointer.len, PMEMPointer.data, hdlen, hdata]
  constructor
  · rintro ⟨h, hid', hrest⟩
    rw [h] at hid'
    exact ⟨hidLen.mp h, hid', hrest⟩
  · rintro ⟨h, hid', hrest⟩
    have hdec := hidLen.mpr h
    exact ⟨hdec, by rw [hdec]; exact hid', hrest⟩

/-- What an insertion can have done to the storage, by PMDK's answers. -/
theorem insert_cases {s t : PMDKHashtableStorage} {c : Call} (hstep : c.Step hash s t)
    (hins : c.inserts = some (id, src)) :
    (∃ entry, c.answers = some (none, entry)) ∨
      (∃ a, c.answers = some (some a, none) ∧ s.pool.Fresh src.length a ∧
        t = { s with pool := (s.pool.pobjAlloc (allocStr src) (some a)).2 }) ∨
      ∃ a e, c.answers = some (some a, some e) ∧ s.pool.Fresh src.length a ∧
        (s.pool.pobjAlloc (allocStr src) (some a)).2.Fresh PMEMPointer.structSize e ∧
        t = { s with pool := s.storePool hash id src a e } := by
  cases hstep.effect with
  | refused _ hans => exact Or.inl ⟨_, hans⟩
  | orphaned hins' hans ha =>
    obtain ⟨rfl, rfl⟩ := Prod.mk.inj (Option.some.inj (hins'.symm.trans hins))
    exact Or.inr (Or.inl ⟨_, hans, ha, rfl⟩)
  | stored hins' hans ha he =>
    obtain ⟨rfl, rfl⟩ := Prod.mk.inj (Option.some.inj (hins'.symm.trans hins))
    exact Or.inr (Or.inr ⟨_, _, hans, ha, he, rfl⟩)
  | missing => cases hins
  | freed => cases hins
  | reopened => cases hins

/-- An insertion whose block is refused throws. -/
theorem exec_refused {s : PMDKHashtableStorage} {c : Call} (hans : c.answers = some (none, entry)) :
    (c.exec hash s).1 = .error (.thrown .pmdkCantAllocateStr) := by
  cases c with
  | store id' src' block' entry' =>
    obtain ⟨rfl, _⟩ : block' = none ∧ entry' = entry := by simpa [Call.answers] using hans
    rfl
  | alloc id' size fill block' entry' =>
    obtain ⟨rfl, _⟩ : block' = none ∧ entry' = entry := by simpa [Call.answers] using hans
    rfl
  | free => cases hans
  | reopen => cases hans

/-- A power failure may leave the volatile image, since everything may have reached the durable one.
-/
theorem CrashImage.volatile (σ : DurableStorage) : CrashImage σ σ.volatile.pool where
  nbuckets := rfl
  heads := rfl
  buckets b := List.forall₂_same.mpr fun x _ => ⟨rfl, Mixed.volatile _ _⟩
  blocks o := by
    cases σ.volatile.pool.blocks o with
    | none => exact .none
    | some v => exact .some (Mixed.volatile v _)

/-- A list element of which nothing reached the durable images, if it is the one at `e`. -/
def tornElem (σ : DurableStorage) (e : PMEMoid) (x : ListElem) : ListElem :=
  if x.oid = e then ⟨x.oid, ⟨σ.entries x.oid⟩⟩ else x

/-- The pool in which nothing that was not persisted of the entry `e` and the
block `a` reached the durable images, and everything else did. -/
def tornPool (σ : DurableStorage) (a e : PMEMoid) : Pool :=
  { σ.volatile.pool with
    buckets := fun b => (σ.volatile.pool.buckets b).map (tornElem σ e)
    blocks := Function.update σ.volatile.pool.blocks a
      ((σ.volatile.pool.blocks a).map fun _ => σ.blocks a) }

/-- A power failure can leave this pool. -/
theorem CrashImage.torn {a e : PMEMoid}
    (hentry : ∀ b, ∀ x ∈ σ.volatile.pool.buckets b, x.oid = e →
      (σ.entries e).length = x.entry.image.length)
    (hblock : ∀ v, σ.volatile.pool.blocks a = some v → (σ.blocks a).length = v.length) :
    CrashImage σ (tornPool σ a e) where
  nbuckets := rfl
  heads := rfl
  buckets b := by
    rw [tornPool, List.forall₂_map_right_iff, List.forall₂_same]
    intro x hx
    unfold tornElem
    split
    · rename_i heq
      subst heq
      exact ⟨rfl, Mixed.durable (hentry b x hx rfl)⟩
    · exact ⟨rfl, Mixed.volatile _ _⟩
  blocks o := by
    by_cases ho : o = a
    · subst ho
      have hupdate : (tornPool σ o e).blocks o =
          (σ.volatile.pool.blocks o).map fun _ => σ.blocks o := by
        simp [tornPool]
      rw [hupdate]
      cases hv : σ.volatile.pool.blocks o with
      | none => exact .none
      | some v => exact .some (Mixed.durable (hblock v hv))
    · have hupdate : (tornPool σ a e).blocks o = σ.volatile.pool.blocks o := by
        simp [tornPool, ho]
      rw [hupdate]
      exact (CrashImage.volatile σ).blocks o

/-- Related lists have related elements. -/
theorem exists_of_forall₂ {α β : Type*} {R : α → β → Prop} {l : List α} {l' : List β} {x : α}
    (h : List.Forall₂ R l l') (hx : x ∈ l) : ∃ y ∈ l', R x y := by
  induction h with
  | nil => cases hx
  | cons hhead _ ih =>
    rcases List.mem_cons.mp hx with rfl | hx
    · exact ⟨_, List.mem_cons_self, hhead⟩
    · obtain ⟨y, hy, hrel⟩ := ih hx
      exact ⟨y, List.mem_cons_of_mem _ hy, hrel⟩

/-- What both images of an entry and its block agree on is found after any power failure. -/
theorem hasEntry_of_crashImage {b : ℕ} {x : ListElem} {blockMem entryMem : Bytes}
    (hxwf : x.entry.Wf) (hplaced : b = hash x.entry.id % σ.volatile.pool.nbuckets)
    (hkept : Kept σ b x src entryMem blockMem) (hq : CrashImage σ q)
    (hmem : entryMem.length = PMEMPointer.structSize)
    (hfit : x.entry.id.length ≤ PMEMPointer.idRoom)
    (hentry : (⟨entryMem⟩ : PMEMPointer).idLen = x.entry.id.length ∧
      (⟨entryMem⟩ : PMEMPointer).id = x.entry.id ∧ (⟨entryMem⟩ : PMEMPointer).len = x.entry.len ∧
      (⟨entryMem⟩ : PMEMPointer).data = x.entry.data)
    (hlen : x.entry.len < 2 ^ 64) (hsrc : out <+: src) (hblock : out <+: blockMem) :
    HasEntry hash q x.entry.id x.entry.len x.entry.data out := by
  obtain ⟨y, hy, hoid, hmix⟩ := exists_of_forall₂ (hq.buckets b) hkept.entry
  rw [hplaced, ← hq.nbuckets] at hy
  rw [hkept.durEntry] at hmix
  have hvol := (fields_iff hxwf.size hfit hlen).mp ⟨hxwf.length_id.symm, rfl, rfl, rfl⟩
  have hdur := (fields_iff hmem hfit hlen).mp hentry
  have hy' : y.entry.image.length = PMEMPointer.structSize := hmix.length.trans hxwf.size
  have hfields := (fields_iff hy' hfit hlen).mpr
    ⟨(hmix.slice_eq (hvol.1.trans hdur.1.symm)).trans hvol.1,
      (hmix.slice_eq (hvol.2.1.trans hdur.2.1.symm)).trans hvol.2.1,
      (hmix.slice_eq (hvol.2.2.1.trans hdur.2.2.1.symm)).trans hvol.2.2.1,
      (hmix.slice_eq (hvol.2.2.2.trans hdur.2.2.2.symm)).trans hvol.2.2.2⟩
  have hrel := hq.blocks x.entry.data
  rw [hkept.block, hkept.durBlock] at hrel
  cases hw : q.blocks x.entry.data with
  | none =>
    rw [hw] at hrel
    cases hrel
  | some w =>
    rw [hw] at hrel
    cases hrel with
    | some hmixed =>
      exact ⟨y, hy, hfields.1, hfields.2.1, hfields.2.2.1, hfields.2.2.2, w, hw,
        hmixed.isPrefix hsrc hblock⟩

/-- What survives every power failure survives one right away. -/
theorem SurvivesPowerFailure.now {data : PMEMoid}
    (h : SurvivesPowerFailure hash σ id len data out) (hq : CrashImage σ q) :
    HasEntry hash q id len data out := by
  have hstep : DurableStep hash σ ⟨.reopen, [], []⟩
      ⟨{ σ.volatile with nbuckets := σ.volatile.pool.nbuckets }, σ.entries, σ.blocks⟩ := by
    refine ⟨⟨⟨trivial, rfl⟩, ?_⟩, ?_, rfl, rfl⟩
    · rintro id ⟨⟩
    · rintro block entry ⟨⟩
  obtain ⟨t, ht, hhas⟩ := h [] σ Run.nil _ _ hstep (by simp [Call.id?]) 0 q hq
  cases ht
  exact hhas

/-- What an insertion that went through leaves in both images. -/
theorem kept_of_stored (hstep : DurableStep hash σ c τ)
    (hans : c.call.answers = some (some a, some e)) (ha : σ.volatile.pool.Fresh src.length a)
    (he : (σ.volatile.pool.pobjAlloc (allocStr src) (some a)).2.Fresh PMEMPointer.structSize e)
    (hτ : τ.volatile = { σ.volatile with pool := σ.volatile.storePool hash id src a e })
    (hid : id.length ≤ PMEMPointer.idRoom) :
    Kept τ (σ.volatile.hashfun hash id) (storeElem id src a e) src c.entryMem
      (τ.blocks a.oid) := by
  have hfields := storeElem_fields (a := a) ha.size_lt hid he.raw
  obtain ⟨_, _, hentries, _⟩ := hstep
  refine ⟨?_, ?_, ?_, by rw [hfields.2.2.2]⟩
  · rw [hτ]
    exact mem_storePool.mpr (Or.inl ⟨rfl, rfl⟩)
  · rw [hfields.2.2.2, hτ]
    exact (blocks_storePool ha _).trans (if_pos rfl)
  · rw [hentries, c.entries_insert hans]
    exact Function.update_self _ _ _

/-- An insertion survives if its memory already held what it does not persist. -/
theorem survives_of_alreadyDurable (hwf : σ.volatile.Wf hash) (hstep : DurableStep hash σ c τ)
    (hans : c.call.answers = some (some a, some e)) (hins : c.call.inserts = some (id, src))
    (ha : σ.volatile.pool.Fresh src.length a)
    (he : (σ.volatile.pool.pobjAlloc (allocStr src) (some a)).2.Fresh PMEMPointer.structSize e)
    (hτ : τ.volatile = { σ.volatile with pool := σ.volatile.storePool hash id src a e })
    (hid : StorableId id) (hout : out <+: src)
    (hdurable : AlreadyDurable c id src.length a.oid out) :
    SurvivesPowerFailure hash τ id src.length a.oid out := by
  have hfields := storeElem_fields (a := a) ha.size_lt hid.room he.raw
  have hkept := kept_of_stored hstep hans ha he hτ hid.room
  have hmem : c.entryMem.length = PMEMPointer.structSize := by
    rw [(hstep.2.1 _ _ hans).2 e rfl, he.raw]
  have hblock : out <+: τ.blocks a.oid := by
    rcases c.blocks_insert hans hins hstep.2.1 ha.raw σ.blocks with ⟨_, heq⟩ | ⟨hnot, heq⟩
    · rw [hstep.2.2.2, heq, Function.update_self]
      exact hout
    · rw [hstep.2.2.2, heq, Function.update_self]
      exact hdurable.payload.resolve_left hnot
  have hentry := (fields_iff hmem hid.room ha.size_lt).mpr
    ⟨hdurable.idLen, hdurable.id, hdurable.len, hdurable.data⟩
  have hnul : NulFree (storeElem id src a e).entry.id := by
    rw [hfields.2.1]
    exact hid.nulFree
  intro calls υ hrun c' υ' hlast hother k q hq
  rw [← hfields.2.1] at hother
  obtain ⟨hυ, hkeptυ⟩ := hkept.run (hwf.step hstep.1) hrun hnul
    fun c'' hc'' => hother c'' (by simp [hc''])
  obtain ⟨hkeptk, hn⟩ := hkeptυ.during hυ hlast hnul (hother c' (by simp)) k
  have hplaced := hυ.pool.placed hkeptυ.entry
  rw [← hn] at hplaced
  have hhas := hasEntry_of_crashImage hfields.1 hplaced hkeptk hq hmem
    (by rw [hfields.2.1]; exact hid.room)
    (by rw [hfields.2.1, hfields.2.2.1, hfields.2.2.2]; exact hentry)
    (by rw [hfields.2.2.1]; exact ha.size_lt) hout hblock
  rw [hfields.2.1, hfields.2.2.1, hfields.2.2.2] at hhas
  exact ⟨_, rfl, hhas⟩

/-- An insertion that survives any power failure found what it does not persist in its memory. -/
theorem alreadyDurable_of_survives (hwf : σ.volatile.Wf hash) (hstep : DurableStep hash σ c τ)
    (hans : c.call.answers = some (some a, some e)) (hins : c.call.inserts = some (id, src))
    (ha : σ.volatile.pool.Fresh src.length a)
    (he : (σ.volatile.pool.pobjAlloc (allocStr src) (some a)).2.Fresh PMEMPointer.structSize e)
    (hτ : τ.volatile = { σ.volatile with pool := σ.volatile.storePool hash id src a e })
    (hid : id.length ≤ PMEMPointer.idRoom)
    (hsurvives : SurvivesPowerFailure hash τ id src.length a.oid out) :
    AlreadyDurable c id src.length a.oid out := by
  have hfields := storeElem_fields (a := a) ha.size_lt hid he.raw
  have hkept := kept_of_stored hstep hans ha he hτ hid
  have hmem : c.entryMem.length = PMEMPointer.structSize := by
    rw [(hstep.2.1 _ _ hans).2 e rfl, he.raw]
  have hbuckets {b : ℕ} {x : ListElem} (hx : x ∈ τ.volatile.pool.buckets b) :
      x = storeElem id src a e ∨ x.oid ≠ e.oid ∧ x.entry.data ≠ a.oid := by
    rw [hτ] at hx
    rcases mem_storePool.mp hx with ⟨_, rfl⟩ | hx
    · exact Or.inl rfl
    · exact Or.inr ⟨he.entry _ x hx, hwf.pool.data_ne_of_fresh ha _ _ hx⟩
  have hblocks := c.blocks_insert hans hins hstep.2.1 ha.raw σ.blocks
  rw [← hstep.2.2.2] at hblocks
  have himage : CrashImage τ (tornPool τ a.oid e.oid) := by
    apply CrashImage.torn
    · intro b x hx hoid
      rcases hbuckets hx with rfl | ⟨hne, _⟩
      · have hdur := hkept.durEntry
        exact (congrArg List.length hdur).trans (hmem.trans hfields.1.size.symm)
      · exact absurd hoid hne
    · intro v hv
      have hvsrc : v = src := by
        have hblock := hkept.block
        rw [hfields.2.2.2, hv] at hblock
        exact Option.some.inj hblock
      rcases hblocks with ⟨_, heq⟩ | ⟨_, heq⟩
      · rw [heq, Function.update_self, hvsrc]
      · rw [heq, Function.update_self, hvsrc, (hstep.2.1 _ _ hans).1 a rfl, ha.raw]
  obtain ⟨y, hy, hylen, hyid, hydlen, hydata, w, hw, hout⟩ := hsurvives.now himage
  obtain ⟨x, hx, rfl⟩ := List.mem_map.mp hy
  rcases hbuckets hx with rfl | ⟨hne, hdata⟩
  · have hoid : (storeElem id src a e).oid = e.oid := rfl
    have hdur : τ.entries e.oid = c.entryMem := hkept.durEntry
    have helem : tornElem τ e.oid (storeElem id src a e) = ⟨e.oid, ⟨c.entryMem⟩⟩ := by
      rw [tornElem, if_pos hoid, hoid, hdur]
    rw [helem] at hylen hyid hydlen hydata
    obtain ⟨h₁, h₂, h₃, h₄⟩ := (fields_iff hmem hid ha.size_lt).mp ⟨hylen, hyid, hydlen, hydata⟩
    refine ⟨h₁, h₂, h₃, h₄, ?_⟩
    rcases hblocks with ⟨hcopies, _⟩ | ⟨_, heq⟩
    · exact Or.inl hcopies
    · have hblock := hkept.block
      rw [hfields.2.2.2] at hblock
      have hwmem : (tornPool τ a.oid e.oid).blocks a.oid = some c.blockMem := by
        simp [tornPool, hblock, heq]
      rw [hwmem] at hw
      exact Or.inr (Option.some.inj hw ▸ hout)
  · rw [tornElem, if_neg hne] at hydata
    exact absurd hydata hdata

end Failure

/-- **Durability of an insertion.** An insertion that returns got its data block.
The entry it inserts survives every later power failure, until its id is stored
again or freed, if and only if it also got its list entry, and the memory it was
given already held all the bytes that it writes without persisting them. -/
theorem survivesPowerFailure_iff (hash : Bytes → ℕ) {calls : List DurableCall}
    {σ τ : DurableStorage} (hrun : Run (DurableStep hash) durableCreated calls σ) {c : DurableCall}
    (hstep : DurableStep hash σ c τ) {id src out : Bytes}
    (hins : c.call.inserts = some (id, src)) (hret : (c.call.exec hash σ.volatile).1 = .ok ())
    (hid : StorableId id) (hout : out <+: src) :
    ∃ a entry, c.call.answers = some (some a, entry) ∧
      (SurvivesPowerFailure hash τ id src.length a.oid out ↔
        ∃ e, entry = some e ∧ AlreadyDurable c id src.length a.oid out) := by
  have hwf := durable_run_wf hrun
  rcases insert_cases hstep.1.1 hins with ⟨entry, hans⟩ | ⟨a, hans, ha, hτ⟩ |
    ⟨a, e, hans, ha, he, hτ⟩
  · rw [exec_refused hans] at hret
    cases hret
  · refine ⟨a, none, hans, ?_⟩
    constructor
    · intro hsurvives
      obtain ⟨x, hx, _, _, _, hdata, _⟩ := hsurvives.now (CrashImage.volatile τ)
      rw [hτ] at hx
      exact absurd hdata (hwf.pool.data_ne_of_fresh ha _ _ hx)
    · rintro ⟨e, he, _⟩
      cases he
  · refine ⟨a, some e, hans, ?_⟩
    constructor
    · intro hsurvives
      exact ⟨e, rfl, alreadyDurable_of_survives hwf hstep hans hins ha he hτ hid.room hsurvives⟩
    · rintro ⟨_, _, hdurable⟩
      exact survives_of_alreadyDurable hwf hstep hans hins ha he hτ hid hout hdurable

/-- The first `store`, whose entry is given memory with these durable contents. -/
def firstDurable (entryMem : Bytes) : DurableCall := ⟨storeAt [97] [7] 1, [0], entryMem⟩

/-- The state after it. -/
def firstStored (entryMem : Bytes) : DurableStorage :=
  ⟨storedAt (fun _ => 0) created [97] [7] 1, (firstDurable entryMem).entries fun _ => [],
    (firstDurable entryMem).blocks fun _ => []⟩

/-- The zeroed memory of an entry. -/
def zeroedMem : Bytes := List.replicate PMEMPointer.structSize 0

/-- The first `store` is a step, and it returns. -/
theorem durableStep_first {entryMem : Bytes} (h : entryMem.length = PMEMPointer.structSize) :
    DurableStep (fun _ => 0) durableCreated (firstDurable entryMem) (firstStored entryMem) ∧
      ((firstDurable entryMem).call.exec (fun _ => 0) created).1 = .ok () := by
  have hfirst := (firstStore 7).1
  have hexec : (firstDurable entryMem).call.exec (fun _ => 0) created = _ := hfirst.1.2.2
  refine ⟨⟨⟨⟨hfirst.1.1, congrArg Prod.snd hexec⟩, fun id hid => (hfirst.2 id hid).room⟩,
    ?_, rfl, rfl⟩, congrArg Prod.fst hexec⟩
  rintro block entry ⟨⟩
  refine ⟨?_, ?_⟩
  · rintro a ⟨⟩
    rfl
  · rintro e ⟨⟩
    exact h.trans List.length_replicate.symm

/-- In memory that happens to hold the same entry, the first `store` survives. -/
theorem first_survives :
    SurvivesPowerFailure (fun _ => 0)
      (firstStored (add ⟨1, [97], 1, (zeroed 1 1).oid⟩ zeroedMem).image) [97] 1
      (zeroed 1 1).oid [7] := by
  let info : PMEMListArgs := ⟨1, [97], 1, (zeroed 1 1).oid⟩
  have hidLen : info.idLen = info.id.length := rfl
  have hraw : zeroedMem.length = PMEMPointer.structSize := List.length_replicate
  obtain ⟨hsize, hslices⟩ := add_slices hraw hidLen storable_a.room
  obtain ⟨a, entry, hans, hiff⟩ := survivesPowerFailure_iff (fun _ => 0) Run.nil
    (durableStep_first hsize).1 rfl (durableStep_first hsize).2 storable_a (List.prefix_refl [7])
  cases hans
  exact hiff.mpr ⟨_, rfl, hslices.1, hslices.2.1, hslices.2.2.1, hslices.2.2.2, Or.inl trivial⟩

/-- In zeroed memory the first `store` does not survive. -/
theorem first_lost :
    DurableStep (fun _ => 0) durableCreated (firstDurable zeroedMem) (firstStored zeroedMem) ∧
      ((firstDurable zeroedMem).call.exec (fun _ => 0) created).1 = .ok () ∧
      ¬SurvivesPowerFailure (fun _ => 0) (firstStored zeroedMem) [97] 1 (zeroed 1 1).oid [7] := by
  obtain ⟨hstep, hret⟩ := durableStep_first (List.length_replicate : zeroedMem.length = _)
  refine ⟨hstep, hret, ?_⟩
  intro hsurvives
  have hfirst := (firstStore 7).1.1.1
  have hdurable := alreadyDurable_of_survives created_wf hstep rfl rfl hfirst.1 hfirst.2 rfl
    storable_a.room hsurvives
  exact absurd hdurable.idLen (by decide)

end Pmemcpy
