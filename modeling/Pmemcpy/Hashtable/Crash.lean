import Pmemcpy.Hashtable.Sessions

/-!
# What a crash leaves of the pool

Each operation is a list of PMDK calls, and a crash keeps the effect of the
first few of them. The pool that `_open` finds is then the one from before or
after the operation, with every entry on a live block and every live block
under one entry, except when the crash came between the two PMDK calls of an
operation, or an insertion was refused its entry after it got its block.
-/

namespace Pmemcpy

open Lib PMDKHashtableStorage

/-- The PMDK calls that an operation makes, with what each of them does to the pool. -/
def Call.pmdkCalls (hash : Bytes → ℕ) (s : PMDKHashtableStorage) : Call → List (Pool → Pool)
  | .store id src block entry =>
    (fun p => (p.pobjAlloc (allocStr src) block).2) ::
      match block with
      | none => []
      | some a => [fun p => (p.pobjListInsertNewHead (s.hashfun hash id)
          (add ⟨id.length, id, src.length, a.oid⟩) entry).2]
  | .alloc id size _ block entry =>
    (fun p => (p.pobjAlloc (fun raw => raw) block).2) ::
      match block with
      | none => []
      | some a => [fun p => (p.pobjListInsertNewHead (s.hashfun hash id)
          (add ⟨id.length, id, size, a.oid⟩) entry).2]
  | .free id =>
    match s.findEntry hash id with
    | .error _ => []
    | .ok x => [fun p => p.pobjFree (s.hashfun hash id) x,
        fun p => p.pobjListRemoveFree (s.hashfun hash id) x.oid]
  | .reopen => []

/-- The pool after a crash that let `k` PMDK calls of the operation through. -/
def crashPool (hash : Bytes → ℕ) (s : PMDKHashtableStorage) (c : Call) (k : ℕ) : Pool :=
  ((c.pmdkCalls hash s).take k).foldl (fun p call => call p) s.pool

/-- Two pools with the same bucket lists and the same live data blocks. -/
def Pool.SameTable (p q : Pool) : Prop :=
  p.buckets = q.buckets ∧ ∀ o, (p.blocks o).isSome = (q.blocks o).isSome

/-- Every entry refers to a live data block of the length it records. -/
def Pool.EntriesLive (p : Pool) : Prop :=
  ∀ b, ∀ x ∈ p.buckets b, ∃ v, p.blocks x.entry.data = some v ∧ v.length = x.entry.len

/-- Every live data block is referred to by exactly one entry. -/
def Pool.BlocksOwned (p : Pool) : Prop :=
  ∀ o v, p.blocks o = some v → ∃! x : ListElem, (∃ b, x ∈ p.buckets b) ∧ x.entry.data = o

/-- The pool reopened after the crash is the one from before or after the
operation, and its entries and its live data blocks belong together. -/
def RecoversFrom (hash : Bytes → ℕ) (s : PMDKHashtableStorage) (c : Call) (k : ℕ) : Prop :=
  ∃ t, openPool ⟨some (crashPool hash s c k), none⟩ = .ok t ∧
    (t.pool.SameTable s.pool ∨ t.pool.SameTable (c.exec hash s).2.pool) ∧
    t.pool.EntriesLive ∧ t.pool.BlocksOwned

/-- An insertion that gets its data block and no entry for it. -/
def Call.Orphans (c : Call) : Prop := ∃ a, c.answers = some (some a, none)

section Blocks

variable {hash : Bytes → ℕ} {s t : PMDKHashtableStorage} {id src : Bytes} {c : Call}
  {a e : Allocation} {calls : List Call} {k : ℕ}

/-- A live block without an entry is not owned. -/
theorem Pool.Unreferenced.not_owned {p : Pool} {o : PMEMoid} {v : Bytes}
    (h : p.Unreferenced o) (hv : p.blocks o = some v) : ¬p.BlocksOwned := by
  intro howned
  obtain ⟨x, ⟨⟨b, hx⟩, hdata⟩, _⟩ := howned o v hv
  exact h b x hx hdata

/-- The entries of a table in order are live. -/
theorem PMDKHashtableStorage.Wf.entriesLive (h : s.Wf hash) : s.pool.EntriesLive :=
  fun _ _ hx => h.pool.live hx (Set.notMem_empty _)

/-- A table in order whose entries are live on every block owns its blocks. -/
theorem PMDKHashtableStorage.Wf.blocksOwned (h : s.Wf hash)
    (hex : ∀ o v, s.pool.blocks o = some v → ∃ b, ∃ x ∈ s.pool.buckets b, x.entry.data = o) :
    s.pool.BlocksOwned := by
  intro o v hv
  obtain ⟨b, x, hx, hdata⟩ := hex o v hv
  refine ⟨x, ⟨⟨b, hx⟩, hdata⟩, ?_⟩
  rintro y ⟨⟨b', hy⟩, hydata⟩
  have hoid := h.pool.owned hy hx (Set.notMem_empty _) (Set.notMem_empty _)
    (hydata.trans hdata.symm)
  exact h.pool.oid_inj hy hx hoid

/-! ### Blocks without an entry -/

/-- Every live block has an entry, unless an insertion was refused its entry. -/
def AllOwned (s : PMDKHashtableStorage) : Prop :=
  ∀ o v, s.pool.blocks o = some v → ∃ b, ∃ x ∈ s.pool.buckets b, x.entry.data = o

/-- Some live block has no entry. -/
def SomeOrphan (s : PMDKHashtableStorage) : Prop :=
  ∃ o v, s.pool.blocks o = some v ∧ s.pool.Unreferenced o

/-- A call that does not orphan a block leaves every block with its entry. -/
theorem AllOwned.step (hwf : s.Wf hash) (h : AllOwned s) (hstep : FittingStep hash s c t)
    (hc : ¬c.Orphans) : AllOwned t := by
  cases hstep.1.effect with
  | refused => exact h
  | orphaned _ hans _ => exact absurd ⟨_, hans⟩ hc
  | @stored _ id src a e hc _ ha he =>
    have hfields := storeElem_fields (a := a) ha.size_lt (hstep.2 _ (Call.id?_of_inserts hc)) he.raw
    intro o v hv
    change (s.storePool hash id src a e).blocks o = some v at hv
    rw [blocks_storePool ha] at hv
    by_cases ho : o = a.oid
    · exact ⟨_, _, mem_storePool.mpr (Or.inl ⟨rfl, rfl⟩), hfields.2.2.2.trans ho.symm⟩
    · rw [if_neg ho] at hv
      obtain ⟨b, x, hx, hdata⟩ := h o v hv
      exact ⟨b, x, mem_storePool.mpr (Or.inr hx), hdata⟩
  | missing => exact h
  | @freed id x hfind =>
    have hbucket := (mem_of_findEntry hfind).1
    intro o v hv
    change (s.freePool hash id x).blocks o = some v at hv
    rw [blocks_freePool] at hv
    split at hv
    · cases hv
    · rename_i ho
      obtain ⟨b, y, hy, hdata⟩ := h o v hv
      refine ⟨b, y, (hwf.mem_freePool_iff hbucket).mpr ⟨hy, ?_⟩, hdata⟩
      intro hoid
      rw [hwf.pool.oid_inj hy hbucket hoid] at hdata
      exact ho hdata.symm
  | reopened => exact h

/-- A call that orphans a block leaves an orphan. -/
theorem SomeOrphan.of_orphans (hwf : s.Wf hash) (hstep : FittingStep hash s c t)
    (hc : c.Orphans) : SomeOrphan t := by
  obtain ⟨a', hans'⟩ := hc
  cases hstep.1.effect with
  | refused _ hans => simp [hans] at hans'
  | @orphaned _ id src a _ _ ha =>
    exact ⟨a.oid, allocStr src a.raw, by simp [Pool.pobjAlloc], hwf.pool.data_ne_of_fresh ha⟩
  | stored _ hans => simp [hans] at hans'
  | missing => cases hans'
  | freed => cases hans'
  | reopened => cases hans'

/-- No call ever finds an orphan again. -/
theorem SomeOrphan.step (hwf : s.Wf hash) (h : SomeOrphan s) (hstep : FittingStep hash s c t) :
    SomeOrphan t := by
  obtain ⟨o, v, hv, hun⟩ := h
  have hne {n : ℕ} {a : Allocation} (ha : s.pool.Fresh n a) : o ≠ a.oid := by
    rintro rfl
    rw [ha.block] at hv
    cases hv
  cases hstep.1.effect with
  | refused => exact ⟨o, v, hv, hun⟩
  | orphaned _ _ ha =>
    exact ⟨o, v, by simp [Pool.pobjAlloc, Function.update_of_ne (hne ha), hv], hun⟩
  | @stored _ id src a e hc _ ha he =>
    have hfields := storeElem_fields (a := a) ha.size_lt (hstep.2 _ (Call.id?_of_inserts hc)) he.raw
    refine ⟨o, v, ?_, ?_⟩
    · change (s.storePool hash id src a e).blocks o = some v
      rw [blocks_storePool ha, if_neg (hne ha), hv]
    · intro b x hx
      rcases mem_storePool.mp hx with ⟨_, rfl⟩ | hx
      · rw [hfields.2.2.2]
        exact (hne ha).symm
      · exact hun b x hx
  | missing => exact ⟨o, v, hv, hun⟩
  | @freed id x hfind =>
    have hbucket := (mem_of_findEntry hfind).1
    refine ⟨o, v, ?_, ?_⟩
    · change (s.freePool hash id x).blocks o = some v
      rw [blocks_freePool, if_neg (hun _ x hbucket).symm, hv]
    · intro b y hy
      exact hun b y ((hwf.mem_freePool_iff hbucket).mp hy).1
  | reopened => exact ⟨o, v, hv, hun⟩

/-- After a run every block has its entry, or a call has orphaned one and it is still there. -/
theorem run_blocks (hrun : Run (FittingStep hash) created calls s) :
    ((∀ c ∈ calls, ¬c.Orphans) → AllOwned s) ∧ ((∃ c ∈ calls, c.Orphans) → SomeOrphan s) := by
  induction hrun with
  | nil =>
    refine ⟨fun _ o v hv => ?_, fun ⟨c, hc, _⟩ => by simp at hc⟩
    simp [created, Pool.empty] at hv
  | @snoc labels s c t hrun hstep ih =>
    have hwf := fitting_run_wf hrun
    constructor
    · intro hall
      exact (ih.1 fun c' hc' => hall c' (by simp [hc'])).step hwf hstep (hall c (by simp))
    · rintro ⟨c', hc', horphans⟩
      rcases List.mem_append.mp hc' with hc' | hc'
      · exact (ih.2 ⟨c', hc', horphans⟩).step hwf hstep
      · obtain rfl := List.mem_singleton.mp hc'
        exact SomeOrphan.of_orphans hwf hstep horphans

end Blocks

/-! ### Crash points -/

section CrashPoints

variable {hash : Bytes → ℕ} {s : PMDKHashtableStorage} {c : Call} {k : ℕ}

/-- The PMDK calls of an operation, in terms of the steps of a `store`: an `alloc` makes
those of a `store` of the bytes that the memory of its block happens to hold. -/
inductive CrashEffect (hash : Bytes → ℕ) (s : PMDKHashtableStorage) (c : Call) : Prop where
  /-- At most one PMDK call, without effect. -/
  | none : (c.pmdkCalls hash s).length < 2 → (∀ k, crashPool hash s c k = s.pool) →
      CrashEffect hash s c
  | orphaned (src : Bytes) (a : Allocation) : c.Orphans → s.pool.Fresh src.length a →
      (c.pmdkCalls hash s).length = 2 →
      (∀ k, crashPool hash s c (k + 1) = (s.pool.pobjAlloc (allocStr src) (some a)).2) →
      CrashEffect hash s c
  | stored (id src : Bytes) (a e : Allocation) : ¬c.Orphans → c.id? = some id →
      s.pool.Fresh src.length a →
      (s.pool.pobjAlloc (allocStr src) (some a)).2.Fresh PMEMPointer.structSize e →
      (c.pmdkCalls hash s).length = 2 →
      crashPool hash s c 1 = (s.pool.pobjAlloc (allocStr src) (some a)).2 →
      (∀ k, crashPool hash s c (k + 2) = s.storePool hash id src a e) →
      (s.storePool hash id src a e).SameTable (c.exec hash s).2.pool → CrashEffect hash s c
  | freed (id : Bytes) (x : ListElem) : ¬c.Orphans → c.id? = some id → s.findEntry hash id = .ok x →
      (c.pmdkCalls hash s).length = 2 →
      crashPool hash s c 1 = s.pool.pobjFree (s.hashfun hash id) x →
      (∀ k, crashPool hash s c (k + 2) = s.freePool hash id x) →
      s.freePool hash id x = (c.exec hash s).2.pool → CrashEffect hash s c

/-- A store of other bytes of the same length makes the same table. -/
theorem storePool_sameTable {id src src' : Bytes} {a e : Allocation}
    (h : src.length = src'.length) (ha : s.pool.Fresh src.length a) :
    (s.storePool hash id src a e).SameTable (s.storePool hash id src' a e) := by
  constructor
  · simp [storePool, Pool.insertEntry, Pool.pobjListInsertNewHead, Pool.pobjAlloc, h]
  · intro o
    rw [blocks_storePool ha, blocks_storePool (h ▸ ha)]
    split <;> rfl

/-- A `free` that finds an entry makes these PMDK calls. -/
theorem pmdkCalls_free {id : Bytes} {x : ListElem} (hfind : s.findEntry hash id = .ok x) :
    (Call.free id).pmdkCalls hash s = [fun p => p.pobjFree (s.hashfun hash id) x,
      fun p => p.pobjListRemoveFree (s.hashfun hash id) x.oid] := by
  rw [Call.pmdkCalls, hfind]

/-- After the only PMDK call of an operation the pool is what this call makes of it. -/
theorem crashPool_one {f : Pool → Pool} (h : c.pmdkCalls hash s = [f]) (k : ℕ) :
    crashPool hash s c (k + 1) = f s.pool := by
  simp [crashPool, h]

/-- The pools after the first of the two PMDK calls of an operation, and after both. -/
theorem crashPool_two {f g : Pool → Pool} (h : c.pmdkCalls hash s = [f, g]) :
    crashPool hash s c 1 = f s.pool ∧ ∀ k, crashPool hash s c (k + 2) = g (f s.pool) := by
  simp [crashPool, h]

/-- Every call with answers PMDK can give has one of these effects. -/
theorem crashEffect (hash : Bytes → ℕ) (hc : c.Possible s) : CrashEffect hash s c := by
  cases c with
  | store id src block entry =>
    obtain ⟨hblock, hentry⟩ := hc
    cases block with
    | none =>
      have hcalls : (Call.store id src none entry).pmdkCalls hash s = [_] := rfl
      refine .none (by simp [hcalls]) ?_
      rintro (_ | k)
      · rfl
      · exact crashPool_one hcalls k
    | some a =>
      obtain ⟨hone, htwo⟩ := crashPool_two
        (rfl : (Call.store id src (some a) entry).pmdkCalls hash s = [_, _])
      cases entry with
      | none =>
        refine .orphaned src a ⟨a, rfl⟩ hblock rfl ?_
        rintro (_ | k)
        · exact hone
        · exact htwo k
      | some e =>
        exact .stored id src a e (by rintro ⟨_, ⟨⟩⟩) rfl hblock hentry rfl hone htwo
          ⟨rfl, fun _ => rfl⟩
  | alloc id size fill block entry =>
    obtain ⟨hfill, hblock, hentry⟩ := hc
    cases block with
    | none =>
      have hcalls : (Call.alloc id size fill none entry).pmdkCalls hash s = [_] := rfl
      refine .none (by simp [hcalls]) ?_
      rintro (_ | k)
      · rfl
      · exact crashPool_one hcalls k
    | some a =>
      obtain ⟨hone, htwo⟩ := crashPool_two
        (rfl : (Call.alloc id size fill (some a) entry).pmdkCalls hash s = [_, _])
      have hraw : allocStr a.raw a.raw = a.raw := splice_zero_of_length rfl
      have hlen : a.raw.length = size := hblock.raw
      have hfirst : (s.pool.pobjAlloc (fun raw => raw) (some a)).2 =
          (s.pool.pobjAlloc (allocStr a.raw) (some a)).2 := by
        simp [Pool.pobjAlloc, hraw]
      cases entry with
      | none =>
        refine .orphaned a.raw a ⟨a, rfl⟩ (by rwa [hlen]) rfl ?_
        rintro (_ | k)
        · exact hone.trans hfirst
        · exact (htwo k).trans hfirst
      | some e =>
        rw [hfirst] at hentry
        have hlast : ((s.pool.pobjAlloc (fun raw => raw) (some a)).2.pobjListInsertNewHead
            (s.hashfun hash id) (add ⟨id.length, id, size, a.oid⟩) (some e)).2 =
            s.storePool hash id a.raw a e := by
          rw [hfirst, storePool, Pool.insertEntry, hlen]
        refine .stored id a.raw a e (by rintro ⟨_, ⟨⟩⟩) rfl (by rwa [hlen]) hentry rfl
          (hone.trans hfirst) (fun k => (htwo k).trans hlast) ?_
        rw [exec_alloc_eq_store hfill]
        exact storePool_sameTable (hlen.trans hfill.symm) (by rwa [hlen])
  | free id =>
    have horphan : ¬(Call.free id).Orphans := by rintro ⟨_, ⟨⟩⟩
    cases hfind : s.findEntry hash id with
    | error f =>
      exact .none (by simp [Call.pmdkCalls, hfind])
        fun k => by simp [crashPool, Call.pmdkCalls, hfind]
    | ok x =>
      obtain ⟨hone, htwo⟩ := crashPool_two (pmdkCalls_free hfind)
      refine .freed id x horphan rfl hfind (by rw [pmdkCalls_free hfind]; rfl) hone htwo ?_
      rw [Call.exec, free_found hfind]
  | reopen => exact .none (by simp [Call.pmdkCalls]) fun k => by simp [crashPool, Call.pmdkCalls]

/-- The reopened storage has the pool of the crash. -/
theorem recoversFrom_iff : RecoversFrom hash s c k ↔
    ((crashPool hash s c k).SameTable s.pool ∨
      (crashPool hash s c k).SameTable (c.exec hash s).2.pool) ∧
      (crashPool hash s c k).EntriesLive ∧ (crashPool hash s c k).BlocksOwned := by
  constructor
  · rintro ⟨t, ht, h⟩
    cases ht
    exact h
  · intro h
    exact ⟨_, rfl, h⟩

/-- A crash that leaves a block without an entry is not recovered from. -/
theorem not_recoversFrom_of_alloc (hwf : s.Wf hash) {src : Bytes} {a : Allocation}
    (ha : s.pool.Fresh src.length a)
    (hk : crashPool hash s c k = (s.pool.pobjAlloc (allocStr src) (some a)).2) :
    ¬RecoversFrom hash s c k := by
  have hun : (s.pool.pobjAlloc (allocStr src) (some a)).2.Unreferenced a.oid :=
    hwf.pool.data_ne_of_fresh ha
  rw [recoversFrom_iff, hk]
  rintro ⟨_, _, howned⟩
  exact hun.not_owned (v := allocStr src a.raw) (by simp [Pool.pobjAlloc]) howned

/-- A crash that leaves an entry without its block is not recovered from. -/
theorem not_recoversFrom_of_free (hwf : s.Wf hash) {id : Bytes} {x : ListElem}
    (hfind : s.findEntry hash id = .ok x)
    (hk : crashPool hash s c k = s.pool.pobjFree (s.hashfun hash id) x) :
    ¬RecoversFrom hash s c k := by
  have hbucket := (mem_of_findEntry hfind).1
  have hfree := hwf.pool.pobjFree hbucket (Set.notMem_empty _)
  have hcleared := hwf.mem_pobjFree hbucket
  rw [recoversFrom_iff, hk]
  rintro ⟨_, hlive, _⟩
  obtain ⟨v, hv, _⟩ := hlive _ _ hcleared
  rw [hfree.cleared hcleared (by simp), hfree.blocks_null] at hv
  cases hv

end CrashPoints

/-- **Crash atomicity.** After any run, the pool that a crash leaves of the next
operation is the one from before or after it, with entries and live blocks that
belong together, if and only if no insertion so far was refused its entry after
it got its block, and the crash does not come between the two PMDK calls of the
operation. -/
theorem recoversFrom_iff_untorn (hash : Bytes → ℕ) {calls : List Call} {s : PMDKHashtableStorage}
    (hrun : Run (FittingStep hash) created calls s) {c : Call} (hc : c.Possible s)
    (hfit : c.FitsField) (k : ℕ) :
    RecoversFrom hash s c k ↔ (∀ c' ∈ calls, ¬c'.Orphans) ∧
      (k = 0 ∨ (c.pmdkCalls hash s).length < 2 ∨ (2 ≤ k ∧ ¬c.Orphans)) := by
  have hwf := fitting_run_wf hrun
  have hsame (p : Pool) : p.SameTable p := ⟨rfl, fun _ => rfl⟩
  -- a crash that leaves the pool of a state of a run without torn calls
  have hkept {calls' : List Call} {t : PMDKHashtableStorage}
      (ht : Run (FittingStep hash) created calls' t)
      (hall : (∀ c' ∈ calls', ¬c'.Orphans) ↔ ∀ c' ∈ calls, ¬c'.Orphans)
      (hk : crashPool hash s c k = t.pool)
      (hatomic : t.pool.SameTable s.pool ∨ t.pool.SameTable (c.exec hash s).2.pool) :
      RecoversFrom hash s c k ↔ ∀ c' ∈ calls, ¬c'.Orphans := by
    have hblocks := run_blocks ht
    rw [recoversFrom_iff, hk, ← hall]
    constructor
    · rintro ⟨_, _, howned⟩ c' hc' horphans
      obtain ⟨o, v, hv, hun⟩ := hblocks.2 ⟨c', hc', horphans⟩
      exact hun.not_owned hv howned
    · intro hno
      have htwf := fitting_run_wf ht
      exact ⟨hatomic, htwf.entriesLive, htwf.blocksOwned (hblocks.1 hno)⟩
  have hsnoc {c' : Call} (h : ¬c'.Orphans) :
      (∀ c'' ∈ calls ++ [c'], ¬c''.Orphans) ↔ ∀ c'' ∈ calls, ¬c''.Orphans := by
    simp [or_imp, forall_and, h]
  obtain rfl | rfl | ⟨k, rfl⟩ : k = 0 ∨ k = 1 ∨ ∃ n, k = n + 2 := by
    match k with
    | 0 => exact Or.inl rfl
    | 1 => exact Or.inr (Or.inl rfl)
    | n + 2 => exact Or.inr (Or.inr ⟨n, rfl⟩)
  · rw [hkept hrun Iff.rfl rfl (Or.inl (hsame _))]
    simp
  · cases crashEffect hash hc with
    | none hshort hpool =>
      rw [hkept hrun Iff.rfl (hpool 1) (Or.inl (hsame _))]
      simp [hshort]
    | orphaned src a _ ha hlen hpool =>
      simp [not_recoversFrom_of_alloc hwf ha (hpool 0), hlen]
    | stored id src a e horphans hid ha he hlen hfirst hlast hafter =>
      simp [not_recoversFrom_of_alloc hwf ha hfirst, hlen]
    | freed id x horphans hid hfind hlen hfirst hlast hafter =>
      simp [not_recoversFrom_of_free hwf hfind hfirst, hlen]
  · cases crashEffect hash hc with
    | none hshort hpool =>
      rw [hkept hrun Iff.rfl (hpool _) (Or.inl (hsame _))]
      simp [hshort]
    | orphaned src a horphans ha hlen hpool =>
      simp [not_recoversFrom_of_alloc hwf ha (hpool (k + 1)), hlen, horphans]
    | stored id src a e horphans hid ha he hlen hfirst hlast hafter =>
      have hstep : FittingStep hash s (.store id src (some a) (some e))
          { s with pool := s.storePool hash id src a e } :=
        ⟨⟨⟨ha, he⟩, rfl⟩, by rintro _ ⟨⟩; exact hfit id hid⟩
      have hno : ¬(Call.store id src (some a) (some e)).Orphans := by rintro ⟨_, ⟨⟩⟩
      rw [hkept (hrun.snoc hstep) (hsnoc hno) (hlast k) (Or.inr hafter)]
      simp [horphans]
    | freed id x horphans hid hfind hlen hfirst hlast hafter =>
      have hstep : FittingStep hash s (.free id) { s with pool := s.freePool hash id x } :=
        ⟨⟨trivial, by rw [Call.exec, free_found hfind]⟩, by rintro _ ⟨⟩; exact hfit id hid⟩
      have hno : ¬(Call.free id).Orphans := by rintro ⟨_, ⟨⟩⟩
      have hatomic : (s.freePool hash id x).SameTable (c.exec hash s).2.pool := hafter ▸ hsame _
      rw [hkept (hrun.snoc hstep) (hsnoc hno) (hlast k) (Or.inr hatomic)]
      simp [horphans]

/-- A crash after a first `store` that was let through recovers. -/
theorem recoversFrom_after_store : RecoversFrom (fun _ => 0) created (storeAt [97] [7] 1) 2 := by
  have hstore := (firstStore 7).1
  have hfit : (storeAt [97] [7] 1).FitsField := fun id hid' => (hstore.2 id hid').room
  refine (recoversFrom_iff_untorn _ Run.nil hstore.1.1 hfit 2).mpr ⟨by simp, Or.inr (Or.inr ?_)⟩
  exact ⟨le_refl _, by rintro ⟨_, ⟨⟩⟩⟩

/-- A crash between the two PMDK calls of a first `store` leaves a block without an
entry; between those of a `free`, an entry without a block. -/
theorem torn_calls_do_not_recover :
    ¬RecoversFrom (fun _ => 0) created (storeAt [97] [7] 1) 1 ∧
      ∃ s, Run (FittingStep fun _ => 0) created [storeAt [97] [7] 1] s ∧
        ¬RecoversFrom (fun _ => 0) s (.free [97]) 1 := by
  have hstore := (firstStore 7).1
  have hrep := session_represents (Run.single hstore)
  obtain ⟨x, _, _, hfind, _⟩ := hrep.wf.findEntry_cons (hrep.stack [97] storable_a.nulFree)
  refine ⟨not_recoversFrom_of_alloc created_wf hstore.1.1.1 rfl, _,
    Run.single hstore.fitting, ?_⟩
  exact not_recoversFrom_of_free hrep.wf hfind (crashPool_two (pmdkCalls_free hfind)).1

end Pmemcpy
