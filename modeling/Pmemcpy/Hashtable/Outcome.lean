import Pmemcpy.Hashtable.Layout
import Pmemcpy.Hashtable.Sessions

/-!
# What an insertion reports

An insertion asks PMDK for a data block, then for a list entry. When the block
is refused the call throws and has done nothing. When the entry is refused the
call returns normally all the same: the value is not in the table, and the block
that holds it belongs to nobody.
-/

namespace Pmemcpy

open Lib PMEMPointer PMDKHashtableStorage

/-- A call reports its outcome: what it promises holds where it returns normally,
and where it throws the lists and the blocks are those of before. -/
def TellsOutcome {α : Type} (s : PMDKHashtableStorage)
    (r : Except Failure α × PMDKHashtableStorage) (stored : PMDKHashtableStorage → Prop) : Prop :=
  match r with
  | (.ok _, t) => stored t
  | (.error _, t) => t.pool.buckets = s.pool.buckets ∧ t.pool.blocks = s.pool.blocks

/-- `find` yields an intact entry with this length. -/
def FindsLength (hash : Bytes → ℕ) (id : Bytes) (len : ℕ) (t : PMDKHashtableStorage) : Prop :=
  ∃ x, t.findEntry hash id = .ok x ∧ x.entry.image.length = structSize ∧ x.entry.len = len

/-- `find` yields an intact entry with the length and the bytes of this value. -/
def FindsValue (hash : Bytes → ℕ) (id v : Bytes) (t : PMDKHashtableStorage) : Prop :=
  ∃ x, t.findEntry hash id = .ok x ∧ x.entry.image.length = structSize ∧
    x.entry.len = v.length ∧ t.pool.read ⟨x.entry.data, x.entry.len⟩ = .ok v

/-- `store` reports its outcome. -/
def StoreTells (hash : Bytes → ℕ) (s : PMDKHashtableStorage) (id src : Bytes)
    (block entry : Option Allocation) : Prop :=
  TellsOutcome s (s.store hash id src block entry) (FindsValue hash id src)

/-- `alloc` reports its outcome. -/
def AllocTells (hash : Bytes → ℕ) (s : PMDKHashtableStorage) (id : Bytes) (size : ℕ)
    (block entry : Option Allocation) : Prop :=
  TellsOutcome s (s.alloc hash id size block entry) (FindsLength hash id size)

/-- A new entry can be found under its id and has the length it was given: the id
ends inside the entry, what it spills into the length belongs there, and what
overwrites its own end looks like it. Every id that fits its field is so. -/
structure Recordable (id : Bytes) (len : ℕ) (data : PMEMoid) : Prop where
  inside : idOff + id.length ≤ structSize
  named : cStr (id.take 520 ++ data.toBytes.take (id.length - 520)) = cStr id
  len : (id.drop idRoom).take 8 = (leBytes 8 len).take (id.length - idRoom)

/-- An id that fits its field is recorded with any length and any data. -/
theorem recordable_of_fits {id : Bytes} (hid : id.length ≤ idRoom) (len : ℕ) (data : PMEMoid) :
    Recordable id len data := by
  have hroom : id.length ≤ 512 := hid
  refine ⟨by simp only [idOff, structSize]; omega, ?_, ?_⟩
  · rw [List.take_of_length_le (by omega), Nat.sub_eq_zero_of_le (by omega)]
    simp
  · rw [List.drop_eq_nil_of_le hid, Nat.sub_eq_zero_of_le hid]
    simp

section Insertion

variable {hash : Bytes → ℕ} {s : PMDKHashtableStorage} {id : Bytes} {len : ℕ} {a e : Allocation}
  {constructor : Bytes → Bytes}

/-- The list element that an insertion links. -/
def newElem (id : Bytes) (len : ℕ) (a e : Allocation) : ListElem :=
  ⟨e.oid, add ⟨id.length, id, len, a.oid⟩ e.raw⟩

/-- The storage after an insertion whose allocations are both served. -/
def inserted (hash : Bytes → ℕ) (s : PMDKHashtableStorage) (id : Bytes) (len : ℕ)
    (constructor : Bytes → Bytes) (a e : Allocation) : PMDKHashtableStorage :=
  let p := (s.pool.pobjAlloc constructor (some a)).2
  { s with pool := p.insertEntry (s.hashfun hash id) ⟨id.length, id, len, a.oid⟩ e }

/-- The walk after an insertion meets the new entry first. -/
theorem findEntry_inserted :
    (inserted hash s id len constructor a e).findEntry hash id =
      if (newElem id len a e).entry.isNamed id then .ok (newElem id len a e)
      else s.findEntry hash id := by
  have hbucket : (inserted hash s id len constructor a e).pool.buckets (s.hashfun hash id) =
      newElem id len a e :: s.pool.buckets (s.hashfun hash id) := by
    rw [inserted, Pool.buckets_insertEntry, if_pos rfl]
    rfl
  have hhash : (inserted hash s id len constructor a e).hashfun hash id = s.hashfun hash id := rfl
  rw [findEntry, hhash, hbucket, List.find?_cons]
  cases (newElem id len a e).entry.isNamed id <;> rfl

/-- A recordable entry is found, with its length and its data block. -/
theorem Recordable.finds (hash : Bytes → ℕ) (s : PMDKHashtableStorage)
    (constructor : Bytes → Bytes) (h : Recordable id len a.oid) (hraw : e.raw.length = structSize)
    (hlt : len < 2 ^ 64) :
    (inserted hash s id len constructor a e).findEntry hash id = .ok (newElem id len a e) ∧
      (newElem id len a e).entry.image.length = structSize ∧
      (newElem id len a e).entry.len = len ∧ (newElem id len a e).entry.data = a.oid := by
  let info : PMEMListArgs := ⟨id.length, id, len, a.oid⟩
  have hidLen : info.idLen = info.id.length := rfl
  have hnamed := (add_isNamed_iff hraw hidLen h.inside).mpr h.named
  exact ⟨by rw [findEntry_inserted, newElem, if_pos hnamed], length_add hraw hidLen h.inside,
    (add_len_iff hraw hidLen h.inside hlt).mpr h.len, add_data hraw hidLen h.inside⟩

/-- An entry that is found intact after an insertion is the new one, and recordable:
all older entries have ids that fit. -/
theorem recordable_of_finds (hwf : s.Wf hash) (hraw : e.raw.length = structSize)
    (hlt : len < 2 ^ 64) (h : FindsLength hash id len (inserted hash s id len constructor a e)) :
    Recordable id len a.oid := by
  let info : PMEMListArgs := ⟨id.length, id, len, a.oid⟩
  have hidLen : info.idLen = info.id.length := rfl
  by_cases hfits : id.length ≤ idRoom
  · exact recordable_of_fits hfits _ _
  · obtain ⟨x, hx, hsize, hlen⟩ := h
    rw [findEntry_inserted] at hx
    split at hx
    · rename_i hnamed
      obtain rfl : newElem id len a e = x := by simpa using hx
      have hmax := length_add_max hraw hidLen
      have hinside : idOff + id.length ≤ structSize := by
        have hbound := Nat.le_max_right structSize (idOff + id.length)
        exact hbound.trans (hmax.symm.trans hsize).le
      exact ⟨hinside, (add_isNamed_iff hraw hidLen hinside).mp hnamed,
        (add_len_iff hraw hidLen hinside hlt).mp hlen⟩
    · obtain ⟨hmem, hnamed⟩ := mem_of_findEntry hx
      have hentry := hwf.pool.entry hmem
      have hkey := (hentry.isNamed_iff.mp hnamed).1
      rw [hentry.length_id] at hkey
      exact absurd (hkey ▸ hentry.idLen_le) hfits

/-- After an insertion with both allocations served, `find` yields the given length
exactly when the entry is recordable. -/
theorem findsLength_iff (constructor : Bytes → Bytes) (hwf : s.Wf hash)
    (hraw : e.raw.length = structSize) (hlt : len < 2 ^ 64) :
    FindsLength hash id len (inserted hash s id len constructor a e) ↔
      Recordable id len a.oid := by
  constructor
  · exact recordable_of_finds hwf hraw hlt
  · intro h
    obtain ⟨hfind, hsize, hlen, _⟩ := Recordable.finds hash s constructor h hraw hlt
    exact ⟨_, hfind, hsize, hlen⟩

/-- After a `store` with both allocations served, `find` yields the value exactly
when the entry is recordable. -/
theorem findsValue_iff {src : Bytes} (hwf : s.Wf hash) (ha : s.pool.Fresh src.length a)
    (hraw : e.raw.length = structSize) :
    FindsValue hash id src (inserted hash s id src.length (allocStr src) a e) ↔
      Recordable id src.length a.oid := by
  constructor
  · rintro ⟨x, hx, hsize, hlen, _⟩
    exact recordable_of_finds hwf hraw ha.size_lt ⟨x, hx, hsize, hlen⟩
  · intro h
    obtain ⟨hfind, hsize, hlen, hdata⟩ := Recordable.finds hash s (allocStr src) h hraw ha.size_lt
    have hblock : (s.storePool hash id src a e).blocks a.oid = some src := by
      rw [blocks_storePool ha, if_pos rfl]
    refine ⟨_, hfind, hsize, hlen, ?_⟩
    rw [hdata]
    exact read_whole hblock hlen.symm

/-! ### The entry is refused -/

/-- The storage after an insertion whose list entry was refused: it has one more block. -/
def orphaned (s : PMDKHashtableStorage) (constructor : Bytes → Bytes) (a : Allocation) :
    PMDKHashtableStorage :=
  { s with pool := (s.pool.pobjAlloc constructor (some a)).2 }

/-- The block that nobody refers to changes no lookup. -/
theorem findEntry_orphaned :
    (orphaned s constructor a).findEntry hash id = s.findEntry hash id := rfl

/-- A block that nobody refers to changes the bytes of no entry. -/
theorem read_orphaned {n : ℕ} {x : ListElem} (hwf : s.Wf hash) (ha : s.pool.Fresh n a)
    (hx : s.findEntry hash id = .ok x) (k : ℕ) :
    (orphaned s constructor a).pool.read ⟨x.entry.data, k⟩ = s.pool.read ⟨x.entry.data, k⟩ := by
  have hne := hwf.pool.data_ne_of_fresh ha _ _ (mem_of_findEntry hx).1
  simp [orphaned, Pool.pobjAlloc, Pool.read, Function.update_of_ne hne]

/-- With a block that nobody refers to, `find` yields a value exactly if it did before. -/
theorem findsValue_orphaned {src : Bytes} (hwf : s.Wf hash) (ha : s.pool.Fresh src.length a) :
    FindsValue hash id src (orphaned s constructor a) ↔ s.load hash id = .ok src := by
  constructor
  · rintro ⟨x, hx, _, _, hread⟩
    rw [findEntry_orphaned] at hx
    rw [read_orphaned hwf ha hx] at hread
    simpa [load, hx, bind, Except.bind] using hread
  · intro h
    cases hx : s.findEntry hash id with
    | error f => simp [load, hx, bind, Except.bind] at h
    | ok x =>
      have hread : s.pool.read ⟨x.entry.data, x.entry.len⟩ = .ok src := by
        simpa [load, hx, bind, Except.bind] using h
      have hmem := (mem_of_findEntry hx).1
      obtain ⟨v, hv, hlen⟩ := hwf.pool.live hmem (Set.notMem_empty _)
      rw [read_whole hv hlen] at hread
      obtain rfl : v = src := by simpa using hread
      refine ⟨x, hx, (hwf.pool.entry hmem).size, hlen.symm, ?_⟩
      rw [read_orphaned hwf ha hx, read_whole hv hlen]

/-- `find` yields a length exactly when an entry with this length was already there. -/
theorem findsLength_orphaned (constructor : Bytes → Bytes) (a : Allocation) (hwf : s.Wf hash) :
    FindsLength hash id len (orphaned s constructor a) ↔
      (s.find hash id).map PmemBuffer.size = .ok len := by
  constructor
  · rintro ⟨x, hx, _, rfl⟩
    rw [findEntry_orphaned] at hx
    simp [find, hx, bind, Except.bind, pure, Except.pure, Except.map]
  · intro h
    cases hx : s.findEntry hash id with
    | error f => simp [find, hx, bind, Except.bind, Except.map] at h
    | ok x =>
      have hlen : x.entry.len = len := by
        simpa [find, hx, bind, Except.bind, pure, Except.pure, Except.map] using h
      exact ⟨x, hx, (hwf.pool.entry (mem_of_findEntry hx).1).size, hlen⟩

end Insertion

/-- PMDK can give these answers to the two allocations of an insertion. -/
def PossibleAnswers (s : PMDKHashtableStorage) (constructor : Bytes → Bytes) (size : ℕ)
    (block entry : Option Allocation) : Prop :=
  s.pool.CanAnswer size block ∧
    (s.pool.pobjAlloc constructor block).2.CanAnswer structSize entry

/-- The outcome of an insertion is the one it reports: the block was refused, or both
allocations were served and the entry is recordable, or the entry was refused and
what should have been inserted was there already. -/
def OutcomeKnown (id : Bytes) (len : ℕ) (already : Prop) :
    Option Allocation → Option Allocation → Prop
  | none, _ => True
  | some a, some _ => Recordable id len a.oid
  | some _, none => already

/-- **What an insertion reports is true exactly when no list entry was refused behind
its back.** In every reachable state, `store` and `alloc` report their outcome
exactly when the data block is refused, or both allocations are served and the id
can be recorded in the entry, or the value (for `alloc`, an entry of the size)
was already what `find` yields. -/
theorem insertion_tells_iff (hash : Bytes → ℕ) {calls : List Call} {s : PMDKHashtableStorage}
    (hrun : Run (FittingStep hash) created calls s) (id src : Bytes) (size : ℕ)
    (block entry : Option Allocation) :
    (PossibleAnswers s (allocStr src) src.length block entry →
      (StoreTells hash s id src block entry ↔
        OutcomeKnown id src.length (s.load hash id = .ok src) block entry)) ∧
    (PossibleAnswers s (fun raw => raw) size block entry →
      (AllocTells hash s id size block entry ↔
        OutcomeKnown id size ((s.find hash id).map PmemBuffer.size = .ok size) block entry)) := by
  have hwf := fitting_run_wf hrun
  constructor
  · rintro ⟨hblock, hentry⟩
    rcases block with _ | a
    · exact iff_of_true ⟨rfl, rfl⟩ trivial
    · rcases entry with _ | e
      · exact findsValue_orphaned hwf hblock
      · exact findsValue_iff hwf hblock hentry.raw
  · rintro ⟨hblock, hentry⟩
    rcases block with _ | a
    · exact iff_of_true ⟨rfl, rfl⟩ trivial
    · rcases entry with _ | e
      · exact findsLength_orphaned (fun raw => raw) a hwf
      · exact findsLength_iff (fun raw => raw) hwf hentry.raw hblock.size_lt

/-- In the empty table, blocks of one byte and entries can be given out. -/
theorem created_answers (constructor : Bytes → Bytes) :
    PossibleAnswers created constructor 1 (some (zeroed 1 1)) (some (zeroed 2 structSize)) := by
  have hbelow : created.pool.Below 1 := Pool.below_empty 1000 1
  exact ⟨hbelow.fresh (by decide) (by decide) (by decide),
    (hbelow.pobjAlloc (by decide) constructor).fresh (by decide) (by decide) (by decide)⟩

/-- The first `store` and the first `alloc` of a byte tell how they went, when nothing is
refused. -/
theorem insertion_tells_first :
    StoreTells (fun _ => 0) created [97] [7] (some (zeroed 1 1)) (some (zeroed 2 structSize)) ∧
      AllocTells (fun _ => 0) created [97] 1 (some (zeroed 1 1)) (some (zeroed 2 structSize)) := by
  have hrun : Run (FittingStep fun _ => 0) created [] created := .nil
  have htell := insertion_tells_iff (fun _ => 0) hrun [97] [7] 1 (some (zeroed 1 1))
    (some (zeroed 2 structSize))
  have hrecord : Recordable [97] 1 (zeroed 1 1).oid := recordable_of_fits (by decide) _ _
  exact ⟨(htell.1 (created_answers _)).mpr hrecord, (htell.2 (created_answers _)).mpr hrecord⟩

/-- The first `store`, with a data block but no memory for the entry: the call returns
normally, `find` throws, and the block stays allocated. -/
theorem refused_entry_silent :
    PossibleAnswers created (allocStr [7]) 1 (some (zeroed 1 1)) none ∧
      ((created.store (fun _ => 0) [97] [7] (some (zeroed 1 1)) none).1 = .ok ()) ∧
      ¬StoreTells (fun _ => 0) created [97] [7] (some (zeroed 1 1)) none := by
  refine ⟨⟨(created_answers (allocStr [7])).1, trivial⟩, rfl, ?_⟩
  rintro ⟨x, hx, _⟩
  cases hx

end Pmemcpy
