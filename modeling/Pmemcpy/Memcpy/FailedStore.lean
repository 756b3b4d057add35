import Pmemcpy.Memcpy.Pmem

/-!
# Stores that throw

No storage rolls back what it has done before a `store` throws, so the value that
was there is kept only as long as nothing of the new one is visible: until the new
entry is linked, or until the file is resized or written. Other ids never change.
-/

namespace Pmemcpy

open Lib PMDKHashtableStorage

/-- The size of what `store` asks the storage for. -/
def PMEM.askedSize (ser : SerializerType) (useMmap : Bool) (T : ElemType) (src : Source) : ℕ :=
  if useMmap then bufferSize ser T src
  else
    match ser.serialize T src with
    | .ok serial => serial.length
    | .error _ => 0

/-- The answers are ones PMDK can give to an insertion of `size` bytes. -/
def Answers.Possible (σ : Storage) (size : ℕ) (a : Answers) : Prop :=
  match σ with
  | .hashtable s => s.pool.CanAnswer size a.block ∧
      (s.pool.pobjAlloc (fun raw => raw) a.block).2.CanAnswer PMEMPointer.structSize a.entry
  | .files _ _ => True

namespace Storage

/-- A storage that calls can lead to. The file storages start from any directory. -/
def Reachable (hash : Bytes → ℕ) : Storage → Prop
  | hashtable s => ∃ calls, Run (FittingStep hash) created calls s
  | files _ _ => True

/-- The ids that a storage keeps apart. -/
def Accepts : Storage → Bytes → Prop
  | hashtable _, id => StorableId id
  | files _ _, id => FileId id

/-- Something is stored under the id. -/
def Holds (hash : Bytes → ℕ) : Storage → Bytes → Prop
  | hashtable s, id => s.pool.stack hash id ≠ []
  | files _ s, id => (s.files (cStr id)).isSome

end Storage

/-- Every `load` of the id, with any serializer, in either mode, ends in both storages
with the same result. -/
def SameLoads (hash : Bytes → ℕ) (σ σ' : Storage) (id : Bytes) : Prop :=
  ∀ reader ser useMmap T target a,
    (PMEM.load hash ser useMmap T σ' id reader target a).1 =
      (PMEM.load hash ser useMmap T σ id reader target a).1

/-- What stops a `store` before anything of the new value is visible: before the entry
is linked, or before the file gets another size or other bytes. -/
def StopsEarly (ser : SerializerType) (useMmap : Bool) (T : ElemType) (σ : Storage) (id : Bytes)
    (src : Source) (a : Answers) : Prop :=
  match σ with
  | .hashtable _ => useMmap = false ∨ a.block = none ∨ a.entry = none
  | .files S s =>
    let size := PMEM.bufferSize ser T src
    if useMmap then
      S.NotResized size a.sys ∨ ((s.contents (cStr id)).length = size ∧
        ser.serializeInto T size src ≠ .error .arrayFull)
    else
      ∀ serial, ser.serialize T src = .ok serial →
        a.sys.openFd = none ∨ (a.sys.write.count serial.length).getD 0 = 0

section SameLoads

variable {hash : Bytes → ℕ} {id : Bytes}

/-- Loads that get the same bytes from the storage have the same result. -/
theorem SameLoads.of_reads {σ σ' : Storage}
    (hfind : ∀ a, (σ'.find hash id a).1 = (σ.find hash id a).1)
    (hload : ∀ a, (σ'.load hash id a).1 = (σ.load hash id a).1) : SameLoads hash σ σ' id := by
  intro reader ser useMmap T target a
  have hserial : PMEM.loadSerial hash useMmap σ' id a = PMEM.loadSerial hash useMmap σ id a := by
    cases useMmap
    · exact hload a
    · exact hfind a
  rw [PMEM.load_eq, PMEM.load_eq, hserial]

/-- An id with the same stack of values loads the same. -/
theorem SameLoads.of_stack {s t : PMDKHashtableStorage} (hs : s.Wf hash) (ht : t.Wf hash)
    (h : t.pool.stack hash id = s.pool.stack hash id) :
    SameLoads hash (.hashtable s) (.hashtable t) id := by
  refine .of_reads ?_ ?_
  · intro a
    rw [Storage.find, Storage.find, ht.findBytes_eq, hs.findBytes_eq, h]
  · intro a
    rw [Storage.load, Storage.load, ht.load_eq, hs.load_eq, h]

/-- An id with the same file loads the same. -/
theorem SameLoads.of_file {S : FileStorage} {s t : FileSystem}
    (h : t.files (cStr id) = s.files (cStr id)) : SameLoads hash (.files S s) (.files S t) id := by
  refine .of_reads ?_ ?_
  · intro a
    simp only [Storage.find, (S.reads_congr a.sys h).2]
  · intro a
    simp only [Storage.load, (S.reads_congr a.sys h).1]

end SameLoads

/-! ### How a `store` can throw -/

section Throws

variable {hash : Bytes → ℕ} {ser : SerializerType} {useMmap : Bool} {T : ElemType} {σ : Storage}
  {id : Bytes} {src : Source} {a : Answers} {e : Failure}

/-- In copy mode it is the serializer that throws, and the storage is not reached, or
the storage. -/
theorem PMEM.store_copy_throws
    (hthrow : (PMEM.store hash ser false T σ id src a).1 = .error e) :
    ((∃ e', ser.serialize T src = .error e') ∧ (PMEM.store hash ser false T σ id src a).2 = σ) ∨
      ∃ serial, ser.serialize T src = .ok serial ∧
        PMEM.store hash ser false T σ id src a = σ.store hash id a serial ∧
        (σ.store hash id a serial).1 = .error e := by
  cases hserial : ser.serialize T src with
  | error e' =>
    refine Or.inl ⟨⟨e', rfl⟩, ?_⟩
    simp [PMEM.store, hserial]
  | ok serial =>
    have hstore : PMEM.store hash ser false T σ id src a = σ.store hash id a serial := by
      simp [PMEM.store, hserial]
    exact Or.inr ⟨serial, rfl, hstore, hstore ▸ hthrow⟩

/-- In mmap mode it is `alloc` that throws, or the serializer before it writes or when
the buffer is full. -/
theorem PMEM.store_mmap_throws
    (hthrow : (PMEM.store hash ser true T σ id src a).1 = .error e) :
    (∃ e', σ.alloc hash id a (bufferSize ser T src) =
      (.error e', (PMEM.store hash ser true T σ id src a).2)) ∨
    ∃ buf τ, σ.alloc hash id a (bufferSize ser T src) = (.ok buf, τ) ∧
      ((PMEM.store hash ser true T σ id src a).2 = τ ∨
        ser.serializeInto T (bufferSize ser T src) src = .error .arrayFull ∧
          (PMEM.store hash ser true T σ id src a).2 =
            τ.fill (a.wreck.take (bufferSize ser T src)) buf) := by
  cases halloc : σ.alloc hash id a (bufferSize ser T src) with
  | mk result τ =>
    cases result with
    | error e' =>
      refine Or.inl ⟨e', ?_⟩
      simp [PMEM.store, halloc]
    | ok buf =>
      refine Or.inr ⟨buf, τ, rfl, ?_⟩
      cases hinto : ser.serializeInto T (bufferSize ser T src) src with
      | ok out => simp [PMEM.store, halloc, hinto] at hthrow
      | error e' =>
        cases e' with
        | listTooLong =>
          left
          simp [PMEM.store, halloc, hinto]
        | arrayFull =>
          right
          simp [PMEM.store, halloc, hinto]
        | malformed =>
          left
          simp [PMEM.store, halloc, hinto]

/-- A `store` that throws leaves the hashtable as it is, or in mmap mode it has
inserted an entry before the serializer ran out of buffer. -/
theorem PMEM.store_hashtable_throws {s : PMDKHashtableStorage}
    (hid : id.length ≤ PMEMPointer.idRoom)
    (ha : a.Possible (.hashtable s) (PMEM.askedSize ser useMmap T src))
    (hthrow : (PMEM.store hash ser useMmap T (.hashtable s) id src a).1 = .error e) :
    ∃ t, (PMEM.store hash ser useMmap T (.hashtable s) id src a).2 = .hashtable t ∧
      (t = s ∨ useMmap = true ∧ ∃ v, FittingStep hash s (.store id v a.block a.entry) t) := by
  cases useMmap with
  | false =>
    refine ⟨s, ?_, Or.inl rfl⟩
    rcases PMEM.store_copy_throws hthrow with ⟨_, hkept⟩ | ⟨serial, _, hstore, hthrow'⟩
    · exact hkept
    · cases hblock : a.block with
      | none => simp [hstore, Storage.store, hblock, store_refused]
      | some b => simp [Storage.store, hblock, store_returns] at hthrow'
  | true =>
    cases hblock : a.block with
    | none =>
      refine ⟨s, ?_, Or.inl rfl⟩
      simp [PMEM.store, Storage.alloc, hblock, alloc_refused, Except.map]
    | some b =>
      obtain ⟨hfresh, hentry⟩ := ha
      rw [hblock] at hfresh hentry
      have hfresh' : s.pool.Fresh (PMEM.bufferSize ser T src) b := hfresh
      obtain ⟨t, halloc, hfill⟩ := alloc_fill hash s hid hfresh' hentry
      have hmade : (Storage.hashtable s).alloc hash id a (PMEM.bufferSize ser T src) =
          (.ok (.pmem ⟨b.oid, PMEM.bufferSize ser T src⟩), .hashtable t) := by
        simp [Storage.alloc, hblock, halloc, Except.map]
      rcases PMEM.store_mmap_throws hthrow with ⟨e', hfailed⟩ | ⟨buf, τ, hmade', hcases⟩
      · rw [hmade] at hfailed
        cases hfailed
      · rw [hmade] at hmade'
        cases hmade'
        rcases hcases with hkept | ⟨_, hfull⟩
        · have hnil := hfill [] (Nat.zero_le _)
          rw [write_nil] at hnil
          exact ⟨t, hkept, Or.inr ⟨rfl, _, hnil⟩⟩
        · exact ⟨_, hfull, Or.inr ⟨rfl, _, hfill _ (List.length_take_le _ _)⟩⟩

/-- A `store` that throws changes one file, and not even that one if it throws early. -/
theorem PMEM.store_files_throws {S : FileStorage} {s : FileSystem}
    (hthrow : (PMEM.store hash ser useMmap T (.files S s) id src a).1 = .error e) :
    ∃ t w, (PMEM.store hash ser useMmap T (.files S s) id src a).2 = .files S t ∧
      t.files = (s.put (cStr id) w).files ∧
      ∀ v, s.files (cStr id) = some v → StopsEarly ser useMmap T (.files S s) id src a →
        w = some v := by
  cases useMmap with
  | false =>
    rcases PMEM.store_copy_throws hthrow with ⟨_, hkept⟩ | ⟨serial, hserial, hstore, _⟩
    · exact ⟨s, _, hkept, (FileSystem.put_eq_self rfl).symm, fun v hv _ => hv⟩
    · obtain ⟨w, hfiles, hkept⟩ := S.store_files s id serial a.sys
      refine ⟨(S.store s id a.sys serial).2, w, ?_, hfiles, ?_⟩
      · rw [hstore, Storage.store]
      · intro v hv hearly
        exact hkept v hv (hearly serial hserial)
  | true =>
    obtain ⟨w, hfiles, hkept⟩ := S.alloc_files s id a.sys (PMEM.bufferSize ser T src)
    have hsame (v : Bytes) (hv : s.files (cStr id) = some v)
        (hearly : StopsEarly ser true T (.files S s) id src a) : w = some v := by
      apply hkept v hv
      rw [← FileSystem.contents_eq hv]
      exact hearly.imp_right And.left
    have hresult : (Storage.files S s).alloc hash id a (PMEM.bufferSize ser T src) =
        ((S.alloc s id a.sys (PMEM.bufferSize ser T src)).1.map .mapped,
          .files S (S.alloc s id a.sys (PMEM.bufferSize ser T src)).2) := rfl
    rcases PMEM.store_mmap_throws hthrow with ⟨e', hfailed⟩ | ⟨buf, τ, hmade, hcases⟩
    · exact ⟨_, w, congrArg Prod.snd (hfailed.symm.trans hresult), hfiles, hsame⟩
    · obtain ⟨hbuf, rfl⟩ := Prod.mk.inj (hresult.symm.trans hmade)
      rcases hcases with hleft | ⟨hinto, hfull⟩
      · exact ⟨_, w, hleft, hfiles, hsame⟩
      · cases halloc : (S.alloc s id a.sys (PMEM.bufferSize ser T src)).1 with
        | error e' => simp [halloc, Except.map] at hbuf
        | ok buf' =>
          obtain rfl : .mapped buf' = buf := by simpa [halloc, Except.map] using hbuf
          refine ⟨_, _, hfull, (FileStorage.alloc_ok halloc).2 _, ?_⟩
          rintro v _ (hearly | ⟨_, hroom⟩)
          · obtain ⟨_, hno⟩ := (FileStorage.alloc_notResized s id hearly).1
            rw [halloc] at hno
            cases hno
          · exact absurd hinto hroom

end Throws

/-! ### Either storage -/

/-- A `store` that throws leaves every other id as it was, and its own id too if it
throws before anything of the new value is visible: for every storage that calls can
lead to, every serializer, both modes and every failure. -/
theorem failed_store {hash : Bytes → ℕ} {ser : SerializerType} {useMmap : Bool} {T : ElemType}
    {σ : Storage} {id : Bytes} {src : Source} {a : Answers} {e : Failure}
    (hσ : σ.Reachable hash) (hid : σ.Accepts id)
    (ha : a.Possible σ (PMEM.askedSize ser useMmap T src))
    (hthrow : (PMEM.store hash ser useMmap T σ id src a).1 = .error e) :
    (∀ id', σ.Accepts id' → id' ≠ id →
      SameLoads hash σ (PMEM.store hash ser useMmap T σ id src a).2 id') ∧
    (σ.Holds hash id → StopsEarly ser useMmap T σ id src a →
      SameLoads hash σ (PMEM.store hash ser useMmap T σ id src a).2 id) := by
  cases σ with
  | hashtable s =>
    obtain ⟨calls, hrun⟩ := hσ
    have hwf := fitting_run_wf hrun
    obtain ⟨t, hresult, hcases⟩ := PMEM.store_hashtable_throws hid.room ha hthrow
    rw [hresult]
    rcases hcases with rfl | ⟨hmmap, v, hstep⟩
    · exact ⟨fun _ _ _ => .of_stack hwf hwf rfl, fun _ _ => .of_stack hwf hwf rfl⟩
    · have hwf' := hwf.step hstep
      refine ⟨fun id' _ hne => ?_, fun _ hearly => ?_⟩
      · apply SameLoads.of_stack hwf hwf'
        rw [hwf.stack_insertion hstep, if_neg]
        exact fun h => hne ((sameBucket_iff hid.nulFree).mp h.2)
      · apply SameLoads.of_stack hwf hwf'
        rw [hwf.stack_insertion hstep, if_neg]
        rintro ⟨⟨hblock, hentry⟩, _⟩
        rcases hearly with h | h | h
        · simp [h] at hmmap
        · simp [h] at hblock
        · simp [h] at hentry
  | files S s =>
    obtain ⟨t, w, hresult, hfiles, hkept⟩ := PMEM.store_files_throws hthrow
    rw [hresult]
    refine ⟨fun id' hid' hne => ?_, fun hholds hearly => ?_⟩
    · apply SameLoads.of_file
      rw [hfiles, FileSystem.files_put_of_ne]
      rwa [cStr_eq_self_iff.mpr hid'.nulFree, cStr_eq_self_iff.mpr hid.nulFree]
    · obtain ⟨v, hv⟩ := Option.isSome_iff_exists.mp hholds
      apply SameLoads.of_file
      rw [hfiles, FileSystem.files_put_self, hkept v hv hearly, hv]

/-- A `store` into a pool without room leaves the value that was stored first. -/
theorem failed_store_full_pool :
    ∃ s, Run (FittingStep fun _ => 0) created [storeAt [97] [7] 1] s ∧
      SameLoads (fun _ => 0) (.hashtable s)
        (PMEM.store (fun _ => 0) .capnproto true .uint8 (.hashtable s) [97] (.array 1 [8])
          ⟨none, none, .served 3, []⟩).2 [97] := by
  have hfirst := (firstStore 7).1
  have hrun := Run.single hfirst.fitting
  have hholds : (storedAt (fun _ => 0) created [97] [7] 1).pool.stack (fun _ => 0) [97] ≠ [] := by
    rw [(session_represents (Run.single hfirst)).stack [97] storable_a.nulFree]
    exact List.cons_ne_nil _ _
  refine ⟨_, hrun, ?_⟩
  refine (failed_store (σ := .hashtable _) (e := .thrown .pmdkCantAllocateStr) ⟨_, hrun⟩
    storable_a ?_ ?_).2 hholds ?_
  · exact ⟨trivial, trivial⟩
  · rfl
  · exact Or.inr (Or.inl rfl)

/-- A directory with one file of three bytes. -/
def oneFile : Storage := .files .posix (FileSystem.empty.put [97] (some [1, 2, 3]))

/-- A `write` that moves one byte. -/
def shortWrite : Answers := ⟨none, none, { SysAnswers.served 3 with write := .short 1 }, []⟩

/-- If the `store` of three bytes under the id throws after such a `write`, the file is
loaded as before. -/
def ShortWriteKeeps (id : Bytes) : Prop :=
  ∀ e, (PMEM.store (fun _ => 0) .noSerializer false .uint8 oneFile id (.array 3 [4, 5, 6])
      shortWrite).1 = .error e →
    SameLoads (fun _ => 0) oneFile
      (PMEM.store (fun _ => 0) .noSerializer false .uint8 oneFile id (.array 3 [4, 5, 6])
        shortWrite).2 [97]

/-- A `write` that moves one byte out of three leaves neither the old value nor the new
one, under the id of the `store` and under one that the file system does not tell from it. -/
theorem short_write_loses_value : ¬ShortWriteKeeps [97] ∧ ¬ShortWriteKeeps [97, 0, 98] := by
  let reader : MessageReader := ⟨fun _ _ v => .ok v, fun _ _ v => .ok v⟩
  constructor
  · intro hkeeps
    have hloads := hkeeps _ rfl reader .noSerializer false .uint8 (.array 3)
      ⟨none, none, .served 3, []⟩
    cases hloads
  · intro hkeeps
    have hloads := hkeeps _ rfl reader .noSerializer false .uint8 (.array 3)
      ⟨none, none, .served 3, []⟩
    cases hloads

end Pmemcpy
