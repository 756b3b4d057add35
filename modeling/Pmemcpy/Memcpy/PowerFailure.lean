import Pmemcpy.Files.Syncing
import Pmemcpy.Memcpy.SeparateClients

/-!
# What survives a power failure in a file storage

A `store` makes the bytes of its file durable before it returns, in either mode, but never
the entry of a new file in the directory. So a value survives a power failure exactly
where the platform takes care of the entry, or where the file was there before and has not
been removed since, whatever other clients are in the middle of when the power fails.
-/

namespace Pmemcpy

open Lib Program

namespace PMEM

variable (P : Platform) (ser : SerializerType) (useMmap : Bool) (T : ElemType) (S : FileStorage)
  (id : Bytes) (flushed : Bool)

/-- `store`: in mmap mode the buffer is dropped at its end, also when the serializer throws. -/
def syncedStore (src : Source) (a : Answers) : Program CachedFiles Ending :=
  if useMmap then
    (S.allocProgram id a.sys (bufferSize ser T src)).cached.bind fun result =>
      match result with
      | .error e => done (.returned (.error e))
      | .ok buf =>
        match ser.serializeInto T (bufferSize ser T src) src with
        | .ok out => (buf.fillProgram out).cached.bind fun _ => dropBuffer P flushed S buf (.ok [])
        | .error .listTooLong => dropBuffer P flushed S buf (.error .foreign)
        | .error .malformed => dropBuffer P flushed S buf (.error .foreign)
        | .error .arrayFull =>
          (buf.fillProgram (a.wreck.take (bufferSize ser T src))).cached.bind fun _ =>
            dropBuffer P flushed S buf (.error .foreign)
  else
    match ser.serialize T src with
    | .error _ => done (.returned (.error .foreign))
    | .ok serial => (syncedStoreFile P id a.sys flushed serial).bind fun result =>
      done (.returned (result.map fun _ => []))

/-- `load`: in mmap mode the buffer is dropped when it has been decoded. -/
def syncedLoad (reader : MessageReader) (target : Target) (a : Answers) :
    Program CachedFiles Ending :=
  if useMmap then
    (S.findProgram id a.sys).cached.bind fun result =>
      match result with
      | .error e => done (.returned (.error e))
      | .ok buf => buf.bytesProgram.cached.bind fun v =>
        dropBuffer P flushed S buf (decoded ser T reader target v)
  else (syncedLoadFile P id a.sys flushed S).bind fun serial =>
    done (.returned (decoded ser T reader target serial))

end PMEM

/-- An operation of a client, with the calls that make files durable. -/
def PmemOp.synced (P : Platform) (reader : MessageReader) (S : FileStorage) (flushed : Bool) :
    PmemOp → Program CachedFiles Ending
  | store useMmap id v a => PMEM.syncedStore P v.ser useMmap v.T S id flushed v.src a
  | load ser useMmap T id target a => PMEM.syncedLoad P ser useMmap T S id flushed reader target a
  | free id a => (freeProgram id a.sys).cached.bind fun result =>
    done (.returned (result.map fun _ => []))

/-! ### What an operation does to the cache -/

/-- A program on cached files that does to the cache what a program on files does, and ends as it
does, or else by an exit of its process. -/
def EndsAs (q : Program CachedFiles Ending) (p : Program FileSystem (Except Failure Bytes)) :
    Prop :=
  ∀ σ, (q.run σ).2.cache = (p.run σ.cache).2 ∧
    ((q.run σ).1 = .exited ∨ (q.run σ).1 = .returned (p.run σ.cache).1)

section Do

variable {α : Type} {P : Platform} {ser : SerializerType} {useMmap : Bool} {T : ElemType}
  {S : FileStorage} {id : Bytes} {a : Answers} {flushed : Bool} {reader : MessageReader}

/-- A program that does what another one does, and then ends as what follows this one, ends as
both. -/
theorem Does.endsAs_bind {q : Program CachedFiles α} {p : Program FileSystem α}
    {g : α → Program CachedFiles Ending} {f : α → Program FileSystem (Except Failure Bytes)}
    (hp : Does q p) (hf : ∀ a, EndsAs (g a) (f a)) : EndsAs (q.bind g) (p.bind f) := by
  intro σ
  obtain ⟨hresult, hcache⟩ := hp σ
  have hnext := hf (q.run σ).1 (q.run σ).2
  rw [run_bind, run_bind, ← hresult, ← hcache]
  exact hnext

/-- A program that has returned ends as one that is over. -/
theorem endsAs_returned (result : Except Failure Bytes) :
    EndsAs (done (.returned result)) (done result) := fun _ => ⟨rfl, Or.inr rfl⟩

/-- Releasing a buffer ends as nothing does, or exits. -/
theorem endsAs_dropBuffer (buf : MmapBuffer) (result : Except Failure Bytes) :
    EndsAs (dropBuffer P flushed S buf result) (done result) := by
  intro σ
  obtain ⟨hcache, h | h⟩ := run_dropBuffer P flushed S buf result σ
  · exact ⟨hcache, Or.inr h⟩
  · exact ⟨hcache, Or.inl h.1⟩

/-- `store` with its calls for durability ends as `store` does, or exits. -/
theorem PMEM.syncedStore_endsAs (src : Source) :
    EndsAs (syncedStore P ser useMmap T S id flushed src a)
      ((storeProgram ser useMmap T S id src a).bind fun result =>
        done (result.map fun _ => [])) := by
  unfold syncedStore storeProgram
  cases useMmap with
  | false =>
    rw [if_neg (by decide), if_neg (by decide)]
    cases ser.serialize T src with
    | error f => exact endsAs_returned _
    | ok serial => exact (syncedStoreFile_does serial).endsAs_bind fun _ => endsAs_returned _
  | true =>
    rw [if_pos rfl, if_pos rfl, bind_assoc]
    refine (does_cached _).endsAs_bind ?_
    rintro (f | buf)
    · exact endsAs_returned _
    · dsimp only
      rcases ser.serializeInto T (bufferSize ser T src) src with (_ | _ | _) | out
      · exact endsAs_dropBuffer _ _
      · dsimp only
        rw [bind_assoc]
        exact (does_cached _).endsAs_bind fun _ => endsAs_dropBuffer _ _
      · exact endsAs_dropBuffer _ _
      · dsimp only
        rw [bind_assoc]
        exact (does_cached _).endsAs_bind fun _ => endsAs_dropBuffer _ _

/-- `load` with its calls for durability ends as `load` does, or exits. -/
theorem PMEM.syncedLoad_endsAs (target : Target) :
    EndsAs (syncedLoad P ser useMmap T S id flushed reader target a)
      (loadProgram ser useMmap T S id reader target a) := by
  unfold syncedLoad loadProgram serialProgram
  cases useMmap with
  | false =>
    rw [if_neg (by decide), if_neg (by decide)]
    exact (syncedLoadFile_does S).endsAs_bind fun _ => endsAs_returned _
  | true =>
    rw [if_pos rfl, if_pos rfl, FileStorage.findBytesProgram, bind_assoc, bind_assoc]
    refine (does_cached _).endsAs_bind ?_
    rintro (f | buf)
    · exact endsAs_returned _
    · dsimp only [FileStorage.readFound]
      rw [bind_assoc]
      refine (does_cached _).endsAs_bind fun v => ?_
      have hsame : (v.map fun v => (buf.size, v)).map Prod.snd = v := by
        cases v <;> rfl
      show EndsAs _ (done (decoded ser T reader target
        ((v.map fun v => (buf.size, v)).map Prod.snd)))
      rw [hsame]
      exact endsAs_dropBuffer _ _

/-- Every operation does to the cache what it does without the calls that make files durable. -/
theorem PmemOp.synced_endsAs (P : Platform) (reader : MessageReader) (S : FileStorage)
    (flushed : Bool) (op : PmemOp) :
    EndsAs (op.synced P reader S flushed) (op.program reader S) := by
  cases op with
  | store useMmap id v a => exact PMEM.syncedStore_endsAs v.src
  | load ser useMmap T id target a => exact PMEM.syncedLoad_endsAs target
  | free id a => exact (does_cached _).endsAs_bind fun _ => endsAs_returned _

end Do

/-! ### What an operation keeps of its file -/

section Keep

variable {κ : Type*} {owns : κ → Set Bytes} {k : κ} {P : Platform} {ser : SerializerType}
  {useMmap : Bool} {T : ElemType} {S : FileStorage} {id name v : Bytes} {a : Answers}
  {flushed : Bool} {reader : MessageReader} {I : Option Bytes → Prop} {J : CachedFiles → Prop}

/-- The file that a buffer maps belongs to the client. -/
theorem BufferOf.mem {buf : MmapBuffer} (h : BufferOf (cStr id) (.ok buf))
    (hid : cStr id ∈ owns k) : ∀ m ∈ buf.mapping, m.name ∈ owns k := by
  intro m hm
  rw [h buf rfl m hm]
  exact hid

/-- An operation with its calls for durability stays in the files of the client that has its id. -/
theorem PmemOp.synced_stays {op : PmemOp} (howns : NoneShared owns) (hid : cStr op.id ∈ owns k) :
    (op.synced P reader S flushed).StaysIn (cachedOf owns) k := by
  cases op with
  | store useMmap id v a =>
    dsimp only [synced, PMEM.syncedStore]
    split
    · refine (cached_stays (FileStorage.allocProgram_stays howns hid S a.sys _)).bind_returns
        (S.allocProgram_returns id a.sys _).lift ?_
      rintro (f | buf) hbuf
      · trivial
      · have hmapping := hbuf.mem hid
        have hfill (bytes : Bytes) :=
          cached_stays (MmapBuffer.fillProgram_stays howns hmapping bytes)
        have hdrop (result : Except Failure Bytes) :
            (dropBuffer P flushed S buf result).StaysIn (cachedOf owns) k :=
          dropBuffer_stays howns hmapping result
        dsimp only
        rcases v.ser.serializeInto v.T _ v.src with (_ | _ | _) | out
        · exact hdrop _
        · exact (hfill _).bind fun _ => hdrop _
        · exact hdrop _
        · exact (hfill _).bind fun _ => hdrop _
    · cases v.ser.serialize v.T v.src with
      | error f => trivial
      | ok serial => exact (syncedStoreFile_stays howns hid serial).bind fun _ => trivial
  | load ser useMmap T id target a =>
    dsimp only [synced, PMEM.syncedLoad]
    split
    · refine StaysIn.bind_returns ?_ (S.findProgram_returns id a.sys).lift ?_
      · exact cached_stays (FileStorage.findProgram_stays howns hid S a.sys)
      · rintro (f | buf) hbuf
        · trivial
        · have hmapping := hbuf.mem hid
          exact (cached_stays (MmapBuffer.bytesProgram_stays howns hmapping)).bind fun _ =>
            dropBuffer_stays howns hmapping _
    · exact (syncedLoadFile_stays howns hid).bind fun _ => trivial
  | free id a =>
    exact (cached_stays (freeProgram_stays howns hid a.sys)).bind fun _ => trivial

/-- What an operation does not change of the files of other names. -/
theorem PmemOp.synced_other {op : PmemOp} (hne : cStr op.id ≠ name)
    (J : Option Bytes × Bool × Bool → Prop) :
    (op.synced P reader S flushed).Preserves fun σ =>
      J (σ.cache.files name, σ.bytes name, σ.entry name) := by
  let owns : Bool → Set Bytes := fun own => if own then {cStr op.id} else {name}
  have howns : NoneShared owns := by
    rintro (_ | _) (_ | _) hjk other hother hother'
    · exact hjk rfl
    · exact hne (Set.mem_singleton_iff.mp hother' ▸ Set.mem_singleton_iff.mp hother)
    · exact hne (Set.mem_singleton_iff.mp hother ▸ Set.mem_singleton_iff.mp hother')
    · exact hjk rfl
  have hstays : (op.synced P reader S flushed).StaysIn (cachedOf owns) true :=
    PmemOp.synced_stays howns rfl
  exact hstays.preserves Bool.false_ne_true fun part => J (part ⟨name, rfl⟩)

/-- `load` with its calls for durability keeps what is kept with its file. -/
theorem PMEM.syncedLoad_preserves (h : KeptWith P (cStr id) I J) (target : Target) :
    (syncedLoad P ser useMmap T S id flushed reader target a).Preserves J := by
  unfold syncedLoad
  split
  · refine (h.cached _ (S.findProgram_preserves id a.sys)).bind_returns
      (S.findProgram_returns id a.sys).lift ?_
    rintro (f | buf) hbuf
    · trivial
    · exact (h.cached _ buf.bytesProgram_preserves).bind fun _ =>
        dropBuffer_preserves h (hbuf buf rfl) _
  · exact (syncedLoadFile_preserves h).bind fun _ => trivial

/-- `store` with its calls for durability keeps what no writing to its file can change. -/
theorem PMEM.syncedStore_preserves (h : KeptWith P (cStr id) I J) (hI : ∀ v w, I v → I (some w))
    (src : Source) : (syncedStore P ser useMmap T S id flushed src a).Preserves J := by
  unfold syncedStore
  split
  · refine (h.cached _ (S.allocProgram_preserves hI h.present id a.sys _)).bind_returns
      (S.allocProgram_returns id a.sys _).lift ?_
    rintro (f | buf) hbuf
    · trivial
    · have hmapping := hbuf buf rfl
      have hfill (bytes : Bytes) :=
        h.cached _ (MmapBuffer.fillProgram_preserves hI h.present hmapping bytes)
      have hdrop (result : Except Failure Bytes) :
          (dropBuffer P flushed S buf result).Preserves J := dropBuffer_preserves h hmapping result
      dsimp only
      rcases ser.serializeInto T (bufferSize ser T src) src with (_ | _ | _) | out
      · exact hdrop _
      · exact (hfill _).bind fun _ => hdrop _
      · exact hdrop _
      · exact (hfill _).bind fun _ => hdrop _
  · cases ser.serialize T src with
    | error f => trivial
    | ok serial => exact (syncedStoreFile_preserves h hI serial).bind fun _ => trivial

end Keep

/-! ### The end of a `store` -/

/-- The call that makes a stored file durable covers its bytes: a `write` is followed by an `fsync`
that may fail, a mapping by a `pmem_persist` that needs persistent memory. -/
def Flushes (P : Platform) (S : FileStorage) (useMmap flushed : Bool) : Prop :=
  if useMmap then S = .posix ∨ P.pmem = true else flushed = true

/-- A file is there, its bytes are durable, and its entry as well if the platform does so. -/
def CachedFiles.Flushed (P : Platform) (name : Bytes) (σ : CachedFiles) : Prop :=
  (σ.cache.files name).isSome = true ∧ σ.bytes name = true ∧
    (P.entries = true → σ.entry name = true)

section Ends

variable {P : Platform} {ser : SerializerType} {useMmap : Bool} {T : ElemType} {S : FileStorage}
  {id name : Bytes} {a : Answers} {flushed : Bool} {σ : CachedFiles}

/-- A call that covers the bytes of a file makes them durable. -/
theorem CachedFiles.flushed_sync {c : SyncCall} (hc : P.covers c = true)
    (hfile : (σ.cache.files name).isSome = true) : (σ.sync P c name).Flushed P name := by
  refine ⟨?_, by simp [sync, hc], ?_⟩
  · rw [cache_sync]
    exact hfile
  · intro hP
    simp [sync, hc, hP, hfile]

/-- Closing a descriptor leaves a flushed file flushed. -/
theorem CachedFiles.Flushed.close (h : σ.Flushed P name) (fd : ℕ) :
    ((closeCall fd).cached.run σ).2.Flushed P name := by
  obtain ⟨hfile, hbytes, hentry⟩ := h
  exact ⟨hfile, by simp [closeCall, call, lift, Program.run, after, hbytes],
    fun hP => by simp [closeCall, call, lift, Program.run, after, hentry hP]⟩

/-- A `store` that returns has flushed its file, if its `fsync` has not failed. -/
theorem syncedStoreFile_flushed {a : SysAnswers} {src : Bytes}
    (hok : ((syncedStoreFile P id a true src).run σ).1 = .ok ()) :
    ((syncedStoreFile P id a true src).run σ).2.Flushed P (cStr id) := by
  have hdoes : Does (syncedStoreFile P id a true src) (storeProgram id a src) :=
    syncedStoreFile_does src
  have hcache := (hdoes σ).2
  have hresult := (hdoes σ).1
  rw [run_storeProgram, ← FileStorage.posix.store_eq_storeFile] at hcache hresult
  have heffect := FileStorage.posix.store_effect σ.cache id src a
  rw [← hresult, hok, ← hcache] at heffect
  have hfile :
      (((syncedStoreFile P id a true src).run σ).2.cache.files (cStr id)).isSome = true := by
    generalize hfiles : ((syncedStoreFile P id a true src).run σ).2.cache.files = files at heffect
    cases heffect
    rw [FileSystem.files_put_self]
    rfl
  unfold syncedStoreFile at hok hfile ⊢
  rw [run_bind] at hok hfile ⊢
  generalize (openCreateCall (cStr id) a.openFd).cached.run σ = opened at hok hfile ⊢
  rcases opened with ⟨_ | fd, τ⟩
  · cases hok
  · dsimp only at hok hfile ⊢
    rw [run_bind] at hok hfile ⊢
    generalize (call fun s => s.write (cStr id) src a.write).cached.run τ = written
      at hok hfile ⊢
    rcases written with ⟨ret, υ⟩
    dsimp only at hok hfile ⊢
    by_cases hret : ret = some src.length
    · rw [if_pos hret] at hfile ⊢
      have hcovers : P.covers .fsync = true := rfl
      refine CachedFiles.Flushed.close (CachedFiles.flushed_sync hcovers ?_) fd
      rw [← cache_sync P .fsync (cStr id) υ]
      exact hfile
    · rw [if_neg hret] at hok
      cases hok

/-- Releasing a buffer flushes its file, unless it exits. -/
theorem dropBuffer_flushed {buf : MmapBuffer} {m : Mapping} (hm : buf.mapping = some m)
    (hname : m.name = name) (hflush : S = .posix ∨ P.pmem = true)
    (hfile : (σ.cache.files name).isSome = true) {result result' : Except Failure Bytes}
    (hreturned : ((dropBuffer P flushed S buf result).run σ).1 = .returned result') :
    ((dropBuffer P flushed S buf result).run σ).2.Flushed P name := by
  subst hname
  unfold dropBuffer at hreturned ⊢
  rw [hm] at hreturned ⊢
  cases S with
  | posix =>
    cases flushed with
    | false => cases hreturned
    | true =>
      have hcovers : P.covers .msync = true := rfl
      exact CachedFiles.flushed_sync hcovers hfile
  | pmdkFs =>
    have hpmem : P.covers .pmemPersist = true := hflush.resolve_left (by decide)
    exact CachedFiles.flushed_sync hpmem hfile

/-- A `store` that returns has flushed its file, in either mode. -/
theorem PMEM.syncedStore_flushed {src : Source} {bytes : Bytes}
    (hflush : Flushes P S useMmap flushed)
    (hok : ((syncedStore P ser useMmap T S id flushed src a).run σ).1 = .returned (.ok bytes)) :
    ((syncedStore P ser useMmap T S id flushed src a).run σ).2.Flushed P (cStr id) := by
  unfold syncedStore at hok ⊢
  cases useMmap with
  | false =>
    obtain rfl : flushed = true := hflush
    rw [if_neg (by decide)] at hok ⊢
    cases hserial : ser.serialize T src with
    | error f =>
      rw [hserial] at hok
      cases hok
    | ok serial =>
      rw [hserial] at hok
      dsimp only at hok ⊢
      rw [run_bind] at hok ⊢
      apply syncedStoreFile_flushed
      cases hstore : ((syncedStoreFile P id a.sys true serial).run σ).1 with
      | error f =>
        rw [hstore] at hok
        cases hok
      | ok _ => rfl
  | true =>
    have hflush' : S = .posix ∨ P.pmem = true := hflush
    rw [if_pos rfl, run_bind] at hok ⊢
    have hdoes := does_cached (S.allocProgram id a.sys (bufferSize ser T src)) σ
    rw [S.run_allocProgram] at hdoes
    have heffect := S.alloc_effect σ.cache id a.sys (bufferSize ser T src)
    rw [← hdoes.1, ← hdoes.2] at heffect
    generalize (S.allocProgram id a.sys (bufferSize ser T src)).cached.run σ = allocated
      at hok heffect ⊢
    rcases allocated with ⟨f | buf, τ⟩
    · cases hok
    · dsimp only at hok heffect ⊢
      obtain ⟨m, hmapping, hname, hfile⟩ : ∃ m, buf.mapping = some m ∧ m.name = cStr id ∧
          (τ.cache.files (cStr id)).isSome = true := by
        generalize hfiles : τ.cache.files = files at heffect
        cases heffect with
        | mapped hsize => exact ⟨_, rfl, rfl, by rw [FileSystem.files_put_self]; rfl⟩
      have hbuf : ∀ m ∈ buf.mapping, m.name = cStr id := by
        intro m' hm'
        rw [hmapping] at hm'
        obtain rfl := Option.some.inj hm'
        exact hname
      have hfilled (bytes : Bytes) :
          (((buf.fillProgram bytes).cached.run τ).2.cache.files (cStr id)).isSome = true := by
        have hfill := MmapBuffer.fillProgram_preserves
          (I := fun file => file.isSome = true) (fun _ _ _ => rfl) (fun _ h => h) hbuf bytes
        rw [(does_cached (buf.fillProgram bytes) τ).2]
        exact hfill.run hfile
      rcases hserial : ser.serializeInto T (bufferSize ser T src) src with (_ | _ | _) | out
      all_goals rw [hserial] at hok; dsimp only at hok ⊢
      · exact dropBuffer_flushed hmapping hname hflush' hfile hok
      · rw [run_bind] at hok ⊢
        exact dropBuffer_flushed hmapping hname hflush' (hfilled _) hok
      · exact dropBuffer_flushed hmapping hname hflush' hfile hok
      · rw [run_bind] at hok ⊢
        exact dropBuffer_flushed hmapping hname hflush' (hfilled _) hok

end Ends

/-! ### Clients -/

namespace PmemOp

/-- The operation does not store or free the file of this name. -/
def Spares (name : Bytes) : PmemOp → Prop
  | store _ id _ _ => cStr id ≠ name
  | load .. => True
  | free id _ => cStr id ≠ name

/-- The operation removes the file of this name, if there is one. -/
def Removes (name : Bytes) : PmemOp → Prop
  | free id a => cStr id = name ∧ a.sys.remove = true
  | store .. | load .. => False

end PmemOp

/-- An operation that a client has asked for, whether the call that makes its file durable was
served, and how it ended. -/
structure SyncedEvent where
  op : PmemOp
  flushed : Bool
  ending : Ending

/-- The event is a `store` in the file of this name that has returned. -/
def SyncedEvent.Stores (P : Platform) (S : FileStorage) (name : Bytes) (e : SyncedEvent) : Prop :=
  ∃ useMmap id v a bytes, e.op = .store useMmap id v a ∧ cStr id = name ∧
    Flushes P S useMmap e.flushed ∧ e.ending = .returned (.ok bytes)

/-- An operation of a client that runs alone. -/
def SyncedStep (P : Platform) (reader : MessageReader) (S : FileStorage) (σ : CachedFiles)
    (e : SyncedEvent) (τ : CachedFiles) : Prop :=
  (e.op.synced P reader S e.flushed).run σ = (e.ending, τ)

/-- A client asks for one operation after the other. Which one is next depends on the replies. -/
inductive SyncedScript where
  | stop
  | call (op : PmemOp) (flushed : Bool) (next : Except Failure Bytes → SyncedScript)

namespace SyncedScript

/-- The client, call by call: its process may have to exit. Its result is what has happened. -/
def program (P : Platform) (reader : MessageReader) (S : FileStorage) :
    SyncedScript → Program CachedFiles (List SyncedEvent)
  | stop => done []
  | call op flushed next => (op.synced P reader S flushed).bind fun ending =>
    match ending with
    | .exited => done [⟨op, flushed, .exited⟩]
    | .returned result => ((next result).program P reader S).bind fun log =>
      done (⟨op, flushed, .returned result⟩ :: log)

/-- All that a client may ask for is about ids of its own. -/
def Keeps (names : Set Bytes) : SyncedScript → Prop
  | stop => True
  | call op _ next => cStr op.id ∈ names ∧ ∀ result, (next result).Keeps names

/-- Nothing that a client may ask for stores or frees the file of this name. -/
def Spares (name : Bytes) : SyncedScript → Prop
  | stop => True
  | call op _ next => op.Spares name ∧ ∀ result, (next result).Spares name

end SyncedScript

section Clients

variable {κ : Type*} {owns : κ → Set Bytes} {k : κ} {P : Platform} {S : FileStorage}
  {reader : MessageReader} {flushed : Bool} {op : PmemOp} {name v : Bytes}
  {I : Option Bytes → Prop} {σ τ : CachedFiles} {log : List SyncedEvent}

/-- An operation that spares a file keeps whatever is kept with the contents of the file. -/
theorem PmemOp.synced_spares (hop : op.Spares name) {J : Option Bytes × Bool × Bool → Prop}
    (h : KeptWith P name I fun σ => J (σ.cache.files name, σ.bytes name, σ.entry name)) :
    (op.synced P reader S flushed).Preserves fun σ =>
      J (σ.cache.files name, σ.bytes name, σ.entry name) := by
  by_cases hid : cStr op.id = name
  · cases op with
    | store useMmap id v a => exact absurd hid hop
    | load ser useMmap T id target a =>
      obtain rfl : cStr id = name := hid
      exact PMEM.syncedLoad_preserves h target
    | free id a => exact absurd hid hop
  · exact PmemOp.synced_other hid J

/-- An operation that does not remove a file keeps what no writing to the file can change. -/
theorem PmemOp.synced_keeps {J : Option Bytes × Bool × Bool → Prop}
    (h : KeptWith P name I fun σ => J (σ.cache.files name, σ.bytes name, σ.entry name))
    (hI : ∀ v w, I v → I (some w)) (hremove : op.Removes name → ∀ v, ¬I v) :
    (op.synced P reader S flushed).Preserves fun σ =>
      J (σ.cache.files name, σ.bytes name, σ.entry name) := by
  by_cases hid : cStr op.id = name
  · cases op with
    | store useMmap id v a =>
      obtain rfl : cStr id = name := hid
      exact PMEM.syncedStore_preserves h hI v.src
    | load ser useMmap T id target a =>
      obtain rfl : cStr id = name := hid
      exact PMEM.syncedLoad_preserves h target
    | free id a =>
      obtain rfl : cStr id = name := hid
      refine (h.cached _ (preserves_call fun s hs => ?_)).bind fun _ => trivial
      cases hanswer : a.sys.remove with
      | false => exact hs
      | true => exact absurd hs (hremove ⟨rfl, hanswer⟩ _)
  · exact PmemOp.synced_other hid J

/-- An operation that removes a file takes it from the cache. -/
theorem SyncedStep.removes {e : SyncedEvent} (h : SyncedStep P reader S σ e τ)
    (hop : e.op.Removes name) : τ.cache.files name = none := by
  obtain ⟨op, flushed, ending⟩ := e
  cases op with
  | store useMmap id v a => cases hop
  | load ser useMmap T id target a => cases hop
  | free id a =>
    obtain ⟨rfl, hanswer⟩ := hop
    have hcache := ((PmemOp.free id a).synced_endsAs P reader S flushed σ).1
    obtain rfl : _ = τ := congrArg Prod.snd h
    rw [hcache]
    simp [PmemOp.program, freeProgram, hanswer, FileSystem.remove]

/-- **A durable entry lasts until its file is removed**, if the platform makes no new ones. -/
theorem listed_run (hrun : Run (SyncedStep P reader S) σ log τ) :
    (σ.Listed name → (∀ e ∈ log, ¬e.op.Removes name) → τ.Listed name) ∧
      (P.entries = false → τ.Listed name → σ.Listed name ∧ ∀ e ∈ log, ¬e.op.Removes name) := by
  induction hrun with
  | nil => exact ⟨fun h _ => h, fun _ h => ⟨h, by simp⟩⟩
  | @snoc log τ e υ _ hstep ih =>
    have hend : ((e.op.synced P reader S e.flushed).run τ).2 = υ := congrArg Prod.snd hstep
    constructor
    · intro hlisted hlog
      have hkeeps : (e.op.synced P reader S e.flushed).Preserves (CachedFiles.Listed name) :=
        PmemOp.synced_keeps (J := fun x => x.2.2 = true ∧ x.1.isSome = true)
          (keptWith_listed P name) (fun _ _ _ => rfl)
          fun hremoves => absurd hremoves (hlog e (by simp))
      rw [← hend]
      exact hkeeps.run (ih.1 hlisted fun e' he' => hlog e' (by simp [he']))
    · intro hP hlisted
      have hbefore : τ.Listed name := by
        by_contra hnot
        have hkeeps : (e.op.synced P reader S e.flushed).Preserves fun σ => ¬σ.Listed name :=
          PmemOp.synced_keeps (J := fun x => ¬(x.2.2 = true ∧ x.1.isSome = true))
            (keptWith_notListed hP name) (fun _ _ h => h) fun _ _ h => h
        rw [← hend] at hlisted
        exact hkeeps.run hnot hlisted
      obtain ⟨hstart, hlog⟩ := ih.2 hP hbefore
      refine ⟨hstart, ?_⟩
      intro e' he'
      rcases List.mem_append.mp he' with he' | he'
      · exact hlog e' he'
      · obtain rfl := List.mem_singleton.mp he'
        intro hremoves
        have hgone := hstep.removes hremoves
        have hthere := hlisted.2
        rw [hgone] at hthere
        cases hthere

/-- Operations that spare a file keep whatever is kept with the contents of the file. -/
theorem run_spares (hrun : Run (SyncedStep P reader S) σ log τ)
    (hlog : ∀ e ∈ log, e.op.Spares name) {J : Option Bytes × Bool × Bool → Prop}
    (h : KeptWith P name I fun σ => J (σ.cache.files name, σ.bytes name, σ.entry name))
    (hσ : J (σ.cache.files name, σ.bytes name, σ.entry name)) :
    J (τ.cache.files name, τ.bytes name, τ.entry name) := by
  induction hrun with
  | nil => exact hσ
  | @snoc log τ e υ _ hstep ih =>
    have hend : ((e.op.synced P reader S e.flushed).run τ).2 = υ := congrArg Prod.snd hstep
    have hkeeps : (e.op.synced P reader S e.flushed).Preserves fun σ =>
        J (σ.cache.files name, σ.bytes name, σ.entry name) :=
      PmemOp.synced_spares (hlog e (by simp)) h
    rw [← hend]
    exact hkeeps.run (ih fun e' he' => hlog e' (by simp [he']))

namespace SyncedScript

/-- A client stays in the files of its ids. -/
theorem program_stays {script : SyncedScript} (howns : NoneShared owns)
    (hscript : script.Keeps (owns k)) :
    (script.program P reader S).StaysIn (cachedOf owns) k := by
  induction script with
  | stop => trivial
  | call op flushed next ih =>
    rw [program]
    apply (PmemOp.synced_stays howns hscript.1).bind
    rintro (result | _)
    · exact (ih result (hscript.2 result)).bind fun _ => trivial
    · trivial

/-- A client that spares a durable file keeps it durable. -/
theorem program_spares {script : SyncedScript} (hscript : script.Spares name) :
    (script.program P reader S).Preserves (CachedFiles.Durable name v) := by
  induction script with
  | stop => trivial
  | call op flushed next ih =>
    have hop : (op.synced P reader S flushed).Preserves (CachedFiles.Durable name v) :=
      PmemOp.synced_spares (J := fun x => x.1 = some v ∧ x.2.1 = true ∧ x.2.2 = true) hscript.1
        (keptWith_durable P name v)
    rw [program]
    apply hop.bind
    rintro (result | _)
    · exact (ih result (hscript.2 result)).bind fun _ => trivial
    · trivial

/-- Alone, a client runs through the operations that it asks for. -/
theorem run_program (P : Platform) (reader : MessageReader) (S : FileStorage)
    (script : SyncedScript) (σ : CachedFiles) :
    Run (SyncedStep P reader S) σ ((script.program P reader S).run σ).1
      ((script.program P reader S).run σ).2 := by
  induction script generalizing σ with
  | stop => exact Run.nil
  | call op flushed next ih =>
    rw [program, run_bind]
    rcases hop : (op.synced P reader S flushed).run σ with ⟨result | _, τ⟩
    · rw [run_bind]
      exact Run.cons hop (ih result τ)
    · exact Run.single hop

end SyncedScript

/-- That a file is durable can be seen in the part of the client that has it. -/
theorem durable_iff {hname : name ∈ owns k} :
    σ.Durable name v ↔ cachedOf owns k σ ⟨name, hname⟩ = (some v, true, true) := by
  simp [CachedFiles.Durable, cachedOf]

end Clients

/-- Whenever the power fails after client `k` has come as far as `turns` of its turns, this is found
of the file. -/
def SurvivesFailures {κ α : Type*} [DecidableEq κ] (start : Threads κ CachedFiles α) (k : κ)
    (turns : ℕ) (name : Bytes) (file : Option Bytes) : Prop :=
  ∀ order finish, Run TakesTurn start order finish → turns ≤ order.count k →
    ∀ found, finish.state.Image found → found name = file

/-- **What is stored survives a power failure exactly where the entry of its file does.** Any number
of clients of a file storage with ids of their own, which name files of one directory, take turns
at their system calls and memory accesses. Once the `store` of one of them has returned, with the
call that makes its file durable served, and if this client neither stores nor frees the id again
afterwards, a power failure at any later moment leaves the file as it is, if and only if the
platform makes the entries of files durable, or the file was there with a durable entry before
this client began, and it has never removed it. -/
theorem store_survives_iff {κ : Type*} [DecidableEq κ] {owns : κ → Set Bytes} {P : Platform}
    {reader : MessageReader} {S : FileStorage} {start : Threads κ CachedFiles (List SyncedEvent)}
    {k : κ} {first : SyncedScript} {rest : List SyncedEvent → SyncedScript} {name : Bytes}
    (howns : NoneShared owns) (hname : name ∈ owns k) (hfirst : first.Keeps (owns k))
    (hothers : ∀ j, j ≠ k → ∃ script : SyncedScript, script.Keeps (owns j) ∧
      start.programs j = script.program P reader S)
    (hk : start.programs k =
      (first.program P reader S).bind fun log => (rest log).program P reader S)
    {log pre post : List SyncedEvent} {e : SyncedEvent} {τ : CachedFiles}
    (halone : (first.program P reader S).run start.state = (log, τ))
    (hlog : log = pre ++ e :: post) (he : e.Stores P S name)
    (hpost : ∀ e' ∈ post, e'.op.Spares name) (hrest : (rest log).Spares name) :
    SurvivesFailures start k ((first.program P reader S).steps start.state) name
        (τ.cache.files name) ↔
      P.entries = true ∨ (start.state.Listed name ∧ ∀ e' ∈ log, ¬e'.op.Removes name) := by
  have hrun := SyncedScript.run_program P reader S first start.state
  rw [halone] at hrun
  obtain ⟨before, hpre, hafter⟩ := (hlog ▸ hrun).split
  obtain ⟨stored, hstep, hlater⟩ := hafter.cons_inv
  obtain ⟨useMmap, id, v, a, bytes, hop, rfl, hflush, hending⟩ := he
  obtain ⟨hfile, hbytes, hentry⟩ : stored.Flushed P (cStr id) := by
    rw [SyncedStep, hop, hending] at hstep
    have hflushed := PMEM.syncedStore_flushed hflush (congrArg Prod.fst hstep)
    have hend : ((PMEM.syncedStore P v.ser useMmap v.T S id e.flushed v.src a).run before).2 =
        stored := congrArg Prod.snd hstep
    rwa [hend] at hflushed
  constructor
  · intro hsurvives
    by_contra hneither
    rw [not_or, Bool.not_eq_true] at hneither
    obtain ⟨hP, hnever⟩ := hneither
    have hthere : (τ.cache.files (cStr id)).isSome = true :=
      run_spares (J := fun x => x.1.isSome = true) hlater hpost (keptWith_present P _) hfile
    have hnot : τ.entry (cStr id) = false := by
      by_contra hlisted
      rw [Bool.not_eq_false] at hlisted
      exact hnever ((listed_run hrun).2 hP ⟨hlisted, hthere⟩)
    have hreached := Threads.exists_steps hk
    rw [halone] at hreached
    obtain ⟨found, himage, hfound⟩ := CachedFiles.exists_image_without hnot
    have hsame := hsurvives _ _ hreached (by simp) found himage
    rw [← hsame, hfound] at hthere
    cases hthere
  · intro hdurable order finish hturns hcount found hfound
    have hlisted : stored.entry (cStr id) = true := by
      rcases hdurable with hP | ⟨hstart, hnever⟩
      · exact hentry hP
      · have hprefix : Run (SyncedStep P reader S) start.state (pre ++ [e]) stored :=
          hpre.snoc hstep
        refine ((listed_run hprefix).1 hstart fun e' he' => hnever e' ?_).1
        rw [hlog]
        rcases List.mem_append.mp he' with he' | he'
        · simp [he']
        · simp [List.mem_singleton.mp he']
    obtain ⟨w, hw⟩ := Option.isSome_iff_exists.mp hfile
    have hτ : τ.Durable (cStr id) w :=
      run_spares (J := fun x => x.1 = some w ∧ x.2.1 = true ∧ x.2.2 = true) hlater hpost
        (keptWith_durable P _ w) ⟨hw, hbytes, hlisted⟩
    rw [hτ.1]
    have hreach : cachedOf owns k ((first.program P reader S).run start.state).2
        ⟨cStr id, hname⟩ = (some w, true, true) := by
      rw [halone]
      exact durable_iff.mp hτ
    have hkept : ((rest ((first.program P reader S).run start.state).1).program P reader
        S).Preserves fun σ => cachedOf owns k σ ⟨cStr id, hname⟩ = (some w, true, true) := by
      rw [halone]
      have hspares : ((rest log).program P reader S).Preserves
          (CachedFiles.Durable (cStr id) w) := SyncedScript.program_spares hrest
      rwa [show CachedFiles.Durable (cStr id) w = _ from funext fun _ => propext durable_iff]
        at hspares
    have hstay (j : κ) (hj : j ≠ k) : (start.programs j).StaysIn (cachedOf owns) j := by
      obtain ⟨script, hkeeps, hscript⟩ := hothers j hj
      rw [hscript]
      exact SyncedScript.program_stays howns hkeeps
    have hfinish := Threads.after_steps
      (I := fun files => files ⟨cStr id, hname⟩ = (some w, true, true)) hk
      (SyncedScript.program_stays howns hfirst) hstay hreach hkept hturns hcount
    exact (durable_iff.mpr hfinish).image hfound

/-- A client stores a byte, in mmap mode or not. -/
def storeSynced (useMmap : Bool) : SyncedScript :=
  .call (.store useMmap [if useMmap then 98 else 97] ⟨.noSerializer, .uint8, .array 1 [7]⟩
    ⟨none, none, .served 3, []⟩) true fun _ => .stop

/-- Two clients store a byte each, where there are no files. The first one then stops. -/
def storeEachSynced (P : Platform) : Threads Bool CachedFiles (List SyncedEvent) where
  state := ⟨.empty, fun _ => false, fun _ => false⟩
  programs
    | false => ((storeSynced false).program P (capnpReader fun _ => 0) .posix).bind fun _ => done []
    | true => (storeSynced true).program P (capnpReader fun _ => 0) .posix

/-- Once the byte is stored, it survives if the platform makes entries durable, and only then. -/
theorem store_survives_iff_fresh :
    SurvivesFailures (storeEachSynced ⟨false, true⟩) false 4 [97] (some [7]) ∧
      ¬SurvivesFailures (storeEachSynced ⟨false, false⟩) false 4 [97] (some [7]) := by
  have howns : NoneShared fun k : Bool => {[if k then (98 : UInt8) else 97]} := by
    intro j k hjk
    cases j <;> cases k <;> simp_all
  have hkeeps (k : Bool) : (storeSynced k).Keeps {[if k then (98 : UInt8) else 97]} :=
    ⟨by cases k <;> rfl, fun _ => trivial⟩
  have hothers (P : Platform) (j : Bool) (hj : j ≠ false) : ∃ script : SyncedScript,
      script.Keeps {[if j then (98 : UInt8) else 97]} ∧ (storeEachSynced P).programs j =
        script.program P (capnpReader fun _ => 0) .posix := by
    obtain rfl : j = true := by simpa using hj
    exact ⟨storeSynced true, hkeeps true, rfl⟩
  let event : SyncedEvent :=
    ⟨.store false [97] ⟨.noSerializer, .uint8, .array 1 [7]⟩ ⟨none, none, .served 3, []⟩, true,
      .returned (.ok [])⟩
  have hstores (P : Platform) : event.Stores P .posix [97] :=
    ⟨false, [97], _, _, [], rfl, rfl, rfl, rfl⟩
  have hstart (P : Platform) :
      (((storeSynced false).program P (capnpReader fun _ => 0) .posix).run
        (storeEachSynced P).state).1 = [event] ∧
      (((storeSynced false).program P (capnpReader fun _ => 0) .posix).run
        (storeEachSynced P).state).2.cache.files [97] = some [7] ∧
      ((storeSynced false).program P (capnpReader fun _ => 0) .posix).steps
        (storeEachSynced P).state = 4 := by
    unfold storeSynced
    rw [SyncedScript.program]
    exact ⟨rfl, rfl, rfl⟩
  have hnext (P : Platform) : (storeEachSynced P).programs false =
      ((storeSynced false).program P (capnpReader fun _ => 0) .posix).bind fun log =>
        ((fun _ => .stop : List SyncedEvent → SyncedScript) log).program P (capnpReader fun _ => 0)
          .posix := rfl
  have hlog : [event] = [] ++ event :: [] := rfl
  have hnone : ∀ e ∈ ([] : List SyncedEvent), e.op.Spares [97] := by simp
  have hstop : SyncedScript.stop.Spares [97] := trivial
  have hsurvives (P : Platform) : SurvivesFailures (storeEachSynced P) false 4 [97] (some [7]) ↔
      P.entries = true ∨ ((storeEachSynced P).state.Listed [97] ∧
        ∀ e ∈ [event], ¬e.op.Removes [97]) := by
    obtain ⟨hevents, hfile, hsteps⟩ := hstart P
    rw [← hsteps, ← hfile]
    exact store_survives_iff howns rfl (hkeeps false) (hothers P) (hnext P) (Prod.ext hevents rfl)
      hlog (hstores P) hnone hstop
  refine ⟨(hsurvives ⟨false, true⟩).mpr (Or.inl rfl), ?_⟩
  intro hfails
  rcases (hsurvives ⟨false, false⟩).mp hfails with h | ⟨⟨h, _⟩, _⟩ <;> cases h

end Pmemcpy
