import Pmemcpy.Lib.Progress
import Pmemcpy.Files.Programs

/-!
# What the file storages make durable

System calls and memory accesses change the page cache. What the medium has of a file is
known again after a call that makes the file durable: `store` ends with an `fsync`, and a
mapping with an `msync` or a `pmem_persist`. None of them promises that the entry of a new
file in its directory is durable as well.
-/

namespace Pmemcpy

open Lib Program

/-- The calls that make a file durable. -/
inductive SyncCall where
  | fsync
  | msync
  | pmemPersist
  deriving DecidableEq, Repr

/-- What a platform adds to the documentation of these calls: whether the directory is on persistent
memory, and whether a file is made durable together with its entry in the directory. -/
structure Platform where
  pmem : Bool
  entries : Bool
  deriving DecidableEq, Repr

/-- `pmem_persist` is about persistent memory only. -/
def Platform.covers (P : Platform) : SyncCall → Bool
  | .fsync => true
  | .msync => true
  | .pmemPersist => P.pmem

/-- The files in the page cache. For some of them the medium is known to have the same bytes, and
for some names its directory is known to have an entry exactly if there is a file. -/
structure CachedFiles where
  cache : FileSystem
  bytes : Bytes → Bool
  entry : Bytes → Bool

namespace CachedFiles

/-- An action on the cache: of what it changes, the medium may have the old state or the new one. -/
def after (effect : FileSystem → FileSystem) (σ : CachedFiles) : CachedFiles where
  cache := effect σ.cache
  bytes name := σ.bytes name && decide ((effect σ.cache).files name = σ.cache.files name)
  entry name :=
    σ.entry name && (((effect σ.cache).files name).isSome == (σ.cache.files name).isSome)

/-- A file is made durable. -/
def sync (P : Platform) (c : SyncCall) (name : Bytes) (σ : CachedFiles) : CachedFiles :=
  if P.covers c then
    { σ with
      bytes := Function.update σ.bytes name true
      entry := Function.update σ.entry name
        (σ.entry name || (P.entries && (σ.cache.files name).isSome)) }
  else σ

/-- The files that may be found after a power failure. -/
def Image (σ : CachedFiles) (found : Bytes → Option Bytes) : Prop :=
  ∀ name, σ.entry name = true → (found name).isSome = (σ.cache.files name).isSome ∧
    (σ.bytes name = true → found name = σ.cache.files name)

/-- The file is there, and its entry is durable. -/
def Listed (name : Bytes) (σ : CachedFiles) : Prop :=
  σ.entry name = true ∧ (σ.cache.files name).isSome = true

/-- The file has these contents, and is durable with its entry. -/
def Durable (name v : Bytes) (σ : CachedFiles) : Prop :=
  σ.cache.files name = some v ∧ σ.bytes name = true ∧ σ.entry name = true

/-- A durable file is found with its contents after every power failure. -/
theorem Durable.image {name v : Bytes} {σ : CachedFiles} {found : Bytes → Option Bytes}
    (h : σ.Durable name v) (hfound : σ.Image found) : found name = some v := by
  obtain ⟨hfile, hbytes, hentry⟩ := h
  rw [(hfound name hentry).2 hbytes, hfile]

/-- Without a durable entry the file may not be found. -/
theorem exists_image_without {name : Bytes} {σ : CachedFiles} (h : σ.entry name = false) :
    ∃ found, σ.Image found ∧ found name = none := by
  refine ⟨Function.update σ.cache.files name none, ?_, Function.update_self ..⟩
  intro other hother
  have hne : other ≠ name := by
    rintro rfl
    rw [h] at hother
    cases hother
  rw [Function.update_of_ne hne]
  exact ⟨rfl, fun _ => rfl⟩

end CachedFiles

/-- A program on the cache. -/
abbrev Lib.Program.cached {α : Type*} (p : Program FileSystem α) : Program CachedFiles α :=
  p.lift CachedFiles.cache CachedFiles.after

/-- A call that makes a file durable, unless it fails. -/
def syncCall (P : Platform) (c : SyncCall) (name : Bytes) (answer : Bool) :
    Program CachedFiles Unit :=
  call fun σ => ((), if answer then σ.sync P c name else σ)

section Operations

variable (P : Platform) (id : Bytes) (a : SysAnswers) (flushed : Bool)

/-- `store` of both storages: whether its `fsync` fails is not looked at. -/
def syncedStoreFile (src : Bytes) : Program CachedFiles (Except Failure Unit) :=
  (openCreateCall (cStr id) a.openFd).cached.bind fun fd =>
    match fd with
    | none => done (.error (.thrown .posixOpenFailed))
    | some fd => (call fun s => s.write (cStr id) src a.write).cached.bind fun ret =>
      if ret = some src.length then
        (syncCall P .fsync (cStr id) flushed).bind fun _ =>
          (closeCall fd).cached.bind fun _ => done (.ok ())
      else (closeCall fd).cached.bind fun _ => done (.error (.thrown .posixWriteFailed))

/-- `load` of both storages: that of `FilesystemPMDKStorage` ends with an `fsync`. -/
def syncedLoadFile (S : FileStorage) : Program CachedFiles (Except Failure Bytes) :=
  (openCreateCall (cStr id) a.openFd).cached.bind fun fd =>
    match fd with
    | none => done (.error (.thrown .posixReadFailed))
    | some fd => (call fun s => (s.fileSize (cStr id) a.fileSize, s)).cached.bind fun len =>
      match len with
      | none => done (.error .foreign)
      | some len => (call fun s => (s.read (cStr id) len a.read, s)).cached.bind fun buffer =>
        match buffer with
        | none => (closeCall fd).cached.bind fun _ => done (.error (.thrown .posixReadFailed))
        | some buffer =>
          if len ≠ buffer.length then
            (closeCall fd).cached.bind fun _ => done (.error (.thrown .posixReadFailed))
          else if S = .pmdkFs then
            (syncCall P .fsync (cStr id) flushed).bind fun _ =>
              (closeCall fd).cached.bind fun _ => done (.ok buffer)
          else (closeCall fd).cached.bind fun _ => done (.ok buffer)

/-- How an operation of a process ends: it returns or throws, or the process has exited. -/
inductive Ending where
  | returned (result : Except Failure Bytes)
  | exited
  deriving DecidableEq

/-- `~mmap_buffer`, at the end of an operation with this result: an `msync` that fails ends the
process. -/
def dropBuffer (S : FileStorage) (buf : MmapBuffer) (result : Except Failure Bytes) :
    Program CachedFiles Ending :=
  match buf.mapping with
  | none => done (.returned result)
  | some m =>
    match S with
    | .posix => (syncCall P .msync m.name flushed).bind fun _ =>
      done (if flushed then .returned result else .exited)
    | .pmdkFs => (syncCall P .pmemPersist m.name true).bind fun _ => done (.returned result)

end Operations

/-! ### What the operations do to the cache -/

/-- A program on cached files that does to the cache what a program on files does. -/
def Does {α : Type*} (q : Program CachedFiles α) (p : Program FileSystem α) : Prop :=
  ∀ σ, (q.run σ).1 = (p.run σ.cache).1 ∧ (q.run σ).2.cache = (p.run σ.cache).2

section Do

variable {α β : Type*} {P : Platform} {id : Bytes} {a : SysAnswers} {flushed : Bool}

/-- Carried out in the cache, a program does what it does to the files. -/
theorem does_cached (p : Program FileSystem α) : Does p.cached p := fun σ =>
  run_lift (fun _ _ => rfl) σ

/-- A program that is over does what one does that is over with the same result. -/
theorem does_done (result : α) : Does (done result) (done result) := fun _ => ⟨rfl, rfl⟩

/-- What programs do one after another is what they do each. -/
theorem Does.bind {q : Program CachedFiles α} {p : Program FileSystem α}
    {g : α → Program CachedFiles β} {f : α → Program FileSystem β} (hp : Does q p)
    (hf : ∀ a, Does (g a) (f a)) : Does (q.bind g) (p.bind f) := by
  intro σ
  obtain ⟨hresult, hcache⟩ := hp σ
  have hnext := hf (q.run σ).1 (q.run σ).2
  rw [run_bind, run_bind, ← hresult, ← hcache]
  exact hnext

/-- Making a file durable changes nothing in the cache. -/
theorem cache_sync (P : Platform) (c : SyncCall) (name : Bytes) (σ : CachedFiles) :
    (σ.sync P c name).cache = σ.cache := by
  unfold CachedFiles.sync
  split <;> rfl

/-- A call that makes a file durable does nothing to the cache. -/
theorem Does.syncCall {q : Program CachedFiles α} {p : Program FileSystem α} (c : SyncCall)
    (name : Bytes) (h : Does q p) : Does ((syncCall P c name flushed).bind fun _ => q) p := by
  intro σ
  have hcache : (if flushed then σ.sync P c name else σ).cache = σ.cache := by
    split
    · exact cache_sync P c name σ
    · rfl
  have hq := h (if flushed then σ.sync P c name else σ)
  rw [hcache] at hq
  exact hq

/-- `store` with its `fsync` does to the cache what `store` does to the files. -/
theorem syncedStoreFile_does (src : Bytes) :
    Does (syncedStoreFile P id a flushed src) (storeProgram id a src) := by
  refine (does_cached _).bind ?_
  rintro (_ | fd)
  · exact does_done _
  · refine (does_cached _).bind ?_
    rintro (_ | ret)
    · exact (does_cached _).bind fun _ => does_done _
    · by_cases hlen : src.length = ret
      · subst hlen
        simp only [ne_eq, not_true_eq_false, if_false, if_true]
        exact ((does_cached _).bind fun _ => does_done _).syncCall _ _
      · simp only [hlen, ne_eq, not_false_eq_true, if_true, Option.some.injEq, Ne.symm hlen,
          if_false]
        exact (does_cached _).bind fun _ => does_done _

/-- `load` with its `fsync` does to the cache what `load` does to the files. -/
theorem syncedLoadFile_does (S : FileStorage) :
    Does (syncedLoadFile P id a flushed S) (loadProgram id a) := by
  refine (does_cached _).bind ?_
  rintro (_ | fd)
  · exact does_done _
  · refine (does_cached _).bind ?_
    rintro (_ | len)
    · exact does_done _
    · refine (does_cached _).bind ?_
      rintro (_ | buffer)
      · exact (does_cached _).bind fun _ => does_done _
      · by_cases hlen : len = buffer.length
        · simp only [hlen, ne_eq, not_true_eq_false, if_false]
          split
          · exact ((does_cached _).bind fun _ => does_done _).syncCall _ _
          · exact (does_cached _).bind fun _ => does_done _
        · simp only [hlen, ne_eq, not_false_eq_true, if_true]
          exact (does_cached _).bind fun _ => does_done _

/-- A buffer is dropped without a change of the cache. It ends the process only if it is one of
`PosixStorage` and its `msync` fails. -/
theorem run_dropBuffer (P : Platform) (flushed : Bool) (S : FileStorage) (buf : MmapBuffer)
    (result : Except Failure Bytes) (σ : CachedFiles) :
    ((dropBuffer P flushed S buf result).run σ).2.cache = σ.cache ∧
      (((dropBuffer P flushed S buf result).run σ).1 = .returned result ∨
        ((dropBuffer P flushed S buf result).run σ).1 = .exited ∧ S = .posix ∧
          flushed = false) := by
  unfold dropBuffer
  cases buf.mapping with
  | none => exact ⟨rfl, Or.inl rfl⟩
  | some m =>
    cases S with
    | posix =>
      cases flushed with
      | false => exact ⟨rfl, Or.inr ⟨rfl, rfl, rfl⟩⟩
      | true => exact ⟨cache_sync P .msync m.name σ, Or.inl rfl⟩
    | pmdkFs => exact ⟨cache_sync P .pmemPersist m.name σ, Or.inl rfl⟩

end Do

/-! ### The file that an operation stays in -/

/-- The files of some names, and what is durable of them. -/
def cachedOf {κ : Type*} (owns : κ → Set Bytes) (k : κ) (σ : CachedFiles) :
    owns k → Option Bytes × Bool × Bool :=
  fun name => (σ.cache.files name, σ.bytes name, σ.entry name)

section Stay

variable {κ α : Type*} {owns : κ → Set Bytes} {k : κ} {P : Platform} {id : Bytes} {a : SysAnswers}
  {flushed : Bool} {S : FileStorage}

/-- A program that stays at its files leaves alone what is durable of the others. -/
theorem cached_stays {p : Program FileSystem α} (hp : p.StaysIn (filesOf owns) k) :
    p.cached.StaysIn (cachedOf owns) k := by
  refine hp.lift ?_ ?_ ?_
  · intro σ τ hστ
    funext name
    exact congrArg Prod.fst (congrFun hστ name)
  · intro effect heffect σ τ hστ
    have hfiles : filesOf owns k σ.cache = filesOf owns k τ.cache := by
      funext name
      exact congrArg Prod.fst (congrFun hστ name)
    have hafter := heffect _ _ hfiles
    funext name
    have hold : σ.cache.files name = τ.cache.files name := congrFun hfiles name
    have hnew : (effect σ.cache).files name = (effect τ.cache).files name := congrFun hafter name
    obtain ⟨_, hflags⟩ := Prod.mk.inj (congrFun hστ name)
    obtain ⟨hbytes, hentry⟩ := Prod.mk.inj hflags
    simp only [cachedOf, CachedFiles.after, hold, hnew, hbytes, hentry]
  · intro effect j heffect σ
    funext name
    have hkept : (effect σ.cache).files name = σ.cache.files name := congrFun (heffect σ.cache) name
    simp only [cachedOf, CachedFiles.after, hkept, decide_true, Bool.and_true, BEq.rfl]

/-- A call that makes a file durable stays in the files of the client that has it. -/
theorem syncCall_stays (howns : NoneShared owns) {name : Bytes} (hname : name ∈ owns k)
    (c : SyncCall) (answer : Bool) : (syncCall P c name answer).StaysIn (cachedOf owns) k := by
  unfold syncCall
  cases answer with
  | false => exact ⟨fun _ _ h => ⟨h, rfl⟩, fun _ _ _ => rfl, fun _ => trivial⟩
  | true =>
    refine ⟨?_, ?_, fun _ => trivial⟩
    · intro σ τ hστ
      refine ⟨?_, rfl⟩
      funext other
      have hfile : σ.cache.files name = τ.cache.files name :=
        congrArg Prod.fst (congrFun hστ ⟨name, hname⟩)
      have hentry : σ.entry name = τ.entry name :=
        congrArg (fun x => x.2.2) (congrFun hστ ⟨name, hname⟩)
      have hother := congrFun hστ other
      obtain ⟨hfile', hflags⟩ := Prod.mk.inj hother
      obtain ⟨hbytes', hentry'⟩ := Prod.mk.inj hflags
      cases hcovers : P.covers c with
      | false => simpa [CachedFiles.sync, hcovers] using hother
      | true =>
        simp only [cachedOf, CachedFiles.sync, hcovers, if_true, Function.update_apply, hfile',
          hbytes', hentry', hfile, hentry]
    · intro σ j hj
      funext other
      have hne : (other : Bytes) ≠ name := by
        intro heq
        exact howns j k hj other other.2 (heq ▸ hname)
      cases hcovers : P.covers c with
      | false => simp [CachedFiles.sync, hcovers]
      | true => simp [cachedOf, CachedFiles.sync, hcovers, Function.update_of_ne hne]

section Programs

variable (howns : NoneShared owns) (hid : cStr id ∈ owns k)
include howns hid

/-- `store` with its `fsync` stays in the files of the client that has its id. -/
theorem syncedStoreFile_stays (src : Bytes) :
    (syncedStoreFile P id a flushed src).StaysIn (cachedOf owns) k := by
  refine (cached_stays ((actsOn_openCreate _ _).staysIn howns hid)).bind ?_
  rintro (_ | fd)
  · trivial
  · have hclose := cached_stays ((actsOn_close (cStr id) fd).staysIn howns hid)
    refine (cached_stays ((actsOn_write _ _ _).staysIn howns hid)).bind fun ret => ?_
    split
    · exact (syncCall_stays howns hid _ _).bind fun _ => hclose.bind fun _ => trivial
    · exact hclose.bind fun _ => trivial

/-- `load` with its `fsync` stays in the files of the client that has its id. -/
theorem syncedLoadFile_stays : (syncedLoadFile P id a flushed S).StaysIn (cachedOf owns) k := by
  refine (cached_stays ((actsOn_openCreate _ _).staysIn howns hid)).bind ?_
  rintro (_ | fd)
  · trivial
  · have hclose := cached_stays ((actsOn_close (cStr id) fd).staysIn howns hid)
    refine (cached_stays ((actsOn_fileSize _ _).staysIn howns hid)).bind ?_
    rintro (_ | len)
    · trivial
    · refine (cached_stays ((actsOn_fileRead _ _ _).staysIn howns hid)).bind ?_
      rintro (_ | buffer)
      · exact hclose.bind fun _ => trivial
      · dsimp only
        split
        · exact hclose.bind fun _ => trivial
        · split
          · exact (syncCall_stays howns hid _ _).bind fun _ => hclose.bind fun _ => trivial
          · exact hclose.bind fun _ => trivial

end Programs

/-- Releasing a buffer stays in the files of the client that has the file of the buffer. -/
theorem dropBuffer_stays (howns : NoneShared owns) {buf : MmapBuffer}
    (hbuf : ∀ m ∈ buf.mapping, m.name ∈ owns k) (result : Except Failure Bytes) :
    (dropBuffer P flushed S buf result).StaysIn (cachedOf owns) k := by
  unfold dropBuffer
  cases hmapping : buf.mapping with
  | none => trivial
  | some m =>
    have hm := hbuf m hmapping
    cases S with
    | posix => exact (syncCall_stays howns hm _ _).bind fun _ => trivial
    | pmdkFs => exact (syncCall_stays howns hm _ _).bind fun _ => trivial

end Stay

/-! ### What an operation keeps of its file -/

/-- What is kept of the cached files where something is kept of a file in the cache. -/
structure KeptWith (P : Platform) (name : Bytes) (I : Option Bytes → Prop)
    (J : CachedFiles → Prop) : Prop where
  present : ∀ v, I v → v.isSome = true
  cached : ∀ {α : Type} (p : Program FileSystem α),
    p.Preserves (fun s => I (s.files name)) → p.cached.Preserves J
  sync : ∀ c answer, (syncCall P c name answer).Preserves J

section Keep

variable {P : Platform} {name id v : Bytes} {I : Option Bytes → Prop} {J : CachedFiles → Prop}
  {a : SysAnswers} {flushed : Bool} {S : FileStorage}

/-- That a file is durable with these contents is kept by whatever keeps the contents. -/
theorem keptWith_durable (P : Platform) (name v : Bytes) :
    KeptWith P name (fun file => file = some v) (CachedFiles.Durable name v) where
  present := by
    rintro _ rfl
    rfl
  cached p hp := by
    refine hp.lift fun effect heffect σ hσ => ?_
    obtain ⟨hold, hbytes, hentry⟩ := hσ
    have hfile : (effect σ.cache).files name = some v := heffect _ hold
    exact ⟨hfile, by simp [CachedFiles.after, hfile, hold, hbytes],
      by simp [CachedFiles.after, hfile, hold, hentry]⟩
  sync c answer := by
    refine preserves_call fun σ hσ => ?_
    cases answer with
    | false => exact hσ
    | true =>
      obtain ⟨hfile, hbytes, hentry⟩ := hσ
      refine ⟨(congrArg (fun s => s.files name) (cache_sync P c name σ)).trans hfile, ?_, ?_⟩
      · cases hcovers : P.covers c <;> simp [CachedFiles.sync, hcovers, hbytes]
      · cases hcovers : P.covers c <;> simp [CachedFiles.sync, hcovers, hentry]

/-- That a file has a durable entry is kept by whatever does not remove the file. -/
theorem keptWith_listed (P : Platform) (name : Bytes) :
    KeptWith P name (fun file => file.isSome = true) (CachedFiles.Listed name) where
  present _ h := h
  cached p hp := by
    refine hp.lift fun effect heffect σ hσ => ?_
    have hfile : ((effect σ.cache).files name).isSome = true := heffect _ hσ.2
    exact ⟨by simp [CachedFiles.after, hfile, hσ.1, hσ.2], hfile⟩
  sync c answer := by
    refine preserves_call fun σ hσ => ?_
    cases answer with
    | false => exact hσ
    | true =>
      refine ⟨?_, (congrArg (fun s => (s.files name).isSome) (cache_sync P c name σ)).trans hσ.2⟩
      cases hcovers : P.covers c <;> simp [CachedFiles.sync, hcovers, hσ.1]

/-- That a file is there is kept by whatever does not remove the file. -/
theorem keptWith_present (P : Platform) (name : Bytes) :
    KeptWith P name (fun file => file.isSome = true)
      fun σ => (σ.cache.files name).isSome = true where
  present _ h := h
  cached p hp := hp.lift fun effect heffect σ hσ => heffect _ hσ
  sync c answer := by
    refine preserves_call fun σ hσ => ?_
    cases answer with
    | false => exact hσ
    | true => exact (congrArg (fun s => (s.files name).isSome) (cache_sync P c name σ)).trans hσ

/-- Where the platform does not make entries durable, none becomes so. -/
theorem keptWith_notListed (hP : P.entries = false) (name : Bytes) :
    KeptWith P name (fun _ => False) (fun σ => ¬σ.Listed name) where
  present _ h := h.elim
  cached p hp := by
    refine hp.lift fun effect _ σ hσ hlisted => ?_
    obtain ⟨hentry, hfile⟩ := hlisted
    simp only [CachedFiles.after, Bool.and_eq_true, beq_iff_eq] at hentry hfile
    exact hσ ⟨hentry.1, hentry.2 ▸ hfile⟩
  sync c answer := by
    refine preserves_call fun σ hσ => ?_
    cases answer with
    | false => exact hσ
    | true =>
      rintro ⟨hentry, hfile⟩
      apply hσ
      cases hcovers : P.covers c <;>
        simp [CachedFiles.sync, hcovers, hP] at hentry hfile <;> exact ⟨hentry, hfile⟩

/-- Opening a file that may be created keeps what holds of files that are there. -/
theorem openCreate_preserves (hI : ∀ v, I v → v.isSome = true) (fd : Option ℕ) :
    (openCreateCall name fd).Preserves fun s => I (s.files name) := by
  refine preserves_call fun s hs => ?_
  cases fd with
  | none => exact hs
  | some fd =>
    obtain ⟨v, hv⟩ := Option.isSome_iff_exists.mp (hI _ hs)
    have hsame := FileSystem.put_eq_self (s := s) hv
    rw [← FileSystem.contents_eq hv] at hsame
    show I ((s.put name (some (s.contents name))).files name)
    rwa [hsame]

/-- A call that changes nothing keeps everything. -/
theorem read_preserves {α : Type} {I : FileSystem → Prop} (f : FileSystem → α) :
    (call fun s => (f s, s)).Preserves I := preserves_call fun _ hs => hs

/-- Closing a descriptor keeps what holds of a file. -/
theorem close_preserves (fd : ℕ) : (closeCall fd).Preserves fun s => I (s.files name) :=
  preserves_call fun _ hs => hs

/-- `load` with its `fsync` keeps what is kept with its file. -/
theorem syncedLoadFile_preserves (h : KeptWith P (cStr id) I J) :
    (syncedLoadFile P id a flushed S).Preserves J := by
  refine (h.cached _ (openCreate_preserves h.present _)).bind ?_
  rintro (_ | fd)
  · trivial
  · have hclose := h.cached _ (close_preserves fd)
    refine (h.cached _ (read_preserves _)).bind ?_
    rintro (_ | len)
    · trivial
    · refine (h.cached _ (read_preserves _)).bind ?_
      rintro (_ | buffer)
      · exact hclose.bind fun _ => trivial
      · dsimp only
        split
        · exact hclose.bind fun _ => trivial
        · split
          · exact (h.sync _ _).bind fun _ => hclose.bind fun _ => trivial
          · exact hclose.bind fun _ => trivial

/-- `store` keeps what does not depend on the contents of the file. -/
theorem syncedStoreFile_preserves (h : KeptWith P (cStr id) I J) (hI : ∀ v w, I v → I (some w))
    (src : Bytes) : (syncedStoreFile P id a flushed src).Preserves J := by
  refine (h.cached _ (openCreate_preserves h.present _)).bind ?_
  rintro (_ | fd)
  · trivial
  · have hclose := h.cached _ (close_preserves fd)
    have hwrite : (call fun s : FileSystem => s.write (cStr id) src a.write).Preserves
        fun s => I (s.files (cStr id)) := by
      refine preserves_call fun s hs => ?_
      unfold FileSystem.write
      cases a.write.count src.length with
      | none => exact hs
      | some n =>
        obtain ⟨v, hv⟩ := Option.isSome_iff_exists.mp (h.present _ hs)
        simp only [FileSystem.files_put_self, hv, Option.map_some]
        exact hI _ _ hs
    refine (h.cached _ hwrite).bind fun ret => ?_
    split
    · exact (h.sync _ _).bind fun _ => hclose.bind fun _ => trivial
    · exact hclose.bind fun _ => trivial

/-- Releasing a buffer keeps what is kept with its file. -/
theorem dropBuffer_preserves (h : KeptWith P name I J) {buf : MmapBuffer}
    (hbuf : ∀ m ∈ buf.mapping, m.name = name) (result : Except Failure Bytes) :
    (dropBuffer P flushed S buf result).Preserves J := by
  unfold dropBuffer
  cases hmapping : buf.mapping with
  | none => trivial
  | some m =>
    have hm := hbuf m hmapping
    rw [← hm] at h
    cases S with
    | posix => exact (h.sync _ _).bind fun _ => trivial
    | pmdkFs => exact (h.sync _ _).bind fun _ => trivial

/-! ### Mappings -/

/-- Reading through a mapping keeps everything. -/
theorem peekProgram_preserves {I : FileSystem → Prop} (m : Mapping) (i n : ℕ) :
    (peekProgram m i n).Preserves I := by
  induction n generalizing i with
  | zero => trivial
  | succ n ih =>
    refine (read_preserves _).bind ?_
    rintro (_ | b)
    · trivial
    · exact (ih (i + 1)).bind fun _ => trivial

/-- Reading a buffer keeps everything. -/
theorem MmapBuffer.bytesProgram_preserves {I : FileSystem → Prop} (buf : MmapBuffer) :
    buf.bytesProgram.Preserves I := by
  unfold MmapBuffer.bytesProgram
  split
  · trivial
  · cases buf.mapping with
    | none => trivial
    | some m =>
      refine (peekProgram_preserves m 0 m.size).bind ?_
      rintro (_ | v) <;> trivial

/-- `find` keeps what holds of the file of its id. -/
theorem FileStorage.findProgram_preserves (S : FileStorage) (id : Bytes) (a : SysAnswers) :
    (S.findProgram id a).Preserves fun s => I (s.files (cStr id)) := by
  cases S with
  | posix =>
    have hopen : (call fun s : FileSystem => s.openExisting (cStr id) a.openFd).Preserves
        fun s => I (s.files (cStr id)) := by
      refine preserves_call fun s hs => ?_
      unfold FileSystem.openExisting
      cases a.openFd with
      | none => exact hs
      | some fd => cases hfile : s.files (cStr id) <;> simpa [hfile] using hs
    refine hopen.bind ?_
    rintro (_ | fd)
    · trivial
    · exact (read_preserves _).bind fun _ => (close_preserves fd).bind fun _ => trivial
  | pmdkFs =>
    refine (read_preserves _).bind ?_
    rintro (_ | v)
    · trivial
    · refine (read_preserves _).bind ?_
      rintro (_ | m) <;> trivial

/-- Writing through a mapping keeps what no writing to the file can change. -/
theorem fillProgram_preserves (hI : ∀ v w, I v → I (some w)) (hsome : ∀ v, I v → v.isSome = true)
    (m : Mapping) (i : ℕ) (bytes : Bytes) :
    (fillProgram m i bytes).Preserves fun s => I (s.files m.name) := by
  induction bytes generalizing i with
  | nil => trivial
  | cons b bytes ih =>
    refine Preserves.bind (preserves_call fun s hs => ?_) fun _ => ih (i + 1)
    obtain ⟨v, hv⟩ := Option.isSome_iff_exists.mp (hsome _ hs)
    simp only [FileSystem.poke, FileSystem.files_put_self, hv, Option.map_some]
    exact hI _ _ hs

/-- Filling a buffer keeps what no writing to its file can change. -/
theorem MmapBuffer.fillProgram_preserves (hI : ∀ v w, I v → I (some w))
    (hsome : ∀ v, I v → v.isSome = true) {buf : MmapBuffer}
    (hbuf : ∀ m ∈ buf.mapping, m.name = name) (bytes : Bytes) :
    (buf.fillProgram bytes).Preserves fun s => I (s.files name) := by
  unfold MmapBuffer.fillProgram
  cases hmapping : buf.mapping with
  | none => trivial
  | some m =>
    obtain rfl := hbuf m hmapping
    exact Pmemcpy.fillProgram_preserves hI hsome m 0 bytes

/-- `alloc` keeps what no writing to its file can change. -/
theorem FileStorage.allocProgram_preserves (hI : ∀ v w, I v → I (some w))
    (hsome : ∀ v, I v → v.isSome = true) (S : FileStorage) (id : Bytes) (a : SysAnswers)
    (size : ℕ) : (S.allocProgram id a size).Preserves fun s => I (s.files (cStr id)) := by
  have hput {α : Type} (result : α) (w : FileSystem → Bytes) :
      (call fun s : FileSystem => (result, s.put (cStr id) (some (w s)))).Preserves
        fun s => I (s.files (cStr id)) := by
    refine preserves_call fun s hs => ?_
    rw [FileSystem.files_put_self]
    exact hI _ _ hs
  cases S with
  | posix =>
    have htruncate : (call fun s : FileSystem => s.ftruncate (cStr id) size a.ftruncate).Preserves
        fun s => I (s.files (cStr id)) := by
      refine preserves_call fun s hs => ?_
      unfold FileSystem.ftruncate
      cases a.ftruncate with
      | false => exact hs
      | true =>
        obtain ⟨v, hv⟩ := Option.isSome_iff_exists.mp (hsome _ hs)
        simp only [FileSystem.files_put_self, hv, Option.map_some]
        exact hI _ _ hs
    refine (openCreate_preserves hsome _).bind ?_
    rintro (_ | fd)
    · trivial
    · refine htruncate.bind ?_
      rintro (_ | _)
      · trivial
      · dsimp only
        cases FileSystem.mmap (cStr id) size a.mmap with
        | none => trivial
        | some m => exact (close_preserves fd).bind fun _ => trivial
  | pmdkFs =>
    rw [FileStorage.allocProgram, FilesystemPMDKStorage.allocProgram]
    by_cases hsize : size = 0
    · rw [if_pos hsize]
      trivial
    · rw [if_neg hsize]
      cases a.pmemMap with
      | notOpened => trivial
      | notResized => exact (hput () _).bind fun _ => trivial
      | notMapped => exact (hput () _).bind fun _ => (hput () _).bind fun _ => trivial
      | mapped => exact (hput () _).bind fun _ => (hput () _).bind fun _ => trivial

end Keep

end Pmemcpy
