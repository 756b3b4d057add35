import Pmemcpy.Lib.FileSystem
import Pmemcpy.Errors

/-!
# The storages with one file for each id

`PosixStorage` and `FilesystemPMDKStorage` keep the value of an id in a file of
that name below their directory. They share the code of `store`, `load` and
`free`, and differ in how they map a file.
-/

namespace Pmemcpy

open Lib

/-- What the system answers to the calls that one operation makes; none of them is made twice. -/
structure SysAnswers where
  openFd : Option ℕ
  ftruncate : Bool
  mmap : Bool
  write : Transfer
  fileSize : Bool
  read : Transfer
  remove : Bool
  pmemMap : PmemMapEnd
  deriving DecidableEq, Repr

/-- No system call fails, and every transfer is complete. -/
structure SysAnswers.Served (a : SysAnswers) : Prop where
  openFd : a.openFd.isSome
  ftruncate : a.ftruncate = true
  mmap : a.mmap = true
  write : a.write = .full
  fileSize : a.fileSize = true
  read : a.read = .full
  remove : a.remove = true
  pmemMap : a.pmemMap = .mapped

/-- An `mmap_buffer`: its mapping, if there is one, and its size. -/
structure MmapBuffer where
  mapping : Option Mapping
  size : ℕ
  deriving DecidableEq, Repr

namespace MmapBuffer

/-- The bytes of a buffer. Reading through a mapping that failed is undefined, unless
nothing is read. -/
def bytes (s : FileSystem) (buf : MmapBuffer) : Except Failure Bytes :=
  if buf.size = 0 then .ok []
  else
    match buf.mapping.bind s.readMapping with
    | some v => .ok v
    | none => .error .undefined

/-- Filling a buffer from its start. -/
def fill (s : FileSystem) (buf : MmapBuffer) (bytes : Bytes) : FileSystem :=
  match buf.mapping with
  | some m => s.writeMapping m bytes
  | none => s

end MmapBuffer

/-! ### The code that both storages have -/

section Shared

variable (s : FileSystem) (id : Bytes) (a : SysAnswers)

/-- `store` of both storages: the file is not truncated. -/
def storeFile (src : Bytes) : Except Failure Unit × FileSystem :=
  match s.openCreate (cStr id) a.openFd with
  | (none, s) => (.error (.thrown .posixOpenFailed), s)
  | (some fd, s) =>
    match s.write (cStr id) src a.write with
    | (none, s) => (.error (.thrown .posixWriteFailed), s.close fd)
    | (some ret, s) =>
      if src.length ≠ ret then (.error (.thrown .posixWriteFailed), s.close fd)
      else (.ok (), s.close fd)

/-- `load` of both storages: the file is created if it does not exist, and its
descriptor stays open when `file_size` throws. -/
def loadFile : Except Failure Bytes × FileSystem :=
  match s.openCreate (cStr id) a.openFd with
  | (none, s) => (.error (.thrown .posixReadFailed), s)
  | (some fd, s) =>
    match s.fileSize (cStr id) a.fileSize with
    | none => (.error .foreign, s)
    | some len =>
      match s.read (cStr id) len a.read with
      | none => (.error (.thrown .posixReadFailed), s.close fd)
      | some buffer =>
        if len ≠ buffer.length then (.error (.thrown .posixReadFailed), s.close fd)
        else (.ok buffer, s.close fd)

/-- `free` of both storages does not look whether `remove` fails. -/
def freeFile : Except Failure Unit × FileSystem := (.ok (), s.remove (cStr id) a.remove)

end Shared

namespace PosixStorage

variable (s : FileSystem) (id : Bytes) (a : SysAnswers)

/-- `alloc`. A descriptor whose file cannot be truncated or mapped stays open. -/
def alloc (size : ℕ) : Except Failure MmapBuffer × FileSystem :=
  match s.openCreate (cStr id) a.openFd with
  | (none, s) => (.error (.thrown .posixWriteFailed), s)
  | (some fd, s) =>
    match s.ftruncate (cStr id) size a.ftruncate with
    | (false, s) => (.error (.thrown .posixTruncateFailed), s)
    | (true, s) =>
      -- `mmap_buffer::alloc`
      match FileSystem.mmap (cStr id) size a.mmap with
      | none => (.error (.thrown .posixMmapFailed), s)
      | some m => (.ok ⟨some m, size⟩, s.close fd)

/-- `store`. -/
def store (src : Bytes) : Except Failure Unit × FileSystem := storeFile s id a src

/-- `find`. `mmap_buffer::load` does not look whether its mapping failed. -/
def find : Except Failure MmapBuffer × FileSystem :=
  match s.openExisting (cStr id) a.openFd with
  | (none, s) => (.error (.thrown .posixFindFailed), s)
  | (some fd, s) =>
    let size := (s.contents (cStr id)).length
    (.ok ⟨FileSystem.mmap (cStr id) size a.mmap, size⟩, s.close fd)

/-- `load`. -/
def load : Except Failure Bytes × FileSystem := loadFile s id a

/-- `free`. -/
def free : Except Failure Unit × FileSystem := freeFile s id a

end PosixStorage

namespace FilesystemPMDKStorage

variable (s : FileSystem) (id : Bytes) (a : SysAnswers)

/-- `alloc`. -/
def alloc (size : ℕ) : Except Failure MmapBuffer × FileSystem :=
  match s.pmemMapCreate (cStr id) size a.pmemMap with
  | (none, s) => (.error (.thrown .posixMmapFailed), s)
  | (some m, s) => (.ok ⟨some m, size⟩, s)

/-- `store`. -/
def store (src : Bytes) : Except Failure Unit × FileSystem := storeFile s id a src

/-- `find`. `mmap_buffer::load` throws when the file cannot be mapped. -/
def find : Except Failure MmapBuffer × FileSystem :=
  match s.files (cStr id) with
  | none => (.error (.thrown .posixFindFailed), s)
  | some _ =>
    match s.pmemMapWhole (cStr id) a.pmemMap with
    | none => (.error (.thrown .posixMmapFailed), s)
    | some m => (.ok ⟨some m, m.size⟩, s)

/-- `load`, with an `fsync` more than the one of `PosixStorage`. -/
def load : Except Failure Bytes × FileSystem := loadFile s id a

/-- `free`. -/
def free : Except Failure Unit × FileSystem := freeFile s id a

end FilesystemPMDKStorage

/-- The two storages with one file for each id. -/
inductive FileStorage where
  | posix
  | pmdkFs
  deriving DecidableEq, Repr

namespace FileStorage

/-- `alloc` of a file storage. -/
def alloc : FileStorage → FileSystem → Bytes → SysAnswers → ℕ →
    Except Failure MmapBuffer × FileSystem
  | posix => PosixStorage.alloc
  | pmdkFs => FilesystemPMDKStorage.alloc

/-- `store` of a file storage. -/
def store : FileStorage → FileSystem → Bytes → SysAnswers → Bytes →
    Except Failure Unit × FileSystem
  | posix => PosixStorage.store
  | pmdkFs => FilesystemPMDKStorage.store

/-- `find` of a file storage. -/
def find : FileStorage → FileSystem → Bytes → SysAnswers → Except Failure MmapBuffer × FileSystem
  | posix => PosixStorage.find
  | pmdkFs => FilesystemPMDKStorage.find

/-- `load` of a file storage. -/
def load : FileStorage → FileSystem → Bytes → SysAnswers → Except Failure Bytes × FileSystem
  | posix => PosixStorage.load
  | pmdkFs => FilesystemPMDKStorage.load

/-- `free` of a file storage. -/
def free : FileStorage → FileSystem → Bytes → SysAnswers → Except Failure Unit × FileSystem
  | posix => PosixStorage.free
  | pmdkFs => FilesystemPMDKStorage.free

/-- `find` as its caller uses it: the size of the buffer, and the bytes behind it. -/
def findBytes (S : FileStorage) (s : FileSystem) (id : Bytes) (a : SysAnswers) :
    Except Failure (ℕ × Bytes) × FileSystem :=
  match S.find s id a with
  | (.error e, s) => (.error e, s)
  | (.ok buf, s) => ((buf.bytes s).map fun v => (buf.size, v), s)

section Shared

variable (S : FileStorage) (s : FileSystem) (id : Bytes) (a : SysAnswers)

/-- `store` is the same code in both storages. -/
theorem store_eq_storeFile (src : Bytes) : S.store s id a src = storeFile s id a src := by
  cases S <;> rfl

/-- `load` is the same code in both storages. -/
theorem load_eq_loadFile : S.load s id a = loadFile s id a := by
  cases S <;> rfl

/-- `free` is the same code in both storages. -/
theorem free_eq_freeFile : S.free s id a = freeFile s id a := by
  cases S <;> rfl

end Shared

end FileStorage

/-! ### What each call does to the files -/

/-- How a `store` can end, and the files it leaves. -/
inductive StoreEffect (s : FileSystem) (name src : Bytes) :
    Except Failure Unit → (Bytes → Option Bytes) → Prop
  | notOpened : StoreEffect s name src (.error (.thrown .posixOpenFailed)) s.files
  /-- The `write` moved `n` bytes; none if it reported an error. -/
  | notWritten {n : ℕ} : (n = 0 ∨ n < src.length) →
      StoreEffect s name src (.error (.thrown .posixWriteFailed))
        (s.put name (some (splice (s.contents name) 0 (src.take n)))).files
  | stored : StoreEffect s name src (.ok ())
      (s.put name (some (splice (s.contents name) 0 src))).files

/-- How an `alloc` can end, and the files it leaves. -/
inductive AllocEffect (s : FileSystem) (name : Bytes) (size : ℕ) :
    Except Failure MmapBuffer → (Bytes → Option Bytes) → Prop
  | notOpened {e : Error} : AllocEffect s name size (.error (.thrown e)) s.files
  | notResized {e : Error} :
      AllocEffect s name size (.error (.thrown e)) (s.put name (some (s.contents name))).files
  | notMapped {e : Error} : AllocEffect s name size (.error (.thrown e))
      (s.put name (some (resize (s.contents name) size))).files
  | mapped : size ≠ 0 → AllocEffect s name size (.ok ⟨some ⟨name, size⟩, size⟩)
      (s.put name (some (resize (s.contents name) size))).files

/-- What stops an `alloc` before the file has its new size. -/
def FileStorage.NotResized (size : ℕ) (a : SysAnswers) : FileStorage → Prop
  | posix => a.openFd = none ∨ a.ftruncate = false
  | pmdkFs => size = 0 ∨ a.pmemMap = .notOpened ∨ a.pmemMap = .notResized

section Effects

variable {S : FileStorage} {s : FileSystem} {id src : Bytes} {a : SysAnswers} {size : ℕ}

/-- Every `store` has one of these effects. -/
theorem FileStorage.store_effect (S : FileStorage) (s : FileSystem) (id src : Bytes)
    (a : SysAnswers) :
    StoreEffect s (cStr id) src (S.store s id a src).1 (S.store s id a src).2.files := by
  rw [S.store_eq_storeFile, storeFile]
  cases hopen : a.openFd with
  | none => exact .notOpened
  | some fd =>
    dsimp only [FileSystem.openCreate, FileSystem.write]
    cases hn : a.write.count src.length with
    | none =>
      have heffect : StoreEffect s (cStr id) src _ _ := .notWritten (Or.inl rfl)
      simpa [splice, FileSystem.put] using heffect
    | some n =>
      by_cases hlen : src.length = n
      · have heffect : StoreEffect s (cStr id) src _ _ := .stored
        subst hlen
        simpa [FileSystem.put] using heffect
      · have hlt : n < src.length := lt_of_le_of_ne (Transfer.count_le hn) (Ne.symm hlen)
        have heffect : StoreEffect s (cStr id) src _ _ := .notWritten (Or.inr hlt)
        simpa [hlen, FileSystem.put] using heffect

/-- Every `alloc` has one of these effects. -/
theorem FileStorage.alloc_effect (S : FileStorage) (s : FileSystem) (id : Bytes) (a : SysAnswers)
    (size : ℕ) :
    AllocEffect s (cStr id) size (S.alloc s id a size).1 (S.alloc s id a size).2.files := by
  cases S with
  | posix =>
    rw [FileStorage.alloc, PosixStorage.alloc]
    cases a.openFd with
    | none => exact .notOpened
    | some fd =>
      dsimp only [FileSystem.openCreate]
      cases a.ftruncate with
      | false => exact .notResized
      | true =>
        dsimp only [FileSystem.ftruncate, FileSystem.mmap]
        by_cases hmap : a.mmap = true ∧ size ≠ 0
        · have heffect : AllocEffect s (cStr id) size _ _ := .mapped hmap.2
          simpa [hmap, FileSystem.put] using heffect
        · have heffect : AllocEffect s (cStr id) size _ _ := .notMapped (e := .posixMmapFailed)
          simpa [hmap, FileSystem.put] using heffect
  | pmdkFs =>
    rw [FileStorage.alloc, FilesystemPMDKStorage.alloc, FileSystem.pmemMapCreate]
    by_cases hsize : size = 0
    · rw [if_pos hsize]
      exact .notOpened
    · rw [if_neg hsize]
      cases a.pmemMap with
      | notOpened => exact .notOpened
      | notResized => exact .notResized
      | notMapped => exact .notMapped
      | mapped => exact .mapped hsize

/-- After an `alloc` that returns normally, which is never of zero bytes, filling its
buffer fills the file. -/
theorem FileStorage.alloc_ok {buf : MmapBuffer} (h : (S.alloc s id a size).1 = .ok buf) :
    size ≠ 0 ∧ ∀ bytes, (buf.fill (S.alloc s id a size).2 bytes).files =
      (s.put (cStr id) (some (splice (resize (s.contents (cStr id)) size) 0 bytes))).files := by
  have heffect := S.alloc_effect s id a size
  rw [h] at heffect
  generalize hfiles : (S.alloc s id a size).2.files = files at heffect
  cases heffect with
  | mapped hsize =>
    refine ⟨hsize, ?_⟩
    intro bytes
    simp [MmapBuffer.fill, FileSystem.writeMapping, FileSystem.put, hfiles]

/-- An `alloc` that stops before the file has its new size throws, and has at most
created the file. -/
theorem FileStorage.alloc_notResized (s : FileSystem) (id : Bytes) (h : S.NotResized size a) :
    (∃ e, (S.alloc s id a size).1 = .error e) ∧
      ((S.alloc s id a size).2.files = s.files ∨
        (S.alloc s id a size).2.files = (s.put (cStr id) (some (s.contents (cStr id)))).files) := by
  cases S with
  | posix =>
    rw [FileStorage.alloc, PosixStorage.alloc]
    cases hopen : a.openFd with
    | none => exact ⟨⟨_, rfl⟩, Or.inl rfl⟩
    | some fd =>
      rcases h with h | h
      · rw [hopen] at h
        cases h
      · rw [h]
        exact ⟨⟨_, rfl⟩, Or.inr rfl⟩
  | pmdkFs =>
    rw [FileStorage.alloc, FilesystemPMDKStorage.alloc, FileSystem.pmemMapCreate]
    by_cases hsize : size = 0
    · rw [if_pos hsize]
      exact ⟨⟨_, rfl⟩, Or.inl rfl⟩
    · rw [if_neg hsize]
      rcases h with h | h | h
      · exact absurd h hsize
      · rw [h]
        exact ⟨⟨_, rfl⟩, Or.inl rfl⟩
      · rw [h]
        exact ⟨⟨_, rfl⟩, Or.inr rfl⟩

/-- An `alloc` changes one file, and not even that one if it stops early or the size
is the one that the file has. -/
theorem FileStorage.alloc_files (S : FileStorage) (s : FileSystem) (id : Bytes) (a : SysAnswers)
    (size : ℕ) :
    ∃ w, (S.alloc s id a size).2.files = (s.put (cStr id) w).files ∧
      ∀ v, s.files (cStr id) = some v → S.NotResized size a ∨ v.length = size → w = some v := by
  have hkept (v : Bytes) (hv : s.files (cStr id) = some v) :
      some (s.contents (cStr id)) = some v := by
    rw [FileSystem.contents_eq hv]
  by_cases hearly : S.NotResized size a
  · rcases (alloc_notResized s id hearly).2 with h | h
    · exact ⟨_, h.trans (FileSystem.put_eq_self rfl).symm, fun v hv _ => hv⟩
    · exact ⟨_, h, fun v hv _ => hkept v hv⟩
  · have hresize (v : Bytes) (hv : s.files (cStr id) = some v)
        (h : S.NotResized size a ∨ v.length = size) :
        some (resize (s.contents (cStr id)) size) = some v := by
      obtain rfl := h.resolve_left hearly
      rw [FileSystem.contents_eq hv, resize_self]
    have heffect := S.alloc_effect s id a size
    generalize (S.alloc s id a size).1 = result at heffect
    generalize (S.alloc s id a size).2.files = files at heffect ⊢
    cases heffect with
    | notOpened => exact ⟨_, (FileSystem.put_eq_self rfl).symm, fun v hv _ => hv⟩
    | notResized => exact ⟨_, rfl, fun v hv _ => hkept v hv⟩
    | notMapped => exact ⟨_, rfl, hresize⟩
    | mapped => exact ⟨_, rfl, hresize⟩

/-- A `store` changes one file, and not even that one if no byte is written. -/
theorem FileStorage.store_files (S : FileStorage) (s : FileSystem) (id src : Bytes)
    (a : SysAnswers) :
    ∃ w, (S.store s id a src).2.files = (s.put (cStr id) w).files ∧
      ∀ v, s.files (cStr id) = some v →
        a.openFd = none ∨ (a.write.count src.length).getD 0 = 0 → w = some v := by
  rw [S.store_eq_storeFile, storeFile]
  cases hopen : a.openFd with
  | none => exact ⟨_, (FileSystem.put_eq_self rfl).symm, fun v hv _ => hv⟩
  | some fd =>
    dsimp only [FileSystem.openCreate, FileSystem.write]
    cases hn : a.write.count src.length with
    | none =>
      refine ⟨some (s.contents (cStr id)), rfl, ?_⟩
      intro v hv _
      rw [FileSystem.contents_eq hv]
    | some n =>
      refine ⟨some (splice (s.contents (cStr id)) 0 (src.take n)), ?_, ?_⟩
      · by_cases hlen : src.length = n
        · simp [hlen, FileSystem.put]
        · simp [hlen, FileSystem.put]
      · rintro v hv (h | h)
        · cases h
        · obtain rfl : n = 0 := h
          simp [splice, FileSystem.contents_eq hv]

end Effects

end Pmemcpy
