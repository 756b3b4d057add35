import Pmemcpy.Lib.Interleaving
import Pmemcpy.Files.Storages

/-!
# The file storages call by call

Each operation is a program that makes one system call at a time, and accesses the memory
of its mapping one byte at a time. Run alone, it does what the operation does. Each
action is about the file of one name.
-/

namespace Pmemcpy

open Lib Program

namespace Lib.FileSystem

variable (s : FileSystem)

/-- One byte is written to a mapping. -/
def poke (m : Mapping) (i : ℕ) (b : UInt8) : FileSystem :=
  s.put m.name ((s.files m.name).map fun v => splice v i [b])

/-- One byte is read of a mapping, as long as the file has it. -/
def peek (m : Mapping) (i : ℕ) : Option UInt8 := (s.files m.name).bind fun v => v[i]?

end Lib.FileSystem

/-- `open` with `O_CREAT`. -/
def openCreateCall (name : Bytes) (fd : Option ℕ) : Program FileSystem (Option ℕ) :=
  call fun s => s.openCreate name fd

/-- `close`. -/
def closeCall (fd : ℕ) : Program FileSystem Unit := call fun s => ((), s.close fd)

/-! ### Memory -/

/-- Bytes are written to a mapping one by one, from number `i` on. -/
def fillProgram (m : Mapping) (i : ℕ) : Bytes → Program FileSystem Unit
  | [] => done ()
  | b :: bytes => (call fun s => ((), s.poke m i b)).bind fun _ => fillProgram m (i + 1) bytes

/-- The program that reads `n` bytes of a mapping one by one, from number `i` on. -/
def peekProgram (m : Mapping) (i : ℕ) : ℕ → Program FileSystem (Option Bytes)
  | 0 => done (some [])
  | n + 1 => (call fun s => (s.peek m i, s)).bind fun b =>
    match b with
    | none => done none
    | some b => (peekProgram m (i + 1) n).bind fun rest => done (rest.map (b :: ·))

namespace MmapBuffer

/-- Filling a buffer from its start. -/
def fillProgram (buf : MmapBuffer) (bytes : Bytes) : Program FileSystem Unit :=
  match buf.mapping with
  | some m => Pmemcpy.fillProgram m 0 bytes
  | none => done ()

/-- The bytes of a buffer. -/
def bytesProgram (buf : MmapBuffer) : Program FileSystem (Except Failure Bytes) :=
  if buf.size = 0 then done (.ok [])
  else
    match buf.mapping with
    | none => done (.error .undefined)
    | some m => (peekProgram m 0 m.size).bind fun v =>
      match v with
      | some v => done (.ok v)
      | none => done (.error .undefined)

end MmapBuffer

/-! ### Operations -/

section Operations

variable (id : Bytes) (a : SysAnswers)

/-- `store` of both storages. -/
def storeProgram (src : Bytes) : Program FileSystem (Except Failure Unit) :=
  (openCreateCall (cStr id) a.openFd).bind fun fd =>
    match fd with
    | none => done (.error (.thrown .posixOpenFailed))
    | some fd => (call fun s => s.write (cStr id) src a.write).bind fun ret =>
      (closeCall fd).bind fun _ =>
        match ret with
        | none => done (.error (.thrown .posixWriteFailed))
        | some ret =>
          if src.length ≠ ret then done (.error (.thrown .posixWriteFailed)) else done (.ok ())

/-- `load` of both storages. -/
def loadProgram : Program FileSystem (Except Failure Bytes) :=
  (openCreateCall (cStr id) a.openFd).bind fun fd =>
    match fd with
    | none => done (.error (.thrown .posixReadFailed))
    | some fd => (call fun s => (s.fileSize (cStr id) a.fileSize, s)).bind fun len =>
      match len with
      | none => done (.error .foreign)
      | some len => (call fun s => (s.read (cStr id) len a.read, s)).bind fun buffer =>
        (closeCall fd).bind fun _ =>
          match buffer with
          | none => done (.error (.thrown .posixReadFailed))
          | some buffer =>
            if len ≠ buffer.length then done (.error (.thrown .posixReadFailed))
            else done (.ok buffer)

/-- `free` of both storages. -/
def freeProgram : Program FileSystem (Except Failure Unit) :=
  call fun s => (.ok (), s.remove (cStr id) a.remove)

/-- `PosixStorage::alloc`. -/
def PosixStorage.allocProgram (size : ℕ) : Program FileSystem (Except Failure MmapBuffer) :=
  (openCreateCall (cStr id) a.openFd).bind fun fd =>
    match fd with
    | none => done (.error (.thrown .posixWriteFailed))
    | some fd => (call fun s => s.ftruncate (cStr id) size a.ftruncate).bind fun truncated =>
      match truncated with
      | false => done (.error (.thrown .posixTruncateFailed))
      | true =>
        match FileSystem.mmap (cStr id) size a.mmap with
        | none => done (.error (.thrown .posixMmapFailed))
        | some m => (closeCall fd).bind fun _ => done (.ok ⟨some m, size⟩)

/-- `PosixStorage::find`. -/
def PosixStorage.findProgram : Program FileSystem (Except Failure MmapBuffer) :=
  (call fun s => s.openExisting (cStr id) a.openFd).bind fun fd =>
    match fd with
    | none => done (.error (.thrown .posixFindFailed))
    | some fd => (call fun s => ((s.contents (cStr id)).length, s)).bind fun size =>
      (closeCall fd).bind fun _ => done (.ok ⟨FileSystem.mmap (cStr id) size a.mmap, size⟩)

/-- `FilesystemPMDKStorage::alloc`: `pmem_map_file` opens the file and then gives it its size. -/
def FilesystemPMDKStorage.allocProgram (size : ℕ) :
    Program FileSystem (Except Failure MmapBuffer) :=
  let create := call fun s : FileSystem => ((), s.put (cStr id) (some (s.contents (cStr id))))
  let setSize :=
    call fun s : FileSystem => ((), s.put (cStr id) (some (resize (s.contents (cStr id)) size)))
  if size = 0 then done (.error (.thrown .posixMmapFailed))
  else
    match a.pmemMap with
    | .notOpened => done (.error (.thrown .posixMmapFailed))
    | .notResized => create.bind fun _ => done (.error (.thrown .posixMmapFailed))
    | .notMapped => create.bind fun _ => setSize.bind fun _ =>
      done (.error (.thrown .posixMmapFailed))
    | .mapped => create.bind fun _ => setSize.bind fun _ =>
      done (.ok ⟨some ⟨cStr id, size⟩, size⟩)

/-- `FilesystemPMDKStorage::find`: it looks whether the file is there before it maps it. -/
def FilesystemPMDKStorage.findProgram : Program FileSystem (Except Failure MmapBuffer) :=
  (call fun s => (s.files (cStr id), s)).bind fun file =>
    match file with
    | none => done (.error (.thrown .posixFindFailed))
    | some _ => (call fun s => (s.pmemMapWhole (cStr id) a.pmemMap, s)).bind fun m =>
      match m with
      | none => done (.error (.thrown .posixMmapFailed))
      | some m => done (.ok ⟨some m, m.size⟩)

namespace FileStorage

/-- `alloc` of a file storage. -/
def allocProgram (size : ℕ) : FileStorage → Program FileSystem (Except Failure MmapBuffer)
  | posix => PosixStorage.allocProgram id a size
  | pmdkFs => FilesystemPMDKStorage.allocProgram id a size

/-- `find` of a file storage, call by call. -/
def findProgram : FileStorage → Program FileSystem (Except Failure MmapBuffer)
  | posix => PosixStorage.findProgram id a
  | pmdkFs => FilesystemPMDKStorage.findProgram id a

/-- The caller reads the bytes of the buffer that it has found. -/
def readFound : Except Failure MmapBuffer → Program FileSystem (Except Failure (ℕ × Bytes))
  | .error e => done (.error e)
  | .ok buf => buf.bytesProgram.bind fun v => done (v.map fun v => (buf.size, v))

/-- `find` as its caller uses it. -/
def findBytesProgram (S : FileStorage) : Program FileSystem (Except Failure (ℕ × Bytes)) :=
  (S.findProgram id a).bind readFound

end FileStorage

end Operations

/-! ### Operations that run alone -/

section Run

variable {s : FileSystem} {id : Bytes} {a : SysAnswers}

/-- Alone, the system calls of `store` do what `storeFile` does. -/
theorem run_storeProgram (s : FileSystem) (id : Bytes) (a : SysAnswers) (src : Bytes) :
    (storeProgram id a src).run s = storeFile s id a src := by
  unfold storeProgram storeFile
  rw [run_bind, openCreateCall, run_call]
  rcases s.openCreate (cStr id) a.openFd with ⟨_ | fd, t⟩
  · rfl
  · dsimp only
    rw [run_bind, run_call]
    rcases t.write (cStr id) src a.write with ⟨_ | ret, u⟩
    · rfl
    · by_cases hlen : src.length = ret
      · simp [closeCall, hlen]
      · simp [closeCall, hlen]

/-- Alone, the system calls of `load` do what `loadFile` does. -/
theorem run_loadProgram (s : FileSystem) (id : Bytes) (a : SysAnswers) :
    (loadProgram id a).run s = loadFile s id a := by
  unfold loadProgram loadFile
  rw [run_bind, openCreateCall, run_call]
  rcases s.openCreate (cStr id) a.openFd with ⟨_ | fd, t⟩
  · rfl
  · dsimp only
    rw [run_bind, run_call]
    dsimp only
    cases t.fileSize (cStr id) a.fileSize with
    | none => rfl
    | some len =>
      dsimp only
      rw [run_bind, run_call]
      dsimp only
      cases t.read (cStr id) len a.read with
      | none => rfl
      | some buffer =>
        by_cases hlen : len = buffer.length
        · simp [closeCall, hlen]
        · simp [closeCall, hlen]

/-- Alone, the system call of `free` does what `freeFile` does. -/
theorem run_freeProgram (s : FileSystem) (id : Bytes) (a : SysAnswers) :
    (freeProgram id a).run s = freeFile s id a := rfl

/-- Alone, the system calls of `alloc` of `PosixStorage` do what `alloc` does. -/
theorem PosixStorage.run_allocProgram (s : FileSystem) (id : Bytes) (a : SysAnswers) (size : ℕ) :
    (allocProgram id a size).run s = alloc s id a size := by
  unfold allocProgram alloc
  rw [run_bind, openCreateCall, run_call]
  rcases s.openCreate (cStr id) a.openFd with ⟨_ | fd, t⟩
  · rfl
  · dsimp only
    rw [run_bind, run_call]
    rcases t.ftruncate (cStr id) size a.ftruncate with ⟨_ | _, u⟩
    · rfl
    · dsimp only
      cases FileSystem.mmap (cStr id) size a.mmap <;> rfl

/-- Alone, the system calls of `alloc` of `FilesystemPMDKStorage` do what `alloc` does. -/
theorem FilesystemPMDKStorage.run_allocProgram (s : FileSystem) (id : Bytes) (a : SysAnswers)
    (size : ℕ) : (allocProgram id a size).run s = alloc s id a size := by
  unfold allocProgram alloc FileSystem.pmemMapCreate
  by_cases hsize : size = 0
  · rw [if_pos hsize, if_pos hsize]
    rfl
  · rw [if_neg hsize, if_neg hsize]
    cases a.pmemMap with
    | notOpened => rfl
    | notResized => rfl
    | notMapped => simp [FileSystem.put, FileSystem.contents]
    | mapped => simp [FileSystem.put, FileSystem.contents]

/-- Alone, the system calls of `alloc` do what `alloc` does, in either storage. -/
theorem FileStorage.run_allocProgram (S : FileStorage) (s : FileSystem) (id : Bytes)
    (a : SysAnswers) (size : ℕ) : (S.allocProgram id a size).run s = S.alloc s id a size := by
  cases S with
  | posix => exact PosixStorage.run_allocProgram s id a size
  | pmdkFs => exact FilesystemPMDKStorage.run_allocProgram s id a size

/-- Alone, the system calls of `find` of `PosixStorage` do what `find` does. -/
theorem PosixStorage.run_findProgram (s : FileSystem) (id : Bytes) (a : SysAnswers) :
    (findProgram id a).run s = find s id a := by
  unfold findProgram find
  rw [run_bind, run_call]
  rcases s.openExisting (cStr id) a.openFd with ⟨_ | fd, t⟩ <;> rfl

/-- Alone, the system calls of `find` of `FilesystemPMDKStorage` do what `find` does. -/
theorem FilesystemPMDKStorage.run_findProgram (s : FileSystem) (id : Bytes) (a : SysAnswers) :
    (findProgram id a).run s = find s id a := by
  unfold findProgram find
  rw [run_bind, run_call]
  dsimp only
  cases s.files (cStr id) with
  | none => rfl
  | some v =>
    dsimp only
    rw [run_bind, run_call]
    dsimp only
    cases s.pmemMapWhole (cStr id) a.pmemMap <;> rfl

/-- The bytes that are written one by one are written. -/
theorem run_fillProgram (m : Mapping) (s : FileSystem) (i : ℕ) (bytes : Bytes) :
    (fillProgram m i bytes).run s =
      ((), s.put m.name ((s.files m.name).map fun v => splice v i bytes)) := by
  induction bytes generalizing s i with
  | nil =>
    have hsame : (s.files m.name).map (fun v => splice v i []) = s.files m.name := by
      simp [splice]
    rw [fillProgram, run_done, hsame, FileSystem.put, Function.update_eq_self]
  | cons b bytes ih =>
    have hnext (v : Bytes) : splice (splice v i [b]) (i + 1) bytes = splice v i (b :: bytes) :=
      splice_cons v i b bytes
    rw [fillProgram, run_bind, run_call, ih]
    simp [FileSystem.poke, FileSystem.put, Function.comp_def, hnext]

/-- Alone, filling a buffer one byte at a time fills it. -/
theorem MmapBuffer.run_fillProgram (buf : MmapBuffer) (s : FileSystem) (bytes : Bytes) :
    (buf.fillProgram bytes).run s = ((), buf.fill s bytes) := by
  unfold MmapBuffer.fillProgram MmapBuffer.fill
  cases buf.mapping with
  | none => rfl
  | some m => exact Pmemcpy.run_fillProgram m s 0 bytes

/-- The bytes that are read one by one are those of the file, if it has them all. -/
theorem run_peekProgram {m : Mapping} {s : FileSystem} {v : Bytes} (hv : s.files m.name = some v)
    {i n : ℕ} (hi : i ≤ v.length) :
    (peekProgram m i n).run s = (if i + n ≤ v.length then some (slice v i n) else none, s) := by
  induction n generalizing i with
  | zero => simp [peekProgram, slice, hi]
  | succ n ih =>
    rw [peekProgram, run_bind, run_call, FileSystem.peek, hv, Option.bind_some]
    dsimp only
    by_cases hin : i < v.length
    · rw [List.getElem?_eq_getElem hin]
      dsimp only
      rw [run_bind, ih hin]
      have hslice : slice v i (n + 1) = v[i] :: slice v (i + 1) n := by
        rw [slice, slice, List.drop_eq_getElem_cons hin, List.take_succ_cons]
      have hiff : i + 1 + n ≤ v.length ↔ i + (n + 1) ≤ v.length := by omega
      rw [hslice, run_done]
      by_cases hall : i + (n + 1) ≤ v.length
      · rw [if_pos hall, if_pos (hiff.mpr hall)]
        rfl
      · rw [if_neg hall, if_neg (hiff.not.mpr hall)]
        rfl
    · rw [List.getElem?_eq_none (by omega), if_neg (by omega)]
      rfl

/-- The bytes of a buffer, read one by one. Its mapping is not empty. -/
theorem MmapBuffer.run_bytesProgram {buf : MmapBuffer} (s : FileSystem)
    (hbuf : ∀ m ∈ buf.mapping, m.size ≠ 0) :
    buf.bytesProgram.run s = (buf.bytes s, s) := by
  unfold bytesProgram bytes
  by_cases hsize : buf.size = 0
  · rw [if_pos hsize, if_pos hsize]
    rfl
  · rw [if_neg hsize, if_neg hsize]
    cases hmapping : buf.mapping with
    | none => rfl
    | some m =>
      dsimp only
      rw [run_bind, Option.bind_some, FileSystem.readMapping]
      cases hfile : s.files m.name with
      | none =>
        obtain ⟨n, hn⟩ := Nat.exists_eq_succ_of_ne_zero (hbuf m hmapping)
        rw [hn, peekProgram, run_bind, run_call, FileSystem.peek, hfile]
        rfl
      | some v =>
        rw [run_peekProgram hfile (Nat.zero_le _), Nat.zero_add, slice, List.drop_zero]
        dsimp only
        by_cases hall : m.size ≤ v.length
        · rw [if_pos hall]
          rfl
        · rw [if_neg hall]
          rfl

/-- A mapping of a buffer that `find` has returned is not empty. -/
theorem FileStorage.find_mapping {S : FileStorage} {buf : MmapBuffer}
    (h : (S.find s id a).1 = .ok buf) : ∀ m ∈ buf.mapping, m.size ≠ 0 := by
  cases S with
  | posix =>
    rw [FileStorage.find, PosixStorage.find] at h
    rcases hopen : s.openExisting (cStr id) a.openFd with ⟨_ | fd, t⟩
    · rw [hopen] at h
      cases h
    · rw [hopen] at h
      obtain rfl := Except.ok.inj h
      intro m hm
      dsimp only [FileSystem.mmap] at hm
      split at hm
      · rename_i hmap
        obtain rfl := Option.some.inj hm
        exact hmap.2
      · cases hm
  | pmdkFs =>
    rw [FileStorage.find, FilesystemPMDKStorage.find] at h
    cases hfile : s.files (cStr id) with
    | none =>
      rw [hfile] at h
      cases h
    | some v =>
      rw [hfile] at h
      dsimp only at h
      rw [FileSystem.pmemMapWhole, hfile] at h
      by_cases hmap : a.pmemMap = .mapped ∧ v ≠ []
      · dsimp only at h
        rw [if_pos hmap] at h
        obtain rfl := Except.ok.inj h
        intro m hm
        obtain rfl := Option.some.inj hm
        exact fun hzero => hmap.2 (List.length_eq_zero_iff.mp hzero)
      · dsimp only at h
        rw [if_neg hmap] at h
        cases h

/-- Alone, the system calls of `find` do what `find` does, in either storage. -/
theorem FileStorage.run_findProgram (S : FileStorage) (s : FileSystem) (id : Bytes)
    (a : SysAnswers) : (S.findProgram id a).run s = S.find s id a := by
  cases S with
  | posix => exact PosixStorage.run_findProgram s id a
  | pmdkFs => exact FilesystemPMDKStorage.run_findProgram s id a

/-- Alone, `find` and the reading of its buffer give what `findBytes` gives. -/
theorem FileStorage.run_findBytesProgram (S : FileStorage) (s : FileSystem) (id : Bytes)
    (a : SysAnswers) : (S.findBytesProgram id a).run s = S.findBytes s id a := by
  rw [FileStorage.findBytesProgram, run_bind, S.run_findProgram, FileStorage.findBytes]
  rcases hresult : S.find s id a with ⟨e | buf, t⟩
  · rfl
  · have hmapping : ∀ m ∈ buf.mapping, m.size ≠ 0 :=
      FileStorage.find_mapping (congrArg Prod.fst hresult)
    rw [readFound, run_bind, MmapBuffer.run_bytesProgram t hmapping]
    rfl

end Run

/-! ### The file that an operation stays in -/

/-- An action is about the file of one name: what it returns depends on this file only, and it
leaves the others alone. -/
def ActsOn {α : Type*} (name : Bytes) (f : FileSystem → α × FileSystem) : Prop :=
  ∃ g : Option Bytes → α × Option Bytes, ∀ s,
    (f s).1 = (g (s.files name)).1 ∧ (f s).2.files = (s.put name (g (s.files name)).2).files

/-- The files of some names. -/
def filesOf {κ : Type*} (owns : κ → Set Bytes) (k : κ) (s : FileSystem) : owns k → Option Bytes :=
  fun name => s.files name

section Stay

variable {κ α β : Type*} {owns : κ → Set Bytes} {k : κ} {name id : Bytes} {a : SysAnswers}
  {f : FileSystem → α × FileSystem}

/-- Nobody has a file that another one has. -/
def NoneShared (owns : κ → Set Bytes) : Prop := ∀ j k, j ≠ k → ∀ name ∈ owns j, name ∉ owns k

/-- An action on a file that one client has is not noticed by the others. -/
theorem ActsOn.staysIn (h : ActsOn name f) (howns : NoneShared owns) (hname : name ∈ owns k) :
    (call f).StaysIn (filesOf owns) k := by
  obtain ⟨g, hg⟩ := h
  refine ⟨?_, ?_, fun _ => trivial⟩
  · intro s t hst
    have hfile (n : Bytes) (hn : n ∈ owns k) : s.files n = t.files n := congrFun hst ⟨n, hn⟩
    constructor
    · funext ⟨n, hn⟩
      show (f s).2.files n = (f t).2.files n
      rw [(hg s).2, (hg t).2, FileSystem.files_put, FileSystem.files_put, hfile name hname,
        hfile n hn]
    · show done (f s).1 = done (f t).1
      rw [(hg s).1, (hg t).1, hfile name hname]
  · intro s j hj
    funext ⟨n, hn⟩
    have hne : n ≠ name := by
      rintro rfl
      exact howns j k hj n hn hname
    show (f s).2.files n = s.files n
    rw [(hg s).2, FileSystem.files_put_of_ne hne]

/-- A call that reads one file and changes nothing acts on this file only. -/
theorem actsOn_read {read : FileSystem → α}
    (h : ∀ s t : FileSystem, s.files name = t.files name → read s = read t) :
    ActsOn name fun s => (read s, s) :=
  ⟨fun v => (read ⟨fun _ => v, ∅⟩, v), fun _ => ⟨h _ _ rfl, (FileSystem.put_eq_self rfl).symm⟩⟩

/-- A call that replaces one file by what it makes of it acts on this file only. -/
theorem actsOn_put (name : Bytes) (g : Option Bytes → Option Bytes) (result : α) :
    ActsOn name fun s => (result, s.put name (g (s.files name))) :=
  ⟨fun v => (result, g v), fun _ => ⟨rfl, rfl⟩⟩

/-- Opening a file that may be created acts on this file only. -/
theorem actsOn_openCreate (name : Bytes) (fd : Option ℕ) :
    ActsOn name fun s => s.openCreate name fd := by
  cases fd with
  | none => exact ⟨fun v => (none, v), fun _ => ⟨rfl, (FileSystem.put_eq_self rfl).symm⟩⟩
  | some fd => exact ⟨fun v => (some fd, some (v.getD [])), fun _ => ⟨rfl, rfl⟩⟩

/-- Opening a file that is there acts on this file only. -/
theorem actsOn_openExisting (name : Bytes) (fd : Option ℕ) :
    ActsOn name fun s => s.openExisting name fd := by
  refine ⟨fun v => (v.bind fun _ => fd, v), ?_⟩
  intro s
  rw [FileSystem.put_eq_self rfl]
  cases hfile : s.files name <;> cases fd <;> simp [FileSystem.openExisting, hfile]

/-- Closing a descriptor acts on no file, so on any one only. -/
theorem actsOn_close (name : Bytes) (fd : ℕ) : ActsOn name fun s => ((), s.close fd) :=
  ⟨fun v => ((), v), fun _ => ⟨rfl, (FileSystem.put_eq_self rfl).symm⟩⟩

/-- `ftruncate` acts on its file only. -/
theorem actsOn_ftruncate (name : Bytes) (size : ℕ) (answer : Bool) :
    ActsOn name fun s => s.ftruncate name size answer := by
  cases answer with
  | false => exact ⟨fun v => (false, v), fun _ => ⟨rfl, (FileSystem.put_eq_self rfl).symm⟩⟩
  | true => exact ⟨fun v => (true, v.map fun v => resize v size), fun _ => ⟨rfl, rfl⟩⟩

/-- `write` acts on its file only. -/
theorem actsOn_write (name src : Bytes) (moved : Transfer) :
    ActsOn name fun s => s.write name src moved := by
  unfold FileSystem.write
  cases moved.count src.length with
  | none => exact ⟨fun v => (none, v), fun _ => ⟨rfl, (FileSystem.put_eq_self rfl).symm⟩⟩
  | some n =>
    exact ⟨fun v => (some n, v.map fun v => splice v 0 (src.take n)), fun _ => ⟨rfl, rfl⟩⟩

/-- `remove` acts on its file only. -/
theorem actsOn_remove (name : Bytes) (answer : Bool) :
    ActsOn name fun s => ((.ok () : Except Failure Unit), s.remove name answer) := by
  cases answer with
  | false => exact ⟨fun v => (.ok (), v), fun _ => ⟨rfl, (FileSystem.put_eq_self rfl).symm⟩⟩
  | true => exact ⟨fun _ => (.ok (), none), fun _ => ⟨rfl, rfl⟩⟩

/-- Mapping a whole file acts on this file only. -/
theorem actsOn_pmemMapWhole (name : Bytes) (ending : PmemMapEnd) :
    ActsOn name fun s => (s.pmemMapWhole name ending, s) := by
  apply actsOn_read
  intro s t h
  rw [FileSystem.pmemMapWhole, FileSystem.pmemMapWhole, h]

/-- `file_size` acts on its file only. -/
theorem actsOn_fileSize (name : Bytes) (answer : Bool) :
    ActsOn name fun s => (s.fileSize name answer, s) := by
  apply actsOn_read
  intro s t h
  cases answer with
  | false => rfl
  | true => rw [FileSystem.fileSize, FileSystem.fileSize, h]

/-- Measuring a file acts on this file only. -/
theorem actsOn_contentsLength (name : Bytes) :
    ActsOn name fun s => ((s.contents name).length, s) := by
  apply actsOn_read
  intro s t h
  rw [FileSystem.contents, FileSystem.contents, h]

/-- `read` acts on its file only. -/
theorem actsOn_fileRead (name : Bytes) (len : ℕ) (moved : Transfer) :
    ActsOn name fun s => (s.read name len moved, s) := by
  apply actsOn_read
  intro s t h
  rw [FileSystem.read, FileSystem.read, FileSystem.contents, FileSystem.contents, h]

/-- Reading a byte of a mapping acts on the mapped file only. -/
theorem actsOn_peek (m : Mapping) (i : ℕ) : ActsOn m.name fun s => (s.peek m i, s) := by
  apply actsOn_read
  intro s t h
  rw [FileSystem.peek, FileSystem.peek, h]

section Stays

variable (howns : NoneShared owns) (hid : cStr id ∈ owns k)
include howns hid

/-- `store` stays in the files of the client that has its id. -/
theorem storeProgram_stays (a : SysAnswers) (src : Bytes) :
    (storeProgram id a src).StaysIn (filesOf owns) k := by
  refine ((actsOn_openCreate _ _).staysIn howns hid).bind ?_
  rintro (_ | fd)
  · trivial
  · refine ((actsOn_write _ _ _).staysIn howns hid).bind fun ret => ?_
    refine ((actsOn_close _ _).staysIn howns hid).bind fun _ => ?_
    rcases ret with _ | ret
    · trivial
    · dsimp only
      split <;> trivial

/-- `load` stays in the files of the client that has its id. -/
theorem loadProgram_stays (a : SysAnswers) : (loadProgram id a).StaysIn (filesOf owns) k := by
  refine ((actsOn_openCreate _ _).staysIn howns hid).bind ?_
  rintro (_ | fd)
  · trivial
  · refine ((actsOn_fileSize _ _).staysIn howns hid).bind ?_
    rintro (_ | len)
    · trivial
    · refine ((actsOn_fileRead _ _ _).staysIn howns hid).bind fun buffer => ?_
      refine ((actsOn_close _ _).staysIn howns hid).bind fun _ => ?_
      rcases buffer with _ | buffer
      · trivial
      · dsimp only
        split <;> trivial

/-- `free` stays in the files of the client that has its id. -/
theorem freeProgram_stays (a : SysAnswers) : (freeProgram id a).StaysIn (filesOf owns) k :=
  (actsOn_remove _ _).staysIn howns hid

/-- `alloc` of `PosixStorage` stays in the files of the client that has its id. -/
theorem PosixStorage.allocProgram_stays (a : SysAnswers) (size : ℕ) :
    (allocProgram id a size).StaysIn (filesOf owns) k := by
  refine ((actsOn_openCreate _ _).staysIn howns hid).bind ?_
  rintro (_ | fd)
  · trivial
  · refine ((actsOn_ftruncate _ _ _).staysIn howns hid).bind ?_
    rintro (_ | _)
    · trivial
    · dsimp only
      cases FileSystem.mmap (cStr id) size a.mmap with
      | none => trivial
      | some m => exact ((actsOn_close _ _).staysIn howns hid).bind fun _ => trivial

/-- `alloc` of `FilesystemPMDKStorage` stays in the files of the client that has its id. -/
theorem FilesystemPMDKStorage.allocProgram_stays (a : SysAnswers) (size : ℕ) :
    (allocProgram id a size).StaysIn (filesOf owns) k := by
  have hcreate : ActsOn (cStr id) fun s : FileSystem =>
      ((), s.put (cStr id) (some (s.contents (cStr id)))) :=
    actsOn_put _ (fun v => some (v.getD [])) ()
  have hresize : ActsOn (cStr id) fun s : FileSystem =>
      ((), s.put (cStr id) (some (resize (s.contents (cStr id)) size))) :=
    actsOn_put _ (fun v => some (resize (v.getD []) size)) ()
  unfold allocProgram
  by_cases hsize : size = 0
  · rw [if_pos hsize]
    trivial
  · rw [if_neg hsize]
    cases a.pmemMap with
    | notOpened => trivial
    | notResized => exact (hcreate.staysIn howns hid).bind fun _ => trivial
    | notMapped =>
      refine (hcreate.staysIn howns hid).bind fun _ => ?_
      exact (hresize.staysIn howns hid).bind fun _ => trivial
    | mapped =>
      refine (hcreate.staysIn howns hid).bind fun _ => ?_
      exact (hresize.staysIn howns hid).bind fun _ => trivial

/-- `alloc` stays in the files of the client that has its id, in either storage. -/
theorem FileStorage.allocProgram_stays (S : FileStorage) (a : SysAnswers) (size : ℕ) :
    (S.allocProgram id a size).StaysIn (filesOf owns) k := by
  cases S with
  | posix => exact PosixStorage.allocProgram_stays howns hid a size
  | pmdkFs => exact FilesystemPMDKStorage.allocProgram_stays howns hid a size

end Stays

/-! ### Memory accesses of a mapping of a file of the client -/

section Memory

variable {m : Mapping} {buf : MmapBuffer} (howns : NoneShared owns)
include howns

/-- Writing through a mapping stays in the files of the client that has the mapped file. -/
theorem fillProgram_stays (hm : m.name ∈ owns k) (i : ℕ) (bytes : Bytes) :
    (fillProgram m i bytes).StaysIn (filesOf owns) k := by
  induction bytes generalizing i with
  | nil => trivial
  | cons b bytes ih =>
    have hpoke : ActsOn m.name fun s : FileSystem => ((), s.poke m i b) :=
      actsOn_put _ (fun v => v.map fun v => splice v i [b]) ()
    exact (hpoke.staysIn howns hm).bind fun _ => ih (i + 1)

/-- Reading through a mapping stays in the files of the client that has the mapped file. -/
theorem peekProgram_stays (hm : m.name ∈ owns k) (i n : ℕ) :
    (peekProgram m i n).StaysIn (filesOf owns) k := by
  induction n generalizing i with
  | zero => trivial
  | succ n ih =>
    refine ((actsOn_peek _ _).staysIn howns hm).bind ?_
    rintro (_ | b)
    · trivial
    · exact (ih (i + 1)).bind fun _ => trivial

/-- Filling a buffer stays in the files of the client that has the file of the buffer. -/
theorem MmapBuffer.fillProgram_stays (hbuf : ∀ m ∈ buf.mapping, m.name ∈ owns k) (bytes : Bytes) :
    (buf.fillProgram bytes).StaysIn (filesOf owns) k := by
  unfold MmapBuffer.fillProgram
  cases hmapping : buf.mapping with
  | none => trivial
  | some m => exact Pmemcpy.fillProgram_stays howns (hbuf m hmapping) 0 bytes

/-- Reading a buffer stays in the files of the client that has the file of the buffer. -/
theorem MmapBuffer.bytesProgram_stays (hbuf : ∀ m ∈ buf.mapping, m.name ∈ owns k) :
    buf.bytesProgram.StaysIn (filesOf owns) k := by
  unfold MmapBuffer.bytesProgram
  split
  · trivial
  · cases hmapping : buf.mapping with
    | none => trivial
    | some m =>
      refine (peekProgram_stays howns (hbuf m hmapping) 0 m.size).bind ?_
      rintro (_ | v) <;> trivial

end Memory

/-! ### The buffers that operations return -/

/-- The buffer that an operation on a file returns maps this file. -/
def BufferOf (name : Bytes) (result : Except Failure MmapBuffer) : Prop :=
  ∀ buf, result = .ok buf → ∀ m ∈ buf.mapping, m.name = name

/-- A call that throws hands out no buffer. -/
theorem bufferOf_error (name : Bytes) (f : Failure) : BufferOf name (.error f) := by
  rintro buf ⟨⟩

/-- A buffer that `mmap` has mapped maps the file it was asked for. -/
theorem bufferOf_mmap (name : Bytes) (size n : ℕ) (answer : Bool) :
    BufferOf name (.ok ⟨FileSystem.mmap name size answer, n⟩) := by
  rintro buf ⟨⟩ m hm
  dsimp only [FileSystem.mmap] at hm
  split at hm
  · obtain rfl := Option.some.inj hm
    rfl
  · cases hm

/-- A buffer of a mapping maps the file of the mapping. -/
theorem bufferOf_mapping {m : Mapping} (hm : m.name = name) (n : ℕ) :
    BufferOf name (.ok ⟨some m, n⟩) := by
  rintro buf ⟨⟩ m' hm'
  obtain rfl := Option.some.inj hm'
  exact hm

/-- The buffer of an `alloc` of `PosixStorage` maps the file of the id. -/
theorem PosixStorage.allocProgram_returns (id : Bytes) (a : SysAnswers) (size : ℕ) :
    (allocProgram id a size).Returns (BufferOf (cStr id)) := by
  refine (returns_true _).bind ?_
  rintro (_ | fd) _
  · exact bufferOf_error _ _
  · refine (returns_true _).bind ?_
    rintro (_ | _) _
    · exact bufferOf_error _ _
    · dsimp only
      have hbuffer := bufferOf_mmap (cStr id) size size a.mmap
      cases hm : FileSystem.mmap (cStr id) size a.mmap with
      | none => exact bufferOf_error _ _
      | some m =>
        rw [hm] at hbuffer
        exact (returns_true _).bind fun _ _ => hbuffer

/-- The buffer of an `alloc` of `FilesystemPMDKStorage` maps the file of the id. -/
theorem FilesystemPMDKStorage.allocProgram_returns (id : Bytes) (a : SysAnswers) (size : ℕ) :
    (allocProgram id a size).Returns (BufferOf (cStr id)) := by
  unfold allocProgram
  by_cases hsize : size = 0
  · rw [if_pos hsize]
    exact bufferOf_error _ _
  · rw [if_neg hsize]
    cases a.pmemMap with
    | notOpened => exact bufferOf_error _ _
    | notResized => exact (returns_true _).bind fun _ _ => bufferOf_error _ _
    | notMapped =>
      exact (returns_true _).bind fun _ _ => (returns_true _).bind fun _ _ => bufferOf_error _ _
    | mapped =>
      exact (returns_true _).bind fun _ _ => (returns_true _).bind fun _ _ =>
        bufferOf_mapping rfl _

/-- The buffer of a `find` of `PosixStorage` maps the file of the id. -/
theorem PosixStorage.findProgram_returns (id : Bytes) (a : SysAnswers) :
    (findProgram id a).Returns (BufferOf (cStr id)) := by
  refine (returns_true _).bind ?_
  rintro (_ | fd) _
  · exact bufferOf_error _ _
  · refine (returns_true _).bind fun size _ => ?_
    exact (returns_true _).bind fun _ _ => bufferOf_mmap _ _ _ _

/-- The buffer of a `find` of `FilesystemPMDKStorage` maps the file of the id. -/
theorem FilesystemPMDKStorage.findProgram_returns (id : Bytes) (a : SysAnswers) :
    (findProgram id a).Returns (BufferOf (cStr id)) := by
  have hmap : Program.Returns (fun found : Option Mapping => ∀ m ∈ found, m.name = cStr id)
      (call fun s : FileSystem => (s.pmemMapWhole (cStr id) a.pmemMap, s)) := by
    apply returns_call
    intro s m hm
    dsimp only [FileSystem.pmemMapWhole] at hm
    cases hfile : s.files (cStr id) with
    | none =>
      rw [hfile] at hm
      cases hm
    | some v =>
      rw [hfile] at hm
      dsimp only at hm
      split at hm
      · obtain rfl := Option.some.inj hm
        rfl
      · cases hm
  refine (returns_true _).bind ?_
  rintro (_ | v) _
  · exact bufferOf_error _ _
  · refine hmap.bind ?_
    rintro (_ | m) hm
    · exact bufferOf_error _ _
    · exact bufferOf_mapping (hm m rfl) _

/-- The buffer of an `alloc` maps the file of the id, in either storage. -/
theorem FileStorage.allocProgram_returns (S : FileStorage) (id : Bytes) (a : SysAnswers)
    (size : ℕ) : (S.allocProgram id a size).Returns (BufferOf (cStr id)) := by
  cases S with
  | posix => exact PosixStorage.allocProgram_returns id a size
  | pmdkFs => exact FilesystemPMDKStorage.allocProgram_returns id a size

/-- The buffer of a `find` maps the file of the id, in either storage. -/
theorem FileStorage.findProgram_returns (S : FileStorage) (id : Bytes) (a : SysAnswers) :
    (S.findProgram id a).Returns (BufferOf (cStr id)) := by
  cases S with
  | posix => exact PosixStorage.findProgram_returns id a
  | pmdkFs => exact FilesystemPMDKStorage.findProgram_returns id a

section Buffers

variable (howns : NoneShared owns) (hid : cStr id ∈ owns k)
include howns hid

/-- An `alloc` with what its caller does to the buffer stays in the files of the client. -/
theorem FileStorage.allocProgram_bind_stays (S : FileStorage) (a : SysAnswers) (size : ℕ)
    {p : Except Failure MmapBuffer → Program FileSystem β}
    (hp : ∀ result, BufferOf (cStr id) result → (p result).StaysIn (filesOf owns) k) :
    ((S.allocProgram id a size).bind p).StaysIn (filesOf owns) k :=
  (S.allocProgram_stays howns hid a size).bind_returns (S.allocProgram_returns id a size) hp

/-- `find` stays in the files of the client that has its id, in either storage. -/
theorem FileStorage.findProgram_stays (S : FileStorage) (a : SysAnswers) :
    (S.findProgram id a).StaysIn (filesOf owns) k := by
  cases S with
  | posix =>
    refine ((actsOn_openExisting _ _).staysIn howns hid).bind ?_
    rintro (_ | fd)
    · trivial
    · refine ((actsOn_contentsLength _).staysIn howns hid).bind fun size => ?_
      exact ((actsOn_close _ _).staysIn howns hid).bind fun _ => trivial
  | pmdkFs =>
    have hfile : ActsOn (cStr id) fun s : FileSystem => (s.files (cStr id), s) :=
      actsOn_read fun _ _ h => h
    refine (hfile.staysIn howns hid).bind ?_
    rintro (_ | v)
    · trivial
    · refine ((actsOn_pmemMapWhole _ _).staysIn howns hid).bind ?_
      rintro (_ | m) <;> trivial

/-- `find` and the reading of its buffer stay in the files of the client that has the id. -/
theorem FileStorage.findBytesProgram_stays (S : FileStorage) (a : SysAnswers) :
    (S.findBytesProgram id a).StaysIn (filesOf owns) k := by
  refine (S.findProgram_stays howns hid a).bind_returns (S.findProgram_returns id a) ?_
  rintro (e | buf) hresult
  · trivial
  · have hbuf : ∀ m ∈ buf.mapping, m.name ∈ owns k := by
      intro m hm
      rw [hresult buf rfl m hm]
      exact hid
    exact (MmapBuffer.bytesProgram_stays howns hbuf).bind fun _ => trivial

end Buffers

/-! ### Reads of files that are there -/

section Look

variable {s : FileSystem} {v : Bytes}

/-- An action on a file that leaves the files as they are only looks at them. -/
theorem ActsOn.looks (h : ActsOn name f) (hkept : (f s).2.files = s.files) :
    (call f).Looks FileSystem.files s := by
  obtain ⟨g, hg⟩ := h
  refine ⟨?_, trivial⟩
  intro t ht
  have hput : (t.put name (g (t.files name)).2).files =
      (s.put name (g (s.files name)).2).files := by
    rw [FileSystem.put, FileSystem.put, ht]
  constructor
  · exact ((hg t).2.trans hput).trans ((hg s).2.symm.trans hkept)
  · show done (f t).1 = done (f s).1
    rw [(hg t).1, (hg s).1, ht]

/-- A `load` of a file that is there only looks at the files. -/
theorem loadProgram_looks (hv : s.files (cStr id) = some v) (a : SysAnswers) :
    (loadProgram id a).Looks FileSystem.files s := by
  have hopen : (s.openCreate (cStr id) a.openFd).2.files = s.files := by
    cases a.openFd with
    | none => rfl
    | some fd =>
      have hput := FileSystem.put_eq_self hv
      rwa [← FileSystem.contents_eq hv] at hput
  refine ((actsOn_openCreate _ _).looks hopen).bind ?_
  rcases (Program.run _ s).1 with _ | fd
  · trivial
  · refine ((actsOn_fileSize _ _).looks rfl).bind ?_
    rcases (Program.run _ s).1 with _ | len
    · trivial
    · apply ((actsOn_fileRead _ _ _).looks rfl).bind
      refine ((actsOn_close (cStr id) fd).looks rfl).bind ?_
      rcases (Program.run _ s).1 with _ | buffer
      · trivial
      · dsimp only
        split <;> trivial

/-- Reading through a mapping only looks at the files. -/
theorem peekProgram_looks (m : Mapping) (i n : ℕ) :
    (peekProgram m i n).Looks FileSystem.files s := by
  induction n generalizing i with
  | zero => trivial
  | succ n ih =>
    refine ((actsOn_peek _ _).looks rfl).bind ?_
    rcases (Program.run _ s).1 with _ | b
    · trivial
    · exact (ih (i + 1)).bind trivial

/-- Reading a buffer that was found only looks at the files. -/
theorem readFound_looks (found : Except Failure MmapBuffer) :
    (FileStorage.readFound found).Looks FileSystem.files s := by
  cases found with
  | error e => trivial
  | ok buf =>
    refine Looks.bind ?_ trivial
    unfold MmapBuffer.bytesProgram
    split
    · trivial
    · cases buf.mapping with
      | none => trivial
      | some m =>
        refine (peekProgram_looks m 0 m.size).bind ?_
        rcases (Program.run _ s).1 with _ | v <;> trivial

/-- `find` and the reading of its buffer only look at the files. -/
theorem FileStorage.findBytesProgram_looks (S : FileStorage) (s : FileSystem) (id : Bytes)
    (a : SysAnswers) : (S.findBytesProgram id a).Looks FileSystem.files s := by
  refine Looks.bind ?_ (readFound_looks _)
  cases S with
  | posix =>
    have hopen : (s.openExisting (cStr id) a.openFd).2.files = s.files := by
      cases hfile : s.files (cStr id) <;> cases a.openFd <;> simp [FileSystem.openExisting, hfile]
    refine ((actsOn_openExisting _ _).looks hopen).bind ?_
    rcases (Program.run _ s).1 with _ | fd
    · trivial
    · refine ((actsOn_contentsLength _).looks rfl).bind ?_
      exact ((actsOn_close (cStr id) fd).looks rfl).bind trivial
  | pmdkFs =>
    have hfile : ActsOn (cStr id) fun s : FileSystem => (s.files (cStr id), s) :=
      actsOn_read fun _ _ h => h
    refine (hfile.looks rfl).bind ?_
    rcases (Program.run _ s).1 with _ | v
    · trivial
    · refine ((actsOn_pmemMapWhole _ _).looks rfl).bind ?_
      rcases (Program.run _ s).1 with _ | m <;> trivial

end Look

end Stay

end Pmemcpy
