import Pmemcpy.Lib.Resources
import Pmemcpy.Files.Reads

/-!
# The descriptors that stay open

`store` and `find` close the descriptor that they open on all of their paths. An
`alloc` of `PosixStorage` does not when its file cannot be truncated or mapped, and
a `load` does not when `file_size` throws. Nothing closes such a descriptor later,
so that as many of these calls as there are free descriptors leave none for a call
that has to open a file.
-/

namespace Pmemcpy

open Lib

namespace FileOp

/-- The descriptor that the system gives to an operation that opens its file. -/
def opens (S : FileStorage) : FileOp → Option ℕ
  | call (.store _ _ a) => a.openFd
  | call (.alloc _ _ _ a) => if S = .posix then a.openFd else none
  | call (.free _ _) => none
  | find _ a => if S = .posix then a.openFd else none
  | load _ a => a.openFd

/-- The file is opened, and then a call of the system fails for which the code does not
close it: `ftruncate` or `mmap` in an `alloc` of `PosixStorage`, or `file_size` in a `load`.
A mapping of no bytes always fails. -/
def Forgets (S : FileStorage) : FileOp → Prop
  | call (.alloc _ size _ a) =>
    S = .posix ∧ a.openFd.isSome ∧ (a.ftruncate = false ∨ a.mmap = false ∨ size = 0)
  | load _ a => a.openFd.isSome ∧ a.fileSize = false
  | _ => False

instance (S : FileStorage) : DecidablePred (Forgets S)
  | call (.alloc _ size _ a) => inferInstanceAs (Decidable
      (S = .posix ∧ a.openFd.isSome ∧ (a.ftruncate = false ∨ a.mmap = false ∨ size = 0)))
  | load _ a => inferInstanceAs (Decidable (a.openFd.isSome ∧ a.fileSize = false))
  | call (.store _ _ _) => inferInstanceAs (Decidable False)
  | call (.free _ _) => inferInstanceAs (Decidable False)
  | find _ _ => inferInstanceAs (Decidable False)

/-- The descriptor that an operation leaves open. -/
def leaks (S : FileStorage) (op : FileOp) : Option ℕ := if op.Forgets S then op.opens S else none

/-- `open` gives a descriptor below the limit of the process that is not in use. -/
def OpensFree (S : FileStorage) (limit : ℕ) (s : FileSystem) (op : FileOp) : Prop :=
  ∀ fd ∈ op.opens S, fd < limit ∧ fd ∉ s.fds

end FileOp

/-- A step of a run: any operation, however it ends, where the system opens free descriptors. -/
def DescriptorStep (S : FileStorage) (limit : ℕ) (s : FileSystem)
    (e : FileOp × Except Failure Unit) (t : FileSystem) : Prop :=
  FileOpStep S s e t ∧ e.1.OpensFree S limit s

/-! ### One operation -/

section Operation

variable {S : FileStorage} {s t : FileSystem} {id src : Bytes} {a : SysAnswers} {size limit : ℕ}
  {op : FileOp}

/-- `store` closes the descriptor that it opens. -/
theorem storeFile_fds (hfree : ∀ fd ∈ a.openFd, fd ∉ s.fds) :
    (storeFile s id a src).2.fds = s.fds := by
  unfold storeFile
  cases hopen : a.openFd with
  | none => rfl
  | some fd =>
    have hfd := hfree fd hopen
    dsimp only [FileSystem.openCreate, FileSystem.write]
    cases a.write.count src.length with
    | none => exact FileSystem.fds_close_open _ rfl hfd
    | some n =>
      dsimp only
      split
      · exact FileSystem.fds_close_open _ rfl hfd
      · exact FileSystem.fds_close_open _ rfl hfd

/-- `load` closes the descriptor that it opens, unless `file_size` throws. -/
theorem loadFile_fds (hfree : ∀ fd ∈ a.openFd, fd ∉ s.fds) :
    (loadFile s id a).2.fds =
      s.fds ∪ (if a.fileSize = false then a.openFd else none).toFinset := by
  unfold loadFile
  cases hopen : a.openFd with
  | none => simp [FileSystem.openCreate]
  | some fd =>
    have hfd := hfree fd hopen
    cases hsize : a.fileSize with
    | false =>
      rw [if_pos rfl, Option.toFinset_some, Finset.union_comm]
      rfl
    | true =>
      rw [if_neg (by decide), Option.toFinset_none, Finset.union_empty]
      dsimp only [FileSystem.openCreate, FileSystem.fileSize]
      rw [FileSystem.files_put_self]
      dsimp only [Option.map_some, FileSystem.read]
      cases a.read.count (s.contents (cStr id)).length with
      | none => exact FileSystem.fds_close_open _ rfl hfd
      | some n =>
        dsimp only
        split
        · exact FileSystem.fds_close_open _ rfl hfd
        · exact FileSystem.fds_close_open _ rfl hfd

/-- `alloc` of `PosixStorage` does so if the file is truncated and mapped. -/
theorem posix_alloc_fds (size : ℕ) (hfree : ∀ fd ∈ a.openFd, fd ∉ s.fds) :
    (PosixStorage.alloc s id a size).2.fds = s.fds ∪
      (if a.ftruncate = false ∨ a.mmap = false ∨ size = 0 then a.openFd else none).toFinset := by
  unfold PosixStorage.alloc
  cases hopen : a.openFd with
  | none => simp [FileSystem.openCreate]
  | some fd =>
    have hfd := hfree fd hopen
    dsimp only [FileSystem.openCreate]
    cases htruncate : a.ftruncate with
    | false =>
      rw [if_pos (Or.inl rfl), Option.toFinset_some, Finset.union_comm]
      rfl
    | true =>
      dsimp only [FileSystem.ftruncate, FileSystem.mmap]
      by_cases hmap : a.mmap = true ∧ size ≠ 0
      · rw [if_pos hmap, if_neg (by simp [hmap]), Option.toFinset_none, Finset.union_empty]
        exact FileSystem.fds_close_open _ rfl hfd
      · have hfails : a.mmap = false ∨ size = 0 := by
          rwa [not_and_or, not_not, Bool.not_eq_true] at hmap
        rw [if_neg hmap, if_pos (Or.inr hfails), Option.toFinset_some, Finset.union_comm]
        rfl

/-- `find` of `PosixStorage` closes the descriptor that it opens. -/
theorem posix_find_fds (hfree : ∀ fd ∈ a.openFd, fd ∉ s.fds) :
    (PosixStorage.find s id a).2.fds = s.fds := by
  unfold PosixStorage.find FileSystem.openExisting
  cases hopen : a.openFd with
  | none => rfl
  | some fd =>
    cases hfile : s.files (cStr id) with
    | none => rfl
    | some v => exact FileSystem.fds_close_open _ rfl (hfree fd hopen)

/-- `FilesystemPMDKStorage` opens no descriptor of its own to map a file. -/
theorem pmdkFs_alloc_fds (size : ℕ) : (FilesystemPMDKStorage.alloc s id a size).2.fds = s.fds := by
  unfold FilesystemPMDKStorage.alloc FileSystem.pmemMapCreate
  by_cases hsize : size = 0
  · rw [if_pos hsize]
  · rw [if_neg hsize]
    cases a.pmemMap <;> rfl

/-- `find` of `FilesystemPMDKStorage` opens no descriptor. -/
theorem pmdkFs_find_fds : (FilesystemPMDKStorage.find s id a).2.fds = s.fds := by
  unfold FilesystemPMDKStorage.find
  cases s.files (cStr id) with
  | none => rfl
  | some v =>
    dsimp only
    cases s.pmemMapWhole (cStr id) a.pmemMap <;> rfl

/-- Filling a buffer opens nothing. -/
theorem fill_fds (buf : MmapBuffer) (bytes : Bytes) : (buf.fill s bytes).fds = s.fds := by
  unfold MmapBuffer.fill
  cases buf.mapping <;> rfl

/-- **An operation leaves open what it forgets to close, and nothing else.** -/
theorem FileOp.exec_fds (hfree : ∀ fd ∈ op.opens S, fd ∉ s.fds) :
    (op.exec S s).2.fds = s.fds ∪ (op.leaks S).toFinset := by
  cases op with
  | call c =>
    cases c with
    | store id src a =>
      show (S.store s id a src).2.fds = s.fds ∪ ∅
      rw [S.store_eq_storeFile, Finset.union_empty]
      exact storeFile_fds hfree
    | alloc id size contents a =>
      have hfill : ((call (.alloc id size contents a)).exec S s).2.fds =
          (S.alloc s id a size).2.fds := by
        dsimp only [exec, FileCall.exec]
        rcases S.alloc s id a size with ⟨e | buf, u⟩
        · rfl
        · exact fill_fds buf contents
      rw [hfill]
      cases S with
      | posix =>
        refine (posix_alloc_fds size hfree).trans ?_
        congr 2
        cases hopen : a.openFd <;> simp [leaks, opens, Forgets, hopen]
      | pmdkFs =>
        refine (pmdkFs_alloc_fds size).trans ?_
        simp [leaks, Forgets]
    | free id a =>
      show (S.free s id a).2.fds = s.fds ∪ ∅
      rw [S.free_eq_freeFile, Finset.union_empty]
      unfold freeFile FileSystem.remove
      cases a.remove <;> rfl
  | find id a =>
    rw [exec, leaks, if_neg (by simp [Forgets]), Option.toFinset_none, Finset.union_empty]
    cases S with
    | posix => exact posix_find_fds hfree
    | pmdkFs => exact pmdkFs_find_fds
  | load id a =>
    rw [exec, S.load_eq_loadFile]
    refine (loadFile_fds hfree).trans ?_
    congr 2
    cases hopen : a.openFd <;> simp [leaks, opens, Forgets, hopen]

/-- The descriptor that an operation leaves open is the one that it was given. -/
theorem FileOp.leaks_mem {fd : ℕ} (h : fd ∈ op.leaks S) : fd ∈ op.opens S := by
  unfold leaks at h
  split at h
  · exact h
  · cases h

/-- An operation that forgets leaves a descriptor open. -/
theorem FileOp.leaks_isSome : (op.leaks S).isSome ↔ op.Forgets S := by
  unfold leaks
  by_cases hforgets : op.Forgets S
  · rw [if_pos hforgets]
    refine iff_of_true ?_ hforgets
    cases op with
    | call c =>
      cases c with
      | alloc id size contents a =>
        rw [opens, if_pos hforgets.1]
        exact hforgets.2.1
      | store => cases hforgets
      | free => cases hforgets
    | find => cases hforgets
    | load id a => exact hforgets.1
  · rw [if_neg hforgets]
    exact iff_of_false (by simp) hforgets

/-- An operation leaves the descriptors as they were exactly if it forgets none. -/
theorem FileOp.exec_fds_eq_iff (hfree : ∀ fd ∈ op.opens S, fd ∉ s.fds) :
    (op.exec S s).2.fds = s.fds ↔ ¬op.Forgets S := by
  rw [exec_fds hfree, ← leaks_isSome, Finset.union_eq_left]
  cases hleaks : op.leaks S with
  | none => simp
  | some fd =>
    simpa using hfree fd (leaks_mem hleaks)

end Operation

/-! ### Runs -/

/-- What a step keeps open was free. -/
theorem descriptorStep_keeps (S : FileStorage) (limit : ℕ) :
    StepKeeps (DescriptorStep S limit) FileSystem.fds fun e => e.1.leaks S := by
  rintro s e t ⟨hexec, hfree⟩
  have hnew (fd : ℕ) (hfd : fd ∈ e.1.opens S) : fd ∉ s.fds := (hfree fd hfd).2
  refine ⟨fun fd hfd => hnew fd (FileOp.leaks_mem hfd), ?_⟩
  have hfds := FileOp.exec_fds hnew
  rw [hexec] at hfds
  exact hfds

/-- The descriptors below the limit of the process. -/
def descriptorTable (limit : ℕ) : Finset ℕ := Finset.range limit

/-- A run leaves the descriptors of its start, and so does not use the table up. -/
def DescriptorsKept (limit : ℕ) (start t : FileSystem) : Prop :=
  t.fds = start.fds ∧ ¬UsedUp (descriptorTable limit) t.fds

section Runs

variable {S : FileStorage} {limit : ℕ} {start s t : FileSystem} {id src : Bytes} {a : SysAnswers}
  {events : List (FileOp × Except Failure Unit)} {result : Except Failure Unit}

/-- Once the table is used up, a `store` cannot open its file. -/
theorem usedUp_store_throws (hused : UsedUp (descriptorTable limit) s.fds)
    (hstep : DescriptorStep S limit s (.call (.store id src a), result) t) :
    result = .error (.thrown .posixOpenFailed) ∧ t = s := by
  obtain ⟨hexec, hfree⟩ := hstep
  have hopen : a.openFd = none := by
    by_contra hsome
    obtain ⟨fd, hfd⟩ := Option.ne_none_iff_exists'.mp hsome
    obtain ⟨hlimit, hnew⟩ := hfree fd hfd
    exact hnew (hused (Finset.mem_range.mpr hlimit))
  have hstore : S.store s id a src = (result, t) := hexec
  rw [S.store_eq_storeFile, storeFile, hopen] at hstore
  cases hstore
  exact ⟨rfl, rfl⟩

/-- The descriptors of a run are all below the limit. -/
theorem descriptorStep_table (S : FileStorage) (limit : ℕ) (s : FileSystem)
    (e : FileOp × Except Failure Unit) (t : FileSystem) (h : DescriptorStep S limit s e t) :
    ∀ fd ∈ e.1.leaks S, fd ∈ descriptorTable limit :=
  fun fd hfd => Finset.mem_range.mpr (h.2 fd (FileOp.leaks_mem hfd)).1

/-- **A call leaves the descriptors as they were exactly if it forgets none, and so does a
run; it uses the table up exactly when as many calls have forgotten one as were free.** -/
theorem descriptorsKept_iff (S : FileStorage) :
    (∀ (s : FileSystem) (op : FileOp), (∀ fd ∈ op.opens S, fd ∉ s.fds) →
      ((op.exec S s).2.fds = s.fds ↔ ¬op.Forgets S)) ∧
    ∀ {limit : ℕ} {start t : FileSystem} {events : List (FileOp × Except Failure Unit)},
      start.fds ⊂ descriptorTable limit → Run (DescriptorStep S limit) start events t →
        (DescriptorsKept limit start t ↔ ∀ e ∈ events, ¬e.1.Forgets S) ∧
        (UsedUp (descriptorTable limit) t.fds ↔
          start.fds.card + events.countP (fun e => e.1.Forgets S) = limit) := by
  refine ⟨fun s op => FileOp.exec_fds_eq_iff, ?_⟩
  intro limit start t events hstart hrun
  have hkeeps := descriptorStep_keeps S limit
  constructor
  · have hnone (e : FileOp × Except Failure Unit) :
        e.1.leaks S = none ↔ ¬e.1.Forgets S := by
      rw [← FileOp.leaks_isSome, Option.isSome_iff_ne_none, not_not]
    have hsame : t.fds = start.fds ↔ ∀ e ∈ events, ¬e.1.Forgets S := by
      rw [hkeeps.run_eq_iff hrun]
      exact forall₂_congr fun e _ => hnone e
    rw [← hsame]
    refine ⟨And.left, fun heq => ⟨heq, ?_⟩⟩
    rw [heq]
    exact hstart.2
  · have hcount : events.countP (fun e => (e.1.leaks S).isSome) =
        events.countP (fun e => e.1.Forgets S) :=
      List.countP_congr fun e _ => by rw [FileOp.leaks_isSome, decide_eq_true_iff]
    rw [hkeeps.usedUp_iff (descriptorStep_table S limit) hstart.1 hrun, hcount, descriptorTable,
      Finset.card_range]

end Runs

/-- An empty directory, with the standard streams of the process open. -/
def emptyDirectory : FileSystem := ⟨fun _ => none, {0, 1, 2}⟩

/-- The table of a process without open files has room. -/
theorem emptyDirectory_free {limit : ℕ} (hlimit : 3 < limit) :
    emptyDirectory.fds ⊂ descriptorTable limit := by
  refine ⟨?_, ?_⟩
  · intro fd hfd
    have hstream : fd = 0 ∨ fd = 1 ∨ fd = 2 := by simpa [emptyDirectory] using hfd
    exact Finset.mem_range.mpr (by omega)
  · intro hall
    have hthree : 3 ∈ descriptorTable limit := Finset.mem_range.mpr hlimit
    exact absurd (hall hthree) (by decide)

/-- A `store` and a `load` take the same descriptor, one after the other. -/
theorem descriptorsKept_store_load :
    ((FileOp.call (.alloc [97] 1 [7] (.served 3))).exec .posix emptyDirectory).2.fds =
        emptyDirectory.fds ∧
      ∃ t, Run (DescriptorStep .posix 1024) emptyDirectory
          [(.call (.store [97] [7] (.served 3)), .ok ()), (.load [97] (.served 3), .ok ())] t ∧
        DescriptorsKept 1024 emptyDirectory t := by
  have hopens (op : FileOp) (s : FileSystem) (hop : op.opens .posix = some 3) (hs : 3 ∉ s.fds) :
      op.OpensFree .posix 1024 s := by
    intro fd hfd
    rw [hop] at hfd
    cases hfd
    exact ⟨by decide, hs⟩
  refine ⟨((descriptorsKept_iff .posix).1 _ _ ?_).mpr (by decide), ?_⟩
  · exact fun fd hfd => (hopens _ emptyDirectory rfl (by decide) fd hfd).2
  · obtain ⟨s, hs⟩ : ∃ s, s = (FileStorage.posix.store emptyDirectory [97] (.served 3) [7]).2 :=
      ⟨_, rfl⟩
    have hfds : s.fds = emptyDirectory.fds := by rw [hs]; rfl
    have hstore : DescriptorStep .posix 1024 emptyDirectory
        (.call (.store [97] [7] (.served 3)), .ok ()) s :=
      ⟨by rw [hs]; rfl, hopens _ _ rfl (by decide)⟩
    have hfile : s.files (cStr [97]) = some [7] := by rw [hs]; rfl
    have hload : DescriptorStep .posix 1024 s (.load [97] (.served 3), .ok ())
        (FileStorage.posix.load s [97] (.served 3)).2 := by
      have hok : (FileStorage.posix.load s [97] (.served 3)).1 = .ok [7] :=
        FileStorage.load_eq .posix hfile (SysAnswers.served_spec 3)
      refine ⟨?_, hopens _ _ rfl (by rw [hfds]; decide)⟩
      rw [FileOpStep, FileOp.exec, hok]
      rfl
    have hrun := (Run.single hstore).snoc hload
    refine ⟨_, hrun, (((descriptorsKept_iff .posix).2 ?_ hrun).1).mpr ?_⟩
    · exact emptyDirectory_free (by decide)
    · decide

/-- An `alloc` of no bytes leaves its descriptor open, and with four descriptors it was the
last one. A `load` leaves its own open when `file_size` throws. -/
theorem alloc_empty_leaks :
    ((FileOp.call (.alloc [97] 0 [] (.served 3))).exec .posix emptyDirectory).2.fds ≠
        emptyDirectory.fds ∧
      (∃ t, Run (DescriptorStep .posix 4) emptyDirectory
          [(.call (.alloc [97] 0 [] (.served 3)), .error (.thrown .posixMmapFailed))] t ∧
        UsedUp (descriptorTable 4) t.fds) ∧
      ((FileOp.load [97] { SysAnswers.served 3 with fileSize := false }).exec
        .pmdkFs emptyDirectory).2.fds ≠ emptyDirectory.fds := by
  refine ⟨by decide, ⟨_, Run.single ⟨rfl, ?_⟩, by decide⟩, by decide⟩
  intro fd hfd
  cases hfd
  exact ⟨by decide, by decide⟩

end Pmemcpy
