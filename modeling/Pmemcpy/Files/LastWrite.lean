import Pmemcpy.Lib.Run
import Pmemcpy.Files.Storages

/-!
# The last write under an id

Every call changes the file of its own id only. An `alloc` gives the file its
size before it is filled, but a `store` writes over the start of the file that
is there, so what is read afterwards is the last write exactly if that file was
not longer. `FilesystemPMDKStorage` cannot map an empty file either.
-/

namespace Pmemcpy

open Lib

/-- A call of a client of a file storage, with the answers of the system. `alloc` is
followed by filling the buffer it returned. -/
inductive FileCall where
  | store (id src : Bytes) (a : SysAnswers)
  | alloc (id : Bytes) (size : ℕ) (contents : Bytes) (a : SysAnswers)
  | free (id : Bytes) (a : SysAnswers)
  deriving DecidableEq, Repr

namespace FileCall

/-- The id a call is about. -/
def id : FileCall → Bytes
  | store id _ _ => id
  | alloc id _ _ _ => id
  | free id _ => id

/-- The bytes a call stores under its id. -/
def writes : FileCall → Option Bytes
  | store _ src _ => some src
  | alloc _ _ contents _ => some contents
  | free _ _ => none

/-- What a call does. -/
def exec (S : FileStorage) (s : FileSystem) : FileCall → Except Failure Unit × FileSystem
  | store id src a => S.store s id a src
  | alloc id size contents a =>
    match S.alloc s id a size with
    | (.error e, t) => (.error e, t)
    | (.ok buf, t) => (.ok (), buf.fill t contents)
  | free id a => S.free s id a

/-- A buffer is filled exactly. -/
def Fills : FileCall → Prop
  | store _ _ _ => True
  | alloc _ size contents _ => contents.length = size
  | free _ _ => True

end FileCall

/-- A step of a run: a call that returns normally. -/
def FileStep (S : FileStorage) (s : FileSystem) (c : FileCall) (t : FileSystem) : Prop :=
  c.Fills ∧ c.exec S s = (.ok (), t)

/-! ### What is read -/

section Reads

variable {S : FileStorage} {s : FileSystem} {id v : Bytes} {a : SysAnswers}

/-- `load` reads the file of its id. -/
theorem FileStorage.load_eq (S : FileStorage) (hv : s.files (cStr id) = some v) (ha : a.Served) :
    (S.load s id a).1 = .ok v := by
  obtain ⟨fd, hfd⟩ := Option.isSome_iff_exists.mp ha.openFd
  simp [S.load_eq_loadFile, loadFile, hfd, FileSystem.openCreate, ha.fileSize, FileSystem.fileSize,
    FileSystem.read, ha.read, Transfer.count, FileSystem.contents, hv]

/-- `find` of `PosixStorage` maps the file of its id. -/
theorem posix_findBytes_eq (hv : s.files (cStr id) = some v) (ha : a.Served) :
    (FileStorage.posix.findBytes s id a).1 = .ok (v.length, v) := by
  obtain ⟨fd, hfd⟩ := Option.isSome_iff_exists.mp ha.openFd
  by_cases hnil : v = []
  · simp [FileStorage.findBytes, FileStorage.find, PosixStorage.find, hfd, FileSystem.openExisting,
      hv, FileSystem.contents, hnil, MmapBuffer.bytes, Except.map]
  · simp [FileStorage.findBytes, FileStorage.find, PosixStorage.find, hfd, FileSystem.openExisting,
      hv, FileSystem.contents, hnil, MmapBuffer.bytes, Except.map, FileSystem.mmap, ha.mmap,
      FileSystem.readMapping]

/-- `find` of `FilesystemPMDKStorage` does so unless the file is empty. -/
theorem pmdkFs_findBytes_eq (hv : s.files (cStr id) = some v) (ha : a.Served) :
    (FileStorage.pmdkFs.findBytes s id a).1 =
      if v = [] then .error (.thrown .posixMmapFailed) else .ok (v.length, v) := by
  by_cases hnil : v = []
  · simp [FileStorage.findBytes, FileStorage.find, FilesystemPMDKStorage.find, hv,
      FileSystem.pmemMapWhole, hnil]
  · simp [FileStorage.findBytes, FileStorage.find, FilesystemPMDKStorage.find, hv,
      FileSystem.pmemMapWhole, hnil, ha.pmemMap, MmapBuffer.bytes, Except.map,
      FileSystem.readMapping]

/-- What is read under an id when the system serves every call: its contents by
`load`, and their length and the contents by `find`. -/
def ReadsAs (S : FileStorage) (s : FileSystem) (id v : Bytes) : Prop :=
  ∀ a : SysAnswers, a.Served →
    (S.load s id a).1 = .ok v ∧ (S.findBytes s id a).1 = .ok (v.length, v)

section Congr

variable {t : FileSystem} (a : SysAnswers) (h : s.files (cStr id) = t.files (cStr id))
include h

/-- Equal files have equal contents. -/
theorem contents_congr : s.contents (cStr id) = t.contents (cStr id) := by
  rw [FileSystem.contents, h, FileSystem.contents]

/-- A `load` returns the same of equal files. -/
theorem loadFile_congr : (loadFile s id a).1 = (loadFile t id a).1 := by
  have hcontents := contents_congr h
  unfold loadFile
  cases a.openFd with
  | none => rfl
  | some fd =>
    cases a.fileSize with
    | false => rfl
    | true =>
      simp only [FileSystem.openCreate, FileSystem.fileSize, FileSystem.files_put_self,
        Option.map_some, FileSystem.read, FileSystem.contents, Option.getD_some]
      simp only [FileSystem.contents] at hcontents
      rw [hcontents]
      cases a.read.count ((t.files (cStr id)).getD []).length with
      | none => rfl
      | some n => simp only [apply_ite Prod.fst]

/-- `find` of `PosixStorage` finds the same in equal files. -/
theorem posix_findBytes_congr :
    (FileStorage.posix.findBytes s id a).1 = (FileStorage.posix.findBytes t id a).1 := by
  simp only [FileStorage.findBytes, FileStorage.find, PosixStorage.find]
  cases a.openFd with
  | none => rfl
  | some fd =>
    simp only [FileSystem.openExisting]
    rw [h]
    cases hfile : t.files (cStr id) with
    | none => rfl
    | some v =>
      rw [hfile] at h
      by_cases hmap : a.mmap = true ∧ v.length ≠ 0
      · simp [FileSystem.contents, FileSystem.close, FileSystem.mmap, MmapBuffer.bytes,
          FileSystem.readMapping, h, hfile, hmap]
      · have hnone : FileSystem.mmap (cStr id) v.length a.mmap = none := if_neg hmap
        simp [FileSystem.contents, FileSystem.close, MmapBuffer.bytes, h, hfile, hnone]

/-- `find` of `FilesystemPMDKStorage` finds the same in equal files. -/
theorem pmdkFs_findBytes_congr :
    (FileStorage.pmdkFs.findBytes s id a).1 = (FileStorage.pmdkFs.findBytes t id a).1 := by
  simp only [FileStorage.findBytes, FileStorage.find, FilesystemPMDKStorage.find,
    FileSystem.pmemMapWhole]
  cases hfile : t.files (cStr id) with
  | none => rw [h, hfile]
  | some v =>
    rw [hfile] at h
    by_cases hmap : a.pmemMap = .mapped ∧ v ≠ []
    · simp [MmapBuffer.bytes, FileSystem.readMapping, h, hfile, hmap]
    · simp [h, hmap]

/-- What `load` and `find` return depends on the file of the id only. -/
theorem FileStorage.reads_congr (S : FileStorage) :
    (S.load s id a).1 = (S.load t id a).1 ∧
      (S.findBytes s id a).1 = (S.findBytes t id a).1 := by
  constructor
  · rw [S.load_eq_loadFile, S.load_eq_loadFile]
    exact loadFile_congr a h
  · cases S with
    | posix => exact posix_findBytes_congr a h
    | pmdkFs => exact pmdkFs_findBytes_congr a h

end Congr

/-- The answers of a system that serves every call. -/
def SysAnswers.served (fd : ℕ) : SysAnswers :=
  ⟨some fd, true, true, .full, true, .full, true, .mapped⟩

/-- The answers `served` serve every call of the system. -/
theorem SysAnswers.served_spec (fd : ℕ) : (SysAnswers.served fd).Served :=
  ⟨rfl, rfl, rfl, rfl, rfl, rfl, rfl, rfl⟩

/-- Files with the same contents read the same. -/
theorem ReadsAs.congr {t : FileSystem} (h : s.files (cStr id) = t.files (cStr id)) :
    ReadsAs S s id v ↔ ReadsAs S t id v := by
  have hreads (a : SysAnswers) := S.reads_congr a h
  simp only [ReadsAs, fun a => (hreads a).1, fun a => (hreads a).2]

/-- A file reads as its contents, except an empty one that `FilesystemPMDKStorage` has to map. -/
theorem readsAs_iff {w : Bytes} (hw : s.files (cStr id) = some w) :
    ReadsAs S s id v ↔ w = v ∧ (S = .pmdkFs → v ≠ []) := by
  constructor
  · intro hreads
    have ha := SysAnswers.served_spec 3
    obtain ⟨hload, hfind⟩ := hreads (.served 3) ha
    obtain rfl : w = v := by simpa [S.load_eq hw ha] using hload
    refine ⟨rfl, ?_⟩
    rintro rfl hnil
    rw [pmdkFs_findBytes_eq hw ha, if_pos hnil] at hfind
    cases hfind
  · rintro ⟨rfl, hempty⟩ a ha
    refine ⟨S.load_eq hw ha, ?_⟩
    cases S with
    | posix => exact posix_findBytes_eq hw ha
    | pmdkFs => rw [pmdkFs_findBytes_eq hw ha, if_neg (hempty rfl)]

end Reads

/-! ### What is written -/

section Writes

variable {S : FileStorage} {s t : FileSystem} {c : FileCall} {id v other : Bytes}

/-- What a call that returns leaves under the name of its id. -/
def FileCall.leaves (s : FileSystem) : FileCall → Option Bytes
  | store id src _ => some (splice (s.contents (cStr id)) 0 src)
  | alloc _ _ contents _ => some contents
  | free id a => if a.remove = true then none else s.files (cStr id)

/-- An `alloc` of a run has returned a buffer, and it is filled. -/
theorem FileStep.alloc_buffer {a : SysAnswers} {size : ℕ} {contents : Bytes}
    (h : FileStep S s (.alloc id size contents a) t) :
    ∃ buf, (S.alloc s id a size).1 = .ok buf ∧ buf.fill (S.alloc s id a size).2 contents = t := by
  obtain ⟨_, hexec⟩ := h
  rw [FileCall.exec] at hexec
  cases hresult : S.alloc s id a size with
  | mk result u =>
    rw [hresult] at hexec
    cases result with
    | error e => cases hexec
    | ok buf => exact ⟨buf, rfl, congrArg Prod.snd hexec⟩

/-- A step changes the file of its own id, and no other. -/
theorem FileStep.files (h : FileStep S s c t) :
    t.files = (s.put (cStr c.id) (c.leaves s)).files := by
  obtain ⟨hfills, hexec⟩ := h
  cases c with
  | store id src a =>
    have hstore : S.store s id a src = (.ok (), t) := hexec
    have heffect := S.store_effect s id src a
    rw [hstore] at heffect
    generalize hfiles : t.files = files at heffect
    cases heffect
    rfl
  | alloc id size contents a =>
    obtain ⟨buf, hok, rfl⟩ := alloc_buffer ⟨hfills, hexec⟩
    have hfill : splice (resize (s.contents (cStr id)) size) 0 contents = contents := by
      rw [splice_zero_eq_iff, length_resize]
      exact hfills.ge
    have hfiles := (FileStorage.alloc_ok hok).2 contents
    rw [hfill] at hfiles
    exact hfiles
  | free id a =>
    obtain rfl : s.remove (cStr id) a.remove = t :=
      congrArg Prod.snd ((S.free_eq_freeFile s id a).symm.trans hexec)
    cases hremove : a.remove with
    | false =>
      rw [FileCall.leaves, hremove]
      exact (FileSystem.put_eq_self rfl).symm
    | true =>
      rw [FileCall.leaves, hremove]
      rfl

/-- The file of another id is what it was. -/
theorem FileStep.files_other (h : FileStep S s c t) (hother : other ≠ cStr c.id) :
    t.files other = s.files other := by
  rw [h.files, FileSystem.files_put_of_ne hother]

/-- A buffer that was filled is not empty: nothing maps an empty file. -/
theorem FileStep.contents_ne_nil {a : SysAnswers} {size : ℕ} {contents : Bytes}
    (h : FileStep S s (.alloc id size contents a) t) : contents ≠ [] := by
  obtain ⟨buf, hok, _⟩ := h.alloc_buffer
  have hsize := (FileStorage.alloc_ok hok).1
  rintro rfl
  exact hsize h.1.symm

/-- Calls on other ids leave a file alone. -/
theorem run_files_other {calls : List FileCall} (hrun : Run (FileStep S) s calls t)
    (hother : ∀ c ∈ calls, other ≠ cStr c.id) : t.files other = s.files other := by
  induction hrun with
  | nil => rfl
  | snoc _ hstep ih =>
    rw [hstep.files_other (hother _ (by simp)), ih fun c hc => hother c (by simp [hc])]

/-- A call determines what it leads to. -/
theorem FileStep.deterministic {u : FileSystem} (h : FileStep S s c t) (h' : FileStep S s c u) :
    t = u :=
  congrArg Prod.snd (h.2.symm.trans h'.2)

end Writes

/-! ### Runs -/

/-- The ids of a file storage: names of files, without NUL bytes. -/
structure FileId (id : Bytes) : Prop where
  nonempty : id ≠ []
  slash : 47 ∉ id
  nulFree : NulFree id

/-- The last call on its id is `c`, which comes after `pre` and wrote `v`. -/
def LastWrite (calls pre : List FileCall) (c : FileCall) (v : Bytes) : Prop :=
  ∃ post, calls = pre ++ c :: post ∧ c.writes = some v ∧ ∀ d ∈ post, d.id ≠ c.id

/-- Every id whose last call was a `store` or an `alloc` reads as what this call wrote. -/
def LastWriteWins (S : FileStorage) (calls : List FileCall) (t : FileSystem) : Prop :=
  ∀ pre c v, LastWrite calls pre c v → ReadsAs S t c.id v

/-- A `store` covers the whole of the file that is there before it, and leaves no file
that cannot be mapped. An `alloc` always does. -/
def FileCall.Covers (S : FileStorage) (s : FileSystem) : FileCall → Prop
  | store id src _ => (s.contents (cStr id)).length ≤ src.length ∧ (S = .pmdkFs → src ≠ [])
  | alloc _ _ _ _ => True
  | free _ _ => True

/-- The last write of every id covers the file that is there before it. -/
def LastWritesCover (S : FileStorage) (start : FileSystem) (calls : List FileCall) : Prop :=
  ∀ pre c v, LastWrite calls pre c v → ∀ s, Run (FileStep S) start pre s → c.Covers S s

/-- What a call left reads as what it wrote exactly if the call covers the file. -/
theorem FileStep.readsAs_iff {S : FileStorage} {s t : FileSystem} {c : FileCall} {v : Bytes}
    (h : FileStep S s c t) (hv : c.writes = some v) : ReadsAs S t c.id v ↔ c.Covers S s := by
  have hfiles : t.files (cStr c.id) = c.leaves s := by
    rw [h.files, FileSystem.files_put_self]
  cases c with
  | store id src a =>
    obtain rfl : src = v := by simpa [FileCall.writes] using hv
    rw [Pmemcpy.readsAs_iff hfiles, splice_zero_eq_iff, FileCall.Covers]
  | alloc id size contents a =>
    obtain rfl : contents = v := by simpa [FileCall.writes] using hv
    rw [Pmemcpy.readsAs_iff hfiles]
    exact iff_of_true ⟨rfl, fun _ => h.contents_ne_nil⟩ trivial
  | free id a => simp [FileCall.writes] at hv

/-- **Last write wins** in a file storage exactly where the last write of each id
covers the file it finds: for every starting directory and every run of calls that
return normally, on any ids without NUL bytes. -/
theorem lastWriteWins_iff {S : FileStorage} {start t : FileSystem} {calls : List FileCall}
    (hrun : Run (FileStep S) start calls t) (hids : ∀ c ∈ calls, FileId c.id) :
    LastWriteWins S calls t ↔ LastWritesCover S start calls := by
  have hlast {pre : List FileCall} {c : FileCall} {v : Bytes} (h : LastWrite calls pre c v)
      {s : FileSystem} (hs : Run (FileStep S) start pre s) :
      ReadsAs S t c.id v ↔ c.Covers S s := by
    obtain ⟨post, rfl, hv, hpost⟩ := h
    obtain ⟨s', hpre, hrest⟩ := hrun.split
    obtain rfl : s' = s := hpre.deterministic (fun _ _ _ _ h h' => h.deterministic h') hs
    obtain ⟨u, hstep, hafter⟩ := hrest.cons_inv
    have hkept : t.files (cStr c.id) = u.files (cStr c.id) := by
      apply run_files_other hafter
      intro d hd
      rw [cStr_eq_self_iff.mpr (hids c (by simp)).nulFree,
        cStr_eq_self_iff.mpr (hids d (by simp [hd])).nulFree]
      exact (hpost d hd).symm
    rw [← hstep.readsAs_iff hv]
    exact ReadsAs.congr hkept
  constructor
  · intro hwins pre c v h s hs
    exact (hlast h hs).mp (hwins pre c v h)
  · intro hcover pre c v h
    have hsplit := h
    obtain ⟨post, hcalls, _⟩ := hsplit
    rw [hcalls] at hrun
    obtain ⟨s, hpre, _⟩ := hrun.split
    exact (hlast h hpre).mpr (hcover pre c v h s hpre)

/-- A call that returns normally is a step. -/
theorem FileStep.of_ok {S : FileStorage} {s : FileSystem} {c : FileCall} (hfills : c.Fills)
    (hok : (c.exec S s).1 = .ok ()) : FileStep S s c (c.exec S s).2 :=
  ⟨hfills, Prod.ext hok rfl⟩

/-- An `alloc` of two bytes shortens a file of three. -/
theorem lastWriteWins_alloc :
    ∃ t, Run (FileStep .posix) (FileSystem.empty.put [97] (some [1, 2, 3]))
        [.alloc [97] 2 [4, 5] (.served 3)] t ∧
      LastWriteWins .posix [.alloc [97] 2 [4, 5] (.served 3)] t := by
  have hrun : Run (FileStep .posix) (FileSystem.empty.put [97] (some [1, 2, 3]))
      [.alloc [97] 2 [4, 5] (.served 3)] _ := Run.single (FileStep.of_ok rfl rfl)
  refine ⟨_, hrun, (lastWriteWins_iff hrun ?_).mpr ?_⟩
  · intro c hc
    obtain rfl := List.mem_singleton.mp hc
    exact ⟨by decide, by decide, by decide⟩
  · rintro pre c v ⟨post, hcalls, _⟩ s _
    have hmem : c ∈ [FileCall.alloc [97] 2 [4, 5] (.served 3)] := hcalls ▸ by simp
    obtain rfl := List.mem_singleton.mp hmem
    trivial

/-- Of two `store`s the second, shorter one leaves the end of the first. -/
theorem shorter_store_keeps_tail :
    ¬∀ t, Run (FileStep .posix) FileSystem.empty
        [.store [97] [1, 2] (.served 3), .store [97] [3] (.served 3)] t →
      LastWriteWins .posix
        [.store [97] [1, 2] (.served 3), .store [97] [3] (.served 3)] t := by
  intro hclaim
  have hfirst := FileStep.of_ok (S := .posix) (s := FileSystem.empty)
    (c := .store [97] [1, 2] (.served 3)) trivial rfl
  have hrun := (Run.single hfirst).snoc
    (FileStep.of_ok (c := .store [97] [3] (.served 3)) trivial rfl)
  have hreads := hclaim _ hrun [.store [97] [1, 2] (.served 3)] (.store [97] [3] (.served 3)) [3]
    ⟨[], rfl, rfl, by simp⟩
  have hload := (hreads (.served 3) (SysAnswers.served_spec 3)).1
  cases hload

end Pmemcpy
