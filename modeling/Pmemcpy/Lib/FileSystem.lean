import Pmemcpy.Lib.Bytes
import Mathlib.Data.Finset.Basic
import Mathlib.Logic.Function.Basic

/-!
# The system calls of one directory

Regular files by name, and the descriptors that are open. Every system call
takes the answer that the system gives to it: whether it fails, which descriptor
it opens, how many bytes it moves. What the documentation rules out for every
system, such as a mapping of length zero, fails whatever the answer is.
-/

namespace Pmemcpy.Lib

/-- The files of a directory by their names, and the open descriptors. -/
structure FileSystem where
  files : Bytes → Option Bytes
  fds : Finset ℕ

/-- How a `read` or a `write` ends: it fails, it moves fewer bytes than asked for,
or it moves all of them. -/
inductive Transfer where
  | failed
  | short (n : ℕ)
  | full
  deriving DecidableEq, Repr

/-- The number of bytes that a transfer moves. -/
def Transfer.count (requested : ℕ) : Transfer → Option ℕ
  | failed => none
  | short n => some (min n requested)
  | full => some requested

/-- A transfer that is no failure and makes progress: it moves at least one byte, if
at least one is asked for. -/
def Transfer.Progresses : Transfer → Prop
  | .failed => False
  | .short n => 0 < n
  | .full => True

/-- A transfer moves no more than it was asked for. -/
theorem Transfer.count_le {requested n : ℕ} {moved : Transfer}
    (h : moved.count requested = some n) : n ≤ requested := by
  cases moved with
  | failed => cases h
  | short k =>
    obtain rfl : min k requested = n := by simpa [count] using h
    exact Nat.min_le_right _ _
  | full =>
    obtain rfl : requested = n := by simpa [count] using h
    exact le_rfl

/-- How `pmem_map_file` ends: it fails in one of its three steps, or maps the file. -/
inductive PmemMapEnd where
  | notOpened
  | notResized
  | notMapped
  | mapped
  deriving DecidableEq, Repr

/-- A shared mapping of the first `size` bytes of a file. -/
structure Mapping where
  name : Bytes
  size : ℕ
  deriving DecidableEq, Repr

/-- What `ftruncate` makes of the contents of a file. -/
def resize (v : Bytes) (size : ℕ) : Bytes := v.take size ++ List.replicate (size - v.length) 0

/-- A file that is resized has its new size. -/
@[simp] theorem length_resize (v : Bytes) (size : ℕ) : (resize v size).length = size := by
  simp only [resize, List.length_append, List.length_take, List.length_replicate]
  omega

/-- A file that is given the size it has stays as it is. -/
theorem resize_self (v : Bytes) : resize v v.length = v := by
  simp [resize]

namespace FileSystem

/-- No files, no open descriptors. -/
def empty : FileSystem := ⟨fun _ => none, ∅⟩

variable (s : FileSystem) (name : Bytes)

/-- The files with other contents under `name`. -/
def put (contents : Option Bytes) : FileSystem :=
  { s with files := Function.update s.files name contents }

/-- The contents of the file `name`; a file that does not exist counts as empty. -/
def contents : Bytes := (s.files name).getD []

/-- `open` with `O_CREAT`. -/
def openCreate : Option ℕ → Option ℕ × FileSystem
  | none => (none, s)
  | some fd =>
    let t := s.put name (some (s.contents name))
    (some fd, { t with fds := insert fd t.fds })

/-- `open` without `O_CREAT`. -/
def openExisting : Option ℕ → Option ℕ × FileSystem
  | none => (none, s)
  | some fd =>
    match s.files name with
    | none => (none, s)
    | some _ => (some fd, { s with fds := insert fd s.fds })

/-- `close`. -/
def close (fd : ℕ) : FileSystem := { s with fds := s.fds.erase fd }

/-- `ftruncate`. -/
def ftruncate (size : ℕ) : Bool → Bool × FileSystem
  | false => (false, s)
  | true => (true, s.put name ((s.files name).map fun v => resize v size))

/-- `write` at offset zero: the number of bytes moved. -/
def write (src : Bytes) (moved : Transfer) : Option ℕ × FileSystem :=
  match moved.count src.length with
  | none => (none, s)
  | some n => (some n, s.put name ((s.files name).map fun v => splice v 0 (src.take n)))

/-- The size of a file, by its path. -/
def fileSize : Bool → Option ℕ
  | false => none
  | true => (s.files name).map List.length

/-- `read` of `len` bytes at offset zero. -/
def read (len : ℕ) (moved : Transfer) : Option Bytes :=
  match moved.count len with
  | none => none
  | some n => some ((s.contents name).take n)

/-- `remove`. -/
def remove : Bool → FileSystem
  | false => s
  | true => s.put name none

/-- `mmap` of `size` bytes: a mapping of length zero fails. -/
def mmap (size : ℕ) (mapped : Bool) : Option Mapping :=
  if mapped = true ∧ size ≠ 0 then some ⟨name, size⟩ else none

/-- `pmem_map_file` with `PMEM_FILE_CREATE`: a length of zero fails at once, and the
file gets the length asked for. -/
def pmemMapCreate (size : ℕ) (ending : PmemMapEnd) : Option Mapping × FileSystem :=
  if size = 0 then (none, s)
  else
    let created := s.put name (some (s.contents name))
    let resized := s.put name (some (resize (s.contents name) size))
    match ending with
    | .notOpened => (none, s)
    | .notResized => (none, created)
    | .notMapped => (none, resized)
    | .mapped => (some ⟨name, size⟩, resized)

/-- `pmem_map_file` of a whole file: an empty file fails. -/
def pmemMapWhole (ending : PmemMapEnd) : Option Mapping :=
  match s.files name with
  | none => none
  | some v => if ending = .mapped ∧ v ≠ [] then some ⟨name, v.length⟩ else none

/-- The bytes behind a mapping, as long as the file is not shorter. -/
def readMapping (m : Mapping) : Option Bytes :=
  match s.files m.name with
  | none => none
  | some v => if m.size ≤ v.length then some (v.take m.size) else none

/-- Writing through a mapping, from its start. -/
def writeMapping (m : Mapping) (bytes : Bytes) : FileSystem :=
  s.put m.name ((s.files m.name).map fun v => splice v 0 bytes)

section Put

variable {s : FileSystem} {name other : Bytes}

/-- Only the file that is put changes. -/
theorem files_put (v : Option Bytes) (other : Bytes) :
    (s.put name v).files other = if other = name then v else s.files other :=
  Function.update_apply _ _ _ _

/-- The file that is put has its new contents. -/
@[simp] theorem files_put_self (v : Option Bytes) : (s.put name v).files name = v := by
  rw [files_put, if_pos rfl]

/-- The other files are as they were. -/
theorem files_put_of_ne (h : other ≠ name) (v : Option Bytes) :
    (s.put name v).files other = s.files other := by
  rw [files_put, if_neg h]

/-- Closing a descriptor changes no file. -/
@[simp] theorem files_close (fd : ℕ) : (s.close fd).files = s.files := rfl

/-- What was opened and is closed leaves the other descriptors. -/
theorem fds_close_open {fd : ℕ} (t : FileSystem) (hopen : t.fds = insert fd s.fds)
    (hfree : fd ∉ s.fds) : (t.close fd).fds = s.fds := by
  rw [close, hopen, Finset.erase_insert hfree]

/-- Putting the contents that are there changes nothing. -/
theorem put_eq_self {v : Option Bytes} (h : s.files name = v) : (s.put name v).files = s.files := by
  rw [put, ← h]
  exact Function.update_eq_self _ _

/-- A file that exists has the contents that are stored for it. -/
theorem contents_eq {v : Bytes} (h : s.files name = some v) : s.contents name = v := by
  rw [contents, h, Option.getD_some]

end Put

end FileSystem

end Pmemcpy.Lib
