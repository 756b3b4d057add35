import Mathlib.Data.Nat.Notation

/-!
# The errors of `util/errors.h`

Every error is a code with a message format. A call of the library ends
normally, throws one of these errors, or runs into behaviour that C++ leaves
undefined (a read through a null or dangling pointer, or past the end of a block).
-/

namespace Pmemcpy

/-- An error constant: its code, and the format of its message. -/
structure Error where
  code : ℕ
  fmt : String
  deriving DecidableEq, Repr

namespace Error

/-- A `read` moved another number of bytes than it was asked for. -/
def posixReadFailed : Error :=
  ⟨101, "Did not complete read of {} bytes to {}/{}. Return value: {}. Error Message: {}."⟩

/-- A `write` moved another number of bytes than it was asked for. -/
def posixWriteFailed : Error :=
  ⟨102, "Did not complete write of {} bytes to {}/{}. Return value: {}. Error Message: {}."⟩

/-- `ftruncate` failed. -/
def posixTruncateFailed : Error :=
  ⟨103, "Could not truncate {}/{} to size {}. Error Message: {}."⟩

/-- `open` failed. -/
def posixOpenFailed : Error :=
  ⟨104, "Could not open {}/{}. Error Message: {}."⟩

/-- A file could not be mapped. -/
def posixMmapFailed : Error :=
  ⟨105, "Could not mmap {} from fd {}. Error Message: {}."⟩

/-- The file of an id could not be opened or measured. -/
def posixFindFailed : Error :=
  ⟨106, "Could not find {}/{}. Error Message: {}."⟩

/-- `pmemobj_create` failed. -/
def pmdkHashPoolFailed : Error :=
  ⟨201, "Could not allocate pool at {} of size {} with {} buckets. Error Message: {}."⟩

/-- The table of the buckets could not be allocated. -/
def pmdkCreateHeaderFailed : Error :=
  ⟨202, "Failed to allocate header for {} of size {} with {} buckets. Error Message: {}."⟩

/-- `pmemobj_open` failed. -/
def pmdkCantOpenPool : Error :=
  ⟨204, "Failed to open pool at {}. Error Message: {}."⟩

/-- The list of the bucket has no entry for the id. -/
def pmdkCantFindKey : Error :=
  ⟨205, "Could not find key {} in the pool."⟩

/-- The block of a value could not be allocated. -/
def pmdkCantAllocateStr : Error :=
  ⟨206, "Could not allocate {} of data. Error Message: {}."⟩

end Error

/-- How a call ends when it does not return. -/
inductive Failure where
  /-- The call throws this error. -/
  | thrown (error : Error)
  /-- The call throws an exception of a library below, such as a full Cap'n Proto output array. -/
  | foreign
  /-- The behaviour of the call is undefined in C++. -/
  | undefined
  deriving DecidableEq, Repr

end Pmemcpy
