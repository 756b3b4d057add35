import Pmemcpy.Memcpy.ModesAgree
import Mathlib.Algebra.BigOperators.Group.List.Basic

/-!
# The sizes of an array

A `Dimensions` converts what its caller passes to the type of the first argument, then to
`size_t`, and multiplies it up; `store` multiplies by the size of an element and
`est_encoded_size` adds its slack, all modulo `2^64` and without a check. A request is
refused only where a Cap'n Proto list would be too long.
-/

namespace Pmemcpy

open Lib

/-- The types of a first argument that `Dimensions` has a constructor for. -/
inductive DimType where
  | int8
  | int16
  | int32
  | int64
  | uint8
  | uint16
  | uint32
  | uint64
  deriving DecidableEq, Repr

namespace DimType

/-- The number of values of the type. -/
def size : DimType → ℕ
  | int8 | uint8 => 2 ^ 8
  | int16 | uint16 => 2 ^ 16
  | int32 | uint32 => 2 ^ 32
  | int64 | uint64 => 2 ^ 64

/-- The conversion of an integer to the type. -/
def convert (D : DimType) (arg : ℤ) : ℤ :=
  match D with
  | int8 | int16 | int32 | int64 => arg.bmod D.size
  | uint8 | uint16 | uint32 | uint64 => arg % D.size

/-- A conversion changes an integer by a multiple of the number of values. -/
theorem convert_emod_size (D : DimType) (arg : ℤ) : D.convert arg % D.size = arg % D.size := by
  cases D <;> simp [convert]

end DimType

/-- `Dimensions`, which is also `Offsets` and `Sizes`. -/
structure Dimensions where
  dims : List UInt64
  count : UInt64
  deriving DecidableEq, Repr

namespace Dimensions

/-- The constructors: the arguments become elements of a vector of the type `D` of the first one,
these become `size_t`, and `count_` their product. -/
def construct (D : DimType) (args : List ℤ) : Dimensions :=
  let dims := (args.map D.convert).map UInt64.ofInt
  ⟨dims, dims.foldl (fun count dim => count * dim) 1⟩

/-- The product in `size_t` is that of the converted arguments, as a `size_t`. -/
theorem count_construct (D : DimType) (args : List ℤ) :
    (construct D args).count = UInt64.ofInt (args.map D.convert).prod := by
  have hfold (l : List ℤ) (c : ℤ) : (l.map UInt64.ofInt).foldl (fun count dim => count * dim)
      (UInt64.ofInt c) = UInt64.ofInt (c * l.prod) := by
    induction l generalizing c with
    | nil => simp
    | cons arg l ih =>
      rw [List.map_cons, List.foldl_cons, ← UInt64.ofInt_mul, ih, List.prod_cons, mul_assoc]
  have hone := hfold (args.map D.convert) 1
  rw [one_mul] at hone
  exact hone

/-- The count is the product of the converted arguments, modulo `2^64`. -/
theorem toNat_count_construct (D : DimType) (args : List ℤ) :
    ((construct D args).count.toNat : ℤ) = (args.map D.convert).prod % 2 ^ 64 := by
  rw [count_construct, UInt64.ofInt, UInt64.toNat_ofNat']
  omega

/-- Arguments that are converted to `uint64_t` are multiplied exactly, modulo `2^64`. -/
theorem prod_convert_uint64 (args : List ℤ) :
    (args.map DimType.uint64.convert).prod % 2 ^ 64 = args.prod % 2 ^ 64 := by
  induction args with
  | nil => rfl
  | cons arg args ih =>
    rw [List.map_cons, List.prod_cons, List.prod_cons, Int.mul_emod, ih, ← Int.mul_emod]
    have hsame := DimType.uint64.convert_emod_size arg
    rw [Int.mul_emod, show DimType.uint64.convert arg % 2 ^ 64 = arg % 2 ^ 64 from hsame,
      ← Int.mul_emod]

end Dimensions

/-- `store` of an array of these dimensions. -/
def PMEM.storeArray (hash : Bytes → ℕ) (ser : SerializerType) (useMmap : Bool) (T : ElemType)
    (σ : Storage) (id : Bytes) (dims : Dimensions) (elems : Bytes) (a : Answers) :
    Except Failure Unit × Storage :=
  PMEM.store hash ser useMmap T σ id (.array dims.count.toNat elems) a

section Sizes

variable {ser : SerializerType} {T : ElemType} {D : DimType} {args : List ℤ} {count : ℕ}
  {elems : Bytes}

end Sizes

/-- A second dimension of `2^32` is lost where the first one is an `int`. -/
example : (Dimensions.construct .int32 [2, 2 ^ 32]).dims = [2, 0] := by decide

end Pmemcpy
