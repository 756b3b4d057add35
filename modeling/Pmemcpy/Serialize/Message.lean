import Pmemcpy.Lib.Packing

/-!
# What the serializers write

The Cap'n Proto serializers build a message with one `PrimitiveData` struct,
which holds a single element or points to a list of elements, and write it
packed or as it is. `NoSerializer` copies the elements. The elements are the
bytes they occupy in memory.
-/

namespace Pmemcpy

open Lib

/-- The element types that the serializers are instantiated at. -/
inductive ElemType where
  | int8 | int16 | int32 | int64 | uint8 | uint16 | uint32 | uint64 | float | double
  deriving DecidableEq, Repr

namespace ElemType

/-- `sizeof(T)`. -/
def sizeof : ElemType → ℕ
  | int8 => 1
  | int16 => 2
  | int32 => 4
  | int64 => 8
  | uint8 => 1
  | uint16 => 2
  | uint32 => 4
  | uint64 => 8
  | float => 4
  | double => 8

/-- The number of a scalar in the union `PrimitiveData`; a list of `T` comes ten later. -/
def ordinal : ElemType → ℕ
  | int8 => 0
  | int16 => 1
  | int32 => 2
  | int64 => 3
  | uint8 => 4
  | uint16 => 5
  | uint32 => 6
  | uint64 => 7
  | float => 8
  | double => 9

/-- The element size in a list pointer: one, two, four or eight bytes. -/
def sizeCode (T : ElemType) : ℕ :=
  match T.sizeof with
  | 1 => 2
  | 2 => 3
  | 4 => 4
  | _ => 5

/-- The element types have one, two, four or eight bytes. -/
theorem sizeof_cases (T : ElemType) :
    T.sizeof = 1 ∨ T.sizeof = 2 ∨ T.sizeof = 4 ∨ T.sizeof = 8 := by
  cases T <;> decide

/-- The code for the size of an element is that of a byte or more. -/
theorem sizeCode_bounds (T : ElemType) : 2 ≤ T.sizeCode ∧ T.sizeCode ≤ 5 := by
  cases T <;> decide

end ElemType

/-- What a client hands to `store`: one element, or an array of `count` of them,
with the bytes it has in memory. -/
inductive Source where
  | scalar (value : Bytes)
  | array (count : ℕ) (elems : Bytes)
  deriving DecidableEq, Repr

namespace Source

/-- The bytes in memory. -/
def bytes : Source → Bytes
  | scalar value => value
  | array _ elems => elems

/-- The number of elements. -/
def count : Source → ℕ
  | scalar _ => 1
  | array count _ => count

end Source

/-- The exceptions of Cap'n Proto that the serializers let through: a list of
2^29 elements or more, an `ArrayOutputStream` whose array is full, and a message
that a reader does not accept. -/
inductive KjException where
  | listTooLong
  | arrayFull
  | malformed
  deriving DecidableEq, Repr

/-! ### Cap'n Proto messages -/

/-- The word of two numbers of 32 bits. -/
def word32 (low high : ℕ) : Word := Word.ofBytes (leBytes 4 low ++ leBytes 4 high)

/-- The pointer to the root struct: two data words and one pointer follow it. -/
def rootPointer : Word := word32 0 (2 + 2 ^ 16)

/-- The first data word: the discriminant of the union, and nothing else. -/
def discriminant (n : ℕ) : Word := word32 (2 ^ 16 * n) 0

/-- The pointer to a list of elements that comes right after the pointer. -/
def listPointer (T : ElemType) (count : ℕ) : Word := word32 1 (8 * count + T.sizeCode)

/-- The pointer to the landing pad at the start of the second segment. -/
def farPointer : Word := word32 2 1

/-- The words of the struct for a scalar: elements of one or two bytes are before the
discriminant, those of four bytes after it, those of eight in the second data word. -/
def scalarWords (T : ElemType) (value : Bytes) : List Word :=
  match T.sizeof with
  | 4 => [Word.ofBytes (leBytes 4 (2 ^ 16 * T.ordinal) ++ value), Word.zero, Word.zero]
  | 8 => [discriminant T.ordinal, Word.ofBytes value, Word.zero]
  | _ => [Word.ofBytes ((value ++ List.replicate 2 0).take 2 ++ leBytes 2 T.ordinal),
      Word.zero, Word.zero]

/-- The segments of a message with an array: the list is in the first segment of
1024 words if it fits there, and otherwise behind a landing pad in a second one. -/
def arraySegments (T : ElemType) (count : ℕ) (elems : Bytes) : List (List Word) :=
  let list := wordsOf elems
  let head := [rootPointer, discriminant (T.ordinal + 10), Word.zero]
  if 4 + list.length ≤ 1024 then [head ++ listPointer T count :: list]
  else [head ++ [farPointer], listPointer T count :: list]

/-- `initRoot<PrimitiveData>()` followed by `set##CT` or `set##CT##Arr`. -/
def buildMessage (T : ElemType) : Source → Except KjException (List (List Word))
  | .scalar value => .ok [rootPointer :: scalarWords T value]
  | .array count elems =>
    if 2 ^ 29 ≤ count then .error .listTooLong else .ok (arraySegments T count elems)

/-- The table in front of the segments: their number less one, and their sizes. -/
def segmentTable (segments : List (List Word)) : List Word :=
  wordsOf (leBytes 4 (segments.length - 1) ++ segments.flatMap fun s => leBytes 4 s.length)

/-- A table is filled up to whole words. -/
theorem length_segmentTable (segments : List (List Word)) :
    (segmentTable segments).length = (segments.length + 2) / 2 := by
  have hsizes : (segments.flatMap fun s => leBytes 4 s.length).length = 4 * segments.length :=
    length_flatMap_of (fun _ => length_leBytes 4 _) segments
  rw [segmentTable, length_wordsOf, List.length_append, length_leBytes, hsizes]
  omega

/-- `writeMessage`: the table and the segments. -/
def writeMessage (segments : List (List Word)) : Bytes :=
  (segmentTable segments ++ segments.flatten).flatMap Word.bytes

/-- `writePackedMessage`: the table and each segment are packed on their own. -/
def writePackedMessage (segments : List (List Word)) : Bytes :=
  pack (segmentTable segments) ++ segments.flatMap pack

/-- Writing to an `ArrayOutputStream` over `room` bytes. -/
def arrayOutput (room : ℕ) (out : Bytes) : Except KjException Bytes :=
  if out.length ≤ room then .ok out else .error .arrayFull

/-! ### The serializers -/

namespace CapnProtoSerializer

/-- `est_encoded_size`, in `size_t`. -/
def estEncodedSize (size : ℕ) : ℕ := (size + 256) % 2 ^ 64

/-- `_serialize(buf, src)` and `_serialize(buf, src, count)`: what ends up at the
start of the buffer of `room` bytes. -/
def serializeInto (T : ElemType) (room : ℕ) (src : Source) : Except KjException Bytes := do
  let segments ← buildMessage T src
  arrayOutput room (writePackedMessage segments)

/-- `_serialize(src)` and `_serialize(src, count)`: a buffer of its own, which grows as needed. -/
def serialize (T : ElemType) (src : Source) : Except KjException Bytes := do
  let segments ← buildMessage T src
  return writePackedMessage segments

end CapnProtoSerializer

namespace CapnProtoNoCompressSerializer

/-- `est_encoded_size`, in `size_t`. -/
def estEncodedSize (size : ℕ) : ℕ := (size + 128) % 2 ^ 64

/-- `_serialize(buf, src)` and `_serialize(buf, src, count)`. -/
def serializeInto (T : ElemType) (room : ℕ) (src : Source) : Except KjException Bytes := do
  let segments ← buildMessage T src
  arrayOutput room (writeMessage segments)

/-- `_serialize(src)` and `_serialize(src, count)`. -/
def serialize (T : ElemType) (src : Source) : Except KjException Bytes := do
  let segments ← buildMessage T src
  return writeMessage segments

end CapnProtoNoCompressSerializer

namespace NoSerializer

/-- `est_encoded_size`. -/
def estEncodedSize (size : ℕ) : ℕ := size

/-- `_serialize(buf, src)` and `_serialize(buf, src, count)`: a `memcpy` that does not look
at the size of the buffer. -/
def serializeInto (_T : ElemType) (_room : ℕ) (src : Source) : Except KjException Bytes :=
  .ok src.bytes

/-- `_serialize(src)` and `_serialize(src, count)`. -/
def serialize (_T : ElemType) (src : Source) : Except KjException Bytes := .ok src.bytes

end NoSerializer

/-- `SerializerType`. -/
inductive SerializerType where
  | capnproto
  | capnprotoNocompress
  | noSerializer
  deriving DecidableEq, Repr

namespace SerializerType

/-- `est_encoded_size` of the serializer that `SerializerFactory` makes. -/
def estEncodedSize : SerializerType → ℕ → ℕ
  | capnproto => CapnProtoSerializer.estEncodedSize
  | capnprotoNocompress => CapnProtoNoCompressSerializer.estEncodedSize
  | noSerializer => NoSerializer.estEncodedSize

/-- `serialize` into a buffer. -/
def serializeInto : SerializerType → ElemType → ℕ → Source → Except KjException Bytes
  | capnproto => CapnProtoSerializer.serializeInto
  | capnprotoNocompress => CapnProtoNoCompressSerializer.serializeInto
  | noSerializer => NoSerializer.serializeInto

/-- `serialize` to a buffer of its own. -/
def serialize : SerializerType → ElemType → Source → Except KjException Bytes
  | capnproto => CapnProtoSerializer.serialize
  | capnprotoNocompress => CapnProtoNoCompressSerializer.serialize
  | noSerializer => NoSerializer.serialize

end SerializerType

end Pmemcpy
