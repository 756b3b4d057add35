import Pmemcpy.Lib.Probe
import Pmemcpy.Serialize.Message

/-!
# What is read of a flat message

A `FlatArrayMessageReader` gets an array of words. It takes the segments that
the table announces from this array, and the accessors of `PrimitiveData` follow
the pointers in them. Segments and objects are checked against the array, and a
message that does not pass is refused. The serializer hands it the number of
bytes of its buffer as the number of words. The limits of its `ReaderOptions` are
left out.
-/

namespace Pmemcpy

open Lib

/-- What a reader does: it looks at the memory of its array, and returns or throws. -/
abbrev Reading := Probe KjException

/-- `KJ_REQUIRE`. -/
def kjRequire (cond : Prop) [Decidable cond] : Reading Unit :=
  if cond then .done (.ok ()) else .done (.error .malformed)

/-- A segment of a message: its first word in the array, and the number of its words. -/
structure Segment where
  start : ℕ
  size : ℕ
  deriving DecidableEq, Repr

namespace Segment

/-- The word behind the segment. -/
def finish (s : Segment) : ℕ := s.start + s.size

/-- `checkOffset`: what is not in the segment becomes its end. -/
def checkOffset (s : Segment) (base : ℕ) (offset : ℤ) : ℕ :=
  if (s.start : ℤ) ≤ base + offset ∧ base + offset ≤ s.finish then (base + offset).toNat
  else s.finish

/-- `checkObject`: the words from `pos` on are in the segment. -/
def CheckObject (s : Segment) (pos words : ℕ) : Prop := pos + words ≤ s.finish

instance (s : Segment) (pos words : ℕ) : Decidable (s.CheckObject pos words) :=
  inferInstanceAs (Decidable (_ ≤ _))

end Segment

/-- `WirePointer::Kind`. -/
inductive PointerKind where
  | struct
  | list
  | far
  | other
  deriving DecidableEq, Repr

/-- A word that is read as a pointer. -/
structure WirePointer where
  offsetAndKind : ℕ
  upper32Bits : ℕ
  deriving DecidableEq, Repr

namespace WirePointer

variable (ref : WirePointer)

/-- The two halves of a word. -/
def ofBytes (b : Bytes) : WirePointer := ⟨ofLe (b.take 4), ofLe (b.drop 4)⟩

/-- The null pointer is all zeros. -/
def IsNull : Prop := ref = ⟨0, 0⟩

instance : Decidable ref.IsNull := inferInstanceAs (Decidable (_ = _))

/-- The two low bits of a pointer are its kind. -/
def kind : PointerKind :=
  match ref.offsetAndKind % 4 with
  | 0 => .struct
  | 1 => .list
  | 2 => .far
  | _ => .other

/-- The signed distance, in words, from the word behind the pointer. -/
def offset : ℤ :=
  if ref.offsetAndKind / 4 < 2 ^ 29 then ref.offsetAndKind / 4 else ref.offsetAndKind / 4 - 2 ^ 30

/-- `target`, of the pointer at `pos` in a segment. -/
def target (s : Segment) (pos : ℕ) : ℕ := s.checkOffset (pos + 1) ref.offset

/-- `structRef.dataSize`, in words. -/
def dataSize : ℕ := ref.upper32Bits % 2 ^ 16

/-- `structRef.ptrCount`. -/
def ptrCount : ℕ := ref.upper32Bits / 2 ^ 16

/-- `listRef.elementSize()`. -/
def elementSize : ℕ := ref.upper32Bits % 8

/-- `listRef.elementCount()`, which is `inlineCompositeWordCount()` for structs. -/
def elementCount : ℕ := ref.upper32Bits / 8

/-- `inlineCompositeListElementCount()`. -/
def inlineCompositeListElementCount : ℕ := ref.offsetAndKind / 4

/-- `isDoubleFar()`. -/
def IsDoubleFar : Prop := ref.offsetAndKind / 4 % 2 = 1

instance : Decidable ref.IsDoubleFar := inferInstanceAs (Decidable (_ = _))

/-- `farPositionInSegment()`. -/
def farPositionInSegment : ℕ := ref.offsetAndKind / 8

end WirePointer

/-- The pointer at a word of the array. -/
def lookPointer (pos : ℕ) : Reading WirePointer :=
  .look (8 * pos) 8 fun b => .done (.ok (.ofBytes b))

namespace FlatArrayMessageReader

/-- `table[i]`. -/
def lookTable (i : ℕ) : Reading ℕ := .look (4 * i) 4 fun b => .done (.ok (ofLe b))

/-- The segments from number `i` on, one after another from the word `offset` on. -/
def segmentsFrom (words i offset : ℕ) : ℕ → Reading (List Segment)
  | 0 => pure []
  | more + 1 => do
    let segmentSize ← lookTable (i + 1)
    kjRequire (offset + segmentSize ≤ words)
    let rest ← segmentsFrom words (i + 1) (offset + segmentSize) more
    pure (⟨offset, segmentSize⟩ :: rest)

/-- `segmentCount`, as a `uint`. -/
def segmentCount (first : ℕ) : ℕ := (first + 1) % 2 ^ 32

/-- The number of words of the table. -/
def tableWords (first : ℕ) : ℕ := segmentCount first / 2 + 1

/-- The constructor: the segments of the message. There is always a first one. -/
def construct (words : ℕ) : Reading (List Segment) :=
  if words < 1 then pure []
  else do
    let first ← lookTable 0
    kjRequire (tableWords first ≤ words)
    segmentsFrom words 0 (tableWords first) (max 1 (segmentCount first))

/-- The segments are read one entry of the table after the other. -/
theorem segmentsFrom_succ (words i off more : ℕ) : segmentsFrom words i off (more + 1) =
    .look (4 * (i + 1)) 4 fun b => (kjRequire (off + ofLe b ≤ words)).bind fun _ =>
      (segmentsFrom words (i + 1) (off + ofLe b) more).bind fun rest =>
        .done (.ok (⟨off, ofLe b⟩ :: rest)) := rfl

/-- An array that has words has a table, which is read first. -/
theorem construct_eq {words : ℕ} (hwords : ¬words < 1) : construct words =
    .look 0 4 fun b => (kjRequire (tableWords (ofLe b) ≤ words)).bind fun _ =>
      segmentsFrom words 0 (tableWords (ofLe b)) (max 1 (segmentCount (ofLe b))) := by
  rw [construct, if_neg hwords]
  rfl

end FlatArrayMessageReader

/-- `tryGetSegment`, with the check that there is one; an empty segment is none. -/
def tryGetSegment (segments : List Segment) (segmentId : ℕ) : Reading Segment :=
  match segments[segmentId]? with
  | some s => if s.size = 0 then .done (.error .malformed) else .done (.ok s)
  | none => .done (.error .malformed)

/-- A pointer that describes an object, and where the object is. -/
structure Followed where
  ref : WirePointer
  segment : Segment
  ptr : ℕ
  deriving DecidableEq, Repr

/-- `followFars`, of a pointer at `pos`: a far pointer leads to a landing pad, and a double
one from there to the object, with a tag behind the pad. -/
def followFars (segments : List Segment) (segment : Segment) (pos : ℕ) (ref : WirePointer) :
    Reading Followed :=
  if ref.kind = .far then do
    let segment ← tryGetSegment segments ref.upper32Bits
    let ptr := segment.checkOffset segment.start ref.farPositionInSegment
    kjRequire (segment.CheckObject ptr (if ref.IsDoubleFar then 2 else 1))
    let pad ← lookPointer ptr
    if ref.IsDoubleFar then do
      let newSegment ← tryGetSegment segments pad.upper32Bits
      kjRequire (pad.kind = .far)
      let tag ← lookPointer (ptr + 1)
      pure ⟨tag, newSegment, newSegment.checkOffset newSegment.start pad.farPositionInSegment⟩
    else pure ⟨pad, segment, pad.target segment ptr⟩
  else pure ⟨ref, segment, ref.target segment pos⟩

/-- `StructReader`: the data words and, behind them, the pointers. -/
structure StructReader where
  segment : Segment
  data : ℕ
  dataSize : ℕ
  ptrCount : ℕ
  deriving DecidableEq, Repr

/-- `readStructPointer`, at `pos`; a null pointer is a struct without fields. -/
def readStructPointer (segments : List Segment) (segment : Segment) (pos : ℕ) :
    Reading StructReader := do
  let ref ← lookPointer pos
  if ref.IsNull then pure ⟨segment, 0, 0, 0⟩
  else do
    let found ← followFars segments segment pos ref
    kjRequire (found.ref.kind = .struct)
    kjRequire (found.segment.CheckObject found.ptr (found.ref.dataSize + found.ref.ptrCount))
    pure ⟨found.segment, found.ptr, found.ref.dataSize, found.ref.ptrCount⟩

/-- `getRoot<PrimitiveData>()`. -/
def getRoot (segments : List Segment) : Reading StructReader := do
  let segment ← tryGetSegment segments 0
  readStructPointer segments segment segment.start

/-- The byte at which `PrimitiveData` keeps a scalar. -/
def ElemType.dataOffset (T : ElemType) : ℕ :=
  match T.sizeof with
  | 4 => 4
  | 8 => 8
  | _ => 0

/-- `get##CT()`: a field behind the data of the struct is zero. -/
def StructReader.getScalar (s : StructReader) (T : ElemType) : Reading Bytes :=
  if T.dataOffset + T.sizeof ≤ 8 * s.dataSize then
    .look (8 * s.data + T.dataOffset) T.sizeof fun b => .done (.ok b)
  else pure (List.replicate T.sizeof 0)

/-- `ListReader`: the first word, the number of elements, and the bits from one to the next. -/
structure ListReader where
  ptr : ℕ
  elementCount : ℕ
  step : ℕ
  deriving DecidableEq, Repr

/-- `dataBitsPerElement`, of the element size in a list pointer. -/
def dataBitsPerElement : ℕ → ℕ
  | 1 => 1
  | 2 => 8
  | 3 => 16
  | 4 => 32
  | 5 => 64
  | _ => 0

/-- `pointersPerElement`. -/
def pointersPerElement : ℕ → ℕ
  | 6 => 1
  | _ => 0

namespace Followed

/-- A list of structs, behind a tag that describes them; the elements are their first fields. -/
def inlineCompositeList (found : Followed) : Reading ListReader := do
  kjRequire (found.segment.CheckObject found.ptr (found.ref.elementCount + 1))
  let tag ← lookPointer found.ptr
  kjRequire (tag.kind = .struct)
  let size := tag.inlineCompositeListElementCount
  let wordsPerElement := tag.dataSize + tag.ptrCount
  kjRequire (size * wordsPerElement ≤ found.ref.elementCount)
  kjRequire (0 < tag.dataSize)
  pure ⟨found.ptr + 1, size, 64 * wordsPerElement⟩

/-- A list of numbers or of pointers, which have no data. -/
def primitiveList (found : Followed) (T : ElemType) : Reading ListReader := do
  let dataSize := dataBitsPerElement found.ref.elementSize
  let step := dataSize + 64 * pointersPerElement found.ref.elementSize
  let wordCount := (found.ref.elementCount * step + 63) / 64
  kjRequire (found.segment.CheckObject found.ptr wordCount)
  kjRequire (found.ref.elementSize ≠ 1)
  kjRequire (8 * T.sizeof ≤ dataSize)
  pure ⟨found.ptr, found.ref.elementCount, step⟩

end Followed

/-- `readListPointer`, at `pos`, of a list of `T`. -/
def readListPointer (segments : List Segment) (segment : Segment) (pos : ℕ) (T : ElemType) :
    Reading ListReader := do
  let ref ← lookPointer pos
  if ref.IsNull then pure ⟨pos, 0, 0⟩
  else do
    let found ← followFars segments segment pos ref
    kjRequire (found.ref.kind = .list)
    if found.ref.elementSize = 7 then found.inlineCompositeList else found.primitiveList T

/-- `get##CT##Arr()`: the pointer is behind the data of the struct, if it has one. -/
def StructReader.getList (s : StructReader) (segments : List Segment) (T : ElemType) :
    Reading ListReader :=
  if 0 < s.ptrCount then readListPointer segments s.segment (s.data + s.dataSize) T
  else pure ⟨s.data, 0, 0⟩

/-- `dst[i] = temp[i]`, for as many elements from number `i` on. -/
def ListReader.copyFrom (temp : ListReader) (T : ElemType) (i : ℕ) : ℕ → Reading Bytes
  | 0 => pure []
  | more + 1 => .look (8 * temp.ptr + i * temp.step / 8) T.sizeof fun b => do
    let rest ← temp.copyFrom T (i + 1) more
    pure (b ++ rest)

namespace CapnProtoNoCompressSerializer

/-- `_deserialize(dst, src)`, of a buffer of `size` bytes. -/
def deserialize (T : ElemType) (size : ℕ) : Reading Bytes := do
  let segments ← FlatArrayMessageReader.construct size
  let num ← getRoot segments
  num.getScalar T

/-- `_deserialize(dst, src, dims)`: it copies the elements of the list, as many as there are. -/
def deserializeArray (T : ElemType) (size : ℕ) (_dims : ℕ) : Reading Bytes := do
  let segments ← FlatArrayMessageReader.construct size
  let nums ← getRoot segments
  let temp ← nums.getList segments T
  temp.copyFrom T 0 temp.elementCount

end CapnProtoNoCompressSerializer

end Pmemcpy
