import Pmemcpy.Files.LastWrite
import Pmemcpy.Hashtable.Sessions
import Pmemcpy.Serialize.Message

/-!
# The object that clients use

`PMEM` puts a storage and a serializer together. With `use_mmap` a `store`
allocates a buffer of the estimated size under the id and serializes into it, and
a `load` decodes from the memory of the storage; without, both go through a buffer
of their own.
-/

namespace Pmemcpy

open Lib

/-- The storage that `StorageFactory` makes. -/
inductive Storage where
  | hashtable (s : PMDKHashtableStorage)
  | files (S : FileStorage) (s : FileSystem)

/-- A `generic_buffer` that a storage hands out. -/
inductive Buffer where
  | pmem (buf : PmemBuffer)
  | mapped (buf : MmapBuffer)
  deriving DecidableEq, Repr

/-- What PMDK and the system answer to the calls that one operation makes, and what a
serializer that runs out of buffer has written to it by then. -/
structure Answers where
  block : Option Allocation
  entry : Option Allocation
  sys : SysAnswers
  wreck : Bytes
  deriving DecidableEq, Repr

namespace Storage

variable (hash : Bytes → ℕ) (id : Bytes) (a : Answers)

/-- `storage_->alloc`. -/
def alloc (size : ℕ) : Storage → Except Failure Buffer × Storage
  | hashtable s =>
    let (result, t) := s.alloc hash id size a.block a.entry
    (result.map .pmem, hashtable t)
  | files S s =>
    let (result, t) := S.alloc s id a.sys size
    (result.map .mapped, files S t)

/-- `storage_->store`. -/
def store (src : Bytes) : Storage → Except Failure Unit × Storage
  | hashtable s =>
    let (result, t) := s.store hash id src a.block a.entry
    (result, hashtable t)
  | files S s =>
    let (result, t) := S.store s id a.sys src
    (result, files S t)

/-- `storage_->find`, and the bytes of the buffer it returns. -/
def find : Storage → Except Failure Bytes × Storage
  | hashtable s => ((s.findBytes hash id).map Prod.snd, hashtable s)
  | files S s =>
    let (result, t) := S.findBytes s id a.sys
    (result.map Prod.snd, files S t)

/-- `storage_->load`. -/
def load : Storage → Except Failure Bytes × Storage
  | hashtable s => (s.load hash id, hashtable s)
  | files S s =>
    let (result, t) := S.load s id a.sys
    (result, files S t)

/-- Writing to the start of a buffer that the storage has handed out. -/
def fill (bytes : Bytes) : Buffer → Storage → Storage
  | .pmem buf, hashtable s => hashtable { s with pool := s.pool.write buf bytes }
  | .mapped buf, files S s => files S (buf.fill s bytes)
  -- a storage hands out buffers of its own kind only
  | _, σ => σ

end Storage

/-- What a client loads into: one element, or an array. -/
inductive Target where
  | scalar
  | array (count : ℕ)
  deriving DecidableEq, Repr

/-- The target that takes what a source stored. -/
def Source.target : Source → Target
  | scalar _ => .scalar
  | array count _ => .array count

/-- The message readers of Cap'n Proto, with the accessor for the element type: the
bytes of the element or of the elements of the list. -/
structure MessageReader where
  packed : ElemType → Target → Bytes → Except KjException Bytes
  flat : ElemType → Target → Bytes → Except KjException Bytes

/-- `deserialize`: the bytes that end up at the destination. -/
def SerializerType.deserialize (reader : MessageReader) :
    SerializerType → ElemType → Target → Bytes → Except KjException Bytes
  | capnproto => reader.packed
  | capnprotoNocompress => reader.flat
  | noSerializer => fun _ _ src => .ok src

/-- A message is read back from a buffer that begins with it, whatever follows. -/
def MessageReader.Reads (reader : MessageReader) (T : ElemType) (src : Source) : Prop :=
  ∀ segments rest, buildMessage T src = .ok segments →
    reader.packed T src.target (writePackedMessage segments ++ rest) = .ok src.bytes ∧
      reader.flat T src.target (writeMessage segments ++ rest) = .ok src.bytes

/-- Every message is read back: one element or an array, of every element type. -/
def MessageReader.ReadsBack (reader : MessageReader) : Prop :=
  ∀ T src, src.bytes.length = T.sizeof * src.count → reader.Reads T src

namespace PMEM

variable (hash : Bytes → ℕ) (ser : SerializerType) (useMmap : Bool) (T : ElemType) (σ : Storage)
  (id : Bytes)

/-- The size of the buffer that `store` allocates for a source. -/
def bufferSize (src : Source) : ℕ := ser.estEncodedSize ((T.sizeof * src.count) % 2 ^ 64)

/-- `store`, of one element and of an array. -/
def store (src : Source) (a : Answers) : Except Failure Unit × Storage :=
  if useMmap then
    match σ.alloc hash id a (bufferSize ser T src) with
    | (.error e, σ) => (.error e, σ)
    | (.ok buf, σ) =>
      match ser.serializeInto T (bufferSize ser T src) src with
      | .ok out => (.ok (), σ.fill out buf)
      | .error .listTooLong => (.error .foreign, σ)
      | .error .malformed => (.error .foreign, σ)
      | .error .arrayFull => (.error .foreign, σ.fill (a.wreck.take (bufferSize ser T src)) buf)
  else
    match ser.serialize T src with
    | .error _ => (.error .foreign, σ)
    | .ok serial => σ.store hash id a serial

/-- `load`, of one element and of an array. -/
def load (reader : MessageReader) (target : Target) (a : Answers) :
    Except Failure Bytes × Storage :=
  let (serial, σ) := if useMmap then σ.find hash id a else σ.load hash id a
  match serial with
  | .error e => (.error e, σ)
  | .ok v =>
    match ser.deserialize reader T target v with
    | .error _ => (.error .foreign, σ)
    | .ok dst => (.ok dst, σ)

/-- What `load` gets from the storage. -/
def loadSerial (a : Answers) : Except Failure Bytes :=
  (if useMmap then σ.find hash id a else σ.load hash id a).1

/-- What `load` returns is made of what it gets. -/
theorem load_eq (reader : MessageReader) (target : Target) (a : Answers) :
    (load hash ser useMmap T σ id reader target a).1 =
      match loadSerial hash useMmap σ id a with
      | .error e => .error e
      | .ok v =>
        match ser.deserialize reader T target v with
        | .error _ => .error .foreign
        | .ok dst => .ok dst := by
  rw [load, loadSerial]
  dsimp only
  cases (if useMmap then σ.find hash id a else σ.load hash id a).1 with
  | error e => rfl
  | ok v =>
    dsimp only
    cases ser.deserialize reader T target v <;> rfl

end PMEM

end Pmemcpy
