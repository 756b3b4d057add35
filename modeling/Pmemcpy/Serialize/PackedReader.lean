import Pmemcpy.Lib.Unpacking
import Pmemcpy.Serialize.PackedRoom
import Pmemcpy.Serialize.StoredBytes

/-!
# What is read of a packed message

A `PackedMessageReader` reads its buffer as a stream: it unpacks the table, and then the
words of the segments into memory of its own. The accessors follow the pointers in
these words only. So a packed message is read back whatever follows in its buffer. No
result is about what it makes of a buffer that does not begin with a packed message.
-/

namespace Pmemcpy

open Lib Probe

/-- A computation that returns after another one returns what the second one makes of the first. -/
theorem exists_of_bind {ε α β : Type} {x : Except ε α} {f : α → Except ε β} {r : β}
    (h : x >>= f = .ok r) : ∃ a, x = .ok a ∧ f a = .ok r := by
  cases x with
  | error e => cases h
  | ok a => exact ⟨a, rfl, h⟩

/-- Segments of these sizes, one after another from the word `off` on. -/
def segmentsOf : ℕ → List ℕ → List Segment
  | _, [] => []
  | off, size :: sizes => ⟨off, size⟩ :: segmentsOf (off + size) sizes

/-- The first `n` numbers of 32 bits. -/
def numbersOf (n : ℕ) (b : Bytes) : List ℕ := (List.range n).map fun i => ofLe (slice b (4 * i) 4)

namespace InputStreamMessageReader

/-- `inputStream.read`, of whole words. -/
def read (n : ℕ) (s : Bytes) : Except KjException (List Word × Bytes) :=
  match unpack n s with
  | some r => .ok r
  | none => .error .malformed

/-- The most segments that are accepted, and one. -/
def maxSegments : ℕ := 512

/-- `segmentCount`, as a `uint`, of the first word. -/
def segmentCount (first : Bytes) : ℕ := (ofLe (slice first 0 4) + 1) % 2 ^ 32

/-- `segment0Size`. -/
def segment0Size (first : Bytes) : ℕ :=
  if segmentCount first = 0 then 0 else ofLe (slice first 4 4)

/-- A message that was read: its words, the table in front, and where its segments are. -/
structure Message where
  words : List Word
  segments : List Segment
  deriving DecidableEq

/-- The constructor, and the rest of the segments that the destructor skips: a message
of which a part is missing is refused. -/
def construct (src : Bytes) : Except KjException Message := do
  let (firstWord, src) ← read 1 src
  let first := firstWord.flatMap Word.bytes
  if maxSegments ≤ segmentCount first then .error .malformed
  else do
    let (moreSizes, src) ← read (segmentCount first / 2) src
    let sizes := segment0Size first ::
      numbersOf (segmentCount first - 1) (moreSizes.flatMap Word.bytes)
    let (segments, _) ← read sizes.sum src
    let table := firstWord ++ moreSizes
    .ok ⟨table ++ segments, segmentsOf table.length sizes⟩

end InputStreamMessageReader

namespace CapnProtoSerializer

/-- `_deserialize`, of one element or of an array. -/
def decode (T : ElemType) (target : Target) (src : Bytes) : Except KjException Bytes := do
  let message ← InputStreamMessageReader.construct src
  (CapnProtoNoCompressSerializer.accessors T target message.segments).run
    (.holding (message.words.flatMap Word.bytes) fun _ => 0)

end CapnProtoSerializer

/-- The readers of Cap'n Proto, with some memory behind the buffer of a flat message. -/
def capnpReader (behind : Memory) : MessageReader where
  packed := CapnProtoSerializer.decode
  flat T target v :=
    (CapnProtoNoCompressSerializer.decode T v.length target).run (.holding v behind)

/-! ### The table -/

section Table

variable {segments : List (List Word)}

/-- The layout of a message is that of segments of these sizes, one after another. -/
theorem layout_eq (off : ℕ) (segments : List (List Word)) :
    layout off segments = segmentsOf off (segments.map List.length) := by
  induction segments generalizing off with
  | nil => rfl
  | cons s segments ih => rw [layout, ih, List.map_cons, segmentsOf]

/-- Numbers are read back, whatever follows. -/
theorem numbersOf_flatMap {xs : List ℕ} (hxs : ∀ x ∈ xs, x < 2 ^ 32) (rest : Bytes) :
    numbersOf xs.length (xs.flatMap (leBytes 4) ++ rest) = xs := by
  have hlength := length_flatMap_of (length_leBytes 4) xs
  apply List.ext_getElem
  · simp [numbersOf]
  · intro i hi hi'
    have hx : xs[i]? = some xs[i] := List.getElem?_eq_getElem hi'
    have hsmall := hxs xs[i] (List.getElem_mem hi')
    have hentry : slice (xs.flatMap (leBytes 4) ++ rest) (4 * i) 4 = leBytes 4 xs[i] := by
      rw [slice_append_left (by omega), slice_flatMap (length_leBytes 4) hx]
    simp only [numbersOf, List.getElem_map, List.getElem_range, hentry]
    exact ofLe_leBytes_of_lt (by omega)

/-- The first word of the table holds the number of segments and the size of the first one, and the
others follow. -/
theorem segmentTable_cons (s : List Word) (more : List (List Word)) :
    segmentTable (s :: more) =
      word32 more.length s.length :: wordsOf ((more.map List.length).flatMap (leBytes 4)) := by
  have hbytes : (word32 more.length s.length).bytes =
      leBytes 4 more.length ++ leBytes 4 s.length := by
    rw [word32, Word.bytes_ofBytes (by simp)]
    simp
  have hsplit : leBytes 4 ((s :: more).length - 1) ++ (s :: more).flatMap
      (fun s => leBytes 4 s.length) = (word32 more.length s.length).bytes ++
        (more.map List.length).flatMap (leBytes 4) := by
    rw [hbytes, List.flatMap_cons, List.flatMap_map, List.append_assoc]
    rfl
  rw [segmentTable, hsplit, wordsOf_append]

/-- A number that is not zero has a byte that is not. -/
theorem zeroBytes_lt_four {v : ℕ} (h : 0 < v) (h' : v < 2 ^ 32) : zeroBytes v < 4 :=
  Nat.lt_succ_of_le (zeroBytes_le_three h h')

/-- The first word of the table is packed on its own: the upper two bytes of a small number
are zero, and not all eight bytes are if more words follow. -/
theorem pack_segmentTable (s : List Word) {more : List (List Word)}
    (hmore : more.length < 2 ^ 16) :
    pack (segmentTable (s :: more)) = pack [word32 more.length s.length] ++
      pack (wordsOf ((more.map List.length).flatMap (leBytes 4))) := by
  rw [segmentTable_cons]
  cases more with
  | nil => exact (List.append_nil _).symm
  | cons t more =>
    have hlow := two_le_zeroBytes hmore
    have hhigh := zeroBytes_lt_four (v := (t :: more).length) (Nat.succ_pos _) (by omega)
    have hsize : zeroBytes s.length ≤ 4 := by
      have hle : (leBytes 4 s.length).count 0 ≤ (leBytes 4 s.length).length :=
        List.count_le_length
      rwa [length_leBytes] at hle
    have hzeros := zeros_word32 (t :: more).length s.length
    exact pack_append_of_zeros [] _ (by omega) (by omega)

/-- Segments that were packed one after another are unpacked one after another. -/
theorem unpack_segments (segments : List (List Word)) (rest : Bytes) :
    unpack segments.flatten.length (segments.flatMap pack ++ rest) =
      some (segments.flatten, rest) := by
  induction segments with
  | nil =>
    rw [unpack]
    rfl
  | cons s segments ih =>
    rw [List.flatten_cons, List.length_append, List.flatMap_cons, List.append_assoc]
    exact unpack_append (unpack_pack s _) ih

end Table

namespace InputStreamMessageReader

section Written

variable {segments : List (List Word)}

/-- Words that can be unpacked are read. -/
theorem read_eq {n : ℕ} {s : Bytes} {r : List Word × Bytes} (h : unpack n s = some r) :
    read n s = .ok r := by
  rw [read, h]

/-- The first word of the table holds two numbers. -/
theorem slice_word32 (low high : ℕ) :
    slice (word32 low high).bytes 0 4 = leBytes 4 low ∧
      slice (word32 low high).bytes 4 4 = leBytes 4 high := by
  have hbytes : (word32 low high).bytes = leBytes 4 low ++ leBytes 4 high := by
    rw [word32, Word.bytes_ofBytes (by simp)]
    simp
  constructor
  · rw [hbytes, slice_append_left (by simp)]
    simp [slice]
  · have hright := slice_append_right (leBytes 4 low) (leBytes 4 high) 0 4
    rw [length_leBytes] at hright
    rw [hbytes, hright]
    simp [slice]

/-- **The segments of a packed message are found**, whatever follows it in the stream. -/
theorem construct_written (hne : segments ≠ []) (hcount : segments.length < maxSegments)
    (hsizes : ∀ s ∈ segments, s.length < 2 ^ 32) (rest : Bytes) :
    construct (writePackedMessage segments ++ rest) =
      .ok ⟨segmentTable segments ++ segments.flatten,
        layout (segmentTable segments).length segments⟩ := by
  obtain ⟨s, more, rfl⟩ := List.exists_cons_of_ne_nil hne
  rw [maxSegments, List.length_cons] at hcount
  let table := wordsOf ((more.map List.length).flatMap (leBytes 4))
  have hfirst : read 1 (writePackedMessage (s :: more) ++ rest) =
      .ok ([word32 more.length s.length],
        pack table ++ ((s :: more).flatMap pack ++ rest)) := by
    rw [writePackedMessage, pack_segmentTable s (by omega), List.append_assoc, List.append_assoc]
    exact read_eq (unpack_pack [word32 more.length s.length] _)
  have hsmall : ∀ x ∈ more.map List.length, x < 2 ^ 32 := by
    intro x hx
    obtain ⟨t, ht, rfl⟩ := List.mem_map.mp hx
    exact hsizes t (List.mem_cons_of_mem s ht)
  have hs := hsizes s List.mem_cons_self
  obtain ⟨hlow, hhigh⟩ := slice_word32 more.length s.length
  have hsegments : segmentCount (word32 more.length s.length).bytes = more.length + 1 := by
    rw [segmentCount, hlow, ofLe_leBytes_of_lt (by omega)]
    omega
  have hsize : segment0Size (word32 more.length s.length).bytes = s.length := by
    rw [segment0Size, hsegments, if_neg (Nat.succ_ne_zero _), hhigh, ofLe_leBytes_of_lt (by omega)]
  have htable : table.length = (more.length + 1) / 2 := by
    rw [length_wordsOf, length_flatMap_of (length_leBytes 4), List.length_map]
    omega
  have hmore : read ((more.length + 1) / 2) (pack table ++ ((s :: more).flatMap pack ++ rest)) =
      .ok (table, (s :: more).flatMap pack ++ rest) := by
    rw [← htable]
    exact read_eq (unpack_pack table _)
  have hnumbers : numbersOf more.length (table.flatMap Word.bytes) = more.map List.length := by
    obtain ⟨tail, htail⟩ := flatMap_wordsOf ((more.map List.length).flatMap (leBytes 4))
    have h := numbersOf_flatMap hsmall tail
    rwa [List.length_map, ← htail] at h
  have hsum : (s.length :: more.map List.length).sum = (s :: more).flatten.length := by
    rw [List.length_flatten, List.map_cons]
  have hwords : read (s :: more).flatten.length ((s :: more).flatMap pack ++ rest) =
      .ok ((s :: more).flatten, rest) := read_eq (unpack_segments (s :: more) rest)
  have hlength : ([word32 more.length s.length] ++ table).length =
      (segmentTable (s :: more)).length := by
    rw [segmentTable_cons]
    rfl
  have hbytes : [word32 more.length s.length].flatMap Word.bytes =
      (word32 more.length s.length).bytes := List.flatMap_singleton _ _
  have haccepted : ¬maxSegments ≤ more.length + 1 := not_le.mpr hcount
  simp only [construct, hfirst, bind, Except.bind, hbytes, hsegments, hmore, hsize,
    Nat.add_sub_cancel, hnumbers, hsum, hwords, hlength, if_neg haccepted]
  rw [layout_eq, List.map_cons, segmentTable_cons]
  rfl

end Written

end InputStreamMessageReader

/-! ### Whole messages -/

section Messages

open CapnProtoNoCompressSerializer

variable {T : ElemType} {count : ℕ} {elems value : Bytes} {segments : List (List Word)}
  {src : Source} {result : Bytes}

/-- A message of a scalar has three words. -/
theorem length_scalarWords (T : ElemType) (value : Bytes) : (scalarWords T value).length = 3 := by
  unfold scalarWords
  split <;> rfl

/-- The scalar is behind as many bytes as the accessor skips. -/
theorem scalarWords_bytes (hvalue : value.length = T.sizeof) :
    ∃ front rest, (scalarWords T value).flatMap Word.bytes = front ++ (value ++ rest) ∧
      front.length = T.dataOffset := by
  have hsmall (h : T.sizeof ≤ 2) : (value ++ List.replicate 2 0).take 2 =
      value ++ List.replicate (2 - value.length) 0 := by
    rw [List.take_append, List.take_of_length_le (by omega), List.take_replicate,
      Nat.min_eq_left (by omega)]
  rcases T.sizeof_cases with h | h | h | h
  · simp only [scalarWords, ElemType.dataOffset, h]
    rw [hsmall (by omega), List.flatMap_cons, Word.bytes_ofBytes (by simp; omega)]
    simp only [List.append_assoc]
    exact ⟨[], _, rfl, rfl⟩
  · simp only [scalarWords, ElemType.dataOffset, h]
    rw [hsmall (by omega), List.flatMap_cons, Word.bytes_ofBytes (by simp; omega)]
    simp only [List.append_assoc]
    exact ⟨[], _, rfl, rfl⟩
  · simp only [scalarWords, ElemType.dataOffset, h]
    rw [List.flatMap_cons, Word.bytes_ofBytes (by simp; omega)]
    simp only [List.append_assoc]
    exact ⟨leBytes 4 (2 ^ 16 * T.ordinal), _, rfl, length_leBytes 4 _⟩
  · simp only [scalarWords, ElemType.dataOffset, h]
    rw [List.flatMap_cons, List.flatMap_cons, Word.bytes_ofBytes (b := value) (by omega)]
    simp only [List.append_assoc]
    exact ⟨(discriminant T.ordinal).bytes, _, rfl, Word.length_bytes _⟩

/-- The accessor finds the scalar in the message. -/
theorem slice_scalarWords (hvalue : value.length = T.sizeof) :
    slice ((scalarWords T value).flatMap Word.bytes) T.dataOffset T.sizeof = value := by
  obtain ⟨front, rest, hbytes, hfront⟩ := scalarWords_bytes hvalue
  have h := slice_append_right front (value ++ rest) 0 T.sizeof
  rw [Nat.add_zero, hfront, ← hbytes] at h
  rw [h, slice_append_left (by omega), ← hvalue]
  simp [slice]

/-- **Every scalar is read back** from a memory that begins with its message. -/
theorem run_deserialize {m : Memory} {size : ℕ} (hvalue : value.length = T.sizeof)
    (hm : m.Begins (writeMessage [rootPointer :: scalarWords T value]))
    (hsize : 5 ≤ size) : (deserialize T size).run m = .ok value := by
  have hwords := length_scalarWords T value
  let segments := [rootPointer :: scalarWords T value]
  have htable : (segmentTable segments).length = 1 := by
    rw [length_segmentTable, List.length_singleton]
  have hlength : segments.flatten.length = 4 := by
    rw [List.flatten_singleton, List.length_cons, hwords]
  have hlayout : layout 1 segments = [⟨1, 4⟩] := by
    simp only [segments, layout, List.length_cons, hwords]
  have hsegments : (FlatArrayMessageReader.construct size).run m = .ok [⟨1, 4⟩] := by
    have hsmall : segments.flatten.length < 2 ^ 32 := by omega
    have hfits : (segmentTable segments).length + segments.flatten.length ≤ size := by omega
    have h := run_construct hm (List.cons_ne_nil _ _) (by simp) (length_segment_lt hsmall) hfits
    rwa [htable, hlayout] at h
  have hroot : (getRoot [⟨1, 4⟩]).run m = .ok ⟨⟨1, 4⟩, 2, 2, 1⟩ := by
    have hword := getElem_message segments 0
    rw [htable] at hword
    exact run_getRoot hm rfl le_rfl hword
  have hfield : T.dataOffset + T.sizeof ≤ 8 * 2 := by
    cases T <;> decide
  have hdata := length_flatMap_bytes (scalarWords T value)
  have hfront : ((segmentTable segments ++ [rootPointer]).flatMap Word.bytes).length = 8 * 2 := by
    rw [length_flatMap_bytes, List.length_append, htable, List.length_singleton]
  have hmessage : writeMessage segments =
      (segmentTable segments ++ [rootPointer]).flatMap Word.bytes ++
        (scalarWords T value).flatMap Word.bytes := by
    rw [writeMessage, List.flatten_singleton, ← List.flatMap_append, List.append_assoc]
    rfl
  have hread : m.read (8 * 2 + T.dataOffset) T.sizeof = value := by
    have hright := slice_append_right ((segmentTable segments ++ [rootPointer]).flatMap Word.bytes)
      ((scalarWords T value).flatMap Word.bytes) T.dataOffset T.sizeof
    rw [← hmessage, hfront] at hright
    rw [hm _ _ (by rw [hmessage, List.length_append, hfront, hdata, hwords]; omega), hright,
      slice_scalarWords hvalue]
  rw [deserialize, bind_eq, run_bind_of_ok hsegments, bind_eq, run_bind_of_ok hroot,
    StructReader.getScalar, if_pos hfield, run, hread]
  rfl

/-- What the accessors find in the words of a message is what the flat reader finds. -/
theorem accessors_written {target : Target} (hne : segments ≠ [])
    (hcount : segments.length < 2 ^ 32) (hsizes : ∀ s ∈ segments, s.length < 2 ^ 32)
    (h : (decode T (writeMessage segments).length target).run
      (.holding (writeMessage segments) fun _ => 0) = .ok result) :
    (accessors T target (layout (segmentTable segments).length segments)).run
      (.holding (writeMessage segments) fun _ => 0) = .ok result := by
  have hfits : (segmentTable segments).length + segments.flatten.length ≤
      (writeMessage segments).length := by
    rw [length_writeMessage, length_segmentTable]
    omega
  have hbegins : (Memory.holding (writeMessage segments) fun _ => 0).Begins
      (writeMessage segments) := by
    have h := Memory.begins_holding (writeMessage segments) [] fun _ => 0
    rwa [List.append_nil] at h
  rw [decode_eq, run_bind_of_ok (run_construct hbegins hne hcount hsizes hfits)] at h
  exact h

/-- **What the packed reader finds in a message is what the flat reader finds in it.** -/
theorem decode_writePackedMessage {target : Target} (hne : segments ≠ [])
    (hcount : segments.length < InputStreamMessageReader.maxSegments)
    (hsizes : ∀ s ∈ segments, s.length < 2 ^ 32)
    (h : (decode T (writeMessage segments).length target).run
      (.holding (writeMessage segments) fun _ => 0) = .ok result) (rest : Bytes) :
    CapnProtoSerializer.decode T target (writePackedMessage segments ++ rest) = .ok result := by
  have hfound := InputStreamMessageReader.construct_written hne hcount hsizes rest
  rw [InputStreamMessageReader.maxSegments] at hcount
  have haccessors := accessors_written hne (by omega) hsizes h
  simp only [CapnProtoSerializer.decode, hfound, bind, Except.bind]
  exact haccessors

/-- A message has one or two segments, and they are not too long. -/
theorem buildMessage_segments (hsrc : src.bytes.length = T.sizeof * src.count)
    (hbuild : buildMessage T src = .ok segments) :
    segments ≠ [] ∧ segments.length < InputStreamMessageReader.maxSegments ∧
      ∀ s ∈ segments, s.length < 2 ^ 32 := by
  cases src with
  | scalar value =>
    obtain rfl : [rootPointer :: scalarWords T value] = segments := Except.ok.inj hbuild
    refine ⟨List.cons_ne_nil _ _, Nat.one_lt_ofNat, length_segment_lt ?_⟩
    rw [List.flatten_singleton, List.length_cons, length_scalarWords]
    decide
  | array count elems =>
    by_cases hlong : 2 ^ 29 ≤ count
    · rw [buildMessage, if_pos hlong] at hbuild
      cases hbuild
    · rw [buildMessage, if_neg hlong] at hbuild
      obtain rfl : arraySegments T count elems = segments := Except.ok.inj hbuild
      have hlength := (length_writeMessage_array T count elems).2
      have helems : elems.length = T.sizeof * count := hsrc
      have hsmall : (arraySegments T count elems).flatten.length < 2 ^ 32 := by
        rw [length_writeMessage] at hlength
        rcases T.sizeof_cases with h | h | h | h <;> rw [h] at helems <;> omega
      refine ⟨?_, ?_, length_segment_lt hsmall⟩
      · unfold arraySegments
        dsimp only
        split <;> exact List.cons_ne_nil _ _
      · unfold arraySegments
        dsimp only
        split
        · exact Nat.one_lt_ofNat
        · exact Nat.lt_add_of_pos_right (Nat.zero_lt_succ 509)

/-- The flat reader reads every source back. -/
theorem run_decode_written {size : ℕ} {m : Memory} (hsrc : src.bytes.length = T.sizeof * src.count)
    (hbuild : buildMessage T src = .ok segments) (hm : m.Begins (writeMessage segments))
    (hsize : (writeMessage segments).length ≤ size) :
    (decode T size src.target).run m = .ok src.bytes := by
  cases src with
  | scalar value =>
    obtain rfl : [rootPointer :: scalarWords T value] = segments := Except.ok.inj hbuild
    refine run_deserialize (hsrc.trans (Nat.mul_one _)) hm ?_
    have hwords := length_scalarWords T value
    rw [length_writeMessage, List.flatten_singleton, List.length_cons, List.length_cons] at hsize
    omega
  | array count elems =>
    by_cases hlong : 2 ^ 29 ≤ count
    · rw [buildMessage, if_pos hlong] at hbuild
      cases hbuild
    · rw [buildMessage, if_neg hlong] at hbuild
      obtain rfl : arraySegments T count elems = segments := Except.ok.inj hbuild
      exact run_deserializeArray (not_le.mp hlong) hsrc hm hsize count

/-- **Both readers read every message back**: one element or an array, of every element type,
packed or not, and whatever is behind the message in its buffer or behind the buffer. -/
theorem capnpReader_reads (behind : Memory) (hsrc : src.bytes.length = T.sizeof * src.count) :
    (capnpReader behind).Reads T src := by
  intro segments rest hbuild
  obtain ⟨hne, hcount, hsizes⟩ := buildMessage_segments hsrc hbuild
  constructor
  · apply decode_writePackedMessage hne hcount hsizes
    have hbegins := Memory.begins_holding (writeMessage segments) [] fun _ => 0
    rw [List.append_nil] at hbegins
    exact run_decode_written hsrc hbuild hbegins le_rfl
  · refine run_decode_written hsrc hbuild (Memory.begins_holding _ _ _) ?_
    rw [List.length_append]
    omega

/-- What a serializer writes into a buffer is what it writes into one of its own. -/
theorem SerializerType.serialize_of_into {ser : SerializerType} {room : ℕ} {out : Bytes}
    (h : ser.serializeInto T room src = .ok out) : ser.serialize T src = .ok out := by
  have hroom {whole : Bytes} (h : arrayOutput room whole = .ok out) : whole = out := by
    unfold arrayOutput at h
    split at h
    · exact Except.ok.inj h
    · cases h
  cases ser with
  | noSerializer => exact h
  | capnproto =>
    obtain ⟨segments, hbuild, hout⟩ := exists_of_bind h
    rw [← hroom hout, serialize, CapnProtoSerializer.serialize, hbuild]
    rfl
  | capnprotoNocompress =>
    obtain ⟨segments, hbuild, hout⟩ := exists_of_bind h
    rw [← hroom hout, serialize, CapnProtoNoCompressSerializer.serialize, hbuild]
    rfl

/-- A reader that reads the message of a source back reads back what any serializer wrote of it,
with the same serializer. -/
theorem SerializerType.deserialize_of_serialize {ser : SerializerType} {reader : MessageReader}
    {out rest : Bytes} (hreader : reader.Reads T src) (h : ser.serialize T src = .ok out)
    (hrest : ser = .noSerializer → rest = []) :
    ser.deserialize reader T src.target (out ++ rest) = .ok src.bytes := by
  cases ser with
  | noSerializer =>
    obtain rfl : src.bytes = out := Except.ok.inj h
    rw [hrest rfl, List.append_nil]
    rfl
  | capnproto =>
    obtain ⟨segments, hbuild, hout⟩ := exists_of_bind h
    obtain rfl : writePackedMessage segments = out := Except.ok.inj hout
    exact (hreader segments rest hbuild).1
  | capnprotoNocompress =>
    obtain ⟨segments, hbuild, hout⟩ := exists_of_bind h
    obtain rfl : writeMessage segments = out := Except.ok.inj hout
    exact (hreader segments rest hbuild).2

/-- **What any serializer wrote is read back by it**: for every element type, one element or
an array, written to a buffer of its own or into one that it is given, and, except for a plain
copy, whatever is behind it in the buffer that is read. -/
theorem serializer_round_trip {ser : SerializerType} {out rest : Bytes} (behind : Memory)
    (hsrc : src.bytes.length = T.sizeof * src.count)
    (h : ser.serialize T src = .ok out ∨ ∃ room, ser.serializeInto T room src = .ok out)
    (hrest : ser = .noSerializer → rest = []) :
    ser.deserialize (capnpReader behind) T src.target (out ++ rest) = .ok src.bytes := by
  have hreader := capnpReader_reads behind hsrc
  rcases h with h | ⟨room, h⟩
  · exact SerializerType.deserialize_of_serialize hreader h hrest
  · exact SerializerType.deserialize_of_serialize hreader (SerializerType.serialize_of_into h)
      hrest

/-- Two numbers of 16 bits are read back from a buffer with an older message behind theirs. -/
theorem serializer_round_trip_two : SerializerType.deserialize (capnpReader fun _ => 9)
    .capnproto .int16 (.array 2)
    (writePackedMessage (arraySegments .int16 2 [1, 0, 2, 0]) ++ [255, 3]) = .ok [1, 0, 2, 0] := by
  have hsrc : (Source.array 2 [1, 0, 2, 0]).bytes.length = ElemType.int16.sizeof * 2 := rfl
  exact serializer_round_trip (fun _ => 9) hsrc (Or.inl rfl) SerializerType.noConfusion

end Messages

end Pmemcpy
