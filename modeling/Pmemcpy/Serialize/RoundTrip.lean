import Pmemcpy.Serialize.Reader
import Pmemcpy.Memcpy.ModesAgree

/-!
# Reading back a flat message

The segments that the table announces are the segments that were written, and
the reader finds its way from the root struct to the list of elements: directly
if there is one segment, and through the landing pad if there are two. What is
behind the message in its buffer, and behind the buffer, does not matter.
-/

namespace Pmemcpy

open Lib Probe

/-- What a requirement that is met returns. -/
theorem run_kjRequire {cond : Prop} [Decidable cond] (h : cond) (m : Memory) :
    (kjRequire cond).run m = .ok () := by
  rw [kjRequire, if_pos h]
  rfl

/-! ### Words that are pointers -/

namespace WirePointer

/-- A word of two numbers is a pointer with these halves. -/
theorem ofBytes_word32 {low high : ℕ} (hlow : low < 2 ^ 32) (hhigh : high < 2 ^ 32) :
    ofBytes (word32 low high).bytes = ⟨low, high⟩ := by
  have hbytes : (word32 low high).bytes = leBytes 4 low ++ leBytes 4 high := by
    rw [word32, Word.bytes_ofBytes (by simp)]
    simp
  have htake : (leBytes 4 low ++ leBytes 4 high).take 4 = leBytes 4 low :=
    List.take_left' (length_leBytes 4 low)
  have hdrop : (leBytes 4 low ++ leBytes 4 high).drop 4 = leBytes 4 high :=
    List.drop_left' (length_leBytes 4 low)
  rw [ofBytes, hbytes, htake, hdrop, ofLe_leBytes_of_lt (by omega), ofLe_leBytes_of_lt (by omega)]

end WirePointer

/-! ### The table -/

/-- Segments one after another in an array, from a word on. -/
def layout : ℕ → List (List Word) → List Segment
  | _, [] => []
  | off, s :: segments => ⟨off, s.length⟩ :: layout (off + s.length) segments

section Table

variable {m : Memory} {words : ℕ} {segments : List (List Word)}

/-- The reader takes the segments whose sizes it finds in the table. -/
theorem run_segmentsFrom {i off : ℕ} (hfits : off + segments.flatten.length ≤ words)
    (hsizes : ∀ j s, segments[j]? = some s →
      s.length < 2 ^ 32 ∧ m.read (4 * (i + 1 + j)) 4 = leBytes 4 s.length) :
    (FlatArrayMessageReader.segmentsFrom words i off segments.length).run m =
      .ok (layout off segments) := by
  induction segments generalizing i off with
  | nil => rfl
  | cons s segments ih =>
    obtain ⟨hsmall, hread⟩ := hsizes 0 s rfl
    have hsize : (FlatArrayMessageReader.lookTable (i + 1)).run m = .ok s.length := by
      rw [FlatArrayMessageReader.lookTable, run, hread, ofLe_leBytes_of_lt (by omega)]
      rfl
    have hroom : off + s.length + segments.flatten.length ≤ words := by
      simp only [List.flatten_cons, List.length_append] at hfits
      omega
    have hrest := ih (i := i + 1) hroom fun j t ht => by
      have hnext := hsizes (j + 1) t ht
      rwa [show i + 1 + (j + 1) = i + 1 + 1 + j by omega] at hnext
    rw [List.length_cons, FlatArrayMessageReader.segmentsFrom, bind_eq, run_bind_of_ok hsize,
      bind_eq, run_bind_of_ok (run_kjRequire (by omega) m), bind_eq, run_bind_of_ok hrest]
    rfl

/-- The numbers of a table: how many segments follow the first, and the sizes. -/
def tableNumbers (segments : List (List Word)) : List ℕ :=
  (segments.length - 1) :: segments.map List.length

/-- The table is made of numbers of 32 bits. -/
theorem segmentTable_bytes (segments : List (List Word)) :
    ∃ rest, (segmentTable segments).flatMap Word.bytes =
      (tableNumbers segments).flatMap (leBytes 4) ++ rest := by
  obtain ⟨rest, h⟩ := flatMap_wordsOf
    (leBytes 4 (segments.length - 1) ++ segments.flatMap fun s => leBytes 4 s.length)
  refine ⟨rest, ?_⟩
  rw [segmentTable, h, tableNumbers, List.flatMap_cons, List.flatMap_map]

/-- No segment of a message is longer than all of them. -/
theorem length_segment_lt (h : segments.flatten.length < 2 ^ 32) :
    ∀ s ∈ segments, s.length < 2 ^ 32 := by
  intro s hs
  exact (List.sublist_flatten_of_mem hs).length_le.trans_lt h

/-- **The segments of a message are found** in every memory that begins with it. -/
theorem run_construct (hm : m.Begins (writeMessage segments)) (hne : segments ≠ [])
    (hcount : segments.length < 2 ^ 32) (hsizes : ∀ s ∈ segments, s.length < 2 ^ 32)
    (hfits : (segmentTable segments).length + segments.flatten.length ≤ words) :
    (FlatArrayMessageReader.construct words).run m =
      .ok (layout (segmentTable segments).length segments) := by
  have hpos := List.length_pos_iff.mpr hne
  have htable := length_segmentTable segments
  obtain ⟨rest, hbytes⟩ := segmentTable_bytes segments
  have hentry (i x : ℕ) (hx : (tableNumbers segments)[i]? = some x) :
      m.read (4 * i) 4 = leBytes 4 x := by
    have hlt : i < segments.length + 1 := by
      obtain ⟨h, _⟩ := List.getElem?_eq_some_iff.mp hx
      simpa [tableNumbers] using h
    have hnumbers : ((tableNumbers segments).flatMap (leBytes 4)).length =
        4 * (segments.length + 1) := by
      rw [length_flatMap_of (length_leBytes 4), tableNumbers, List.length_cons, List.length_map]
    rw [hm, writeMessage, List.flatMap_append, hbytes, List.append_assoc,
      slice_append_left (by omega), slice_flatMap (length_leBytes 4) hx]
    rw [writeMessage, List.flatMap_append, hbytes, List.append_assoc, List.length_append, hnumbers]
    omega
  have hfirst : (FlatArrayMessageReader.lookTable 0).run m = .ok (segments.length - 1) := by
    rw [FlatArrayMessageReader.lookTable, run, hentry 0 _ rfl, ofLe_leBytes_of_lt (by omega)]
    rfl
  have hsegments : FlatArrayMessageReader.segmentCount (segments.length - 1) = segments.length := by
    unfold FlatArrayMessageReader.segmentCount
    omega
  have hwords : FlatArrayMessageReader.tableWords (segments.length - 1) =
      (segmentTable segments).length := by
    rw [FlatArrayMessageReader.tableWords, hsegments, htable]
    omega
  rw [FlatArrayMessageReader.construct, if_neg (by omega), bind_eq, run_bind_of_ok hfirst, bind_eq,
    run_bind_of_ok (run_kjRequire (by omega) m), hsegments, hwords, Nat.max_eq_right hpos]
  apply run_segmentsFrom hfits
  intro j s hs
  refine ⟨hsizes s (List.mem_of_getElem? hs), ?_⟩
  apply hentry
  rw [tableNumbers, Nat.zero_add, Nat.add_comm 1 j, List.getElem?_cons_succ, List.getElem?_map, hs]
  rfl

end Table

/-! ### The objects -/

/-- A place in a segment stays where it is. -/
theorem Segment.checkOffset_eq {s : Segment} {base offset : ℕ} (hstart : s.start ≤ base + offset)
    (hfinish : base + offset ≤ s.finish) : s.checkOffset base offset = base + offset := by
  rw [Segment.checkOffset, if_pos ⟨by omega, by omega⟩]
  omega

/-- A pointer without a distance points to the word behind it. -/
theorem WirePointer.target_next {ref : WirePointer} {s : Segment} {pos : ℕ}
    (h : ref.offsetAndKind < 4) (hstart : s.start ≤ pos) (hfinish : pos < s.finish) :
    ref.target s pos = pos + 1 := by
  have hzero : ref.offset = (0 : ℕ) := by
    rw [WirePointer.offset, if_pos (by omega)]
    omega
  rw [WirePointer.target, hzero]
  exact Segment.checkOffset_eq (by omega) hfinish

/-- A list pointer without a distance is one, and is not null. -/
theorem WirePointer.list_kind (upper : ℕ) :
    (⟨1, upper⟩ : WirePointer).kind = .list ∧ ¬(⟨1, upper⟩ : WirePointer).IsNull := by
  refine ⟨rfl, ?_⟩
  intro hnull
  cases congrArg offsetAndKind hnull

/-- The bits of an element are the ones that its element size stands for. -/
theorem ElemType.sizeCode_bits (T : ElemType) :
    dataBitsPerElement T.sizeCode = 8 * T.sizeof ∧ pointersPerElement T.sizeCode = 0 := by
  cases T <;> exact ⟨rfl, rfl⟩

section Objects

variable {m : Memory} {words : List Word} {segments : List Segment} {segment segment' : Segment}
  {pos : ℕ} {T : ElemType} {count : ℕ}

/-- The reader looks at a word of the message. -/
theorem run_lookPointer {low high : ℕ} (hm : m.Begins (words.flatMap Word.bytes))
    (hlow : low < 2 ^ 32) (hhigh : high < 2 ^ 32) (hw : words[pos]? = some (word32 low high)) :
    (lookPointer pos).run m = .ok ⟨low, high⟩ := by
  obtain ⟨hlt, _⟩ := List.getElem?_eq_some_iff.mp hw
  have hread : m.read (8 * pos) 8 = (word32 low high).bytes := by
    rw [hm _ _ (by rw [length_flatMap_bytes]; omega)]
    exact slice_flatMap Word.length_bytes hw
  rw [lookPointer, run, hread, WirePointer.ofBytes_word32 hlow hhigh]
  rfl

/-- A segment with words is found. -/
theorem run_tryGetSegment {i : ℕ} (h : segments[i]? = some segment) (hsize : segment.size ≠ 0)
    (m : Memory) : (tryGetSegment segments i).run m = .ok segment := by
  simp [tryGetSegment, h, hsize, run]

/-- The root struct is right behind its pointer. -/
theorem run_getRoot (hm : m.Begins (words.flatMap Word.bytes))
    (hsegment : segments[0]? = some segment)
    (hsize : 4 ≤ segment.size) (hroot : words[segment.start]? = some rootPointer) :
    (getRoot segments).run m = .ok ⟨segment, segment.start + 1, 2, 1⟩ := by
  have hlook := run_lookPointer hm (by decide) (by decide) hroot
  have hsome : ¬WirePointer.IsNull ⟨0, 2 + 2 ^ 16⟩ := by decide
  have hfollow : followFars segments segment segment.start ⟨0, 2 + 2 ^ 16⟩ =
      pure ⟨⟨0, 2 + 2 ^ 16⟩, segment, segment.start + 1⟩ := by
    rw [followFars, if_neg (by decide), WirePointer.target_next (by decide) le_rfl]
    rw [Segment.finish]
    omega
  rw [getRoot, bind_eq, run_bind_of_ok (run_tryGetSegment hsegment (by omega) m), readStructPointer,
    bind_eq, run_bind_of_ok hlook, if_neg hsome, hfollow]
  simp only [pure_eq, bind_eq, bind_done_ok]
  rw [run_bind_of_ok (run_kjRequire (by rfl) m), run_bind_of_ok (run_kjRequire ?_ m)]
  · rfl
  · show segment.start + 1 + (2 + 1) ≤ segment.start + segment.size
    omega

/-- A list pointer tells the size code and the number of its elements. -/
theorem WirePointer.list_elements (T : ElemType) (count : ℕ) :
    (⟨1, 8 * count + T.sizeCode⟩ : WirePointer).elementSize = T.sizeCode ∧
      (⟨1, 8 * count + T.sizeCode⟩ : WirePointer).elementCount = count := by
  obtain ⟨hlow, hhigh⟩ := T.sizeCode_bounds
  constructor
  · show (8 * count + T.sizeCode) % 8 = T.sizeCode
    omega
  · show (8 * count + T.sizeCode) / 8 = count
    omega

/-- A list of elements in its segment is taken. -/
theorem run_primitiveList {ptr : ℕ}
    (hcheck : segment'.CheckObject ptr ((count * (8 * T.sizeof) + 63) / 64)) :
    (Followed.primitiveList ⟨⟨1, 8 * count + T.sizeCode⟩, segment', ptr⟩ T).run m =
      .ok ⟨ptr, count, 8 * T.sizeof⟩ := by
  obtain ⟨hlow, hhigh⟩ := T.sizeCode_bounds
  obtain ⟨hbits, hpointers⟩ := T.sizeCode_bits
  obtain ⟨hsize, hcount⟩ := WirePointer.list_elements T count
  rw [Followed.primitiveList]
  simp only [hsize, hcount, hbits, hpointers, Nat.mul_zero, Nat.add_zero, bind_eq]
  rw [run_bind_of_ok (run_kjRequire hcheck m), run_bind_of_ok (run_kjRequire (by omega) m),
    run_bind_of_ok (run_kjRequire le_rfl m)]
  rfl

/-- A pointer to a list of elements is followed to them. -/
theorem run_readListPointer {ref : WirePointer} {ptr : ℕ}
    (hlook : (lookPointer pos).run m = .ok ref)
    (hsome : ¬ref.IsNull) (hfollow : (followFars segments segment pos ref).run m =
      .ok ⟨⟨1, 8 * count + T.sizeCode⟩, segment', ptr⟩)
    (hcheck : segment'.CheckObject ptr ((count * (8 * T.sizeof) + 63) / 64)) :
    (readListPointer segments segment pos T).run m = .ok ⟨ptr, count, 8 * T.sizeof⟩ := by
  obtain ⟨hlow, hhigh⟩ := T.sizeCode_bounds
  have hprimitive : ¬(⟨1, 8 * count + T.sizeCode⟩ : WirePointer).elementSize = 7 := by
    rw [(WirePointer.list_elements T count).1]
    omega
  rw [readListPointer, bind_eq, run_bind_of_ok hlook, if_neg hsome, bind_eq, run_bind_of_ok hfollow,
    bind_eq, run_bind_of_ok (run_kjRequire (by rfl) m), if_neg hprimitive,
    run_primitiveList hcheck]

/-- A far pointer to the start of a segment leads to what the landing pad points to. -/
theorem run_followFars_single {ref pad : WirePointer} (hkind : ref.kind = .far)
    (hpos : ref.farPositionInSegment = 0) (hsingle : ¬ref.IsDoubleFar)
    (hsegment : segments[ref.upper32Bits]? = some segment')
    (hcheck : segment'.CheckObject segment'.start 1)
    (hpad : (lookPointer segment'.start).run m = .ok pad) :
    (followFars segments segment pos ref).run m =
      .ok ⟨pad, segment', pad.target segment' segment'.start⟩ := by
  have hin : segment'.start + 1 ≤ segment'.start + segment'.size := hcheck
  have hstart : segment'.checkOffset segment'.start ref.farPositionInSegment = segment'.start := by
    rw [hpos]
    exact Segment.checkOffset_eq le_rfl (by rw [Segment.finish]; omega)
  rw [followFars, if_pos hkind, bind_eq, run_bind_of_ok (run_tryGetSegment hsegment (by omega) m)]
  simp only [hstart, if_neg hsingle, bind_eq]
  rw [run_bind_of_ok (run_kjRequire hcheck m), run_bind_of_ok hpad]
  rfl

/-- The elements are copied one by one. -/
theorem run_copyFrom {elems : Bytes} {ptr : ℕ} (helems : elems.length = T.sizeof * count)
    (hread : ∀ off n, off + n ≤ elems.length → m.read (8 * ptr + off) n = slice elems off n)
    (i more : ℕ) (h : i + more = count) :
    ((ListReader.mk ptr count (8 * T.sizeof)).copyFrom T i more).run m =
      .ok (elems.drop (T.sizeof * i)) := by
  induction more generalizing i with
  | zero =>
    rw [ListReader.copyFrom, List.drop_eq_nil_of_le (by rw [helems, ← h]; rfl)]
    rfl
  | succ more ih =>
    have hrest := ih (i + 1) (by omega)
    have hstep : i * (8 * T.sizeof) / 8 = T.sizeof * i := by
      rw [Nat.mul_left_comm, Nat.mul_div_cancel_left _ (by omega), Nat.mul_comm]
    have hin : T.sizeof * i + T.sizeof ≤ elems.length := by
      have hle : T.sizeof * (i + 1) ≤ T.sizeof * count := Nat.mul_le_mul_left _ (by omega)
      rwa [helems]
    rw [ListReader.copyFrom, run, hstep, hread _ _ hin, bind_eq, run_bind_of_ok hrest, pure_eq, run]
    rw [slice, Nat.mul_succ, ← List.drop_drop, List.take_append_drop]

/-- The elements are behind the other words. -/
theorem read_elems {elems : Bytes} {front : List Word}
    (hm : m.Begins ((front ++ wordsOf elems).flatMap Word.bytes)) (off n : ℕ)
    (h : off + n ≤ elems.length) : m.read (8 * front.length + off) n = slice elems off n := by
  obtain ⟨rest, helems⟩ := flatMap_wordsOf elems
  have hfront := length_flatMap_bytes front
  rw [List.flatMap_append, helems] at hm
  rw [hm _ _ (by simp only [List.length_append]; omega), ← hfront, slice_append_right,
    slice_append_left h]

/-- What the accessors find is copied whole. -/
theorem run_deserializeArray_of {elems : Bytes} {front : List Word} {size data : ℕ} (dims : ℕ)
    (hsegments : (FlatArrayMessageReader.construct size).run m = .ok segments)
    (hroot : (getRoot segments).run m = .ok ⟨segment, data, 2, 1⟩)
    (hlist : (readListPointer segments segment (data + 2) T).run m =
      .ok ⟨front.length, count, 8 * T.sizeof⟩)
    (helems : elems.length = T.sizeof * count)
    (hm : m.Begins ((front ++ wordsOf elems).flatMap Word.bytes)) :
    (CapnProtoNoCompressSerializer.deserializeArray T size dims).run m = .ok elems := by
  have hcopy := run_copyFrom helems (read_elems hm) 0 count (Nat.zero_add count)
  rw [CapnProtoNoCompressSerializer.deserializeArray, bind_eq, run_bind_of_ok hsegments, bind_eq,
    run_bind_of_ok hroot, StructReader.getList, if_pos Nat.one_pos, bind_eq, run_bind_of_ok hlist,
    hcopy]
  rfl

end Objects

section Arrays

variable {m : Memory} {T : ElemType} {count size : ℕ} {elems : Bytes}

/-- A word of the segments is a word of the message, behind the table. -/
theorem getElem_message (segments : List (List Word)) (j : ℕ) :
    (segmentTable segments ++ segments.flatten)[(segmentTable segments).length + j]? =
      segments.flatten[j]? := by
  rw [List.getElem?_append_right (Nat.le_add_right _ _), Nat.add_sub_cancel_left]

/-- The words of an array are no more than its elements. -/
theorem length_words_elems (helems : elems.length = T.sizeof * count) :
    (count * (8 * T.sizeof) + 63) / 64 = (wordsOf elems).length ∧
      (wordsOf elems).length ≤ count := by
  have hwords := length_wordsOf elems
  constructor
  · rw [hwords, helems, Nat.mul_left_comm, Nat.mul_comm count]
    omega
  · rcases T.sizeof_cases with h | h | h | h <;> rw [h] at helems <;> omega

/-- A list in the segment of the root is read back. -/
theorem run_deserializeArray_near (hcount : count < 2 ^ 29)
    (helems : elems.length = T.sizeof * count)
    (hm : m.Begins (writeMessage
      [[rootPointer, discriminant (T.ordinal + 10), Word.zero, listPointer T count] ++
        wordsOf elems]))
    (hsize : 5 + (wordsOf elems).length ≤ size) (dims : ℕ) :
    (CapnProtoNoCompressSerializer.deserializeArray T size dims).run m = .ok elems := by
  obtain ⟨hbits, hwords⟩ := length_words_elems helems
  obtain ⟨hlow, hhigh⟩ := T.sizeCode_bounds
  let head := [rootPointer, discriminant (T.ordinal + 10), Word.zero, listPointer T count]
  let segment : Segment := ⟨1, (head ++ wordsOf elems).length⟩
  have htable : (segmentTable [head ++ wordsOf elems]).length = 1 := by
    rw [length_segmentTable, List.length_singleton]
  have hlength : (head ++ wordsOf elems).length = 4 + (wordsOf elems).length :=
    List.length_append
  have hfinish : segment.finish = 1 + (4 + (wordsOf elems).length) := by
    rw [← hlength]
    rfl
  have hsegments : (FlatArrayMessageReader.construct size).run m = .ok [segment] := by
    have hsmall : [head ++ wordsOf elems].flatten.length < 2 ^ 32 := by
      rw [List.flatten_singleton, hlength]
      omega
    have hfits : (segmentTable [head ++ wordsOf elems]).length +
        [head ++ wordsOf elems].flatten.length ≤ size := by
      rw [htable, List.flatten_singleton, hlength]
      omega
    have h := run_construct hm (List.cons_ne_nil _ _) (by simp) (length_segment_lt hsmall) hfits
    rwa [htable] at h
  have hword (j : ℕ) := getElem_message [head ++ wordsOf elems] j
  rw [htable] at hword
  have hroot : (getRoot [segment]).run m = .ok ⟨segment, 2, 2, 1⟩ :=
    run_getRoot hm rfl (by simp [segment, head]) (hword 0)
  have hlook := run_lookPointer hm (by decide) (by omega) (hword 3)
  have hfollow : (followFars [segment] segment 4 ⟨1, 8 * count + T.sizeCode⟩).run m =
      .ok ⟨⟨1, 8 * count + T.sizeCode⟩, segment, 5⟩ := by
    rw [followFars, (WirePointer.list_kind _).1, if_neg (by decide),
      WirePointer.target_next Nat.one_lt_ofNat]
    · rfl
    · show 1 ≤ 4
      omega
    · omega
  have hlist := run_readListPointer hlook (WirePointer.list_kind _).2 hfollow (by
    rw [hbits, Segment.CheckObject, hfinish]
    omega)
  have hfront : (segmentTable [head ++ wordsOf elems] ++ head).length = 5 := by
    rw [List.length_append, htable]
    rfl
  rw [← hfront] at hlist
  refine run_deserializeArray_of dims hsegments hroot hlist helems ?_
  rw [List.append_assoc]
  rwa [writeMessage, List.flatten_singleton] at hm

/-- A list behind a landing pad in a second segment is read back. -/
theorem run_deserializeArray_far (hcount : count < 2 ^ 29)
    (helems : elems.length = T.sizeof * count)
    (hm : m.Begins (writeMessage
      [[rootPointer, discriminant (T.ordinal + 10), Word.zero, farPointer],
        listPointer T count :: wordsOf elems]))
    (hsize : 7 + (wordsOf elems).length ≤ size) (dims : ℕ) :
    (CapnProtoNoCompressSerializer.deserializeArray T size dims).run m = .ok elems := by
  obtain ⟨hbits, hwords⟩ := length_words_elems helems
  obtain ⟨hlow, hhigh⟩ := T.sizeCode_bounds
  let head := [rootPointer, discriminant (T.ordinal + 10), Word.zero, farPointer]
  let segments := [head, listPointer T count :: wordsOf elems]
  let root : Segment := ⟨2, 4⟩
  let pad : Segment := ⟨6, (listPointer T count :: wordsOf elems).length⟩
  have htable : (segmentTable segments).length = 2 := by
    rw [length_segmentTable, List.length_cons, List.length_singleton]
  have hlength : segments.flatten.length = 5 + (wordsOf elems).length := by
    simp only [segments, head, List.flatten_cons, List.flatten_nil, List.length_append,
      List.length_cons, List.length_nil]
    omega
  have hfinish : pad.finish = 7 + (wordsOf elems).length := by
    simp only [pad, Segment.finish, List.length_cons]
    omega
  have hsegments : (FlatArrayMessageReader.construct size).run m = .ok [root, pad] := by
    have hsmall : segments.flatten.length < 2 ^ 32 := by omega
    have hfits : (segmentTable segments).length + segments.flatten.length ≤ size := by omega
    have h := run_construct hm (List.cons_ne_nil _ _) (by simp) (length_segment_lt hsmall) hfits
    rwa [htable] at h
  have hword (j : ℕ) := getElem_message segments j
  rw [htable] at hword
  have hroot : (getRoot [root, pad]).run m = .ok ⟨root, 3, 2, 1⟩ :=
    run_getRoot hm rfl le_rfl (hword 0)
  have hfar := run_lookPointer hm (by decide) (by decide) (hword 3)
  have hlook := run_lookPointer hm (by decide) (by omega) (hword 4)
  have hfollow : (followFars [root, pad] root 5 ⟨2, 1⟩).run m =
      .ok ⟨⟨1, 8 * count + T.sizeCode⟩, pad, 7⟩ := by
    have htarget : WirePointer.target ⟨1, 8 * count + T.sizeCode⟩ pad 6 = 7 :=
      WirePointer.target_next Nat.one_lt_ofNat le_rfl (by omega)
    have hone : pad.CheckObject pad.start 1 := by
      show 6 + 1 ≤ pad.finish
      omega
    rw [run_followFars_single rfl rfl (by decide) rfl hone hlook, htarget]
  have hlist := run_readListPointer hfar (by decide) hfollow (by
    rw [hbits, Segment.CheckObject, hfinish])
  have hfront : (segmentTable segments ++ head ++ [listPointer T count]).length = 7 := by
    simp only [List.length_append, htable]
    rfl
  rw [← hfront] at hlist
  refine run_deserializeArray_of dims hsegments hroot hlist helems ?_
  have hwhole : segmentTable segments ++ head ++ [listPointer T count] ++ wordsOf elems =
      segmentTable segments ++ segments.flatten := by
    simp [segments]
  rwa [hwhole]

/-- **Every array is read back** from a memory that begins with its message, by a reader that
gets at least the words of the message. -/
theorem run_deserializeArray (hcount : count < 2 ^ 29) (helems : elems.length = T.sizeof * count)
    (hm : m.Begins (writeMessage (arraySegments T count elems)))
    (hsize : (writeMessage (arraySegments T count elems)).length ≤ size) (dims : ℕ) :
    (CapnProtoNoCompressSerializer.deserializeArray T size dims).run m = .ok elems := by
  rw [length_writeMessage] at hsize
  by_cases hone : 4 + (wordsOf elems).length ≤ 1024
  · have hsegments : arraySegments T count elems = [[rootPointer, discriminant (T.ordinal + 10),
        Word.zero, listPointer T count] ++ wordsOf elems] := if_pos hone
    rw [hsegments] at hm hsize
    refine run_deserializeArray_near hcount helems hm ?_ dims
    rw [List.flatten_singleton, List.length_append] at hsize
    simp only [List.length_cons, List.length_nil] at hsize
    omega
  · have hsegments : arraySegments T count elems = [[rootPointer, discriminant (T.ordinal + 10),
        Word.zero, farPointer], listPointer T count :: wordsOf elems] := if_neg hone
    rw [hsegments] at hm hsize
    refine run_deserializeArray_far hcount helems hm ?_ dims
    simp only [List.flatten_cons, List.flatten_nil, List.length_append, List.length_cons,
      List.length_nil] at hsize
    omega

/-- **The uncompressed path fits and round-trips in place.** For every element type, every
count that a list can have and every array, the message fits a buffer of the estimated
size, and the elements are read back from the whole of that buffer: whatever it held
before, whatever is behind it, and whatever dimensions the reader is given. -/
theorem flat_round_trip (hcount : count < 2 ^ 29) (helems : elems.length = T.sizeof * count)
    (old : Bytes)
    (hold : old.length = CapnProtoNoCompressSerializer.estEncodedSize (T.sizeof * count))
    (behind : Memory) (dims : ℕ) :
    old.length = T.sizeof * count + 128 ∧
      ∃ out, CapnProtoNoCompressSerializer.serializeInto T old.length (.array count elems) =
          .ok out ∧
        out.length ≤ T.sizeof * count + 128 ∧
        (CapnProtoNoCompressSerializer.deserializeArray T (splice old 0 out).length dims).run
          (Memory.holding (splice old 0 out) behind) = .ok elems := by
  have hsmall : T.sizeof * count + 128 < 2 ^ 64 := by
    rcases T.sizeof_cases with h | h | h | h <;> rw [h] <;> omega
  rw [CapnProtoNoCompressSerializer.estEncodedSize, Nat.mod_eq_of_lt hsmall] at hold
  have hlength := (length_writeMessage_array T count elems).2
  have hbuild : buildMessage T (.array count elems) = .ok (arraySegments T count elems) :=
    if_neg (not_le.mpr hcount)
  have hroom : arrayOutput old.length (writeMessage (arraySegments T count elems)) =
      .ok (writeMessage (arraySegments T count elems)) := if_pos (by omega)
  refine ⟨hold, writeMessage (arraySegments T count elems), ?_, by omega, ?_⟩
  · rw [CapnProtoNoCompressSerializer.serializeInto, hbuild]
    exact hroom
  · rw [splice_zero]
    apply run_deserializeArray hcount helems (Memory.begins_holding _ _ _)
    rw [List.length_append]
    omega

/-- Two bytes are read back from a buffer of 130. -/
theorem flat_round_trip_two_bytes : ∃ out,
    CapnProtoNoCompressSerializer.serializeInto .uint8 130 (.array 2 [8, 0]) = .ok out ∧
      out.length ≤ 130 ∧
      (CapnProtoNoCompressSerializer.deserializeArray .uint8
        (splice (List.replicate 130 7) 0 out).length 5).run
        (Memory.holding (splice (List.replicate 130 7) 0 out) fun _ => 9) = .ok [8, 0] := by
  have hcount : 2 < 2 ^ 29 := by decide
  have helems : ([8, 0] : Bytes).length = ElemType.uint8.sizeof * 2 := rfl
  have h := (flat_round_trip hcount helems (List.replicate 130 7) List.length_replicate
    (fun _ => 9) 5).2
  rwa [List.length_replicate] at h

end Arrays

end Pmemcpy
