import Pmemcpy.Serialize.RoundTrip

/-!
# The reader stays in its array

Every segment, every object and every element that the reader looks at is checked
first. So it looks at the words of the array that it was given, and at those of
the segments only, once it has got them from the table.
-/

namespace Pmemcpy

open Lib Probe

namespace CapnProtoNoCompressSerializer

/-- `deserialize`, of one element or of an array, from a buffer of `size` bytes. -/
def decode (T : ElemType) (size : ℕ) : Target → Reading Bytes
  | .scalar => deserialize T size
  | .array count => deserializeArray T size count

/-- What it does with the segments of the message. -/
def accessors (T : ElemType) (target : Target) (segments : List Segment) : Reading Bytes :=
  match target with
  | .scalar => (getRoot segments).bind fun num => num.getScalar T
  | .array _ => (getRoot segments).bind fun nums =>
      (nums.getList segments T).bind fun temp => temp.copyFrom T 0 temp.elementCount

/-- Decoding constructs the segments and then reads the root with the accessors. -/
theorem decode_eq (T : ElemType) (size : ℕ) (target : Target) :
    decode T size target = (FlatArrayMessageReader.construct size).bind (accessors T target) := by
  cases target <;> rfl

end CapnProtoNoCompressSerializer

/-- The segments are in the first `size` bytes of the array. -/
def Covered (size : ℕ) (segments : List Segment) : Prop := ∀ s ∈ segments, 8 * s.finish ≤ size

/-- The elements of a list of `T` are in the first `size` bytes. -/
def ListReader.CoveredBy (size : ℕ) (T : ElemType) (temp : ListReader) : Prop :=
  ∀ i < temp.elementCount, 8 * temp.ptr + i * temp.step / 8 + T.sizeof ≤ size

section Inside

variable {size words : ℕ} {m : Memory} {segments : List Segment} {segment : Segment} {pos : ℕ}
  {T : ElemType}

/-- A requirement looks at nothing, and holds if it does not fail. -/
theorem safely_kjRequire (cond : Prop) [Decidable cond] :
    (kjRequire cond).Safely size m fun _ => cond := by
  by_cases h : cond
  · simp [kjRequire, h, Safely]
  · simp [kjRequire, h, Safely]

/-- A look at a pointer that lies in the array is safe. -/
theorem safely_lookPointer (h : 8 * pos + 8 ≤ size) :
    (lookPointer pos).Safely size m fun _ => True := ⟨h, trivial⟩

/-- A segment of the message is not empty, and lies in the array. -/
theorem safely_tryGetSegment (h : Covered size segments) (i : ℕ) :
    (tryGetSegment segments i).Safely size m fun s => s.size ≠ 0 ∧ 8 * s.finish ≤ size := by
  unfold tryGetSegment
  cases hs : segments[i]? with
  | none => trivial
  | some s =>
    by_cases hsize : s.size = 0
    · simp [hsize, Safely]
    · simpa [hsize, Safely] using h s (List.mem_of_getElem? hs)

/-- The segments that the table announces are in the array. -/
theorem safely_segmentsFrom {i off : ℕ} (more : ℕ) (htable : 4 * (i + 1 + more) ≤ size) :
    (FlatArrayMessageReader.segmentsFrom words i off more).Safely size m
      (Covered (8 * words)) := by
  induction more generalizing i off with
  | zero =>
    intro s hs
    cases hs
  | succ more ih =>
    rw [FlatArrayMessageReader.segmentsFrom_succ]
    refine ⟨by omega, ?_⟩
    generalize m.read (4 * (i + 1)) 4 = entry
    refine (safely_kjRequire _).bind fun _ hsize => ?_
    refine (ih (by omega)).bind fun rest hrest => ?_
    intro s hs
    rcases List.mem_cons.mp hs with rfl | hs
    · exact Nat.mul_le_mul_left 8 hsize
    · exact hrest s hs

/-- A far pointer leads to a segment of the message. -/
theorem safely_followFars (h : Covered size segments) (hsegment : 8 * segment.finish ≤ size)
    (ref : WirePointer) :
    (followFars segments segment pos ref).Safely size m fun found =>
      8 * found.segment.finish ≤ size := by
  unfold followFars
  by_cases hfar : ref.kind = .far
  · rw [if_pos hfar]
    refine (safely_tryGetSegment h _).bind fun pad hpad => ?_
    refine (safely_kjRequire _).bind fun _ hcheck => ?_
    rw [Segment.CheckObject] at hcheck
    refine (safely_lookPointer (by split at hcheck <;> omega)).bind fun padRef _ => ?_
    by_cases hdouble : ref.IsDoubleFar
    · rw [if_pos hdouble] at hcheck ⊢
      refine (safely_tryGetSegment h _).bind fun segment' hsegment' => ?_
      refine (safely_kjRequire _).bind fun _ _ => ?_
      exact (safely_lookPointer (by omega)).bind fun tag _ => hsegment'.2
    · rw [if_neg hdouble]
      exact hpad.2
  · rw [if_neg hfar]
    exact hsegment

/-- The struct that is read is in the segments. -/
theorem safely_readStructPointer (h : Covered size segments) (hsegment : 8 * segment.finish ≤ size)
    (hpos : 8 * pos + 8 ≤ size) :
    (readStructPointer segments segment pos).Safely size m fun s =>
      8 * s.segment.finish ≤ size ∧ 8 * (s.data + s.dataSize + s.ptrCount) ≤ size := by
  refine (safely_lookPointer hpos).bind fun ref _ => ?_
  by_cases hnull : ref.IsNull
  · rw [if_pos hnull]
    exact ⟨hsegment, Nat.zero_le _⟩
  · rw [if_neg hnull]
    refine (safely_followFars h hsegment ref).bind fun found hfound => ?_
    refine (safely_kjRequire _).bind fun _ _ => (safely_kjRequire _).bind fun _ hcheck => ?_
    rw [Segment.CheckObject] at hcheck
    refine ⟨hfound, ?_⟩
    dsimp only
    omega

/-- The root struct of the message lies in the array. -/
theorem safely_getRoot (h : Covered size segments) :
    (getRoot segments).Safely size m fun s =>
      8 * s.segment.finish ≤ size ∧ 8 * (s.data + s.dataSize + s.ptrCount) ≤ size := by
  refine (safely_tryGetSegment h 0).bind fun root hroot => ?_
  have hfinish := hroot.2
  rw [Segment.finish] at hfinish
  exact safely_readStructPointer h hroot.2 (by omega)

/-- The value of a scalar lies in the array if its struct does. -/
theorem safely_getScalar {s : StructReader} (h : 8 * (s.data + s.dataSize + s.ptrCount) ≤ size)
    (T : ElemType) : (s.getScalar T).Safely size m fun _ => True := by
  unfold StructReader.getScalar
  by_cases hfield : T.dataOffset + T.sizeof ≤ 8 * s.dataSize
  · rw [if_pos hfield]
    exact ⟨by omega, trivial⟩
  · rw [if_neg hfield]
    trivial

/-- The elements of a list of structs are in its words. -/
theorem safely_inlineCompositeList {found : Followed} (h : 8 * found.segment.finish ≤ size)
    (T : ElemType) : found.inlineCompositeList.Safely size m (ListReader.CoveredBy size T) := by
  refine (safely_kjRequire _).bind fun _ hcheck => ?_
  rw [Segment.CheckObject] at hcheck
  refine (safely_lookPointer (by omega)).bind fun tag _ => ?_
  refine (safely_kjRequire _).bind fun _ _ => (safely_kjRequire _).bind fun _ hwords => ?_
  refine (safely_kjRequire _).bind fun _ hdata i hi => ?_
  have hT : T.sizeof ≤ 8 := by rcases T.sizeof_cases with h | h | h | h <;> omega
  have hnext : (i + 1) * (tag.dataSize + tag.ptrCount) ≤ found.ref.elementCount :=
    (Nat.mul_le_mul_right _ hi).trans hwords
  rw [Nat.succ_mul] at hnext
  have hbytes : i * (64 * (tag.dataSize + tag.ptrCount)) / 8 =
      8 * (i * (tag.dataSize + tag.ptrCount)) := by
    rw [Nat.mul_left_comm]
    omega
  dsimp only
  rw [hbytes]
  omega

/-- The elements of a list of numbers are in its words. -/
theorem safely_primitiveList {found : Followed} (h : 8 * found.segment.finish ≤ size)
    (T : ElemType) : (found.primitiveList T).Safely size m (ListReader.CoveredBy size T) := by
  refine (safely_kjRequire _).bind fun _ hcheck => (safely_kjRequire _).bind fun _ _ => ?_
  refine (safely_kjRequire _).bind fun _ hbits i hi => ?_
  rw [Segment.CheckObject] at hcheck
  have hstep := hbits.trans (Nat.le_add_right _ (64 * pointersPerElement found.ref.elementSize))
  dsimp only at hi ⊢
  generalize dataBitsPerElement found.ref.elementSize +
    64 * pointersPerElement found.ref.elementSize = step at *
  have hnext : (i + 1) * step ≤ found.ref.elementCount * step := Nat.mul_le_mul_right _ hi
  rw [Nat.succ_mul] at hnext
  omega

/-- The elements of the list of an array lie in the array of words. -/
theorem safely_getList (h : Covered size segments) {s : StructReader}
    (hsegment : 8 * s.segment.finish ≤ size) (hs : 8 * (s.data + s.dataSize + s.ptrCount) ≤ size)
    (T : ElemType) : (s.getList segments T).Safely size m (ListReader.CoveredBy size T) := by
  unfold StructReader.getList
  by_cases hptr : 0 < s.ptrCount
  · rw [if_pos hptr]
    refine (safely_lookPointer (by omega)).bind fun ref _ => ?_
    by_cases hnull : ref.IsNull
    · rw [if_pos hnull]
      intro i hi
      cases hi
    · rw [if_neg hnull]
      refine (safely_followFars h hsegment ref).bind fun found hfound => ?_
      refine (safely_kjRequire _).bind fun _ _ => ?_
      by_cases hcomposite : found.ref.elementSize = 7
      · rw [if_pos hcomposite]
        exact safely_inlineCompositeList hfound T
      · rw [if_neg hcomposite]
        exact safely_primitiveList hfound T
  · rw [if_neg hptr]
    intro i hi
    cases hi

/-- The elements that are copied lie in the array. -/
theorem safely_copyFrom {temp : ListReader} (h : temp.CoveredBy size T) (i more : ℕ)
    (hmore : i + more = temp.elementCount) :
    (temp.copyFrom T i more).Safely size m fun _ => True := by
  induction more generalizing i with
  | zero => trivial
  | succ more ih =>
    refine ⟨h i (by omega), ?_⟩
    exact (ih (i + 1) (by omega)).bind fun _ _ => trivial

/-- In segments that are in the first bytes, all that is decoded is, too. -/
theorem safely_accessors (h : Covered size segments) (T : ElemType) (target : Target) :
    (CapnProtoNoCompressSerializer.accessors T target segments).Safely size m fun _ => True := by
  cases target with
  | scalar => exact (safely_getRoot h).bind fun num hnum => safely_getScalar hnum.2 T
  | array count =>
    refine (safely_getRoot h).bind fun nums hnums => ?_
    refine (safely_getList h hnums.1 hnums.2 T).bind fun temp htemp => ?_
    exact safely_copyFrom htemp 0 _ (Nat.zero_add _)

end Inside

end Pmemcpy
