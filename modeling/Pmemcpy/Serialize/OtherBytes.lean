import Pmemcpy.Serialize.Bounds

/-!
# What other bytes would change

Wherever the accessors look, some bytes would make them refuse the message, or
change the element that they return, and others would let them return. So
they tell what they have looked at, and none of their looks is in vain.
-/

namespace Pmemcpy

open Lib Probe

/-! ### Other bytes behind the buffer -/

/-- The elements of a list of `T` do not go over the border of a word. -/
def ListReader.InCells (T : ElemType) (temp : ListReader) : Prop :=
  ∀ i, i * temp.step / 8 % 8 + T.sizeof ≤ 8

section Guarded

variable {α : Type} {size : ℕ} {Q : α → Prop} {segments : List Segment} {segment : Segment}
  {pos : ℕ} {T : ElemType}

/-- A requirement looks at nothing, and holds if it does not fail. -/
theorem guarded_kjRequire (cond : Prop) [Decidable cond] :
    (kjRequire cond).Guarded 8 size fun _ => cond := by
  by_cases h : cond
  · simp [kjRequire, h, Guarded]
  · simp [kjRequire, h, Guarded]

/-- A requirement that is not met fails. -/
theorem fails_kjRequire {cond : Prop} [Decidable cond] (h : ¬cond) : (kjRequire cond).Fails := by
  intro m
  exact ⟨.malformed, by rw [kjRequire, if_neg h]; rfl⟩

/-- Getting a segment looks at nothing. -/
theorem guarded_tryGetSegment (i : ℕ) :
    (tryGetSegment segments i).Guarded 8 size fun _ => True := by
  unfold tryGetSegment
  cases segments[i]? with
  | none => trivial
  | some s =>
    by_cases hsize : s.size = 0
    · simp [hsize, Guarded]
    · simp [hsize, Guarded]

/-- A look at a pointer is guarded if a pointer of no kind in its place makes what follows fail. -/
theorem guarded_lookPointer {f : WirePointer → Reading α} (hbad : (f ⟨3, 0⟩).Fails)
    (hf : ∀ ref, (f ref).Guarded 8 size Q) : ((lookPointer pos).bind f).Guarded 8 size Q := by
  have hbytes : WirePointer.ofBytes [3, 0, 0, 0, 0, 0, 0, 0] = ⟨3, 0⟩ := by decide
  refine ⟨by omega, ?_, fun b => hf _⟩
  intro _
  refine ⟨[3, 0, 0, 0, 0, 0, 0, 0], rfl, ?_⟩
  simpa only [bind_done_ok, hbytes] using hbad

/-- A pointer of no kind is followed to itself, and refused by what refuses such an object. -/
theorem fails_followFars {g : Followed → Reading α}
    (hbad : ∀ found, found.ref.kind = .other → (g found).Fails) :
    ((followFars segments segment pos ⟨3, 0⟩).bind g).Fails := by
  rw [followFars, if_neg (by decide)]
  exact hbad _ rfl

/-- A far pointer is followed to an object that is checked. -/
theorem guarded_followFars {g : Followed → Reading α} (ref : WirePointer)
    (hbad : ∀ found, found.ref.kind = .other → (g found).Fails)
    (hg : ∀ found, (g found).Guarded 8 size Q) :
    ((followFars segments segment pos ref).bind g).Guarded 8 size Q := by
  unfold followFars
  by_cases hfar : ref.kind = .far
  · rw [if_pos hfar, bind_eq, bind_assoc]
    refine (guarded_tryGetSegment _).bind fun pad _ => ?_
    rw [bind_eq, bind_assoc]
    refine (guarded_kjRequire _).bind fun _ _ => ?_
    rw [bind_eq, bind_assoc]
    by_cases hdouble : ref.IsDoubleFar
    · simp only [if_pos hdouble, bind_eq, bind_assoc]
      refine guarded_lookPointer ?_ fun padRef => ?_
      · exact fails_bind _ fun _ => (fails_kjRequire (by decide)).bind _
      · refine (guarded_tryGetSegment _).bind fun segment' _ => ?_
        refine (guarded_kjRequire _).bind fun _ _ => ?_
        exact guarded_lookPointer (hbad _ rfl) fun tag => hg _
    · simp only [if_neg hdouble]
      exact guarded_lookPointer (hbad _ rfl) fun padRef => hg _
  · rw [if_neg hfar]
    exact hg _

/-- Reading a struct pointer is guarded. -/
theorem guarded_readStructPointer :
    (readStructPointer segments segment pos).Guarded 8 size fun _ => True := by
  have hcheck (found : Followed) : (kjRequire (found.ref.kind = .struct) >>= fun _ =>
      kjRequire (found.segment.CheckObject found.ptr
        (found.ref.dataSize + found.ref.ptrCount)) >>= fun _ =>
      (pure ⟨found.segment, found.ptr, found.ref.dataSize, found.ref.ptrCount⟩ :
        Reading StructReader)).Guarded 8 size fun _ => True :=
    (guarded_kjRequire _).bind fun _ _ => (guarded_kjRequire _).bind fun _ _ => trivial
  have hbad (found : Followed) (hkind : found.ref.kind = .other) :
      (kjRequire (found.ref.kind = .struct)).Fails := fails_kjRequire (by rw [hkind]; decide)
  refine guarded_lookPointer ?_ fun ref => ?_
  · rw [if_neg (by decide)]
    exact fails_followFars fun found hkind => (hbad found hkind).bind _
  · by_cases hnull : ref.IsNull
    · rw [if_pos hnull]
      trivial
    · rw [if_neg hnull]
      exact guarded_followFars ref (fun found hkind => (hbad found hkind).bind _) hcheck

/-- Getting the root is guarded. -/
theorem guarded_getRoot : (getRoot segments).Guarded 8 size fun _ => True :=
  (guarded_tryGetSegment 0).bind fun _ _ => guarded_readStructPointer

/-- The elements of structs are at the starts of words. -/
theorem guarded_inlineCompositeList (found : Followed) (T : ElemType) :
    found.inlineCompositeList.Guarded 8 size (ListReader.InCells T) := by
  refine (guarded_kjRequire _).bind fun _ _ => ?_
  refine guarded_lookPointer ((fails_kjRequire (by decide)).bind _) fun tag => ?_
  refine (guarded_kjRequire _).bind fun _ _ => (guarded_kjRequire _).bind fun _ _ => ?_
  refine (guarded_kjRequire _).bind fun _ _ i => ?_
  have hT : T.sizeof ≤ 8 := by rcases T.sizeof_cases with h | h | h | h <;> omega
  have hbytes : i * (64 * (tag.dataSize + tag.ptrCount)) / 8 =
      8 * (i * (tag.dataSize + tag.ptrCount)) := by
    rw [Nat.mul_left_comm]
    omega
  dsimp only
  rw [hbytes]
  omega

/-- Elements with as much data as a `T` are one, two, four or eight bytes. -/
theorem exists_width {elementSize : ℕ} (h : 8 * T.sizeof ≤ dataBitsPerElement elementSize) :
    ∃ width, (width = 1 ∨ width = 2 ∨ width = 4 ∨ width = 8) ∧
      dataBitsPerElement elementSize + 64 * pointersPerElement elementSize = 8 * width ∧
      T.sizeof ≤ width := by
  have hpos : T.sizeof ≠ 0 := by cases T <;> decide
  unfold dataBitsPerElement at h ⊢
  split at h
  · omega
  · exact ⟨1, by omega, rfl, by omega⟩
  · exact ⟨2, by omega, rfl, by omega⟩
  · exact ⟨4, by omega, rfl, by omega⟩
  · exact ⟨8, by omega, rfl, by omega⟩
  · omega

/-- The elements of a list that is wide enough are in the cells of their size. -/
theorem guarded_primitiveList (found : Followed) (T : ElemType) :
    (found.primitiveList T).Guarded 8 size (ListReader.InCells T) := by
  refine (guarded_kjRequire _).bind fun _ _ => (guarded_kjRequire _).bind fun _ _ => ?_
  refine (guarded_kjRequire _).bind fun _ hbits i => ?_
  obtain ⟨width, hwidth, hstep, hT⟩ := exists_width hbits
  have hbytes : i * (8 * width) / 8 = i * width := by
    rw [Nat.mul_left_comm, Nat.mul_div_cancel_left _ (by decide)]
  dsimp only
  rw [hstep, hbytes]
  rcases hwidth with rfl | rfl | rfl | rfl <;> omega

/-- Getting a list is guarded, and its elements do not straddle words. -/
theorem guarded_getList (s : StructReader) (T : ElemType) :
    (s.getList segments T).Guarded 8 size (ListReader.InCells T) := by
  have hnone (ptr : ℕ) : ListReader.InCells T ⟨ptr, 0, 0⟩ := by
    intro i
    have hT : T.sizeof ≤ 8 := by rcases T.sizeof_cases with h | h | h | h <;> omega
    simpa using hT
  have hbad (found : Followed) (hkind : found.ref.kind = .other) :
      (kjRequire (found.ref.kind = .list)).Fails := fails_kjRequire (by rw [hkind]; decide)
  unfold StructReader.getList
  by_cases hptr : 0 < s.ptrCount
  · rw [if_pos hptr]
    refine guarded_lookPointer ?_ fun ref => ?_
    · rw [if_neg (by decide)]
      exact fails_followFars fun found hkind => (hbad found hkind).bind _
    · by_cases hnull : ref.IsNull
      · rw [if_pos hnull]
        exact hnone _
      · rw [if_neg hnull]
        refine guarded_followFars ref (fun found hkind => (hbad found hkind).bind _) ?_
        intro found
        refine (guarded_kjRequire _).bind fun _ _ => ?_
        by_cases hcomposite : found.ref.elementSize = 7
        · rw [if_pos hcomposite]
          exact guarded_inlineCompositeList found T
        · rw [if_neg hcomposite]
          exact guarded_primitiveList found T
  · rw [if_neg hptr]
    exact hnone _

/-- For some bytes there are others of the same number. -/
theorem exists_other_bytes {n : ℕ} (hn : n ≠ 0) (b : Bytes) (hb : b.length = n) :
    ∃ b' : Bytes, b'.length = n ∧ b' ≠ b := by
  cases b with
  | nil => exact absurd hb.symm hn
  | cons x b =>
    refine ⟨(x + 1) :: b, hb, ?_⟩
    simp

/-- Getting a scalar tells which bytes are behind the buffer. -/
theorem telling_getScalar (s : StructReader) (T : ElemType) :
    (s.getScalar T).Telling 8 size := by
  unfold StructReader.getScalar
  by_cases hfield : T.dataOffset + T.sizeof ≤ 8 * s.dataSize
  · rw [if_pos hfield]
    have hcell : T.dataOffset % 8 + T.sizeof ≤ 8 ∧ T.sizeof ≠ 0 := by cases T <;> decide
    refine ⟨by omega, ?_, fun _ => trivial⟩
    intro _ b hb
    obtain ⟨b', hb', hne⟩ := exists_other_bytes hcell.2 b hb
    refine ⟨b', hb', ?_⟩
    intro m m' r hok hok'
    exact hne ((Except.ok.inj hok').trans (Except.ok.inj hok).symm)
  · rw [if_neg hfield]
    trivial

/-- Copying elements tells which bytes are behind the buffer. -/
theorem telling_copyFrom {temp : ListReader} (h : temp.InCells T) (i more : ℕ) :
    (temp.copyFrom T i more).Telling 8 size := by
  have hT : T.sizeof ≠ 0 := by cases T <;> decide
  induction more generalizing i with
  | zero => trivial
  | succ more ih =>
    have hcell := h i
    refine ⟨by omega, ?_, ?_⟩
    · intro _ b hb
      obtain ⟨b', hb', hne⟩ := exists_other_bytes hT b hb
      refine ⟨b', hb', ?_⟩
      intro m m' r hok hok'
      obtain ⟨rest, _, hr⟩ := exists_of_run_map hok
      obtain ⟨rest', _, hr'⟩ := exists_of_run_map hok'
      exact hne (List.append_inj_left (hr'.trans hr.symm) (hb'.trans hb.symm))
    · intro b
      exact (ih (i + 1)).map (List.append_right_injective b)

/-- The accessors tell which bytes are behind the buffer. -/
theorem telling_accessors (segments : List Segment) (T : ElemType) (target : Target) :
    (CapnProtoNoCompressSerializer.accessors T target segments).Telling 8 size := by
  cases target with
  | scalar => exact guarded_getRoot.bind_telling fun num _ => telling_getScalar num T
  | array count =>
    refine guarded_getRoot.bind_telling fun nums _ => ?_
    exact (guarded_getList nums T).bind_telling fun temp htemp => telling_copyFrom htemp 0 _

end Guarded

/-! ### The right bytes behind the buffer -/

section Promising

variable {α : Type} {size : ℕ} {P : α → Prop} {segments : List Segment} {segment : Segment}
  {pos : ℕ} {T : ElemType}

/-- A requirement looks at nothing. -/
theorem promising_kjRequire (cond : Prop) [Decidable cond] :
    (kjRequire cond).Promising size fun _ => False := by
  unfold kjRequire
  split <;> trivial

/-- `tryGetSegment` does not look at the memory. -/
theorem tryGetSegment_done (segments : List Segment) (i : ℕ) :
    ∃ result, tryGetSegment segments i = .done result := by
  unfold tryGetSegment
  split
  · split <;> exact ⟨_, rfl⟩
  · exact ⟨_, rfl⟩

/-- Getting a segment looks at nothing. -/
theorem promising_tryGetSegment (i : ℕ) :
    (tryGetSegment segments i).Promising size fun _ => False := by
  obtain ⟨result, hresult⟩ := tryGetSegment_done segments i
  rw [hresult]
  trivial

/-- A look at a pointer is promising if some pointer there leads to what is wanted, with the right
bytes behind it. -/
theorem promising_lookPointer_before {f : WirePointer → Reading α} (good : Bytes)
    (hlength : good.length = 8)
    (hgood : ∀ m : Memory, ∃ m' : Memory, (∀ i < 8 * pos + 8, m' i = m i) ∧
      ∃ a, (f (.ofBytes good)).run m' = .ok a ∧ P a)
    (hf : ∀ ref, (f ref).Promising size P) : ((lookPointer pos).bind f).Promising size P :=
  ⟨fun _ => ⟨good, hlength, hgood⟩, fun b => hf (.ofBytes b)⟩

/-- A look at a pointer is promising if some pointer there leads to what is wanted. -/
theorem promising_lookPointer {f : WirePointer → Reading α} (good : Bytes)
    (hlength : good.length = 8)
    (hgood : ∀ m, ∃ a, (f (.ofBytes good)).run m = .ok a ∧ P a)
    (hf : ∀ ref, (f ref).Promising size P) : ((lookPointer pos).bind f).Promising size P :=
  promising_lookPointer_before good hlength (fun m => ⟨m, fun _ _ => rfl, hgood m⟩) hf

/-- An object that these bytes describe is taken, wherever it is in its segment. -/
def Takes (g : Followed → Reading α) (P : α → Prop) (good : Bytes) : Prop :=
  ∀ segment ptr, ptr ≤ segment.finish → ∀ m, ∃ a,
    (g ⟨.ofBytes good, segment, ptr⟩).run m = .ok a ∧ P a

/-- A checked offset does not leave its segment. -/
theorem Segment.checkOffset_le (s : Segment) (base : ℕ) (offset : ℤ) :
    s.checkOffset base offset ≤ s.finish := by
  unfold Segment.checkOffset
  split <;> omega

/-- Following a pointer is promising if these bytes, as a landing pad, lead to an object that is
taken. -/
theorem promising_followFars {g : Followed → Reading α} {root : Segment} (good : Bytes)
    (hlength : good.length = 8) (hgood : Takes g P good)
    (hroot : tryGetSegment segments 0 = .done (.ok root))
    (hg : ∀ found, (g found).Promising size P) (ref : WirePointer) :
    ((followFars segments segment pos ref).bind g).Promising size P := by
  unfold followFars
  by_cases hfar : ref.kind = .far
  · rw [if_pos hfar, bind_eq, bind_assoc]
    refine (promising_tryGetSegment _).after fun pad => ?_
    rw [bind_eq, bind_assoc]
    refine (promising_kjRequire _).after fun _ => ?_
    rw [bind_eq, bind_assoc]
    generalize hptr : pad.checkOffset pad.start ref.farPositionInSegment = ptr
    by_cases hdouble : ref.IsDoubleFar
    · simp only [if_pos hdouble, bind_eq, bind_assoc]
      -- the pad leads to the first segment, and the tag behind it describes the object
      refine promising_lookPointer_before [2, 0, 0, 0, 0, 0, 0, 0] rfl ?_ fun padRef => ?_
      · intro m
        refine ⟨m.overwrite (8 * (ptr + 1)) good,
          fun i hi => Memory.overwrite_below (by omega), ?_⟩
        have hpad : WirePointer.ofBytes [2, 0, 0, 0, 0, 0, 0, 0] = ⟨2, 0⟩ := by decide
        have htag := Memory.read_overwrite m (8 * (ptr + 1)) good
        rw [hlength] at htag
        simp only [hpad, hroot, bind_done_ok]
        rw [run_bind_of_ok (run_kjRequire (by decide) _), lookPointer, bind_look, run, htag]
        exact hgood root _ (root.checkOffset_le _ _) _
      · refine (promising_tryGetSegment _).after fun segment' => ?_
        refine (promising_kjRequire _).after fun _ => ?_
        refine promising_lookPointer good hlength ?_ fun tag => hg _
        exact hgood segment' _ (segment'.checkOffset_le _ _)
    · simp only [if_neg hdouble]
      refine promising_lookPointer good hlength ?_ fun padRef => hg _
      exact hgood pad _ (pad.checkOffset_le _ _)
  · rw [if_neg hfar]
    exact hg _

/-- Eight zeros are the null pointer. -/
theorem ofBytes_zeros : WirePointer.ofBytes [0, 0, 0, 0, 0, 0, 0, 0] = ⟨0, 0⟩ := by decide

/-- A null pointer is a struct without fields, and so are eight zeros behind a far one. -/
theorem promising_getRoot {root : Segment} (hroot : tryGetSegment segments 0 = .done (.ok root)) :
    (getRoot segments).Promising size fun s => s.ptrCount = 0 := by
  rw [getRoot, bind_eq, hroot, bind_done_ok]
  refine promising_lookPointer [0, 0, 0, 0, 0, 0, 0, 0] rfl ?_ fun ref => ?_
  · intro m
    rw [ofBytes_zeros]
    exact ⟨⟨root, 0, 0, 0⟩, rfl, rfl⟩
  · by_cases hnull : ref.IsNull
    · rw [if_pos hnull]
      trivial
    · rw [if_neg hnull]
      refine promising_followFars [0, 0, 0, 0, 0, 0, 0, 0] rfl ?_ hroot ?_ ref
      · intro segment ptr hptr m
        refine ⟨⟨segment, ptr, 0, 0⟩, ?_, rfl⟩
        have hcheck : segment.CheckObject ptr
            (WirePointer.dataSize ⟨0, 0⟩ + WirePointer.ptrCount ⟨0, 0⟩) := hptr
        dsimp only
        rw [ofBytes_zeros, bind_eq, run_bind_of_ok (run_kjRequire (by decide) m), bind_eq,
          run_bind_of_ok (run_kjRequire hcheck m)]
        rfl
      · intro found
        exact (promising_kjRequire _).after fun _ => (promising_kjRequire _).after fun _ => trivial

/-- Getting a scalar is promising. -/
theorem promising_getScalar (s : StructReader) (T : ElemType) :
    (s.getScalar T).Promising size fun _ => True := by
  unfold StructReader.getScalar
  split
  · refine ⟨?_, fun _ => trivial⟩
    intro _
    exact ⟨List.replicate T.sizeof 0, List.length_replicate,
      fun m => ⟨m, fun _ _ => rfl, _, rfl, trivial⟩⟩
  · trivial

/-- Reading a list of structs is promising, since its tag may announce no elements. -/
theorem promising_inlineCompositeList (found : Followed) :
    found.inlineCompositeList.Promising size fun _ => True := by
  have htag : WirePointer.ofBytes [0, 0, 0, 0, 1, 0, 0, 0] = ⟨0, 1⟩ := by decide
  refine (promising_kjRequire _).after fun _ => ?_
  refine promising_lookPointer [0, 0, 0, 0, 1, 0, 0, 0] rfl ?_ fun tag => ?_
  · intro m
    refine ⟨⟨found.ptr + 1, 0, 64⟩, ?_, trivial⟩
    have hnone : WirePointer.inlineCompositeListElementCount ⟨0, 1⟩ *
        (WirePointer.dataSize ⟨0, 1⟩ + WirePointer.ptrCount ⟨0, 1⟩) ≤ found.ref.elementCount :=
      Nat.zero_le _
    rw [htag, bind_eq, run_bind_of_ok (run_kjRequire (by decide) m), bind_eq,
      run_bind_of_ok (run_kjRequire hnone m), bind_eq,
      run_bind_of_ok (run_kjRequire (by decide) m)]
    rfl
  · refine (promising_kjRequire _).after fun _ => (promising_kjRequire _).after fun _ => ?_
    exact (promising_kjRequire _).after fun _ => trivial

/-- Getting a list is promising, since a list pointer may announce no elements. -/
theorem promising_getList {root : Segment} (hroot : tryGetSegment segments 0 = .done (.ok root))
    (s : StructReader) (T : ElemType) :
    (s.getList segments T).Promising size fun _ => True := by
  unfold StructReader.getList
  split
  · refine promising_lookPointer [0, 0, 0, 0, 0, 0, 0, 0] rfl ?_ fun ref => ?_
    · intro m
      rw [ofBytes_zeros]
      exact ⟨_, rfl, trivial⟩
    · by_cases hnull : ref.IsNull
      · rw [if_pos hnull]
        trivial
      · rw [if_neg hnull]
        refine promising_followFars (leBytes 4 1 ++ leBytes 4 T.sizeCode) (by simp) ?_ hroot ?_ ref
        · intro segment ptr hptr m
          have hlist : WirePointer.ofBytes (leBytes 4 1 ++ leBytes 4 T.sizeCode) =
              ⟨1, 8 * 0 + T.sizeCode⟩ := by cases T <;> decide
          have hsize : ¬WirePointer.elementSize ⟨1, 8 * 0 + T.sizeCode⟩ = 7 := by
            cases T <;> decide
          have hcheck : segment.CheckObject ptr ((0 * (8 * T.sizeof) + 63) / 64) := by
            rw [Segment.CheckObject]
            omega
          dsimp only
          rw [hlist, bind_eq, run_bind_of_ok (run_kjRequire (by rfl) m), if_neg hsize,
            run_primitiveList hcheck]
          exact ⟨_, rfl, trivial⟩
        · intro found
          refine (promising_kjRequire _).after fun _ => ?_
          split
          · exact promising_inlineCompositeList found
          · refine (promising_kjRequire _).after fun _ => (promising_kjRequire _).after fun _ => ?_
            exact (promising_kjRequire _).after fun _ => trivial
  · trivial

/-- Elements are copied whatever they are. -/
theorem exists_copyFrom (m : Memory) (temp : ListReader) (T : ElemType) (i more : ℕ) :
    ∃ elems, (temp.copyFrom T i more).run m = .ok elems := by
  induction more generalizing i with
  | zero => exact ⟨[], rfl⟩
  | succ more ih =>
    obtain ⟨rest, hrest⟩ := ih (i + 1)
    refine ⟨m.read (8 * temp.ptr + i * temp.step / 8) T.sizeof ++ rest, ?_⟩
    rw [ListReader.copyFrom, run, bind_eq, run_bind_of_ok hrest]
    rfl

/-- Copying elements is promising. -/
theorem promising_copyFrom (temp : ListReader) (T : ElemType) (i more : ℕ) :
    (temp.copyFrom T i more).Promising size fun _ => True := by
  induction more generalizing i with
  | zero => trivial
  | succ more ih =>
    refine ⟨?_, fun b => (ih (i + 1)).bind (fun rest _ m => ⟨_, rfl, trivial⟩) fun _ => trivial⟩
    intro _
    refine ⟨List.replicate T.sizeof 0, List.length_replicate, fun m => ⟨m, fun _ _ => rfl, ?_⟩⟩
    obtain ⟨rest, hrest⟩ := exists_copyFrom m temp T (i + 1) more
    refine ⟨List.replicate T.sizeof 0 ++ rest, ?_, trivial⟩
    dsimp only
    rw [bind_eq, run_bind_of_ok hrest]
    rfl

/-- The accessors are promising. -/
theorem promising_accessors (segments : List Segment) (T : ElemType) (target : Target) :
    (CapnProtoNoCompressSerializer.accessors T target segments).Promising size fun _ => True := by
  obtain ⟨result, hresult⟩ := tryGetSegment_done segments 0
  cases result with
  | error e =>
    cases target <;>
      simp only [CapnProtoNoCompressSerializer.accessors, getRoot, bind_eq, hresult] <;> trivial
  | ok root =>
    cases target with
    | scalar =>
      refine (promising_getRoot hresult).bind ?_ fun num => promising_getScalar num T
      intro num _ m
      unfold StructReader.getScalar
      split <;> exact ⟨_, rfl, trivial⟩
    | array count =>
      refine (promising_getRoot hresult).bind ?_ fun nums => ?_
      · intro nums hnums m
        rw [StructReader.getList, if_neg (by omega)]
        exact ⟨[], rfl, trivial⟩
      · refine (promising_getList hresult nums T).bind ?_ fun temp => promising_copyFrom temp T 0 _
        intro temp _ m
        obtain ⟨elems, helems⟩ := exists_copyFrom m temp T 0 temp.elementCount
        exact ⟨elems, helems, trivial⟩

end Promising

end Pmemcpy
