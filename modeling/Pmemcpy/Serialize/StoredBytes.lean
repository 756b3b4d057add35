import Pmemcpy.Serialize.OtherBytes

/-!
# What decoding a flat message depends on

The reader stays in the array of words that it is given. As this array is eight
times as long as the buffer, a table or a pointer may lead it behind the buffer,
and what it finds there then decides what it returns. So decoding depends on the
bytes of the buffer only if it reads no others, or finds no root in any case.
-/

namespace Pmemcpy

open Lib Probe

/-! ### The table of segments -/

namespace FlatArrayMessageReader

section Table

variable {size words i off more : ℕ} {m : Memory} {segments : List Segment}

/-- The first segment has the size that the table gives it. -/
theorem segmentsFrom_first (h : (segmentsFrom words i off (more + 1)).run m = .ok segments) :
    ∃ rest, segments = ⟨off, ofLe (m.read (4 * (i + 1)) 4)⟩ :: rest := by
  rw [segmentsFrom_succ, run, run_bind] at h
  cases hreq : (kjRequire (off + ofLe (m.read (4 * (i + 1)) 4) ≤ words)).run m with
  | error e =>
    rw [hreq] at h
    cases h
  | ok _ =>
    rw [hreq] at h
    obtain ⟨rest, _, rfl⟩ := exists_of_run_map h
    exact ⟨rest, rfl⟩

/-- The first segment that is constructed is right behind the table. -/
theorem construct_first (h : (construct words).run m = .ok segments) (hwords : ¬words < 1) :
    ∃ rest, segments = ⟨tableWords (ofLe (m.read 0 4)), ofLe (m.read 4 4)⟩ :: rest := by
  rw [construct_eq hwords, run, run_bind] at h
  cases hreq : (kjRequire (tableWords (ofLe (m.read 0 4)) ≤ words)).run m with
  | error e =>
    rw [hreq] at h
    cases h
  | ok _ =>
    rw [hreq] at h
    obtain ⟨more, hmore⟩ :=
      Nat.exists_eq_add_of_le' (le_max_left 1 (segmentCount (ofLe (m.read 0 4))))
    rw [hmore] at h
    exact segmentsFrom_first h

/-- The constructor looks at the table only. -/
theorem inside_table (words : ℕ) (m : Memory) :
    (construct words).Inside (8 * tableWords (ofLe (m.read 0 4))) m := by
  by_cases hempty : words < 1
  · rw [construct, if_pos hempty]
    trivial
  · rw [construct_eq hempty]
    have hsafe (first : ℕ) :
        (segmentsFrom words 0 (tableWords first) (max 1 (segmentCount first))).Safely
          (8 * tableWords first) m (Covered (8 * words)) := by
      apply safely_segmentsFrom
      rw [tableWords]
      omega
    refine ⟨?_, ((safely_kjRequire _).bind fun _ _ => hsafe _).inside⟩
    rw [tableWords]
    omega

/-- Entries that are zero are accepted. -/
theorem segmentsFrom_zeros (more : ℕ) (hzero : ∀ b, 4 * (i + 1) ≤ b → m b = 0)
    (hoff : off ≤ words) : ∃ segments, (segmentsFrom words i off more).run m = .ok segments := by
  induction more generalizing i with
  | zero => exact ⟨[], rfl⟩
  | succ more ih =>
    obtain ⟨rest, hrest⟩ := ih (i := i + 1) fun b hb => hzero b (by omega)
    have hentry : ofLe (m.read (4 * (i + 1)) 4) = 0 := by
      rw [Memory.read_zeros hzero]
      rfl
    refine ⟨⟨off, 0⟩ :: rest, ?_⟩
    rw [segmentsFrom_succ, run, hentry, Nat.add_zero, run_bind_of_ok (run_kjRequire hoff m),
      run_bind_of_ok hrest, run]

/-- With zeros behind the first bytes, a table that ends behind them is accepted. -/
theorem segmentsFrom_behind (more : ℕ) (hzero : ∀ b, size ≤ b → m b = 0) (hoff : off ≤ words)
    (hsplit : ¬(segmentsFrom words i off more).Splits 8 size m)
    (hout : ¬(segmentsFrom words i off more).Inside size m) :
    ∃ segments, (segmentsFrom words i off more).run m = .ok segments := by
  induction more generalizing i off with
  | zero => exact absurd trivial hout
  | succ more ih =>
    by_cases hin : 4 * (i + 1) + 4 ≤ size
    · rw [segmentsFrom_succ] at hsplit hout ⊢
      rw [splits_look_inside hin] at hsplit
      rw [Inside, and_iff_right hin] at hout
      rw [run]
      generalize ofLe (m.read (4 * (i + 1)) 4) = entry at *
      by_cases hreq : off + entry ≤ words
      · rw [kjRequire, if_pos hreq, bind_done_ok] at *
        have hout' : ¬(segmentsFrom words (i + 1) (off + entry) more).Inside size m :=
          fun h => hout (inside_bind.mpr ⟨h, fun _ _ => trivial⟩)
        obtain ⟨rest, hrest⟩ := ih hreq (fun h => hsplit (h.bind _)) hout'
        exact ⟨⟨off, entry⟩ :: rest, by rw [run_bind_of_ok hrest, run]⟩
      · rw [kjRequire, if_neg hreq] at hout
        exact absurd trivial hout
    · rw [segmentsFrom_succ, splits_look_behind hin] at hsplit
      exact segmentsFrom_zeros _ (fun b hb => hzero b (by omega)) hoff

/-- With zeros behind the first bytes, a whole table that ends behind them is accepted. -/
theorem construct_behind (hzero : ∀ b, size ≤ b → m b = 0)
    (hsplit : ¬(construct size).Splits 8 size m) (hout : ¬(construct size).Inside size m) :
    8 ≤ size ∧ ∃ segments, (construct size).run m = .ok segments := by
  by_cases hempty : size < 1
  · rw [construct, if_pos hempty] at hout
    exact absurd trivial hout
  · rw [construct_eq hempty] at hsplit hout ⊢
    by_cases hin : 0 + 4 ≤ size
    · rw [splits_look_inside hin] at hsplit
      rw [Inside, and_iff_right hin] at hout
      rw [run]
      generalize ofLe (m.read 0 4) = first at *
      by_cases hreq : tableWords first ≤ size
      · rw [kjRequire, if_pos hreq, bind_done_ok] at *
        refine ⟨?_, segmentsFrom_behind _ hzero hreq hsplit hout⟩
        -- the entry of the first segment is in the first word
        obtain ⟨more, hmore⟩ := Nat.exists_eq_add_of_le' (le_max_left 1 (segmentCount first))
        by_contra hlt
        rw [hmore, segmentsFrom_succ, splits_look_behind (by omega)] at hsplit
        omega
      · rw [kjRequire, if_neg hreq] at hout
        exact absurd trivial hout
    · rw [splits_look_behind hin] at hsplit
      omega

end Table

end FlatArrayMessageReader

/-! ### Whole messages -/

section Decode

open FlatArrayMessageReader CapnProtoNoCompressSerializer

variable {size : ℕ} {m : Memory} {segments : List Segment} {T : ElemType} {target : Target}
  {src : Bytes}

/-- Decoding the buffer gives the same, or fails, in every memory that holds it. -/
def DependsOnStored (T : ElemType) (target : Target) (src : Bytes) : Prop :=
  (decode T src.length target).DependsOn src

/-- Every word and every element that decoding looks at is in the buffer. -/
def ReadsStored (T : ElemType) (target : Target) (src : Bytes) : Prop :=
  (decode T src.length target).Within src

/-- Decoding first leaves the buffer in a word that is partly in it. -/
def ReadsCutWord (T : ElemType) (target : Target) (src : Bytes) : Prop :=
  (decode T src.length target).Splits 8 src.length (.holding src fun _ => 0)

/-- The first segment, in which the root should be, has no words by the table. -/
def RootSegmentEmpty (src : Bytes) : Prop := 8 ≤ src.length ∧ ofLe (slice src 4 4) = 0

/-- The table announces segments that are in the buffer. -/
def WholeMessage (src : Bytes) : Prop :=
  ∃ segments, (construct src.length).run (Memory.holding src fun _ => 0) = .ok segments ∧
    Covered src.length segments

/-- The reader does not leave a buffer that holds a whole message. -/
theorem WholeMessage.readsStored (h : WholeMessage src) (T : ElemType) (target : Target) :
    ReadsStored T target src := by
  obtain ⟨segments, hrun, hcovered⟩ := h
  have htable : (construct src.length).Within src := by
    by_cases hempty : src.length < 1
    · rw [construct, if_pos hempty]
      trivial
    · obtain ⟨rest, rfl⟩ := construct_first hrun hempty
      have hroot := hcovered _ List.mem_cons_self
      rw [Segment.finish] at hroot
      dsimp only at hroot
      exact (inside_table src.length _).mono (by omega)
  rw [ReadsStored, decode_eq, Within, inside_bind]
  refine ⟨htable, ?_⟩
  intro segments' hrun'
  obtain rfl : segments = segments' := Except.ok.inj (hrun.symm.trans hrun')
  exact (safely_accessors hcovered T target).inside

/-- Segments one after another end where the last one does. -/
theorem covered_layout {off : ℕ} {segments : List (List Word)}
    (h : 8 * (off + segments.flatten.length) ≤ size) : Covered size (layout off segments) := by
  induction segments generalizing off with
  | nil =>
    intro s hs
    cases hs
  | cons t segments ih =>
    rw [List.flatten_cons, List.length_append] at h
    intro s hs
    rcases List.mem_cons.mp hs with rfl | hs
    · show 8 * (off + t.length) ≤ size
      omega
    · exact ih (by omega) s hs

/-- A message that was written is whole, whatever follows it in its buffer. -/
theorem wholeMessage_written {segments : List (List Word)} (hne : segments ≠ [])
    (hcount : segments.length < 2 ^ 32) (hsizes : ∀ s ∈ segments, s.length < 2 ^ 32)
    (rest : Bytes) : WholeMessage (writeMessage segments ++ rest) := by
  have hlength := length_writeMessage segments
  have htable := length_segmentTable segments
  have hfits : (segmentTable segments).length + segments.flatten.length ≤
      (writeMessage segments ++ rest).length := by
    rw [List.length_append]
    omega
  refine ⟨_, run_construct (Memory.begins_holding _ _ _) hne hcount hsizes hfits, ?_⟩
  apply covered_layout
  rw [List.length_append]
  omega

/-- Without a root, every buffer is refused. -/
theorem RootSegmentEmpty.refused (h : RootSegmentEmpty src) (T : ElemType) (target : Target)
    (behind : Memory) :
    ∃ e, (decode T src.length target).run (.holding src behind) = .error e := by
  obtain ⟨hlen, hsize⟩ := h
  rw [decode_eq, run_bind]
  cases hrun : (construct src.length).run (.holding src behind) with
  | error e => exact ⟨e, rfl⟩
  | ok segments =>
    obtain ⟨rest, rfl⟩ := construct_first hrun (by omega)
    rw [Memory.read_holding behind (show 4 + 4 ≤ src.length by omega), hsize]
    refine ⟨.malformed, ?_⟩
    cases target <;> rfl

/-- The root, if there are words for it, is not in front of them. -/
theorem not_inside_root {start n : ℕ} {rest : List Segment} (hn : n ≠ 0) :
    ¬(accessors T target (⟨start, n⟩ :: rest)).Inside (8 * start) m := by
  have hroot : tryGetSegment (⟨start, n⟩ :: rest) 0 = .done (.ok ⟨start, n⟩) := if_neg hn
  have hget : ¬(getRoot (⟨start, n⟩ :: rest)).Inside (8 * start) m := by
    intro h
    rw [getRoot, bind_eq, hroot, bind_done_ok] at h
    have hlook : 8 * start + 8 ≤ 8 * start := (inside_bind.mp h).1.1
    omega
  intro h
  apply hget
  cases target with
  | scalar => exact (inside_bind.mp h).1
  | array count => exact (inside_bind.mp h).1

/-- What is enough. -/
theorem dependsOnStored_of (h : ReadsStored T target src ∨ RootSegmentEmpty src) :
    DependsOnStored T target src := by
  rcases h with hreads | hempty
  · exact hreads.dependsOn
  · exact dependsOn_of_fails (hempty.refused T target)

/-- What is necessary, unless it depends on a part of a word. -/
theorem DependsOnStored.reads (hdep : DependsOnStored T target src)
    (hcut : ¬ReadsCutWord T target src) : ReadsStored T target src ∨ RootSegmentEmpty src := by
  rw [DependsOnStored, decode_eq] at hdep
  rw [ReadsCutWord, decode_eq] at hcut
  rw [ReadsStored, decode_eq]
  by_cases hin : (construct src.length).Within src
  · left
    rwa [dependsOn_bind_iff hin (telling_accessors · T target) (promising_accessors · T target)
      hcut] at hdep
  · right
    -- a table that is not in the buffer ends behind it, and so the root starts there
    have hzero : ∀ b, src.length ≤ b → Memory.holding src (fun _ => 0) b = 0 :=
      fun b hb => Memory.holding_behind hb
    obtain ⟨hlen, segments, hrun⟩ := construct_behind hzero (fun h => hcut (h.bind _)) hin
    obtain ⟨rest, rfl⟩ := construct_first hrun (by omega)
    have htable := inside_table src.length (Memory.holding src fun _ => 0)
    have hlt := not_le.mp fun hle => hin (htable.mono hle)
    refine ⟨hlen, ?_⟩
    by_contra hsize
    rw [← Memory.read_holding (fun _ => 0) (show 4 + 4 ≤ src.length by omega)] at hsize
    exact not_dependsOn_bind hlt.le htable hrun (telling_accessors _ T target)
      (promising_accessors _ T target) (not_splits (Nat.dvd_mul_right 8 _))
      (not_inside_root hsize) hdep

end Decode

/-- **Decoding depends only on the stored bytes exactly if it reads no others**, or if the
message has no root by its table and is refused: for every element type, one element or an
array, and every buffer, unless the reader gets out of the buffer in a word that is partly in
it, of which only a part may matter. It reads no others where the buffer holds all segments that
its table announces. -/
theorem dependsOnStored_iff (T : ElemType) (target : Target) (src : Bytes) :
    (¬ReadsCutWord T target src →
        (DependsOnStored T target src ↔ ReadsStored T target src ∨ RootSegmentEmpty src)) ∧
      (ReadsStored T target src ∨ RootSegmentEmpty src → DependsOnStored T target src) ∧
      (8 ∣ src.length → ¬ReadsCutWord T target src) ∧
      (WholeMessage src → ReadsStored T target src) :=
  ⟨fun hcut => ⟨fun hdep => hdep.reads hcut, dependsOnStored_of⟩, dependsOnStored_of, not_splits,
    fun h => h.readsStored T target⟩

/-- A message of two bytes is decoded from the stored bytes only, with what an earlier one has left
behind it. -/
theorem written_message_dependsOnStored : DependsOnStored .uint8 (.array 2)
    (writeMessage (arraySegments .uint8 2 [8, 0]) ++ [1, 2, 3]) := by
  obtain ⟨_, henough, _, hwhole⟩ := dependsOnStored_iff .uint8 (.array 2)
    (writeMessage (arraySegments .uint8 2 [8, 0]) ++ [1, 2, 3])
  apply henough
  apply Or.inl
  apply hwhole
  exact wholeMessage_written (List.cons_ne_nil _ _) (by decide) (by decide) _

/-- The message of one byte without its last word: the byte is read from behind it. -/
theorem truncated_message_reads_on : ¬DependsOnStored .uint8 (.array 1)
    ((writeMessage (arraySegments .uint8 1 [5])).take 40) := by
  intro hclaim
  have hsame := hclaim (fun _ => 6) (fun _ => 7)
  revert hsame
  decide

end Pmemcpy
