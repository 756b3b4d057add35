import Pmemcpy.Lib.Packing

/-!
# Unpacking a packed stream

A reader asks for a number of words and takes the stream one piece at a time. A piece
that has more words than are still wanted is refused. What was packed is unpacked as
it was, whatever follows in the stream.
-/

namespace Pmemcpy.Lib

open Piece

/-- One bit for each byte, the lowest for the first, set where the byte is not zero. -/
def tagOf (b : Bytes) : ℕ := b.foldr (fun b t => 2 * t + if b = 0 then 0 else 1) 0

/-- The bytes that a tag announces: one of the stream for each bit that is set, and zeros. -/
def fillIn : ℕ → ℕ → Bytes → Option (Bytes × Bytes)
  | 0, _, s => some ([], s)
  | n + 1, tag, s =>
    if tag % 2 = 0 then (fillIn n (tag / 2) s).map fun r => (0 :: r.1, r.2)
    else
      match s with
      | [] => none
      | x :: s => (fillIn n (tag / 2) s).map fun r => (x :: r.1, r.2)

/-- The piece at the start of a stream, and the rest of the stream. -/
def Piece.read : Bytes → Option (Piece × Bytes)
  | [] => none
  | tag :: s =>
    match fillIn 8 tag.toNat s with
    | none => none
    | some (b, s) =>
      if tag = 0 then
        match s with
        | [] => none
        | more :: s => some (zeros more.toNat, s)
      else if tag = 255 then
        match s with
        | [] => none
        | count :: s =>
          if 8 * count.toNat ≤ s.length then
            some (raw (Word.ofBytes b) (wordsOf (s.take (8 * count.toNat))),
              s.drop (8 * count.toNat))
          else none
      else some (tagged (Word.ofBytes b), s)

/-- A piece that a packer makes: its count fits a byte, and its word is of its kind. -/
def Piece.WellFormed : Piece → Prop
  | zeros more => more < 256
  | raw w run => w.zeros = 0 ∧ run.length < 256
  | tagged w => w.zeros ≠ 0 ∧ w.zeros ≠ 8

/-- A piece stands for at least one word. -/
theorem Piece.words_pos (p : Piece) : 0 < p.words.length := by
  cases p <;> simp [words]

/-- The first `n` words of a stream, and the rest of the stream. -/
def unpack (n : ℕ) (s : Bytes) : Option (List Word × Bytes) :=
  if n = 0 then some ([], s)
  else
    match Piece.read s with
    | none => none
    | some (p, s) =>
      if p.words.length ≤ n then
        (unpack (n - p.words.length) s).map fun r => (p.words ++ r.1, r.2)
      else none
termination_by n
decreasing_by
  have := p.words_pos
  omega

section Tags

variable {b rest : Bytes} {w : Word}

/-- A tag has one bit for each byte. -/
theorem tagOf_lt (b : Bytes) : tagOf b < 2 ^ b.length := by
  induction b with
  | nil => simp [tagOf]
  | cons x b ih =>
    have hstep : tagOf (x :: b) = 2 * tagOf b + if x = 0 then 0 else 1 := rfl
    rw [hstep, List.length_cons, pow_succ]
    split <;> omega

/-- The tag of a word is the number whose bits tell which bytes are not zero. -/
theorem toNat_tag (w : Word) : w.tag.toNat = tagOf w.bytes := by
  have hcast (b : Bytes) :
      b.foldr (fun b t => 2 * t + if b = 0 then 0 else 1) (0 : UInt8) = UInt8.ofNat (tagOf b) := by
    induction b with
    | nil => rfl
    | cons x b ih =>
      rw [List.foldr_cons, ih]
      have hstep : tagOf (x :: b) = 2 * tagOf b + if x = 0 then 0 else 1 := rfl
      rw [hstep]
      split <;> simp
  have hlt := tagOf_lt w.bytes
  rw [w.length_bytes] at hlt
  rw [Word.tag, hcast, UInt8.toNat_ofNat']
  exact Nat.mod_eq_of_lt hlt

/-- A tag is zero exactly if all bytes are. -/
theorem tagOf_eq_zero_iff : tagOf b = 0 ↔ b.count 0 = b.length := by
  induction b with
  | nil => simp [tagOf]
  | cons x b ih =>
    have hstep : tagOf (x :: b) = 2 * tagOf b + if x = 0 then 0 else 1 := rfl
    have hle : b.count 0 ≤ b.length := List.count_le_length
    rw [hstep, List.length_cons]
    by_cases hx : x = 0
    · rw [if_pos hx, hx, List.count_cons_self]
      omega
    · rw [if_neg hx, List.count_cons_of_ne hx]
      omega

/-- A tag has all its bits set exactly if no byte is zero. -/
theorem tagOf_eq_full_iff : tagOf b + 1 = 2 ^ b.length ↔ b.count 0 = 0 := by
  induction b with
  | nil => simp [tagOf]
  | cons x b ih =>
    have hstep : tagOf (x :: b) = 2 * tagOf b + if x = 0 then 0 else 1 := rfl
    rw [hstep, List.length_cons, pow_succ]
    by_cases hx : x = 0
    · rw [if_pos hx, hx, List.count_cons_self]
      omega
    · rw [if_neg hx, List.count_cons_of_ne hx]
      omega

/-- Where the tag has no bit, a zero byte is filled in. -/
theorem fillIn_even {n tag : ℕ} (h : tag % 2 = 0) (s : Bytes) :
    fillIn (n + 1) tag s = (fillIn n (tag / 2) s).map fun r => (0 :: r.1, r.2) := by
  cases s <;> simp [fillIn, h]

/-- Where the tag has a bit, the next byte is filled in. -/
theorem fillIn_odd {n tag : ℕ} (h : tag % 2 ≠ 0) (x : UInt8) (s : Bytes) :
    fillIn (n + 1) tag (x :: s) = (fillIn n (tag / 2) s).map fun r => (x :: r.1, r.2) := by
  simp [fillIn, h]

/-- The bytes that are not zero are filled in where their tag has a bit. -/
theorem fillIn_tagOf (b rest : Bytes) :
    fillIn b.length (tagOf b) (b.filter (· ≠ 0) ++ rest) = some (b, rest) := by
  induction b with
  | nil => rfl
  | cons x b ih =>
    have hstep : tagOf (x :: b) = 2 * tagOf b + if x = 0 then 0 else 1 := rfl
    rw [hstep, List.length_cons]
    by_cases hx : x = 0
    · rw [if_pos hx, fillIn_even (by omega), List.filter_cons_of_neg (by simp [hx]),
        Nat.add_zero, Nat.mul_div_cancel_left _ (by omega), ih, hx]
      rfl
    · have hhalf : (2 * tagOf b + 1) / 2 = tagOf b := by omega
      rw [if_neg hx, List.filter_cons_of_pos (by simp [hx]), List.cons_append,
        fillIn_odd (by omega), hhalf, ih]
      rfl

end Tags

section Pieces

variable {p : Piece} {ps : List Piece} {rest s : Bytes} {w : Word} {ws : List Word} {n : ℕ}

/-- A word is filled in from its tag and its bytes that are not zero. -/
theorem fillIn_word (w : Word) (rest : Bytes) :
    fillIn 8 w.tag.toNat (w.nonzero ++ rest) = some (w.bytes, rest) := by
  have h := fillIn_tagOf w.bytes rest
  rwa [w.length_bytes, ← toNat_tag] at h

/-- Only a word of zeros has the tag zero. -/
theorem tag_eq_zero_iff : w.tag = 0 ↔ w.zeros = 8 := by
  rw [← UInt8.toNat_inj, toNat_tag, UInt8.toNat_zero, tagOf_eq_zero_iff, w.length_bytes, Word.zeros]

/-- Only a word without zero bytes has a tag of ones. -/
theorem tag_eq_full_iff : w.tag = 255 ↔ w.zeros = 0 := by
  have hfull : (255 : UInt8).toNat = 255 := rfl
  have hiff := tagOf_eq_full_iff (b := w.bytes)
  rw [w.length_bytes] at hiff
  rw [← UInt8.toNat_inj, toNat_tag, hfull, Word.zeros, ← hiff]
  omega

/-- What is read at the tag of a word depends on the number of its zero bytes. -/
theorem Piece.read_tag (w : Word) (s : Bytes) : Piece.read (w.tag :: (w.nonzero ++ s)) =
    if w.zeros = 8 then s.head?.map fun more => (zeros more.toNat, s.tail)
    else if w.zeros = 0 then
      match s with
      | [] => none
      | count :: s =>
        if 8 * count.toNat ≤ s.length then
          some (raw w (wordsOf (s.take (8 * count.toNat))), s.drop (8 * count.toNat))
        else none
    else some (tagged w, s) := by
  rw [Piece.read, fillIn_word]
  dsimp only
  rw [Word.ofBytes_bytes]
  by_cases hzero : w.zeros = 8
  · rw [if_pos (tag_eq_zero_iff.mpr hzero), if_pos hzero]
    cases s <;> rfl
  · rw [if_neg (mt tag_eq_zero_iff.mp hzero), if_neg hzero]
    by_cases hfull : w.zeros = 0
    · rw [if_pos (tag_eq_full_iff.mpr hfull), if_pos hfull]
    · rw [if_neg (mt tag_eq_full_iff.mp hfull), if_neg hfull]

/-- **A piece is read back**, whatever follows in the stream. -/
theorem Piece.read_bytes (h : p.WellFormed) (rest : Bytes) :
    Piece.read (p.bytes ++ rest) = some (p, rest) := by
  cases p with
  | zeros more =>
    have hcount : (UInt8.ofNat more).toNat = more := by
      rw [UInt8.toNat_ofNat']
      exact Nat.mod_eq_of_lt h
    have hread := Piece.read_tag Word.zero (UInt8.ofNat more :: rest)
    rw [if_pos (by decide)] at hread
    rw [List.head?_cons, Option.map_some, hcount, List.tail_cons] at hread
    exact hread
  | raw w run =>
    obtain ⟨hzeros, hrun⟩ := h
    have hcount : (UInt8.ofNat run.length).toNat = run.length := by
      rw [UInt8.toNat_ofNat']
      exact Nat.mod_eq_of_lt hrun
    have hlength : 8 * run.length = (run.flatMap Word.bytes).length :=
      (length_flatMap_bytes run).symm
    have hnonzero : w.nonzero = w.bytes := by
      rw [Word.nonzero, List.filter_eq_self]
      intro b hb
      have hnone : 0 ∉ w.bytes := List.count_eq_zero.mp hzeros
      simpa using ne_of_mem_of_not_mem hb hnone
    have hread := Piece.read_tag w (UInt8.ofNat run.length :: (run.flatMap Word.bytes ++ rest))
    rw [if_neg (by omega), if_pos hzeros] at hread
    dsimp only at hread
    rw [hcount, hlength, if_pos (by simp), List.take_left, List.drop_left, wordsOf_flatMap,
      tag_eq_full_iff.mpr hzeros, hnonzero] at hread
    simpa [Piece.bytes] using hread
  | tagged w =>
    have hread := Piece.read_tag w rest
    rw [if_neg h.2, if_neg h.1] at hread
    exact hread

/-- A packer makes pieces that are well formed. -/
theorem wellFormed_begin (w : Word) : (begin w).WellFormed := by
  unfold begin
  split
  · exact Nat.zero_lt_succ 255
  · split
    · rename_i h
      exact ⟨h, Nat.zero_lt_succ 255⟩
    · rename_i h8 h0
      exact ⟨h0, h8⟩

/-- One more word keeps the pieces well formed: a count that is full does not grow. -/
theorem wellFormed_push (hps : ∀ p ∈ ps, p.WellFormed) (w : Word) :
    ∀ p ∈ push ps w, p.WellFormed := by
  have hnew : ∀ p ∈ begin w :: ps, p.WellFormed :=
    List.forall_mem_cons.mpr ⟨wellFormed_begin w, hps⟩
  match ps, hps, hnew with
  | [], _, hnew => exact hnew
  | tagged v :: qs, _, hnew => exact hnew
  | zeros more :: qs, hps, hnew =>
    rw [push]
    split
    · rename_i h
      exact List.forall_mem_cons.mpr ⟨Nat.succ_lt_succ h.2, (List.forall_mem_cons.mp hps).2⟩
    · exact hnew
  | raw v run :: qs, hps, hnew =>
    rw [push]
    split
    · rename_i h
      obtain ⟨hv, hqs⟩ := List.forall_mem_cons.mp hps
      have hlonger : (run ++ [w]).length < 256 := by
        rw [List.length_append, List.length_singleton]
        omega
      exact List.forall_mem_cons.mpr ⟨⟨hv.1, hlonger⟩, hqs⟩
    · exact hnew

/-- The pieces of a list of words are well formed. -/
theorem wellFormed_cut (ws : List Word) : ∀ p ∈ cut ws, p.WellFormed := by
  induction ws using List.reverseRecOn with
  | nil => simp [cut]
  | append_singleton ws w ih =>
    rw [cut_append_singleton]
    exact wellFormed_push ih w

/-- **What was packed is unpacked as it was**, and what follows is left. -/
theorem unpack_bytes (hps : ∀ p ∈ ps, p.WellFormed) (rest : Bytes) :
    unpack (ps.flatMap words).length (ps.flatMap Piece.bytes ++ rest) =
      some (ps.flatMap words, rest) := by
  induction ps with
  | nil =>
    rw [unpack]
    rfl
  | cons p ps ih =>
    have hp := hps p List.mem_cons_self
    have hrest := ih fun q hq => hps q (List.mem_cons_of_mem _ hq)
    have hpos := p.words_pos
    rw [unpack, List.flatMap_cons, List.flatMap_cons, List.length_append, if_neg (by omega),
      List.append_assoc, Piece.read_bytes hp]
    dsimp only
    rw [if_pos (by omega), Nat.add_sub_cancel_left, hrest]
    rfl

/-- Two readings one after another are one reading. -/
theorem unpack_append {k : ℕ} {vs : List Word} {rest' : Bytes} (h : unpack n s = some (ws, rest))
    (h' : unpack k rest = some (vs, rest')) : unpack (n + k) s = some (ws ++ vs, rest') := by
  induction n, s using unpack.induct generalizing ws rest with
  | case1 s =>
    rw [unpack, if_pos rfl] at h
    cases h
    rwa [Nat.zero_add]
  | case2 n s hn hread =>
    rw [unpack, if_neg hn, hread] at h
    simp at h
  | case3 n s hn p s' hread hle ih =>
    rw [unpack, if_neg hn, hread] at h
    dsimp only at h
    rw [if_pos hle] at h
    obtain ⟨⟨ws', tail⟩, hr, heq⟩ := Option.map_eq_some_iff.mp h
    cases heq
    have hnext := ih hr h'
    have hcount : n + k - p.words.length = n - p.words.length + k := by omega
    rw [unpack, if_neg (by omega), hread]
    dsimp only
    rw [if_pos (by omega), hcount, hnext, List.append_assoc]
    rfl
  | case4 n s hn p s' hread hle =>
    rw [unpack, if_neg hn, hread] at h
    dsimp only at h
    rw [if_neg hle] at h
    simp at h

/-- Packed words are unpacked, whatever follows them in the stream. -/
theorem unpack_pack (ws : List Word) (rest : Bytes) :
    unpack ws.length (pack ws ++ rest) = some (ws, rest) := by
  have hwell : ∀ p ∈ (cut ws).reverse, p.WellFormed :=
    fun p hp => wellFormed_cut ws p (List.mem_reverse.mp hp)
  have h := unpack_bytes hwell rest
  rwa [words_cut, ← pack] at h

/-- A packed stream of some words is not empty: nothing is unpacked of an empty one. -/
theorem pack_ne_nil {ws : List Word} (h : ws ≠ []) : pack ws ≠ [] := by
  intro hnil
  have hback := unpack_pack ws []
  rw [hnil, unpack, if_neg (by simpa using h)] at hback
  cases hback

end Pieces

end Pmemcpy.Lib
