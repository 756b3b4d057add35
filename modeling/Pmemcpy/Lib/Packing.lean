import Pmemcpy.Lib.Bytes
import Mathlib.Data.List.Induction
import Mathlib.Algebra.BigOperators.Group.List.Basic

/-!
# Packing words by their zero bytes

A packed stream writes each word of eight bytes as a tag and its bytes that are
not zero. Runs of zero words are counted, and a word without zero bytes may be
followed by a counted run of words that are copied as they are. The packer cuts
its input into such pieces; the sizes of the pieces bound the size of the
stream from above, and a pattern of words attains the bound.
-/

namespace Pmemcpy.Lib

/-- A word of eight bytes. -/
structure Word where
  bytes : Bytes
  length_bytes : bytes.length = 8
  deriving DecidableEq

namespace Word

/-- How many bytes of a word are zero. -/
def zeros (w : Word) : ℕ := w.bytes.count 0

/-- The word that holds these bytes, at most eight of them, and zeros after them. -/
def ofBytes (b : Bytes) : Word := ⟨(b ++ List.replicate 8 0).take 8, by simp⟩

/-- The word without a bit set. -/
def zero : Word := ofBytes []

/-- One bit for each byte, set where the byte is not zero. -/
def tag (w : Word) : UInt8 := w.bytes.foldr (fun b t => 2 * t + if b = 0 then 0 else 1) 0

/-- The bytes that follow the tag. -/
def nonzero (w : Word) : Bytes := w.bytes.filter (· ≠ 0)

variable {w : Word} {b : Bytes}

/-- The zero bytes are exactly the ones that are left out. -/
theorem length_nonzero (w : Word) : w.nonzero.length + w.zeros = 8 := by
  have hsplit := w.bytes.length_eq_countP_add_countP (· == 0)
  have hkept : w.nonzero.length = w.bytes.countP (fun b => !(b == 0)) := by
    rw [nonzero, ← List.countP_eq_length_filter]
    exact List.countP_congr fun b _ => by simp
  have hzero : w.zeros = w.bytes.countP (· == 0) := rfl
  rw [w.length_bytes] at hsplit
  simp only [Bool.not_eq_true] at hsplit
  rw [hkept, hzero, hsplit, Nat.add_comm]
  congr 1
  exact List.countP_congr fun b _ => by simp

/-- A word of eight zero bytes is the zero word. -/
theorem eq_zero_of_zeros (h : w.zeros = 8) : w = zero := by
  have hall : w.bytes = List.replicate 8 0 := by
    rw [List.eq_replicate_iff]
    refine ⟨w.length_bytes, ?_⟩
    intro b hb
    have hcount : w.bytes.count 0 = w.bytes.length := h.trans w.length_bytes.symm
    exact (List.count_eq_length.mp hcount b hb).symm
  cases w
  simpa [zero, ofBytes] using hall

/-- A word is what its bytes make it. -/
theorem ofBytes_bytes (w : Word) : ofBytes w.bytes = w := by
  cases w with
  | mk bytes h => simp [ofBytes, h]

/-- A word made from few bytes has these bytes and zeros behind them. -/
theorem bytes_ofBytes (h : b.length ≤ 8) :
    (ofBytes b).bytes = b ++ List.replicate (8 - b.length) 0 := by
  have htake : (b ++ List.replicate 8 0).take 8 = b ++ List.replicate (8 - b.length) 0 := by
    rw [List.take_append, List.take_of_length_le h, List.take_replicate, Nat.min_eq_left (by omega)]
  exact htake

/-- The bytes that fill a word up are zero. -/
theorem zeros_ofBytes (h : b.length ≤ 8) : (ofBytes b).zeros = b.count 0 + (8 - b.length) := by
  rw [zeros, bytes_ofBytes h, List.count_append, List.count_replicate_self]

end Word

/-- The words of a byte string, the last one filled up with zeros. -/
def wordsOf (b : Bytes) : List Word :=
  (List.range ((b.length + 7) / 8)).map fun i => Word.ofBytes (slice b (8 * i) 8)

section WordsOf

variable {b : Bytes}

/-- Words have eight bytes each. -/
theorem length_flatMap_bytes (ws : List Word) : (ws.flatMap Word.bytes).length = 8 * ws.length :=
  length_flatMap_of Word.length_bytes ws

/-- Bytes fill as many words as they need, the last one maybe in part. -/
@[simp] theorem length_wordsOf (b : Bytes) : (wordsOf b).length = (b.length + 7) / 8 := by
  simp [wordsOf]

/-- A whole word at the front is the first word. -/
theorem wordsOf_append (w : Word) (b : Bytes) : wordsOf (w.bytes ++ b) = w :: wordsOf b := by
  have hcount : ((w.bytes ++ b).length + 7) / 8 = (b.length + 7) / 8 + 1 := by
    rw [List.length_append, w.length_bytes]
    omega
  rw [wordsOf, hcount, List.range_succ_eq_map, List.map_cons, List.map_map, wordsOf]
  congr 1
  · have hfirst : slice (w.bytes ++ b) (8 * 0) 8 = w.bytes := by
      rw [slice, Nat.mul_zero, List.drop_zero, ← w.length_bytes, List.take_left]
    rw [hfirst, Word.ofBytes_bytes]
  · apply List.map_congr_left
    intro i _
    have hrest : slice (w.bytes ++ b) (8 * (i + 1)) 8 = slice b (8 * i) 8 := by
      have hoff : 8 * (i + 1) = w.bytes.length + 8 * i := by
        rw [w.length_bytes]
        omega
      rw [slice, hoff, ← List.drop_drop, List.drop_left, slice]
    rw [Function.comp_apply, Nat.succ_eq_add_one, hrest]

/-- Cutting whole words with bytes behind them gives the words, and then those of the bytes. -/
theorem wordsOf_flatMap_append (ws : List Word) (h0 : b ≠ []) (h : b.length < 8) :
    wordsOf (ws.flatMap Word.bytes ++ b) = ws ++ [Word.ofBytes b] := by
  induction ws with
  | nil =>
    have hpos := List.length_pos_of_ne_nil h0
    have hone : (b.length + 7) / 8 = 1 := by omega
    rw [List.flatMap_nil, List.nil_append, wordsOf, hone]
    simp [slice, List.take_of_length_le (by omega : b.length ≤ 8)]
  | cons w ws ih =>
    rw [List.flatMap_cons, List.append_assoc, wordsOf_append, ih]
    rfl

/-- Whole words are read back. -/
theorem wordsOf_flatMap (ws : List Word) : wordsOf (ws.flatMap Word.bytes) = ws := by
  induction ws with
  | nil => rfl
  | cons w ws ih => rw [List.flatMap_cons, wordsOf_append, ih]

/-- Every byte string is whole words with less than a word left over. -/
theorem exists_words (b : Bytes) :
    ∃ (ws : List Word) (rest : Bytes), b = ws.flatMap Word.bytes ++ rest ∧
      ws.length = b.length / 8 ∧ rest.length = b.length % 8 := by
  induction hn : b.length using Nat.strong_induction_on generalizing b with
  | _ n ih =>
    subst hn
    by_cases hshort : b.length < 8
    · exact ⟨[], b, rfl, by simp; omega, by omega⟩
    · have hw : (b.take 8).length = 8 := by
        rw [List.length_take]
        omega
      obtain ⟨ws, rest, hb, hws, hrest⟩ := ih (b.drop 8).length (by simp; omega) (b.drop 8) rfl
      rw [List.length_drop] at hws hrest
      refine ⟨⟨b.take 8, hw⟩ :: ws, rest, ?_, ?_, by omega⟩
      · rw [List.flatMap_cons, List.append_assoc, ← hb, List.take_append_drop]
      · rw [List.length_cons, hws]
        omega

/-- The words of a byte string are its bytes, with zeros behind them. -/
theorem flatMap_wordsOf (b : Bytes) :
    ∃ rest, (wordsOf b).flatMap Word.bytes = b ++ rest := by
  obtain ⟨ws, tail, hb, _, htail⟩ := exists_words b
  rw [hb]
  by_cases hnil : tail = []
  · exact ⟨[], by rw [hnil, List.append_nil, wordsOf_flatMap, List.append_nil]⟩
  · have hshort : tail.length < 8 := by omega
    refine ⟨List.replicate (8 - tail.length) 0, ?_⟩
    rw [wordsOf_flatMap_append ws hnil hshort, List.flatMap_append, List.flatMap_singleton,
      Word.bytes_ofBytes hshort.le, List.append_assoc]

end WordsOf

/-- A piece of a packed stream. -/
inductive Piece where
  /-- A zero word, and a count of further ones. -/
  | zeros (more : ℕ)
  /-- A word without zero bytes, and a counted run of words that are copied. -/
  | raw (w : Word) (run : List Word)
  /-- Any other word. -/
  | tagged (w : Word)
  deriving DecidableEq

namespace Piece

/-- The bytes of a piece in the stream. -/
def bytes : Piece → Bytes
  | zeros more => [0, UInt8.ofNat more]
  | raw w run => 255 :: (w.bytes ++ UInt8.ofNat run.length :: run.flatMap Word.bytes)
  | tagged w => w.tag :: w.nonzero

/-- The words that a piece stands for. -/
def words : Piece → List Word
  | zeros more => List.replicate (more + 1) Word.zero
  | raw w run => w :: run
  | tagged w => [w]

/-- How much longer a piece is than its words. -/
def excess : Piece → ℤ
  | zeros more => 2 - 8 * (more + 1)
  | raw _ _ => 2
  | tagged w => 1 - w.zeros

/-- A piece has the bytes of its words, and its excess. -/
theorem length_bytes (p : Piece) : (p.bytes.length : ℤ) = 8 * p.words.length + p.excess := by
  cases p with
  | zeros more =>
    simp only [bytes, words, excess, List.length_cons, List.length_nil, List.length_replicate]
    omega
  | raw w run =>
    simp only [bytes, words, excess, List.length_cons, List.length_append, length_flatMap_bytes,
      w.length_bytes]
    omega
  | tagged w =>
    have hsum := w.length_nonzero
    simp only [bytes, words, excess, List.length_cons, List.length_nil]
    omega

end Piece

open Piece

/-- The piece that a word begins. -/
def begin (w : Word) : Piece :=
  if w.zeros = 8 then zeros 0 else if w.zeros = 0 then raw w [] else tagged w

/-- One more word. The pieces come with the last one first: only this one can
grow, and a count has one byte. -/
def push : List Piece → Word → List Piece
  | zeros more :: ps, w =>
    if w.zeros = 8 ∧ more < 255 then zeros (more + 1) :: ps else begin w :: zeros more :: ps
  | raw v run :: ps, w =>
    if w.zeros < 2 ∧ run.length < 255 then raw v (run ++ [w]) :: ps
    else begin w :: raw v run :: ps
  | ps, w => begin w :: ps

/-- The pieces that words are cut into, the last one first. -/
def cut (ws : List Word) : List Piece := ws.foldl push []

/-- The packed stream of the words. -/
def pack (ws : List Word) : Bytes := (cut ws).reverse.flatMap Piece.bytes

/-- How much longer pieces are than their words. -/
def totalExcess (ps : List Piece) : ℤ := (ps.map excess).sum

section Cutting

variable {w : Word} {ws : List Word} {ps : List Piece}

/-- Cutting a list of words goes on with its last word. -/
theorem cut_append_singleton : cut (ws ++ [w]) = push (cut ws) w := by
  rw [cut, List.foldl_append]
  rfl

/-- A new piece stands for the word it was begun with. -/
theorem words_begin (w : Word) : (begin w).words = [w] := by
  unfold begin
  split
  · rename_i h
    rw [Word.eq_zero_of_zeros h]
    rfl
  · split <;> rfl

/-- What one more word does to the pieces: it is counted, it is copied, or it begins a piece. -/
theorem push_cases (ps : List Piece) (w : Word) :
    (∃ more qs, ps = zeros more :: qs ∧ w.zeros = 8 ∧ push ps w = zeros (more + 1) :: qs) ∨
      (∃ v run qs, ps = raw v run :: qs ∧ w.zeros < 2 ∧ run.length < 255 ∧
        push ps w = raw v (run ++ [w]) :: qs) ∨
      ((∀ v run qs, ps = raw v run :: qs → w.zeros < 2 → 255 ≤ run.length) ∧
        push ps w = begin w :: ps) := by
  match ps with
  | [] => exact Or.inr (Or.inr ⟨by simp, rfl⟩)
  | tagged v :: ps => exact Or.inr (Or.inr ⟨by simp, rfl⟩)
  | zeros more :: ps =>
    by_cases h : w.zeros = 8 ∧ more < 255
    · exact Or.inl ⟨more, ps, rfl, h.1, by rw [push, if_pos h]⟩
    · exact Or.inr (Or.inr ⟨by simp, by rw [push, if_neg h]⟩)
  | raw v run :: ps =>
    by_cases h : w.zeros < 2 ∧ run.length < 255
    · exact Or.inr (Or.inl ⟨v, run, ps, rfl, h.1, h.2, by rw [push, if_pos h]⟩)
    · refine Or.inr (Or.inr ⟨?_, by rw [push, if_neg h]⟩)
      rintro v' run' qs ⟨⟩ hw
      omega

/-- Cutting loses no word. -/
theorem words_push (ps : List Piece) (w : Word) :
    (push ps w).reverse.flatMap words = ps.reverse.flatMap words ++ [w] := by
  rcases push_cases ps w with ⟨more, qs, rfl, hw, hpush⟩ | ⟨v, run, qs, rfl, _, _, hpush⟩ |
    ⟨_, hpush⟩
  · rw [hpush, Word.eq_zero_of_zeros hw]
    simp [words, List.flatMap_append, List.replicate_succ']
  · rw [hpush]
    simp [words, List.flatMap_append]
  · rw [hpush]
    simp [words_begin, List.flatMap_append]

/-- **The pieces of a stream stand for the words that were packed.** -/
theorem words_cut (ws : List Word) : (cut ws).reverse.flatMap words = ws := by
  induction ws using List.reverseRecOn with
  | nil => rfl
  | append_singleton ws w ih => rw [cut_append_singleton, words_push, ih]

/-- Pieces have the bytes of their words, and their total excess. -/
theorem length_flatMap_piece (ps : List Piece) :
    ((ps.flatMap Piece.bytes).length : ℤ) = 8 * (ps.flatMap words).length + totalExcess ps := by
  induction ps with
  | nil => rfl
  | cons p ps ih =>
    have hp := p.length_bytes
    simp only [List.flatMap_cons, List.length_append, totalExcess, List.map_cons, List.sum_cons]
      at ih ⊢
    push_cast
    omega

/-- **The length of a packed stream**: that of its words, and the excess of its pieces. -/
theorem length_pack (ws : List Word) :
    ((pack ws).length : ℤ) = 8 * ws.length + totalExcess (cut ws) := by
  have hperm : totalExcess (cut ws).reverse = totalExcess (cut ws) := by
    rw [totalExcess, List.map_reverse, List.sum_reverse, totalExcess]
  rw [pack, length_flatMap_piece, words_cut, hperm]

/-- Pieces behind one that cannot grow are as they would be alone. -/
theorem foldl_push_tagged (v : Word) (ps : List Piece) (ws : List Word) :
    ws.foldl push (tagged v :: ps) = cut ws ++ tagged v :: ps := by
  induction ws using List.reverseRecOn with
  | nil => rfl
  | append_singleton ws w ih =>
    rw [List.foldl_append, List.foldl_cons, List.foldl_nil, ih, cut_append_singleton]
    match cut ws with
    | [] => rfl
    | tagged u :: qs => rfl
    | zeros more :: qs =>
      simp only [List.cons_append, push]
      split <;> rfl
    | raw u run :: qs =>
      simp only [List.cons_append, push]
      split <;> rfl

/-- **A tagged word separates the stream before it from the stream after it.** -/
theorem pack_append_tagged (us ws : List Word) (hw : cut (us ++ [w]) = tagged w :: ps) :
    pack (us ++ w :: ws) = pack (us ++ [w]) ++ pack ws := by
  have hsplit : us ++ w :: ws = (us ++ [w]) ++ ws := by simp
  have hcut : cut (us ++ w :: ws) = ws.foldl push (cut (us ++ [w])) := by
    rw [hsplit, cut, List.foldl_append]
    rfl
  rw [pack, hcut, hw, foldl_push_tagged, List.reverse_append, List.flatMap_append, ← hw]
  rfl

end Cutting

/-! ### How long a packed stream can get -/

section Bounds

variable {w : Word} {ws : List Word} {ps : List Piece}

/-- The bound that the packer keeps: a word without zero bytes costs two bytes,
and the next one that can cost again comes after a gain of one, or after a full run. -/
def Bounded (n : ℕ) : List Piece → Prop
  | raw v run :: ps => 2 * totalExcess (raw v run :: ps) + run.length ≤ n + 3
  | ps => 2 * totalExcess ps ≤ n

/-- A new piece behind pieces with a small excess keeps the bound. -/
theorem bounded_begin {n : ℕ} (h : 2 * totalExcess ps ≤ n) : Bounded (n + 1) (begin w :: ps) := by
  unfold begin
  split
  · simp only [Bounded, totalExcess, List.map_cons, List.sum_cons, excess] at h ⊢
    push_cast
    omega
  · split
    · simp only [Bounded, totalExcess, List.map_cons, List.sum_cons, excess, List.length_nil] at h ⊢
      push_cast
      omega
    · rename_i h0
      simp only [Bounded, totalExcess, List.map_cons, List.sum_cons, excess] at h ⊢
      push_cast
      omega

/-- Every word keeps the bound. -/
theorem Bounded.push {n : ℕ} (h : Bounded n ps) (w : Word) : Bounded (n + 1) (push ps w) := by
  rcases push_cases ps w with ⟨more, qs, rfl, hw, hpush⟩ | ⟨v, run, qs, rfl, _, _, hpush⟩ |
    ⟨hfull, hpush⟩
  · rw [hpush]
    simp only [Bounded, totalExcess, List.map_cons, List.sum_cons, excess] at h ⊢
    push_cast
    omega
  · rw [hpush]
    simp only [Bounded, totalExcess, List.map_cons, List.sum_cons, excess, List.length_append,
      List.length_singleton] at h ⊢
    push_cast
    omega
  · rw [hpush]
    match ps, h with
    | [], h => exact bounded_begin h
    | zeros more :: ps, h => exact bounded_begin h
    | tagged v :: ps, h => exact bounded_begin h
    | raw v run :: ps, h =>
      have hrun := hfull v run ps rfl
      by_cases hw : w.zeros < 2
      · have hlong := hrun hw
        apply bounded_begin
        simp only [Bounded] at h
        omega
      · unfold begin
        simp only [Bounded] at h
        split
        · simp only [Bounded, totalExcess, List.map_cons, List.sum_cons, excess] at h ⊢
          push_cast
          omega
        · rw [if_neg (by omega)]
          simp only [Bounded, totalExcess, List.map_cons, List.sum_cons, excess] at h ⊢
          push_cast
          omega

/-- The pieces of a list of words keep the bound. -/
theorem bounded_cut (ws : List Word) : Bounded ws.length (cut ws) := by
  induction ws using List.reverseRecOn with
  | nil => exact le_refl _
  | append_singleton ws w ih =>
    rw [cut_append_singleton, List.length_append]
    exact ih.push w

/-- **The most that packing can add**: a byte and a half for the first word, and
half a byte for each word. -/
theorem totalExcess_cut_le (ws : List Word) : totalExcess (cut ws) ≤ (ws.length + 3) / 2 := by
  have h := bounded_cut ws
  generalize cut ws = ps at h
  match ps, h with
  | [], h => simp [totalExcess]; omega
  | zeros more :: ps, h => simp only [Bounded] at h; omega
  | tagged v :: ps, h => simp only [Bounded] at h; omega
  | raw v run :: ps, h => simp only [Bounded] at h; omega

/-- A word with a zero byte, but not the zero word, costs one less than its zero bytes. -/
theorem totalExcess_push (ps : List Piece) (h0 : w.zeros ≠ 0) (h8 : w.zeros ≠ 8) :
    totalExcess (push ps w) = totalExcess ps + (1 - w.zeros) := by
  rcases push_cases ps w with ⟨more, qs, rfl, hw, hpush⟩ | ⟨v, run, qs, rfl, hw, _, hpush⟩ |
    ⟨_, hpush⟩
  · exact absurd hw h8
  · rw [hpush]
    simp only [totalExcess, List.map_cons, List.sum_cons, excess]
    omega
  · rw [hpush, begin, if_neg h8, if_neg h0]
    simp only [totalExcess, List.map_cons, List.sum_cons, excess]
    omega

/-- A zero word is a gain of at least six bytes. -/
theorem totalExcess_push_zero (ps : List Piece) (h : w.zeros = 8) :
    totalExcess (push ps w) ≤ totalExcess ps - 6 := by
  rcases push_cases ps w with ⟨more, qs, rfl, _, hpush⟩ | ⟨v, run, qs, rfl, hw, _, hpush⟩ |
    ⟨_, hpush⟩
  · rw [hpush]
    simp only [totalExcess, List.map_cons, List.sum_cons, excess]
    push_cast
    omega
  · omega
  · rw [hpush, begin, if_pos h]
    simp only [totalExcess, List.map_cons, List.sum_cons, excess]
    push_cast
    omega

end Bounds

/-! ### Byte strings -/

/-- How much longer the packed words of a byte string are than the byte string. -/
def growth (b : Bytes) : ℤ := (pack (wordsOf b)).length - b.length

section Growth

variable {b : Bytes}

/-- The growth is the excess of the pieces and the bytes that fill up the last word. -/
theorem growth_eq (b : Bytes) :
    growth b = totalExcess (cut (wordsOf b)) + (8 * (wordsOf b).length - b.length) := by
  rw [growth, length_pack]
  omega

/-- Whole words grow by at most a byte and a half, and half a byte for each word. -/
theorem growth_le_of_dvd (h : b.length % 8 = 0) : growth b ≤ (b.length / 8 + 3) / 2 := by
  have hbound := totalExcess_cut_le (wordsOf b)
  rw [growth_eq]
  rw [length_wordsOf] at hbound ⊢
  omega

/-- The growth of any byte string: the last word can cost one byte more. -/
theorem growth_le (b : Bytes) : growth b ≤ (b.length / 8 + 3) / 2 + 1 := by
  by_cases hdvd : b.length % 8 = 0
  · have h := growth_le_of_dvd hdvd
    omega
  · obtain ⟨ws, rest, hb, hws, hrest⟩ := exists_words b
    have hne : rest ≠ [] := by
      rintro rfl
      simp at hrest
      omega
    have hlt : rest.length < 8 := by omega
    have hwords : wordsOf b = ws ++ [Word.ofBytes rest] := by
      rw [hb, wordsOf_flatMap_append ws hne hlt]
    have hbound := totalExcess_cut_le ws
    have hzeros := Word.zeros_ofBytes hlt.le
    have hcount : rest.count 0 ≤ rest.length := List.count_le_length
    have hlen := length_wordsOf b
    have hgrow := growth_eq b
    rw [hwords, cut_append_singleton, ← hwords, hlen] at hgrow
    by_cases h8 : (Word.ofBytes rest).zeros = 8
    · have hpush := totalExcess_push_zero (cut ws) h8
      omega
    · have hpush := totalExcess_push (cut ws) (by omega) h8
      omega

end Growth

/-! ### The bound is attained -/

namespace Word

/-- A word with `n` bytes that are not zero, in front. -/
def ones (n : ℕ) : Word := ofBytes (List.replicate n 1)

/-- Eight less `n` of its bytes are zero. -/
theorem zeros_ones {n : ℕ} (h : n ≤ 8) : (ones n).zeros = 8 - n := by
  have hlen : (List.replicate n (1 : UInt8)).length ≤ 8 := by simpa using h
  rw [ones, zeros_ofBytes hlen, List.length_replicate, List.count_replicate]
  simp

end Word

/-- The words that cost most: a word without zero bytes, and then over and over a
word with two of them and a word without. -/
def worst : ℕ → List Word
  | 0 => []
  | 1 => [Word.ones 8]
  | 2 => [Word.ones 7, Word.ones 8]
  | n + 3 => worst (n + 1) ++ [Word.ones 6, Word.ones 8]

/-- There are as many of these words as are asked for. -/
theorem length_worst (n : ℕ) : (worst n).length = n := by
  induction n using worst.induct with
  | case1 => rfl
  | case2 => rfl
  | case3 => rfl
  | case4 n ih => simp [worst, ih]

/-- The excess of these words is the bound. -/
theorem totalExcess_worst {n : ℕ} (h : n ≠ 0) : totalExcess (cut (worst n)) = (n + 3) / 2 := by
  induction n using worst.induct with
  | case1 => exact absurd rfl h
  | case2 => decide
  | case3 => decide
  | case4 n ih =>
    have hsix := Word.zeros_ones (n := 6) (by omega)
    have height := Word.zeros_ones (n := 8) (by omega)
    have hcut : cut (worst (n + 3)) =
        push (push (cut (worst (n + 1))) (Word.ones 6)) (Word.ones 8) := by
      rw [worst, cut, List.foldl_append]
      rfl
    have hfirst := totalExcess_push (w := Word.ones 6) (cut (worst (n + 1))) (by omega)
      (by omega)
    rcases push_cases (cut (worst (n + 1))) (Word.ones 6) with ⟨_, _, _, hw, _⟩ |
      ⟨_, _, _, _, hw, _⟩ | ⟨_, hpush⟩
    · omega
    · omega
    · have htagged : push (cut (worst (n + 1))) (Word.ones 6) =
          tagged (Word.ones 6) :: cut (worst (n + 1)) := by
        rw [hpush, begin, if_neg (by omega), if_neg (by omega)]
      have hlast : push (tagged (Word.ones 6) :: cut (worst (n + 1))) (Word.ones 8) =
          raw (Word.ones 8) [] :: tagged (Word.ones 6) :: cut (worst (n + 1)) := by
        rw [push, begin, if_neg (by omega), if_pos (by omega)]
        · simp
        · simp
      have hih := ih (by omega)
      rw [htagged] at hfirst
      rw [hcut, htagged, hlast, totalExcess, List.map_cons, List.sum_cons, ← totalExcess, hfirst,
        hih, hsix]
      simp only [excess]
      push_cast
      omega

/-- The byte string of length `n` that grows most. -/
def worstBytes (n : ℕ) : Bytes := (worst (n / 8)).flatMap Word.bytes ++ List.replicate (n % 8) 1

/-- There are as many of these bytes as are asked for. -/
theorem length_worstBytes (n : ℕ) : (worstBytes n).length = n := by
  rw [worstBytes, List.length_append, length_flatMap_bytes, length_worst, List.length_replicate]
  omega

/-- **The bound on the growth is attained.** -/
theorem growth_worstBytes {n : ℕ} (h : 8 ≤ n) :
    growth (worstBytes n) = (n / 8 + 3) / 2 + if n % 8 = 0 then 0 else 1 := by
  have hlen := length_worstBytes n
  have hworst := totalExcess_worst (n := n / 8) (by omega)
  have hgrow := growth_eq (worstBytes n)
  rw [length_wordsOf, hlen] at hgrow
  by_cases hdvd : n % 8 = 0
  · have hwords : wordsOf (worstBytes n) = worst (n / 8) := by
      rw [worstBytes, hdvd, List.replicate_zero, List.append_nil, wordsOf_flatMap]
    rw [hgrow, hwords, hworst, if_pos hdvd]
    omega
  · have hne : List.replicate (n % 8) (1 : UInt8) ≠ [] := by simpa using hdvd
    have hlt : (List.replicate (n % 8) (1 : UInt8)).length < 8 := by
      rw [List.length_replicate]
      omega
    have hwords : wordsOf (worstBytes n) = worst (n / 8) ++ [Word.ones (n % 8)] := by
      rw [worstBytes, wordsOf_flatMap_append _ hne hlt, Word.ones]
    have hzeros := Word.zeros_ones (n := n % 8) (by omega)
    have hpush := totalExcess_push (w := Word.ones (n % 8)) (cut (worst (n / 8))) (by omega)
      (by omega)
    rw [hzeros, hworst, Int.natCast_ediv] at hpush
    rw [hgrow, hwords, cut_append_singleton, hpush, if_neg hdvd]
    omega

end Pmemcpy.Lib
