import Mathlib.Tactic.Ring
import Mathlib.Data.List.TakeWhile

/-!
# Bytes in flat memory

Slices and overwrites of a flat memory, little-endian numbers, and the C string
functions `c_str` and `strncmp`. Nothing here knows what the bytes stand for.
-/

namespace Pmemcpy.Lib

/-- A run of bytes: the contents of a buffer, a file, a string or a block of memory. -/
abbrev Bytes := List UInt8

section Memory

variable {α : Type*} {m w : List α} {off o n : ℕ}

/-- The `n` cells from `off` on. -/
def slice (m : List α) (off n : ℕ) : List α := (m.drop off).take n

/-- Overwrite the cells from `off` on with `w`. -/
def splice (m : List α) (off : ℕ) (w : List α) : List α :=
  m.take off ++ w ++ m.drop (off + w.length)

/-- A slice inside the memory has the size asked for. -/
theorem length_slice (h : off + n ≤ m.length) : (slice m off n).length = n := by
  simp only [slice, List.length_take, List.length_drop]
  omega

/-- An overwrite that runs past the end extends the memory. -/
theorem length_splice_max (h : off ≤ m.length) :
    (splice m off w).length = max m.length (off + w.length) := by
  simp only [splice, List.length_append, List.length_take, List.length_drop]
  omega

/-- An overwrite inside the memory keeps its size. -/
theorem length_splice (h : off + w.length ≤ m.length) :
    (splice m off w).length = m.length := by
  simp only [splice, List.length_append, List.length_take, List.length_drop]
  omega

/-- Two overwrites behind each other are one. -/
theorem splice_splice_end {v : List α} (h : off + v.length ≤ m.length) :
    splice (splice m off v) (off + v.length) w = splice m off (v ++ w) := by
  have htake : (m.take off ++ v).length = off + v.length := by simp; omega
  have hfront : (splice m off v).take (off + v.length) = m.take off ++ v :=
    List.take_left' htake
  have hback : (splice m off v).drop (off + v.length) = m.drop (off + v.length) :=
    List.drop_left' htake
  rw [splice, hfront, ← List.drop_drop, hback, List.drop_drop, splice, List.length_append]
  simp only [List.append_assoc, Nat.add_assoc]

/-- Overwriting one cell and then those behind it overwrites them all. -/
theorem splice_cons (m : List α) (off : ℕ) (x : α) (w : List α) :
    splice (splice m off [x]) (off + 1) w = splice m off (x :: w) := by
  by_cases h : off + 1 ≤ m.length
  · exact splice_splice_end h
  · have hcons : splice m off [x] = m.take off ++ [x] := by
      rw [splice, List.length_singleton, List.drop_eq_nil_of_le (by omega), List.append_nil]
    have hlength : (m.take off ++ [x]).length ≤ off + 1 := by
      simp
    rw [hcons, splice, splice, List.take_of_length_le hlength,
      List.drop_eq_nil_of_le (by omega), List.drop_eq_nil_of_le (by simp; omega)]
    simp

/-- Overwriting nothing changes nothing. -/
theorem splice_nil (m : List α) (off : ℕ) : splice m off [] = m := by
  simp [splice]

/-- Overwriting a range with what it holds changes nothing. -/
theorem splice_slice (h : off + n ≤ m.length) : splice m off (slice m off n) = m := by
  rw [splice, length_slice h, slice, List.append_assoc, ← List.drop_drop, List.take_append_drop,
    List.take_append_drop]

/-- An overwritten range reads back as what was written. -/
theorem slice_splice_self (h : off ≤ m.length) : slice (splice m off w) off w.length = w := by
  have htake : (m.take off).length = off := by simp [h]
  rw [slice, splice, List.append_assoc, List.drop_left' htake, List.take_left]

/-- An overwrite does not change the cells below it. -/
theorem slice_splice_of_le (hoff : off ≤ m.length) (h : o + n ≤ off) :
    slice (splice m off w) o n = slice m o n := by
  have htake : (m.take off).length = off := by simp [hoff]
  rw [slice, splice, List.append_assoc, List.drop_append_of_le_length (by omega),
    List.take_append_of_le_length (by simp; omega), List.drop_take, List.take_take]
  rw [slice, Nat.min_eq_left (by omega)]

/-- An overwrite does not change the cells above it. -/
theorem slice_splice_of_ge (hoff : off ≤ m.length) (h : off + w.length ≤ o) :
    slice (splice m off w) o n = slice m o n := by
  have hlen : (m.take off ++ w).length = off + w.length := by simp [hoff]
  rw [slice, splice, List.drop_append, hlen, List.drop_eq_nil_of_le (by omega),
    List.drop_drop, List.nil_append, slice]
  congr 2
  omega

/-- A slice of a slice is a slice of the memory. -/
theorem slice_slice {k : ℕ} (h : o + n ≤ k) : slice (slice m off k) o n = slice m (off + o) n := by
  rw [slice, slice, slice, List.drop_take, List.take_take, List.drop_drop,
    Nat.min_eq_left (by omega)]

/-- The end of a slice is a slice of the memory. -/
theorem drop_slice {k : ℕ} : (slice m off k).drop o = slice m (off + o) (k - o) := by
  rw [slice, slice, List.drop_take, List.drop_drop]

/-- A slice that starts inside an overwrite reads its end, then the cells behind it. -/
theorem slice_splice_from (hoff : off ≤ m.length) (ho : off ≤ o) (h : o ≤ off + w.length) :
    slice (splice m off w) o n =
      (w.drop (o - off)).take n ++ slice m (off + w.length) (n - (off + w.length - o)) := by
  have htake : (m.take off).length = off := by simp [hoff]
  have hrest : (w.drop (o - off)).length = off + w.length - o := by simp; omega
  rw [slice, splice, List.append_assoc, List.drop_append, htake,
    List.drop_eq_nil_of_le (by omega), List.nil_append, List.drop_append_of_le_length (by omega),
    List.take_append, hrest, slice]

/-- A slice that ends inside an overwrite reads the cells before it, then its start. -/
theorem slice_splice_into (hoff : off ≤ m.length) (ho : o ≤ off) (h : off ≤ o + n)
    (hend : o + n ≤ off + w.length) :
    slice (splice m off w) o n = slice m o (off - o) ++ w.take (o + n - off) := by
  have htake : (m.take off).length = off := by simp [hoff]
  have hfront : ((m.take off).drop o).length = off - o := by simp [hoff]
  have hsub : n - (off - o) = o + n - off := by omega
  rw [slice, splice, List.append_assoc, List.drop_append_of_le_length (by omega), List.take_append,
    List.take_of_length_le (by omega), hfront, hsub, List.take_append_of_le_length (by omega),
    List.drop_take, slice]

/-- A slice that ends in the first part of a memory is one of this part. -/
theorem slice_append_left (h : off + n ≤ m.length) : slice (m ++ w) off n = slice m off n := by
  rw [slice, slice, List.drop_append_of_le_length (by omega),
    List.take_append_of_le_length (by simp; omega)]

/-- A slice that starts in the second part of a memory is one of this part. -/
theorem slice_append_right (m w : List α) (off n : ℕ) :
    slice (m ++ w) (m.length + off) n = slice w off n := by
  rw [slice, slice, ← List.drop_drop, List.drop_left]

/-- Items of one size fill so many cells. -/
theorem length_flatMap_of {β : Type*} {f : β → List α} (hf : ∀ x, (f x).length = n)
    (xs : List β) : (xs.flatMap f).length = n * xs.length := by
  induction xs with
  | nil => rfl
  | cons x xs ih =>
    rw [List.flatMap_cons, List.length_append, ih, hf, List.length_cons, Nat.mul_succ]
    omega

/-- Items of one size are slices of the memory that they fill. -/
theorem slice_flatMap {β : Type*} {f : β → List α} {xs : List β} {x : β} {j : ℕ}
    (hf : ∀ x, (f x).length = n) (hx : xs[j]? = some x) : slice (xs.flatMap f) (n * j) n = f x := by
  induction xs generalizing j with
  | nil => cases hx
  | cons y xs ih =>
    cases j with
    | zero =>
      obtain rfl : y = x := Option.some.inj hx
      have hall : slice (f y ++ xs.flatMap f) 0 n = slice (f y) 0 n := slice_append_left (by
        rw [hf]
        omega)
      rw [List.flatMap_cons, Nat.mul_zero, hall, slice, List.drop_zero,
        List.take_of_length_le (hf y).le]
    | succ j =>
      have hoff : n * (j + 1) = (f y).length + n * j := by
        rw [hf, Nat.mul_succ]
        omega
      rw [List.flatMap_cons, hoff, slice_append_right]
      exact ih hx

/-- A list begins a concatenation when its two parts begin the two parts of it. -/
theorem prefix_append_iff {l : List α} :
    l <+: m ++ w ↔
      l.take m.length = m.take l.length ∧ l.drop m.length = w.take (l.length - m.length) := by
  rw [List.prefix_iff_eq_take, List.take_append]
  constructor
  · intro h
    have hlen : (l.take m.length).length = (m.take l.length).length := by simp; omega
    exact List.append_inj ((List.take_append_drop m.length l).trans h) hlen
  · rintro ⟨hfront, hback⟩
    rw [← hfront, ← hback, List.take_append_drop]

/-- Overwriting the whole of a memory leaves exactly what was written. -/
theorem splice_zero_of_length (h : w.length = m.length) : splice m 0 w = w := by
  simp [splice, h]

/-- An overwrite from the start leaves what lies behind it. -/
theorem splice_zero (m w : List α) : splice m 0 w = w ++ m.drop w.length := by
  simp [splice]

/-- An overwrite from the start leaves exactly what was written if and only if the old contents were
not longer. -/
theorem splice_zero_eq_iff : splice m 0 w = w ↔ m.length ≤ w.length := by
  rw [splice_zero, List.append_right_eq_self, List.drop_eq_nil_iff]

end Memory

section Numbers

/-- The `width` little-endian bytes of a number. -/
def leBytes : ℕ → ℕ → Bytes
  | 0, _ => []
  | width + 1, v => UInt8.ofNat v :: leBytes width (v / 256)

/-- The number that little-endian bytes stand for. -/
def ofLe : Bytes → ℕ
  | [] => 0
  | b :: bs => b.toNat + 256 * ofLe bs

/-- A number has exactly as many bytes as the field it is written to. -/
@[simp] theorem length_leBytes (width v : ℕ) : (leBytes width v).length = width := by
  induction width generalizing v with
  | zero => rfl
  | succ width ih => simp [leBytes, ih]

/-- Reading a number back gives it modulo the size of its field. -/
theorem ofLe_leBytes (width v : ℕ) : ofLe (leBytes width v) = v % 256 ^ width := by
  induction width generalizing v with
  | zero => simp [leBytes, ofLe, Nat.mod_one]
  | succ width ih =>
    have hbyte : (UInt8.ofNat v).toNat = v % 256 := UInt8.toNat_ofNat'
    rw [leBytes, ofLe, ih, hbyte, pow_succ, Nat.mul_comm (256 ^ width), Nat.mod_mul]

/-- A number below the size of its field is read back as it is. -/
theorem ofLe_leBytes_of_lt {width v : ℕ} (h : v < 256 ^ width) : ofLe (leBytes width v) = v := by
  rw [ofLe_leBytes, Nat.mod_eq_of_lt h]

/-- Bytes are what the number they stand for is written as. -/
theorem leBytes_ofLe (b : Bytes) : leBytes b.length (ofLe b) = b := by
  induction b with
  | nil => rfl
  | cons x b ih =>
    have hx := x.toNat_lt
    have hhead : UInt8.ofNat (x.toNat + 256 * ofLe b) = x := by
      rw [← UInt8.toNat_inj, UInt8.toNat_ofNat']
      omega
    have htail : (x.toNat + 256 * ofLe b) / 256 = ofLe b := by omega
    rw [List.length_cons, ofLe, leBytes, hhead, htail, ih]

end Numbers

section CStrings

variable {a b s : Bytes}

/-- What a C function sees of a string: the bytes before its first NUL. -/
def cStr (s : Bytes) : Bytes := s.takeWhile (· ≠ 0)

/-- A string without NUL bytes. -/
def NulFree (s : Bytes) : Prop := ∀ b ∈ s, b ≠ 0

instance (s : Bytes) : Decidable (NulFree s) := List.decidableBAll (· ≠ 0) s

/-- C's `strncmp`: the difference of the first two bytes that differ among the
first `n`, or zero; a common NUL ends both strings. -/
def strncmp : Bytes → Bytes → ℕ → ℤ
  | x :: xs, y :: ys, n + 1 =>
      if x = y then if x = 0 then 0 else strncmp xs ys n else (x.toNat : ℤ) - y.toNat
  | _, _, _ => 0

/-- A C function sees the whole of a string exactly when it has no NUL. -/
theorem cStr_eq_self_iff : cStr s = s ↔ NulFree s := by
  simp [cStr, List.takeWhile_eq_self_iff, NulFree]

/-- A string that looks to a C function like a NUL-free one of the same length is that string. -/
theorem eq_of_cStr_eq (ha : NulFree a) (hlen : a.length = b.length) (h : cStr a = cStr b) :
    a = b := by
  rw [cStr_eq_self_iff.mpr ha] at h
  have hle : b.length ≤ (b.takeWhile (· ≠ 0)).length := by
    rw [← hlen, h, cStr]
  have heq := (List.takeWhile_prefix (· ≠ (0 : UInt8)) (l := b)).eq_of_length_le hle
  rw [h, cStr, heq]

/-- `strncmp` over the length of a string is zero exactly when the two strings
agree up to their first NUL. -/
theorem strncmp_eq_zero_iff (h : s.length ≤ a.length) :
    strncmp a (s ++ [0]) s.length = 0 ↔ cStr (a.take s.length) = cStr s := by
  induction s generalizing a with
  | nil => simp [strncmp, cStr]
  | cons y ys ih =>
    cases a with
    | nil => simp at h
    | cons x xs =>
      have hlen : ys.length ≤ xs.length := by simpa using h
      simp only [List.cons_append, List.length_cons, strncmp, List.take_succ_cons]
      by_cases hxy : x = y
      · subst hxy
        by_cases hx : x = 0
        · simp [hx, cStr]
        · simpa [hx, cStr] using ih hlen
      · have hne : (x.toNat : ℤ) - y.toNat ≠ 0 := by
          intro hzero
          apply hxy
          apply UInt8.toNat_inj.mp
          omega
        simp only [hxy, if_false, hne, false_iff]
        intro hc
        by_cases hx : x = 0
        · subst hx
          have hy : y ≠ 0 := fun h => hxy h.symm
          simp [cStr, hy] at hc
        · by_cases hy : y = 0
          · simp [cStr, hx, hy] at hc
          · simp [cStr, hx, hy] at hc
            exact hxy hc.1

end CStrings

end Pmemcpy.Lib
