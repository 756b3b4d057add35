import Pmemcpy.Errors
import Pmemcpy.Lib.Bytes
import Pmemcpy.Lib.Template

/-!
# The texts of error messages

`Formatter::format` writes a message into a buffer of 8192 bytes without a look at its
end. It goes through the format once, with one byte of lookahead, and copies the text
of the next argument wherever a placeholder stands. The message is what it should be
exactly if it fits.
-/

namespace Pmemcpy

open Lib

/-- The bytes of a text of the source. -/
def ascii (text : String) : Bytes := text.toList.map fun c => UInt8.ofNat c.toNat

/-- `std::to_string` of a number without a sign. -/
def decimal (num : ℕ) : Bytes := (Nat.toDigits 10 num).map fun c => UInt8.ofNat c.toNat

/-- `std::to_string` of a number with a sign. -/
def signedDecimal (num : ℤ) : Bytes :=
  if num < 0 then ascii "-" ++ decimal num.natAbs else decimal num.natAbs

/-- A number of units; `R` are the numbers with a floating point. -/
structure SizeType (R : Type) where
  num : R
  unit : ℕ
  deriving DecidableEq, Repr

namespace SizeType

/-- `SizeType::BYTES`. -/
def bytes : ℕ := 1

/-- `SizeType::KB`. -/
def kb : ℕ := 2 ^ 10

/-- `SizeType::MB`. -/
def mb : ℕ := 2 ^ 20

/-- `SizeType::GB`. -/
def gb : ℕ := 2 ^ 30

/-- `SizeType::TB`. -/
def tb : ℕ := 2 ^ 40

/-- `unit_to_str`. -/
def unitToStr (unit : ℕ) : Bytes :=
  if unit = bytes then ascii "BYTES"
  else if unit = kb then ascii "KB"
  else if unit = mb then ascii "MB"
  else if unit = gb then ascii "GB"
  else if unit = tb then ascii "TB"
  else []

/-- What `serialize` writes; `toStr` is `std::to_string` of the numbers. -/
def text {R : Type} (toStr : R → Bytes) (size : SizeType R) : Bytes :=
  toStr size.num ++ unitToStr size.unit

end SizeType

/-- An argument of a message, by its `type_`. `O` are the objects that can be serialized. -/
inductive Arg (R O : Type) where
  | d32 (num : Int32)
  | d64 (num : Int64)
  | d128 (num : Int64)
  | u32 (num : UInt32)
  | u64 (num : UInt64)
  | u128 (num : UInt64)
  | f32 (num : R)
  | f64 (num : R)
  | f96 (num : R)
  | str (text : Bytes)
  | obj (object : O)
  | objShared (object : O)

section Format

variable {R O : Type} (toStr : R → Bytes) (objText : O → Bytes)

/-- The text that an argument is written as. -/
def Arg.text : Arg R O → Bytes
  | d32 num => signedDecimal num.toInt
  | d64 num => signedDecimal num.toInt
  | d128 num => signedDecimal num.toInt
  | u32 num => decimal num.toNat
  | u64 num => decimal num.toNat
  | u128 num => decimal num.toNat
  | f32 num => toStr num
  | f64 num => toStr num
  | f96 num => toStr num
  | str text => text
  | obj object => objText object
  | objShared object => objText object

/-- `memcpy` into a buffer; a write past its end is undefined. -/
def memcpyAt (buffer : Bytes) (off : ℕ) (text : Bytes) : Except Failure Bytes :=
  if off + text.length ≤ buffer.length then .ok (splice buffer off text) else .error .undefined

/-- `serialize`: the text is copied, and its length returned. -/
def Arg.serialize (arg : Arg R O) (buffer : Bytes) (off : ℕ) : Except Failure (Bytes × ℕ) :=
  match memcpyAt buffer off (arg.text toStr objText) with
  | .error e => .error e
  | .ok buffer => .ok (buffer, (arg.text toStr objText).length)

/-- `++i` of an `int`. -/
def incr (i : ℕ) : Except Failure ℕ := if i + 1 < 2 ^ 31 then .ok (i + 1) else .error .undefined

namespace Formatter

/-- The variables of the loop. -/
structure State where
  buffer : Bytes
  off : ℕ
  arg : ℕ
  i : ℕ
  deriving DecidableEq, Repr

/-- The bytes of a placeholder. -/
def openBrace : UInt8 := 123

/-- The byte of a closing brace. -/
def closeBrace : UInt8 := 125

variable (fmt : Bytes) (args : List (Arg R O))

/-- The body of the loop. Behind the last byte of the format there is a zero. -/
def body (s : State) : Except Failure State :=
  if fmt.getD s.i 0 = openBrace ∧ fmt.getD (s.i + 1) 0 = closeBrace then
    match args[s.arg]? with
    -- the vector of the arguments does not check its bounds
    | none => .error .undefined
    | some arg => do
      let (buffer, size) ← arg.serialize toStr objText s.buffer s.off
      let i ← incr s.i
      return ⟨buffer, s.off + size, s.arg + 1, i⟩
  else do
    let buffer ← memcpyAt s.buffer s.off [fmt.getD s.i 0]
    return ⟨buffer, s.off + 1, s.arg, s.i⟩

/-- One iteration: the body, then the `++i` of the loop. -/
def iterate (s : State) : Except Failure State := do
  let s ← body toStr objText fmt args s
  let i ← incr s.i
  return { s with i := i }

/-- The loop, for at most `fuel` iterations. -/
def loop : ℕ → State → Except Failure State
  | 0, s => .ok s
  | fuel + 1, s =>
    if s.i < fmt.length then iterate toStr objText fmt args s >>= loop fuel else .ok s

/-- The variables before the loop: a buffer from `calloc`. -/
def State.start : State := ⟨List.replicate 8192 0, 0, 0, 0⟩

/-- `format`: there are no more iterations than bytes in the format. -/
def format : Except Failure Bytes := do
  let s ← loop toStr objText fmt args fmt.length State.start
  return s.buffer.take s.off

end Formatter

/-- The message of an error that is thrown. -/
def Error.format (error : Error) (args : List (Arg R O)) : Except Failure Bytes :=
  Formatter.format toStr objText (ascii error.fmt) args

/-- The byte that the loop tests at a position is the first one of what is left of the format. -/
theorem getD_of_drop {fmt rest : Bytes} {i : ℕ} {x : UInt8} (h : fmt.drop i = x :: rest) :
    i < fmt.length ∧ fmt.getD i 0 = x ∧ fmt.drop (i + 1) = rest := by
  have hlt : i < fmt.length := by
    by_contra hge
    rw [List.drop_eq_nil_of_le (by omega)] at h
    cases h
  rw [List.drop_eq_getElem_cons hlt] at h
  obtain ⟨hx, hrest⟩ := List.cons.inj h
  exact ⟨hlt, by simp [hlt, hx], hrest⟩

namespace Formatter

/-! ### Writing one text -/

/-- Writing a text for `used` arguments, with the next position of the loop. -/
def State.written (s : State) (text : Bytes) (used next : ℕ) : Except Failure State :=
  if s.off + text.length ≤ s.buffer.length ∧ next < 2 ^ 31 then
    .ok ⟨splice s.buffer s.off text, s.off + text.length, s.arg + used, next⟩
  else .error .undefined

section Written

variable {s t : State} {text out : Bytes} {used more next last : ℕ}

/-- What was written has fitted, and the next position is an `int`. -/
theorem State.written_ok (h : s.written text used next = .ok t) :
    (s.off + text.length ≤ s.buffer.length ∧ next < 2 ^ 31) ∧
      t = ⟨splice s.buffer s.off text, s.off + text.length, s.arg + used, next⟩ := by
  unfold State.written at h
  split at h
  · next hroom =>
    cases h
    exact ⟨hroom, rfl⟩
  · cases h

/-- Texts that are written one after another are written as one text. -/
theorem State.written_bind {f : State → Except Failure State} (hnext : next ≤ last)
    (hf : ∀ t, s.written text used next = .ok t → f t = t.written out more last) :
    s.written text used next >>= f = s.written (text ++ out) (used + more) last := by
  by_cases hroom : s.off + text.length ≤ s.buffer.length ∧ next < 2 ^ 31
  · have hok : s.written text used next = .ok
        ⟨splice s.buffer s.off text, s.off + text.length, s.arg + used, next⟩ := if_pos hroom
    rw [hok]
    refine (hf _ hok).trans ?_
    unfold State.written
    dsimp only
    rw [splice_splice_end hroom.1, length_splice hroom.1, List.length_append]
    simp only [Nat.add_assoc]
  · have hfails : s.written text used next = .error .undefined := if_neg hroom
    have hall : s.written (text ++ out) (used + more) last = .error .undefined := by
      apply if_neg
      rw [List.length_append]
      omega
    rw [hfails, hall]
    rfl

end Written

/-! ### The loop -/

section Loop

variable {fmt rest : Bytes} {args more : List (Arg R O)} {arg : Arg R O} {s : State} {x : UInt8}

/-- At a placeholder the text of the next argument is written. -/
theorem iterate_mark (hrest : fmt.drop s.i = openBrace :: closeBrace :: rest)
    (hargs : args.drop s.arg = arg :: more) :
    iterate toStr objText fmt args s = s.written (arg.text toStr objText) 1 (s.i + 2) := by
  obtain ⟨_, hopen, hnext⟩ := getD_of_drop hrest
  obtain ⟨_, hclose, _⟩ := getD_of_drop hnext
  have harg : args[s.arg]? = some arg := by
    rw [← List.head?_drop, hargs, List.head?_cons]
  rw [iterate, body, if_pos ⟨hopen, hclose⟩, harg]
  unfold Arg.serialize memcpyAt State.written
  dsimp only
  by_cases hroom : s.off + (arg.text toStr objText).length ≤ s.buffer.length
  · rw [if_pos hroom]
    by_cases hint : s.i + 2 < 2 ^ 31
    · have hfirst : incr s.i = .ok (s.i + 1) := if_pos (by omega)
      have hsecond : incr (s.i + 1) = .ok (s.i + 2) := if_pos hint
      rw [hfirst, if_pos ⟨hroom, hint⟩]
      show (incr (s.i + 1) >>= _) = _
      rw [hsecond]
      rfl
    · rw [if_neg fun h => hint h.2]
      by_cases hlast : s.i + 1 < 2 ^ 31
      · have hfirst : incr s.i = .ok (s.i + 1) := if_pos hlast
        have hsecond : incr (s.i + 1) = .error .undefined := if_neg hint
        rw [hfirst]
        show (incr (s.i + 1) >>= _) = _
        rw [hsecond]
        rfl
      · have hfirst : incr s.i = .error .undefined := if_neg hlast
        rw [hfirst]
        rfl
  · rw [if_neg hroom, if_neg fun h => hroom h.1]
    rfl

/-- The loop writes a byte of the format that begins no pair of braces as it is. -/
theorem iterate_symbol (hrest : fmt.drop s.i = x :: rest)
    (hmark : ¬[openBrace, closeBrace] <+: x :: rest) :
    iterate toStr objText fmt args s = s.written [x] 0 (s.i + 1) := by
  obtain ⟨_, hx, hnext⟩ := getD_of_drop hrest
  have hnone : ¬(fmt.getD s.i 0 = openBrace ∧ fmt.getD (s.i + 1) 0 = closeBrace) := by
    rintro ⟨hopen, hclose⟩
    rw [hx] at hopen
    subst hopen
    apply hmark
    cases rest with
    | nil =>
      have hend : fmt.length ≤ s.i + 1 := List.drop_eq_nil_iff.mp hnext
      rw [List.getD_eq_getElem?_getD, List.getElem?_eq_none hend] at hclose
      cases hclose
    | cons y rest =>
      obtain rfl : y = closeBrace := (getD_of_drop hnext).2.1.symm.trans hclose
      exact List.prefix_append [openBrace, closeBrace] rest
  rw [iterate, body, if_neg hnone, hx]
  unfold memcpyAt State.written
  rw [List.length_singleton]
  by_cases hroom : s.off + 1 ≤ s.buffer.length
  · rw [if_pos hroom]
    show (incr s.i >>= _) = _
    by_cases hint : s.i + 1 < 2 ^ 31
    · have hfirst : incr s.i = .ok (s.i + 1) := if_pos hint
      rw [hfirst, if_pos ⟨hroom, hint⟩]
      rfl
    · have hfirst : incr s.i = .error .undefined := if_neg hint
      rw [hfirst, if_neg fun h => hint h.2]
      rfl
  · rw [if_neg hroom, if_neg fun h => hroom h.1]
    rfl

/-- The loop ends where the format ends. -/
theorem loop_of_end (fuel : ℕ) (hi : fmt.length ≤ s.i) :
    loop toStr objText fmt args fuel s = .ok s := by
  cases fuel with
  | zero => rfl
  | succ fuel => rw [loop, if_neg (by omega)]

/-- **The loop writes the rest of the format with its placeholders replaced**, or goes wrong
if that does not fit. It never ends for want of fuel. -/
theorem loop_eq {fuel : ℕ} (hfuel : fmt.length ≤ s.i + fuel) (hi : s.i ≤ fmt.length)
    (hint : s.i < 2 ^ 31) (hoff : s.off ≤ s.buffer.length)
    (henough : marks openBrace closeBrace (fmt.drop s.i) ≤ (args.drop s.arg).length) :
    loop toStr objText fmt args fuel s =
      s.written (substitute openBrace closeBrace (fmt.drop s.i)
          ((args.drop s.arg).map (Arg.text toStr objText)))
        (marks openBrace closeBrace (fmt.drop s.i)) fmt.length := by
  have hbraces : openBrace ≠ closeBrace := by decide
  generalize hrest : fmt.drop s.i = rest at henough ⊢
  induction rest using template_cases openBrace closeBrace generalizing s fuel with
  | nil =>
    have hend : s.i = fmt.length := le_antisymm hi (List.drop_eq_nil_iff.mp hrest)
    rw [loop_of_end toStr objText fuel hend.ge, substitute_nil, marks_nil, State.written,
      splice_nil, if_pos ⟨by simpa using hoff, by omega⟩, ← hend]
    rfl
  | mark rest ih =>
    obtain ⟨hlt, _, hnext⟩ := getD_of_drop hrest
    obtain ⟨hlt', _, hafter⟩ := getD_of_drop hnext
    rw [marks_mark hbraces] at henough ⊢
    obtain ⟨arg, more, hargs⟩ :=
      List.exists_cons_of_length_pos (by omega : 0 < (args.drop s.arg).length)
    obtain ⟨fuel, rfl⟩ := Nat.exists_eq_add_one.mpr (by omega : 0 < fuel)
    have hmore : args.drop (s.arg + 1) = more := by
      rw [← List.drop_drop, hargs]
      rfl
    rw [hargs, List.length_cons] at henough
    rw [loop, if_pos hlt, iterate_mark toStr objText hrest hargs, hargs, List.map_cons,
      substitute_mark, Nat.add_comm (marks openBrace closeBrace rest) 1]
    refine State.written_bind hlt' ?_
    intro t ht
    obtain ⟨⟨hroom, hint'⟩, rfl⟩ := State.written_ok ht
    rw [← hmore]
    refine ih (by dsimp only; omega) hlt' hint' ?_ hafter ?_
    · rwa [length_splice hroom]
    · rw [hmore]
      exact Nat.le_of_succ_le_succ henough
  | symbol x rest h ih =>
    obtain ⟨hlt, _, hnext⟩ := getD_of_drop hrest
    obtain ⟨fuel, rfl⟩ := Nat.exists_eq_add_one.mpr (by omega : 0 < fuel)
    rw [marks_cons h] at henough ⊢
    rw [loop, if_pos hlt, iterate_symbol toStr objText hrest h, substitute_cons h]
    refine (State.written_bind hlt ?_).trans (by rw [Nat.zero_add]; rfl)
    intro t ht
    obtain ⟨⟨hroom, hint'⟩, rfl⟩ := State.written_ok ht
    refine ih (by dsimp only; omega) hlt hint' ?_ hnext henough
    rwa [length_splice hroom]

end Loop

/-! ### The message -/

/-- How many placeholders a format has. -/
def placeholders (fmt : Bytes) : ℕ := marks openBrace closeBrace fmt

/-- The format with its placeholders replaced by the texts of the arguments. -/
def message (fmt : Bytes) (args : List (Arg R O)) : Bytes :=
  substitute openBrace closeBrace fmt (args.map (Arg.text toStr objText))

/-- `format` stays in its buffer, and returns the format with the placeholders replaced by
the texts of the arguments, from left to right, and nothing in these texts replaced. -/
def FormatsExactly (fmt : Bytes) (args : List (Arg R O)) : Prop :=
  ∃ out, format toStr objText fmt args = .ok out ∧
    Substituted openBrace closeBrace fmt (args.map (Arg.text toStr objText)) out

section Message

variable {fmt : Bytes} {args : List (Arg R O)}

/-- **A message that fits is returned, and one that does not runs over the buffer.** -/
theorem format_eq (henough : placeholders fmt ≤ args.length) :
    format toStr objText fmt args =
      if (message toStr objText fmt args).length ≤ 8192 ∧ fmt.length < 2 ^ 31 then
        .ok (message toStr objText fmt args)
      else .error .undefined := by
  have hloop : loop toStr objText fmt args fmt.length State.start =
      State.start.written (message toStr objText fmt args) (placeholders fmt) fmt.length :=
    loop_eq toStr objText (Nat.le_add_left _ _) (Nat.zero_le _) (by decide) (Nat.zero_le _) henough
  have hroom : State.start.off + (message toStr objText fmt args).length ≤
      State.start.buffer.length ↔ (message toStr objText fmt args).length ≤ 8192 := by
    simp only [State.start, Nat.zero_add, List.length_replicate]
  by_cases hfits : (message toStr objText fmt args).length ≤ 8192 ∧ fmt.length < 2 ^ 31
  · rw [format, hloop, State.written, if_pos ⟨hroom.mpr hfits.1, hfits.2⟩, if_pos hfits]
    show Except.ok ((splice _ 0 _).take (0 + _)) = _
    rw [splice_zero, Nat.zero_add, List.take_left]
  · rw [format, hloop, State.written, if_neg fun h => hfits ⟨hroom.mp h.1, h.2⟩, if_neg hfits]
    rfl

/-- The length of a message is that of the texts between the braces and of the arguments for them.
-/
theorem length_message (henough : placeholders fmt ≤ args.length) :
    (message toStr objText fmt args).length + 2 * placeholders fmt = fmt.length +
      ((args.take (placeholders fmt)).map fun arg => (arg.text toStr objText).length).sum := by
  have hbraces : openBrace ≠ closeBrace := by decide
  have htexts : marks openBrace closeBrace fmt ≤ (args.map (Arg.text toStr objText)).length := by
    rwa [List.length_map]
  have hlength := length_substitute hbraces htexts
  rw [← List.map_take, List.map_map] at hlength
  exact hlength

/-- **The message is exact if and only if it fits into the buffer.** -/
theorem formatsExactly_iff (henough : placeholders fmt ≤ args.length) :
    FormatsExactly toStr objText fmt args ↔
      fmt.length < 2 ^ 31 ∧
        fmt.length +
            ((args.take (placeholders fmt)).map fun arg => (arg.text toStr objText).length).sum ≤
          8192 + 2 * placeholders fmt := by
  have hfits : (message toStr objText fmt args).length ≤ 8192 ↔
      fmt.length +
          ((args.take (placeholders fmt)).map fun arg => (arg.text toStr objText).length).sum ≤
        8192 + 2 * placeholders fmt := by
    rw [← length_message toStr objText henough]
    omega
  rw [← hfits, FormatsExactly, format_eq toStr objText henough]
  constructor
  · rintro ⟨out, hout, _⟩
    split at hout
    · next hroom => exact hroom.symm
    · cases hout
  · intro hroom
    refine ⟨message toStr objText fmt args, if_pos hroom.symm, ?_⟩
    exact (substituted_iff (by decide)).mpr rfl

end Message

end Formatter

end Format

/-- `std::to_string` of a whole number with a floating point. -/
def wholeText (num : ℕ) : Bytes := decimal num ++ ascii ".000000"

/-- The message of a mapping that failed is formatted exactly. -/
theorem formatsExactly_mmapFailed :
    Formatter.FormatsExactly wholeText (SizeType.text wholeText)
      (ascii Error.posixMmapFailed.fmt)
      [.objShared ⟨1, SizeType.mb⟩, .d32 3, .str (ascii "Invalid argument")] :=
  (Formatter.formatsExactly_iff _ _ (by decide)).mpr (by decide)

/-- The message about a key that is not in the pool fits if the key has at most 8160 bytes. -/
theorem cantFindKey_overflows_iff (id : Bytes) :
    Error.pmdkCantFindKey.format wholeText (SizeType.text wholeText) [.str id] =
      .error .undefined ↔ 8160 < id.length := by
  have hone : Formatter.placeholders (ascii Error.pmdkCantFindKey.fmt) = 1 := by decide
  have hfmt : (ascii Error.pmdkCantFindKey.fmt).length = 34 := by decide
  have henough : Formatter.placeholders (ascii Error.pmdkCantFindKey.fmt) ≤
      [(.str id : Arg ℕ (SizeType ℕ))].length := hone.le
  have hlength := Formatter.length_message wholeText (SizeType.text wholeText) henough
  rw [hone, hfmt, List.take_succ_cons, List.take_zero, List.map_singleton, List.sum_singleton,
    Arg.text] at hlength
  rw [Error.format, Formatter.format_eq _ _ henough, hfmt]
  split
  · next hroom => exact iff_of_false (by simp) (by omega)
  · next hroom => exact iff_of_true rfl (by omega)

/-- The message about a key of 8192 bytes that is not in the pool runs over the buffer. -/
theorem long_key_overflows :
    Error.pmdkCantFindKey.format wholeText (SizeType.text wholeText)
        [.str (List.replicate 8192 97)] = .error .undefined ∧
      ¬Formatter.FormatsExactly wholeText (SizeType.text wholeText)
        (ascii Error.pmdkCantFindKey.fmt) [.str (List.replicate 8192 97)] := by
  have hkey : 8160 < (List.replicate 8192 (97 : UInt8)).length := by
    rw [List.length_replicate]
    decide
  have hformat := (cantFindKey_overflows_iff _).mpr hkey
  refine ⟨hformat, ?_⟩
  rintro ⟨out, hout, _⟩
  rw [Error.format, hout] at hformat
  cases hformat

end Pmemcpy
