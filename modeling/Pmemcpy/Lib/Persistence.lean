import Pmemcpy.Lib.Bytes

/-!
# Volatile and durable images of memory

A store goes to the volatile image of an object. Persist calls copy the ranges
they cover to the durable image; of any other byte it is open, until the power
fails, whether its new value or its old one is found afterwards.
-/

namespace Pmemcpy.Lib

/-- The addresses that a persist call covers: a range of the object, or a place outside of it. -/
inductive PersistRange where
  | object (off n : ℕ)
  | elsewhere (n : ℕ)
  deriving DecidableEq, Repr

/-- What a persist call makes of the durable image of an object. -/
def flush (vol dur : Bytes) : PersistRange → Bytes
  | .object off n => splice dur off (slice vol off n)
  | .elsewhere _ => dur

/-- The durable image after some persist calls. -/
def persisted (vol dur : Bytes) (ranges : List PersistRange) : Bytes := ranges.foldl (flush vol) dur

/-- An image that the power failure can leave: each byte is the volatile or the durable one. -/
structure Mixed (vol dur m : Bytes) : Prop where
  length : m.length = vol.length
  byte : ∀ i : ℕ, m[i]? = vol[i]? ∨ m[i]? = dur[i]?

section Mixing

variable {vol dur m : Bytes} {o n : ℕ}

/-- All bytes may have reached the durable image. -/
theorem Mixed.volatile (vol dur : Bytes) : Mixed vol dur vol := ⟨rfl, fun _ => Or.inl rfl⟩

/-- No further byte may have reached the durable image. -/
theorem Mixed.durable (h : dur.length = vol.length) : Mixed vol dur dur :=
  ⟨h, fun _ => Or.inr rfl⟩

/-- A range that both images have in common survives. -/
theorem Mixed.slice_eq (h : Mixed vol dur m) (heq : slice vol o n = slice dur o n) :
    slice m o n = slice vol o n := by
  apply List.ext_getElem?
  intro i
  by_cases hi : i < n
  · have hvol : vol[o + i]? = dur[o + i]? := by
      have hbyte := congrArg (fun b => b[i]?) heq
      simpa [slice, List.getElem?_take, List.getElem?_drop, hi] using hbyte
    rcases h.byte (o + i) with hm | hm
    · simpa [slice, List.getElem?_take, List.getElem?_drop, hi] using hm
    · simpa [slice, List.getElem?_take, List.getElem?_drop, hi, hvol] using hm
  · simp [slice, hi]

/-- A range at the front that is the same in both images survives. -/
theorem Mixed.isPrefix (h : Mixed vol dur m) {out : Bytes} (hvol : out <+: vol)
    (hdur : out <+: dur) : out <+: m := by
  have hslice {b : Bytes} : out <+: b ↔ slice b 0 out.length = out := by
    rw [List.prefix_iff_eq_take, slice, List.drop_zero, eq_comm]
  rw [hslice] at hvol hdur ⊢
  rw [h.slice_eq (hvol.trans hdur.symm), hvol]

/-- Persisting a whole object makes its volatile image durable. -/
theorem persisted_whole (h : dur.length = vol.length) :
    persisted vol dur [.object 0 vol.length] = vol := by
  have hslice : slice vol 0 vol.length = vol := by simp [slice]
  rw [persisted, List.foldl_cons, List.foldl_nil, flush, hslice, splice_zero_of_length h.symm]

end Mixing

end Pmemcpy.Lib
