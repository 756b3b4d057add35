import Pmemcpy.Lib.Bytes

/-!
# The list entries of the hashtable

`struct PMEMPointer` is kept as the flat bytes it occupies in the pool: the two
list links, the length of the id, the id field of 512 bytes, the length of the
data and the OID of the data block. The constructor `_add` is the list of
writes it makes to those bytes, and the lookup test reads them back with
`strncmp`.
-/

namespace Pmemcpy

open Lib

/-- A PMDK object identifier: the pool it belongs to and the offset in it. -/
structure PMEMoid where
  poolUuidLo : UInt64
  off : UInt64
  deriving DecidableEq, Repr

namespace PMEMoid

/-- `OID_NULL`. -/
def null : PMEMoid := ⟨0, 0⟩

/-- `OID_IS_NULL` looks at the offset only. -/
def isNull (o : PMEMoid) : Bool := o.off == 0

/-- The sixteen bytes of an OID in memory. -/
def toBytes (o : PMEMoid) : Bytes := leBytes 8 o.poolUuidLo.toNat ++ leBytes 8 o.off.toNat

/-- The OID that sixteen bytes stand for. -/
def ofBytes (b : Bytes) : PMEMoid :=
  ⟨UInt64.ofNat (ofLe (slice b 0 8)), UInt64.ofNat (ofLe (slice b 8 8))⟩

/-- An OID takes sixteen bytes. -/
@[simp] theorem length_toBytes (o : PMEMoid) : o.toBytes.length = 16 := by simp [toBytes]

/-- An OID is read back from memory as it was written. -/
@[simp] theorem ofBytes_toBytes (o : PMEMoid) : ofBytes o.toBytes = o := by
  have hlow : slice o.toBytes 0 8 = leBytes 8 o.poolUuidLo.toNat := by
    simp [slice, toBytes]
  have hhigh : slice o.toBytes 8 8 = leBytes 8 o.off.toNat := by
    simp [slice, toBytes, List.take_of_length_le]
  have hu := o.poolUuidLo.toNat_lt
  have ho := o.off.toNat_lt
  rw [ofBytes, hlow, hhigh, ofLe_leBytes_of_lt (by simpa using hu),
    ofLe_leBytes_of_lt (by simpa using ho)]
  simp

/-- Sixteen bytes are those of the OID they stand for. -/
theorem toBytes_ofBytes {b : Bytes} (h : b.length = 16) : (ofBytes b).toBytes = b := by
  have hlow : (slice b 0 8).length = 8 := length_slice (by omega)
  have hhigh : (slice b 8 8).length = 8 := length_slice (by omega)
  have hbytes {w : Bytes} (hw : w.length = 8) : leBytes 8 (UInt64.ofNat (ofLe w)).toNat = w := by
    have hle := leBytes_ofLe w
    rw [hw] at hle
    have hlt : ofLe w < 2 ^ 64 := by
      have hmod := ofLe_leBytes 8 (ofLe w)
      rw [hle] at hmod
      rw [hmod]
      exact Nat.mod_lt _ (by norm_num)
    rw [UInt64.toNat_ofNat', Nat.mod_eq_of_lt hlt, hle]
  rw [toBytes, ofBytes, hbytes hlow, hbytes hhigh, slice, slice, List.drop_zero,
    List.take_of_length_le (by rw [List.length_drop]; omega : (b.drop 8).length ≤ 8),
    List.take_append_drop]

/-- The null OID is null. -/
@[simp] theorem isNull_null : null.isNull = true := rfl

end PMEMoid

/-- `struct PMEMListArgs`: what `_add` is told about the entry to build. -/
structure PMEMListArgs where
  idLen : ℕ
  id : Bytes
  len : ℕ
  data : PMEMoid
  deriving DecidableEq, Repr

/-- `struct PMEMPointer` as the bytes it occupies. -/
structure PMEMPointer where
  image : Bytes
  deriving DecidableEq, Repr

namespace PMEMPointer

/-! The offsets of the fields, after the two sixteen-byte links `neighbors`. -/

/-- The offset of `id_len_` in an entry. -/
def idLenOff : ℕ := 32

/-- The offset of `id_` in an entry. -/
def idOff : ℕ := 40

/-- The size of `id_`. -/
def idRoom : ℕ := 512

/-- The offset of `len_` in an entry. -/
def lenOff : ℕ := 552

/-- The offset of `data_` in an entry. -/
def dataOff : ℕ := 560

/-- `sizeof(struct PMEMPointer)`. -/
def structSize : ℕ := 576

/-- The field `id_len`. -/
def idLen (e : PMEMPointer) : ℕ := ofLe (slice e.image idLenOff 8)

/-- The bytes of the field `id` that `id_len` says are in use. -/
def id (e : PMEMPointer) : Bytes := slice e.image idOff e.idLen

/-- The field `len`. -/
def len (e : PMEMPointer) : ℕ := ofLe (slice e.image lenOff 8)

/-- The field `data`. -/
def data (e : PMEMPointer) : PMEMoid := PMEMoid.ofBytes (slice e.image dataOff 16)

/-- Setting the field `data` to `OID_NULL`, as `POBJ_FREE` does. -/
def clearData (e : PMEMPointer) : PMEMPointer := ⟨splice e.image dataOff PMEMoid.null.toBytes⟩

/-- The test of `_find`: equal lengths, and `strncmp` of the two ids is zero. -/
def isNamed (e : PMEMPointer) (id : Bytes) : Bool :=
  e.idLen == id.length && strncmp (e.image.drop idOff) (id ++ [0]) e.idLen == 0

end PMEMPointer

open PMEMPointer

/-- The writes of `_add`, in the order it makes them: offset and bytes. -/
def addWrites (info : PMEMListArgs) : List (ℕ × Bytes) :=
  [(idLenOff, leBytes 8 info.idLen),
   (lenOff, leBytes 8 info.len),
   (idOff, (info.id ++ [0]).take info.idLen),
   (dataOff, info.data.toBytes)]

/-- `_add` on the uninitialised memory of a new list entry. -/
def add (info : PMEMListArgs) (raw : Bytes) : PMEMPointer :=
  ⟨(addWrites info).foldl (fun m w => splice m w.1 w.2) raw⟩

/-- Two ids that the lookup test cannot tell apart: equal lengths, and equal up
to their first NUL byte. -/
def SameKey (id id' : Bytes) : Prop := id.length = id'.length ∧ cStr id = cStr id'

instance (id id' : Bytes) : Decidable (SameKey id id') := inferInstanceAs (Decidable (_ ∧ _))

/-- A NUL-free id is told apart from every other id. -/
theorem SameKey.eq {id id' : Bytes} (h : SameKey id id') (hnul : NulFree id) : id = id' :=
  eq_of_cStr_eq hnul h.1 h.2

/-- Every id passes for itself. -/
theorem SameKey.refl (id : Bytes) : SameKey id id := ⟨rfl, rfl⟩

/-- If one id passes for another, this passes for it. -/
theorem SameKey.symm {id id' : Bytes} (h : SameKey id id') : SameKey id' id := ⟨h.1.symm, h.2.symm⟩

/-- An id passes for all that an id that it passes for passes for. -/
theorem SameKey.trans {id id' id'' : Bytes} (h : SameKey id id') (h' : SameKey id' id'') :
    SameKey id id'' :=
  ⟨h.1.trans h'.1, h.2.trans h'.2⟩

/-- The state of an entry whose fields are all in place: its bytes are those of
one `struct PMEMPointer`, and its id lies inside the id field. -/
structure PMEMPointer.Wf (e : PMEMPointer) : Prop where
  size : e.image.length = structSize
  idLen_le : e.idLen ≤ idRoom

namespace PMEMPointer

variable {e : PMEMPointer} {id : Bytes}

/-- The id of a well-formed entry is as long as `id_len` says. -/
theorem Wf.length_id (h : e.Wf) : e.id.length = e.idLen := by
  have hsize := h.size
  have hle := h.idLen_le
  simp only [PMEMPointer.id, slice, List.length_take, List.length_drop]
  simp only [structSize, idRoom, idOff] at *
  omega

/-- The lookup test on a well-formed entry compares the ids as C strings of one length. -/
theorem Wf.isNamed_iff (h : e.Wf) : e.isNamed id = true ↔ SameKey e.id id := by
  have hid := h.length_id
  have hdrop : e.idLen ≤ (e.image.drop idOff).length := by
    have hsize := h.size
    have hle := h.idLen_le
    simp only [List.length_drop]
    simp only [structSize, idRoom, idOff] at *
    omega
  simp only [isNamed, Bool.and_eq_true, beq_iff_eq, SameKey, hid]
  constructor
  · rintro ⟨hlen, hcmp⟩
    rw [hlen] at hdrop hcmp
    exact ⟨hlen, by simpa only [PMEMPointer.id, slice, hlen] using
      (strncmp_eq_zero_iff hdrop).mp hcmp⟩
  · rintro ⟨hlen, hkey⟩
    refine ⟨hlen, ?_⟩
    rw [hlen] at hdrop ⊢
    exact (strncmp_eq_zero_iff hdrop).mpr
      (by simpa only [PMEMPointer.id, slice, hlen] using hkey)

/-- Clearing the data OID keeps the entry well formed and leaves its key alone. -/
theorem Wf.clearData (h : e.Wf) :
    e.clearData.Wf ∧ e.clearData.id = e.id ∧ e.clearData.idLen = e.idLen ∧
      e.clearData.data = PMEMoid.null := by
  have hsize := h.size
  have hlen : e.clearData.image.length = structSize := by
    rw [PMEMPointer.clearData, length_splice, hsize]
    rw [hsize, PMEMoid.length_toBytes]
    decide
  have hoff : dataOff ≤ e.image.length := by rw [hsize]; decide
  have hidLen : e.clearData.idLen = e.idLen := by
    rw [PMEMPointer.idLen, PMEMPointer.clearData, slice_splice_of_le hoff (by decide),
      PMEMPointer.idLen]
  refine ⟨⟨hlen, hidLen ▸ h.idLen_le⟩, ?_, hidLen, ?_⟩
  · have hle := h.idLen_le
    rw [PMEMPointer.id, hidLen, PMEMPointer.clearData,
      slice_splice_of_le hoff (by simp only [idOff, dataOff, idRoom] at *; omega), PMEMPointer.id]
  · have hself := slice_splice_self (w := PMEMoid.null.toBytes) hoff
    rw [PMEMoid.length_toBytes] at hself
    rw [PMEMPointer.data, PMEMPointer.clearData, hself, PMEMoid.ofBytes_toBytes]

end PMEMPointer

section Add

variable {info : PMEMListArgs} {raw : Bytes}

/-- The bytes after each write of `_add`, for an id that fits its field. -/
private theorem add_stages (hraw : raw.length = structSize) (hlen : info.idLen = info.id.length)
    (hid : info.id.length ≤ idRoom) :
    ∃ m₁ m₂ m₃ : Bytes,
      m₁ = splice raw idLenOff (leBytes 8 info.idLen) ∧
      m₂ = splice m₁ lenOff (leBytes 8 info.len) ∧
      m₃ = splice m₂ idOff info.id ∧
      (add info raw).image = splice m₃ dataOff info.data.toBytes ∧
      m₁.length = structSize ∧ m₂.length = structSize ∧ m₃.length = structSize := by
  have htake : (info.id ++ [0]).take info.idLen = info.id := by rw [hlen, List.take_left]
  have h₁ : (splice raw idLenOff (leBytes 8 info.idLen)).length = structSize := by
    rw [length_splice, hraw]
    rw [hraw, length_leBytes]
    decide
  have h₂ : (splice (splice raw idLenOff (leBytes 8 info.idLen)) lenOff
      (leBytes 8 info.len)).length = structSize := by
    rw [length_splice, h₁]
    rw [h₁, length_leBytes]
    decide
  have h₃ : (splice (splice (splice raw idLenOff (leBytes 8 info.idLen)) lenOff
      (leBytes 8 info.len)) idOff info.id).length = structSize := by
    rw [length_splice, h₂]
    rw [h₂]
    simp only [idOff, idRoom, structSize] at *
    omega
  refine ⟨_, _, _, rfl, rfl, rfl, ?_, h₁, h₂, h₃⟩
  simp only [add, addWrites, List.foldl_cons, List.foldl_nil, htake]

/-- The bytes of the fields after `_add` has run on fresh memory, for an id that fits its field. -/
theorem add_slices (hraw : raw.length = structSize) (hlen : info.idLen = info.id.length)
    (hid : info.id.length ≤ idRoom) :
    (add info raw).image.length = structSize ∧
      slice (add info raw).image idLenOff 8 = leBytes 8 info.id.length ∧
      slice (add info raw).image idOff info.id.length = info.id ∧
      slice (add info raw).image lenOff 8 = leBytes 8 info.len ∧
      slice (add info raw).image dataOff 16 = info.data.toBytes := by
  obtain ⟨m₁, m₂, m₃, hm₁, hm₂, hm₃, himage, h₁, h₂, h₃⟩ := add_stages hraw hlen hid
  have hoff₃ : dataOff ≤ m₃.length := by rw [h₃]; decide
  have hoff₂ : idOff ≤ m₂.length := by rw [h₂]; decide
  have hoff₁ : lenOff ≤ m₁.length := by rw [h₁]; decide
  have hoff : idLenOff ≤ raw.length := by rw [hraw]; decide
  have hroom : idOff + info.id.length ≤ lenOff := by
    simp only [idOff, lenOff, idRoom] at *
    omega
  refine ⟨?_, ?_, ?_, ?_, ?_⟩
  · rw [himage, length_splice, h₃]
    rw [h₃, PMEMoid.length_toBytes]
    decide
  · have hself := slice_splice_self (w := leBytes 8 info.idLen) hoff
    rw [length_leBytes] at hself
    rw [himage, slice_splice_of_le hoff₃ (by decide), hm₃, slice_splice_of_le hoff₂ (by decide),
      hm₂, slice_splice_of_le hoff₁ (by decide), hm₁, hself, hlen]
  · rw [himage, slice_splice_of_le hoff₃ (by simp only [lenOff, dataOff] at *; omega), hm₃,
      slice_splice_self hoff₂]
  · have hself := slice_splice_self (w := leBytes 8 info.len) hoff₁
    rw [length_leBytes] at hself
    rw [himage, slice_splice_of_le hoff₃ (by decide), hm₃, slice_splice_of_ge hoff₂ hroom, hm₂,
      hself]
  · have hself := slice_splice_self (w := info.data.toBytes) hoff₃
    rw [PMEMoid.length_toBytes] at hself
    rw [himage, hself]

/-- **The layout of an entry.** After `_add` has run on fresh memory, for an id
that fits its field, the fields read back are the id, the lengths and the OID
it was given, and the entry occupies exactly its own bytes. -/
theorem add_fields (hraw : raw.length = structSize) (hlen : info.idLen = info.id.length)
    (hid : info.id.length ≤ idRoom) :
    (add info raw).Wf ∧ (add info raw).id = info.id ∧
      (add info raw).len = info.len % 2 ^ 64 ∧ (add info raw).data = info.data := by
  obtain ⟨hsize, hslen, hsid, hsdlen, hsdata⟩ := add_slices hraw hlen hid
  have hidLen : (add info raw).idLen = info.id.length := by
    rw [PMEMPointer.idLen, hslen, ofLe_leBytes_of_lt]
    simp only [idRoom] at hid
    omega
  refine ⟨⟨hsize, by rw [hidLen]; exact hid⟩, by rw [PMEMPointer.id, hidLen, hsid], ?_, ?_⟩
  · rw [PMEMPointer.len, hsdlen, ofLe_leBytes]
    norm_num
  · rw [PMEMPointer.data, hsdata, PMEMoid.ofBytes_toBytes]

end Add

end Pmemcpy
