import Pmemcpy.Hashtable.Pool

/-!
# Entries with ids of any length

`_add` copies the whole of an id to a field of 512 bytes. A longer id runs on
into the length of the data, then into the OID of the data block, and past byte
536 of the id out of the entry. The OID is written last, so that it is always
right; the length is written before the id, so that it is not.
-/

namespace Pmemcpy

open Lib PMEMPointer

/-- What `store` and `alloc` tell `_add` about an entry. -/
def entryArgs (id : Bytes) (len : UInt64) (data : PMEMoid) : PMEMListArgs :=
  ⟨id.length, id, len.toNat, data⟩

/-- The bytes behind the id field that a long id may overwrite: the length, then the OID. -/
def behindId (info : PMEMListArgs) : Bytes := leBytes 8 info.len ++ info.data.toBytes

/-- The fields of the new entry read back as they were given, its links are
untouched, and every write of `_add` stays inside it. -/
structure RoundTrips (info : PMEMListArgs) (raw : Bytes) : Prop where
  idLen : (add info raw).idLen = info.id.length
  id : (add info raw).id = info.id
  named : (add info raw).isNamed info.id = true
  len : (add info raw).len = info.len
  data : (add info raw).data = info.data
  links : slice (add info raw).image 0 idLenOff = slice raw 0 idLenOff
  inside : ∀ w ∈ addWrites info, w.1 + w.2.length ≤ structSize

/-- No call with this id that gets its memory returns normally. -/
def RejectsId (hash : Bytes → ℕ) (id : Bytes) : Prop :=
  ∀ (s : PMDKHashtableStorage) (c : Call) (src : Bytes), c.inserts = some (id, src) → c.Served →
    (c.exec hash s).1 ≠ .ok ()

/-- The id is rejected, or the entry that `_add` builds from it keeps every field. -/
def KeepsLayout (hash : Bytes → ℕ) (id : Bytes) (len : UInt64) (data : PMEMoid) : Prop :=
  RejectsId hash id ∨
    ∀ raw : Bytes, raw.length = structSize → RoundTrips (entryArgs id len data) raw

section Overrun

variable {info : PMEMListArgs} {raw : Bytes}

/-- The bytes of the fields after `_add`, for an id that ends inside the entry:
the length field begins with what the id spills into it, and the end of a very
long id has been overwritten by the OID. -/
theorem add_spilled (hraw : raw.length = structSize) (hlen : info.idLen = info.id.length)
    (hid : idOff + info.id.length ≤ structSize) :
    slice (add info raw).image 0 idLenOff = slice raw 0 idLenOff ∧
      slice (add info raw).image idLenOff 8 = leBytes 8 info.id.length ∧
      slice (add info raw).image idOff info.id.length =
        info.id.take 520 ++ info.data.toBytes.take (info.id.length - 520) ∧
      slice (add info raw).image lenOff 8 =
        (info.id.drop idRoom).take 8 ++ (leBytes 8 info.len).drop (info.id.length - idRoom) ∧
      slice (add info raw).image dataOff 16 = info.data.toBytes := by
  have htake : (info.id ++ [0]).take info.idLen = info.id := by rw [hlen, List.take_left]
  obtain ⟨m₁, hm₁⟩ : ∃ m, m = splice raw idLenOff (leBytes 8 info.idLen) := ⟨_, rfl⟩
  obtain ⟨m₂, hm₂⟩ : ∃ m, m = splice m₁ lenOff (leBytes 8 info.len) := ⟨_, rfl⟩
  obtain ⟨m₃, hm₃⟩ : ∃ m, m = splice m₂ idOff info.id := ⟨_, rfl⟩
  have himage : (add info raw).image = splice m₃ dataOff info.data.toBytes := by
    simp only [add, addWrites, List.foldl_cons, List.foldl_nil, htake, hm₃, hm₂, hm₁]
  simp only [idLenOff, idOff, idRoom, lenOff, dataOff, structSize] at *
  have h₁ : m₁.length = 576 := by rw [hm₁, length_splice (by simp; omega), hraw]
  have h₂ : m₂.length = 576 := by rw [hm₂, length_splice (by simp; omega), h₁]
  have h₃ : m₃.length = 576 := by rw [hm₃, length_splice (by omega), h₂]
  have hself₁ : slice m₁ 32 (leBytes 8 info.idLen).length = leBytes 8 info.idLen := by
    rw [hm₁, slice_splice_self (by omega)]
  have hself₂ : slice m₂ 552 (leBytes 8 info.len).length = leBytes 8 info.len := by
    rw [hm₂, slice_splice_self (by omega)]
  have hself₃ : slice m₃ 40 info.id.length = info.id := by
    rw [hm₃, slice_splice_self (by omega)]
  have hself₄ : slice (add info raw).image 560 info.data.toBytes.length = info.data.toBytes := by
    rw [himage, slice_splice_self (by omega)]
  rw [length_leBytes] at hself₁ hself₂
  rw [PMEMoid.length_toBytes] at hself₄
  refine ⟨?_, ?_, ?_, ?_, hself₄⟩
  · rw [himage, slice_splice_of_le (by omega) (by omega), hm₃,
      slice_splice_of_le (by omega) (by omega), hm₂, slice_splice_of_le (by omega) (by omega), hm₁,
      slice_splice_of_le (by omega) (by omega)]
  · rw [himage, slice_splice_of_le (by omega) (by omega), hm₃,
      slice_splice_of_le (by omega) (by omega), hm₂, slice_splice_of_le (by omega) (by omega),
      hself₁, hlen]
  · by_cases hshort : info.id.length ≤ 520
    · rw [himage, slice_splice_of_le (by omega) (by omega), hself₃,
        List.take_of_length_le hshort, Nat.sub_eq_zero_of_le hshort, List.take_zero,
        List.append_nil]
    · have hfront : slice m₃ 40 520 = info.id.take 520 := by
        have hslice : slice (slice m₃ 40 info.id.length) 0 520 = slice m₃ (40 + 0) 520 :=
          slice_slice (by omega)
        rw [Nat.add_zero, hself₃] at hslice
        rw [← hslice, slice, List.drop_zero]
      have hsplit : 40 + info.id.length - 560 = info.id.length - 520 := by omega
      rw [himage, slice_splice_into (by omega) (by omega) (by omega) (by simp; omega), hsplit,
        hfront]
  · rw [himage, slice_splice_of_le (by omega) (by omega)]
    by_cases hshort : info.id.length ≤ 512
    · rw [hm₃, slice_splice_of_ge (by omega) (by omega), hself₂, List.drop_eq_nil_of_le hshort,
        Nat.sub_eq_zero_of_le hshort]
      simp
    · have hoff : 40 + info.id.length = 552 + (info.id.length - 512) := by omega
      have hrest : 8 - (40 + info.id.length - 552) = 8 - (info.id.length - 512) := by omega
      have hfield : slice m₂ (40 + info.id.length) (8 - (40 + info.id.length - 552)) =
          (leBytes 8 info.len).drop (info.id.length - 512) := by
        rw [hrest, hoff, ← drop_slice, hself₂]
      rw [hm₃, slice_splice_from (by omega) (by omega) (by omega), hfield]

/-- `_add` writes to the entry, and a longer id runs over what is behind it. -/
theorem length_add_max (hraw : raw.length = structSize) (hlen : info.idLen = info.id.length) :
    (add info raw).image.length = max structSize (idOff + info.id.length) := by
  have htake : (info.id ++ [0]).take info.idLen = info.id := by rw [hlen, List.take_left]
  simp only [add, addWrites, List.foldl_cons, List.foldl_nil, htake]
  simp only [idLenOff, idOff, lenOff, dataOff, structSize] at *
  obtain ⟨m₁, hm₁⟩ : ∃ m, m = splice raw 32 (leBytes 8 info.idLen) := ⟨_, rfl⟩
  obtain ⟨m₂, hm₂⟩ : ∃ m, m = splice m₁ 552 (leBytes 8 info.len) := ⟨_, rfl⟩
  have h₁ : m₁.length = 576 := by rw [hm₁, length_splice (by simp; omega), hraw]
  have h₂ : m₂.length = 576 := by rw [hm₂, length_splice (by simp; omega), h₁]
  have h₃ : (splice m₂ 40 info.id).length = max 576 (40 + info.id.length) := by
    rw [length_splice_max (by omega), h₂]
  rw [← hm₁, ← hm₂, length_splice (by simp; omega), h₃]

/-- An id that ends inside the entry leaves it its size. -/
theorem length_add (hraw : raw.length = structSize) (hlen : info.idLen = info.id.length)
    (hid : idOff + info.id.length ≤ structSize) : (add info raw).image.length = structSize := by
  rw [length_add_max hraw hlen, Nat.max_eq_left hid]

/-- The length reads back exactly when what the id spills into its field is what
is to be written there. -/
theorem add_len_iff (hraw : raw.length = structSize) (hlen : info.idLen = info.id.length)
    (hid : idOff + info.id.length ≤ structSize) (hlt : info.len < 2 ^ 64) :
    (add info raw).len = info.len ↔
      (info.id.drop idRoom).take 8 = (leBytes 8 info.len).take (info.id.length - idRoom) := by
  obtain ⟨_, _, _, hslen, _⟩ := add_spilled hraw hlen hid
  constructor
  · intro h
    have hsize : (slice (add info raw).image lenOff 8).length = 8 :=
      length_slice (by rw [length_add hraw hlen hid]; decide)
    have hbytes := leBytes_ofLe (slice (add info raw).image lenOff 8)
    rw [hsize, ← PMEMPointer.len, h, hslen] at hbytes
    have hcut := (List.take_append_drop (info.id.length - idRoom) (leBytes 8 info.len)).symm
    exact List.append_cancel_right (hbytes.symm.trans hcut)
  · intro h
    rw [h, List.take_append_drop] at hslen
    rw [PMEMPointer.len, hslen, ofLe_leBytes_of_lt (by simpa using hlt)]

/-- The length of the id reads back, wherever the id ends. -/
theorem add_idLen (hraw : raw.length = structSize) (hlen : info.idLen = info.id.length)
    (hid : idOff + info.id.length ≤ structSize) : (add info raw).idLen = info.id.length := by
  obtain ⟨_, hsidLen, _⟩ := add_spilled hraw hlen hid
  rw [PMEMPointer.idLen, hsidLen, ofLe_leBytes_of_lt]
  simp only [idOff, structSize] at hid
  omega

/-- The new entry passes the lookup test for its own id exactly when the OID that
overwrites the end of a very long id looks like it. -/
theorem add_isNamed_iff (hraw : raw.length = structSize) (hlen : info.idLen = info.id.length)
    (hid : idOff + info.id.length ≤ structSize) :
    (add info raw).isNamed info.id = true ↔
      cStr (info.id.take 520 ++ info.data.toBytes.take (info.id.length - 520)) = cStr info.id := by
  obtain ⟨_, _, hsid, _, _⟩ := add_spilled hraw hlen hid
  have hroom : info.id.length ≤ ((add info raw).image.drop idOff).length := by
    rw [List.length_drop, length_add hraw hlen hid]
    omega
  rw [slice] at hsid
  simp only [isNamed, add_idLen hraw hlen hid, Bool.and_eq_true, beq_iff_eq, true_and]
  rw [strncmp_eq_zero_iff hroom, hsid]

/-- The OID of the data block reads back, wherever the id ends. -/
theorem add_data (hraw : raw.length = structSize) (hlen : info.idLen = info.id.length)
    (hid : idOff + info.id.length ≤ structSize) : (add info raw).data = info.data := by
  obtain ⟨_, _, _, _, hsdata⟩ := add_spilled hraw hlen hid
  rw [PMEMPointer.data, hsdata, PMEMoid.ofBytes_toBytes]

/-- The fields survive exactly when what a long id spills behind its field is what
is to be written there. -/
theorem roundTrips_iff_spill (hraw : raw.length = structSize)
    (hlen : info.idLen = info.id.length) (hlt : info.len < 2 ^ 64) :
    RoundTrips info raw ↔ info.id.drop idRoom <+: behindId info := by
  have hdrop : (info.id.drop idRoom).length = info.id.length - idRoom := List.length_drop
  have htail : (info.id.drop idRoom).drop 8 = info.id.drop 520 := by rw [List.drop_drop]; rfl
  have hsplit := prefix_append_iff (l := info.id.drop idRoom) (m := leBytes 8 info.len)
    (w := info.data.toBytes)
  have hsub : info.id.length - idRoom - 8 = info.id.length - 520 := by
    simp only [idRoom]
    omega
  rw [length_leBytes, hdrop, htail, hsub] at hsplit
  rw [behindId, hsplit]
  constructor
  · intro h
    have hid := h.inside _ (by simp [addWrites] : (idOff, (info.id ++ [0]).take info.idLen) ∈ _)
    rw [hlen, List.take_left] at hid
    obtain ⟨_, _, hsid, _, _⟩ := add_spilled hraw hlen hid
    have hfield := h.id
    rw [PMEMPointer.id, h.idLen, hsid] at hfield
    have hcopy := (List.take_append_drop 520 info.id).symm
    exact ⟨(add_len_iff hraw hlen hid hlt).mp h.len,
      (List.append_cancel_left (hfield.trans hcopy)).symm⟩
  · rintro ⟨hspill, hend⟩
    have hid : idOff + info.id.length ≤ structSize := by
      have hlong := congrArg List.length hend
      simp only [List.length_drop, List.length_take, PMEMoid.length_toBytes] at hlong
      simp only [idOff, structSize]
      omega
    obtain ⟨hlinks, _, hsid, _, _⟩ := add_spilled hraw hlen hid
    have hnamed := add_isNamed_iff hraw hlen hid
    have hidLen := add_idLen hraw hlen hid
    rw [← hend, List.take_append_drop] at hsid hnamed
    refine ⟨hidLen, by rw [PMEMPointer.id, hidLen, hsid], hnamed.mpr rfl,
      (add_len_iff hraw hlen hid hlt).mpr hspill, add_data hraw hlen hid, hlinks, ?_⟩
    intro w hw
    have hcut : ((info.id ++ [0]).take info.idLen).length = info.id.length := by
      rw [hlen, List.take_left]
    simp only [addWrites, List.mem_cons, List.not_mem_nil, or_false] at hw
    rcases hw with rfl | rfl | rfl | rfl
    · simp only [length_leBytes]
      decide
    · simp only [length_leBytes]
      decide
    · simpa only [hcut] using hid
    · simp only [PMEMoid.length_toBytes]
      decide

end Overrun

/-- No id is rejected: nothing on the way to `_add` looks at its length. -/
theorem not_rejectsId (hash : Bytes → ℕ) (id : Bytes) : ¬RejectsId hash id := by
  intro h
  refine h PMDKHashtableStorage.created
    (.store id [] (some ⟨.null, []⟩) (some ⟨.null, []⟩)) [] rfl ?_ rfl
  rintro b e ⟨⟩
  exact ⟨rfl, rfl⟩

/-- **The layout of an entry, for ids of any length.** All fields read back as they
were given, the links are untouched and nothing outside the entry is written,
exactly when the part of the id behind byte 512 is the beginning of the length
and the OID that belong there: for every id that fits, and for a longer one only
by that coincidence. -/
theorem keepsLayout_iff_spill (hash : Bytes → ℕ) (id : Bytes) (len : UInt64) (data : PMEMoid) :
    KeepsLayout hash id len data ↔
      id.drop idRoom <+: leBytes 8 len.toNat ++ data.toBytes := by
  have hiff (raw : Bytes) (hraw : raw.length = structSize) :
      RoundTrips (entryArgs id len data) raw ↔
        id.drop idRoom <+: behindId (entryArgs id len data) :=
    roundTrips_iff_spill hraw rfl len.toNat_lt
  constructor
  · rintro (hreject | hkeeps)
    · exact absurd hreject (not_rejectsId hash id)
    · have hzero : (List.replicate structSize (0 : UInt8)).length = structSize :=
        List.length_replicate
      exact (hiff _ hzero).mp (hkeeps _ hzero)
  · intro hprefix
    exact Or.inr fun raw hraw => (hiff raw hraw).mpr hprefix

/-- An id of 513 bytes `a` records a length of 97 for an empty block. -/
theorem long_id_spills :
    ¬KeepsLayout (fun _ => 0) (List.replicate 513 97) 0 PMEMoid.null := by
  have hspill : (List.replicate 513 (97 : UInt8)).drop idRoom = [97] := List.drop_replicate
  rintro (hreject | hkeeps)
  · exact not_rejectsId _ _ hreject
  · have hraw : (List.replicate structSize (0 : UInt8)).length = structSize :=
      List.length_replicate
    have hprefix := (roundTrips_iff_spill hraw rfl (UInt64.toNat_lt 0)).mp (hkeeps _ hraw)
    rw [entryArgs, hspill] at hprefix
    revert hprefix
    decide

end Pmemcpy
