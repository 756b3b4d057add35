import Pmemcpy.Files.Reads
import Pmemcpy.Memcpy.Dimensions
import Pmemcpy.Serialize.StoredBytes

/-!
# Loading an array

No `_deserialize` looks at the dimensions it is given: it copies as many elements
as there are in the message, or as many bytes as there are in the buffer. So a
`load` respects the dimensions of its caller exactly if they are the ones of the
array that is stored.
-/

namespace Pmemcpy

open Lib

/-- The readers of both serializers. `get##CT` and `get##CT##Arr` of a packed message are
given; none of the accessors is told for how many elements the caller has room. -/
def messageReader (packed packedArr : ElemType → Bytes → Except KjException Bytes)
    (behind : Memory) : MessageReader where
  packed T target v :=
    match target with
    | .scalar => packed T v
    | .array _ => packedArr T v
  flat T target v :=
    (CapnProtoNoCompressSerializer.decode T v.length target).run (.holding v behind)

/-- `load` of an array with these dimensions. -/
def PMEM.loadArray (hash : Bytes → ℕ) (ser : SerializerType) (useMmap : Bool) (T : ElemType)
    (σ : Storage) (id : Bytes) (reader : MessageReader) (dims : Dimensions) (a : Answers) :
    Except Failure Bytes × Storage :=
  PMEM.load hash ser useMmap T σ id reader (.array dims.count.toNat) a

/-- The message of the array is stored under the id, and what is behind it in its buffer. -/
def KeepsArray (hash : Bytes → ℕ) (ser : SerializerType) (T : ElemType) (σ : Storage) (id : Bytes)
    (count : ℕ) (elems : Bytes) : Prop :=
  ∃ out rest, Encodes ser T count elems out ∧ (ser = .noSerializer → rest = []) ∧
    σ.Contains hash id (out ++ rest)

/-- `FilesystemPMDKStorage` has to map an empty file. -/
def Storage.MapsEmpty (σ : Storage) (useMmap : Bool) (v : Bytes) : Prop :=
  useMmap = true ∧ v = [] ∧ ∃ s, σ = .files .pmdkFs s

/-- No element is written from number `n` on, and where a `load` returns normally, all
elements below have been written, as they were stored. -/
structure RespectsDims (T : ElemType) (n : ℕ) (elems : Bytes) (result : Except Failure Bytes) :
    Prop where
  within : ∀ dst, result = .ok dst → dst.length ≤ T.sizeof * n
  written : ∀ dst, result = .ok dst →
    T.sizeof * n ≤ dst.length ∧ dst.take (T.sizeof * n) = elems.take (T.sizeof * n)

section Loads

variable {hash : Bytes → ℕ} {ser : SerializerType} {useMmap : Bool} {T : ElemType} {σ : Storage}
  {id v : Bytes} {count : ℕ} {elems out : Bytes} {a : Answers}
  {packed packedArr : ElemType → Bytes → Except KjException Bytes} {behind : Memory}

/-- The flat message is read back, and the packed one if its reader does. -/
theorem messageReader_reads (helems : elems.length = T.sizeof * count)
    (hpacked : ∀ rest,
      packedArr T (writePackedMessage (arraySegments T count elems) ++ rest) = .ok elems) :
    (messageReader packed packedArr behind).Reads T (.array count elems) := by
  intro segments rest hbuild
  by_cases hlong : 2 ^ 29 ≤ count
  · rw [buildMessage, if_pos hlong] at hbuild
    cases hbuild
  · rw [buildMessage, if_neg hlong] at hbuild
    obtain rfl : arraySegments T count elems = segments := Except.ok.inj hbuild
    refine ⟨hpacked rest, ?_⟩
    refine run_deserializeArray (not_le.mp hlong) helems (Memory.begins_holding _ _ _) ?_ count
    rw [List.length_append]
    omega

/-- What is decoded does not depend on the dimensions that the caller asks for. -/
theorem deserialize_dims (ser : SerializerType) (T : ElemType) (n k : ℕ) (v : Bytes) :
    ser.deserialize (messageReader packed packedArr behind) T (.array n) v =
      ser.deserialize (messageReader packed packedArr behind) T (.array k) v := by
  cases ser <;> rfl

/-- A `load` gets what the storage contains. -/
theorem PMEM.loadSerial_eq (h : σ.Contains hash id v) (ha : a.sys.Served)
    (hmaps : ¬σ.MapsEmpty useMmap v) : loadSerial hash useMmap σ id a = .ok v := by
  unfold loadSerial
  cases useMmap with
  | false => exact h.load_eq ha
  | true => exact h.find_eq ha fun s hσ hnil => hmaps ⟨rfl, hnil, s, hσ⟩

/-- A `load` throws if it has to map an empty file. -/
theorem PMEM.loadSerial_mapsEmpty (h : σ.Contains hash id v) (ha : a.sys.Served)
    (hmaps : σ.MapsEmpty useMmap v) : Throws (loadSerial hash useMmap σ id a) := by
  obtain ⟨rfl, rfl, s, rfl⟩ := hmaps
  refine ⟨.thrown .posixMmapFailed, ?_⟩
  show (FileStorage.pmdkFs.findBytes s id a.sys).1.map Prod.snd = _
  rw [pmdkFs_findBytes_eq h ha, if_pos rfl]
  rfl

/-- Only a plain copy of no elements is an empty file that has to be mapped. -/
theorem Encodes.mapsEmpty_iff (henc : Encodes ser T count elems out) {rest : Bytes}
    (hrest : ser = .noSerializer → rest = []) :
    σ.MapsEmpty useMmap (out ++ rest) ↔ ser = .noSerializer ∧ σ.MapsEmpty useMmap elems := by
  unfold Storage.MapsEmpty
  rw [List.append_eq_nil_iff]
  constructor
  · rintro ⟨hmmap, ⟨hout, _⟩, hσ⟩
    have hser : ser = .noSerializer := by
      by_contra hser
      exact henc.nonempty hser hout
    exact ⟨hser, hmmap, (henc.plain hser).1.symm.trans hout, hσ⟩
  · rintro ⟨hser, hmmap, hnil, hσ⟩
    exact ⟨hmmap, ⟨(henc.plain hser).1.trans hnil, hrest hser⟩, hσ⟩

/-- A storage keeps an array that a `store` has returned normally for. -/
theorem PMEM.store_keepsArray (henc : Encodes ser T count elems out) (hσ : σ.Reachable hash)
    (hid : σ.Accepts id) (habsent : ¬σ.Holds hash id)
    (ha : a.Possible σ (askedSize ser useMmap T (.array count elems)))
    (hok : (store hash ser useMmap T σ id (.array count elems) a).1 = .ok ())
    (hlinks : σ.Links a) :
    KeepsArray hash ser T (store hash ser useMmap T σ id (.array count elems) a).2 id count
      elems := by
  obtain ⟨rest, hcontains, hrest⟩ := store_contains henc hσ hid ha hok hlinks
  refine ⟨out, rest, henc, ?_, hcontains⟩
  intro hser
  exact (hrest hser).trans (Storage.leftover_of_absent habsent useMmap out.length)

/-- **A `load` respects the dimensions of its caller exactly if they are those of the array
that is stored**, or if it throws because the array is an empty file that has to be mapped: for
each of the serializers, every element type, every stored array, in either mode. Of Cap'n Proto
it is assumed that a packed message is read back. -/
theorem respectsDims_iff (hkeeps : KeepsArray hash ser T σ id count elems)
    (helems : elems.length = T.sizeof * count)
    (hpacked : ∀ rest,
      packedArr T (writePackedMessage (arraySegments T count elems) ++ rest) = .ok elems)
    (dims : Dimensions) (ha : a.sys.Served) :
    RespectsDims T dims.count.toNat elems
        (PMEM.loadArray hash ser useMmap T σ id (messageReader packed packedArr behind) dims a).1 ↔
      dims.count.toNat = count ∨ ser = .noSerializer ∧ σ.MapsEmpty useMmap elems := by
  obtain ⟨out, rest, henc, hrest, hcontains⟩ := hkeeps
  have hresult := PMEM.load_eq hash ser useMmap T σ id (messageReader packed packedArr behind)
    (.array dims.count.toNat) a
  rw [PMEM.loadArray, hresult, ← henc.mapsEmpty_iff hrest]
  by_cases hmaps : σ.MapsEmpty useMmap (out ++ rest)
  · obtain ⟨e, he⟩ := PMEM.loadSerial_mapsEmpty hcontains ha hmaps
    refine iff_of_true ?_ (Or.inr hmaps)
    rw [he]
    constructor
    · rintro dst ⟨⟩
    · rintro dst ⟨⟩
  · have hserial := PMEM.loadSerial_eq hcontains ha hmaps
    have hreads : (messageReader packed packedArr behind).Reads T (.array count elems) :=
      messageReader_reads helems hpacked
    have hdecoded := henc.decodes _ hreads rest hrest
    rw [deserialize_dims ser T count dims.count.toNat] at hdecoded
    have hpos : 0 < T.sizeof := by cases T <;> decide
    simp only [hserial, hdecoded, hmaps, or_false]
    constructor
    · intro h
      have hle := h.within elems rfl
      have hge := (h.written elems rfl).1
      rw [helems] at hle hge
      exact Nat.le_antisymm (Nat.le_of_mul_le_mul_left hge hpos)
        (Nat.le_of_mul_le_mul_left hle hpos)
    · intro hn
      rw [hn]
      constructor
      · rintro dst ⟨⟩
        exact helems.le
      · rintro dst ⟨⟩
        exact ⟨helems.ge, rfl⟩

end Loads

/-- Two bytes that were stored in a file are loaded into an array of two. -/
theorem respectsDims_two_bytes : RespectsDims .uint8 2 [8, 0]
    (PMEM.loadArray (fun _ => 0) .capnproto false .uint8
      (PMEM.store (fun _ => 0) .capnproto true .uint8 (.files .posix .empty) [97]
        (.array 2 [8, 0]) ⟨none, none, .served 3, []⟩).2 [97]
      (messageReader (fun _ _ => .error .malformed)
        (fun _ v => if writePackedMessage (arraySegments .uint8 2 [8, 0]) <+: v then .ok [8, 0]
          else .error .malformed) fun _ => 0)
      (Dimensions.construct .int32 [2]) ⟨none, none, .served 3, []⟩).1 := by
  have hcount : 2 < 2 ^ 29 := by decide
  have helems : ([8, 0] : Bytes).length = ElemType.uint8.sizeof * 2 := rfl
  have henc := encodes_packed hcount helems
  have hfits : FitsEstimate .capnproto .uint8 2 [8, 0] :=
    fun _ => fitsSlack_of_small rfl (Or.inl (by decide))
  have hok : (PMEM.store (fun _ => 0) .capnproto true .uint8 (.files .posix .empty) [97]
      (.array 2 [8, 0]) ⟨none, none, .served 3, []⟩).1 = .ok () :=
    (PMEM.store_mmap_ok_iff henc).mpr ⟨⟨rfl, rfl, rfl, by decide⟩, hfits⟩
  have hreachable : (Storage.files .posix .empty).Reachable fun _ => 0 := trivial
  have hid : (Storage.files .posix .empty).Accepts [97] := ⟨by decide, by decide, by decide⟩
  have habsent : ¬(Storage.files .posix .empty).Holds (fun _ => 0) [97] := by
    simp [Storage.Holds, FileSystem.empty]
  have hkeeps := PMEM.store_keepsArray henc hreachable hid habsent trivial hok trivial
  refine (respectsDims_iff hkeeps helems ?_ (Dimensions.construct .int32 [2])
    (SysAnswers.served_spec 3)).mpr (Or.inl (by decide))
  intro rest
  simp

/-- Two elements that are loaded into an array of one run over its end. -/
theorem larger_array_overruns : ¬RespectsDims .uint8 1 [8, 0]
    (PMEM.loadArray (fun _ => 0) .noSerializer false .uint8
      (PMEM.store (fun _ => 0) .noSerializer false .uint8 (.files .posix .empty) [97]
        (.array 2 [8, 0]) ⟨none, none, .served 3, []⟩).2 [97]
      (messageReader (fun _ _ => .error .malformed) (fun _ _ => .error .malformed) fun _ => 0)
      (Dimensions.construct .int32 [1]) ⟨none, none, .served 3, []⟩).1 := by
  intro hclaim
  have hwithin := hclaim.within [8, 0] rfl
  revert hwithin
  decide

end Pmemcpy
