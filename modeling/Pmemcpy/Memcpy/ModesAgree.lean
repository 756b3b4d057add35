import Pmemcpy.Memcpy.FailedStore
import Pmemcpy.Serialize.PackedRoom

/-!
# The two modes

With `use_mmap` a buffer of the estimated size is allocated first and serialized
into, without it the message is stored as long as it is. Both store an array that
either mode reads back, unless the message outgrows its estimate, a file would be
empty, or the storage is not granted the same.
-/

namespace Pmemcpy

open Lib PMDKHashtableStorage

/-! ### The message of an array -/

/-- The serializer cannot make a list of so many elements. -/
def TooLong (ser : SerializerType) (count : ℕ) : Prop := ser ≠ .noSerializer ∧ 2 ^ 29 ≤ count

/-- The message is no longer than `est_encoded_size` of the array. -/
def FitsEstimate (ser : SerializerType) (T : ElemType) (count : ℕ) (elems : Bytes) : Prop :=
  ser = .capnproto → FitsSlack T count elems

/-- What a serializer makes of an array, in a buffer of its own and in one of the
estimated size. -/
structure Encodes (ser : SerializerType) (T : ElemType) (count : ℕ) (elems out : Bytes) :
    Prop where
  serialize : ser.serialize T (.array count elems) = .ok out
  fits : FitsEstimate ser T count elems →
    ser.serializeInto T (PMEM.bufferSize ser T (.array count elems)) (.array count elems) = .ok out
  full : ¬FitsEstimate ser T count elems →
    ser.serializeInto T (PMEM.bufferSize ser T (.array count elems)) (.array count elems) =
      .error .arrayFull
  length_le : FitsEstimate ser T count elems →
    out.length ≤ PMEM.bufferSize ser T (.array count elems)
  plain : ser = .noSerializer →
    out = elems ∧ PMEM.bufferSize ser T (.array count elems) = elems.length
  nonempty : ser ≠ .noSerializer → out ≠ []
  decodes : ∀ reader : MessageReader, reader.Reads T (.array count elems) →
    ∀ rest, (ser = .noSerializer → rest = []) →
      ser.deserialize reader T (.array count) (out ++ rest) = .ok elems

section Message

variable {ser : SerializerType} {T : ElemType} {count : ℕ} {elems : Bytes}

/-- A message that is not packed has the bytes of its table and of its words. -/
theorem length_writeMessage (segments : List (List Word)) :
    (writeMessage segments).length =
      8 * ((segments.length + 2) / 2 + segments.flatten.length) := by
  rw [writeMessage, length_flatMap_bytes, List.length_append, length_segmentTable]

/-- The message of an array has at most 63 bytes more than its elements. -/
theorem length_writeMessage_array (T : ElemType) (count : ℕ) (elems : Bytes) :
    0 < (writeMessage (arraySegments T count elems)).length ∧
      (writeMessage (arraySegments T count elems)).length ≤ elems.length + 63 := by
  have hwords := length_wordsOf elems
  rw [length_writeMessage]
  by_cases hone : 4 + (wordsOf elems).length ≤ 1024
  · simp only [arraySegments, if_pos hone, List.length_cons, List.length_nil, List.length_append,
      List.flatten_cons, List.flatten_nil]
    omega
  · simp only [arraySegments, if_neg hone, List.length_cons, List.length_nil, List.length_append,
      List.flatten_cons, List.flatten_nil]
    omega

/-- A packed message is not empty. -/
theorem writePackedMessage_ne_nil (hcount : count < 2 ^ 29)
    (helems : elems.length = T.sizeof * count) :
    writePackedMessage (arraySegments T count elems) ≠ [] := by
  have hlength := length_writePackedMessage hcount helems
  have hwords := length_wordsOf elems
  have hsmall : elems.length < 2 ^ 32 := by
    rcases T.sizeof_cases with h | h | h | h <;> rw [h] at helems <;> omega
  have hheader := le_headerLength (n := (wordsOf elems).length) T (by omega) hcount
  intro hnil
  rw [hnil, growth] at hlength
  simp only [List.length_nil] at hlength
  omega

/-- An array that is too long makes both ways of serializing throw. -/
theorem TooLong.throws (h : TooLong ser count) (T : ElemType) (elems : Bytes) :
    ser.serialize T (.array count elems) = .error .listTooLong ∧
      ∀ room, ser.serializeInto T room (.array count elems) = .error .listTooLong := by
  have hbuild : buildMessage T (.array count elems) = .error .listTooLong := if_pos h.2
  cases ser with
  | capnproto =>
    simp [SerializerType.serialize, SerializerType.serializeInto, CapnProtoSerializer.serialize,
      CapnProtoSerializer.serializeInto, hbuild, Bind.bind, Except.bind]
  | capnprotoNocompress =>
    simp [SerializerType.serialize, SerializerType.serializeInto,
      CapnProtoNoCompressSerializer.serialize, CapnProtoNoCompressSerializer.serializeInto, hbuild,
      Bind.bind, Except.bind]
  | noSerializer => exact absurd rfl h.1

/-- A message is an encoding of an array, whether its buffer has room for it or not. -/
theorem Encodes.of_message {out : Bytes} (hser : ser ≠ .noSerializer)
    (hserial : ser.serialize T (.array count elems) = .ok out)
    (hinto : ∀ room, ser.serializeInto T room (.array count elems) = arrayOutput room out)
    (hroom : FitsEstimate ser T count elems ↔
      out.length ≤ PMEM.bufferSize ser T (.array count elems)) (hne : out ≠ [])
    (hdecodes : ∀ reader : MessageReader, reader.Reads T (.array count elems) →
      ∀ rest, ser.deserialize reader T (.array count) (out ++ rest) = .ok elems) :
    Encodes ser T count elems out where
  serialize := hserial
  fits h := by rw [hinto, arrayOutput, if_pos (hroom.mp h)]
  full h := by rw [hinto, arrayOutput, if_neg (fun hle => h (hroom.mpr hle))]
  length_le := hroom.mp
  plain h := absurd h hser
  nonempty _ := hne
  decodes reader hreader rest _ := hdecodes reader hreader rest

/-- A plain copy is an encoding, in a buffer of its size. -/
theorem encodes_plain (helems : elems.length = T.sizeof * count) (hlt : elems.length < 2 ^ 64) :
    Encodes .noSerializer T count elems elems := by
  have hbuffer : PMEM.bufferSize .noSerializer T (.array count elems) = elems.length := by
    rw [helems] at hlt ⊢
    exact Nat.mod_eq_of_lt hlt
  refine ⟨rfl, fun _ => rfl, ?_, fun _ => hbuffer.ge, fun _ => ⟨rfl, hbuffer⟩, ?_, ?_⟩
  · intro hfull
    exact absurd (fun h => by cases h) hfull
  · intro hne
    exact absurd rfl hne
  · intro reader _ rest hrest
    rw [hrest rfl, List.append_nil]
    rfl

/-- The buffer for a list that Cap'n Proto can have is 256 or 128 bytes longer than the elements. -/
theorem bufferSize_add (hcount : count < 2 ^ 29) (helems : elems.length = T.sizeof * count) :
    PMEM.bufferSize .capnproto T (.array count elems) = elems.length + 256 ∧
      PMEM.bufferSize .capnprotoNocompress T (.array count elems) = elems.length + 128 := by
  have hsmall : T.sizeof * count < 2 ^ 33 := by
    rcases T.sizeof_cases with h | h | h | h <;> rw [h] <;> omega
  have hsize : (T.sizeof * count) % 2 ^ 64 = elems.length := by
    rw [helems]
    exact Nat.mod_eq_of_lt (by omega)
  unfold PMEM.bufferSize Source.count
  dsimp only
  rw [hsize]
  exact ⟨Nat.mod_eq_of_lt (by omega), Nat.mod_eq_of_lt (by omega)⟩

/-- A packed message is an encoding, in a buffer that it fits. -/
theorem encodes_packed (hcount : count < 2 ^ 29) (helems : elems.length = T.sizeof * count) :
    Encodes .capnproto T count elems (writePackedMessage (arraySegments T count elems)) := by
  have hbuild : buildMessage T (.array count elems) = .ok (arraySegments T count elems) :=
    if_neg (not_le.mpr hcount)
  have hlength := length_writePackedMessage hcount helems
  have hbuffer := (bufferSize_add hcount helems).1
  refine .of_message SerializerType.noConfusion ?_ ?_ ?_
    (writePackedMessage_ne_nil hcount helems) ?_
  · simp [SerializerType.serialize, CapnProtoSerializer.serialize, hbuild, Bind.bind,
      Except.bind, pure, Except.pure]
  · intro room
    simp [SerializerType.serializeInto, CapnProtoSerializer.serializeInto, hbuild, Bind.bind,
      Except.bind]
  · have hslack : FitsEstimate .capnproto T count elems ↔ FitsSlack T count elems :=
      ⟨fun h => h rfl, fun h _ => h⟩
    rw [hslack, fitsSlack_iff, hbuffer]
    omega
  · intro reader hreader rest
    exact (hreader _ rest hbuild).1

/-- A message that is not packed is an encoding, and always fits its buffer. -/
theorem encodes_flat (hcount : count < 2 ^ 29) (helems : elems.length = T.sizeof * count) :
    Encodes .capnprotoNocompress T count elems (writeMessage (arraySegments T count elems)) := by
  have hbuild : buildMessage T (.array count elems) = .ok (arraySegments T count elems) :=
    if_neg (not_le.mpr hcount)
  have hlength := length_writeMessage_array T count elems
  have hbuffer := (bufferSize_add hcount helems).2
  refine .of_message SerializerType.noConfusion ?_ ?_ ?_ (List.length_pos_iff.mp hlength.1) ?_
  · simp [SerializerType.serialize, CapnProtoNoCompressSerializer.serialize, hbuild, Bind.bind,
      Except.bind, pure, Except.pure]
  · intro room
    simp [SerializerType.serializeInto, CapnProtoNoCompressSerializer.serializeInto, hbuild,
      Bind.bind, Except.bind]
  · rw [hbuffer]
    exact iff_of_true SerializerType.noConfusion (by omega)
  · intro reader hreader rest
    exact (hreader _ rest hbuild).2

/-- Every array that is not too long has an encoding. -/
theorem exists_encoding (h : ¬TooLong ser count) (helems : elems.length = T.sizeof * count)
    (hlt : elems.length < 2 ^ 64) : ∃ out, Encodes ser T count elems out := by
  have hcount (hser : ser ≠ .noSerializer) : count < 2 ^ 29 := by
    by_contra hno
    exact h ⟨hser, not_lt.mp hno⟩
  cases ser with
  | capnproto => exact ⟨_, encodes_packed (hcount SerializerType.noConfusion) helems⟩
  | capnprotoNocompress => exact ⟨_, encodes_flat (hcount SerializerType.noConfusion) helems⟩
  | noSerializer => exact ⟨_, encodes_plain helems hlt⟩

/-- The message of an array that fits is empty, and its buffer too, only if the
elements are copied and there are none. -/
theorem Encodes.nonempty_iff {out : Bytes} (h : Encodes ser T count elems out)
    (hfits : FitsEstimate ser T count elems) :
    (PMEM.bufferSize ser T (.array count elems) ≠ 0 ↔ out ≠ []) ∧
      (out ≠ [] ↔ (ser = .noSerializer → elems ≠ [])) := by
  by_cases hser : ser = .noSerializer
  · obtain ⟨rfl, hsize⟩ := h.plain hser
    rw [hsize, ← List.length_pos_iff, Nat.pos_iff_ne_zero]
    exact ⟨Iff.rfl, fun hne _ => hne, fun hne => hne hser⟩
  · have hne := h.nonempty hser
    have hpos := List.length_pos_iff.mpr hne
    have hle := h.length_le hfits
    exact ⟨iff_of_true (by omega) hne, iff_of_true hne fun h => absurd h hser⟩

end Message

/-! ### What the storages grant -/

namespace Storage

/-- PMDK or the system grants what an `alloc` of `size` bytes asks for; a mapping of
length zero is never granted. -/
def GrantsAlloc (size : ℕ) (a : Answers) : Storage → Prop
  | hashtable _ => a.block.isSome
  | files .posix _ =>
    a.sys.openFd.isSome ∧ a.sys.ftruncate = true ∧ a.sys.mmap = true ∧ size ≠ 0
  | files .pmdkFs _ => a.sys.pmemMap = .mapped ∧ size ≠ 0

/-- PMDK or the system grants what a `store` of `size` bytes asks for. -/
def GrantsStore (size : ℕ) (a : Answers) : Storage → Prop
  | hashtable _ => a.block.isSome
  | files _ _ => a.sys.openFd.isSome ∧ a.sys.write.count size = some size

/-- The list entry is allocated, where there is one: the call does not throw without it. -/
def Links (a : Answers) : Storage → Prop
  | hashtable _ => a.entry.isSome
  | files _ _ => True

/-- What a `store` of so many bytes leaves of the file that was there: an `alloc` gives the
file its size. -/
def leftover (id : Bytes) (useMmap : Bool) (length : ℕ) : Storage → Bytes
  | hashtable _ => []
  | files _ s => if useMmap then [] else (s.contents (cStr id)).drop length

/-- What the last of the entries of the id points to, or the contents of its file. -/
def Contains (hash : Bytes → ℕ) (id v : Bytes) : Storage → Prop
  | hashtable s => s.Wf hash ∧ ∃ vs, s.pool.stack hash id = v :: vs
  | files _ s => s.files (cStr id) = some v

/-- Whatever is read under the id is `v`, in either way. -/
def Keeps (hash : Bytes → ℕ) (σ : Storage) (id v : Bytes) : Prop :=
  ∀ a : Answers, a.sys.Served →
    (σ.find hash id a).1 = .ok v ∧ (σ.load hash id a).1 = .ok v

section Grants

variable {hash : Bytes → ℕ} {σ : Storage} {id v : Bytes} {a : Answers}

/-- `alloc` returns normally exactly if it is granted. -/
theorem alloc_ok_iff (hash : Bytes → ℕ) (id : Bytes) (size : ℕ) :
    (∃ buf, (σ.alloc hash id a size).1 = .ok buf) ↔ σ.GrantsAlloc size a := by
  cases σ with
  | hashtable s =>
    cases hblock : a.block with
    | none => simp [alloc, GrantsAlloc, hblock, alloc_refused, Except.map]
    | some b => simp [alloc, GrantsAlloc, hblock, PMDKHashtableStorage.alloc, stralloc,
        Pool.pobjAlloc, Except.map]
  | files S s =>
    cases S with
    | posix =>
      unfold alloc FileStorage.alloc PosixStorage.alloc GrantsAlloc
      cases hopen : a.sys.openFd with
      | none => simp [FileSystem.openCreate, Except.map, hopen]
      | some fd =>
        cases hresize : a.sys.ftruncate with
        | false => simp [FileSystem.openCreate, FileSystem.ftruncate, Except.map, hopen, hresize]
        | true =>
          by_cases hmap : a.sys.mmap = true ∧ size ≠ 0
          · simp [FileSystem.openCreate, FileSystem.ftruncate, FileSystem.mmap, Except.map, hopen,
              hresize, hmap]
          · simp [FileSystem.openCreate, FileSystem.ftruncate, FileSystem.mmap, Except.map, hopen,
              hresize, hmap]
    | pmdkFs =>
      unfold alloc FileStorage.alloc FilesystemPMDKStorage.alloc FileSystem.pmemMapCreate
        GrantsAlloc
      by_cases hsize : size = 0
      · simp [hsize, Except.map]
      · cases hend : a.sys.pmemMap <;> simp [hsize, Except.map, hend]

/-- `store` returns normally exactly if it is granted. -/
theorem store_ok_iff (src : Bytes) :
    (σ.store hash id a src).1 = .ok () ↔ σ.GrantsStore src.length a := by
  cases σ with
  | hashtable s =>
    cases hblock : a.block with
    | none => simp [store, GrantsStore, hblock, store_refused]
    | some b => simp [store, GrantsStore, hblock, store_returns]
  | files S s =>
    unfold store GrantsStore
    dsimp only
    rw [S.store_eq_storeFile, storeFile]
    cases hopen : a.sys.openFd with
    | none => simp [FileSystem.openCreate]
    | some fd =>
      cases hn : a.sys.write.count src.length with
      | none => simp [FileSystem.openCreate, FileSystem.write, hn]
      | some n =>
        by_cases hlen : src.length = n
        · simp [FileSystem.openCreate, FileSystem.write, hn, ← hlen]
        · simp [FileSystem.openCreate, FileSystem.write, hn, hlen, Ne.symm hlen]

/-- No file is mapped to be empty. -/
theorem GrantsAlloc.size_ne_zero {S : FileStorage} {s : FileSystem} {size : ℕ}
    (h : (files S s).GrantsAlloc size a) : size ≠ 0 := by
  cases S with
  | posix => exact h.2.2.2
  | pmdkFs => exact h.2

/-- Nothing is left under an id that was not stored. -/
theorem leftover_of_absent (h : ¬σ.Holds hash id) (useMmap : Bool) (length : ℕ) :
    σ.leftover id useMmap length = [] := by
  cases σ with
  | hashtable s => rfl
  | files S s =>
    have hnone : s.files (cStr id) = none := Option.not_isSome_iff_eq_none.mp h
    have hcontents : s.contents (cStr id) = [] := by
      rw [FileSystem.contents, hnone]
      rfl
    rw [leftover, hcontents, List.drop_nil, ite_self]

/-- `load` gives what the storage contains. -/
theorem Contains.load_eq (h : σ.Contains hash id v) (ha : a.sys.Served) :
    (σ.load hash id a).1 = .ok v := by
  cases σ with
  | hashtable s =>
    obtain ⟨hwf, vs, hstack⟩ := h
    rw [load, hwf.load_eq, hstack]
    rfl
  | files S s => exact S.load_eq h ha

/-- `find` gives what the storage contains, if this is no empty file that `FilesystemPMDKStorage`
has to map. -/
theorem Contains.find_eq (h : σ.Contains hash id v) (ha : a.sys.Served)
    (hne : ∀ s, σ = files .pmdkFs s → v ≠ []) : (σ.find hash id a).1 = .ok v := by
  cases σ with
  | hashtable s =>
    obtain ⟨hwf, vs, hstack⟩ := h
    rw [find, hwf.findBytes_eq, hstack]
    rfl
  | files S s =>
    unfold find
    dsimp only
    cases S with
    | posix =>
      rw [posix_findBytes_eq h ha]
      rfl
    | pmdkFs =>
      rw [pmdkFs_findBytes_eq h ha, if_neg (hne s rfl)]
      rfl

/-- What a storage contains is kept, if no file is empty. -/
theorem Contains.keeps (h : σ.Contains hash id v) (hne : ∀ S s, σ = files S s → v ≠ []) :
    Keeps hash σ id v := by
  intro a ha
  exact ⟨h.find_eq ha fun s => hne .pmdkFs s, h.load_eq ha⟩

end Grants

end Storage

/-! ### What a `store` leaves -/

namespace PMEM

variable {hash : Bytes → ℕ} {ser : SerializerType} {useMmap : Bool} {T : ElemType} {σ : Storage}
  {id : Bytes} {count : ℕ} {elems out : Bytes} {a : Answers}

/-- In mmap mode a `store` returns normally exactly if the buffer is granted and the
message fits it. -/
theorem store_mmap_ok_iff (henc : Encodes ser T count elems out) :
    (store hash ser true T σ id (.array count elems) a).1 = .ok () ↔
      σ.GrantsAlloc (bufferSize ser T (.array count elems)) a ∧
        FitsEstimate ser T count elems := by
  rw [← Storage.alloc_ok_iff hash id]
  cases halloc : σ.alloc hash id a (bufferSize ser T (.array count elems)) with
  | mk result τ =>
    cases result with
    | error e => simp [store, halloc]
    | ok buf =>
      by_cases hfits : FitsEstimate ser T count elems
      · simp [store, halloc, henc.fits hfits, hfits]
      · simp [store, halloc, henc.full hfits, hfits]

/-- In copy mode it does exactly if the `store` of the message is granted. -/
theorem store_copy_ok_iff (henc : Encodes ser T count elems out) :
    (store hash ser false T σ id (.array count elems) a).1 = .ok () ↔
      σ.GrantsStore out.length a := by
  simp [store, henc.serialize, Storage.store_ok_iff]

/-- An array that is too long is not stored in either mode. -/
theorem store_tooLong (h : TooLong ser count) :
    (store hash ser useMmap T σ id (.array count elems) a).1 ≠ .ok () := by
  obtain ⟨hserial, hinto⟩ := h.throws T elems
  cases useMmap with
  | false => simp [store, hserial]
  | true =>
    cases halloc : σ.alloc hash id a (bufferSize ser T (.array count elems)) with
    | mk result τ => cases result <;> simp [store, halloc, hinto]

/-- A `store` that returns normally has inserted the message into the hashtable, with
what is behind it in the buffer. -/
theorem store_hashtable_inserts {s : PMDKHashtableStorage}
    (henc : Encodes ser T count elems out) (hid : id.length ≤ PMEMPointer.idRoom)
    (ha : a.Possible (.hashtable s) (askedSize ser useMmap T (.array count elems)))
    (hok : (store hash ser useMmap T (.hashtable s) id (.array count elems) a).1 = .ok ()) :
    ∃ t b rest, (store hash ser useMmap T (.hashtable s) id (.array count elems) a).2 =
        .hashtable t ∧ a.block = some b ∧
      FittingStep hash s (.store id (out ++ rest) (some b) a.entry) t ∧
      (ser = .noSerializer → rest = []) := by
  cases hblock : a.block with
  | none =>
    cases useMmap with
    | false =>
      rw [store_copy_ok_iff henc, Storage.GrantsStore, hblock] at hok
      cases hok
    | true =>
      rw [store_mmap_ok_iff henc, Storage.GrantsAlloc, hblock] at hok
      cases hok.1
  | some b =>
    obtain ⟨hfresh, hentry⟩ := ha
    rw [hblock] at hfresh hentry
    cases useMmap with
    | false =>
      have hsize : askedSize ser false T (.array count elems) = out.length := by
        simp [askedSize, henc.serialize]
      rw [hsize] at hfresh
      refine ⟨_, b, [], ?_, rfl, ⟨⟨⟨?_, Pool.canAnswer_pobjAlloc hentry⟩, rfl⟩, ?_⟩, fun _ => rfl⟩
      · simp [store, henc.serialize, Storage.store, hblock, Call.exec]
      · rwa [List.append_nil]
      · rintro id' ⟨⟩
        exact hid
    | true =>
      obtain ⟨_, hfits⟩ := (store_mmap_ok_iff henc).mp hok
      have hfresh' : s.pool.Fresh (bufferSize ser T (.array count elems)) b := hfresh
      obtain ⟨t, halloc, hfill⟩ := alloc_fill hash s hid hfresh' hentry
      have hstep := hfill out (henc.length_le hfits)
      rw [splice_zero] at hstep
      refine ⟨_, b, _, ?_, rfl, hstep, ?_⟩
      · simp [store, Storage.alloc, hblock, halloc, Except.map, henc.fits hfits, Storage.fill]
      · intro hser
        obtain ⟨rfl, hsize⟩ := henc.plain hser
        rw [List.drop_eq_nil_iff, ← hsize]
        exact hfresh'.raw.le

/-- A `store` that returns normally has put the message into the file, with zeros behind it
or with what is left of the old contents. -/
theorem store_files_writes {S : FileStorage} {s : FileSystem}
    (henc : Encodes ser T count elems out)
    (hok : (store hash ser useMmap T (.files S s) id (.array count elems) a).1 = .ok ()) :
    ∃ t rest, (store hash ser useMmap T (.files S s) id (.array count elems) a).2 = .files S t ∧
      t.files (cStr id) = some (out ++ rest) ∧
      (ser = .noSerializer → rest = (Storage.files S s).leftover id useMmap out.length) := by
  cases useMmap with
  | false =>
    have heffect := S.store_effect s id out a.sys
    have hstore : (S.store s id a.sys out).1 = .ok () := by
      simpa [store, henc.serialize, Storage.store] using hok
    rw [hstore] at heffect
    refine ⟨(S.store s id a.sys out).2, (s.contents (cStr id)).drop out.length, ?_, ?_,
      fun _ => rfl⟩
    · simp [store, henc.serialize, Storage.store]
    · generalize (S.store s id a.sys out).2.files = files at heffect ⊢
      cases heffect
      rw [FileSystem.files_put_self, splice_zero]
  | true =>
    obtain ⟨_, hfits⟩ := (store_mmap_ok_iff henc).mp hok
    cases halloc : (S.alloc s id a.sys (bufferSize ser T (.array count elems))).1 with
    | error e => simp [store, Storage.alloc, halloc, Except.map] at hok
    | ok buf =>
      have hfile := congrFun ((FileStorage.alloc_ok halloc).2 out) (cStr id)
      rw [FileSystem.files_put_self, splice_zero] at hfile
      refine ⟨_, _, ?_, hfile, ?_⟩
      · simp [store, Storage.alloc, halloc, Except.map, henc.fits hfits, Storage.fill]
      · intro hser
        obtain ⟨rfl, hsize⟩ := henc.plain hser
        have hnone : (Storage.files S s).leftover id true out.length = [] := rfl
        rw [hnone, List.drop_eq_nil_iff, length_resize, hsize]

/-- Bytes that are kept under an id are decoded by every `load`. -/
theorem load_of_keeps {v dst : Bytes} {reader : MessageReader} {target : Target}
    (h : σ.Keeps hash id v) (hv : ser.deserialize reader T target v = .ok dst)
    (ha : a.sys.Served) : (load hash ser useMmap T σ id reader target a).1 = .ok dst := by
  obtain ⟨hfind, hload⟩ := h a ha
  unfold load
  cases useMmap with
  | false => simp [hload, hv]
  | true => simp [hfind, hv]

/-- A `store` that returns normally, and whose entry is linked, puts the message into the
storage, and leaves what is behind it. -/
theorem store_contains (henc : Encodes ser T count elems out) (hσ : σ.Reachable hash)
    (hid : σ.Accepts id) (ha : a.Possible σ (askedSize ser useMmap T (.array count elems)))
    (hok : (store hash ser useMmap T σ id (.array count elems) a).1 = .ok ())
    (hlinks : σ.Links a) :
    ∃ rest, (store hash ser useMmap T σ id (.array count elems) a).2.Contains hash id
        (out ++ rest) ∧ (ser = .noSerializer → rest = σ.leftover id useMmap out.length) := by
  cases σ with
  | hashtable s =>
    obtain ⟨calls, hrun⟩ := hσ
    have hwf := fitting_run_wf hrun
    obtain ⟨t, b, rest, hresult, _, hstep, hrest⟩ := store_hashtable_inserts henc hid.room ha hok
    obtain ⟨e, he⟩ := Option.isSome_iff_exists.mp hlinks
    have hstack := hwf.stack_insertion hstep id
    rw [he, if_pos ⟨⟨rfl, rfl⟩, rfl, SameKey.refl id⟩] at hstack
    refine ⟨rest, ?_, hrest⟩
    rw [hresult]
    exact ⟨hwf.step hstep, _, hstack⟩
  | files S s =>
    obtain ⟨t, rest, hresult, hfile, hrest⟩ := store_files_writes henc hok
    refine ⟨rest, ?_, hrest⟩
    rw [hresult]
    exact hfile

/-- A `store` that returns and whose entry is linked keeps the message and what is behind it, if no
file is to be empty. -/
theorem store_keeps (henc : Encodes ser T count elems out) (hσ : σ.Reachable hash)
    (hid : σ.Accepts id) (ha : a.Possible σ (askedSize ser useMmap T (.array count elems)))
    (hok : (store hash ser useMmap T σ id (.array count elems) a).1 = .ok ())
    (hlinks : σ.Links a) (hne : ∀ S s, σ = .files S s → out ≠ []) :
    ∃ rest, (store hash ser useMmap T σ id (.array count elems) a).2.Keeps hash id (out ++ rest) ∧
      (ser = .noSerializer → rest = σ.leftover id useMmap out.length) := by
  obtain ⟨rest, hcontains, hrest⟩ := store_contains henc hσ hid ha hok hlinks
  refine ⟨rest, hcontains.keeps ?_, hrest⟩
  intro S t hfiles
  cases σ with
  | hashtable s =>
    obtain ⟨u, _, _, hresult, _⟩ := store_hashtable_inserts henc hid.room ha hok
    rw [hresult] at hfiles
    cases hfiles
  | files S' s => exact fun hnil => hne S' s rfl (List.append_eq_nil_iff.mp hnil).1

/-- A `store` that returns normally without linking its entry has stored nothing. -/
theorem store_unlinked (henc : Encodes ser T count elems out) (hσ : σ.Reachable hash)
    (hid : σ.Accepts id) (habsent : ¬σ.Holds hash id)
    (ha : a.Possible σ (askedSize ser useMmap T (.array count elems)))
    (hok : (store hash ser useMmap T σ id (.array count elems) a).1 = .ok ())
    (hlinks : ¬σ.Links a) (reader : MessageReader) (target : Target) (b : Answers) :
    (load hash ser false T (store hash ser useMmap T σ id (.array count elems) a).2 id reader target
      b).1 = .error (.thrown .pmdkCantFindKey) := by
  cases σ with
  | hashtable s =>
    obtain ⟨calls, hrun⟩ := hσ
    have hwf := fitting_run_wf hrun
    obtain ⟨t, _, rest, hresult, _, hstep, _⟩ := store_hashtable_inserts henc hid.room ha hok
    have hstack := hwf.stack_insertion hstep id
    rw [if_neg fun h => hlinks h.1.2, not_not.mp habsent] at hstack
    rw [hresult]
    simp [load, Storage.load, (hwf.step hstep).load_eq, hstack, outcome]
  | files S s => exact absurd trivial hlinks

end PMEM

/-! ### The agreement -/

/-- On an array, a `store` in one mode returns normally exactly if one in the other
does, and every `load` after either gives back the elements. -/
structure ModesAgree (hash : Bytes → ℕ) (ser : SerializerType) (T : ElemType) (σ : Storage)
    (id : Bytes) (count : ℕ) (elems : Bytes) (reader : MessageReader) (a : Bool → Answers) :
    Prop where
  stores : (PMEM.store hash ser true T σ id (.array count elems) (a true)).1 = .ok () ↔
    (PMEM.store hash ser false T σ id (.array count elems) (a false)).1 = .ok ()
  loads : ∀ stored loaded,
    (PMEM.store hash ser stored T σ id (.array count elems) (a stored)).1 = .ok () →
      ∀ b : Answers, b.sys.Served →
        (PMEM.load hash ser loaded T
          (PMEM.store hash ser stored T σ id (.array count elems) (a stored)).2 id reader
          (.array count) b).1 = .ok elems

/-- In mmap mode the buffer is granted and the message fits it. -/
def MmapGranted (ser : SerializerType) (T : ElemType) (σ : Storage) (count : ℕ) (elems : Bytes)
    (a : Answers) : Prop :=
  σ.GrantsAlloc (PMEM.bufferSize ser T (.array count elems)) a ∧ FitsEstimate ser T count elems

/-- In copy mode the message is granted its own length. -/
def CopyGranted (ser : SerializerType) (T : ElemType) (σ : Storage) (count : ℕ) (elems : Bytes)
    (a : Answers) : Prop :=
  ∀ out, ser.serialize T (.array count elems) = .ok out → σ.GrantsStore out.length a

/-- Neither mode can serialize the array, or both modes are granted what they need or
neither is, the list entry included. -/
def AgreeWhen (ser : SerializerType) (T : ElemType) (σ : Storage) (count : ℕ) (elems : Bytes)
    (a : Bool → Answers) : Prop :=
  TooLong ser count ∨
    (MmapGranted ser T σ count elems (a true) ↔ CopyGranted ser T σ count elems (a false)) ∧
      (MmapGranted ser T σ count elems (a true) → ∀ useMmap, σ.Links (a useMmap))

/-- PMDK or the system serves every request. -/
def Storage.Serves (a : Answers) : Storage → Prop
  | hashtable _ => a.block.isSome ∧ a.entry.isSome
  | files _ _ => a.sys.Served

/-- Where every request is served, the condition is on the array only. -/
theorem agreeWhen_iff_of_served {ser : SerializerType} {T : ElemType} {σ : Storage} {count : ℕ}
    {elems : Bytes} {a : Bool → Answers} (helems : elems.length = T.sizeof * count)
    (hlt : elems.length < 2 ^ 64) (ha : ∀ useMmap, σ.Serves (a useMmap)) :
    AgreeWhen ser T σ count elems a ↔ TooLong ser count ∨ FitsEstimate ser T count elems ∧
      ∀ S s, σ = .files S s → ser = .noSerializer → elems ≠ [] := by
  by_cases hlong : TooLong ser count
  · exact iff_of_true (Or.inl hlong) (Or.inl hlong)
  · obtain ⟨out, henc⟩ := exists_encoding hlong helems hlt
    have hlinks (useMmap : Bool) : σ.Links (a useMmap) := by
      cases σ with
      | hashtable s => exact (ha useMmap).2
      | files S s => trivial
    have hcopy : CopyGranted ser T σ count elems (a false) := by
      intro serial _
      cases σ with
      | hashtable s => exact (ha false).1
      | files S s =>
        have hserved : (a false).sys.Served := ha false
        exact ⟨hserved.openFd, by rw [hserved.write]; rfl⟩
    have hmmap : MmapGranted ser T σ count elems (a true) ↔ FitsEstimate ser T count elems ∧
        ∀ S s, σ = .files S s → ser = .noSerializer → elems ≠ [] := by
      rw [MmapGranted, and_comm]
      apply and_congr_right
      intro hfits
      cases σ with
      | hashtable s => exact iff_of_true (ha true).1 fun S s h => by cases h
      | files S s =>
        have hserved : (a true).sys.Served := ha true
        obtain ⟨hsize, hnil⟩ := henc.nonempty_iff hfits
        have hgrants : (Storage.files S s).GrantsAlloc
            (PMEM.bufferSize ser T (.array count elems)) (a true) ↔
            PMEM.bufferSize ser T (.array count elems) ≠ 0 := by
          cases S with
          | posix => simp [Storage.GrantsAlloc, hserved.openFd, hserved.ftruncate, hserved.mmap]
          | pmdkFs => simp [Storage.GrantsAlloc, hserved.pmemMap]
        rw [hgrants, hsize, hnil]
        exact ⟨fun h _ _ _ => h, fun h => h S s rfl⟩
    rw [AgreeWhen, ← hmmap, iff_true_right hcopy]
    constructor
    · rintro (h | h)
      · exact Or.inl h
      · exact Or.inr h.1
    · rintro (h | h)
      · exact Or.inl h
      · exact Or.inr ⟨h, fun _ => hlinks⟩

section Agreement

variable {hash : Bytes → ℕ} {ser : SerializerType} {T : ElemType} {σ : Storage} {id : Bytes}
  {count : ℕ} {elems : Bytes} {reader : MessageReader} {a : Bool → Answers}

/-- The modes agree on an array that a serializer takes exactly if both are granted what
they need, or neither is. -/
theorem modesAgree_iff_of_encodes {out : Bytes} (henc : Encodes ser T count elems out)
    (hσ : σ.Reachable hash) (hid : σ.Accepts id) (habsent : ¬σ.Holds hash id)
    (hreader : reader.Reads T (.array count elems))
    (ha : ∀ useMmap, (a useMmap).Possible σ (PMEM.askedSize ser useMmap T (.array count elems))) :
    ModesAgree hash ser T σ id count elems reader a ↔
      (MmapGranted ser T σ count elems (a true) ↔ CopyGranted ser T σ count elems (a false)) ∧
        (MmapGranted ser T σ count elems (a true) → ∀ useMmap, σ.Links (a useMmap)) := by
  have hmmap : (PMEM.store hash ser true T σ id (.array count elems) (a true)).1 = .ok () ↔
      MmapGranted ser T σ count elems (a true) := PMEM.store_mmap_ok_iff henc
  have hcopy : (PMEM.store hash ser false T σ id (.array count elems) (a false)).1 = .ok () ↔
      CopyGranted ser T σ count elems (a false) := by
    rw [PMEM.store_copy_ok_iff henc, CopyGranted, henc.serialize]
    simp
  constructor
  · rintro ⟨hstores, hloads⟩
    rw [hmmap, hcopy] at hstores
    refine ⟨hstores, ?_⟩
    intro hgranted useMmap
    by_contra hno
    have hok : (PMEM.store hash ser useMmap T σ id (.array count elems) (a useMmap)).1 =
        .ok () := by
      cases useMmap with
      | false => exact hcopy.mpr (hstores.mp hgranted)
      | true => exact hmmap.mpr hgranted
    have hread := hloads useMmap false hok ⟨none, none, .served 3, []⟩ (SysAnswers.served_spec 3)
    rw [PMEM.store_unlinked henc hσ hid habsent (ha useMmap) hok hno] at hread
    cases hread
  · rintro ⟨hgrants, hlinks⟩
    refine ⟨by rw [hmmap, hcopy, hgrants], ?_⟩
    intro stored loaded hok b hb
    have hgranted : MmapGranted ser T σ count elems (a true) := by
      cases stored with
      | false => exact hgrants.mpr (hcopy.mp hok)
      | true => exact hmmap.mp hok
    have hne (S : FileStorage) (s : FileSystem) (hfiles : σ = .files S s) : out ≠ [] := by
      subst hfiles
      exact (henc.nonempty_iff hgranted.2).1.mp hgranted.1.size_ne_zero
    obtain ⟨rest, hkeeps, hrest⟩ := PMEM.store_keeps henc hσ hid (ha stored) hok
      (hlinks hgranted stored) hne
    have hnone := Storage.leftover_of_absent habsent stored out.length
    have hv := henc.decodes reader hreader rest fun hser => (hrest hser).trans hnone
    exact PMEM.load_of_keeps hkeeps hv hb

/-- **The mmap path and the copy path agree** on an array and an absent id exactly
under that condition: for every storage that calls can lead to, every serializer,
every element type, every array, the empty one included, and every answer of PMDK
and of the system. Where all requests are served they agree exactly on the arrays
that neither mode takes, and on those whose message fits its estimate and which no
file has to hold as nothing. -/
theorem modesAgree_iff (hσ : σ.Reachable hash) (hid : σ.Accepts id) (habsent : ¬σ.Holds hash id)
    (helems : elems.length = T.sizeof * count) (hlt : elems.length < 2 ^ 64)
    (hreader : reader.Reads T (.array count elems))
    (ha : ∀ useMmap, (a useMmap).Possible σ (PMEM.askedSize ser useMmap T (.array count elems))) :
    (ModesAgree hash ser T σ id count elems reader a ↔ AgreeWhen ser T σ count elems a) ∧
      ((∀ useMmap, σ.Serves (a useMmap)) →
        (ModesAgree hash ser T σ id count elems reader a ↔ TooLong ser count ∨
          FitsEstimate ser T count elems ∧
            ∀ S s, σ = .files S s → ser = .noSerializer → elems ≠ [])) := by
  have hagree : ModesAgree hash ser T σ id count elems reader a ↔
      AgreeWhen ser T σ count elems a := by
    by_cases hlong : TooLong ser count
    · refine iff_of_true ?_ (Or.inl hlong)
      refine ⟨iff_of_false (PMEM.store_tooLong hlong) (PMEM.store_tooLong hlong), ?_⟩
      intro stored loaded hok
      exact absurd hok (PMEM.store_tooLong hlong)
    · obtain ⟨out, henc⟩ := exists_encoding hlong helems hlt
      rw [modesAgree_iff_of_encodes henc hσ hid habsent hreader ha, AgreeWhen,
        or_iff_right hlong]
  exact ⟨hagree, fun hserved => hagree.trans (agreeWhen_iff_of_served helems hlt hserved)⟩

end Agreement

/-- A reader of the messages of one source only. -/
def MessageReader.only (T : ElemType) (src : Source) : MessageReader where
  packed T' target v :=
    match buildMessage T src with
    | .ok segments =>
      if T' = T ∧ target = src.target ∧ writePackedMessage segments <+: v then .ok src.bytes
      else .error .arrayFull
    | .error e => .error e
  flat T' target v :=
    match buildMessage T src with
    | .ok segments =>
      if T' = T ∧ target = src.target ∧ writeMessage segments <+: v then .ok src.bytes
      else .error .arrayFull
    | .error e => .error e

/-- The reader that knows one message reads this message back. -/
theorem MessageReader.only_reads (T : ElemType) (src : Source) : (only T src).Reads T src := by
  intro segments rest hbuild
  simp [only, hbuild]

/-- The modes agree on two bytes in a directory without files. -/
theorem modesAgree_two_bytes :
    ModesAgree (fun _ => 0) .capnproto .uint8 (.files .posix .empty) [97] 2 [8, 0]
      (.only .uint8 (.array 2 [8, 0])) fun _ => ⟨none, none, .served 3, []⟩ := by
  have hreachable : (Storage.files .posix .empty).Reachable fun _ => 0 := trivial
  have hid : (Storage.files .posix .empty).Accepts [97] := ⟨by decide, by decide, by decide⟩
  have habsent : ¬(Storage.files .posix .empty).Holds (fun _ => 0) [97] := by
    simp [Storage.Holds, FileSystem.empty]
  refine ((modesAgree_iff hreachable hid habsent rfl ?_ (MessageReader.only_reads _ _)
    fun _ => trivial).2 ?_).mpr (Or.inr ⟨?_, ?_⟩)
  · decide
  · exact fun _ => SysAnswers.served_spec 3
  · exact fun _ => fitsSlack_of_small rfl (Or.inl (by decide))
  · intro _ _ _ hser
    cases hser

/-- Of an array without elements, copied into a file, only one mode is stored: nothing
can be mapped. -/
theorem empty_array_modes_differ :
    (MessageReader.only .uint8 (.array 0 [])).Reads .uint8 (.array 0 []) ∧
      ¬ModesAgree (fun _ => 0) .noSerializer .uint8 (.files .posix .empty) [97] 0 []
        (.only .uint8 (.array 0 [])) fun _ => ⟨none, none, .served 3, []⟩ := by
  refine ⟨MessageReader.only_reads _ _, ?_⟩
  intro hagree
  have hmmap := hagree.stores.mpr rfl
  cases hmmap

end Pmemcpy
