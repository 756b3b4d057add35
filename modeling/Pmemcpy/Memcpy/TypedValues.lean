import Pmemcpy.Hashtable.Clients
import Pmemcpy.Files.Reads
import Pmemcpy.Memcpy.ModesAgree
import Pmemcpy.Serialize.PackedReader

/-!
# Typed values over any run

Clients of one storage store elements and arrays of any type, each with its own
serializer and in its own mode, and load and free them. The hashtable keeps a stack
of what was stored under each id, a file storage the last of it. Calls that throw are
part of a run: they may leave a value that nobody has stored whole, and say so.
-/

namespace Pmemcpy

open Lib PMDKHashtableStorage

/-! ### Values -/

/-- What a client stored, by what a `load` has to know about it. -/
structure Stored where
  ser : SerializerType
  T : ElemType
  src : Source
  deriving DecidableEq, Repr

/-- The source is `count` elements of its type, in memory. -/
structure Stored.Typed (v : Stored) : Prop where
  length : v.src.bytes.length = v.T.sizeof * v.src.count
  small : v.src.bytes.length < 2 ^ 64

/-- The bytes are what the serializer makes of the value, and for the serializers of Cap'n
Proto maybe more. -/
def Stored.Encodes (v : Stored) (bytes : Bytes) : Prop :=
  ∃ out rest, v.ser.serialize v.T v.src = .ok out ∧ bytes = out ++ rest ∧
    (v.ser = .noSerializer → rest = [])

/-- What is known of some bytes: that they are this value, or nothing. -/
def Known (bytes : Bytes) : Option Stored → Prop
  | some v => v.Typed ∧ v.Encodes bytes
  | none => True

section Values

variable {v : Stored} {bytes out : Bytes}

/-- A value is read back with its own serializer and type. -/
theorem Stored.Encodes.deserialize (h : v.Encodes bytes) {reader : MessageReader}
    (hreader : reader.Reads v.T v.src) :
    v.ser.deserialize reader v.T v.src.target bytes = .ok v.src.bytes := by
  obtain ⟨out, rest, hout, rfl, hrest⟩ := h
  exact SerializerType.deserialize_of_serialize hreader hout hrest

/-- The buffer for a plain copy is as long as the copy. -/
theorem Stored.Typed.bufferSize_plain (hv : v.Typed) (hser : v.ser = .noSerializer) :
    PMEM.bufferSize v.ser v.T v.src = v.src.bytes.length := by
  have hsmall := hv.small
  rw [hv.length] at hsmall ⊢
  rw [hser]
  exact Nat.mod_eq_of_lt hsmall

/-- What is serialized into the buffer that `store` allocates fits it. -/
theorem Stored.Typed.serializeInto_length (hv : v.Typed)
    (h : v.ser.serializeInto v.T (PMEM.bufferSize v.ser v.T v.src) v.src = .ok out) :
    out.length ≤ PMEM.bufferSize v.ser v.T v.src := by
  have hroom {room : ℕ} {whole : Bytes} (h : arrayOutput room whole = .ok out) :
      out.length ≤ room := by
    unfold arrayOutput at h
    split at h
    · rename_i hle
      rwa [← Except.ok.inj h]
    · cases h
  cases hser : v.ser with
  | noSerializer =>
    rw [hser] at h
    obtain rfl : v.src.bytes = out := Except.ok.inj h
    rw [← hser, hv.bufferSize_plain hser]
  | capnproto =>
    rw [hser] at h
    obtain ⟨_, _, hout⟩ := exists_of_bind h
    exact hroom hout
  | capnprotoNocompress =>
    rw [hser] at h
    obtain ⟨_, _, hout⟩ := exists_of_bind h
    exact hroom hout

end Values

/-- What a `load` leaves of a storage is what `find` or `load` of the storage leaves. -/
theorem PMEM.load_state (hash : Bytes → ℕ) (ser : SerializerType) (useMmap : Bool) (T : ElemType)
    (σ : Storage) (id : Bytes) (reader : MessageReader) (target : Target) (a : Answers) :
    (load hash ser useMmap T σ id reader target a).2 =
      (if useMmap then σ.find hash id a else σ.load hash id a).2 := by
  unfold load
  generalize (if useMmap then σ.find hash id a else σ.load hash id a) = found
  obtain ⟨serial, τ⟩ := found
  cases serial with
  | error f => rfl
  | ok bytes =>
    dsimp only
    cases ser.deserialize reader T target bytes <;> rfl

/-! ### Operations -/

/-- An operation of a client, with what PMDK and the system answer. -/
inductive PmemOp where
  | store (useMmap : Bool) (id : Bytes) (v : Stored) (a : Answers)
  | load (ser : SerializerType) (useMmap : Bool) (T : ElemType) (id : Bytes) (target : Target)
      (a : Answers)
  | free (id : Bytes) (a : Answers)
  deriving DecidableEq, Repr

/-- `storage_->free`. -/
def Storage.free (hash : Bytes → ℕ) (id : Bytes) (a : Answers) :
    Storage → Except Failure Unit × Storage
  | hashtable s =>
    let (result, t) := s.free hash id
    (result, hashtable t)
  | files S s =>
    let (result, t) := S.free s id a.sys
    (result, files S t)

namespace PmemOp

/-- The id an operation is about. -/
def id : PmemOp → Bytes
  | store _ id _ _ => id
  | load _ _ _ id _ _ => id
  | free id _ => id

/-- What an operation does; the bytes are those that a `load` delivers. -/
def exec (hash : Bytes → ℕ) (reader : MessageReader) (σ : Storage) :
    PmemOp → Except Failure Bytes × Storage
  | store useMmap id v a =>
    ((PMEM.store hash v.ser useMmap v.T σ id v.src a).1.map fun _ => [],
      (PMEM.store hash v.ser useMmap v.T σ id v.src a).2)
  | load ser useMmap T id target a => PMEM.load hash ser useMmap T σ id reader target a
  | free id a => ((σ.free hash id a).1.map fun _ => [], (σ.free hash id a).2)

/-- The source of a `store` is what its type says, and PMDK can answer so. -/
def Possible (σ : Storage) : PmemOp → Prop
  | store useMmap _ v a => v.Typed ∧ a.Possible σ (PMEM.askedSize v.ser useMmap v.T v.src)
  | load .. => True
  | free .. => True

end PmemOp

/-- A step of a run: any operation on an id that the storage keeps apart, however it ends. -/
def PmemStep (hash : Bytes → ℕ) (reader : MessageReader) (σ : Storage)
    (e : PmemOp × Except Failure Bytes) (τ : Storage) : Prop :=
  e.1.Possible σ ∧ σ.Accepts e.1.id ∧ e.1.exec hash reader σ = (e.2, τ)

/-! ### The hashtable -/

/-- The abstract model of the hashtable: for each id what was stored under it, the most
recent first, as far as it is known. -/
abbrev ValueStacks := Bytes → List (Option Stored)

namespace ValueStacks

/-- Nothing is stored. -/
def empty : ValueStacks := fun _ => []

/-- A value is stored under an id. -/
def push (σ : ValueStacks) (id : Bytes) (v : Option Stored) : ValueStacks :=
  Function.update σ id (v :: σ id)

/-- The last value of an id is freed. -/
def pop (σ : ValueStacks) (id : Bytes) : ValueStacks := Function.update σ id (σ id).tail

/-- What an operation makes of the stacks. A `store` that throws in mmap mode has pushed its
buffer if both objects were allocated; one that returns has pushed nothing if its entry was not. -/
def step (σ : ValueStacks) : PmemOp × Except Failure Bytes → ValueStacks
  | (.store _ id v a, .ok _) => if a.entry.isSome then σ.push id (some v) else σ
  | (.store useMmap id _ a, .error _) =>
    if useMmap ∧ a.block.isSome ∧ a.entry.isSome then σ.push id none else σ
  | (.free id _, _) => σ.pop id
  | (.load .., _) => σ

end ValueStacks

/-- The hashtable holds these values. -/
def HoldsStacks (hash : Bytes → ℕ) (σ : Storage) (values : ValueStacks) : Prop :=
  ∃ s τ, σ = .hashtable s ∧ Represents hash s τ ∧
    ∀ id, List.Forall₂ Known (τ id) (values id)

section Hashtable

variable {hash : Bytes → ℕ} {reader : MessageReader} {s t : PMDKHashtableStorage} {τ : Stacks}
  {σ σ' : Storage} {values : ValueStacks} {id bytes : Bytes} {v : Stored} {a : Answers}
  {block entry : Option Allocation} {useMmap : Bool} {e : PmemOp × Except Failure Bytes}

/-- An insertion pushes its value on the stack of the model, if PMDK serves both allocations. -/
theorem Represents.insertion (h : Represents hash s τ) (hid : StorableId id)
    (hstep : FittingStep hash s (.store id bytes block entry) t) :
    Represents hash t (if block.isSome ∧ entry.isSome then τ.push id bytes else τ) := by
  have hwf := h.wf.step hstep
  refine ⟨hwf, ?_⟩
  intro id' hid'
  rw [h.wf.stack_insertion hstep, h.stack id' hid']
  by_cases hserved : block.isSome ∧ entry.isSome
  · rw [if_pos hserved, Stacks.push]
    by_cases heq : id' = id
    · rw [if_pos ⟨hserved, (sameBucket_iff hid.nulFree).mpr heq⟩, heq, Function.update_self]
    · rw [if_neg fun h => heq ((sameBucket_iff hid.nulFree).mp h.2), Function.update_of_ne heq]
  · rw [if_neg hserved, if_neg fun h => hserved h.1]

/-- A value that is known of some bytes may be pushed on both stacks. -/
theorem forall₂_push {values : ValueStacks} {v : Option Stored}
    (h : ∀ id, List.Forall₂ Known (τ id) (values id)) (hv : Known bytes v) (id id' : Bytes) :
    List.Forall₂ Known (τ.push id bytes id') (values.push id v id') := by
  rw [Stacks.push, ValueStacks.push]
  by_cases heq : id' = id
  · rw [heq, Function.update_self, Function.update_self]
    exact .cons hv (h id)
  · rw [Function.update_of_ne heq, Function.update_of_ne heq]
    exact h id'

/-- A `store` that maps its buffer has inserted what it wrote, if the block was granted. -/
theorem PMEM.store_mmap_hashtable {b : Allocation} (hv : v.Typed)
    (hid : id.length ≤ PMEMPointer.idRoom) (hblock : a.block = some b)
    (ha : a.Possible (.hashtable s) (bufferSize v.ser v.T v.src)) :
    ∃ t bytes, (store hash v.ser true v.T (.hashtable s) id v.src a).2 = .hashtable t ∧
      FittingStep hash s (.store id bytes a.block a.entry) t ∧
      ((store hash v.ser true v.T (.hashtable s) id v.src a).1 = .ok () → v.Encodes bytes) := by
  obtain ⟨hfresh, hentry⟩ := ha
  rw [hblock] at hfresh hentry
  have hfresh' : s.pool.Fresh (bufferSize v.ser v.T v.src) b := hfresh
  obtain ⟨t, halloc, hfill⟩ := alloc_fill hash s hid hfresh' hentry
  have hmade : (Storage.hashtable s).alloc hash id a (bufferSize v.ser v.T v.src) =
      (.ok (.pmem ⟨b.oid, bufferSize v.ser v.T v.src⟩), .hashtable t) := by
    simp [Storage.alloc, hblock, halloc, Except.map]
  rw [hblock]
  cases hinto : v.ser.serializeInto v.T (bufferSize v.ser v.T v.src) v.src with
  | ok out =>
    have hlength := hv.serializeInto_length hinto
    refine ⟨_, _, ?_, hfill out hlength, ?_⟩
    · simp [store, hmade, hinto, Storage.fill]
    · intro _
      refine ⟨out, b.raw.drop out.length, SerializerType.serialize_of_into hinto, ?_, ?_⟩
      · rw [splice_zero]
      · intro hser
        have hsize := hv.bufferSize_plain hser
        rw [hser] at hinto
        obtain rfl : v.src.bytes = out := Except.ok.inj hinto
        rw [List.drop_eq_nil_iff, ← hsize]
        exact hfresh'.raw.le
  | error failure =>
    have hthrows : (store hash v.ser true v.T (.hashtable s) id v.src a).1 ≠ .ok () := by
      cases failure <;> simp [store, hmade, hinto]
    have hnil := hfill [] (Nat.zero_le _)
    rw [write_nil] at hnil
    cases failure with
    | arrayFull =>
      refine ⟨_, _, ?_, hfill (a.wreck.take (bufferSize v.ser v.T v.src)) (List.length_take_le _ _),
        fun hok => absurd hok hthrows⟩
      simp [store, hmade, hinto, Storage.fill]
    | listTooLong =>
      refine ⟨_, _, ?_, hnil, fun hok => absurd hok hthrows⟩
      simp [store, hmade, hinto]
    | malformed =>
      refine ⟨_, _, ?_, hnil, fun hok => absurd hok hthrows⟩
      simp [store, hmade, hinto]

/-- A `store` that copies has inserted the value, if it returns. -/
theorem PMEM.store_copy_hashtable (hid : id.length ≤ PMEMPointer.idRoom)
    (ha : a.Possible (.hashtable s) (askedSize v.ser false v.T v.src))
    (hok : (store hash v.ser false v.T (.hashtable s) id v.src a).1 = .ok ()) :
    ∃ t bytes, (store hash v.ser false v.T (.hashtable s) id v.src a).2 = .hashtable t ∧
      FittingStep hash s (.store id bytes a.block a.entry) t ∧ v.Encodes bytes := by
  cases hserial : v.ser.serialize v.T v.src with
  | error failure =>
    simp [store, hserial] at hok
  | ok out =>
    have hsize : askedSize v.ser false v.T v.src = out.length := by
      simp [askedSize, hserial]
    obtain ⟨hfresh, hentry⟩ := ha
    rw [hsize] at hfresh
    refine ⟨_, out, ?_, ⟨⟨⟨hfresh, Pool.canAnswer_pobjAlloc hentry⟩, rfl⟩, ?_⟩, out, [], hserial,
      (List.append_nil out).symm, fun _ => rfl⟩
    · simp [store, hserial, Storage.store, Call.exec]
    · rintro id' ⟨⟩
      exact hid

/-- A `store` that throws in copy mode has changed nothing. -/
theorem PMEM.store_copy_hashtable_throws {f : Failure}
    (hthrow : (store hash v.ser false v.T (.hashtable s) id v.src a).1 = .error f) :
    (store hash v.ser false v.T (.hashtable s) id v.src a).2 = .hashtable s := by
  rcases store_copy_throws hthrow with ⟨_, hkept⟩ | ⟨serial, _, hstore, hthrow'⟩
  · exact hkept
  · cases hblock : a.block with
    | none => simp [hstore, Storage.store, hblock, store_refused]
    | some b => simp [Storage.store, hblock, store_returns] at hthrow'

/-- Without a block every `store` throws and changes nothing. -/
theorem PMEM.store_hashtable_refused (hblock : a.block = none) :
    (∃ f, (store hash v.ser useMmap v.T (.hashtable s) id v.src a).1 = .error f) ∧
      (store hash v.ser useMmap v.T (.hashtable s) id v.src a).2 = .hashtable s := by
  cases useMmap with
  | false =>
    cases hserial : v.ser.serialize v.T v.src with
    | error failure => simp [store, hserial]
    | ok out => simp [store, hserial, Storage.store, hblock, store_refused]
  | true => simp [store, Storage.alloc, hblock, alloc_refused, Except.map]

/-- After an insertion the hashtable holds the stacks of the model with what is known of its bytes,
if its entry was granted. -/
theorem HoldsStacks.insertion {b : Allocation} {v : Option Stored} (hs : Represents hash s τ)
    (hvalues : ∀ id, List.Forall₂ Known (τ id) (values id)) (hid : StorableId id)
    (hstep : FittingStep hash s (.store id bytes (some b) entry) t) (hv : Known bytes v) :
    HoldsStacks hash (.hashtable t) (if entry.isSome then values.push id v else values) := by
  refine ⟨t, _, rfl, hs.insertion hid hstep, ?_⟩
  cases entry with
  | none => simpa using hvalues
  | some e => simpa using forall₂_push hvalues hv id

/-- After a `store`, however it ends, the hashtable holds the stacks of the model. -/
theorem HoldsStacks.store (hs : Represents hash s τ)
    (hvalues : ∀ id, List.Forall₂ Known (τ id) (values id)) (hid : StorableId id) (hv : v.Typed)
    (ha : a.Possible (.hashtable s) (PMEM.askedSize v.ser useMmap v.T v.src)) :
    HoldsStacks hash (PMEM.store hash v.ser useMmap v.T (.hashtable s) id v.src a).2
      (values.step (.store useMmap id v a,
        (PMEM.store hash v.ser useMmap v.T (.hashtable s) id v.src a).1.map fun _ => [])) := by
  cases hblock : a.block with
  | none =>
    have hrefused : (∃ f, (PMEM.store hash v.ser useMmap v.T (.hashtable s) id v.src a).1 =
        .error f) ∧ _ := PMEM.store_hashtable_refused hblock
    obtain ⟨⟨f, hthrow⟩, hkept⟩ := hrefused
    rw [hthrow, hkept]
    simpa [ValueStacks.step, Except.map, hblock] using ⟨s, τ, rfl, hs, hvalues⟩
  | some b =>
    cases useMmap with
    | true =>
      obtain ⟨t, bytes, hresult, hstep, hencodes⟩ :=
        PMEM.store_mmap_hashtable hv hid.room hblock ha
      rw [hblock] at hstep
      rw [hresult]
      cases hok : (PMEM.store hash v.ser true v.T (.hashtable s) id v.src a).1 with
      | ok _ =>
        have hknown : Known bytes (some v) := ⟨hv, hencodes hok⟩
        simpa [ValueStacks.step, Except.map] using
          HoldsStacks.insertion hs hvalues hid hstep hknown
      | error f =>
        have hknown : Known bytes none := trivial
        simpa [ValueStacks.step, Except.map, hblock] using
          HoldsStacks.insertion hs hvalues hid hstep hknown
    | false =>
      cases hok : (PMEM.store hash v.ser false v.T (.hashtable s) id v.src a).1 with
      | ok _ =>
        obtain ⟨t, bytes, hresult, hstep, hencodes⟩ := PMEM.store_copy_hashtable hid.room ha hok
        rw [hblock] at hstep
        rw [hresult]
        have hknown : Known bytes (some v) := ⟨hv, hencodes⟩
        simpa [ValueStacks.step, Except.map] using
          HoldsStacks.insertion hs hvalues hid hstep hknown
      | error f =>
        rw [PMEM.store_copy_hashtable_throws hok]
        simpa [ValueStacks.step, Except.map] using ⟨s, τ, rfl, hs, hvalues⟩

/-- After a `free` the hashtable holds the stacks of the model, and it throws exactly if there was
nothing to free. -/
theorem HoldsStacks.free {result : Except Failure Unit} (hs : Represents hash s τ)
    (hvalues : ∀ id, List.Forall₂ Known (τ id) (values id)) (hid : StorableId id)
    (hfree : s.free hash id = (result, t)) :
    HoldsStacks hash (.hashtable t) (values.pop id) ∧
      (values id = [] ↔ ∃ f, result = .error f) := by
  have hstack := hs.stack id hid.nulFree
  have hforall := hvalues id
  cases hτ : τ id with
  | nil =>
    rw [hτ] at hforall
    cases hnil : values id with
    | cons v rest =>
      rw [hnil] at hforall
      cases hforall
    | nil =>
      obtain ⟨rfl, rfl⟩ := Prod.mk.inj ((hs.wf.free_nil (hstack.trans hτ)).symm.trans hfree)
      refine ⟨⟨s, τ, rfl, hs, ?_⟩, iff_of_true rfl ⟨_, rfl⟩⟩
      have hsame : values.pop id = values := by
        rw [ValueStacks.pop, hnil, List.tail_nil, ← hnil, Function.update_eq_self]
      rwa [hsame]
  | cons bytes rest =>
    rw [hτ] at hforall
    cases hcons : values id with
    | nil =>
      rw [hcons] at hforall
      cases hforall
    | cons v others =>
      obtain ⟨x, l, _, hfind, _⟩ := hs.wf.findEntry_cons (hstack.trans hτ)
      obtain ⟨rfl, rfl⟩ := Prod.mk.inj ((free_found hfind).symm.trans hfree)
      refine ⟨⟨_, τ.pop id, rfl, hs.step (SessionStep.free hid hfind), ?_⟩, ?_⟩
      · intro id'
        rw [Stacks.pop, ValueStacks.pop]
        by_cases heq : id' = id
        · rw [heq, Function.update_self, Function.update_self, hτ, hcons]
          rw [hcons] at hforall
          exact (List.forall₂_cons.mp hforall).2
        · rw [Function.update_of_ne heq, Function.update_of_ne heq]
          exact hvalues id'
      · refine iff_of_false (List.cons_ne_nil _ _) ?_
        rintro ⟨f, hf⟩
        cases hf

/-- Every operation of a client is simulated by its step of the abstract model. -/
theorem HoldsStacks.step (h : HoldsStacks hash σ values) (hstep : PmemStep hash reader σ e σ') :
    HoldsStacks hash σ' (values.step e) := by
  obtain ⟨s, τ, rfl, hs, hvalues⟩ := h
  obtain ⟨op, result⟩ := e
  obtain ⟨hposs, hid, hexec⟩ := hstep
  cases op with
  | store useMmap id v a =>
    obtain ⟨rfl, rfl⟩ := Prod.mk.inj hexec
    exact HoldsStacks.store hs hvalues hid hposs.1 hposs.2
  | load ser useMmap T id target a =>
    have hstate := PMEM.load_state hash ser useMmap T (.hashtable s) id reader target a
    have hkept : (PMEM.load hash ser useMmap T (.hashtable s) id reader target a).2 =
        .hashtable s := by
      rw [hstate]
      cases useMmap <;> rfl
    obtain rfl : (PMEM.load hash ser useMmap T (.hashtable s) id reader target a).2 = σ' :=
      congrArg Prod.snd hexec
    rw [hkept]
    exact ⟨s, τ, rfl, hs, hvalues⟩
  | free id a =>
    obtain ⟨_, rfl⟩ := Prod.mk.inj hexec
    exact (HoldsStacks.free hs hvalues hid rfl).1

/-- The hashtable after any run holds the values of the abstract model. -/
theorem run_holdsStacks {events : List (PmemOp × Except Failure Bytes)}
    (hrun : Run (PmemStep hash reader) (.hashtable created) events σ) :
    HoldsStacks hash σ (events.foldl ValueStacks.step ValueStacks.empty) :=
  hrun.simulates ⟨created, Stacks.empty, rfl, created_represents, fun _ => .nil⟩
    fun _ _ _ _ h hstep => h.step hstep

/-- What is read of the hashtable under an id is the top of its stack. -/
theorem HoldsStacks.loadSerial (hs : Represents hash s τ) (hid : StorableId id) :
    PMEM.loadSerial hash useMmap (.hashtable s) id a = outcome (τ id) := by
  rw [← hs.stack id hid.nulFree]
  cases useMmap with
  | false => exact hs.wf.load_eq id
  | true =>
    show (s.findBytes hash id).map Prod.snd = _
    rw [hs.wf.findBytes_eq]
    cases s.pool.stack hash id <;> rfl

/-- A value on top of its stack is loaded, in either mode. -/
theorem HoldsStacks.load_value {rest : List (Option Stored)} (h : HoldsStacks hash σ values)
    (hid : StorableId id) (hcons : values id = some v :: rest) {reader : MessageReader}
    (hreader : reader.Reads v.T v.src) (useMmap : Bool) (a : Answers) :
    (PMEM.load hash v.ser useMmap v.T σ id reader v.src.target a).1 = .ok v.src.bytes := by
  obtain ⟨s, τ, rfl, hs, hvalues⟩ := h
  have hforall := hvalues id
  rw [hcons] at hforall
  cases hτ : τ id with
  | nil =>
    rw [hτ] at hforall
    cases hforall
  | cons bytes others =>
    rw [hτ] at hforall
    obtain ⟨_, hencodes⟩ := (List.forall₂_cons.mp hforall).1
    rw [PMEM.load_eq, HoldsStacks.loadSerial hs hid, hτ]
    simp only [outcome, hencodes.deserialize hreader]

/-- An id with an empty stack is not loaded. -/
theorem HoldsStacks.load_nothing (h : HoldsStacks hash σ values) (hid : StorableId id)
    (hnil : values id = []) (reader : MessageReader) (ser : SerializerType) (useMmap : Bool)
    (T : ElemType) (target : Target) (a : Answers) :
    (PMEM.load hash ser useMmap T σ id reader target a).1 =
      .error (.thrown .pmdkCantFindKey) := by
  obtain ⟨s, τ, rfl, hs, hvalues⟩ := h
  have hforall := hvalues id
  rw [hnil, List.forall₂_nil_right_iff] at hforall
  rw [PMEM.load_eq, HoldsStacks.loadSerial hs hid, hforall]
  rfl

end Hashtable

/-- **The hashtable is a stack of typed values for each id, over any run of its clients.**
They store with any serializer, of any type, in either mode, and load and free, and any of these
calls may throw. Afterwards a `load` of the value that was stored last delivers exactly
it, in either mode; with nothing stored every `load` and `free` throws. A `store` whose entry
was refused has stored nothing, although it returns. A `store` that threw in mmap mode has stored
what nobody knows, if both of its objects were allocated. -/
theorem hashtable_refines_values {hash : Bytes → ℕ} {reader : MessageReader} {σ : Storage}
    {events : List (PmemOp × Except Failure Bytes)}
    (hrun : Run (PmemStep hash reader) (.hashtable created) events σ) {id : Bytes}
    (hid : StorableId id) :
    (∀ v rest, events.foldl ValueStacks.step ValueStacks.empty id = some v :: rest →
      ∀ reader : MessageReader, reader.Reads v.T v.src → ∀ useMmap a,
        (PMEM.load hash v.ser useMmap v.T σ id reader v.src.target a).1 = .ok v.src.bytes) ∧
    (events.foldl ValueStacks.step ValueStacks.empty id = [] →
      ∀ reader ser useMmap T target a,
        (PMEM.load hash ser useMmap T σ id reader target a).1 =
          .error (.thrown .pmdkCantFindKey)) ∧
    ∀ a, events.foldl ValueStacks.step ValueStacks.empty id = [] ↔
      ∃ f, (σ.free hash id a).1 = .error f := by
  have hholds := run_holdsStacks hrun
  refine ⟨?_, ?_, ?_⟩
  · intro v rest hcons reader hreader useMmap a
    exact hholds.load_value hid hcons hreader useMmap a
  · intro hnil reader ser useMmap T target a
    exact hholds.load_nothing hid hnil reader ser useMmap T target a
  · intro a
    obtain ⟨s, τ, rfl, hs, hvalues⟩ := hholds
    exact (HoldsStacks.free hs hvalues hid rfl).2

/-- A byte, stored as it is with the first two objects of the pool. -/
def storeByte : PmemOp :=
  .store false [97] ⟨.noSerializer, .uint8, .array 1 [7]⟩
    ⟨some (zeroed 1 1), some (zeroed 2 PMEMPointer.structSize), .served 3, []⟩

/-- A byte that was stored by copying is loaded through a mapping. -/
theorem hashtable_refines_values_one :
    ∃ σ, Run (PmemStep (fun _ => 0) (capnpReader fun _ => 0)) (.hashtable created)
        [(storeByte, .ok [])] σ ∧
      (PMEM.load (fun _ => 0) .noSerializer true .uint8 σ [97] (capnpReader fun _ => 0) (.array 1)
        ⟨none, none, .served 3, []⟩).1 = .ok [7] := by
  have hfresh := (Pool.below_empty 1000 1).fresh (n := 1) (by decide) (by decide) (by decide)
  have halloc := (Pool.below_empty 1000 1).pobjAlloc (n := 1) (by decide) fun raw => raw
  have hentry := halloc.fresh (n := PMEMPointer.structSize) (by decide) (by decide) (by decide)
  have hstep : PmemStep (fun _ => 0) (capnpReader fun _ => 0) (.hashtable created)
      (storeByte, .ok []) (storeByte.exec (fun _ => 0) (capnpReader fun _ => 0)
        (.hashtable created)).2 := ⟨⟨⟨rfl, by decide⟩, hfresh, hentry⟩, storable_a, rfl⟩
  have hrun := Run.single hstep
  exact ⟨_, hrun, (hashtable_refines_values hrun storable_a).1 _ [] rfl _
    (capnpReader_reads _ rfl) true _⟩

/-! ### The file storages -/

/-- What is known of the file of an id: that it is not there or empty, that it holds this value,
or nothing. -/
inductive FileValue where
  | nothing
  | value (v : Stored)
  | unknown
  deriving DecidableEq, Repr

/-- The file after a `store` that returns. A plain copy is written over the start of the file
that is there; it is the value only where it covers this file, and is not empty. -/
def FileValue.stored (useMmap : Bool) (v : Stored) (old : FileValue) : FileValue :=
  if v.ser ≠ .noSerializer ∨ useMmap then value v
  else
    match old with
    | nothing => if v.src.bytes = [] then nothing else value v
    | value w =>
      if w.ser = .noSerializer ∧ w.src.bytes.length ≤ v.src.bytes.length then value v else unknown
    | unknown => unknown

/-- The abstract model of a file storage. -/
abbrev FileValues := Bytes → FileValue

namespace FileValues

/-- A directory of files of which nothing is known. -/
def start (s : FileSystem) : FileValues := fun id =>
  if s.files (cStr id) = none then .nothing else .unknown

/-- What an operation makes of the files. Of a file that a `store` threw on nothing is known. -/
def step (σ : FileValues) : PmemOp × Except Failure Bytes → FileValues
  | (.store useMmap id v _, .ok _) => Function.update σ id ((σ id).stored useMmap v)
  | (.store _ id _ _, .error _) => Function.update σ id .unknown
  | (.free id a, _) => if a.sys.remove then Function.update σ id .nothing else σ
  | (.load .., _) => σ

end FileValues

/-- The file is what is known of it. -/
def FileValue.Describes (file : Option Bytes) : FileValue → Prop
  | nothing => file.getD [] = []
  | value v => v.Typed ∧ ∃ bytes, file = some bytes ∧ bytes ≠ [] ∧ v.Encodes bytes
  | unknown => True

/-- The file storage holds these values. -/
def HoldsFiles (S : FileStorage) (σ : Storage) (values : FileValues) : Prop :=
  ∃ s, σ = .files S s ∧ ∀ id, NulFree id → (values id).Describes (s.files (cStr id))

section Files

variable {hash : Bytes → ℕ} {reader : MessageReader} {S : FileStorage} {s t : FileSystem}
  {σ σ' : Storage} {values : FileValues} {id bytes : Bytes} {v : Stored} {a : Answers}
  {useMmap : Bool} {e : PmemOp × Except Failure Bytes} {ser : SerializerType} {old : FileValue}

/-- The bytes of a message are not empty. -/
theorem Stored.Encodes.ne_nil (h : v.Encodes bytes)
    (hser : v.ser ≠ .noSerializer) : bytes ≠ [] := by
  obtain ⟨out, rest, hout, rfl, _⟩ := h
  intro hnil
  obtain ⟨rfl, _⟩ := List.append_eq_nil_iff.mp hnil
  have htable (segments : List (List Word)) : segmentTable segments ≠ [] := by
    have hlength := length_segmentTable segments
    rw [← List.length_pos_iff]
    omega
  cases hv' : v.ser with
  | noSerializer => exact hser hv'
  | capnproto =>
    rw [hv'] at hout
    obtain ⟨segments, _, hpacked⟩ := exists_of_bind hout
    have hnone : writePackedMessage segments = [] := Except.ok.inj hpacked
    exact pack_ne_nil (htable segments) (List.append_eq_nil_iff.mp hnone).1
  | capnprotoNocompress =>
    rw [hv'] at hout
    obtain ⟨segments, _, hwritten⟩ := exists_of_bind hout
    have hnone : writeMessage segments = [] := Except.ok.inj hwritten
    have hlength := length_writeMessage segments
    rw [hnone, List.length_nil] at hlength
    omega

/-- What a `store` that maps its buffer leaves of a file. -/
theorem PMEM.store_mmap_files (hv : v.Typed)
    (hok : (store hash v.ser true v.T (.files S s) id v.src a).1 = .ok ()) :
    ∃ t bytes, (store hash v.ser true v.T (.files S s) id v.src a).2 = .files S t ∧
      t.files = (s.put (cStr id) (some bytes)).files ∧ bytes ≠ [] ∧ v.Encodes bytes := by
  cases halloc : (S.alloc s id a.sys (bufferSize v.ser v.T v.src)).1 with
  | error f => simp [store, Storage.alloc, halloc, Except.map] at hok
  | ok buf =>
    obtain ⟨hsize, hfill⟩ := FileStorage.alloc_ok halloc
    cases hinto : v.ser.serializeInto v.T (bufferSize v.ser v.T v.src) v.src with
    | error failure =>
      cases failure <;> simp [store, Storage.alloc, halloc, Except.map, hinto] at hok
    | ok out =>
      have hencodes : v.Encodes
          (splice (resize (s.contents (cStr id)) (bufferSize v.ser v.T v.src)) 0 out) := by
        refine ⟨out, _, SerializerType.serialize_of_into hinto, splice_zero _ _, ?_⟩
        intro hser
        have hbuffer := hv.bufferSize_plain hser
        rw [hser] at hinto
        obtain rfl : v.src.bytes = out := Except.ok.inj hinto
        rw [List.drop_eq_nil_iff, length_resize, hbuffer]
      refine ⟨_, _, ?_, hfill out, ?_, hencodes⟩
      · simp [store, Storage.alloc, halloc, Except.map, hinto, Storage.fill]
      · intro hnil
        have hlength := length_splice_max (w := out) (Nat.zero_le
          (resize (s.contents (cStr id)) (bufferSize v.ser v.T v.src)).length)
        rw [hnil, List.length_nil, length_resize] at hlength
        omega

/-- What a `store` that copies leaves of a file. -/
theorem PMEM.store_copy_files
    (hok : (store hash v.ser false v.T (.files S s) id v.src a).1 = .ok ()) :
    ∃ t out, (store hash v.ser false v.T (.files S s) id v.src a).2 = .files S t ∧
      v.ser.serialize v.T v.src = .ok out ∧
      t.files = (s.put (cStr id) (some (out ++ (s.contents (cStr id)).drop out.length))).files := by
  cases hserial : v.ser.serialize v.T v.src with
  | error failure => simp [store, hserial] at hok
  | ok out =>
    have heffect := S.store_effect s id out a.sys
    have hstore : (S.store s id a.sys out).1 = .ok () := by
      simpa [store, hserial, Storage.store] using hok
    rw [hstore] at heffect
    refine ⟨(S.store s id a.sys out).2, out, ?_, rfl, ?_⟩
    · simp [store, hserial, Storage.store]
    · generalize (S.store s id a.sys out).2.files = files at heffect ⊢
      cases heffect
      rw [splice_zero]

/-- A file is described by what a `store` makes of its description. -/
theorem FileValue.Describes.stored_copy {file : Option Bytes} {out : Bytes}
    (h : old.Describes file) (hv : v.Typed) (hout : v.ser.serialize v.T v.src = .ok out) :
    (old.stored false v).Describes (some (out ++ (file.getD []).drop out.length)) := by
  have hencodes (hplain : v.ser = .noSerializer → (file.getD []).drop out.length = []) :
      v.Encodes (out ++ (file.getD []).drop out.length) := ⟨out, _, hout, rfl, hplain⟩
  unfold FileValue.stored
  by_cases hser : v.ser = .noSerializer
  · have hout' := hout
    rw [hser] at hout'
    obtain rfl : v.src.bytes = out := Except.ok.inj hout'
    rw [if_neg (by simp [hser])]
    cases old with
    | nothing =>
      have hnil : file.getD [] = [] := h
      rw [hnil, List.drop_nil]
      dsimp only
      split
      · rename_i hempty
        rw [hempty]
        rfl
      · rename_i hne
        rw [hnil, List.drop_nil] at hencodes
        exact ⟨hv, _, rfl, by rwa [List.append_nil], hencodes fun _ => rfl⟩
    | value w =>
      obtain ⟨hw, bytes, rfl, hne, out', rest, hserial, rfl, hrest⟩ := h
      dsimp only
      split
      · rename_i hcovers
        rw [hcovers.1] at hserial
        obtain rfl : w.src.bytes = out' := Except.ok.inj hserial
        rw [hrest hcovers.1, List.append_nil] at hne hencodes ⊢
        have hdrop : w.src.bytes.drop v.src.bytes.length = [] :=
          List.drop_eq_nil_of_le hcovers.2
        refine ⟨hv, _, rfl, ?_, hencodes fun _ => hdrop⟩
        intro hnil
        have hpos := List.length_pos_of_ne_nil hne
        have hzero := congrArg List.length (List.append_eq_nil_iff.mp hnil).1
        rw [List.length_nil] at hzero
        omega
      · trivial
    | unknown => trivial
  · rw [if_pos (Or.inl hser)]
    have hwhole := hencodes fun h => absurd h hser
    exact ⟨hv, _, rfl, hwhole.ne_nil hser, hwhole⟩

/-- A file that a `load` opens is created, and still is what is known of it. -/
theorem FileValue.Describes.created {name : Bytes} (h : old.Describes (s.files name)) :
    old.Describes (some (s.contents name)) := by
  cases old with
  | nothing => exact h
  | value v =>
    obtain ⟨hv, bytes, hbytes, hrest⟩ := h
    rw [FileSystem.contents_eq hbytes]
    exact ⟨hv, bytes, rfl, hrest⟩
  | unknown => trivial

/-- `find` and the reading of its buffer change no file. -/
theorem FileStorage.findBytes_files (S : FileStorage) (s : FileSystem) (id : Bytes)
    (a : SysAnswers) : (S.findBytes s id a).2.files = s.files := by
  rw [← S.find_files s id a, FileStorage.findBytes]
  split <;> simp_all

/-- The file of the id of an operation is replaced, and what is known of it. -/
theorem HoldsFiles.update {file : Option Bytes} (hid : NulFree id)
    (hvalues : ∀ id, NulFree id → (values id).Describes (s.files (cStr id)))
    (hfiles : t.files = (s.put (cStr id) file).files) {new : FileValue}
    (hnew : new.Describes file) :
    HoldsFiles S (.files S t) (Function.update values id new) := by
  refine ⟨t, rfl, ?_⟩
  intro id' hid'
  rw [hfiles]
  by_cases heq : id' = id
  · rw [heq, Function.update_self, FileSystem.files_put_self]
    exact hnew
  · have hname : cStr id' ≠ cStr id := by
      rwa [cStr_eq_self_iff.mpr hid, cStr_eq_self_iff.mpr hid']
    rw [Function.update_of_ne heq, FileSystem.files_put_of_ne hname]
    exact hvalues id' hid'

/-- What is known of the files after a `store`, however it ends. -/
theorem HoldsFiles.store (hid : NulFree id)
    (hvalues : ∀ id, NulFree id → (values id).Describes (s.files (cStr id))) (hv : v.Typed) :
    HoldsFiles S (PMEM.store hash v.ser useMmap v.T (.files S s) id v.src a).2
      (values.step (.store useMmap id v a,
        (PMEM.store hash v.ser useMmap v.T (.files S s) id v.src a).1.map fun _ => [])) := by
  cases hok : (PMEM.store hash v.ser useMmap v.T (.files S s) id v.src a).1 with
  | error f =>
    obtain ⟨t, w, hresult, hfiles, _⟩ := PMEM.store_files_throws hok
    rw [hresult]
    exact HoldsFiles.update hid hvalues hfiles trivial
  | ok _ =>
    cases useMmap with
    | true =>
      obtain ⟨t, bytes, hresult, hfiles, hne, hencodes⟩ := PMEM.store_mmap_files hv hok
      rw [hresult]
      have hstored : (values id).stored true v = .value v := if_pos (Or.inr rfl)
      refine HoldsFiles.update hid hvalues hfiles ?_
      rw [hstored]
      exact ⟨hv, bytes, rfl, hne, hencodes⟩
    | false =>
      obtain ⟨t, out, hresult, hserial, hfiles⟩ := PMEM.store_copy_files hok
      rw [hresult]
      exact HoldsFiles.update hid hvalues hfiles ((hvalues id hid).stored_copy hv hserial)

/-- Every operation of a client is simulated by its step of the abstract model. -/
theorem HoldsFiles.step (h : HoldsFiles S σ values) (hstep : PmemStep hash reader σ e σ') :
    HoldsFiles S σ' (values.step e) := by
  obtain ⟨s, rfl, hvalues⟩ := h
  obtain ⟨op, result⟩ := e
  obtain ⟨hposs, hid, hexec⟩ := hstep
  have hnul : NulFree op.id := hid.nulFree
  cases op with
  | store useMmap id v a =>
    obtain ⟨rfl, rfl⟩ := Prod.mk.inj hexec
    exact HoldsFiles.store hnul hvalues hposs.1
  | load ser useMmap T id target a =>
    obtain rfl : (PMEM.load hash ser useMmap T (.files S s) id reader target a).2 = σ' :=
      congrArg Prod.snd hexec
    rw [PMEM.load_state]
    have hread (t : FileSystem) (hfiles : t.files = s.files ∨
        t.files = (s.put (cStr id) (some (s.contents (cStr id)))).files) :
        HoldsFiles S (.files S t) values := by
      rw [← Function.update_eq_self id values]
      rcases hfiles with hsame | hcreated
      · have hput : s.files = (s.put (cStr id) (s.files (cStr id))).files :=
          (FileSystem.put_eq_self rfl).symm
        exact HoldsFiles.update hnul hvalues (hsame.trans hput) (hvalues id hnul)
      · exact HoldsFiles.update hnul hvalues hcreated (hvalues id hnul).created
    cases useMmap with
    | true =>
      have hstate : ((Storage.files S s).find hash id a).2 =
          .files S (S.findBytes s id a.sys).2 := rfl
      rw [if_pos rfl, hstate]
      exact hread _ (Or.inl (S.findBytes_files s id a.sys))
    | false =>
      have hfiles := S.load_files s id a.sys
      have hstate : ((Storage.files S s).load hash id a).2 = .files S (S.load s id a.sys).2 := rfl
      rw [if_neg (by decide), hstate]
      apply hread
      rw [hfiles]
      split
      · exact Or.inr rfl
      · exact Or.inl rfl
  | free id a =>
    obtain rfl : ((Storage.files S s).free hash id a).2 = σ' := congrArg Prod.snd hexec
    have hstate : ((Storage.files S s).free hash id a).2 =
        .files S (s.remove (cStr id) a.sys.remove) := by
      show Storage.files S (S.free s id a.sys).2 = _
      rw [S.free_eq_freeFile]
      rfl
    rw [hstate, FileValues.step]
    cases a.sys.remove with
    | false => exact ⟨s, rfl, hvalues⟩
    | true => exact HoldsFiles.update hnul hvalues rfl rfl

/-- A file storage after any run holds what is known of its files. -/
theorem run_holdsFiles {events : List (PmemOp × Except Failure Bytes)}
    (hrun : Run (PmemStep hash reader) (.files S s) events σ) :
    HoldsFiles S σ (events.foldl FileValues.step (FileValues.start s)) := by
  refine hrun.simulates ⟨s, rfl, ?_⟩ fun _ _ _ _ h hstep => h.step hstep
  intro id _
  rw [FileValues.start]
  split
  · rename_i hnone
    rw [hnone]
    rfl
  · trivial

/-- A file that is not there or empty is loaded as an empty one. -/
theorem loadFile_nothing {a : SysAnswers} (h : (s.files (cStr id)).getD [] = [])
    (hread : (loadFile s id a).1 = .ok bytes) : bytes = [] := by
  have hcontents : s.contents (cStr id) = [] := h
  unfold loadFile at hread
  cases hopen : a.openFd with
  | none => simp [hopen, FileSystem.openCreate] at hread
  | some fd =>
    cases hsize : a.fileSize with
    | false => simp [hopen, hsize, FileSystem.openCreate, FileSystem.fileSize] at hread
    | true =>
      cases hmoved : a.read.count 0 with
      | none =>
        simp [hopen, hsize, hmoved, hcontents, FileSystem.openCreate, FileSystem.fileSize,
          FileSystem.read] at hread
      | some n =>
        simp [hopen, hsize, hmoved, h, FileSystem.openCreate, FileSystem.fileSize,
          FileSystem.read, FileSystem.contents] at hread
        exact hread

/-- A file that is not there or empty is mapped as an empty one, if at all. -/
theorem findBytes_nothing {a : SysAnswers} {size : ℕ} (h : (s.files (cStr id)).getD [] = [])
    (hread : (S.findBytes s id a).1 = .ok (size, bytes)) : bytes = [] := by
  cases S with
  | posix =>
    cases hopen : a.openFd with
    | none =>
      simp [FileStorage.findBytes, FileStorage.find, PosixStorage.find, hopen,
        FileSystem.openExisting] at hread
    | some fd =>
      cases hfile : s.files (cStr id) with
      | none =>
        simp [FileStorage.findBytes, FileStorage.find, PosixStorage.find, hopen, hfile,
          FileSystem.openExisting] at hread
      | some v =>
        rw [hfile, Option.getD_some] at h
        simp [FileStorage.findBytes, FileStorage.find, PosixStorage.find, hopen, hfile, h,
          FileSystem.openExisting, FileSystem.contents, MmapBuffer.bytes, Except.map] at hread
        exact hread.2
  | pmdkFs =>
    cases hfile : s.files (cStr id) with
    | none =>
      simp [FileStorage.findBytes, FileStorage.find, FilesystemPMDKStorage.find, hfile] at hread
    | some v =>
      rw [hfile, Option.getD_some] at h
      simp [FileStorage.findBytes, FileStorage.find, FilesystemPMDKStorage.find, hfile, h,
        FileSystem.pmemMapWhole] at hread

/-- Of a file that is not there or empty nothing but no bytes are read, in either mode. -/
theorem PMEM.loadSerial_nothing (h : (s.files (cStr id)).getD [] = [])
    (hread : loadSerial hash useMmap (.files S s) id a = .ok bytes) : bytes = [] := by
  cases useMmap with
  | false =>
    have hload : (S.load s id a.sys).1 = .ok bytes := hread
    rw [S.load_eq_loadFile] at hload
    exact loadFile_nothing h hload
  | true =>
    have hfind : (S.findBytes s id a.sys).1.map Prod.snd = .ok bytes := hread
    cases hresult : (S.findBytes s id a.sys).1 with
    | error f =>
      rw [hresult] at hfind
      cases hfind
    | ok found =>
      obtain ⟨size, bytes'⟩ := found
      rw [hresult] at hfind
      obtain rfl : bytes' = bytes := Except.ok.inj hfind
      exact findBytes_nothing h hresult

/-- The value of a file is loaded, in either mode. -/
theorem FileValue.Describes.load_value (h : (value v).Describes (s.files (cStr id)))
    {reader : MessageReader} (hreader : reader.Reads v.T v.src) (useMmap : Bool)
    (ha : a.sys.Served) :
    (PMEM.load hash v.ser useMmap v.T (.files S s) id reader v.src.target a).1 =
      .ok v.src.bytes := by
  obtain ⟨_, bytes, hfile, hne, hencodes⟩ := h
  have hcontains : (Storage.files S s).Contains hash id bytes := hfile
  have hserial : PMEM.loadSerial hash useMmap (.files S s) id a = .ok bytes := by
    unfold PMEM.loadSerial
    cases useMmap with
    | false => exact hcontains.load_eq ha
    | true => exact hcontains.find_eq ha fun _ _ => hne
  rw [PMEM.load_eq, hserial]
  simp only [hencodes.deserialize hreader]

/-- Of a file that is not there or empty nothing is loaded but what is decoded of no bytes. -/
theorem FileValue.Describes.load_nothing {T : ElemType} {target : Target} {reader : MessageReader}
    {dst : Bytes} (h : nothing.Describes (s.files (cStr id)))
    (hload : (PMEM.load hash ser useMmap T (.files S s) id reader target a).1 = .ok dst) :
    ser.deserialize reader T target [] = .ok dst := by
  rw [PMEM.load_eq] at hload
  cases hserial : PMEM.loadSerial hash useMmap (.files S s) id a with
  | error f =>
    rw [hserial] at hload
    cases hload
  | ok bytes =>
    obtain rfl := PMEM.loadSerial_nothing h hserial
    rw [hserial] at hload
    cases hdecoded : ser.deserialize reader T target [] with
    | error f =>
      simp only [hdecoded] at hload
      cases hload
    | ok out =>
      simp only [hdecoded] at hload
      rw [Except.ok.inj hload]

end Files

/-- **A file storage is a map of typed values, over any run of its clients.** From any
directory, they store with any serializer, of any type, in either mode, and load and free,
and any of these calls may throw. A `load` that is served then delivers exactly the value that
was stored last, in either mode, unless nothing is known of its file: the `store` threw, or it was
a plain copy over a longer file, or over one that is no plain copy itself. Of an id whose file was
never there or was removed last, even if a `load` has created its file, only what is decoded of no
bytes is loaded. -/
theorem files_refine_values {hash : Bytes → ℕ} {reader : MessageReader} {S : FileStorage}
    {s : FileSystem} {σ : Storage} {events : List (PmemOp × Except Failure Bytes)}
    (hrun : Run (PmemStep hash reader) (.files S s) events σ) {id : Bytes} (hid : FileId id) :
    (∀ v, events.foldl FileValues.step (FileValues.start s) id = .value v →
      ∀ reader : MessageReader, reader.Reads v.T v.src → ∀ useMmap a, a.sys.Served →
        (PMEM.load hash v.ser useMmap v.T σ id reader v.src.target a).1 = .ok v.src.bytes) ∧
    (events.foldl FileValues.step (FileValues.start s) id = .nothing →
      ∀ ser reader useMmap T target a dst,
        (PMEM.load hash ser useMmap T σ id reader target a).1 = .ok dst →
          ser.deserialize reader T target [] = .ok dst) := by
  obtain ⟨t, rfl, hvalues⟩ := run_holdsFiles hrun
  have hdescribes := hvalues id hid.nulFree
  constructor
  · intro v hvalue reader hreader useMmap a ha
    rw [hvalue] at hdescribes
    exact hdescribes.load_value hreader useMmap ha
  · intro hvalue ser reader useMmap T target a dst hload
    rw [hvalue] at hdescribes
    exact hdescribes.load_nothing hload

/-- A number that is packed and stored over a longer file. -/
def storeNumber : PmemOp :=
  .store false [97] ⟨.capnproto, .int32, .scalar [1, 2, 0, 0]⟩ ⟨none, none, .served 3, []⟩

/-- A number that was stored over a longer file is loaded through a mapping, although the end of the
old file is behind it. -/
theorem files_refine_values_number :
    ∃ σ, Run (PmemStep (fun _ => 0) (capnpReader fun _ => 0))
        (.files .posix (FileSystem.empty.put [97] (some (List.replicate 100 255))))
        [(storeNumber, .ok [])] σ ∧
      (PMEM.load (fun _ => 0) .capnproto true .int32 σ [97] (capnpReader fun _ => 0) .scalar
        ⟨none, none, .served 3, []⟩).1 = .ok [1, 2, 0, 0] := by
  have hid : FileId [97] := ⟨by decide, by decide, by decide⟩
  have hstep : PmemStep (fun _ => 0) (capnpReader fun _ => 0)
      (.files .posix (FileSystem.empty.put [97] (some (List.replicate 100 255))))
      (storeNumber, .ok []) (storeNumber.exec (fun _ => 0) (capnpReader fun _ => 0)
        (.files .posix (FileSystem.empty.put [97] (some (List.replicate 100 255))))).2 :=
    ⟨⟨⟨rfl, by decide⟩, trivial⟩, hid, rfl⟩
  have hrun := Run.single hstep
  exact ⟨_, hrun, (files_refine_values hrun hid).1 _ rfl _ (capnpReader_reads _ rfl) true _
    (SysAnswers.served_spec 3)⟩

end Pmemcpy
