import Pmemcpy.Lib.Hyperslab
import Pmemcpy.Memcpy.ArrayLoads
import Mathlib.Algebra.BigOperators.Ring.Finset

/-!
# Storing an array in blocks

`store` and `load` take the offsets and the sizes of a block, and pass on the
dimensions of the array only. Each `store` of a block reads as many elements as
the array has, and stores them over what the other blocks have left; each `load`
of a block gives all of what the last of them stored.
-/

namespace Pmemcpy

open Lib PMDKHashtableStorage

/-- `Dimensions`, `Offsets` or `Sizes` of these numbers, which are passed as `size_t`. -/
def Dimensions.ofNats (dims : List ℕ) : Dimensions := construct .uint64 (dims.map Nat.cast)

namespace PMEM

variable (hash : Bytes → ℕ) (ser : SerializerType) (useMmap : Bool) (T : ElemType) (σ : Storage)
  (id : Bytes)

/-- The elements that `store` reads where `src` points to. -/
def elemsRead (src : Memory) (dims : Dimensions) : Bytes :=
  src.read 0 (T.sizeof * dims.count.toNat)

/-- `store(id, src, offsets, sizes, dims)`, which is `store(id, src, dims)`. -/
def storeBlock (src : Memory) (_offsets _sizes dims : Dimensions) (a : Answers) :
    Except Failure Unit × Storage :=
  storeArray hash ser useMmap T σ id dims (elemsRead T src dims) a

/-- `load(id, dst, offsets, sizes, dims)`, which is `load(id, dst, dims)`. -/
def loadBlock (reader : MessageReader) (_offsets _sizes dims : Dimensions) (a : Answers) :
    Except Failure Bytes × Storage :=
  loadArray hash ser useMmap T σ id reader dims a

end PMEM

/-- A block that is stored: the slab, what `src` points to, and the answers the call gets. -/
structure BlockStore where
  slab : Slab
  src : Memory
  answers : Answers

/-- A `store` of a block that returns normally, and whose entry is linked. -/
def BlockStep (hash : Bytes → ℕ) (ser : SerializerType) (useMmap : Bool) (T : ElemType)
    (id : Bytes) (dims : List ℕ) (σ : Storage) (b : BlockStore) (τ : Storage) : Prop :=
  b.answers.Possible σ (PMEM.askedSize ser useMmap T
      (.array (Dimensions.ofNats dims).count.toNat (PMEM.elemsRead T b.src (.ofNats dims)))) ∧
    σ.Links b.answers ∧
    PMEM.storeBlock hash ser useMmap T σ id b.src (.ofNats b.slab.offsets) (.ofNats b.slab.sizes)
      (.ofNats dims) b.answers = (.ok (), τ)

/-- The elements of an array at a list of indices, one after another. -/
def elemsAt (array : List ℕ → Bytes) (indices : List (List ℕ)) : Bytes := indices.flatMap array

/-- Every `store` reads the elements of its block, every `load` of a block gives them back,
and a `load` of the whole array gives all of it, in row-major order. -/
structure AssemblesArray (hash : Bytes → ℕ) (ser : SerializerType) (useMmap : Bool) (T : ElemType)
    (id : Bytes) (dims : List ℕ) (reader : MessageReader) (array : List ℕ → Bytes)
    (stores : List BlockStore) (τ : Storage) : Prop where
  reads : ∀ b ∈ stores,
    (PMEM.elemsRead T b.src (.ofNats dims)).length = T.sizeof * b.slab.volume
  blocks : ∀ b ∈ stores, ∀ a : Answers, a.sys.Served →
    (PMEM.loadBlock hash ser useMmap T τ id reader (.ofNats b.slab.offsets) (.ofNats b.slab.sizes)
      (.ofNats dims) a).1 = .ok (elemsAt array b.slab.indices)
  whole : ∀ a : Answers, a.sys.Served →
    (PMEM.loadArray hash ser useMmap T τ id reader (.ofNats dims) a).1 =
      .ok (elemsAt array (box dims))

section Blocks

variable {hash : Bytes → ℕ} {ser : SerializerType} {useMmap : Bool} {T : ElemType} {σ τ : Storage}
  {id : Bytes} {dims : List ℕ} {b : BlockStore} {stores : List BlockStore} {a : Answers}
  {count : ℕ} {elems out : Bytes}

/-- The count of the dimensions is their product, where this is a `size_t`. -/
theorem toNat_count_ofNats (h : dims.prod < 2 ^ 64) :
    (Dimensions.ofNats dims).count.toNat = dims.prod := by
  have hcount := Dimensions.toNat_count_construct .uint64 (dims.map Nat.cast)
  rw [Dimensions.prod_convert_uint64, ← Nat.cast_list_prod] at hcount
  rw [Dimensions.ofNats]
  omega

/-- After a `store` that returns normally, a `load` in the same mode gets the message, and
what is left behind it. -/
theorem PMEM.store_loadSerial (henc : Encodes ser T count elems out) (hσ : σ.Reachable hash)
    (hid : σ.Accepts id) (ha : a.Possible σ (askedSize ser useMmap T (.array count elems)))
    (hok : (store hash ser useMmap T σ id (.array count elems) a).1 = .ok ()) (hlinks : σ.Links a) :
    ∃ rest, (ser = .noSerializer → rest = σ.leftover id useMmap out.length) ∧
      ∀ b : Answers, b.sys.Served →
        loadSerial hash useMmap (store hash ser useMmap T σ id (.array count elems) a).2 id b =
          .ok (out ++ rest) := by
  obtain ⟨rest, hcontains, hrest⟩ := store_contains henc hσ hid ha hok hlinks
  refine ⟨rest, hrest, ?_⟩
  intro b hb
  apply loadSerial_eq hcontains hb
  rintro ⟨rfl, hnil, t, ht⟩
  -- a buffer of no bytes would not have been mapped
  obtain ⟨hgranted, hfits⟩ := (store_mmap_ok_iff henc).mp hok
  cases σ with
  | hashtable s =>
    obtain ⟨u, _, _, hresult, _⟩ := store_hashtable_inserts henc hid.room ha hok
    rw [hresult] at ht
    cases ht
  | files S s =>
    have hne : out ≠ [] := (henc.nonempty_iff hfits).1.mp hgranted.size_ne_zero
    exact hne (List.append_eq_nil_iff.mp hnil).1

/-- A `store` leads to a storage of the same kind, and leaves what an equally long one would. -/
theorem PMEM.store_storage (henc : Encodes ser T count elems out) (hσ : σ.Reachable hash)
    (hid : σ.Accepts id) (ha : a.Possible σ (askedSize ser useMmap T (.array count elems)))
    (hok : (store hash ser useMmap T σ id (.array count elems) a).1 = .ok ()) :
    (store hash ser useMmap T σ id (.array count elems) a).2.Reachable hash ∧
      (store hash ser useMmap T σ id (.array count elems) a).2.Accepts id ∧
      (ser = .noSerializer →
        (store hash ser useMmap T σ id (.array count elems) a).2.leftover id useMmap out.length =
          σ.leftover id useMmap out.length) := by
  cases σ with
  | hashtable s =>
    obtain ⟨calls, hrun⟩ := hσ
    obtain ⟨t, _, _, hresult, _, hstep, _⟩ := store_hashtable_inserts henc hid.room ha hok
    rw [hresult]
    exact ⟨⟨_, hrun.snoc hstep⟩, hid, fun _ => rfl⟩
  | files S s =>
    obtain ⟨t, rest, hresult, hfile, hrest⟩ := store_files_writes henc hok
    rw [hresult]
    refine ⟨trivial, hid, ?_⟩
    intro hser
    cases useMmap with
    | true => rfl
    | false =>
      have hcontents : t.contents (cStr id) = out ++ rest := by rw [FileSystem.contents, hfile]; rfl
      show (t.contents (cStr id)).drop out.length = _
      rw [hcontents, List.drop_left, hrest hser]

/-- What one `store` of a block does: it puts as many elements as the array has under the id. -/
theorem BlockStep.stored (h : BlockStep hash ser useMmap T id dims σ b τ)
    (hσ : σ.Reachable hash) (hid : σ.Accepts id) (hlt : T.sizeof * dims.prod < 2 ^ 64) :
    ∃ out rest, Encodes ser T dims.prod (b.src.read 0 (T.sizeof * dims.prod)) out ∧
      (ser = .noSerializer → rest = σ.leftover id useMmap (T.sizeof * dims.prod)) ∧
      (∀ a : Answers, a.sys.Served →
        PMEM.loadSerial hash useMmap τ id a = .ok (out ++ rest)) ∧
      τ.Reachable hash ∧ τ.Accepts id ∧
      (ser = .noSerializer → τ.leftover id useMmap (T.sizeof * dims.prod) =
        σ.leftover id useMmap (T.sizeof * dims.prod)) := by
  have hpos : 0 < T.sizeof := by cases T <;> decide
  have hcount := toNat_count_ofNats ((Nat.le_mul_of_pos_left _ hpos).trans_lt hlt)
  obtain ⟨hpossible, hlinks, hcall⟩ := h
  rw [PMEM.storeBlock, PMEM.storeArray, PMEM.elemsRead, hcount] at hcall
  rw [PMEM.elemsRead, hcount] at hpossible
  have hok := congrArg Prod.fst hcall
  have hτ := congrArg Prod.snd hcall
  dsimp only at hok hτ
  have hlong : ¬TooLong ser dims.prod := fun hlong => PMEM.store_tooLong hlong hok
  have helems := Memory.length_read b.src 0 (T.sizeof * dims.prod)
  obtain ⟨out, henc⟩ := exists_encoding hlong helems (by rwa [helems])
  have hlength (hser : ser = .noSerializer) : out.length = T.sizeof * dims.prod := by
    rw [(henc.plain hser).1, helems]
  obtain ⟨rest, hrest, hserial⟩ := PMEM.store_loadSerial henc hσ hid hpossible hok hlinks
  obtain ⟨hreachable, haccepts, hleft⟩ := PMEM.store_storage henc hσ hid hpossible hok
  rw [hτ] at hserial hreachable haccepts hleft
  refine ⟨out, rest, henc, ?_, hserial, hreachable, haccepts, ?_⟩
  · intro hser
    rw [hrest hser, hlength hser]
  · intro hser
    rw [← hlength hser, hleft hser]

/-- The stores of blocks do not touch what is behind the array in its file. -/
theorem blocks_run (h : Run (BlockStep hash ser useMmap T id dims) σ stores τ)
    (hσ : σ.Reachable hash) (hid : σ.Accepts id) (hlt : T.sizeof * dims.prod < 2 ^ 64) :
    τ.Reachable hash ∧ τ.Accepts id ∧
      (ser = .noSerializer → τ.leftover id useMmap (T.sizeof * dims.prod) =
        σ.leftover id useMmap (T.sizeof * dims.prod)) := by
  induction h with
  | nil => exact ⟨hσ, hid, fun _ => rfl⟩
  | snoc _ hstep ih =>
    obtain ⟨hreachable, haccepts, hleft⟩ := ih
    obtain ⟨_, _, _, _, _, hreachable', haccepts', hleft'⟩ := hstep.stored hreachable haccepts hlt
    exact ⟨hreachable', haccepts', fun hser => (hleft' hser).trans (hleft hser)⟩

/-- What is read in the end is what the last block stored. -/
theorem last_block (h : Run (BlockStep hash ser useMmap T id dims) σ stores τ)
    (hne : stores ≠ []) (hσ : σ.Reachable hash) (hid : σ.Accepts id)
    (hlt : T.sizeof * dims.prod < 2 ^ 64) :
    ∃ b ∈ stores, ∃ out rest,
      Encodes ser T dims.prod (b.src.read 0 (T.sizeof * dims.prod)) out ∧
      (ser = .noSerializer → rest = σ.leftover id useMmap (T.sizeof * dims.prod)) ∧
      ∀ a : Answers, a.sys.Served → PMEM.loadSerial hash useMmap τ id a = .ok (out ++ rest) := by
  cases h with
  | nil => exact absurd rfl hne
  | snoc hrun hstep =>
    obtain ⟨hreachable, haccepts, hleft⟩ := blocks_run hrun hσ hid hlt
    obtain ⟨out, rest, henc, hrest, hserial, _⟩ := hstep.stored hreachable haccepts hlt
    refine ⟨_, List.mem_append_right _ (List.mem_singleton_self _), out, rest, henc, ?_, hserial⟩
    intro hser
    rw [hrest hser, hleft hser]

/-- **Blocks assemble the array exactly if there is nothing to assemble**: if every block has
as many elements as the array, so that it is stored as a whole or has no elements, and if
elements that are copied into a file are not followed by an older, longer file. This is so for
every storage that calls can lead to, every serializer, in either mode, every rank and
dimensions, every partition and every order of the stores. Of Cap'n Proto it is assumed that a
packed message is read back. -/
theorem assemblesArray_iff {packed packedArr : ElemType → Bytes → Except KjException Bytes}
    {behind : Memory} {array : List ℕ → Bytes} (hσ : σ.Reachable hash) (hid : σ.Accepts id)
    (hlt : T.sizeof * dims.prod < 2 ^ 64) (harray : ∀ index, (array index).length = T.sizeof)
    (hpart : Partition dims (stores.map BlockStore.slab))
    (hsrc : ∀ b ∈ stores,
      b.src.read 0 (T.sizeof * b.slab.volume) = elemsAt array b.slab.indices)
    (hpacked : ∀ rest, packedArr T (writePackedMessage (arraySegments T dims.prod
      (elemsAt array (box dims))) ++ rest) = .ok (elemsAt array (box dims)))
    (hrun : Run (BlockStep hash ser useMmap T id dims) σ stores τ) :
    AssemblesArray hash ser useMmap T id dims (messageReader packed packedArr behind) array stores
        τ ↔
      (∀ b ∈ stores, b.slab.volume = dims.prod) ∧
        (ser = .noSerializer → σ.leftover id useMmap (T.sizeof * dims.prod) = []) := by
  have hpos : 0 < T.sizeof := by cases T <;> decide
  have hcount := toNat_count_ofNats ((Nat.le_mul_of_pos_left _ hpos).trans_lt hlt)
  have hne : stores ≠ [] := fun hnil => hpart.nonempty (by rw [hnil]; rfl)
  obtain ⟨last, hlast, out, rest, henc, hrest, hserial⟩ := last_block hrun hne hσ hid hlt
  have helems := Memory.length_read last.src 0 (T.sizeof * dims.prod)
  constructor
  · intro h
    refine ⟨?_, ?_⟩
    · intro b hb
      have hread := h.reads b hb
      rw [PMEM.elemsRead, Memory.length_read, hcount] at hread
      exact (Nat.eq_of_mul_eq_mul_left hpos hread).symm
    · intro hser
      have hwhole := h.whole ⟨none, none, .served 3, []⟩ (SysAnswers.served_spec 3)
      rw [PMEM.loadArray, PMEM.load_eq, hserial _ (SysAnswers.served_spec 3), hser] at hwhole
      have hsame := congrArg List.length (Except.ok.inj hwhole)
      rw [(henc.plain hser).1, List.length_append, helems, elemsAt, length_flatMap_of harray,
        length_box] at hsame
      rw [← hrest hser]
      exact List.length_eq_zero_iff.mp (by omega)
  · rintro ⟨hfull, hclean⟩
    have hslab : ∀ b ∈ stores, elemsAt array b.slab.indices = elemsAt array (box dims) := by
      intro b hb
      rw [hpart.indices_eq_of_full _ (List.mem_map_of_mem hb)]
      intro s hs
      obtain ⟨b', hb', rfl⟩ := List.mem_map.mp hs
      exact hfull b' hb'
    have hread : last.src.read 0 (T.sizeof * dims.prod) = elemsAt array (box dims) := by
      rw [← hslab last hlast, ← hsrc last hlast, hfull last hlast]
    rw [hread] at henc helems
    have hreads : (messageReader packed packedArr behind).Reads T
        (.array dims.prod (elemsAt array (box dims))) := messageReader_reads helems hpacked
    have hdecoded := henc.decodes _ hreads rest fun hser => (hrest hser).trans (hclean hser)
    have hwhole (a : Answers) (ha : a.sys.Served) :
        (PMEM.loadArray hash ser useMmap T τ id (messageReader packed packedArr behind)
          (.ofNats dims) a).1 = .ok (elemsAt array (box dims)) := by
      rw [PMEM.loadArray, PMEM.load_eq, hserial a ha, hcount]
      simp only [hdecoded]
    refine ⟨?_, ?_, hwhole⟩
    · intro b hb
      rw [PMEM.elemsRead, Memory.length_read, hcount, hfull b hb]
    · intro b hb a ha
      rw [hslab b hb]
      exact hwhole a ha

end Blocks

/-- A block whose elements are followed by zeros, stored where the system serves every call. -/
def BlockStore.served (slab : Slab) (elems : Bytes) : BlockStore :=
  ⟨slab, Memory.holding elems fun _ => 0, ⟨none, none, .served 3, []⟩⟩

/-- A call that stores a block into files and returns is a step of a run of blocks. -/
theorem BlockStore.served_step {ser : SerializerType} {T : ElemType} {id : Bytes} {dims : List ℕ}
    {S : FileStorage} {s : FileSystem} {slab : Slab} {elems : Bytes} {τ : Storage}
    (h : PMEM.storeArray (fun _ => 0) ser false T (.files S s) id (.ofNats dims)
      (PMEM.elemsRead T (.holding elems fun _ => 0) (.ofNats dims))
      ⟨none, none, .served 3, []⟩ = (.ok (), τ)) :
    BlockStep (fun _ => 0) ser false T id dims (.files S s) (.served slab elems) τ :=
  ⟨trivial, trivial, h⟩

/-- Two bytes that are stored as one block are assembled. -/
theorem assemblesArray_one_block : ∃ τ,
    AssemblesArray (fun _ => 0) .noSerializer false .uint8 [97] [2]
      (messageReader (fun _ _ => .error .malformed)
        (fun _ v => if writePackedMessage (arraySegments .uint8 2 [8, 5]) <+: v then .ok [8, 5]
          else .error .malformed) fun _ => 0)
      (fun index => if index = [0] then [8] else [5]) [.served ⟨[0], [2], rfl⟩ [8, 5]] τ := by
  have hreachable : (Storage.files .posix .empty).Reachable fun _ => 0 := trivial
  have hid : (Storage.files .posix .empty).Accepts [97] := ⟨by decide, by decide, by decide⟩
  have hpart : Partition [2] ([BlockStore.served ⟨[0], [2], rfl⟩ [8, 5]].map BlockStore.slab) :=
    ⟨List.cons_ne_nil _ _, List.Perm.refl _⟩
  have hstep : BlockStep (fun _ => 0) .noSerializer false .uint8 [97] [2] (.files .posix .empty)
      (.served ⟨[0], [2], rfl⟩ [8, 5]) _ := BlockStore.served_step rfl
  refine ⟨_, (assemblesArray_iff hreachable hid (by decide) ?_ hpart ?_ ?_
    (Run.single hstep)).mpr ⟨?_, fun _ => rfl⟩⟩
  · intro index
    by_cases hindex : index = [0]
    · simp [hindex, ElemType.sizeof]
    · simp [hindex, ElemType.sizeof]
  · intro b hb
    rw [List.mem_singleton.mp hb]
    decide
  · intro rest
    have harray : elemsAt (fun index => if index = [0] then [8] else [5]) (box [2]) = [8, 5] := by
      decide
    simp [harray]
  · intro b hb
    rw [List.mem_singleton.mp hb]
    rfl

/-- Of two blocks of one byte, only the second is there in the end. -/
theorem blocks_overwrite : ∃ τ,
    Partition [2] [⟨[0], [1], rfl⟩, ⟨[1], [1], rfl⟩] ∧
      Run (BlockStep (fun _ => 0) .noSerializer false .uint8 [97] [2]) (.files .posix .empty)
        [.served ⟨[0], [1], rfl⟩ [8], .served ⟨[1], [1], rfl⟩ [5]] τ ∧
      ¬AssemblesArray (fun _ => 0) .noSerializer false .uint8 [97] [2]
        (messageReader (fun _ _ => .error .malformed) (fun _ _ => .error .malformed) fun _ => 0)
        (fun index => if index = [0] then [8] else [5])
        [.served ⟨[0], [1], rfl⟩ [8], .served ⟨[1], [1], rfl⟩ [5]] τ := by
  have hfirst : BlockStep (fun _ => 0) .noSerializer false .uint8 [97] [2] (.files .posix .empty)
      (.served ⟨[0], [1], rfl⟩ [8]) _ := BlockStore.served_step rfl
  refine ⟨_, ⟨List.cons_ne_nil _ _, List.Perm.refl _⟩,
    (Run.single hfirst).snoc (BlockStore.served_step rfl), ?_⟩
  intro hclaim
  have hwhole := hclaim.whole ⟨none, none, .served 3, []⟩ (SysAnswers.served_spec 3)
  revert hwhole
  decide

end Pmemcpy
