import Pmemcpy.Memcpy.TypedValues

/-!
# One client, any storage

A client does not know which storage the factory has made. Under ids that all of them
accept, it stores what fits, loads what is there as it was stored, and frees what it has
stored once. Then no reply tells the storages apart, in whatever modes the calls are. A value
that is freed after another one has been stored over it comes back in the hashtable only.
-/

namespace Pmemcpy

open Lib PMDKHashtableStorage

/-- The storages to choose from. -/
inductive StorageType where
  | pmdkHashtable
  | pmdkFs
  | posix
  deriving DecidableEq, Repr

/-- What `StorageFactory` makes of them, mapped at a path where nothing is. -/
def StorageType.get : StorageType → Storage
  | pmdkHashtable => .hashtable created
  | pmdkFs => .files .pmdkFs .empty
  | posix => .files .posix .empty

/-- What a client asks of a `PMEM` object. -/
inductive PmemRequest where
  | store (useMmap : Bool) (id : Bytes) (v : Stored)
  | load (ser : SerializerType) (useMmap : Bool) (T : ElemType) (id : Bytes) (target : Target)
  | free (id : Bytes)
  deriving DecidableEq, Repr

/-- The operation, with what PMDK and the system answer to it. -/
def PmemRequest.op (a : Answers) : PmemRequest → PmemOp
  | store useMmap id v => .store useMmap id v a
  | load ser useMmap T id target => .load ser useMmap T id target a
  | free id => .free id a

/-- A request that is served, and the reply to it. -/
def PmemServedStep (hash : Bytes → ℕ) (reader : MessageReader) (σ : Storage)
    (e : PmemRequest × Except Failure Bytes) (τ : Storage) : Prop :=
  ∃ a : Answers, σ.Serves a ∧ PmemStep hash reader σ (e.1.op a, e.2) τ

/-- A client asks for one thing after the other. What is next depends on the replies. -/
inductive PmemClient where
  | stop
  | ask (r : PmemRequest) (next : Except Failure Bytes → PmemClient)

/-- The client asks a storage for the next thing. -/
def PmemClientStep (hash : Bytes → ℕ) (reader : MessageReader) (now : Storage × PmemClient)
    (e : PmemRequest × Except Failure Bytes) (later : Storage × PmemClient) : Prop :=
  ∃ next, now.2 = .ask e.1 next ∧ later.2 = next e.2 ∧ PmemServedStep hash reader now.1 e later.1

/-- A request that is served is a step of the client who asks for it. -/
theorem PmemClientStep.of_served {hash : Bytes → ℕ} {reader : MessageReader} {σ τ : Storage}
    {r : PmemRequest} {next : Except Failure Bytes → PmemClient} {result : Except Failure Bytes}
    {a : Answers} (ha : σ.Serves a) (hstep : PmemStep hash reader σ (r.op a, result) τ) :
    PmemClientStep hash reader (σ, .ask r next) (r, result) (τ, next result) :=
  ⟨next, rfl, rfl, a, ha, hstep⟩

/-! ### What every storage has in common -/

/-- The id is one that every storage keeps apart from others. -/
def CommonId (id : Bytes) : Prop := StorableId id ∧ FileId id

/-- The value can be stored in either mode: it fits the buffer that is estimated for it, and a copy
of it is not empty. -/
structure Stored.Storable (v : Stored) : Prop where
  typed : v.Typed
  fits : ∃ out, v.ser.serializeInto v.T (PMEM.bufferSize v.ser v.T v.src) v.src = .ok out
  nonempty : v.ser = .noSerializer → v.src.bytes ≠ []

/-- A file with another value has the first one after a `store`, although it is not truncated. -/
def Stored.Covers (useMmap : Bool) (v other : Stored) : Prop :=
  v.ser ≠ .noSerializer ∨ useMmap = true ∨
    (other.ser = .noSerializer ∧ other.src.bytes.length ≤ v.src.bytes.length)

/-- The abstract model: what has been stored under each id and not been freed, the last one
first. -/
abbrev Objects := Bytes → List Stored

/-- Nothing is stored. -/
def Objects.empty : Objects := fun _ => []

namespace PmemRequest

/-- What every storage can do in the same way: a `free` is for what has been stored once. -/
def Proper (objects : Objects) : PmemRequest → Prop
  | store useMmap id v => CommonId id ∧ v.Storable ∧ ∀ w ∈ (objects id).head?, v.Covers useMmap w
  | load ser _ T id target => CommonId id ∧ ∃ v ∈ (objects id).head?,
      v.ser = ser ∧ v.T = T ∧ v.src.target = target
  | free id => CommonId id ∧ ∃ v, objects id = [v]

/-- The bytes that come back. -/
def reply (objects : Objects) : PmemRequest → Bytes
  | load _ _ _ id _ => ((objects id).head?.map fun v => v.src.bytes).getD []
  | store .. | free .. => []

/-- The objects afterwards. -/
def after (objects : Objects) : PmemRequest → Objects
  | store _ id v => Function.update objects id (v :: objects id)
  | load .. => objects
  | free id => Function.update objects id (objects id).tail

end PmemRequest

/-- All that a client may ask for is proper. -/
def PmemClient.Proper : PmemClient → Objects → Prop
  | stop, _ => True
  | ask r next, objects =>
    r.Proper objects ∧ (next (.ok (r.reply objects))).Proper (r.after objects)

/-- The objects after some requests. -/
def Objects.step (objects : Objects) (e : PmemRequest × Except Failure Bytes) : Objects :=
  e.1.after objects

/-- The stacks of a hashtable that has these objects. -/
def Objects.stacks (objects : Objects) : ValueStacks := fun id => (objects id).map some

/-- The last of what is stored under an id is in its file. -/
def FileValue.ofObjects : List Stored → FileValue
  | [] => nothing
  | v :: _ => value v

/-- What the files of a storage hold that has these objects. -/
def Objects.files (objects : Objects) : FileValues := fun id => .ofObjects (objects id)

/-- A storage of this type has the objects. -/
def HoldsObjects (hash : Bytes → ℕ) (objects : Objects) (σ : Storage) : StorageType → Prop
  | .pmdkHashtable => HoldsStacks hash σ objects.stacks
  | .pmdkFs => HoldsFiles .pmdkFs σ objects.files
  | .posix => HoldsFiles .posix σ objects.files

section Served

variable {hash : Bytes → ℕ} {reader : MessageReader} {σ τ : Storage} {id : Bytes} {v : Stored}
  {useMmap : Bool} {a : Answers} {objects : Objects} {r : PmemRequest}
  {e : PmemRequest × Except Failure Bytes}

/-- The buffer for a value that can be stored is not empty. -/
theorem Stored.Storable.bufferSize_ne_zero (h : v.Storable) :
    PMEM.bufferSize v.ser v.T v.src ≠ 0 := by
  obtain ⟨out, hout⟩ := h.fits
  have hle := h.typed.serializeInto_length hout
  have hne : out ≠ [] := by
    by_cases hser : v.ser = .noSerializer
    · have hplain := hout
      rw [hser] at hplain
      obtain rfl : v.src.bytes = out := Except.ok.inj hplain
      exact h.nonempty hser
    · have hencodes : v.Encodes out :=
        ⟨out, [], SerializerType.serialize_of_into hout, by simp, fun _ => rfl⟩
      exact hencodes.ne_nil hser
  have hpos := List.length_pos_iff.mpr hne
  omega

/-- A `store` of a value that can be stored returns, where it is served. -/
theorem PMEM.store_served (h : v.Storable) (ha : σ.Serves a) :
    (store hash v.ser useMmap v.T σ id v.src a).1 = .ok () := by
  obtain ⟨out, hout⟩ := h.fits
  cases useMmap with
  | false =>
    have hserial := SerializerType.serialize_of_into hout
    have hgrants : σ.GrantsStore out.length a := by
      cases σ with
      | hashtable s => exact ha.1
      | files S s =>
        have hserved : a.sys.Served := ha
        exact ⟨hserved.openFd, by rw [hserved.write]; rfl⟩
    simp [store, hserial, (Storage.store_ok_iff out).mpr hgrants]
  | true =>
    have hgrants : σ.GrantsAlloc (bufferSize v.ser v.T v.src) a := by
      have hsize := h.bufferSize_ne_zero
      cases σ with
      | hashtable s => exact ha.1
      | files S s =>
        have hserved : a.sys.Served := ha
        cases S with
        | posix => exact ⟨hserved.openFd, hserved.ftruncate, hserved.mmap, hsize⟩
        | pmdkFs => exact ⟨hserved.pmemMap, hsize⟩
    obtain ⟨buf, hbuf⟩ := (Storage.alloc_ok_iff hash id _).mpr hgrants
    generalize halloc : σ.alloc hash id a (bufferSize v.ser v.T v.src) = result at hbuf
    obtain ⟨_, τ⟩ := result
    obtain rfl : _ = Except.ok buf := hbuf
    simp [store, halloc, hout]

/-- A change under one id is one of the stack of this id. -/
theorem Objects.stacks_update (objects : Objects) (id : Bytes) (values : List Stored) :
    Objects.stacks (Function.update objects id values) =
      Function.update objects.stacks id (values.map some) := by
  funext id'
  exact Function.apply_update (fun _ l => List.map some l) objects id values id'

/-- A change under one id is one of the file of this id. -/
theorem Objects.files_update (objects : Objects) (id : Bytes) (values : List Stored) :
    Objects.files (Function.update objects id values) =
      Function.update objects.files id (.ofObjects values) := by
  funext id'
  exact Function.apply_update (fun _ l => FileValue.ofObjects l) objects id values id'

/-- What is stored over a value that it covers is all that is in the file. -/
theorem FileValue.stored_ofObjects {values : List Stored} (hv : v.Storable)
    (hcovers : ∀ w ∈ values.head?, v.Covers useMmap w) :
    (ofObjects values).stored useMmap v = value v := by
  unfold stored
  by_cases hwhole : v.ser ≠ .noSerializer ∨ useMmap = true
  · rw [if_pos hwhole]
  · rw [if_neg hwhole]
    rw [not_or, not_not] at hwhole
    cases values with
    | nil => exact if_neg (hv.nonempty hwhole.1)
    | cons w rest =>
      rcases hcovers w rfl with hser | hmap | hplain
      · exact absurd hwhole.1 hser
      · exact absurd hmap hwhole.2
      · exact if_pos hplain

/-! ### One request -/

variable {ty : StorageType} {S : FileStorage} {result : Except Failure Bytes} {ser : SerializerType}
  {T : ElemType} {target : Target}

/-- A `store` that is served returns, and puts its value on top, whatever the storage. -/
theorem HoldsObjects.store (h : HoldsObjects hash objects σ ty) (hv : v.Storable)
    (hcovers : ∀ w ∈ (objects id).head?, v.Covers useMmap w) (ha : σ.Serves a)
    (hstep : PmemStep hash reader σ (.store useMmap id v a, result) τ) :
    result = .ok [] ∧
      HoldsObjects hash (Function.update objects id (v :: objects id)) τ ty := by
  have hok : (PMEM.store hash v.ser useMmap v.T σ id v.src a).1 = .ok () := PMEM.store_served hv ha
  obtain rfl : (PMEM.store hash v.ser useMmap v.T σ id v.src a).1.map (fun _ => []) = result :=
    congrArg Prod.fst hstep.2.2
  rw [hok] at hstep ⊢
  refine ⟨rfl, ?_⟩
  have hfiles {S : FileStorage} (h : HoldsFiles S σ objects.files) :
      HoldsFiles S τ (Objects.files (Function.update objects id (v :: objects id))) := by
    have hafter := h.step hstep
    have hput : objects.files.step (.store useMmap id v a, .ok []) =
        Objects.files (Function.update objects id (v :: objects id)) := by
      rw [Objects.files_update]
      exact congrArg (Function.update objects.files id) (FileValue.stored_ofObjects hv hcovers)
    rw [← hput]
    exact hafter
  cases ty with
  | pmdkHashtable =>
    have hafter := HoldsStacks.step h hstep
    obtain ⟨s, _, rfl, _⟩ := h
    have hentry : a.entry.isSome := ha.2
    have hpushed : objects.stacks.step (.store useMmap id v a, .ok []) =
        Objects.stacks (Function.update objects id (v :: objects id)) := by
      rw [Objects.stacks_update]
      exact if_pos hentry
    show HoldsStacks hash τ _
    rw [← hpushed]
    exact hafter
  | pmdkFs => exact hfiles h
  | posix => exact hfiles h

/-- A `load` that is served delivers the value on top, whatever the storage. -/
theorem HoldsObjects.load {rest : List Stored} (h : HoldsObjects hash objects σ ty)
    (hreader : reader.Reads v.T v.src) (hid : CommonId id) (hcons : objects id = v :: rest)
    (ha : σ.Serves a)
    (hstep : PmemStep hash reader σ (.load v.ser useMmap v.T id v.src.target a, result)
      τ) :
    result = .ok v.src.bytes ∧ HoldsObjects hash objects τ ty := by
  obtain rfl : (PMEM.load hash v.ser useMmap v.T σ id reader v.src.target a).1 =
      result := congrArg Prod.fst hstep.2.2
  have hfiles {S : FileStorage} (h : HoldsFiles S σ objects.files) :
      (PMEM.load hash v.ser useMmap v.T σ id reader v.src.target a).1 =
        .ok v.src.bytes ∧ HoldsFiles S τ objects.files := by
    refine ⟨?_, h.step hstep⟩
    obtain ⟨s, rfl, hvalues⟩ := h
    have hdescribes := hvalues id hid.2.nulFree
    rw [Objects.files, hcons] at hdescribes
    exact hdescribes.load_value hreader useMmap ha
  cases ty with
  | pmdkHashtable =>
    have htop : objects.stacks id = some v :: rest.map some := congrArg (List.map some) hcons
    exact ⟨HoldsStacks.load_value h hid.1 htop hreader useMmap a, HoldsStacks.step h hstep⟩
  | pmdkFs => exact hfiles h
  | posix => exact hfiles h

/-- A `free` of what was stored once returns, if it is served, and leaves nothing, whatever the
storage. -/
theorem HoldsObjects.free (h : HoldsObjects hash objects σ ty) (hid : CommonId id)
    (hone : objects id = [v]) (ha : σ.Serves a)
    (hstep : PmemStep hash reader σ (.free id a, result) τ) :
    result = .ok [] ∧ HoldsObjects hash (Function.update objects id []) τ ty := by
  obtain rfl : (σ.free hash id a).1.map (fun _ => ([] : Bytes)) = result :=
    congrArg Prod.fst hstep.2.2
  have hfiles {S : FileStorage} (h : HoldsFiles S σ objects.files) :
      (σ.free hash id a).1.map (fun _ => ([] : Bytes)) = .ok [] ∧
        HoldsFiles S τ (Objects.files (Function.update objects id [])) := by
    have hafter := h.step hstep
    obtain ⟨s, rfl, _⟩ := h
    have hserved : a.sys.Served := ha
    have hfree : (S.free s id a.sys).1 = .ok () := by
      rw [S.free_eq_freeFile]
      rfl
    refine ⟨by simp [Storage.free, hfree, Except.map], ?_⟩
    rw [FileValues.step, hserved.remove, if_pos rfl] at hafter
    rwa [Objects.files_update]
  cases ty with
  | pmdkHashtable =>
    have hafter := HoldsStacks.step h hstep
    obtain ⟨s, _, rfl, hs, hvalues⟩ := h
    have hfound := (HoldsStacks.free hs hvalues hid.1 rfl).2
    constructor
    · cases hfree : (s.free hash id).1 with
      | ok _ => simp [Storage.free, hfree, Except.map]
      | error f =>
        have hnil := hfound.mpr ⟨f, hfree⟩
        rw [Objects.stacks, hone] at hnil
        cases hnil
    · show HoldsStacks hash τ _
      rw [Objects.stacks_update]
      rw [ValueStacks.step, ValueStacks.pop, Objects.stacks, hone] at hafter
      exact hafter
  | pmdkFs => exact hfiles h
  | posix => exact hfiles h

/-- **A proper request has one reply, whatever storage serves it.** -/
theorem HoldsObjects.served (h : HoldsObjects hash objects σ ty) (hreader : reader.ReadsBack)
    (hstorable : ∀ id, ∀ v ∈ objects id, v.Storable) (hr : r.Proper objects)
    (hstep : PmemServedStep hash reader σ (r, result) τ) :
    result = .ok (r.reply objects) ∧ HoldsObjects hash (r.after objects) τ ty := by
  obtain ⟨a, ha, hstep⟩ := hstep
  cases r with
  | store useMmap id v => exact h.store hr.2.1 hr.2.2 ha hstep
  | load ser useMmap T id target =>
    obtain ⟨hid, v, hhead, rfl, rfl, rfl⟩ := hr
    obtain ⟨rest, hcons⟩ := List.head?_eq_some_iff.mp hhead
    have hreply : (PmemRequest.load v.ser useMmap v.T id v.src.target).reply objects =
        v.src.bytes := by simp [PmemRequest.reply, hcons]
    have hreads : reader.Reads v.T v.src :=
      hreader v.T v.src (hstorable id v (List.mem_of_mem_head? hhead)).typed.length
    rw [hreply]
    exact h.load hreads hid hcons ha hstep
  | free id =>
    obtain ⟨hid, v, hone⟩ := hr
    rw [PmemRequest.after, hone]
    exact h.free hid hone ha hstep

end Served

/-! ### Whole clients -/

/-- What a client asks for and is told in so many steps, and what is left of it. -/
def PmemClient.told : ℕ → PmemClient → Objects →
    List (PmemRequest × Except Failure Bytes) × PmemClient
  | 0, client, _ => ([], client)
  | _ + 1, stop, _ => ([], stop)
  | n + 1, ask r next, objects =>
    let (log, rest) := (next (.ok (r.reply objects))).told n (r.after objects)
    ((r, .ok (r.reply objects)) :: log, rest)

section Whole

variable {hash hash' : Bytes → ℕ} {reader reader' : MessageReader} {σ τ : Storage}
  {ty ty' : StorageType} {client rest rest' : PmemClient} {objects : Objects} {id : Bytes}
  {log log' : List (PmemRequest × Except Failure Bytes)}

/-- A new storage has no objects. -/
theorem StorageType.get_holds (ty : StorageType) : HoldsObjects hash Objects.empty ty.get ty := by
  have hfiles (S : FileStorage) : HoldsFiles S (.files S .empty) Objects.empty.files :=
    ⟨.empty, rfl, fun _ _ => rfl⟩
  cases ty with
  | pmdkHashtable => exact ⟨created, Stacks.empty, rfl, created_represents, fun _ => .nil⟩
  | pmdkFs => exact hfiles .pmdkFs
  | posix => exact hfiles .posix

/-- All that a proper client has stored can be stored. -/
theorem PmemRequest.Proper.storable {r : PmemRequest} (hr : r.Proper objects)
    (h : ∀ id, ∀ v ∈ objects id, v.Storable) : ∀ id, ∀ v ∈ r.after objects id, v.Storable := by
  intro id v hv
  cases r with
  | load => exact h id v hv
  | store useMmap id' w =>
    rw [after, Function.update_apply] at hv
    split at hv
    · rcases List.mem_cons.mp hv with rfl | hv
      · exact hr.2.1
      · exact h id' v hv
    · exact h id v hv
  | free id' =>
    rw [after, Function.update_apply] at hv
    split at hv
    · exact h id' v (List.mem_of_mem_tail hv)
    · exact h id v hv

/-- The replies to a proper client are those of the abstract model, and the storage then has the
objects of the abstract model. -/
theorem PmemClient.run_told (hreader : reader.ReadsBack) (hclient : client.Proper objects)
    (h : HoldsObjects hash objects σ ty) (hstorable : ∀ id, ∀ v ∈ objects id, v.Storable)
    (hrun : Run (PmemClientStep hash reader) (σ, client) log (τ, rest)) :
    (log, rest) = client.told log.length objects ∧
      HoldsObjects hash (log.foldl Objects.step objects) τ ty ∧
      ∀ id, ∀ v ∈ log.foldl Objects.step objects id, v.Storable := by
  induction log generalizing σ client objects with
  | nil =>
    obtain ⟨rfl, rfl⟩ := Prod.mk.inj hrun.nil_inv
    exact ⟨rfl, h, hstorable⟩
  | cons e log ih =>
    obtain ⟨⟨mid, client'⟩, ⟨next, rfl, rfl, hstep⟩, hrest⟩ := hrun.cons_inv
    obtain ⟨r, result⟩ := e
    have hserved : result = .ok (r.reply objects) ∧ _ :=
      h.served hreader hstorable hclient.1 hstep
    obtain ⟨rfl, hmid⟩ := hserved
    obtain ⟨htold, hlater⟩ := ih hclient.2 hmid (hclient.1.storable hstorable) hrest
    refine ⟨?_, hlater⟩
    rw [List.length_cons, told, ← htold]

/-- All that is stored at the start can be stored, since nothing is. -/
theorem Objects.empty_storable (id : Bytes) : ∀ v ∈ Objects.empty id, v.Storable :=
  List.forall_mem_nil _

/-- A `free` in the hashtable brings back what was stored before. -/
theorem HoldsObjects.free_hashtable {v w : Stored} {others : List Stored} {a : Answers}
    (h : HoldsObjects hash objects σ .pmdkHashtable) (hreader : reader.Reads w.T w.src)
    (hid : StorableId id) (htwo : objects id = v :: w :: others) :
    (σ.free hash id a).1 = .ok () ∧ ∀ useMmap c,
      (PMEM.load hash w.ser useMmap w.T (σ.free hash id a).2 id reader w.src.target c).1 =
        .ok w.src.bytes := by
  have hstacks : objects.stacks id = some v :: some w :: others.map some :=
    congrArg (List.map some) htwo
  obtain ⟨s, _, rfl, hs, hvalues⟩ := h
  obtain ⟨hafter, hthrows⟩ := HoldsStacks.free (t := (s.free hash id).2) hs hvalues hid rfl
  constructor
  · cases hfree : (s.free hash id).1 with
    | ok _ => exact hfree
    | error f =>
      have hnil := hthrows.mpr ⟨f, hfree⟩
      rw [hstacks] at hnil
      cases hnil
  · intro useMmap c
    have htop : objects.stacks.pop id id = some w :: others.map some := by
      rw [ValueStacks.pop, Function.update_self, hstacks, List.tail_cons]
    exact hafter.load_value hid htop hreader useMmap c

/-- A `free` of a file leaves nothing to load but what is decoded of no bytes. -/
theorem HoldsFiles.free {S : FileStorage} {values : FileValues} {a : Answers}
    (h : HoldsFiles S σ values) (ha : σ.Serves a) :
    (σ.free hash id a).1 = .ok () ∧ ∀ ser useMmap T target c dst,
      (PMEM.load hash ser useMmap T (σ.free hash id a).2 id reader target c).1 = .ok dst →
        ser.deserialize reader T target [] = .ok dst := by
  obtain ⟨s, rfl, _⟩ := h
  have hserved : a.sys.Served := ha
  have hfree : S.free s id a.sys = (.ok (), s.remove (cStr id) true) := by
    rw [S.free_eq_freeFile, freeFile, hserved.remove]
  have hstate : (Storage.files S s).free hash id a =
      (.ok (), .files S (s.remove (cStr id) true)) := by
    simp [Storage.free, hfree]
  have hnothing : FileValue.nothing.Describes ((s.remove (cStr id) true).files (cStr id)) := by
    simp [FileValue.Describes, FileSystem.remove]
  rw [hstate]
  exact ⟨rfl, fun ser useMmap T target c dst hload => hnothing.load_nothing hload⟩

end Whole

/-- **A proper client cannot tell the storages apart.** Whichever two storages the factory has made
for it, with whatever hashes and readers, and whatever PMDK and the system answer as long as they
serve it: after as many requests it has been told the same, byte for byte, and goes on in the same
way. It stores values that fit their buffers, and copies no plain value over a longer one or over a
message. It loads what has been stored last, as this was stored. It frees what has been stored
once since it was freed last. -/
theorem storages_interchangeable {hash hash' : Bytes → ℕ} {reader reader' : MessageReader}
    {ty ty' : StorageType} {client rest rest' : PmemClient} {σ τ : Storage}
    {log log' : List (PmemRequest × Except Failure Bytes)} (hreader : reader.ReadsBack)
    (hreader' : reader'.ReadsBack) (hclient : client.Proper Objects.empty)
    (hrun : Run (PmemClientStep hash reader) (ty.get, client) log (σ, rest))
    (hrun' : Run (PmemClientStep hash' reader') (ty'.get, client) log' (τ, rest'))
    (hlength : log.length = log'.length) : log = log' ∧ rest = rest' := by
  have htold := (PmemClient.run_told hreader hclient ty.get_holds Objects.empty_storable hrun).1
  have htold' :=
    (PmemClient.run_told hreader' hclient ty'.get_holds Objects.empty_storable hrun').1
  rw [hlength] at htold
  exact Prod.mk.inj (htold.trans htold'.symm)

/-- A byte that is stored as it is. -/
def plainByte (b : UInt8) : PmemRequest := .store false [97] ⟨.noSerializer, .uint8, .array 1 [b]⟩

/-- The byte is loaded through a mapping. -/
def oneByteBack : PmemRequest := .load .noSerializer true .uint8 [97] (.array 1)

/-- The system serves a request, and PMDK gives it the next two objects of a pool. -/
def nextTwo (k : ℕ) : Answers :=
  ⟨some (zeroed k 1), some (zeroed (k + 1) PMEMPointer.structSize), .served 3, []⟩

/-- Every storage accepts the id `a`. -/
theorem commonId_a : CommonId [97] := ⟨storable_a, by decide, by decide, by decide⟩

section Examples

variable {hash : Bytes → ℕ} {reader : MessageReader} {k : ℕ}

/-- A byte can be stored. -/
theorem plainByte_storable (b : UInt8) : Stored.Storable ⟨.noSerializer, .uint8, .array 1 [b]⟩ :=
  ⟨⟨rfl, by simp [Source.bytes]⟩, ⟨[b], rfl⟩, fun _ => by simp [Source.bytes]⟩

/-- A pool that lies below an offset stores a byte in the objects that follow. -/
theorem plainByte_hashtable {s : PMDKHashtableStorage} (h : s.pool.Below k) (hpos : 0 < k)
    (hk : k + 1 < 2 ^ 64) (b : UInt8) (next : Except Failure Bytes → PmemClient) :
    PmemClientStep hash reader (.hashtable s, .ask (plainByte b) next) (plainByte b, .ok [])
        (.hashtable (storedAt hash s [97] [b] k), next (.ok [])) ∧
      (storedAt hash s [97] [b] k).pool.Below (k + 2) := by
  have hstored : SessionStep hash s (storeAt [97] [b] k) (storedAt hash s [97] [b] k) ∧
      (storedAt hash s [97] [b] k).pool.Below (k + 2) :=
    SessionStep.storeAt h storable_a hpos hk (by simp)
  have hserves : (Storage.hashtable s).Serves (nextTwo k) := ⟨rfl, rfl⟩
  have hfresh := h.fresh (n := 1) hpos (by omega) (by decide)
  have halloc := h.pobjAlloc (n := 1) (by omega) fun raw => raw
  have hentry := halloc.fresh (n := PMEMPointer.structSize) (by omega) hk (by decide)
  have hstep : PmemStep hash reader (.hashtable s) ((plainByte b).op (nextTwo k), .ok [])
      (.hashtable (storedAt hash s [97] [b] k)) :=
    ⟨⟨(plainByte_storable b).typed, hfresh, hentry⟩, storable_a, rfl⟩
  exact ⟨.of_served hserves hstep, hstored.2⟩

/-- A directory stores a byte, whatever is in it. -/
theorem plainByte_files (S : FileStorage) (s : FileSystem) (b : UInt8)
    (next : Except Failure Bytes → PmemClient) :
    ∃ t, PmemClientStep hash reader (.files S s, .ask (plainByte b) next) (plainByte b, .ok [])
      (.files S t, next (.ok [])) := by
  have hserves : (Storage.files S s).Serves (nextTwo 1) := SysAnswers.served_spec 3
  have hok : (PMEM.store hash .noSerializer false .uint8 (.files S s) [97] (.array 1 [b])
      (nextTwo 1)).1 = .ok () := PMEM.store_served (plainByte_storable b) hserves
  have hexec : ((plainByte b).op (nextTwo 1)).exec hash reader (.files S s) =
      (.ok [], .files S (S.store s [97] (nextTwo 1).sys [b]).2) := by
    apply Prod.ext
    · exact congrArg (Except.map fun _ => []) hok
    · rfl
  have hstep : PmemStep hash reader (.files S s) ((plainByte b).op (nextTwo 1), .ok [])
      (.files S (S.store s [97] (nextTwo 1).sys [b]).2) :=
    ⟨⟨(plainByte_storable b).typed, trivial⟩, commonId_a.2, hexec⟩
  exact ⟨_, .of_served hserves hstep⟩

/-- A load is answered somehow. -/
theorem oneByteBack_served {σ : Storage} (hserves : σ.Serves (nextTwo k)) (hid : σ.Accepts [97])
    (next : Except Failure Bytes → PmemClient) :
    ∃ result τ, PmemClientStep hash reader (σ, .ask oneByteBack next) (oneByteBack, result)
      (τ, next result) :=
  ⟨_, _, .of_served hserves ⟨trivial, hid, rfl⟩⟩

end Examples

/-- A client that stores a byte and loads it. -/
def storeThenLoad : PmemClient := .ask (plainByte 7) fun _ => .ask oneByteBack fun _ => .stop

/-- The hashtable and the files of a directory tell it the same. -/
theorem storages_interchangeable_two :
    ∃ σ τ rest log, log.length = 2 ∧
      Run (PmemClientStep (fun _ => 0) (capnpReader fun _ => 0))
        (StorageType.pmdkHashtable.get, storeThenLoad) log (σ, rest) ∧
      Run (PmemClientStep (fun _ => 0) (capnpReader fun _ => 1))
        (StorageType.posix.get, storeThenLoad) log (τ, rest) := by
  have hreader (behind : Memory) : (capnpReader behind).ReadsBack := fun T src hlength =>
    capnpReader_reads behind hlength
  have hproper : storeThenLoad.Proper Objects.empty :=
    ⟨⟨commonId_a, plainByte_storable 7, fun w hw => by cases hw⟩,
      ⟨commonId_a, _, rfl, rfl, rfl, rfl⟩, trivial⟩
  obtain ⟨hstore, _⟩ : PmemClientStep (fun _ => 0) (capnpReader fun _ => 0)
      (StorageType.pmdkHashtable.get, storeThenLoad) (plainByte 7, .ok []) _ ∧ _ :=
    plainByte_hashtable (Pool.below_empty 1000 1) (by decide) (by decide) 7 _
  have hserves : (Storage.hashtable (storedAt (fun _ => 0) created [97] [7] 1)).Serves
      (nextTwo 3) := ⟨rfl, rfl⟩
  obtain ⟨result, σ, hload⟩ : ∃ result σ, PmemClientStep (fun _ => 0) (capnpReader fun _ => 0)
      (_, .ask oneByteBack fun _ => .stop) (oneByteBack, result) (σ, .stop) :=
    oneByteBack_served hserves storable_a _
  obtain ⟨t, hstore'⟩ : ∃ t, PmemClientStep (fun _ => 0) (capnpReader fun _ => 1)
      (StorageType.posix.get, storeThenLoad) (plainByte 7, .ok []) (.files .posix t, _) :=
    plainByte_files .posix .empty 7 _
  have hserves' : (Storage.files .posix t).Serves (nextTwo 3) := SysAnswers.served_spec 3
  obtain ⟨result', τ, hload'⟩ : ∃ result τ, PmemClientStep (fun _ => 0) (capnpReader fun _ => 1)
      (_, .ask oneByteBack fun _ => .stop) (oneByteBack, result) (τ, .stop) :=
    oneByteBack_served hserves' commonId_a.2 _
  have hrun := (Run.single hstore).snoc hload
  have hrun' := (Run.single hstore').snoc hload'
  obtain ⟨hlog, _⟩ := storages_interchangeable (hreader _) (hreader _) hproper hrun hrun' rfl
  rw [← hlog] at hrun'
  exact ⟨σ, τ, .stop, _, rfl, hrun, hrun'⟩

/-- **What is stored twice tells the storages apart.** After the same requests of a client to the
hashtable and to files, the id under which it has stored one value over another is freed. Both
return. The hashtable then has the older value again, and of the file nothing is loaded but what
is decoded of no bytes. -/
theorem freed_twice_stored {hash hash' : Bytes → ℕ} {reader reader' : MessageReader}
    {ty : StorageType} {client rest rest' : PmemClient} {σ τ : Storage}
    {log : List (PmemRequest × Except Failure Bytes)} {id : Bytes} {v w : Stored}
    {others : List Stored} {a b : Answers} (hreader : reader.ReadsBack)
    (hreader' : reader'.ReadsBack) (hclient : client.Proper Objects.empty)
    (hrun : Run (PmemClientStep hash reader) (StorageType.pmdkHashtable.get, client) log (σ, rest))
    (hrun' : Run (PmemClientStep hash' reader') (ty.get, client) log (τ, rest'))
    (hty : ty ≠ .pmdkHashtable) (hid : CommonId id)
    (htwo : log.foldl Objects.step Objects.empty id = v :: w :: others) (hb : τ.Serves b) :
    ((σ.free hash id a).1 = .ok () ∧ ∀ useMmap c,
      (PMEM.load hash w.ser useMmap w.T (σ.free hash id a).2 id reader w.src.target c).1 =
        .ok w.src.bytes) ∧
    (τ.free hash' id b).1 = .ok () ∧ ∀ ser useMmap T target c dst,
      (PMEM.load hash' ser useMmap T (τ.free hash' id b).2 id reader' target c).1 = .ok dst →
        ser.deserialize reader' T target [] = .ok dst := by
  obtain ⟨_, hholds, hstorable⟩ : _ ∧ HoldsObjects hash _ σ .pmdkHashtable ∧ _ :=
    PmemClient.run_told hreader hclient StorageType.pmdkHashtable.get_holds Objects.empty_storable
      hrun
  obtain ⟨_, hholds', _⟩ : _ ∧ HoldsObjects hash' _ τ ty ∧ _ :=
    PmemClient.run_told hreader' hclient ty.get_holds Objects.empty_storable hrun'
  have hw : w ∈ log.foldl Objects.step Objects.empty id := by simp [htwo]
  have hreads : reader.Reads w.T w.src := hreader w.T w.src (hstorable id w hw).typed.length
  refine ⟨hholds.free_hashtable hreads hid.1 htwo, ?_⟩
  cases ty with
  | pmdkHashtable => exact absurd rfl hty
  | pmdkFs => exact HoldsFiles.free hholds' hb
  | posix => exact HoldsFiles.free hholds' hb

/-- A client that stores one byte over another one. -/
def storeTwice : PmemClient := .ask (plainByte 7) fun _ => .ask (plainByte 8) fun _ => .stop

/-- After two stores and a `free` the first byte is loaded from the hashtable, and none from the
file. -/
theorem freed_twice_stored_byte :
    ∃ σ τ, Run (PmemClientStep (fun _ => 0) (capnpReader fun _ => 0))
        (StorageType.pmdkHashtable.get, storeTwice) [(plainByte 7, .ok []), (plainByte 8, .ok [])]
        (σ, .stop) ∧
      Run (PmemClientStep (fun _ => 0) (capnpReader fun _ => 0))
        (StorageType.posix.get, storeTwice) [(plainByte 7, .ok []), (plainByte 8, .ok [])]
        (τ, .stop) ∧
      (PMEM.load (fun _ => 0) .noSerializer true .uint8 (σ.free (fun _ => 0) [97] (nextTwo 5)).2
        [97] (capnpReader fun _ => 0) (.array 1) (nextTwo 5)).1 = .ok [7] ∧
      ∀ dst, (PMEM.load (fun _ => 0) .noSerializer false .uint8
        (τ.free (fun _ => 0) [97] (nextTwo 5)).2 [97] (capnpReader fun _ => 0) (.array 1)
        (nextTwo 5)).1 = .ok dst → dst = [] := by
  have hreader : (capnpReader fun _ => 0).ReadsBack := fun T src hlength =>
    capnpReader_reads _ hlength
  have hproper : storeTwice.Proper Objects.empty := by
    refine ⟨⟨commonId_a, plainByte_storable 7, fun w hw => by cases hw⟩,
      ⟨commonId_a, plainByte_storable 8, ?_⟩, trivial⟩
    rintro w ⟨⟩
    exact Or.inr (Or.inr ⟨rfl, le_rfl⟩)
  obtain ⟨hfirst, hbelow⟩ : PmemClientStep (fun _ => 0) (capnpReader fun _ => 0)
      (StorageType.pmdkHashtable.get, storeTwice) (plainByte 7, .ok []) _ ∧ _ :=
    plainByte_hashtable (Pool.below_empty 1000 1) (by decide) (by decide) 7 _
  have hrun := (Run.single hfirst).snoc
    (plainByte_hashtable hbelow (by decide) (by decide) 8 fun _ => .stop).1
  obtain ⟨s, hfirst'⟩ : ∃ s, PmemClientStep (fun _ => 0) (capnpReader fun _ => 0)
      (StorageType.posix.get, storeTwice) (plainByte 7, .ok []) (.files .posix s, _) :=
    plainByte_files .posix .empty 7 _
  obtain ⟨t, hsecond'⟩ : ∃ t, PmemClientStep (fun _ => 0) (capnpReader fun _ => 0)
      (.files .posix s, .ask (plainByte 8) fun _ => .stop) (plainByte 8, .ok [])
      (.files .posix t, .stop) := plainByte_files .posix s 8 _
  have hrun' := (Run.single hfirst').snoc hsecond'
  have hserved : (Storage.files .posix t).Serves (nextTwo 5) := SysAnswers.served_spec 3
  obtain ⟨⟨_, hback⟩, _, hnothing⟩ := freed_twice_stored hreader hreader hproper hrun hrun'
    (by decide) commonId_a rfl hserved
  refine ⟨_, _, hrun, hrun', hback true _, ?_⟩
  intro dst hload
  exact (Except.ok.inj (hnothing _ _ _ _ _ _ hload)).symm

end Pmemcpy
