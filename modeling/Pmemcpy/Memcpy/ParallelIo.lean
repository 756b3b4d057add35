import Pmemcpy.Formatter
import Pmemcpy.Memcpy.Dimensions
import Pmemcpy.Memcpy.SeparateClients

/-!
# Writing and reading an array in parallel

The two benchmark programs for OpenMP threads. Each thread of the first one stores its
block of ten fields under names of its own, and thread zero the extents of the whole
array. The threads of the second one load these extents, find out from them how long
their block is, and load it.
-/

namespace Pmemcpy

open Lib Program

/-! ### The programs -/

/-- The arguments of the programs: how many threads there are in each direction, and how many
elements each of them has there. -/
structure Grid where
  npx : ℕ
  npy : ℕ
  npz : ℕ
  ndx : ℕ
  ndy : ℕ
  ndz : ℕ
  deriving DecidableEq, Repr

/-- The fields `A` to `J`. -/
def fieldNames : List Bytes := (List.range 10).map fun i => [UInt8.ofNat (65 + i)]

/-- `tag + std::to_string(rank)`. -/
def blockId (field : Bytes) (rank : ℕ) : Bytes := field ++ decimal rank

/-- A thread asks for one operation after the other, and ends with the first that throws. -/
def Script.all : List PmemOp → Script
  | [] => .stop
  | op :: ops => .call op fun result =>
    match result with
    | .error _ => .stop
    | .ok _ => all ops

namespace Grid

variable (g : Grid) (ser : SerializerType) (useMmap : Bool)

/-- The number of threads. -/
def nprocs : ℕ := g.npx * g.npy * g.npz

/-- The elements of a block. -/
def dims : Dimensions := .construct .uint64 [g.ndx, g.ndy, g.ndz]

/-- The extents of the whole array. -/
def extents : List (Bytes × ℕ) :=
  [(ascii "nx", g.npx * g.ndx), (ascii "ny", g.npy * g.ndy), (ascii "nz", g.npz * g.ndz)]

/-- What a thread of `write_3d_pmemcpy_omp` stores. -/
def writes (data : Bytes) (rank : ℕ) : List (Bytes × Stored) :=
  (if rank = 0 then g.extents.map fun (id, n) => (id, ⟨ser, .uint64, .scalar (leBytes 8 n)⟩)
    else []) ++
  fieldNames.map fun field =>
    (blockId field rank, ⟨ser, .double, .array g.dims.count.toNat data⟩)

/-- A thread of `write_3d_pmemcpy_omp`. -/
def writer (a : ℕ → Answers) (data : Bytes) (rank : ℕ) : Script :=
  .all ((g.writes ser data rank).zipIdx.map fun ((id, v), i) => .store useMmap id v (a i))

/-- `int my_x_dim = nx / nproc_x`, of the bytes that were loaded. -/
def blockDim (n : Bytes) (nproc : ℕ) : ℤ := ((ofLe n / nproc : ℕ) : ℤ).bmod (2 ^ 32)

/-- A thread loads a number, and goes on with its bytes. -/
def loadNumber (id : Bytes) (a : Answers) (next : Bytes → Script) : Script :=
  .call (.load ser useMmap .uint64 id .scalar a) fun result =>
    match result with
    | .error _ => .stop
    | .ok n => next n

/-- A thread of `read_3d_pmemcpy_omp`. -/
def reader (a : ℕ → Answers) (rank : ℕ) : Script :=
  loadNumber ser useMmap (ascii "nx") (a 0) fun nx =>
  loadNumber ser useMmap (ascii "ny") (a 1) fun ny =>
  loadNumber ser useMmap (ascii "nz") (a 2) fun nz =>
    let dims := Dimensions.construct .uint64
      [blockDim nx g.npx, blockDim ny g.npy, blockDim nz g.npz]
    .all (fieldNames.zipIdx.map fun (field, i) =>
      .load ser useMmap .double (blockId field rank) (.array dims.count.toNat) (a (3 + i)))

/-- The names under which a thread stores. -/
def ids (rank : ℕ) : Set Bytes :=
  {id | (rank = 0 ∧ id ∈ g.extents.map Prod.fst) ∨
    ∃ field ∈ fieldNames, id = blockId field rank}

end Grid

/-! ### Names -/

/-- The digits of a number are not those of another one. -/
theorem decimal_injective : Function.Injective decimal := by
  intro m n h
  have hback (k : ℕ) : (decimal k).map (fun b => Char.ofNat b.toNat) = Nat.toDigits 10 k := by
    have hdigit (c : Char) (hc : c ∈ Nat.toDigits 10 k) :
        Char.ofNat (UInt8.ofNat c.toNat).toNat = c := by
      have hrange := Nat.isDigit_of_mem_toDigits (by decide) (by decide) hc
      have hsmall : c.toNat < 256 := by
        simp only [Char.isDigit, Bool.and_eq_true, decide_eq_true_eq] at hrange
        have hle : c.toNat ≤ 57 := hrange.2
        omega
      rw [UInt8.toNat_ofNat', Nat.mod_eq_of_lt hsmall, Char.ofNat_toNat]
    rw [decimal, List.map_map]
    exact (List.map_congr_left hdigit).trans (List.map_id _)
  have hdigits : Nat.toDigits 10 m = Nat.toDigits 10 n := by rw [← hback m, ← hback n, h]
  have hparsed := congrArg (fun digits => Nat.ofDigitChars 10 digits 0) hdigits
  simpa [Nat.ofDigitChars_ten_toDigits] using hparsed

/-- A digit is neither a NUL nor a slash. -/
theorem decimal_mem {n : ℕ} {b : UInt8} (hb : b ∈ decimal n) : 48 ≤ b.toNat ∧ b.toNat ≤ 57 := by
  obtain ⟨c, hc, rfl⟩ := List.mem_map.mp hb
  have hrange := Nat.isDigit_of_mem_toDigits (by decide) (by decide) hc
  simp only [Char.isDigit, Bool.and_eq_true, decide_eq_true_eq] at hrange
  have hge : 48 ≤ c.toNat := hrange.1
  have hle : c.toNat ≤ 57 := hrange.2
  rw [UInt8.toNat_ofNat']
  omega

/-- The field of a block is a capital letter. -/
theorem fieldNames_mem {field : Bytes} (h : field ∈ fieldNames) :
    ∃ b : UInt8, field = [b] ∧ 65 ≤ b.toNat ∧ b.toNat ≤ 74 := by
  obtain ⟨i, hi, rfl⟩ := List.mem_map.mp h
  have hlt := List.mem_range.mp hi
  refine ⟨_, rfl, ?_⟩
  rw [UInt8.toNat_ofNat']
  omega

/-- A block is found again by its name. -/
theorem blockId_injective {field field' : Bytes} {rank rank' : ℕ} (hfield : field ∈ fieldNames)
    (hfield' : field' ∈ fieldNames) (h : blockId field rank = blockId field' rank') :
    field = field' ∧ rank = rank' := by
  obtain ⟨b, rfl, _⟩ := fieldNames_mem hfield
  obtain ⟨b', rfl, _⟩ := fieldNames_mem hfield'
  rw [blockId, blockId, List.singleton_append, List.singleton_append, List.cons_eq_cons] at h
  exact ⟨by rw [h.1], decimal_injective h.2⟩

/-- The name of a block is the name of a file. -/
theorem blockId_fileId {field : Bytes} (hfield : field ∈ fieldNames) (rank : ℕ) :
    FileId (blockId field rank) := by
  obtain ⟨b, rfl, hge, hle⟩ := fieldNames_mem hfield
  have hother (c : UInt8) (hc : c ∈ blockId [b] rank) : 48 ≤ c.toNat := by
    rcases List.mem_cons.mp hc with rfl | hdigit
    · omega
    · exact (decimal_mem hdigit).1
  refine ⟨by simp [blockId], ?_, ?_⟩
  · intro hslash
    exact absurd (hother _ hslash) (by decide)
  · rintro c hc rfl
    exact absurd (hother _ hc) (by decide)

/-- The names of the extents are not those of a block. -/
theorem extent_ne_blockId {g : Grid} {id field : Bytes} (hid : id ∈ g.extents.map Prod.fst)
    (hfield : field ∈ fieldNames) (rank : ℕ) : id ≠ blockId field rank := by
  obtain ⟨b, rfl, hge, hle⟩ := fieldNames_mem hfield
  rintro rfl
  have hhead : b = 110 := by
    simp only [Grid.extents, List.map_cons, List.map_nil, List.mem_cons, List.not_mem_nil,
      or_false, blockId] at hid
    rcases hid with h | h | h
    all_goals exact (List.cons_eq_cons.mp h).1
  rw [hhead] at hle
  exact absurd hle (by decide)

/-! ### What the writers leave -/

section Writers

variable {S : FileStorage} {g : Grid} {ser : SerializerType} {useMmap : Bool} {own : Set Bytes}
  {ops : List PmemOp} {log : List (PmemOp × Except Failure Bytes)} {data : Bytes} {rank : ℕ}
  {id : Bytes} {v : Stored} {a : ℕ → Answers}

/-- Where nothing has thrown, all has been asked for. -/
theorem Script.all_gives (h : (Script.all ops).Gives log)
    (hok : ∀ e ∈ log, ∃ bytes, e.2 = .ok bytes) : log.map Prod.fst = ops := by
  induction ops generalizing log with
  | nil =>
    obtain rfl : log = [] := h
    rfl
  | cons op ops ih =>
    obtain ⟨result, rest, rfl, hrest⟩ := h
    obtain ⟨bytes, hbytes⟩ := hok (op, result) (by simp)
    obtain rfl : result = .ok bytes := hbytes
    rw [List.map_cons, ih hrest fun e he => hok e (by simp [he])]

/-- Operations that keep to the ids of a thread are a thread that does. -/
theorem Script.all_keeps
    (h : ∀ op ∈ ops, op.id ∈ own ∧ FileId op.id ∧ ∀ s, op.Possible (.files S s)) :
    (Script.all ops).Keeps S own := by
  induction ops with
  | nil => trivial
  | cons op ops ih =>
    refine ⟨h op (by simp), ?_⟩
    rintro (f | bytes)
    · trivial
    · exact ih fun op' hop' => h op' (by simp [hop'])

/-- What is known of an id that one `store` of a run is about. -/
theorem foldl_stores (values : FileValues) (hnodup : (log.map fun e => e.1.id).Nodup)
    {a : Answers} {bytes : Bytes} (hmem : (.store useMmap id v a, .ok bytes) ∈ log) :
    log.foldl FileValues.step values id = (values id).stored useMmap v := by
  have hother (e : PmemOp × Except Failure Bytes) (values : FileValues) (he : e.1.id ≠ id) :
      FileValues.step values e id = values id := by
    obtain ⟨op, result⟩ := e
    have hne : id ≠ op.id := Ne.symm he
    cases op with
    | store useMmap' id' v' a' => cases result <;> exact Function.update_of_ne hne _ _
    | load => rfl
    | free id' a' =>
      dsimp only [FileValues.step]
      split
      · exact Function.update_of_ne hne _ _
      · rfl
  have hothers (events : List (PmemOp × Except Failure Bytes)) (values : FileValues)
      (he : ∀ e ∈ events, e.1.id ≠ id) : events.foldl FileValues.step values id = values id := by
    induction events generalizing values with
    | nil => rfl
    | cons e events ih =>
      rw [List.foldl_cons, ih _ fun e' he' => he e' (by simp [he']),
        hother e values (he e (by simp))]
  obtain ⟨before, after, rfl⟩ := List.append_of_mem hmem
  rw [List.map_append, List.map_cons] at hnodup
  obtain ⟨_, htail, hdisjoint⟩ := List.nodup_append.mp hnodup
  obtain ⟨hafter, _⟩ := List.nodup_cons.mp htail
  rw [List.foldl_append, List.foldl_cons, hothers after]
  · show Function.update _ id _ id = _
    rw [Function.update_self, hothers before]
    intro e he heq
    exact hdisjoint _ (List.mem_map_of_mem he) id List.mem_cons_self heq
  · intro e he heq
    have hid := List.mem_map_of_mem (f := fun e => e.1.id) he
    rw [heq] at hid
    exact hafter hid

/-- Every name that a thread stores under is one of the names of the thread. -/
theorem Grid.writes_ids (h : (id, v) ∈ g.writes ser data rank) : id ∈ g.ids rank := by
  rcases List.mem_append.mp h with hextent | hblock
  · split at hextent
    · rename_i hrank
      obtain ⟨extent, hmem, heq⟩ := List.mem_map.mp hextent
      cases heq
      exact Or.inl ⟨hrank, List.mem_map_of_mem hmem⟩
    · cases hextent
  · obtain ⟨field, hfield, heq⟩ := List.mem_map.mp hblock
    cases heq
    exact Or.inr ⟨field, hfield, rfl⟩

/-- What a thread stores is stored with the serializer of the program. -/
theorem Grid.writes_ser (h : (id, v) ∈ g.writes ser data rank) : v.ser = ser := by
  rcases List.mem_append.mp h with hextent | hblock
  · split at hextent
    · obtain ⟨extent, _, heq⟩ := List.mem_map.mp hextent
      cases heq
      rfl
    · cases hextent
  · obtain ⟨field, _, heq⟩ := List.mem_map.mp hblock
    cases heq
    rfl

/-- Every name that a thread stores under is the name of a file. -/
theorem Grid.ids_fileId (h : id ∈ g.ids rank) : FileId id := by
  rcases h with ⟨_, hextent⟩ | ⟨field, hfield, rfl⟩
  · simp only [extents, List.map_cons, List.map_nil, List.mem_cons, List.not_mem_nil,
      or_false] at hextent
    rcases hextent with rfl | rfl | rfl
    all_goals exact ⟨by decide, by decide, by decide⟩
  · exact blockId_fileId hfield rank

/-- No two threads store under one name. -/
theorem Grid.ids_noneShared (g : Grid) : NoneShared fun rank : Fin g.nprocs => g.ids rank := by
  intro j k hjk name hj hk
  rcases hj with ⟨hzero, hextent⟩ | ⟨field, hfield, rfl⟩
  · rcases hk with ⟨hzero', _⟩ | ⟨field, hfield, rfl⟩
    · exact hjk (Fin.ext (hzero.trans hzero'.symm))
    · exact extent_ne_blockId hextent hfield k rfl
  · rcases hk with ⟨_, hextent⟩ | ⟨field', hfield', heq⟩
    · exact extent_ne_blockId hextent hfield j rfl
    · exact hjk (Fin.ext (blockId_injective hfield hfield' heq).2)

/-- A thread stores once under each name. -/
theorem Grid.writes_nodup (g : Grid) (ser : SerializerType) (data : Bytes) (rank : ℕ) :
    ((g.writes ser data rank).map Prod.fst).Nodup := by
  have hfields : fieldNames.Nodup := by decide
  have hblocks : (fieldNames.map fun field => blockId field rank).Nodup := by
    refine hfields.map_on ?_
    intro field hfield field' hfield' h
    exact (blockId_injective hfield hfield' h).1
  have hextents : (g.extents.map Prod.fst).Nodup := by
    show [ascii "nx", ascii "ny", ascii "nz"].Nodup
    decide
  have hnames : (g.writes ser data rank).map Prod.fst =
      (if rank = 0 then g.extents.map Prod.fst else []) ++
        fieldNames.map fun field => blockId field rank := by
    rw [writes, List.map_append, List.map_map]
    split
    · rw [List.map_map]
      rfl
    · rfl
  rw [hnames]
  split
  · refine hextents.append hblocks ?_
    intro id hextent hblock
    obtain ⟨field, hfield, rfl⟩ := List.mem_map.mp hblock
    exact extent_ne_blockId hextent hfield rank rfl
  · exact hblocks

/-- The arguments are positive, `atoi` can have returned them, the number of threads is an `int`,
and a block is small enough to be in memory. -/
structure Grid.Fits (g : Grid) : Prop where
  procs : ∀ n ∈ [g.npx, g.npy, g.npz], 0 < n ∧ n < 2 ^ 31
  threads : g.nprocs < 2 ^ 31
  dims : ∀ n ∈ [g.ndx, g.ndy, g.ndz], 0 < n ∧ n < 2 ^ 31
  small : 8 * (g.ndx * g.ndy * g.ndz) < 2 ^ 64

/-- The elements of a block are counted. -/
theorem Grid.Fits.count (hg : g.Fits) : g.dims.count.toNat = g.ndx * g.ndy * g.ndz := by
  have hcount := Dimensions.toNat_count_construct .uint64 [(g.ndx : ℤ), g.ndy, g.ndz]
  have hprod : ([(g.ndx : ℤ), g.ndy, g.ndz].prod : ℤ) = ((g.ndx * g.ndy * g.ndz : ℕ) : ℤ) := by
    simp [mul_assoc]
  have hsmall := hg.small
  rw [Dimensions.prod_convert_uint64, hprod] at hcount
  rw [Grid.dims]
  omega

/-- What a thread stores is typed, and not empty. -/
theorem Grid.Fits.writes_typed (hg : g.Fits) (hdata : data.length = 8 * (g.ndx * g.ndy * g.ndz))
    (h : (id, v) ∈ g.writes ser data rank) : v.Typed ∧ v.src.bytes ≠ [] := by
  have hpos : 0 < data.length := by
    rw [hdata]
    have hx := (hg.dims g.ndx (by simp)).1
    have hy := (hg.dims g.ndy (by simp)).1
    have hz := (hg.dims g.ndz (by simp)).1
    exact Nat.mul_pos (by decide) (Nat.mul_pos (Nat.mul_pos hx hy) hz)
  rcases List.mem_append.mp h with hextent | hblock
  · split at hextent
    · obtain ⟨extent, _, heq⟩ := List.mem_map.mp hextent
      cases heq
      have hlength : (leBytes 8 extent.2).length = 8 := length_leBytes 8 extent.2
      exact ⟨⟨hlength, hlength.trans_lt (by decide)⟩, List.ne_nil_of_length_eq_add_one hlength⟩
    · cases hextent
  · obtain ⟨field, _, heq⟩ := List.mem_map.mp hblock
    cases heq
    refine ⟨⟨?_, ?_⟩, List.ne_nil_of_length_pos hpos⟩
    · show data.length = 8 * g.dims.count.toNat
      rw [hdata, hg.count]
    · show data.length < 2 ^ 64
      rw [hdata]
      exact hg.small

/-- A thread keeps to its names. -/
theorem Grid.Fits.writer_keeps (hg : g.Fits) (hdata : data.length = 8 * (g.ndx * g.ndy * g.ndz)) :
    (g.writer ser useMmap a data rank).Keeps S (g.ids rank) := by
  apply Script.all_keeps
  intro op hop
  obtain ⟨⟨⟨id, v⟩, i⟩, hmem, rfl⟩ := List.mem_map.mp hop
  have hwrite : (id, v) ∈ g.writes ser data rank := List.fst_mem_of_mem_zipIdx hmem
  have hid := Grid.writes_ids hwrite
  exact ⟨hid, Grid.ids_fileId hid, fun s => ⟨(hg.writes_typed hdata hwrite).1, trivial⟩⟩

/-- What a thread of the first program has stored is in its files, when it has stopped and nothing
has thrown. -/
theorem Grid.Fits.written (hg : g.Fits) {s : FileSystem} {reader : MessageReader}
    {data : ℕ → Bytes} {a : ℕ → ℕ → Answers}
    (hdata : ∀ rank < g.nprocs, (data rank).length = 8 * (g.ndx * g.ndy * g.ndz))
    (hnew : ser = .noSerializer → useMmap = false →
      ∀ rank < g.nprocs, ∀ id ∈ g.ids rank, s.files id = none)
    {order : List (Fin g.nprocs)}
    {now : Threads (Fin g.nprocs) FileSystem (List (PmemOp × Except Failure Bytes))}
    (hrun : Run TakesTurn
      ⟨s, fun rank : Fin g.nprocs =>
        (g.writer ser useMmap (a rank) (data rank) rank).program reader S⟩ order now)
    {rank : Fin g.nprocs} (hdone : now.programs rank = .done log)
    (hok : ∀ e ∈ log, ∃ bytes, e.2 = .ok bytes) (hmem : (id, v) ∈ g.writes ser (data rank) rank) :
    (FileValue.value v).Describes (now.state.files id) := by
  have hkeeps (rank : Fin g.nprocs) :
      (g.writer ser useMmap (a rank) (data rank) rank).Keeps S (g.ids rank) :=
    hg.writer_keeps (hdata rank rank.isLt)
  obtain ⟨hgives, _, hdescribes⟩ :=
    Script.run_separate (fun _ => 0) g.ids_noneShared hkeeps hrun hdone
  have hid := Grid.writes_ids hmem
  have hops := Script.all_gives hgives hok
  have hnodup : (log.map fun e => e.1.id).Nodup := by
    have hnames : log.map (fun e => e.1.id) = (g.writes ser (data rank) rank).map Prod.fst := by
      have hcomp : log.map (fun e => e.1.id) = (log.map Prod.fst).map PmemOp.id := by
        rw [List.map_map]
        rfl
      rw [hcomp, hops]
      refine Eq.trans ?_ (congrArg (List.map Prod.fst) (List.zipIdx_map_fst 0 _))
      rw [List.map_map, List.map_map]
      rfl
    rw [hnames]
    exact g.writes_nodup ser (data rank) rank
  obtain ⟨a', bytes, hlog⟩ : ∃ a' bytes, (PmemOp.store useMmap id v a', Except.ok bytes) ∈ log := by
    obtain ⟨i, hi, hget⟩ := List.getElem_of_mem hmem
    have hop : PmemOp.store useMmap id v (a rank i) ∈ log.map Prod.fst := by
      rw [hops]
      refine List.mem_map.mpr ⟨((id, v), i), ?_, rfl⟩
      rw [List.mem_zipIdx_iff_getElem?, List.getElem?_eq_getElem hi, hget]
    obtain ⟨e, he, hfst⟩ := List.mem_map.mp hop
    obtain ⟨bytes, hbytes⟩ := hok e he
    exact ⟨a rank i, bytes, by rwa [← hfst, ← hbytes]⟩
  have hvalue := hdescribes id hid (Grid.ids_fileId hid)
  rw [foldl_stores _ hnodup hlog] at hvalue
  have hstored : (FileValues.start s id).stored useMmap v = .value v := by
    have hser := Grid.writes_ser hmem
    by_cases hplain : ser = .noSerializer ∧ useMmap = false
    · have hnone := hnew hplain.1 hplain.2 rank rank.isLt id hid
      have hstart : FileValues.start s id = .nothing := by
        rw [FileValues.start, cStr_eq_self_iff.mpr (Grid.ids_fileId hid).nulFree, if_pos hnone]
      rw [hstart, FileValue.stored, if_neg (by simp [hser, hplain])]
      exact if_neg (hg.writes_typed (hdata rank rank.isLt) hmem).2
    · refine if_pos ?_
      rw [hser]
      by_contra hneither
      exact hplain (by simpa using hneither)
  rwa [hstored] at hvalue

end Writers

/-! ### What the readers get -/

section Readers

variable {S : FileStorage} {s : FileSystem} {g : Grid} {ser : SerializerType} {useMmap : Bool}
  {reader : MessageReader} {id : Bytes} {v : Stored} {script : Script} {a : Answers}
  {next : Except Failure Bytes → Script}

/-- All that a client may ask for are loads of files that are there. -/
def Script.Loads (s : FileSystem) : Script → Prop
  | .stop => True
  | .call op next => (∃ ser useMmap T id target a v, op = .load ser useMmap T id target a ∧
      s.files (cStr id) = some v) ∧ ∀ result, (next result).Loads s

/-- A `load` of a file that is there only looks at the files. -/
theorem PMEM.loadProgram_looks {bytes : Bytes} (hv : s.files (cStr id) = some bytes)
    (ser : SerializerType) (useMmap : Bool) (T : ElemType) (S : FileStorage) (target : Target)
    (a : Answers) :
    (loadProgram ser useMmap T S id reader target a).Looks FileSystem.files s := by
  refine Looks.bind ?_ trivial
  unfold serialProgram
  cases useMmap with
  | false => exact Pmemcpy.loadProgram_looks hv a.sys
  | true => exact (S.findBytesProgram_looks s id a.sys).bind trivial

/-- A client that loads files that are there only looks at the files. -/
theorem Script.Loads.looks (h : script.Loads s) :
    (script.program reader S).Looks FileSystem.files s := by
  induction script with
  | stop => trivial
  | call op next ih =>
    obtain ⟨⟨ser, useMmap, T, id, target, a, v, rfl, hv⟩, hnext⟩ := h
    exact (PMEM.loadProgram_looks hv ser useMmap T S target a).bind
      ((ih _ (hnext _)).bind trivial)

/-- A value is loaded alone, and leaves the files as they are. -/
theorem run_call_load (S : FileStorage) (useMmap : Bool) (hreader : reader.Reads v.T v.src)
    (hvalue : (FileValue.value v).Describes (s.files (cStr id))) (ha : a.sys.Served) :
    ∃ t, t.files = s.files ∧ ∀ next : Except Failure Bytes → Script,
      (((Script.call (.load v.ser useMmap v.T id v.src.target a) next).program reader S).run
          s).1.map Prod.snd =
        .ok v.src.bytes :: (((next (.ok v.src.bytes)).program reader S).run t).1.map Prod.snd := by
  have hload : (PMEM.load (fun _ => 0) v.ser useMmap v.T (.files S s) id reader v.src.target a).1 =
      .ok v.src.bytes := hvalue.load_value hreader useMmap ha
  obtain ⟨_, bytes, hfile, _⟩ := hvalue
  have hlooks : (PMEM.loadProgram v.ser useMmap v.T S id reader v.src.target a).Looks
      FileSystem.files s := PMEM.loadProgram_looks hfile v.ser useMmap v.T S v.src.target a
  have hfiles := (hlooks.congr rfl).2.2
  rw [PMEM.run_loadProgram] at hload
  refine ⟨_, hfiles, ?_⟩
  intro next
  dsimp only at hload
  rw [Script.program, PmemOp.program, run_bind, run_bind, hload]
  rfl

/-- Values are loaded one after the other. -/
theorem run_all_loads (S : FileStorage) (useMmap : Bool)
    {loads : List (Bytes × Stored × Answers)} (hloads : ∀ x ∈ loads,
      reader.Reads x.2.1.T x.2.1.src ∧
        (FileValue.value x.2.1).Describes (s.files (cStr x.1)) ∧ x.2.2.sys.Served) :
    (((Script.all (loads.map fun x =>
        .load x.2.1.ser useMmap x.2.1.T x.1 x.2.1.src.target x.2.2)).program reader S).run
          s).1.map Prod.snd = loads.map fun x => .ok x.2.1.src.bytes := by
  induction loads generalizing s with
  | nil => rfl
  | cons x loads ih =>
    obtain ⟨hreader, hvalue, ha⟩ := hloads x (by simp)
    obtain ⟨t, ht, hrun⟩ := run_call_load S useMmap hreader hvalue ha
    rw [List.map_cons, Script.all, hrun, List.map_cons, ih]
    intro y hy
    rw [ht]
    exact hloads y (by simp [hy])

/-- A client that loads a number goes on with the bytes of this number. -/
theorem run_loadNumber (S : FileStorage) (useMmap : Bool) {n : Bytes}
    (hreader : reader.Reads .uint64 (.scalar n))
    (hvalue : (FileValue.value ⟨ser, .uint64, .scalar n⟩).Describes (s.files (cStr id)))
    (ha : a.sys.Served) :
    ∃ t, t.files = s.files ∧ ∀ next : Bytes → Script,
      (((Grid.loadNumber ser useMmap id a next).program reader S).run s).1.map Prod.snd =
        .ok n :: (((next n).program reader S).run t).1.map Prod.snd := by
  obtain ⟨t, ht, hrun⟩ := run_call_load (v := ⟨ser, .uint64, .scalar n⟩) S useMmap hreader hvalue ha
  exact ⟨t, ht, fun next => hrun _⟩

/-- The reader computes the length of its block that the writer has stored. -/
theorem blockDim_extent {nproc ndim : ℕ} (hproc : 0 < nproc ∧ nproc < 2 ^ 31)
    (hdim : 0 < ndim ∧ ndim < 2 ^ 31) : Grid.blockDim (leBytes 8 (nproc * ndim)) nproc = ndim := by
  have hsmall : nproc * ndim < 256 ^ 8 := by
    have hmul := Nat.mul_lt_mul'' hproc.2 hdim.2
    omega
  have hback : ofLe (leBytes 8 (nproc * ndim)) = nproc * ndim := ofLe_leBytes_of_lt hsmall
  have hint : (ndim : ℤ).bmod (2 ^ 32) = ndim := by
    have hlt := hdim.2
    rw [Int.bmod_def]
    omega
  unfold Grid.blockDim
  rw [hback, Nat.mul_div_cancel_left _ hproc.1, hint]

/-- A thread of the second program gets what the first one has stored, if nothing else runs. -/
theorem Grid.Fits.reader_alone (hg : g.Fits) (hreader : reader.ReadsBack) {data : Bytes}
    (hdata : data.length = 8 * (g.ndx * g.ndy * g.ndz)) {rank : ℕ} {a : ℕ → Answers}
    (ha : ∀ i, (a i).sys.Served)
    (hextents : ∀ e ∈ g.extents, (FileValue.value ⟨ser, .uint64, .scalar (leBytes 8 e.2)⟩).Describes
      (s.files e.1))
    (hblocks : ∀ field ∈ fieldNames, (FileValue.value
      ⟨ser, .double, .array g.dims.count.toNat data⟩).Describes (s.files (blockId field rank))) :
    (((g.reader ser useMmap a rank).program reader S).run s).1.map Prod.snd =
      (g.extents.map fun e => .ok (leBytes 8 e.2)) ++ List.replicate 10 (.ok data) := by
  have hextent (e : Bytes × ℕ) (he : e ∈ g.extents) (t : FileSystem) (ht : t.files = s.files) :
      (FileValue.value ⟨ser, .uint64, .scalar (leBytes 8 e.2)⟩).Describes (t.files (cStr e.1)) := by
    have hown : e.1 ∈ g.ids 0 := Or.inl ⟨rfl, List.mem_map_of_mem he⟩
    have hid : FileId e.1 := Grid.ids_fileId hown
    rw [ht, cStr_eq_self_iff.mpr hid.nulFree]
    exact hextents e he
  have hnumber (n : ℕ) : reader.Reads .uint64 (.scalar (leBytes 8 n)) :=
    hreader _ _ (length_leBytes 8 n)
  obtain ⟨t, ht, hx⟩ := run_loadNumber S useMmap (hnumber _)
    (hextent (ascii "nx", g.npx * g.ndx) (by simp [extents]) s rfl) (ha 0)
  obtain ⟨u, hu, hy⟩ := run_loadNumber S useMmap (hnumber _)
    (hextent (ascii "ny", g.npy * g.ndy) (by simp [extents]) t ht) (ha 1)
  obtain ⟨w, hw, hz⟩ := run_loadNumber S useMmap (hnumber _)
    (hextent (ascii "nz", g.npz * g.ndz) (by simp [extents]) u (hu.trans ht)) (ha 2)
  have hdims : Dimensions.construct .uint64 [blockDim (leBytes 8 (g.npx * g.ndx)) g.npx,
      blockDim (leBytes 8 (g.npy * g.ndy)) g.npy, blockDim (leBytes 8 (g.npz * g.ndz)) g.npz] =
      g.dims := by
    rw [blockDim_extent (hg.procs _ (by simp)) (hg.dims _ (by simp)),
      blockDim_extent (hg.procs _ (by simp)) (hg.dims _ (by simp)),
      blockDim_extent (hg.procs _ (by simp)) (hg.dims _ (by simp))]
    rfl
  let loads := fieldNames.zipIdx.map fun (field, i) =>
    (blockId field rank, (⟨ser, .double, .array g.dims.count.toNat data⟩ : Stored), a (3 + i))
  have hloads : ∀ x ∈ loads, reader.Reads x.2.1.T x.2.1.src ∧
      (FileValue.value x.2.1).Describes (w.files (cStr x.1)) ∧ x.2.2.sys.Served := by
    intro x hmem
    obtain ⟨⟨field, i⟩, hfield, rfl⟩ := List.mem_map.mp hmem
    have hfield' : field ∈ fieldNames := List.fst_mem_of_mem_zipIdx hfield
    refine ⟨hreader _ _ ?_, ?_, ha _⟩
    · show data.length = 8 * g.dims.count.toNat
      rw [hdata, hg.count]
    rw [hw, hu, ht, cStr_eq_self_iff.mpr (blockId_fileId hfield' rank).nulFree]
    exact hblocks field hfield'
  have hall := run_all_loads S useMmap hloads
  have hreplicate : (loads.map fun x => (.ok x.2.1.src.bytes : Except Failure Bytes)) =
      List.replicate 10 (.ok data) := rfl
  rw [hreplicate, List.map_map] at hall
  rw [Grid.reader, hx, hy, hz, hdims]
  exact congrArg (fun rest => .ok (leBytes 8 (g.npx * g.ndx)) :: .ok (leBytes 8 (g.npy * g.ndy)) ::
    .ok (leBytes 8 (g.npz * g.ndz)) :: rest) hall

/-- A thread of the second program loads files that are there. -/
theorem Grid.reader_loads {rank : ℕ} {a : ℕ → Answers}
    (hextents : ∀ e ∈ g.extents, ∃ bytes, s.files (cStr e.1) = some bytes)
    (hblocks : ∀ field ∈ fieldNames, ∃ bytes, s.files (cStr (blockId field rank)) = some bytes) :
    (g.reader ser useMmap a rank).Loads s := by
  have hnumber (e : Bytes × ℕ) (he : e ∈ g.extents) (i : ℕ) {next : Bytes → Script}
      (hnext : ∀ n, (next n).Loads s) : (loadNumber ser useMmap e.1 (a i) next).Loads s := by
    obtain ⟨bytes, hbytes⟩ := hextents e he
    refine ⟨⟨_, _, _, _, _, _, _, rfl, hbytes⟩, ?_⟩
    rintro (f | n)
    · trivial
    · exact hnext n
  refine hnumber (ascii "nx", g.npx * g.ndx) (by simp [extents]) 0 fun nx => ?_
  refine hnumber (ascii "ny", g.npy * g.ndy) (by simp [extents]) 1 fun ny => ?_
  refine hnumber (ascii "nz", g.npz * g.ndz) (by simp [extents]) 2 fun nz => ?_
  have hall (ops : List PmemOp) (hops : ∀ op ∈ ops, ∃ ser useMmap T id target a v,
      op = .load ser useMmap T id target a ∧ s.files (cStr id) = some v) :
      (Script.all ops).Loads s := by
    induction ops with
    | nil => trivial
    | cons op ops ih =>
      refine ⟨hops op (by simp), ?_⟩
      rintro (f | bytes)
      · trivial
      · exact ih fun op' hop' => hops op' (by simp [hop'])
  apply hall
  intro op hop
  obtain ⟨⟨field, i⟩, hfield, rfl⟩ := List.mem_map.mp hop
  obtain ⟨bytes, hbytes⟩ := hblocks field (List.fst_mem_of_mem_zipIdx hfield)
  exact ⟨_, _, _, _, _, _, _, rfl, hbytes⟩

end Readers

/-- **What is written in parallel is read in parallel.** The threads of the first program take
turns at their system calls and memory accesses in any order, and so do those of the second one,
later, on the same files and with the same numbers of threads, serializer and mode. If nothing
that the first ones store throws, and plain copies find no older files, then each of the second
ones, all of which load the same three extents, and whose calls are served, finds the block that was
stored for its rank in each of the ten fields. -/
theorem parallel_write_read {S : FileStorage} {g : Grid} {ser : SerializerType} {useMmap : Bool}
    {reader : MessageReader} {s t : FileSystem} {data : ℕ → Bytes} {aw ar : ℕ → ℕ → Answers}
    (hreader : reader.ReadsBack) (hg : g.Fits)
    (hdata : ∀ rank < g.nprocs, (data rank).length = 8 * (g.ndx * g.ndy * g.ndz))
    (hnew : ser = .noSerializer → useMmap = false →
      ∀ rank < g.nprocs, ∀ id ∈ g.ids rank, s.files id = none)
    {order order' : List (Fin g.nprocs)}
    {written read : Threads (Fin g.nprocs) FileSystem (List (PmemOp × Except Failure Bytes))}
    (hwrite : Run TakesTurn ⟨s, fun rank : Fin g.nprocs =>
      (g.writer ser useMmap (aw rank) (data rank) rank).program reader S⟩ order
        written)
    (hwritten : ∀ rank, ∃ log, written.programs rank = .done log ∧
      ∀ e ∈ log, ∃ bytes, e.2 = .ok bytes)
    (hfiles : t.files = written.state.files) (hserved : ∀ rank i, (ar rank i).sys.Served)
    (hread : Run TakesTurn ⟨t, fun rank : Fin g.nprocs =>
      (g.reader ser useMmap (ar rank) rank).program reader S⟩ order' read)
    {rank : Fin g.nprocs} {log : List (PmemOp × Except Failure Bytes)}
    (hdone : read.programs rank = .done log) :
    log.map Prod.snd =
      (g.extents.map fun e => .ok (leBytes 8 e.2)) ++ List.replicate 10 (.ok (data rank)) := by
  have hholds (rank : Fin g.nprocs) (id : Bytes) (v : Stored)
      (hmem : (id, v) ∈ g.writes ser (data rank) rank) :
      (FileValue.value v).Describes (t.files id) := by
    obtain ⟨log, hlog, hok⟩ := hwritten rank
    rw [hfiles]
    exact hg.written hdata hnew hwrite hlog hok hmem
  have hextents (e : Bytes × ℕ) (he : e ∈ g.extents) :
      (FileValue.value ⟨ser, .uint64, .scalar (leBytes 8 e.2)⟩).Describes (t.files e.1) := by
    apply hholds ⟨0, rank.pos⟩ e.1
    exact List.mem_append_left _ (List.mem_map_of_mem he)
  have hblocks (rank : Fin g.nprocs) (field : Bytes) (hfield : field ∈ fieldNames) :
      (FileValue.value ⟨ser, .double, .array g.dims.count.toNat (data rank)⟩).Describes
        (t.files (blockId field rank)) := by
    apply hholds rank
    exact List.mem_append_right _ (List.mem_map_of_mem hfield)
  have hthere (id : Bytes) (hid : FileId id) (v : Stored)
      (hvalue : (FileValue.value v).Describes (t.files id)) :
      ∃ bytes, t.files (cStr id) = some bytes := by
    obtain ⟨_, bytes, hbytes, _⟩ := hvalue
    exact ⟨bytes, by rwa [cStr_eq_self_iff.mpr hid.nulFree]⟩
  have hlooks (rank : Fin g.nprocs) : ((g.reader ser useMmap (ar rank) rank).program
      reader S).Looks FileSystem.files t := by
    refine (Grid.reader_loads ?_ ?_).looks
    · intro e he
      have hown : e.1 ∈ g.ids 0 := Or.inl ⟨rfl, List.mem_map_of_mem he⟩
      exact hthere e.1 (Grid.ids_fileId hown) _ (hextents e he)
    · intro field hfield
      exact hthere _ (blockId_fileId hfield rank) _ (hblocks rank field hfield)
  obtain ⟨_, hresults⟩ := looking_programs hlooks hread
  rw [hresults rank log hdone]
  exact hg.reader_alone hreader (hdata rank rank.isLt) (hserved rank) hextents (hblocks rank)

/-- Two threads with a block of one element each. -/
def twoThreads : Grid := ⟨2, 1, 1, 1, 1, 1⟩

/-- The bytes that each of them stores. -/
def twoBlocks (rank : ℕ) : Bytes :=
  if rank = 0 then [8, 7, 6, 5, 4, 3, 2, 1] else [1, 2, 3, 4, 5, 6, 7, 8]

/-- What the system answers to each of their operations. -/
def allServed (_rank _op : ℕ) : Answers := ⟨none, none, .served 3, []⟩

/-- A writer and a reader of two threads run to their ends, and the second reader finds the bytes of
the second writer. -/
theorem parallel_write_read_two :
    ∃ log, (∃ (order order' : List (Fin 2))
        (written read : Threads (Fin 2) FileSystem (List (PmemOp × Except Failure Bytes))),
      Run TakesTurn ⟨.empty, fun rank : Fin 2 => (twoThreads.writer .noSerializer false
        (allServed rank) (twoBlocks rank) rank).program
          (capnpReader fun _ => 0) .posix⟩ order written ∧
      Run TakesTurn ⟨written.state, fun rank : Fin 2 => (twoThreads.reader .noSerializer false
        (allServed rank) rank).program (capnpReader fun _ => 0) .posix⟩
          order' read ∧ read.programs 1 = .done log) ∧
      log.map Prod.snd = [.ok (leBytes 8 2), .ok (leBytes 8 1), .ok (leBytes 8 1)] ++
        List.replicate 10 (.ok [1, 2, 3, 4, 5, 6, 7, 8]) := by
  have hg : twoThreads.Fits := ⟨by decide, by decide, by decide, by decide⟩
  have hdata : ∀ rank < 2, (twoBlocks rank).length = 8 := by decide
  obtain ⟨order, written, hwrite, hwritten⟩ := Threads.exists_finish
    ⟨.empty, fun rank : Fin 2 => (twoThreads.writer .noSerializer false
      (allServed rank) (twoBlocks rank) rank).program
        (capnpReader fun _ => 0) .posix⟩ (List.finRange 2)
  obtain ⟨order', read, hread, hends⟩ := Threads.exists_finish
    ⟨written.state, fun rank : Fin 2 => (twoThreads.reader .noSerializer false
      (allServed rank) rank).program (capnpReader fun _ => 0) .posix⟩ (List.finRange 2)
  obtain ⟨log, hlog⟩ := hends 1 (List.mem_finRange 1)
  refine ⟨log, ⟨order, order', written, read, hwrite, hread, hlog⟩, ?_⟩
  have hstays (rank : Fin 2) : ((twoThreads.writer .noSerializer false
      (allServed rank) (twoBlocks rank) rank).program
        (capnpReader fun _ => 0) .posix).StaysIn
          (filesOf fun rank : Fin twoThreads.nprocs => twoThreads.ids rank) rank :=
    Script.program_stays twoThreads.ids_noneShared (hg.writer_keeps (hdata rank rank.isLt))
  have hreplies : ∀ rank : Fin 2, ∀ reply ∈ (((twoThreads.writer .noSerializer false
      (allServed rank) (twoBlocks rank) rank).program
        (capnpReader fun _ => 0) .posix).run .empty).1.map Prod.snd, reply = .ok [] := by
    decide +kernel
  have hok (rank : Fin twoThreads.nprocs) : ∃ log, written.programs rank = .done log ∧
      ∀ e ∈ log, ∃ bytes, e.2 = .ok bytes := by
    obtain ⟨log, hdone⟩ := hwritten rank (List.mem_finRange rank)
    refine ⟨log, hdone, ?_⟩
    obtain ⟨rfl, _⟩ := separate_programs hstays hwrite hdone
    exact fun e he => ⟨[], hreplies rank e.2 (List.mem_map_of_mem he)⟩
  exact parallel_write_read (fun _ _ => capnpReader_reads _) hg hdata (fun _ _ _ _ _ _ => rfl)
    hwrite hok rfl (fun _ _ => SysAnswers.served_spec 3) hread hlog

end Pmemcpy
