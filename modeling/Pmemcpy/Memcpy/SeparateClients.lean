import Pmemcpy.Files.Programs
import Pmemcpy.Memcpy.TypedValues

/-!
# Clients with ids of their own

Clients of a file storage run at the same time, in processes of their own. What each
one asks for next may depend on all the replies it has had. Their system calls and memory
accesses take turns in any order. A client whose ids nobody else uses notices nothing of
this.
-/

namespace Pmemcpy

open Lib Program

namespace PMEM

variable (ser : SerializerType) (useMmap : Bool) (T : ElemType) (S : FileStorage) (id : Bytes)

/-- `store` of a file storage, call by call. -/
def storeProgram (src : Source) (a : Answers) : Program FileSystem (Except Failure Unit) :=
  if useMmap then
    (S.allocProgram id a.sys (bufferSize ser T src)).bind fun result =>
      match result with
      | .error e => done (.error e)
      | .ok buf =>
        match ser.serializeInto T (bufferSize ser T src) src with
        | .ok out => (buf.fillProgram out).bind fun _ => done (.ok ())
        | .error .listTooLong => done (.error .foreign)
        | .error .malformed => done (.error .foreign)
        | .error .arrayFull => (buf.fillProgram (a.wreck.take (bufferSize ser T src))).bind fun _ =>
          done (.error .foreign)
  else
    match ser.serialize T src with
    | .error _ => done (.error .foreign)
    | .ok serial => Pmemcpy.storeProgram id a.sys serial

/-- What `load` gets from a file storage, call by call. -/
def serialProgram (a : Answers) : Program FileSystem (Except Failure Bytes) :=
  if useMmap then (S.findBytesProgram id a.sys).bind fun found => done (found.map Prod.snd)
  else Pmemcpy.loadProgram id a.sys

/-- What `load` makes of what it gets. -/
def decoded (reader : MessageReader) (target : Target) :
    Except Failure Bytes → Except Failure Bytes
  | .error e => .error e
  | .ok v =>
    match ser.deserialize reader T target v with
    | .error _ => .error .foreign
    | .ok dst => .ok dst

/-- `load` of a file storage. -/
def loadProgram (reader : MessageReader) (target : Target) (a : Answers) :
    Program FileSystem (Except Failure Bytes) :=
  (serialProgram useMmap S id a).bind fun serial => done (decoded ser T reader target serial)

variable {ser useMmap T S id}

/-- `load` decodes what it gets from the storage. -/
theorem load_eq_decoded (hash : Bytes → ℕ) (σ : Storage) (reader : MessageReader)
    (target : Target) (a : Answers) :
    (load hash ser useMmap T σ id reader target a).1 =
      decoded ser T reader target (loadSerial hash useMmap σ id a) := load_eq ..

/-- Alone, the system calls of `store` do what `store` does. -/
theorem run_storeProgram (hash : Bytes → ℕ) (s : FileSystem) (src : Source) (a : Answers) :
    store hash ser useMmap T (.files S s) id src a =
      (((storeProgram ser useMmap T S id src a).run s).1,
        .files S ((storeProgram ser useMmap T S id src a).run s).2) := by
  unfold storeProgram store
  cases useMmap with
  | false =>
    cases ser.serialize T src with
    | error f => rfl
    | ok serial =>
      simp only [Bool.false_eq_true, if_false, Storage.store, S.store_eq_storeFile,
        Pmemcpy.run_storeProgram]
  | true =>
    simp only [if_true, Storage.alloc, run_bind, S.run_allocProgram]
    rcases S.alloc s id a.sys (bufferSize ser T src) with ⟨f | buf, t⟩
    · rfl
    · dsimp only [Except.map]
      rcases ser.serializeInto T (bufferSize ser T src) src with (_ | _ | _) | out
      all_goals simp [Storage.fill, MmapBuffer.run_fillProgram]

/-- Alone, the system calls of `find` or `load` of the storage do what these do. -/
theorem run_serialProgram (hash : Bytes → ℕ) (s : FileSystem) (a : Answers) :
    (if useMmap then (Storage.files S s).find hash id a else (Storage.files S s).load hash id a) =
      (((serialProgram useMmap S id a).run s).1,
        .files S ((serialProgram useMmap S id a).run s).2) := by
  unfold serialProgram
  cases useMmap with
  | false =>
    simp only [Bool.false_eq_true, if_false, Storage.load, S.load_eq_loadFile,
      Pmemcpy.run_loadProgram]
  | true => simp only [if_true, Storage.find, run_bind, S.run_findBytesProgram, run_done]

/-- Alone, the system calls of `load` do what `load` does. -/
theorem run_loadProgram (hash : Bytes → ℕ) (s : FileSystem) (reader : MessageReader)
    (target : Target) (a : Answers) :
    load hash ser useMmap T (.files S s) id reader target a =
      (((loadProgram ser useMmap T S id reader target a).run s).1,
        .files S ((loadProgram ser useMmap T S id reader target a).run s).2) := by
  have hserial : (if useMmap then (Storage.files S s).find hash id a
      else (Storage.files S s).load hash id a) = _ := run_serialProgram hash s a
  unfold loadProgram
  rw [run_bind]
  apply Prod.ext
  · rw [load_eq_decoded, loadSerial, hserial]
    rfl
  · rw [load_state, hserial]
    rfl

end PMEM

/-- An operation of a client, call by call. -/
def PmemOp.program (reader : MessageReader) (S : FileStorage) :
    PmemOp → Program FileSystem (Except Failure Bytes)
  | store useMmap id v a =>
    (PMEM.storeProgram v.ser useMmap v.T S id v.src a).bind fun result =>
      done (result.map fun _ => [])
  | load ser useMmap T id target a => PMEM.loadProgram ser useMmap T S id reader target a
  | free id a => (freeProgram id a.sys).bind fun result => done (result.map fun _ => [])

/-- Alone, the system calls of an operation do what the operation does. -/
theorem PmemOp.run_program (hash : Bytes → ℕ) (reader : MessageReader) (S : FileStorage)
    (s : FileSystem) (op : PmemOp) :
    op.exec hash reader (.files S s) =
      (((op.program reader S).run s).1, .files S ((op.program reader S).run s).2) := by
  cases op with
  | store useMmap id v a =>
    dsimp only [exec, program]
    rw [PMEM.run_storeProgram, run_bind]
    rfl
  | load ser useMmap T id target a => exact PMEM.run_loadProgram hash s reader target a
  | free id a =>
    dsimp only [exec, program, Storage.free]
    rw [S.free_eq_freeFile, run_bind, run_freeProgram]
    rfl

/-! ### Clients -/

/-- A client asks for one operation after the other. Which one is next depends on the replies. -/
inductive Script where
  | stop
  | call (op : PmemOp) (next : Except Failure Bytes → Script)

namespace Script

/-- The client, call by call. Its result is what it has asked for, and the replies. -/
def program (reader : MessageReader) (S : FileStorage) :
    Script → Program FileSystem (List (PmemOp × Except Failure Bytes))
  | stop => done []
  | call op next => (op.program reader S).bind fun result =>
    ((next result).program reader S).bind fun log => done ((op, result) :: log)

/-- A client asks for this, and so on by these replies, until it stops. -/
def Gives : Script → List (PmemOp × Except Failure Bytes) → Prop
  | stop, log => log = []
  | call op next, log => ∃ result rest, log = (op, result) :: rest ∧ (next result).Gives rest

/-- All that a client may ask for is about ids of its own, and what it stores is typed. -/
def Keeps (S : FileStorage) (ids : Set Bytes) : Script → Prop
  | stop => True
  | call op next =>
    (op.id ∈ ids ∧ FileId op.id ∧ ∀ s, op.Possible (.files S s)) ∧
      ∀ result, (next result).Keeps S ids

end Script

section Clients

variable {κ : Type*} {owns : κ → Set Bytes} {k : κ} {reader : MessageReader} {S : FileStorage}
  {s : FileSystem} {id : Bytes}

/-- `store` stays in the files of the client that has its id. -/
theorem PMEM.storeProgram_stays {ser : SerializerType} {useMmap : Bool} {T : ElemType}
    (howns : NoneShared owns) (hid : cStr id ∈ owns k) (src : Source) (a : Answers) :
    (storeProgram ser useMmap T S id src a).StaysIn (filesOf owns) k := by
  unfold storeProgram
  cases useMmap with
  | false =>
    rw [if_neg (by decide)]
    cases ser.serialize T src with
    | error f => trivial
    | ok serial => exact Pmemcpy.storeProgram_stays howns hid a.sys serial
  | true =>
    rw [if_pos rfl]
    refine FileStorage.allocProgram_bind_stays howns hid S a.sys _ ?_
    rintro (f | buf) hbuf
    · trivial
    · have hmapping : ∀ m ∈ buf.mapping, m.name ∈ owns k := by
        intro m hm
        rw [hbuf buf rfl m hm]
        exact hid
      have hfill (bytes : Bytes) := MmapBuffer.fillProgram_stays howns hmapping bytes
      dsimp only
      rcases ser.serializeInto T (bufferSize ser T src) src with (_ | _ | _) | out
      · trivial
      · exact (hfill _).bind fun _ => trivial
      · trivial
      · exact (hfill out).bind fun _ => trivial

/-- `load` stays in the files of the client that has its id. -/
theorem PMEM.loadProgram_stays {ser : SerializerType} {useMmap : Bool} {T : ElemType}
    (howns : NoneShared owns) (hid : cStr id ∈ owns k) (target : Target) (a : Answers) :
    (loadProgram ser useMmap T S id reader target a).StaysIn (filesOf owns) k := by
  refine StaysIn.bind ?_ fun _ => trivial
  unfold serialProgram
  cases useMmap with
  | false => exact Pmemcpy.loadProgram_stays howns hid a.sys
  | true => exact (FileStorage.findBytesProgram_stays howns hid S a.sys).bind fun _ => trivial

/-- An operation stays in the files of the client that has its id. -/
theorem PmemOp.program_stays {op : PmemOp} (howns : NoneShared owns) (hid : cStr op.id ∈ owns k) :
    (op.program reader S).StaysIn (filesOf owns) k := by
  cases op with
  | store useMmap id v a => exact (PMEM.storeProgram_stays howns hid v.src a).bind fun _ => trivial
  | load ser useMmap T id target a => exact PMEM.loadProgram_stays howns hid target a
  | free id a => exact (freeProgram_stays howns hid a.sys).bind fun _ => trivial

/-- A client that keeps to its ids stays in their files. -/
theorem Script.program_stays {script : Script} (howns : NoneShared owns)
    (hscript : script.Keeps S (owns k)) : (script.program reader S).StaysIn (filesOf owns) k := by
  induction script with
  | stop => trivial
  | call op next ih =>
    obtain ⟨⟨hown, hid, _⟩, hnext⟩ := hscript
    have hname : cStr op.id ∈ owns k := by rwa [cStr_eq_self_iff.mpr hid.nulFree]
    refine (PmemOp.program_stays howns hname).bind fun result => ?_
    exact (ih result (hnext result)).bind fun _ => trivial

/-- Alone, a client runs through the operations that it asks for. -/
theorem Script.run_program {script : Script} {ids : Set Bytes} (hash : Bytes → ℕ)
    (hscript : script.Keeps S ids) (s : FileSystem) :
    script.Gives ((script.program reader S).run s).1 ∧
      Run (PmemStep hash reader) (.files S s) ((script.program reader S).run s).1
        (.files S ((script.program reader S).run s).2) := by
  induction script generalizing s with
  | stop => exact ⟨rfl, Run.nil⟩
  | call op next ih =>
    obtain ⟨⟨_, hid, hpossible⟩, hnext⟩ := hscript
    have hexec := op.run_program hash reader S s
    rw [program, Program.run_bind]
    rcases hresult : (op.program reader S).run s with ⟨result, t⟩
    rw [hresult] at hexec
    obtain ⟨hgives, hrun⟩ := ih result (hnext result) t
    rw [Program.run_bind, Program.run_done]
    exact ⟨⟨result, _, rfl, hgives⟩, Run.cons ⟨hpossible s, hid, hexec⟩ hrun⟩

/-- Clients with ids of their own do what they do alone, and leave their files so. -/
theorem Script.run_separate [DecidableEq κ] {scripts : κ → Script} {order : List κ}
    {now : Threads κ FileSystem (List (PmemOp × Except Failure Bytes))} (hash : Bytes → ℕ)
    (howns : NoneShared owns) (hscripts : ∀ k, (scripts k).Keeps S (owns k))
    (hrun : Run TakesTurn ⟨s, fun k => (scripts k).program reader S⟩ order now)
    {log : List (PmemOp × Except Failure Bytes)} (hdone : now.programs k = .done log) :
    (scripts k).Gives log ∧
      (∃ t, Run (PmemStep hash reader) (.files S s) log (.files S t) ∧
        ∀ id ∈ owns k, now.state.files id = t.files id) ∧
      ∀ id ∈ owns k, FileId id →
        (log.foldl FileValues.step (FileValues.start s) id).Describes (now.state.files id) := by
  have hstays (j : κ) : ((scripts j).program reader S).StaysIn (filesOf owns) j :=
    Script.program_stays howns (hscripts j)
  obtain ⟨rfl, hpart⟩ := separate_programs hstays hrun hdone
  have hscript : (scripts k).Gives _ ∧ Run (PmemStep hash reader) (.files S s) _ _ :=
    Script.run_program hash (hscripts k) s
  obtain ⟨hgives, halone⟩ := hscript
  have hfiles (id : Bytes) (hid : id ∈ owns k) := congrFun hpart ⟨id, hid⟩
  refine ⟨hgives, ⟨_, halone, hfiles⟩, ?_⟩
  intro id hown hid
  obtain ⟨t, ht, hvalues⟩ := run_holdsFiles halone
  obtain ⟨_, rfl⟩ := Storage.files.inj ht
  have hdescribes := hvalues id hid.nulFree
  rw [cStr_eq_self_iff.mpr hid.nulFree] at hdescribes
  have hfile : now.state.files id = _ := hfiles id hown
  rw [hfile]
  exact hdescribes

end Clients

/-- **Clients with ids of their own do not notice each other.** Any number of clients of a file
storage, each of which asks for stores, loads and frees that may depend on all its replies,
take turns at their system calls and memory accesses in any order. What a client that has
stopped has asked for and has got is what it gets alone, and so are the files of its ids,
while the others go on. What it stored last under an id is then loaded exactly by a `load` that is
served, unless nothing is known of the file: the `store` threw, or it was a plain copy over a longer
file, or over one that is no plain copy itself. -/
theorem separate_clients {κ : Type*} [DecidableEq κ] {owns : κ → Set Bytes}
    {scripts : κ → Script} {reader : MessageReader} {S : FileStorage} {s : FileSystem}
    {order : List κ} {now : Threads κ FileSystem (List (PmemOp × Except Failure Bytes))}
    (hash : Bytes → ℕ) (howns : NoneShared owns) (hscripts : ∀ k, (scripts k).Keeps S (owns k))
    (hrun : Run TakesTurn ⟨s, fun k => (scripts k).program reader S⟩ order now) {k : κ}
    {log : List (PmemOp × Except Failure Bytes)} (hdone : now.programs k = .done log) :
    (scripts k).Gives log ∧
      (∃ t, Run (PmemStep hash reader) (.files S s) log (.files S t) ∧
        ∀ id ∈ owns k, now.state.files id = t.files id) ∧
      ∀ id ∈ owns k, FileId id → ∀ v,
        log.foldl FileValues.step (FileValues.start s) id = .value v →
          ∀ reader : MessageReader, reader.Reads v.T v.src → ∀ useMmap a, a.sys.Served →
            (PMEM.load hash v.ser useMmap v.T (.files S now.state) id reader v.src.target a).1 =
              .ok v.src.bytes := by
  obtain ⟨hgives, ⟨t, halone, hfiles⟩, hdescribes⟩ :=
    Script.run_separate hash howns hscripts hrun hdone
  refine ⟨hgives, ⟨t, halone, hfiles⟩, ?_⟩
  intro id hown hid v hvalue reader hreader useMmap a ha
  have hvalue' := hdescribes id hown hid
  rw [hvalue] at hvalue'
  refine FileValue.Describes.load_value ?_ hreader useMmap ha
  rwa [cStr_eq_self_iff.mpr hid.nulFree]

/-- One client stores a byte, another one a byte through a mapping. -/
def storeEach (k : Bool) : Script :=
  .call (.store k [if k then 98 else 97] ⟨.noSerializer, .uint8, .array 1 [7]⟩
    ⟨none, none, .served 3, []⟩) fun _ => .stop

/-- The first one has stopped, while the other one has yet to fill its mapping. -/
theorem separate_clients_two :
    ∃ now : Threads Bool FileSystem (List (PmemOp × Except Failure Bytes)),
      Run TakesTurn ⟨.empty, fun k => (storeEach k).program (capnpReader fun _ => 0) .posix⟩
        [false, true, false, true, false] now ∧
      (PMEM.load (fun _ => 0) .noSerializer true .uint8 (.files .posix now.state) [97]
        (capnpReader fun _ => 0) (.array 1) ⟨none, none, .served 3, []⟩).1 = .ok [7] := by
  have howns : NoneShared fun k : Bool => {[if k then (98 : UInt8) else 97]} := by
    intro j k hjk
    cases j <;> cases k <;> simp_all
  have hscripts (k : Bool) : (storeEach k).Keeps .posix {[if k then (98 : UInt8) else 97]} := by
    refine ⟨⟨rfl, ?_, fun s => ⟨⟨rfl, by decide⟩, trivial⟩⟩, fun _ => trivial⟩
    cases k <;> exact ⟨by decide, by decide, by decide⟩
  have hrun : Run TakesTurn
      ⟨.empty, fun k => (storeEach k).program (capnpReader fun _ => 0) .posix⟩
      [false, true, false, true, false] _ := Threads.run_turns rfl
  have hid : FileId [97] := ⟨by decide, by decide, by decide⟩
  have hdone : _ := separate_clients (fun _ => 0) howns hscripts hrun (k := false) rfl
  exact ⟨_, hrun, hdone.2.2 [97] rfl hid _ rfl _ (capnpReader_reads _ rfl) true _
    (SysAnswers.served_spec 3)⟩

end Pmemcpy
