import Pmemcpy.Files.AtomicCopies
import Pmemcpy.Memcpy.SeparateClients

/-!
# Clients that share ids

Clients of a file storage that share their ids, store and load by copying, and store one
length under each id, see each of their operations happen at one of its own system calls.
Every run of them, whatever the order of their turns, is a run of their operations one
after the other. Mapped buffers do not have this.
-/

namespace Pmemcpy

open Lib Program

section Operations

variable {ids : Set Bytes} {size : Bytes → ℕ} {hash : Bytes → ℕ} {reader : MessageReader}
  {S : FileStorage} {s : FileSystem} {op : PmemOp} {script : Script}

/-- A `store` or `load` that copies. All that is stored under an id has one length, and no `write`
stops short. -/
def PmemOp.Copies (ids : Set Bytes) (size : Bytes → ℕ) : PmemOp → Prop
  | store useMmap id v a => useMmap = false ∧ (id ∈ ids ∧ FileId id) ∧ v.Typed ∧
    (∃ out, v.ser.serialize v.T v.src = .ok out ∧ out.length = size id) ∧
      ∀ n, a.sys.write ≠ .short n
  | load _ useMmap _ id _ _ => useMmap = false ∧ id ∈ ids ∧ FileId id
  | free .. => False

/-- What an operation that copies makes of the contents of the files. -/
def PmemOp.atomic (reader : MessageReader) :
    PmemOp → (Bytes → Bytes) → Except Failure Bytes × (Bytes → Bytes)
  | store _ id v a, c =>
    match v.ser.serialize v.T v.src with
    | .error _ => (.error .foreign, c)
    | .ok serial =>
      ((storeContents id a.sys serial c).1.map fun _ => [], (storeContents id a.sys serial c).2)
  | load ser _ T id target a, c =>
    (PMEM.decoded ser T reader target (loadContents id a.sys c), c)
  | free id a, c => (.ok [], if a.sys.remove then Function.update c (cStr id) [] else c)

/-- An operation that copies can be a step of a run of the storage. -/
theorem PmemOp.Copies.step (h : op.Copies ids size) (s : FileSystem) :
    op.Possible (.files S s) ∧ (Storage.files S s).Accepts op.id := by
  cases op with
  | store useMmap id v a =>
    obtain ⟨_, ⟨_, hid⟩, hv, _⟩ := h
    exact ⟨⟨hv, trivial⟩, hid⟩
  | load ser useMmap T id target a => exact ⟨trivial, h.2.2⟩
  | free => cases h

/-- An operation that copies makes of the contents of the files what `atomic` says, where it runs
alone. -/
theorem PmemOp.Copies.exec (h : op.Copies ids size) (s : FileSystem) :
    ∃ t, op.exec hash reader (.files S s) = ((op.atomic reader s.contents).1, .files S t) ∧
      t.contents = (op.atomic reader s.contents).2 := by
  cases op with
  | store useMmap id v a =>
    obtain ⟨rfl, _, _, ⟨out, hout, _⟩, _⟩ := h
    have hstore := Prod.ext_iff.mp (storeFile_contents s id a.sys out)
    refine ⟨(storeFile s id a.sys out).2, ?_, ?_⟩
    · simp [PmemOp.exec, PMEM.store, hout, Storage.store, S.store_eq_storeFile, PmemOp.atomic,
        ← hstore.1]
    · simp [PmemOp.atomic, hout, ← hstore.2]
  | load ser useMmap T id target a =>
    obtain ⟨rfl, _⟩ := h
    obtain ⟨hresult, hcontents⟩ := loadFile_contents s id a.sys
    refine ⟨(loadFile s id a.sys).2, ?_, hcontents⟩
    apply Prod.ext
    · dsimp only [PmemOp.exec, PmemOp.atomic]
      rw [PMEM.load_eq_decoded, ← hresult]
      simp [PMEM.loadSerial, Storage.load, S.load_eq_loadFile]
    · dsimp only [PmemOp.exec]
      rw [PMEM.load_state]
      simp [Storage.load, S.load_eq_loadFile]
  | free => cases h

/-- An operation that copies does what `atomic` says at one of its system calls, where others run at
the same time. -/
theorem PmemOp.Copies.program_implements (h : op.Copies ids size) :
    (op.program reader S).Implements (SizesKept ids size) OnlyGrows FileSystem.contents
      (call (op.atomic reader)) s := by
  cases op with
  | store useMmap id v a =>
    obtain ⟨rfl, ⟨hown, hid⟩, _, ⟨out, hout, hlength⟩, hwrite⟩ := h
    have hname : cStr id = id := cStr_eq_self_iff.mpr hid.nulFree
    have hstore : (storeProgram id a.sys out).Implements (SizesKept ids size) OnlyGrows
        FileSystem.contents (call (storeContents id a.sys out)) s :=
      storeProgram_implements (by rwa [hname]) (by rwa [hname]) hwrite
    have hbind := hstore.bind (f := fun result => done (result.map fun _ => ([] : Bytes)))
      (g := fun result => done (result.map fun _ => [])) fun _ _ _ => by exact rfl
    have hprogram : (PmemOp.store false id v a).program reader S =
        (storeProgram id a.sys out).bind fun result => done (result.map fun _ => []) := by
      simp [PmemOp.program, PMEM.storeProgram, hout]
    have hatomic : (PmemOp.store false id v a).atomic reader = fun c =>
        ((storeContents id a.sys out c).1.map fun _ => [], (storeContents id a.sys out c).2) := by
      funext c
      simp [PmemOp.atomic, hout]
    rw [hprogram, hatomic]
    exact hbind
  | load ser useMmap T id target a =>
    obtain ⟨rfl, hown, hid⟩ := h
    have hname : cStr id = id := cStr_eq_self_iff.mpr hid.nulFree
    have hload : (loadProgram id a.sys).Implements (SizesKept ids size) OnlyGrows
        FileSystem.contents (call fun c => (loadContents id a.sys c, c)) s :=
      loadProgram_implements (by rwa [hname])
    have hbind := hload.bind (f := fun serial => done (PMEM.decoded ser T reader target serial))
      (g := fun serial => done (PMEM.decoded ser T reader target serial)) fun _ _ _ => by exact rfl
    exact hbind
  | free => cases h

/-! ### Clients -/

/-- All that a client may ask for copies. -/
def Script.Copies (ids : Set Bytes) (size : Bytes → ℕ) : Script → Prop
  | .stop => True
  | .call op next => op.Copies ids size ∧ ∀ result, (next result).Copies ids size

/-- What a client asks for next, and how it goes on. -/
def Script.ask : Script → Option (PmemOp × (Except Failure Bytes → Script))
  | .stop => none
  | .call op next => some (op, next)

/-- A client that copies asks for operations that each do what they do at one point. -/
theorem Script.Copies.asks (h : script.Copies ids size) {next : Except Failure Bytes → Script}
    (hask : script.ask = some (op, next)) :
    (∀ s, (op.program reader S).Implements (SizesKept ids size) OnlyGrows FileSystem.contents
      (.call (op.atomic reader)) s) ∧ ∀ result, (next result).Copies ids size := by
  cases script with
  | stop => cases hask
  | call op' next' =>
    cases hask
    exact ⟨fun s => h.1.program_implements, h.2⟩

/-- Operations that copy, taken as one step each, are a run of the storage. -/
theorem run_pmemStep {κ : Type*} [DecidableEq κ]
    {before after : AtomicCallers κ Script PmemOp (Except Failure Bytes) (Bytes → Bytes)}
    {events : List (κ × PmemOp × Except Failure Bytes)}
    (hcopies : ∀ k, (before.rests k).Copies ids size)
    (hrun : Run (AtomicStep Script.ask (PmemOp.atomic reader)) before events after)
    (hs : s.contents = before.state) :
    (∃ t, Run (PmemStep hash reader) (.files S s) (events.map Prod.snd) (.files S t) ∧
      t.contents = after.state) ∧ ∀ k, (after.rests k).Copies ids size := by
  induction hrun with
  | nil => exact ⟨⟨s, Run.nil, hs⟩, hcopies⟩
  | @snoc events mid e after _ hstep ih =>
    obtain ⟨⟨t, hrun, ht⟩, hmid⟩ := ih
    obtain ⟨k, op, result⟩ := e
    obtain ⟨next, hask, hatomic, hrests, _⟩ := hstep
    have hscript := hmid k
    generalize mid.rests k = script at hask hscript
    cases script with
    | stop => cases hask
    | call op next =>
      cases hask
      obtain ⟨u, hexec, hu⟩ : ∃ u, op.exec hash reader (.files S t) = _ ∧ _ := hscript.1.exec t
      obtain ⟨hpossible, haccepts⟩ := hscript.1.step (S := S) t
      rw [ht, hatomic] at hexec hu
      refine ⟨⟨u, ?_, hu⟩, ?_⟩
      · rw [List.map_append]
        exact hrun.snoc ⟨hpossible, haccepts, hexec⟩
      · intro j
        rw [hrests, Function.update_apply]
        split
        · exact hscript.2 result
        · exact hmid j

end Operations

/-! ### Calls -/

/-- A client of a file storage at any moment of its calls. -/
abbrev PmemCaller := Caller Script PmemOp (Except Failure Bytes) FileSystem

/-- Clients of a file storage at any moment of their calls. -/
abbrev PmemCallers (κ : Type*) := Callers κ Script PmemOp (Except Failure Bytes) FileSystem

/-- The program that is left of a client: the rest of the call that it is in, or its next call, and
all that it asks for afterwards. -/
def leftOf (reader : MessageReader) (S : FileStorage) (c : PmemCaller) :
    Program FileSystem (List (PmemOp × Except Failure Bytes)) :=
  match c.rest with
  | .stop => done c.log
  | .call op next => (c.running.getD (op.program reader S)).bind fun result =>
    ((next result).program reader S).bind fun log => done (c.log ++ (op, result) :: log)

/-- The programs that are left of clients, and the files that they share. -/
def threadsOf {κ : Type*} (reader : MessageReader) (S : FileStorage) (now : PmemCallers κ) :
    Threads κ FileSystem (List (PmemOp × Except Failure Bytes)) :=
  ⟨now.state, fun k => leftOf reader S (now.callers k)⟩

/-- A client asks for operations that copy, and has an action left of the call that it is in. -/
structure StaysInCalls (ids : Set Bytes) (size : Bytes → ℕ) (c : PmemCaller) : Prop where
  copies : c.rest.Copies ids size
  running : ∀ p, c.running = some p → ∃ effect next, p = .act effect next

section Clients

variable {κ : Type*} [DecidableEq κ] {ids : Set Bytes} {size : Bytes → ℕ} {reader : MessageReader}
  {S : FileStorage} {k : κ} {start now : PmemCallers κ} {c : PmemCaller} {op : PmemOp}
  {next : Except Failure Bytes → Script} {order : List κ}
  {later : Threads κ FileSystem (List (PmemOp × Except Failure Bytes))}

/-- All that is left of a client before its first call is the program of its script. -/
theorem leftOf_start (script : Script) :
    leftOf reader S (.start script) = script.program reader S := by
  cases script with
  | stop => rfl
  | call op next => rfl

/-- What is left of a client in a call: the rest of the call, and all that it asks for after it. -/
theorem leftOf_going (hrest : c.rest = .call op next)
    (p : Program FileSystem (Except Failure Bytes)) :
    leftOf reader S (c.going op next p) = p.bind fun result =>
      ((next result).program reader S).bind fun log => done (c.log ++ (op, result) :: log) := by
  cases p with
  | act effect rest =>
    unfold leftOf Caller.going
    rw [hrest]
    rfl
  | done result =>
    unfold leftOf Caller.going
    dsimp only [Program.bind]
    cases next result with
    | stop => rfl
    | call op' next' =>
      dsimp only [Option.getD, Script.program]
      rw [bind_assoc]
      congr 1
      funext result'
      rw [bind_assoc]
      simp only [Program.bind, List.append_assoc, List.singleton_append]

/-- A client stays in its calls when the call that it is in goes on or returns. -/
theorem StaysInCalls.going (h : StaysInCalls ids size c) (hrest : c.rest = .call op next)
    (p : Program FileSystem (Except Failure Bytes)) :
    StaysInCalls ids size (c.going op next p) := by
  obtain ⟨hcopies, _⟩ := h
  cases p with
  | act effect rest => exact ⟨hcopies, fun q hq => ⟨effect, rest, (Option.some.inj hq).symm⟩⟩
  | done result =>
    rw [hrest] at hcopies
    exact ⟨hcopies.2 result, fun q hq => by cases hq⟩

/-- An operation that copies takes at least one action. -/
theorem PmemOp.Copies.acts (h : op.Copies ids size) :
    ∃ effect next, op.program reader S = .act effect next := by
  have himplements : (op.program reader S).Implements (SizesKept ids size) OnlyGrows
      FileSystem.contents (.call (op.atomic reader)) .empty := h.program_implements
  generalize op.program reader S = p at himplements
  cases p with
  | done result => cases himplements
  | act effect next => exact ⟨effect, next, rfl⟩

/-- A turn of a program that is left of a client is an action of one of the calls of the client. -/
theorem callTurn_of_takesTurn (h : ∀ k, StaysInCalls ids size (now.callers k))
    (hturn : TakesTurn (threadsOf reader S now) k later) :
    ∃ mid : PmemCallers κ, CallTurn Script.ask (PmemOp.program reader S) now k mid ∧
      later = threadsOf reader S mid ∧ ∀ k, StaysInCalls ids size (mid.callers k) := by
  obtain ⟨effect, next, hprogram, rfl⟩ := hturn
  have hk := h k
  obtain ⟨op, script, hrest⟩ : ∃ op script, (now.callers k).rest = .call op script := by
    cases hrest : (now.callers k).rest with
    | stop =>
      have hdone : leftOf reader S (now.callers k) = .act effect next := hprogram
      unfold leftOf at hdone
      rw [hrest] at hdone
      cases hdone
    | call op script => exact ⟨op, script, rfl⟩
  obtain ⟨effect', rest, hcall⟩ : ∃ effect' rest,
      (now.callers k).running.getD (op.program reader S) = .act effect' rest := by
    cases hrunning : (now.callers k).running with
    | some p => exact hk.running p hrunning
    | none =>
      have hcopies := hk.copies
      rw [hrest] at hcopies
      exact hcopies.1.acts
  have hleft : leftOf reader S (now.callers k) = (Program.act effect' rest).bind fun result =>
      ((script result).program reader S).bind fun log =>
        done ((now.callers k).log ++ (op, result) :: log) := by
    unfold leftOf
    rw [hrest]
    dsimp only
    rw [hcall]
  obtain ⟨rfl, rfl⟩ := Program.act.inj (hprogram.symm.trans hleft)
  refine ⟨_, ⟨op, script, effect, rest, by rw [hrest]; rfl, hcall, rfl⟩, ?_, ?_⟩
  · unfold threadsOf
    congr 1
    funext j
    dsimp only
    rw [Function.apply_update fun _ c => leftOf reader S c, leftOf_going hrest]
  · exact (Function.forall_update_iff _ fun _ c => StaysInCalls ids size c).mpr
      ⟨hk.going hrest _, fun j _ => h j⟩

/-- A run of the programs that are left of clients is a run of their calls. -/
theorem run_callTurn (h : ∀ k, StaysInCalls ids size (start.callers k))
    (hrun : Run TakesTurn (threadsOf reader S start) order later) :
    ∃ mid : PmemCallers κ, Run (CallTurn Script.ask (PmemOp.program reader S)) start order mid ∧
      later = threadsOf reader S mid ∧ ∀ k, StaysInCalls ids size (mid.callers k) := by
  induction hrun with
  | nil => exact ⟨start, Run.nil, rfl, h⟩
  | snoc _ hturn ih =>
    obtain ⟨mid, hrun, rfl, hmid⟩ := ih
    obtain ⟨mid', hturn', hlater, hmid'⟩ := callTurn_of_takesTurn hmid hturn
    exact ⟨mid', hrun.snoc hturn', hlater, hmid'⟩

end Clients

/-- **Clients that copy are linearizable.** In every order of their turns each operation can be
given one of the turns of its own call, such that at every cut of the run the files are as the
operations so far leave them, one after the other. Those of a client are then the ones that have
returned to it, with what they have returned, and at most the one that it is in. -/
theorem copies_linearizable {κ : Type*} [DecidableEq κ] {ids : Set Bytes} {size : Bytes → ℕ}
    {scripts : κ → Script} {reader : MessageReader} {S : FileStorage} {s : FileSystem}
    {order : List κ} {now : Threads κ FileSystem (List (PmemOp × Except Failure Bytes))}
    (hash : Bytes → ℕ) (hsizes : SizesKept ids size s) (hscripts : ∀ k, (scripts k).Copies ids size)
    (hrun : Run TakesTurn ⟨s, fun k => (scripts k).program reader S⟩ order now) :
    ∃ points : List (Option (κ × PmemOp × Except Failure Bytes)),
      List.Forall₂ (fun k point => ∀ event ∈ point, event.1 = k) order points ∧
      ∀ before after, order = before ++ after → ∃ mid : PmemCallers κ,
        Run TakesTurn ⟨s, fun k => (scripts k).program reader S⟩ before (threadsOf reader S mid) ∧
        Run (CallTurn Script.ask (PmemOp.program reader S)) ⟨s, fun k => .start (scripts k)⟩ before
          mid ∧
        (∃ t, Run (PmemStep hash reader) (.files S s)
            ((points.take before.length).reduceOption.map Prod.snd) (.files S t) ∧
          mid.state.contents = t.contents) ∧
        ∀ k, (mid.callers k).Happened Script.ask
          (((points.take before.length).reduceOption.filter (·.1 = k)).map Prod.snd) := by
  have hthreads : (⟨s, fun k => (scripts k).program reader S⟩ : Threads κ FileSystem _) =
      threadsOf reader S ⟨s, fun k => .start (scripts k)⟩ := by
    unfold threadsOf
    simp only [leftOf_start]
  have hstart (k : κ) : StaysInCalls ids size (.start (scripts k)) :=
    ⟨hscripts k, fun p hp => by cases hp⟩
  rw [hthreads] at hrun ⊢
  obtain ⟨last, hlast, _⟩ := run_callTurn hstart hrun
  have hgood (c : Script) (op : PmemOp) (next : Except Failure Bytes → Script)
      (hcopies : c.Copies ids size) (hask : c.ask = some (op, next)) :
      (∀ s, (op.program reader S).Implements (SizesKept ids size) OnlyGrows FileSystem.contents
        (.call (op.atomic reader)) s) ∧ ∀ result, (next result).Copies ids size :=
    hcopies.asks hask
  obtain ⟨points, hpoints, hcuts⟩ := Callers.linearizable hgood hscripts hsizes hlast
  refine ⟨points, hpoints, ?_⟩
  intro before after hcut
  rw [hcut] at hrun
  obtain ⟨mid', hbefore, _⟩ := hrun.split
  obtain ⟨mid, hmid, rfl, _⟩ := run_callTurn hstart hbefore
  obtain ⟨spec, hspec, habstracts⟩ := hcuts before after hcut mid hmid
  obtain ⟨⟨t, ht, hcontents⟩, _⟩ : (∃ t, Run (PmemStep hash reader) (.files S s)
      ((points.take before.length).reduceOption.map Prod.snd) (.files S t) ∧
        t.contents = spec.state) ∧ _ := run_pmemStep hscripts hspec rfl
  refine ⟨mid, hbefore, hmid, ⟨t, ht, habstracts.state.trans hcontents.symm⟩, ?_⟩
  intro k
  have hlogs := AtomicStep.logs hspec k
  rw [List.nil_append] at hlogs
  rw [← hlogs]
  exact (habstracts.callers k).happened

/-- One client stores two bytes, and the other one loads them. -/
def storeOrLoad (useMmap k : Bool) : Script :=
  .call (if k then
      .load .noSerializer useMmap .uint8 [97] (.array 2) ⟨none, none, .served 4, []⟩
    else .store false [97] ⟨.noSerializer, .uint8, .array 2 [3, 4]⟩ ⟨none, none, .served 3, []⟩)
    fun _ => .stop

/-- A store and a load that take turns in an empty directory are linearizable. -/
theorem copies_linearizable_two :
    ∃ now : Threads Bool FileSystem (List (PmemOp × Except Failure Bytes)),
      Run TakesTurn ⟨.empty, fun k => (storeOrLoad false k).program (capnpReader fun _ => 0) .posix⟩
        [false, true, false, true, true, false, true] now ∧
      ∃ events t, Run (PmemStep (fun _ => 0) (capnpReader fun _ => 0)) (.files .posix .empty) events
        (.files .posix t) ∧ now.state.contents = t.contents := by
  have hid : FileId [97] := ⟨by decide, by decide, by decide⟩
  have hscripts (k : Bool) : (storeOrLoad false k).Copies {[97]} fun _ => 2 := by
    refine ⟨?_, fun _ => trivial⟩
    cases k with
    | false => exact ⟨rfl, ⟨rfl, hid⟩, ⟨rfl, by decide⟩, ⟨[3, 4], rfl, rfl⟩, by rintro n ⟨⟩⟩
    | true => exact ⟨rfl, rfl, hid⟩
  have hsizes : SizesKept {[97]} (fun _ => 2) .empty := fun _ _ => Or.inl rfl
  have hrun : Run TakesTurn
      ⟨.empty, fun k => (storeOrLoad false k).program (capnpReader fun _ => 0) .posix⟩
      [false, true, false, true, true, false, true] _ := Threads.run_turns rfl
  obtain ⟨points, _, hcuts⟩ := copies_linearizable (fun _ => 0) hsizes hscripts hrun
  obtain ⟨mid, hmid, _, ⟨t, ht, hcontents⟩, _⟩ := hcuts _ [] (List.append_nil _).symm
  exact ⟨threadsOf _ _ mid, hmid, _, t, ht, hcontents⟩

/-- A `load` through a mapping may get one byte of the old value and one of the new one. -/
theorem mapped_load_tears :
    ∃ now : Threads Bool FileSystem (List (PmemOp × Except Failure Bytes)),
      Run TakesTurn ⟨FileSystem.empty.put [97] (some [1, 2]),
          fun k => (storeOrLoad true k).program (capnpReader fun _ => 0) .posix⟩
        [true, true, true, true, false, false, false, true] now ∧
      ∃ op, now.programs true = .done [(op, .ok [1, 4])] :=
  ⟨_, Threads.run_turns rfl, _, rfl⟩

end Pmemcpy
