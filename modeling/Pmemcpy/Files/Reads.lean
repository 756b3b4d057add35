import Pmemcpy.Files.LastWrite

/-!
# Reading the files

`load` opens its file with `O_CREAT`: an id that was never stored becomes an
empty file by being read. So reads are pure, and `load` and `find` agree, only on
ids that are stored. Neither `store` nor `load` goes on after a transfer that
stopped short.
-/

namespace Pmemcpy

open Lib

/-! ### What a read does to the files -/

section Reads

variable {S : FileStorage} {s t : FileSystem} {id v other : Bytes} {a : SysAnswers}

/-- A call that throws. -/
def Throws {α : Type} (r : Except Failure α) : Prop := ∃ f, r = .error f

/-- A call that returns does not throw. -/
@[simp] theorem not_throws_ok {α : Type} (x : α) : ¬Throws (.ok x : Except Failure α) := by
  rintro ⟨f, hf⟩
  cases hf

/-- `find` leaves the files as they are. -/
theorem FileStorage.find_files (S : FileStorage) (s : FileSystem) (id : Bytes) (a : SysAnswers) :
    (S.find s id a).2.files = s.files := by
  cases S with
  | posix =>
    rw [FileStorage.find, PosixStorage.find]
    cases hopen : a.openFd with
    | none => simp [FileSystem.openExisting]
    | some fd => cases hfile : s.files (cStr id) <;> simp [FileSystem.openExisting, hfile]
  | pmdkFs =>
    rw [FileStorage.find, FilesystemPMDKStorage.find]
    cases hfile : s.files (cStr id) with
    | none => simp
    | some v => cases hmap : s.pmemMapWhole (cStr id) a.pmemMap <;> simp

/-- `load` creates the file of its id when it opens it. -/
theorem FileStorage.load_files (S : FileStorage) (s : FileSystem) (id : Bytes) (a : SysAnswers) :
    (S.load s id a).2.files =
      if a.openFd.isSome then (s.put (cStr id) (some (s.contents (cStr id)))).files
      else s.files := by
  rw [S.load_eq_loadFile, loadFile]
  cases hopen : a.openFd with
  | none => simp [FileSystem.openCreate]
  | some fd =>
    dsimp only [FileSystem.openCreate]
    split
    · simp
    · split
      · simp
      · split <;> simp

/-- A file that is there is loaded without a change. -/
theorem FileStorage.load_files_of_some (S : FileStorage) (hv : s.files (cStr id) = some v)
    (a : SysAnswers) : (S.load s id a).2.files = s.files := by
  rw [S.load_files, FileSystem.contents_eq hv, FileSystem.put_eq_self hv, ite_self]

/-- When the system serves every call, `find` throws exactly if there is no file, or an empty one
that libpmem has to map. -/
theorem FileStorage.find_throws_iff (S : FileStorage) (s : FileSystem) (id : Bytes)
    (ha : a.Served) :
    Throws (S.find s id a).1 ↔ ¬∃ v, s.files (cStr id) = some v ∧ (S = .pmdkFs → v ≠ []) := by
  obtain ⟨fd, hfd⟩ := Option.isSome_iff_exists.mp ha.openFd
  cases hfile : s.files (cStr id) with
  | none =>
    refine iff_of_true ⟨.thrown .posixFindFailed, ?_⟩ (by simp)
    cases S with
    | posix => simp [FileStorage.find, PosixStorage.find, hfd, FileSystem.openExisting, hfile]
    | pmdkFs => simp [FileStorage.find, FilesystemPMDKStorage.find, hfile]
  | some v =>
    cases S with
    | posix =>
      refine iff_of_false ?_ (by simp)
      simp [FileStorage.find, PosixStorage.find, hfd, FileSystem.openExisting, hfile]
    | pmdkFs =>
      by_cases hnil : v = []
      · refine iff_of_true ⟨.thrown .posixMmapFailed, ?_⟩ (by simp [hnil])
        simp [FileStorage.find, FilesystemPMDKStorage.find, hfile, FileSystem.pmemMapWhole, hnil]
      · refine iff_of_false ?_ (by simp [hnil])
        simp [FileStorage.find, FilesystemPMDKStorage.find, hfile, FileSystem.pmemMapWhole, hnil,
          ha.pmemMap]

end Reads

/-! ### Runs of reads and writes -/

/-- An operation of a client of a file storage: a call that changes a file, or a read. -/
inductive FileOp where
  | call (c : FileCall)
  | find (id : Bytes) (a : SysAnswers)
  | load (id : Bytes) (a : SysAnswers)
  deriving DecidableEq, Repr

namespace FileOp

/-- The id an operation is about. -/
def id : FileOp → Bytes
  | call c => c.id
  | find id _ => id
  | load id _ => id

/-- What an operation does; what a read returns is left out. -/
def exec (S : FileStorage) (s : FileSystem) : FileOp → Except Failure Unit × FileSystem
  | call c => c.exec S s
  | find id a => ((S.find s id a).1.map fun _ => (), (S.find s id a).2)
  | load id a => ((S.load s id a).1.map fun _ => (), (S.load s id a).2)

/-- The id is stored after the operation, by the result of the operation and by
whether it was stored before: an insertion counts if it returns, and a `free` always does. -/
def record (stored : Bytes → Bool) : FileOp × Except Failure Unit → Bytes → Bool
  | (call c, .ok _) => Function.update stored c.id c.writes.isSome
  | _ => stored

end FileOp

/-- A step of a run: any operation, labelled with how it ends. -/
def FileOpStep (S : FileStorage) (s : FileSystem) (e : FileOp × Except Failure Unit)
    (t : FileSystem) : Prop :=
  e.1.exec S s = (e.2, t)

/-- The ids that are stored after a run: those with a file at its start, and those
stored since and not freed. -/
def storedIds (start : FileSystem) (events : List (FileOp × Except Failure Unit)) :
    Bytes → Bool :=
  events.foldl FileOp.record fun id => (start.files (cStr id)).isSome

/-- Reads of `id` are pure and tell whether it is stored: they change no file, whatever
the system answers, and where it serves them `load` throws if and only if `find`
does, namely when the id is not stored. -/
structure ReadsTell (S : FileStorage) (s : FileSystem) (id : Bytes) (stored : Bool) : Prop where
  pure : ∀ a, (S.find s id a).2.files = s.files ∧ (S.load s id a).2.files = s.files
  agree : ∀ a : SysAnswers, a.Served → (Throws (S.load s id a).1 ↔ Throws (S.find s id a).1)
  absent : ∀ a : SysAnswers, a.Served → (Throws (S.find s id a).1 ↔ stored = false)

section Runs

variable {S : FileStorage} {start s t : FileSystem} {id v other : Bytes} {op : FileOp}
  {result : Except Failure Unit} {events : List (FileOp × Except Failure Unit)}

/-- In any state, reads of an id are as they should be exactly when its file is there and
can be mapped, and the id counts as stored. -/
theorem readsTell_iff_file {stored : Bool} :
    ReadsTell S s id stored ↔
      stored = true ∧ ∃ v, s.files (cStr id) = some v ∧ (S = .pmdkFs → v ≠ []) := by
  have hserved := SysAnswers.served_spec 3
  constructor
  · intro h
    cases hfile : s.files (cStr id) with
    | none =>
      have hload := congrFun (h.pure (.served 3)).2 (cStr id)
      rw [S.load_files, if_pos hserved.openFd, FileSystem.files_put_self, hfile] at hload
      cases hload
    | some v =>
      have hload : ¬Throws (S.load s id (.served 3)).1 := by
        rw [S.load_eq hfile hserved]
        exact not_throws_ok v
      have hfind : ¬Throws (S.find s id (.served 3)).1 := fun hthrows =>
        hload ((h.agree _ hserved).mpr hthrows)
      refine ⟨?_, ?_⟩
      · simpa using fun hfalse => hfind ((h.absent _ hserved).mpr hfalse)
      · rw [S.find_throws_iff s id hserved, not_not, hfile] at hfind
        exact hfind
  · rintro ⟨rfl, v, hv, hnil⟩
    have hload (a : SysAnswers) (ha : a.Served) : ¬Throws (S.load s id a).1 := by
      rw [S.load_eq hv ha]
      exact not_throws_ok v
    have hfind (a : SysAnswers) (ha : a.Served) : ¬Throws (S.find s id a).1 := by
      rw [S.find_throws_iff s id ha, not_not]
      exact ⟨v, hv, hnil⟩
    exact ⟨fun a => ⟨S.find_files s id a, S.load_files_of_some hv a⟩,
      fun a ha => iff_of_false (hload a ha) (hfind a ha),
      fun a ha => iff_of_false (hfind a ha) (by simp)⟩

/-- One more operation is recorded in the stored ids. -/
theorem storedIds_snoc (e : FileOp × Except Failure Unit) :
    storedIds start (events ++ [e]) = FileOp.record (storedIds start events) e := by
  rw [storedIds, List.foldl_append]
  rfl

/-- Putting a file keeps the files that are there. -/
theorem isSome_put {n w : Bytes} (hother : (s.files other).isSome) :
    ((s.put n (some w)).files other).isSome := by
  rw [FileSystem.files_put]
  split
  · rfl
  · exact hother

/-- An operation that is not a `free` keeps every file. -/
theorem FileOpStep.file_kept (h : FileOpStep S s (op, result) t)
    (hfree : ∀ id a, op ≠ .call (.free id a)) (hother : (s.files other).isSome) :
    (t.files other).isSome := by
  have ht : (op.exec S s).2 = t := congrArg Prod.snd h
  rcases op with (⟨id, src, a⟩ | ⟨id, size, contents, a⟩ | ⟨id, a⟩) | ⟨id, a⟩ | ⟨id, a⟩
  · obtain rfl : (S.store s id a src).2 = t := ht
    have heffect := S.store_effect s id src a
    generalize (S.store s id a src).1 = r at heffect
    generalize (S.store s id a src).2.files = files at heffect
    cases heffect with
    | notOpened => exact hother
    | notWritten => exact isSome_put hother
    | stored => exact isSome_put hother
  · have heffect := S.alloc_effect s id a size
    cases hresult : (S.alloc s id a size).1 with
    | error e =>
      have hexec : (S.alloc s id a size).2 = t := by
        rw [← ht]
        simp only [FileOp.exec, FileCall.exec]
        split <;> simp_all
      rw [hresult, hexec] at heffect
      generalize t.files = files at heffect
      cases heffect with
      | notOpened => exact hother
      | notResized => exact isSome_put hother
      | notMapped => exact isSome_put hother
    | ok buf =>
      have hexec : buf.fill (S.alloc s id a size).2 contents = t := by
        rw [← ht]
        simp only [FileOp.exec, FileCall.exec]
        split <;> simp_all
      rw [← hexec, (FileStorage.alloc_ok hresult).2 contents]
      exact isSome_put hother
  · exact absurd rfl (hfree id a)
  · obtain rfl : (S.find s id a).2 = t := ht
    rw [S.find_files]
    exact hother
  · obtain rfl : (S.load s id a).2 = t := ht
    rw [S.load_files]
    split
    · exact isSome_put hother
    · exact hother

/-- An insertion that returns leaves the file of its id. -/
theorem FileOpStep.file_stored {c : FileCall} (h : FileOpStep S s (.call c, .ok ()) t)
    (hwrites : c.writes.isSome) : (t.files (cStr c.id)).isSome := by
  have hexec : c.exec S s = (.ok (), t) := h
  cases c with
  | store id src a =>
    have hstore : S.store s id a src = (.ok (), t) := hexec
    have heffect := S.store_effect s id src a
    rw [hstore] at heffect
    generalize hfiles : t.files = files at heffect
    cases heffect
    rw [FileCall.id, FileSystem.files_put_self]
    rfl
  | alloc id size contents a =>
    rw [FileCall.exec] at hexec
    cases hresult : S.alloc s id a size with
    | mk r u =>
      rw [hresult] at hexec
      cases r with
      | error e => cases hexec
      | ok buf =>
        have hok : (S.alloc s id a size).1 = .ok buf := by rw [hresult]
        have hfill : buf.fill (S.alloc s id a size).2 contents = t := by
          rw [hresult]
          exact congrArg Prod.snd hexec
        rw [FileCall.id, ← hfill, (FileStorage.alloc_ok hok).2 contents, FileSystem.files_put_self]
        rfl
  | free id a => simp [FileCall.writes] at hwrites

/-- A stored id has a file, as long as no id has a NUL byte. -/
theorem stored_has_file (hrun : Run (FileOpStep S) start events t)
    (hids : ∀ e ∈ events, NulFree e.1.id) (hid : NulFree id)
    (hstored : storedIds start events id = true) : (t.files (cStr id)).isSome := by
  induction hrun with
  | nil => exact hstored
  | @snoc events s e t _ hstep ih =>
    have hidsBefore : ∀ e ∈ events, NulFree e.1.id := fun e' he' => hids e' (by simp [he'])
    obtain ⟨op, result⟩ := e
    have hop : NulFree op.id := hids (op, result) (by simp)
    rw [storedIds_snoc] at hstored
    by_cases hfree : ∃ id' a, op = .call (.free id' a)
    · obtain ⟨id', a, rfl⟩ := hfree
      have hexec := (S.free_eq_freeFile s id' a).symm.trans hstep
      obtain ⟨rfl, rfl⟩ := Prod.mk.inj hexec
      have hne : id ≠ id' := by
        rintro rfl
        simp [FileOp.record, FileCall.id, FileCall.writes] at hstored
      have hbefore : storedIds start events id = true := by
        simpa [FileOp.record, FileCall.id, FileCall.writes, hne] using hstored
      have hname : cStr id ≠ cStr id' := by
        have hid' : NulFree id' := hop
        rwa [cStr_eq_self_iff.mpr hid, cStr_eq_self_iff.mpr hid']
      have hkept := ih hidsBefore hbefore
      cases hremove : a.remove with
      | false => exact hkept
      | true =>
        simp only [FileSystem.remove]
        rw [FileSystem.files_put_of_ne hname]
        exact hkept
    · have hkeep : (s.files (cStr id)).isSome → (t.files (cStr id)).isSome :=
        hstep.file_kept fun id' a heq => hfree ⟨id', a, heq⟩
      by_cases hbefore : storedIds start events id = true
      · exact hkeep (ih hidsBefore hbefore)
      · cases op with
        | call c =>
          cases result with
          | error f => exact absurd hstored hbefore
          | ok u =>
            by_cases heq : id = c.id
            · subst heq
              have hwrites : c.writes.isSome := by simpa [FileOp.record] using hstored
              exact hstep.file_stored hwrites
            · simp [FileOp.record, heq, hbefore] at hstored
        | find id' a => exact absurd hstored hbefore
        | load id' a => exact absurd hstored hbefore

end Runs

/-- **Reads are pure, and tell whether an id is stored, exactly on the stored ids.**
After every run of stores, allocs, frees and reads, from any directory, the reads of
an id change no file and `load` throws if and only if `find` does, namely when it is
not stored, exactly when the id is stored and its file is there to be mapped. With
ids without NUL bytes a stored id has its file. -/
theorem readsTell_iff {S : FileStorage} {start t : FileSystem}
    {events : List (FileOp × Except Failure Unit)} (hrun : Run (FileOpStep S) start events t)
    (id : Bytes) :
    (ReadsTell S t id (storedIds start events id) ↔
      storedIds start events id = true ∧
        ∃ v, t.files (cStr id) = some v ∧ (S = .pmdkFs → v ≠ [])) ∧
    ((∀ e ∈ events, NulFree e.1.id) → NulFree id →
      (ReadsTell S t id (storedIds start events id) ↔
        storedIds start events id = true ∧ (S = .pmdkFs → t.contents (cStr id) ≠ []))) := by
  refine ⟨readsTell_iff_file, ?_⟩
  intro hids hid
  rw [readsTell_iff_file]
  constructor
  · rintro ⟨hstored, v, hv, hnil⟩
    rw [FileSystem.contents_eq hv]
    exact ⟨hstored, hnil⟩
  · rintro ⟨hstored, hnil⟩
    obtain ⟨v, hv⟩ := Option.isSome_iff_exists.mp (stored_has_file hrun hids hid hstored)
    rw [FileSystem.contents_eq hv] at hnil
    exact ⟨hstored, v, hv, hnil⟩

/-- A stored byte is read without a change, and is still stored after it was loaded. -/
theorem readsTell_stored :
    ∃ t, Run (FileOpStep .posix) FileSystem.empty
        [(.call (.store [97] [7] (.served 3)), .ok ()), (.load [97] (.served 3), .ok ())] t ∧
      ReadsTell .posix t [97] true := by
  obtain ⟨s, hs⟩ : ∃ s, s = (FileStorage.posix.store FileSystem.empty [97] (.served 3) [7]).2 :=
    ⟨_, rfl⟩
  have hstore : FileOpStep .posix FileSystem.empty
      (.call (.store [97] [7] (.served 3)), .ok ()) s := by rw [hs]; rfl
  have hfile : s.files (cStr [97]) = some [7] := by rw [hs]; rfl
  have hload : FileOpStep .posix s (.load [97] (.served 3), .ok ())
      (FileStorage.posix.load s [97] (.served 3)).2 := by
    have hok : (FileStorage.posix.load s [97] (.served 3)).1 = .ok [7] :=
      FileStorage.load_eq .posix hfile (SysAnswers.served_spec 3)
    rw [FileOpStep, FileOp.exec, hok]
    rfl
  have hrun := (Run.single hstore).snoc hload
  refine ⟨_, hrun, ((readsTell_iff hrun [97]).2 ?_ (by decide)).mpr ⟨by decide, by simp⟩⟩
  intro e he
  simp only [List.cons_append, List.nil_append, List.mem_cons, List.not_mem_nil, or_false] at he
  rcases he with rfl | rfl <;> exact (by decide : NulFree [97])

/-- Loading an id that was never stored creates its file, and does not throw. -/
theorem load_creates :
    ¬ReadsTell .posix FileSystem.empty [97] (storedIds FileSystem.empty [] [97]) ∧
      ¬ReadsTell .pmdkFs FileSystem.empty [97] (storedIds FileSystem.empty [] [97]) := by
  have hclaim (S : FileStorage) :
      ¬ReadsTell S FileSystem.empty [97] (storedIds FileSystem.empty [] [97]) := by
    rw [readsTell_iff_file]
    rintro ⟨hstored, _⟩
    cases hstored
  exact ⟨hclaim .posix, hclaim .pmdkFs⟩

/-! ### Transfers that stop short -/

/-- A `store` of `src` and the `load` that follows it complete. -/
def Completes (S : FileStorage) (s : FileSystem) (id src : Bytes) (a b : SysAnswers) : Prop :=
  (S.store s id a src).1 = .ok () ∧ (S.load (S.store s id a src).2 id b).1 = .ok src

/-- No call of a `store` or of a `load` reports an error, and every transfer progresses. -/
structure SysAnswers.NoError (a : SysAnswers) : Prop where
  openFd : a.openFd.isSome
  fileSize : a.fileSize = true
  write : a.write.Progresses
  read : a.read.Progresses

section Short

variable {S : FileStorage} {s : FileSystem} {id src v : Bytes} {a b : SysAnswers}

/-- A `store` whose file can be opened returns exactly if its one `write` moves all
bytes, and the file of an absent id then is what was stored. -/
theorem store_ok_iff_full (S : FileStorage) (habsent : s.files (cStr id) = none)
    (ha : a.openFd.isSome) (src : Bytes) :
    ((S.store s id a src).1 = .ok () ↔ a.write.count src.length = some src.length) ∧
      ((S.store s id a src).1 = .ok () → (S.store s id a src).2.files (cStr id) = some src) := by
  obtain ⟨fd, hfd⟩ := Option.isSome_iff_exists.mp ha
  rw [S.store_eq_storeFile]
  cases hn : a.write.count src.length with
  | none => simp [storeFile, hfd, FileSystem.openCreate, FileSystem.write, hn]
  | some n =>
    by_cases hlen : src.length = n
    · subst hlen
      simp [storeFile, hfd, FileSystem.openCreate, FileSystem.write, hn, FileSystem.contents,
        habsent, splice]
    · simp [storeFile, hfd, FileSystem.openCreate, FileSystem.write, hn, hlen, Ne.symm hlen]

/-- A `load` whose file can be opened returns the file exactly if its one `read`
moves all bytes. -/
theorem load_ok_iff_full (S : FileStorage) (hv : s.files (cStr id) = some v)
    (hb : b.openFd.isSome) (hsize : b.fileSize = true) :
    (S.load s id b).1 = .ok v ↔ b.read.count v.length = some v.length := by
  obtain ⟨fd, hfd⟩ := Option.isSome_iff_exists.mp hb
  rw [S.load_eq_loadFile]
  cases hn : b.read.count v.length with
  | none =>
    simp [loadFile, hfd, FileSystem.openCreate, hsize, FileSystem.fileSize, FileSystem.read, hn,
      FileSystem.contents, hv]
  | some n =>
    have hle := Transfer.count_le hn
    by_cases hlen : n = v.length
    · subst hlen
      simp [loadFile, hfd, FileSystem.openCreate, hsize, FileSystem.fileSize, FileSystem.read, hn,
        FileSystem.contents, hv]
    · have hshort : v.length ≠ min n v.length := by omega
      simp [loadFile, hfd, FileSystem.openCreate, hsize, FileSystem.fileSize, FileSystem.read, hn,
        FileSystem.contents, hv, hshort, hlen]

/-- **A transfer that stops short is not taken up again.** On an absent id, with calls
that report no error and transfers that move at least one byte, `store` returns and
`load` gives back what was stored exactly when the one `write` and the one `read`
move everything. -/
theorem completes_iff (S : FileStorage) (src : Bytes) (habsent : s.files (cStr id) = none)
    (ha : a.NoError) (hb : b.NoError) :
    Completes S s id src a b ↔
      a.write.count src.length = some src.length ∧ b.read.count src.length = some src.length := by
  obtain ⟨hstore, hfile⟩ := store_ok_iff_full S habsent ha.openFd src
  constructor
  · rintro ⟨hok, hload⟩
    exact ⟨hstore.mp hok, (load_ok_iff_full S (hfile hok) hb.openFd hb.fileSize).mp hload⟩
  · rintro ⟨hwrite, hread⟩
    have hok := hstore.mpr hwrite
    exact ⟨hok, (load_ok_iff_full S (hfile hok) hb.openFd hb.fileSize).mpr hread⟩

end Short

/-- Calls that report no error, and transfer at most `n` bytes at once. -/
def SysAnswers.atMost (n : ℕ) : SysAnswers :=
  ⟨some 3, true, true, .short n, true, .short n, true, .mapped⟩

/-- Transfers of at most `n` bytes progress. -/
theorem SysAnswers.atMost_noError {n : ℕ} (hn : 0 < n) : (SysAnswers.atMost n).NoError :=
  ⟨rfl, rfl, hn, hn⟩

/-- Two bytes are stored and loaded by transfers of at most two. -/
theorem completes_two_bytes :
    Completes .posix FileSystem.empty [97] [1, 2] (.atMost 2) (.atMost 2) :=
  (completes_iff .posix [1, 2] rfl (SysAnswers.atMost_noError (by decide))
    (SysAnswers.atMost_noError (by decide))).mpr ⟨rfl, rfl⟩

/-- Three bytes are not: no call reports an error, but `store` throws. -/
theorem short_write_throws :
    (SysAnswers.atMost 2).NoError ∧
      ¬Completes .posix FileSystem.empty [97] [1, 2, 3] (.atMost 2) (.atMost 2) ∧
      ¬Completes .pmdkFs FileSystem.empty [97] [1, 2, 3] (.atMost 2) (.atMost 2) := by
  refine ⟨SysAnswers.atMost_noError (by decide), ?_, ?_⟩
  · rintro ⟨hok, _⟩
    cases hok
  · rintro ⟨hok, _⟩
    cases hok

end Pmemcpy
