import Pmemcpy.Lib.Atomicity
import Pmemcpy.Files.Programs

/-!
# Copies to and from files look atomic

`store` and `load` make several system calls each. While all that is stored in a file has
one length, and no `write` stops short, a `store` is seen to happen at its `write`, and a
`load` at its `read`, or where it finds out that the file is still empty.
-/

namespace Pmemcpy

open Lib Program

/-! ### What copies do to the contents of the files -/

/-- What a `store` makes of the contents. -/
def storeContents (id : Bytes) (a : SysAnswers) (src : Bytes) (c : Bytes → Bytes) :
    Except Failure Unit × (Bytes → Bytes) :=
  match a.openFd with
  | none => (.error (.thrown .posixOpenFailed), c)
  | some _ =>
    match a.write.count src.length with
    | none => (.error (.thrown .posixWriteFailed), c)
    | some n =>
      (if src.length ≠ n then .error (.thrown .posixWriteFailed) else .ok (),
        Function.update c (cStr id) (splice (c (cStr id)) 0 (src.take n)))

/-- What a `load` returns. -/
def loadContents (id : Bytes) (a : SysAnswers) (c : Bytes → Bytes) : Except Failure Bytes :=
  match a.openFd with
  | none => .error (.thrown .posixReadFailed)
  | some _ =>
    if a.fileSize = false then .error .foreign
    else
      match a.read.count (c (cStr id)).length with
      | none => .error (.thrown .posixReadFailed)
      | some n =>
        if (c (cStr id)).length ≠ n then .error (.thrown .posixReadFailed) else .ok (c (cStr id))

section Contents

variable {s : FileSystem} {name id : Bytes} {a : SysAnswers}

/-- The contents of the files, after one of them has been put. -/
theorem contents_put (v : Option Bytes) :
    (s.put name v).contents = Function.update s.contents name (v.getD []) := by
  funext other
  rw [FileSystem.contents, FileSystem.files_put, Function.update_apply]
  split <;> rfl

/-- A file that is created is an empty one. -/
theorem contents_create : (s.put name (some (s.contents name))).contents = s.contents := by
  rw [contents_put, Option.getD_some, Function.update_eq_self]

/-- What `storeFile` returns and makes of the contents of the files depends on these contents only.
-/
theorem storeFile_contents (s : FileSystem) (id : Bytes) (a : SysAnswers) (src : Bytes) :
    ((storeFile s id a src).1, (storeFile s id a src).2.contents) =
      storeContents id a src s.contents := by
  unfold storeFile storeContents
  cases a.openFd with
  | none => rfl
  | some fd =>
    have hopen : (s.put (cStr id) (some (s.contents (cStr id)))).contents = s.contents :=
      contents_create
    dsimp only [FileSystem.openCreate, FileSystem.write]
    cases a.write.count src.length with
    | none => exact Prod.ext rfl hopen
    | some n =>
      have hput : ∀ t : FileSystem, t.files = (s.put (cStr id) (some (splice
          (s.contents (cStr id)) 0 (src.take n)))).files → t.contents = Function.update s.contents
            (cStr id) (splice (s.contents (cStr id)) 0 (src.take n)) := by
        intro t ht
        funext other
        rw [FileSystem.contents, ht]
        exact congrFun (contents_put _) other
      dsimp only
      by_cases hlen : src.length = n
      · rw [if_neg (not_not.mpr hlen), if_neg (not_not.mpr hlen)]
        exact Prod.ext rfl (hput _ (by simp [FileSystem.put]))
      · rw [if_pos hlen, if_pos hlen]
        exact Prod.ext rfl (hput _ (by simp [FileSystem.put]))

/-- What `loadFile` returns depends on the contents of the files only, and it changes none. -/
theorem loadFile_contents (s : FileSystem) (id : Bytes) (a : SysAnswers) :
    (loadFile s id a).1 = loadContents id a s.contents ∧
      (loadFile s id a).2.contents = s.contents := by
  unfold loadFile loadContents
  cases a.openFd with
  | none => exact ⟨rfl, rfl⟩
  | some fd =>
    have hopen : (s.put (cStr id) (some (s.contents (cStr id)))).contents = s.contents :=
      contents_create
    dsimp only [FileSystem.openCreate, FileSystem.fileSize]
    cases a.fileSize with
    | false => exact ⟨rfl, hopen⟩
    | true =>
      rw [if_neg (by decide), FileSystem.files_put_self]
      dsimp only [Option.map_some, FileSystem.read]
      cases hmoved : a.read.count (s.contents (cStr id)).length with
      | none => exact ⟨rfl, hopen⟩
      | some n =>
        have hle := Transfer.count_le hmoved
        have hbuffer : (((s.contents (cStr id)).take n)).length = n := by
          rw [List.length_take, Nat.min_eq_left hle]
        have hread : FileSystem.contents
            { s.put (cStr id) (some (s.contents (cStr id))) with
              fds := insert fd (s.put (cStr id) (some (s.contents (cStr id)))).fds } (cStr id) =
            s.contents (cStr id) := congrFun hopen _
        dsimp only
        rw [hread, hbuffer]
        by_cases hlen : (s.contents (cStr id)).length = n
        · rw [if_neg (not_not.mpr hlen), if_neg (not_not.mpr hlen)]
          refine ⟨?_, hopen⟩
          dsimp only
          rw [← hlen, List.take_length]
        · rw [if_pos hlen, if_pos hlen]
          exact ⟨rfl, hopen⟩

end Contents

/-! ### What the clients rely on -/

section Atomic

variable (ids : Set Bytes) (size : Bytes → ℕ)

/-- The files of these names are empty, or have their size. -/
def SizesKept (s : FileSystem) : Prop :=
  ∀ name ∈ ids, s.contents name = [] ∨ (s.contents name).length = size name

/-- Nobody removes a file, or empties one. -/
def OnlyGrows (s t : FileSystem) : Prop :=
  ∀ name, ((s.files name).isSome → (t.files name).isSome) ∧
    (s.contents name ≠ [] → t.contents name ≠ [])

instance : IsPreorder FileSystem OnlyGrows where
  refl _ _ := ⟨id, id⟩
  trans _ _ _ h h' name := ⟨(h' name).1 ∘ (h name).1, (h' name).2 ∘ (h name).2⟩

variable {ids size} {s t : FileSystem} {name id src : Bytes} {a : SysAnswers} {fd : ℕ}

/-- Where the contents are the same and no file is gone, all is kept. -/
theorem SizesKept.of_contents (h : SizesKept ids size s) (hcontents : t.contents = s.contents)
    (hfiles : ∀ name, (s.files name).isSome → (t.files name).isSome) :
    SizesKept ids size t ∧ OnlyGrows s t := by
  refine ⟨?_, ?_⟩
  · intro name hname
    rw [hcontents]
    exact h name hname
  · intro name
    rw [hcontents]
    exact ⟨hfiles name, id⟩

/-- Opening a file changes no contents, and keeps the sizes. -/
theorem SizesKept.openCreate (h : SizesKept ids size s) (name : Bytes) (fd : Option ℕ) :
    (SizesKept ids size (s.openCreate name fd).2 ∧ OnlyGrows s (s.openCreate name fd).2) ∧
      (s.openCreate name fd).2.contents = s.contents := by
  cases fd with
  | none => exact ⟨h.of_contents rfl fun _ => id, rfl⟩
  | some fd =>
    have hcontents : (s.openCreate name (some fd)).2.contents = s.contents := contents_create
    refine ⟨h.of_contents hcontents ?_, hcontents⟩
    intro other hother
    show ((s.put name (some (s.contents name))).files other).isSome
    rw [FileSystem.files_put]
    split
    · rfl
    · exact hother

/-- Closing a descriptor changes no contents, so it is not seen. -/
theorem implements_close {α : Type} {p : Program FileSystem α} {q : Program (Bytes → Bytes) α}
    (h : ∀ t, p.Implements (SizesKept ids size) OnlyGrows FileSystem.contents q t) :
    ((closeCall fd).bind fun _ => p).Implements (SizesKept ids size) OnlyGrows
      FileSystem.contents q s :=
  implements_silent fun _ ht _ => ⟨ht.of_contents rfl fun _ => id, rfl, h _⟩

/-- **A `store` happens at its `write`.** -/
theorem storeProgram_implements (hname : cStr id ∈ ids) (hsrc : src.length = size (cStr id))
    (hwrite : ∀ n, a.write ≠ .short n) :
    (storeProgram id a src).Implements (SizesKept ids size) OnlyGrows FileSystem.contents
      (call (storeContents id a src)) s := by
  cases hopen : a.openFd with
  | none =>
    unfold storeProgram
    rw [hopen]
    refine implements_commit fun t ht _ => ⟨(ht.openCreate _ _).1, ?_, ?_⟩
    · rw [(ht.openCreate _ _).2, storeContents, hopen]
    · show _ = done _
      rw [storeContents, hopen]
  | some fd =>
    unfold storeProgram
    rw [hopen]
    refine implements_silent fun t ht _ => ⟨(ht.openCreate _ _).1, (ht.openCreate _ _).2, ?_⟩
    have hexists : (((t.openCreate (cStr id) (some fd)).2).files (cStr id)).isSome := by
      show ((t.put (cStr id) _).files (cStr id)).isSome
      rw [FileSystem.files_put_self]
      rfl
    refine implements_commit fun u hu hgrown => ?_
    obtain ⟨old, hold⟩ := Option.isSome_iff_exists.mp ((hgrown (cStr id)).1 hexists)
    cases hmoved : a.write with
    | failed =>
      refine ⟨hu.of_contents rfl fun _ h => h, ?_, ?_⟩
      · rw [storeContents, hopen, hmoved]
        rfl
      · rw [storeContents, hopen, hmoved]
        exact implements_close fun _ => rfl
    | short n => exact absurd hmoved (hwrite n)
    | full =>
      have hcovers : splice (u.contents (cStr id)) 0 src = src := by
        rw [splice_zero_eq_iff, hsrc]
        rcases hu (cStr id) hname with hnil | hfull
        · rw [hnil]
          exact Nat.zero_le _
        · exact hfull.le
      have hput : (u.write (cStr id) src .full).2.contents =
          Function.update u.contents (cStr id) src := by
        show (u.put (cStr id) _).contents = _
        rw [FileSystem.contents_eq hold] at hcovers
        rw [contents_put, hold, Option.map_some, Option.getD_some, List.take_length, hcovers]
      refine ⟨⟨?_, ?_⟩, ?_, ?_⟩
      · intro name hname'
        rw [hput, Function.update_apply]
        split
        · rename_i heq
          rw [heq]
          exact Or.inr hsrc
        · exact hu name hname'
      · intro name
        refine ⟨?_, ?_⟩
        · intro hfile
          show ((u.put (cStr id) _).files name).isSome
          rw [FileSystem.files_put]
          split
          · rw [hold]
            rfl
          · exact hfile
        · intro hne
          rw [hput, Function.update_apply]
          split
          · rename_i heq
            rw [heq] at hne
            have hfull := (hu (cStr id) hname).resolve_left hne
            have hpos := List.length_pos_of_ne_nil hne
            rw [hfull, ← hsrc] at hpos
            exact List.ne_nil_of_length_pos hpos
          · exact hne
      · rw [hput, storeContents, hopen, hmoved]
        dsimp only [Transfer.count]
        rw [List.take_length, hcovers]
      · rw [storeContents, hopen, hmoved]
        refine implements_close fun _ => ?_
        have hall : ¬src.length ≠ src.length := not_not.mpr rfl
        show Implements _ _ _ (if _ then _ else _) (done (if _ then _ else _)) _
        rw [if_neg hall, if_neg hall]
        rfl

/-- What a `load` makes of what it has read. -/
def loaded (len : ℕ) : Option Bytes → Except Failure Bytes
  | none => .error (.thrown .posixReadFailed)
  | some buffer =>
    if len ≠ buffer.length then .error (.thrown .posixReadFailed) else .ok buffer

/-- What a `load` returns that knows the length of its file before it reads. -/
theorem loaded_read (hopen : a.openFd = some fd) (hsize : a.fileSize = true) (s : FileSystem) :
    loaded (s.contents (cStr id)).length (s.read (cStr id) (s.contents (cStr id)).length a.read) =
      loadContents id a s.contents := by
  rw [loadContents, hopen, FileSystem.read, hsize]
  dsimp only
  rw [if_neg (by decide)]
  cases hmoved : a.read.count (s.contents (cStr id)).length with
  | none => rfl
  | some n =>
    dsimp only [loaded]
    rw [List.length_take, Nat.min_eq_left (Transfer.count_le hmoved)]
    by_cases hlen : (s.contents (cStr id)).length = n
    · rw [if_neg (not_not.mpr hlen), if_neg (not_not.mpr hlen), ← hlen, List.take_length]
    · rw [if_pos hlen, if_pos hlen]

/-- **A `load` happens at its `read`**, or, of a file that is still empty, before. -/
theorem loadProgram_implements (hname : cStr id ∈ ids) :
    (loadProgram id a).Implements (SizesKept ids size) OnlyGrows FileSystem.contents
      (call fun c => (loadContents id a c, c)) s := by
  unfold loadProgram
  cases hopen : a.openFd with
  | none =>
    refine implements_commit fun t ht _ => ⟨(ht.openCreate _ _).1, (ht.openCreate _ _).2, ?_⟩
    show _ = done _
    rw [loadContents, hopen]
  | some fd =>
    refine implements_silent fun t ht _ => ⟨(ht.openCreate _ _).1, (ht.openCreate _ _).2, ?_⟩
    have hexists : (((t.openCreate (cStr id) (some fd)).2).files (cStr id)).isSome := by
      show ((t.put (cStr id) _).files (cStr id)).isSome
      rw [FileSystem.files_put_self]
      rfl
    -- the rest of the code, when the length is known and the file is read
    have hrest (len : ℕ) (buffer : Option Bytes) (u : FileSystem) :
        Implements (SizesKept ids size) OnlyGrows FileSystem.contents
          ((closeCall fd).bind fun _ =>
            match buffer with
            | none => done (.error (.thrown .posixReadFailed))
            | some buffer =>
              if len ≠ buffer.length then done (.error (.thrown .posixReadFailed))
              else done (.ok buffer)) (done (loaded len buffer)) u := by
      refine implements_close fun _ => ?_
      cases buffer with
      | none => rfl
      | some buffer =>
        dsimp only [loaded]
        split <;> rfl
    intro u hu hgrown
    obtain ⟨v, hv⟩ := Option.isSome_iff_exists.mp ((hgrown (cStr id)).1 hexists)
    have hcontents : u.contents (cStr id) = v := FileSystem.contents_eq hv
    refine ⟨hu.of_contents rfl fun _ h => h, ?_⟩
    cases hsize : a.fileSize with
    | false =>
      refine Or.inr ⟨_, _, rfl, rfl, ?_⟩
      have herror : loadContents id a u.contents = .error .foreign := by
        rw [loadContents, hopen, hsize]
        rfl
      exact congrArg done herror
    | true =>
      have hlen : u.fileSize (cStr id) true = some v.length := by
        rw [FileSystem.fileSize, hv]
        rfl
      by_cases hnil : v = []
      · refine Or.inr ⟨_, _, rfl, rfl, ?_⟩
        dsimp only
        rw [hlen, ← loaded_read hopen hsize, hcontents, hnil]
        refine implements_silent fun w hw _ => ⟨hw.of_contents rfl fun _ h => h, rfl, ?_⟩
        have hread : u.read (cStr id) 0 a.read = w.read (cStr id) 0 a.read := by
          rw [FileSystem.read, FileSystem.read]
          cases hmoved : a.read.count 0 with
          | none => rfl
          | some n =>
            obtain rfl : n = 0 := Nat.le_zero.mp (Transfer.count_le hmoved)
            rfl
        rw [List.length_nil, hread]
        exact hrest _ _ _
      · refine Or.inl ⟨rfl, ?_⟩
        dsimp only
        rw [hlen]
        refine implements_commit fun w hw hgrown' => ⟨hw.of_contents rfl fun _ h => h, rfl, ?_⟩
        have hne : u.contents (cStr id) ≠ [] := by rwa [hcontents]
        have hsame : v.length = (w.contents (cStr id)).length := by
          rw [(hw _ hname).resolve_left ((hgrown' (cStr id)).2 hne), ← hcontents]
          exact (hu _ hname).resolve_left hne
        rw [hsame, ← loaded_read hopen hsize]
        exact hrest _ _ _

end Atomic

end Pmemcpy
