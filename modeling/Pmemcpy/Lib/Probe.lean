import Pmemcpy.Lib.Bytes

/-!
# Computations that look at a memory

A probe looks at some bytes of a memory, decides by them where to look next, and
returns or fails at last. What it returns depends only on the bytes that it has
looked at. The converse holds too, for probes that would notice a change of the
bytes behind a buffer, and that the right bytes there would let return: if such a
probe finds the same whatever is behind the buffer, it does not look there.
-/

namespace Pmemcpy.Lib

/-- A computation that looks at a memory some bytes at a time, and returns or fails. -/
inductive Probe (ε α : Type) where
  | done (result : Except ε α)
  | look (off n : ℕ) (next : Bytes → Probe ε α)

/-- A memory: a byte at each address. -/
abbrev Memory := ℕ → UInt8

/-- The `n` bytes of a memory from `off` on. -/
def Memory.read (m : Memory) (off n : ℕ) : Bytes := (List.range n).map fun i => m (off + i)

/-- The memory that begins with the bytes of a buffer. -/
def Memory.holding (v : Bytes) (behind : Memory) : Memory := fun i => v.getD i (behind i)

/-- The memory begins with these bytes, and maybe more that are known. -/
def Memory.Begins (m : Memory) (v : Bytes) : Prop :=
  ∀ off n, off + n ≤ v.length → m.read off n = slice v off n

/-- The memory with other bytes from `off` on. -/
def Memory.overwrite (m : Memory) (off : ℕ) (b : Bytes) : Memory := fun i =>
  if off ≤ i then b.getD (i - off) (m i) else m i

section Memory

variable {m m' : Memory} {v b : Bytes} {off n size : ℕ}

/-- A look at `n` bytes shows `n` bytes. -/
@[simp] theorem Memory.length_read (m : Memory) (off n : ℕ) : (m.read off n).length = n := by
  simp [Memory.read]

/-- Memories that agree on the bytes looked at show the same. -/
theorem Memory.read_congr (h : ∀ i < size, m i = m' i) (hin : off + n ≤ size) :
    m.read off n = m'.read off n := by
  apply List.map_congr_left
  intro i hi
  have hlt := List.mem_range.mp hi
  exact h (off + i) (by omega)

/-- Zeros are looked at as zeros. -/
theorem Memory.read_zeros (h : ∀ i, off ≤ i → m i = 0) (n : ℕ) :
    m.read off n = List.replicate n 0 := by
  apply List.ext_getElem
  · simp
  · intro i hi hi'
    simp [Memory.read, h]

/-- Inside the buffer a memory shows the bytes of the buffer. -/
theorem Memory.read_holding (behind : Memory) (h : off + n ≤ v.length) :
    (Memory.holding v behind).read off n = slice v off n := by
  apply List.ext_getElem
  · rw [Memory.length_read, length_slice h]
  · intro i hi hi'
    rw [Memory.length_read] at hi
    have hlt : off + i < v.length := by omega
    simp [Memory.read, Memory.holding, slice, hlt]

/-- A memory that holds a buffer begins with the start of the buffer. -/
theorem Memory.begins_holding (v rest : Bytes) (behind : Memory) :
    (Memory.holding (v ++ rest) behind).Begins v := by
  intro off n h
  rw [Memory.read_holding behind (by simp; omega), slice_append_left h]

/-- Behind the buffer a memory shows what is there. -/
theorem Memory.holding_behind {behind : Memory} {i : ℕ} (h : v.length ≤ i) :
    Memory.holding v behind i = behind i := by
  simp [Memory.holding, h]

/-- Memories that hold the same buffer agree on it. -/
theorem Memory.holding_agree (behind behind' : Memory) :
    ∀ i < v.length, Memory.holding v behind i = Memory.holding v behind' i := by
  intro i hi
  simp [Memory.holding, hi]

/-- A memory that agrees with one that holds a buffer holds it. -/
theorem Memory.holding_of_agree {behind : Memory}
    (h : ∀ i < v.length, m i = Memory.holding v behind i) : Memory.holding v m = m := by
  funext i
  by_cases hi : i < v.length
  · rw [h i hi]
    simp [Memory.holding, hi]
  · simp [Memory.holding, not_lt.mp hi]

/-- What was written is what is looked at. -/
theorem Memory.read_overwrite (m : Memory) (off : ℕ) (b : Bytes) :
    (m.overwrite off b).read off b.length = b := by
  apply List.ext_getElem
  · rw [Memory.length_read]
  · intro i hi hi'
    simp [Memory.read, Memory.overwrite, hi']

/-- Below `off` the memory is as it was. -/
theorem Memory.overwrite_below {i : ℕ} (h : i < off) : m.overwrite off b i = m i :=
  if_neg (by omega)

end Memory

namespace Probe

variable {ε α β : Type}

/-- A probe that returns. -/
protected def pure (a : α) : Probe ε α := done (.ok a)

/-- One probe after another. -/
protected def bind : Probe ε α → (α → Probe ε β) → Probe ε β
  | done (.ok a), f => f a
  | done (.error e), _ => done (.error e)
  | look off n next, f => look off n fun b => (next b).bind f

instance : Monad (Probe ε) where
  pure := Probe.pure
  bind := Probe.bind

/-- What a probe finds in a memory. -/
def run (m : Memory) : Probe ε α → Except ε α
  | done result => result
  | look off n next => run m (next (m.read off n))

/-- In this memory the probe only looks at the first `size` bytes. -/
def Inside (size : ℕ) (m : Memory) : Probe ε α → Prop
  | done _ => True
  | look off n next => off + n ≤ size ∧ Inside size m (next (m.read off n))

/-- In this memory the probe only looks at the first `size` bytes, and what it finds has a
property. -/
def Safely (size : ℕ) (m : Memory) (Q : α → Prop) : Probe ε α → Prop
  | done (.ok a) => Q a
  | done (.error _) => True
  | look off n next => off + n ≤ size ∧ Safely size m Q (next (m.read off n))

/-- The probe fails in every memory. -/
def Fails (p : Probe ε α) : Prop := ∀ m, ∃ e, p.run m = .error e

/-- Every look of the probe is at one cell of `w` bytes, behind the first `size` bytes other
bytes there make it fail, and what it finds has a property. -/
def Guarded (w size : ℕ) (Q : α → Prop) : Probe ε α → Prop
  | done (.ok a) => Q a
  | done (.error _) => True
  | look off n next => off % w + n ≤ w ∧
      (size < off + n → ∃ b : Bytes, b.length = n ∧ (next b).Fails) ∧
      ∀ b, Guarded w size Q (next b)

/-- Every look of the probe is at one cell of `w` bytes, and behind the first `size` bytes
other bytes there change the result, if there was one. -/
def Telling (w size : ℕ) : Probe ε α → Prop
  | done _ => True
  | look off n next => off % w + n ≤ w ∧
      (size < off + n → ∀ b : Bytes, b.length = n → ∃ b' : Bytes, b'.length = n ∧
        ∀ m m' r, (next b).run m = .ok r → (next b').run m' ≠ .ok r) ∧
      ∀ b, Telling w size (next b)

/-- Bytes behind the first `size` let the probe return something with a property as soon as it
looks there, with the right ones behind them, whatever is in front of them. -/
def Promising (size : ℕ) (P : α → Prop) : Probe ε α → Prop
  | done _ => True
  | look off n next =>
      (size < off + n → ∃ b : Bytes, b.length = n ∧ ∀ m : Memory, ∃ m' : Memory,
        (∀ i < off + n, m' i = m i) ∧ ∃ a, (next b).run m' = .ok a ∧ P a) ∧
      ∀ b, Promising size P (next b)

/-- Where the probe first looks behind the first `size` bytes, it looks at a cell of `w` bytes
that they end in. -/
def Splits (w size : ℕ) (m : Memory) : Probe ε α → Prop
  | done _ => False
  | look off n next =>
      if off + n ≤ size then Splits w size m (next (m.read off n))
      else w * (off / w) < size ∧ size < w * (off / w) + w

/-- In every memory that holds the buffer, the probe finds the same or fails. -/
def DependsOn (v : Bytes) (p : Probe ε α) : Prop :=
  ∀ behind behind' : Memory,
    (p.run (.holding v behind)).toOption = (p.run (.holding v behind')).toOption

/-- The probe does not look behind the buffer, whatever is there. -/
def Within (v : Bytes) (p : Probe ε α) : Prop := p.Inside v.length (.holding v fun _ => 0)

variable {p : Probe ε α} {f : α → Probe ε β} {P Q : α → Prop} {R : β → Prop} {m m' : Memory}
  {size w : ℕ} {v : Bytes}

/-- The steps of a sequence are the `bind` of the probes. -/
theorem bind_eq (p : Probe ε α) (f : α → Probe ε β) : p >>= f = p.bind f := rfl

/-- A `pure` value is found without a look. -/
theorem pure_eq (a : α) : (Pure.pure a : Probe ε α) = done (.ok a) := rfl

/-- What follows a value that is found without a look is what follows the value. -/
@[simp] theorem bind_done_ok (a : α) : (done (.ok a) : Probe ε α).bind f = f a := rfl

/-- A sequence that begins with a look looks, and goes on with what it has seen. -/
@[simp] theorem bind_look (off n : ℕ) (next : Bytes → Probe ε α) :
    (look off n next).bind f = look off n fun b => (next b).bind f := rfl

/-- Sequences are associative. -/
theorem bind_assoc {γ : Type} (p : Probe ε α) (f : α → Probe ε β) (g : β → Probe ε γ) :
    (p.bind f).bind g = p.bind fun a => (f a).bind g := by
  induction p with
  | done result => cases result <;> rfl
  | look off n next ih =>
    rw [bind_look, bind_look, bind_look]
    congr 1
    funext b
    exact ih b

/-- A sequence finds what its second probe finds, if the first one does not fail. -/
theorem run_bind (m : Memory) (p : Probe ε α) (f : α → Probe ε β) :
    (p.bind f).run m = match p.run m with
      | .ok a => (f a).run m
      | .error e => .error e := by
  induction p with
  | done result => cases result <;> rfl
  | look off n next ih => exact ih (m.read off n)

/-- Where the first probe finds something, the second goes on. -/
theorem run_bind_of_ok {a : α} (h : p.run m = .ok a) : (p.bind f).run m = (f a).run m := by
  rw [run_bind, h]

/-- What a probe finds whose result is put into something else. -/
theorem exists_of_run_map {g : α → β} {r : β}
    (h : (p.bind fun a => (done (.ok (g a)) : Probe ε β)).run m = .ok r) :
    ∃ a, p.run m = .ok a ∧ g a = r := by
  rw [run_bind] at h
  cases hrun : p.run m with
  | error e =>
    rw [hrun] at h
    cases h
  | ok a =>
    rw [hrun] at h
    exact ⟨a, rfl, Except.ok.inj h⟩

/-- A probe that is safe stays inside. -/
theorem Safely.inside (h : p.Safely size m Q) : p.Inside size m := by
  induction p with
  | done result => trivial
  | look off n next ih => exact ⟨h.1, ih _ h.2⟩

/-- A sequence is safe if both of its parts are. -/
theorem Safely.bind (hp : p.Safely size m Q) (hf : ∀ a, Q a → (f a).Safely size m R) :
    (p.bind f).Safely size m R := by
  induction p with
  | done result =>
    cases result with
    | ok a => exact hf a hp
    | error e => trivial
  | look off n next ih => exact ⟨hp.1, ih _ hp.2⟩

/-- What stays inside stays inside of more. -/
theorem Inside.mono {size' : ℕ} (h : p.Inside size m) (hle : size ≤ size') : p.Inside size' m := by
  induction p with
  | done result => trivial
  | look off n next ih => exact ⟨h.1.trans hle, ih _ h.2⟩

/-- A sequence stays inside if both of its parts do. -/
theorem inside_bind : (p.bind f).Inside size m ↔
    p.Inside size m ∧ ∀ a, p.run m = .ok a → (f a).Inside size m := by
  induction p with
  | done result =>
    cases result with
    | ok a =>
      constructor
      · intro h
        refine ⟨trivial, ?_⟩
        rintro _ ⟨⟩
        exact h
      · rintro ⟨_, h⟩
        exact h a rfl
    | error e =>
      refine iff_of_true trivial ⟨trivial, ?_⟩
      rintro _ ⟨⟩
  | look off n next ih =>
    rw [bind_look, Inside, Inside, ih, run, and_assoc]

/-- **A probe depends on what it looks at only.** -/
theorem run_congr (h : ∀ i < size, m i = m' i) (hin : p.Inside size m) :
    p.run m = p.run m' ∧ p.Inside size m' := by
  induction p with
  | done result => exact ⟨rfl, trivial⟩
  | look off n next ih =>
    have hread := Memory.read_congr h hin.1
    obtain ⟨hrun, hinside⟩ := ih _ hin.2
    simp only [run, Inside, ← hread]
    exact ⟨hrun, hin.1, hinside⟩

/-- A look at the first bytes does not split the last cell. -/
theorem splits_look_inside {off n : ℕ} {next : Bytes → Probe ε α} (hin : off + n ≤ size) :
    (look off n next).Splits w size m ↔ (next (m.read off n)).Splits w size m := by
  rw [Splits, if_pos hin]

/-- A look behind the first bytes splits the last cell if these end in the cell that is looked
at. -/
theorem splits_look_behind {off n : ℕ} {next : Bytes → Probe ε α} (hout : ¬off + n ≤ size) :
    (look off n next).Splits w size m ↔ w * (off / w) < size ∧ size < w * (off / w) + w := by
  rw [Splits, if_neg hout]

/-- Where it first looks behind the first bytes depends on them only, too. -/
theorem splits_congr (h : ∀ i < size, m i = m' i) (hsplits : p.Splits w size m) :
    p.Splits w size m' := by
  induction p with
  | done result => exact hsplits
  | look off n next ih =>
    by_cases hin : off + n ≤ size
    · rw [splits_look_inside hin] at hsplits ⊢
      rw [← Memory.read_congr h hin]
      exact ih _ hsplits
    · rwa [splits_look_behind hin] at hsplits ⊢

/-- Where the first of two probes splits the last cell, the sequence does. -/
theorem Splits.bind (h : p.Splits w size m) (f : α → Probe ε β) : (p.bind f).Splits w size m := by
  induction p with
  | done result => cases h
  | look off n next ih =>
    rw [bind_look]
    by_cases hin : off + n ≤ size
    · rw [splits_look_inside hin] at h ⊢
      exact ih _ h
    · rwa [splits_look_behind hin] at h ⊢

/-- Where the first stays inside, the second may split it. -/
theorem splits_bind {a : α} (hin : p.Inside size m) (hrun : p.run m = .ok a)
    (h : (f a).Splits w size m) : (p.bind f).Splits w size m := by
  induction p with
  | done result =>
    obtain rfl : result = .ok a := hrun
    exact h
  | look off n next ih =>
    rw [bind_look, splits_look_inside hin.1]
    exact ih _ hin.2 hrun

/-- The first bytes do not end in a cell if they are whole cells. -/
theorem not_splits (hcells : w ∣ size) : ¬p.Splits w size m := by
  induction p with
  | done result => exact id
  | look off n next ih =>
    by_cases hin : off + n ≤ size
    · rw [splits_look_inside hin]
      exact ih _
    · rw [splits_look_behind hin]
      rintro ⟨hlow, hhigh⟩
      obtain ⟨k, rfl⟩ := hcells
      have hlt : off / w < k := Nat.lt_of_mul_lt_mul_left hlow
      have hle := Nat.mul_le_mul_left w hlt
      rw [Nat.mul_succ] at hle
      omega

/-- A failing probe makes every sequence fail that it begins. -/
theorem Fails.bind (h : p.Fails) (f : α → Probe ε β) : (p.bind f).Fails := by
  intro m
  obtain ⟨e, he⟩ := h m
  exact ⟨e, by rw [run_bind, he]⟩

/-- A probe that always fails makes every sequence fail that it ends. -/
theorem fails_bind (p : Probe ε α) (h : ∀ a, (f a).Fails) : (p.bind f).Fails := by
  intro m
  rw [run_bind]
  cases p.run m with
  | error e => exact ⟨e, rfl⟩
  | ok a => exact h a m

/-- A sequence of guarded probes is guarded. -/
theorem Guarded.bind (hp : p.Guarded w size Q) (hf : ∀ a, Q a → (f a).Guarded w size R) :
    (p.bind f).Guarded w size R := by
  induction p with
  | done result =>
    cases result with
    | ok a => exact hf a hp
    | error e => trivial
  | look off n next ih =>
    obtain ⟨hcell, hguard, hnext⟩ := hp
    refine ⟨hcell, ?_, fun b => ih b (hnext b)⟩
    intro hout
    obtain ⟨b, hb, hfails⟩ := hguard hout
    exact ⟨b, hb, hfails.bind f⟩

/-- A sequence of a guarded probe and a telling one is telling. -/
theorem Guarded.bind_telling (hp : p.Guarded w size Q) (hf : ∀ a, Q a → (f a).Telling w size) :
    (p.bind f).Telling w size := by
  induction p with
  | done result =>
    cases result with
    | ok a => exact hf a hp
    | error e => trivial
  | look off n next ih =>
    obtain ⟨hcell, hguard, hnext⟩ := hp
    refine ⟨hcell, ?_, fun b => ih b (hnext b)⟩
    intro hout _ _
    obtain ⟨b, hb, hfails⟩ := hguard hout
    refine ⟨b, hb, ?_⟩
    intro m m' r _ hok
    obtain ⟨e, he⟩ := hfails.bind f m'
    rw [he] at hok
    cases hok

/-- A telling probe remains one when its result is put into something else. -/
theorem Telling.map {g : α → β} (hp : p.Telling w size) (hg : Function.Injective g) :
    (p.bind fun a => (done (.ok (g a)) : Probe ε β)).Telling w size := by
  induction p with
  | done result => cases result <;> trivial
  | look off n next ih =>
    obtain ⟨hcell, htell, hnext⟩ := hp
    refine ⟨hcell, ?_, fun b => ih b (hnext b)⟩
    intro hout b hb
    obtain ⟨b', hb', hother⟩ := htell hout b hb
    refine ⟨b', hb', ?_⟩
    intro m m' r hok hok'
    obtain ⟨a, hrun, rfl⟩ := exists_of_run_map hok
    obtain ⟨a', hrun', hsame⟩ := exists_of_run_map hok'
    obtain rfl := hg hsame
    exact hother m m' a' hrun hrun'

/-- A probe that does not look behind the first bytes itself is promising with the next one. -/
theorem Promising.after (hp : p.Promising size fun _ => False)
    (hf : ∀ a, (f a).Promising size R) : (p.bind f).Promising size R := by
  induction p with
  | done result =>
    cases result with
    | ok a => exact hf a
    | error e => trivial
  | look off n next ih =>
    refine ⟨?_, fun b => ih b (hp.2 b)⟩
    intro hout
    obtain ⟨b, _, hb⟩ := hp.1 hout
    obtain ⟨_, _, _, _, hfalse⟩ := hb fun _ => 0
    exact hfalse.elim

/-- A sequence is promising if its second part returns on what the first one promises. -/
theorem Promising.bind (hp : p.Promising size P)
    (hP : ∀ a, P a → ∀ m, ∃ r, (f a).run m = .ok r ∧ R r) (hf : ∀ a, (f a).Promising size R) :
    (p.bind f).Promising size R := by
  induction p with
  | done result =>
    cases result with
    | ok a => exact hf a
    | error e => trivial
  | look off n next ih =>
    refine ⟨?_, fun b => ih b (hp.2 b)⟩
    intro hout
    obtain ⟨b, hb, hgood⟩ := hp.1 hout
    refine ⟨b, hb, ?_⟩
    intro m
    obtain ⟨m', hagree, a, hrun, ha⟩ := hgood m
    obtain ⟨r, hr, hR⟩ := hP a ha m'
    exact ⟨m', hagree, r, by rw [run_bind_of_ok hrun, hr], hR⟩

/-- A look that does not split the last cell, and is not inside, is behind it. -/
theorem le_of_not_split {off n : ℕ} (hcell : off % w + n ≤ w) (hout : ¬off + n ≤ size)
    (hsplit : ¬(w * (off / w) < size ∧ size < w * (off / w) + w)) : size ≤ off := by
  have hdiv := Nat.div_add_mod off w
  omega

/-- Where a promising probe first looks behind the first bytes, others there let it return. -/
theorem Promising.exists_ok (ht : p.Telling w size) (hp : p.Promising size P)
    (hsplit : ¬p.Splits w size m) (hout : ¬p.Inside size m) :
    ∃ m' : Memory, (∀ i < size, m' i = m i) ∧ ∃ r, p.run m' = .ok r := by
  induction p with
  | done result => exact absurd trivial hout
  | look off n next ih =>
    obtain ⟨hcell, _, hnext⟩ := ht
    by_cases hin : off + n ≤ size
    · rw [splits_look_inside hin] at hsplit
      have hrest : ¬(next (m.read off n)).Inside size m := fun h => hout ⟨hin, h⟩
      obtain ⟨m', hagree, r, hr⟩ := ih _ (hnext _) (hp.2 _) hsplit hrest
      refine ⟨m', hagree, r, ?_⟩
      rw [run, Memory.read_congr hagree hin, hr]
    · rw [splits_look_behind hin] at hsplit
      have hbehind := le_of_not_split hcell hin hsplit
      obtain ⟨b, hb, hgood⟩ := hp.1 (not_le.mp hin)
      obtain ⟨m', hagree, r, hr, _⟩ := hgood (m.overwrite off b)
      have hread := Memory.read_overwrite m off b
      rw [hb] at hread
      refine ⟨m', ?_, r, ?_⟩
      · intro i hi
        rw [hagree i (by omega), Memory.overwrite_below (by omega)]
      · rw [run, Memory.read_congr hagree le_rfl, hread, hr]

/-- Where a telling probe that returns looks behind the first bytes, it would return something
else, or nothing, with others there. -/
theorem Telling.exists_other {r : α} (ht : p.Telling w size) (hsplit : ¬p.Splits w size m)
    (hok : p.run m = .ok r) (hout : ¬p.Inside size m) :
    ∃ m' : Memory, (∀ i < size, m' i = m i) ∧ p.run m' ≠ .ok r := by
  induction p with
  | done result => exact absurd trivial hout
  | look off n next ih =>
    obtain ⟨hcell, htell, hnext⟩ := ht
    by_cases hin : off + n ≤ size
    · rw [splits_look_inside hin] at hsplit
      have hrest : ¬(next (m.read off n)).Inside size m := fun h => hout ⟨hin, h⟩
      obtain ⟨m', hagree, hother⟩ := ih _ (hnext _) hsplit hok hrest
      refine ⟨m', hagree, ?_⟩
      rw [run, Memory.read_congr hagree hin]
      exact hother
    · rw [splits_look_behind hin] at hsplit
      have hbehind := le_of_not_split hcell hin hsplit
      obtain ⟨b, hb, hother⟩ := htell (by omega) (m.read off n) (Memory.length_read m off n)
      have hread := Memory.read_overwrite m off b
      rw [hb] at hread
      refine ⟨m.overwrite off b, fun i hi => Memory.overwrite_below (by omega), ?_⟩
      rw [run, hread]
      exact hother m _ r hok

/-- A probe that stays within a buffer does so whatever is behind it. -/
theorem within_iff (behind : Memory) :
    p.Within v ↔ p.Inside v.length (.holding v behind) := by
  constructor
  · intro h
    exact (run_congr (Memory.holding_agree _ _) h).2
  · intro h
    exact (run_congr (Memory.holding_agree _ _) h).2

/-- A probe that stays within the buffer depends on it only. -/
theorem Within.dependsOn (h : p.Within v) : p.DependsOn v := by
  intro behind behind'
  have hagree := Memory.holding_agree (v := v) behind behind'
  rw [(run_congr hagree ((within_iff behind).mp h)).1]

/-- A probe that fails whatever is behind the buffer depends on the buffer only. -/
theorem dependsOn_of_fails (h : ∀ behind, ∃ e, p.run (.holding v behind) = .error e) :
    p.DependsOn v := by
  intro behind behind'
  obtain ⟨e, he⟩ := h behind
  obtain ⟨e', he'⟩ := h behind'
  rw [he, he']
  rfl

/-- **A telling and promising probe that looks behind bytes, among them the buffer, after
another one that does not, gives a sequence that depends on more than the buffer.** -/
theorem not_dependsOn_bind {a : α} {P : β → Prop} (hle : v.length ≤ size)
    (hin : p.Inside size (.holding v fun _ => 0)) (hrun : p.run (.holding v fun _ => 0) = .ok a)
    (ht : (f a).Telling w size) (hp : (f a).Promising size P)
    (hsplit : ¬(f a).Splits w size (.holding v fun _ => 0))
    (hout : ¬(f a).Inside size (.holding v fun _ => 0)) : ¬(p.bind f).DependsOn v := by
  intro hdep
  have hfirst (m : Memory) (hagree : ∀ i < size, m i = Memory.holding v (fun _ => 0) i) :
      (p.bind f).run (.holding v m) = (f a).run m := by
    rw [Memory.holding_of_agree fun i hi => hagree i (by omega)]
    apply run_bind_of_ok
    rw [← hrun]
    exact (run_congr (fun i hi => (hagree i hi).symm) hin).1.symm
  obtain ⟨m, hagree, r, hok⟩ := hp.exists_ok ht hsplit hout
  have hsame : ∀ i < size, m i = Memory.holding v (fun _ => 0) i := hagree
  have hsplit' : ¬(f a).Splits w size m := fun h => hsplit (splits_congr hsame h)
  have hout' : ¬(f a).Inside size m := fun h => hout (run_congr hsame h).2
  obtain ⟨m', hagree', hother⟩ := ht.exists_other hsplit' hok hout'
  have hequal := hdep m m'
  rw [hfirst m hagree, hfirst m' fun i hi => (hagree' i hi).trans (hagree i hi), hok] at hequal
  cases hrun' : (f a).run m' with
  | error e =>
    rw [hrun'] at hequal
    cases hequal
  | ok r' =>
    rw [hrun'] at hequal
    obtain rfl : r = r' := Option.some.inj hequal
    exact hother hrun'

/-- After a probe that stays within the buffer, there is no other way to depend on it only. -/
theorem dependsOn_bind_iff {P : β → Prop} (hin : p.Within v) (ht : ∀ a, (f a).Telling w v.length)
    (hp : ∀ a, (f a).Promising v.length P)
    (hsplit : ¬(p.bind f).Splits w v.length (.holding v fun _ => 0)) :
    (p.bind f).DependsOn v ↔ (p.bind f).Within v := by
  refine ⟨?_, Within.dependsOn⟩
  intro hdep
  by_contra hout
  rw [Within, inside_bind, not_and] at hout
  apply hout hin
  intro a hrun
  by_contra hout'
  exact not_dependsOn_bind le_rfl hin hrun (ht a) (hp a) (fun h => hsplit (splits_bind hin hrun h))
    hout' hdep

end Probe

end Pmemcpy.Lib
