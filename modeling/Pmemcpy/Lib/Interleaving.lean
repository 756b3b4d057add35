import Pmemcpy.Lib.Run
import Mathlib.Logic.Function.Basic

/-!
# Programs that take turns

A program makes one atomic action on a shared state at a time. Several programs run
one action at a time in any order. Where every program stays in a part of the state of
its own, it does not notice the others: whatever the order, it returns what it returns
alone, and leaves its part as it leaves it alone.
-/

namespace Pmemcpy.Lib

/-- A program: an action changes the state, and the program goes on by the state it found. -/
inductive Program (σ α : Type*) where
  | done (result : α)
  | act (effect : σ → σ) (next : σ → Program σ α)

namespace Program

variable {σ α β κ : Type*}

/-- A call: one action with a result. -/
def call (f : σ → α × σ) : Program σ α := act (fun s => (f s).2) fun s => done (f s).1

/-- One program after another. -/
def bind : Program σ α → (α → Program σ β) → Program σ β
  | done result, f => f result
  | act effect next, f => act effect fun s => (next s).bind f

/-- A program alone. -/
def run : Program σ α → σ → α × σ
  | done result, s => (result, s)
  | act effect next, s => (next s).run (effect s)

/-- A program that is over returns its result and changes nothing. -/
@[simp] theorem run_done (result : α) (s : σ) : (done result : Program σ α).run s = (result, s) :=
  rfl

/-- A call alone does what its function does. -/
@[simp] theorem run_call (f : σ → α × σ) (s : σ) : (call f).run s = f s := rfl

/-- A program after another starts with what this one returns and leaves. -/
@[simp] theorem run_bind (p : Program σ α) (f : α → Program σ β) (s : σ) :
    (p.bind f).run s = (f (p.run s).1).run (p.run s).2 := by
  induction p generalizing s with
  | done result => rfl
  | act effect next ih => exact ih s (effect s)

/-- Programs one after another can be grouped in any way. -/
theorem bind_assoc {γ : Type*} (p : Program σ α) (f : α → Program σ β) (g : β → Program σ γ) :
    (p.bind f).bind g = p.bind fun a => (f a).bind g := by
  induction p with
  | done result => rfl
  | act effect next ih => exact congrArg (act effect) (funext ih)

/-- The program stays in part `k` of the state: what it does there, and how it goes on, depends on
this part only, and it leaves the others alone. -/
def StaysIn {V : κ → Type*} (part : ∀ k, σ → V k) (k : κ) : Program σ α → Prop
  | done _ => True
  | act effect next =>
      (∀ s t, part k s = part k t → part k (effect s) = part k (effect t) ∧ next s = next t) ∧
        (∀ s j, j ≠ k → part j (effect s) = part j s) ∧ ∀ s, StaysIn part k (next s)

/-- Whatever state it finds at each action, the result of the program is one of these. -/
def Returns (P : α → Prop) : Program σ α → Prop
  | done result => P result
  | act _ next => ∀ s, (next s).Returns P

/-- A call returns what its action returns. -/
theorem returns_call {f : σ → α × σ} {P : α → Prop} (h : ∀ s, P (f s).1) : (call f).Returns P := h

/-- The results of a program after another are those that it has after the results of this one. -/
theorem Returns.bind {p : Program σ α} {f : α → Program σ β} {P : α → Prop} {Q : β → Prop}
    (hp : p.Returns P) (hf : ∀ a, P a → (f a).Returns Q) : (p.bind f).Returns Q := by
  induction p with
  | done result => exact hf result hp
  | act effect next ih => exact fun s => ih s (hp s)

section StaysIn

variable {V : κ → Type*} {part : ∀ k, σ → V k} {k : κ} {p : Program σ α}
  {f : α → Program σ β} {s t : σ}

/-- One program after another stays in a part if both do, the second one after every result that the
first one can have. -/
theorem StaysIn.bind_returns {P : α → Prop} (hp : p.StaysIn part k) (hresult : p.Returns P)
    (hf : ∀ a, P a → (f a).StaysIn part k) : (p.bind f).StaysIn part k := by
  induction p with
  | done result => exact hf result hresult
  | act effect next ih =>
    obtain ⟨hown, hother, hnext⟩ := hp
    refine ⟨?_, hother, fun s => ih s (hnext s) (hresult s)⟩
    intro s t hst
    obtain ⟨heffect, heq⟩ := hown s t hst
    exact ⟨heffect, congrArg (fun q => q.bind f) heq⟩

/-- Every program has some result or other. -/
theorem returns_true (p : Program σ α) : p.Returns fun _ => True := by
  induction p with
  | done result => trivial
  | act effect next ih => exact ih

/-- One program after another stays in a part if both do. -/
theorem StaysIn.bind (hp : p.StaysIn part k) (hf : ∀ a, (f a).StaysIn part k) :
    (p.bind f).StaysIn part k :=
  hp.bind_returns p.returns_true fun a _ => hf a

/-- What a program that stays in a part returns and leaves there depends on this part only. -/
theorem StaysIn.run_congr (hp : p.StaysIn part k) (hst : part k s = part k t) :
    (p.run s).1 = (p.run t).1 ∧ part k (p.run s).2 = part k (p.run t).2 := by
  induction p generalizing s t with
  | done result => exact ⟨rfl, hst⟩
  | act effect next ih =>
    obtain ⟨hown, _, hnext⟩ := hp
    obtain ⟨heffect, heq⟩ := hown s t hst
    have h := ih s (hnext s) heffect
    rw [run, run, ← heq]
    exact h

end StaysIn

/-- From a state on, the program only looks at what is seen of it: its actions keep that, and how it
goes on depends on nothing else. -/
def Looks {τ : Type*} (view : σ → τ) : Program σ α → σ → Prop
  | done _, _ => True
  | act effect next, s =>
      (∀ t, view t = view s → view (effect t) = view s ∧ next t = next s) ∧
        (next s).Looks view (effect s)

section Looks

variable {τ : Type*} {view : σ → τ} {p : Program σ α} {f : α → Program σ β} {s t : σ}

/-- A program that only looks returns the same in a state that looks the same. -/
theorem Looks.congr (h : p.Looks view s) (hst : view t = view s) :
    p.Looks view t ∧ (p.run t).1 = (p.run s).1 ∧ view (p.run t).2 = view s := by
  induction p generalizing s t with
  | done result => exact ⟨trivial, rfl, hst⟩
  | act effect next ih =>
    obtain ⟨hown, hnext⟩ := h
    obtain ⟨hkept, hsame⟩ := hown t hst
    have hself := (hown s rfl).1
    obtain ⟨hlooks, hresult, hview⟩ := ih s hnext (hkept.trans hself.symm)
    rw [run, run, hsame]
    refine ⟨⟨?_, by rwa [hsame]⟩, hresult, hview.trans hself⟩
    intro u hu
    obtain ⟨hkept', hsame'⟩ := hown u (hu.trans hst)
    exact ⟨hkept'.trans hst.symm, hsame'.trans hsame.symm⟩

/-- One program after another only looks if both do. -/
theorem Looks.bind (hp : p.Looks view s) (hf : (f (p.run s).1).Looks view s) :
    (p.bind f).Looks view s := by
  induction p generalizing s with
  | done result => exact hf
  | act effect next ih =>
    obtain ⟨hown, hnext⟩ := hp
    refine ⟨?_, ih s hnext (hf.congr (hown s rfl).1).1⟩
    intro t ht
    obtain ⟨hkept, hsame⟩ := hown t ht
    exact ⟨hkept, congrArg (fun q => q.bind f) hsame⟩

end Looks

end Program

/-- A shared state, and the programs that are still to run. -/
structure Threads (κ σ α : Type*) where
  state : σ
  programs : κ → Program σ α

section Turns

variable {κ σ α : Type*} [DecidableEq κ] {V : κ → Type*} {part : ∀ k, σ → V k}
  {start mid finish : Threads κ σ α} {k : κ}

/-- A turn of program `k`: one action. -/
def TakesTurn (before : Threads κ σ α) (k : κ) (after : Threads κ σ α) : Prop :=
  ∃ effect next, before.programs k = .act effect next ∧
    after = ⟨effect before.state, Function.update before.programs k (next before.state)⟩

/-- A turn, if the program has not stopped. -/
def Threads.turn (before : Threads κ σ α) (k : κ) : Option (Threads κ σ α) :=
  match before.programs k with
  | .done _ => none
  | .act effect next =>
    some ⟨effect before.state, Function.update before.programs k (next before.state)⟩

/-- A turn can be taken exactly if it can be computed. -/
theorem Threads.takesTurn_iff {before after : Threads κ σ α} :
    TakesTurn before k after ↔ before.turn k = some after := by
  unfold TakesTurn turn
  cases before.programs k with
  | done result => simp
  | act effect next => simp [eq_comm]

/-- Turns that can be taken are a run. -/
theorem Threads.run_turns {order : List κ} (h : order.foldlM Threads.turn start = some finish) :
    Run TakesTurn start order finish := by
  induction order generalizing start with
  | nil =>
    obtain rfl : start = finish := Option.some.inj h
    exact Run.nil
  | cons k order ih =>
    rw [List.foldlM_cons] at h
    obtain ⟨mid, hturn, hrest⟩ := Option.bind_eq_some_iff.mp h
    exact Run.cons (takesTurn_iff.mpr hturn) (ih hrest)

/-- A program can take all its turns at once. -/
theorem Threads.exists_alone (start : Threads κ σ α) (k : κ) :
    ∃ order finish result, Run TakesTurn start order finish ∧ finish.programs k = .done result ∧
      ∀ j, j ≠ k → finish.programs j = start.programs j := by
  generalize hprogram : start.programs k = p
  induction p generalizing start with
  | done result => exact ⟨[], start, result, Run.nil, hprogram, fun _ _ => rfl⟩
  | act effect next ih =>
    let mid : Threads κ σ α :=
      ⟨effect start.state, Function.update start.programs k (next start.state)⟩
    have hturn : TakesTurn start k mid := ⟨effect, next, hprogram, rfl⟩
    have hnext : mid.programs k = next start.state := Function.update_self ..
    obtain ⟨order, finish, result, hrun, hdone, hothers⟩ := ih start.state mid hnext
    refine ⟨k :: order, finish, result, Run.cons hturn hrun, hdone, ?_⟩
    intro j hj
    exact (hothers j hj).trans (Function.update_of_ne hj ..)

/-- Any number of programs can come to their ends. -/
theorem Threads.exists_finish (start : Threads κ σ α) (ks : List κ) :
    ∃ order finish, Run TakesTurn start order finish ∧
      ∀ k ∈ ks, ∃ result, finish.programs k = .done result := by
  induction ks with
  | nil => exact ⟨[], start, Run.nil, by simp⟩
  | cons k ks ih =>
    obtain ⟨order, mid, hrun, hdone⟩ := ih
    obtain ⟨order', finish, result, hrun', hresult, hothers⟩ := mid.exists_alone k
    refine ⟨order ++ order', finish, hrun.append hrun', ?_⟩
    intro j hj
    by_cases heq : j = k
    · exact ⟨result, by rw [heq, hresult]⟩
    · obtain ⟨result', hresult'⟩ := hdone j ((List.mem_cons.mp hj).resolve_left heq)
      exact ⟨result', (hothers j heq).trans hresult'⟩

/-- Every program has in front of it what it had at the start, when it is looked at alone. -/
structure Unnoticed (part : ∀ k, σ → V k) (start now : Threads κ σ α) : Prop where
  stays : ∀ k, (now.programs k).StaysIn part k
  result : ∀ k, ((now.programs k).run now.state).1 = ((start.programs k).run start.state).1
  part : ∀ k, part k ((now.programs k).run now.state).2 =
    part k ((start.programs k).run start.state).2

/-- A turn of one program is not noticed by the others. -/
theorem Unnoticed.turn (h : Unnoticed part start mid) (hturn : TakesTurn mid k finish) :
    Unnoticed part start finish := by
  obtain ⟨effect, next, hprogram, rfl⟩ := hturn
  have hk := h.stays k
  rw [hprogram] at hk
  obtain ⟨_, hother, hnext⟩ := hk
  have hown : (next mid.state).run (effect mid.state) = (mid.programs k).run mid.state := by
    rw [hprogram]
    rfl
  have hrest (j : κ) (hj : j ≠ k) : part j (effect mid.state) = part j mid.state :=
    hother mid.state j hj
  refine ⟨?_, ?_, ?_⟩
  · intro j
    by_cases hj : j = k
    · subst hj
      simpa using hnext mid.state
    · simpa [Function.update_of_ne hj] using h.stays j
  · intro j
    by_cases hj : j = k
    · subst hj
      simpa [hown] using h.result j
    · have hsame := ((h.stays j).run_congr (hrest j hj)).1
      simpa [Function.update_of_ne hj, hsame] using h.result j
  · intro j
    by_cases hj : j = k
    · subst hj
      simpa [hown] using h.part j
    · have hsame := ((h.stays j).run_congr (hrest j hj)).2
      simpa [Function.update_of_ne hj, hsame] using h.part j

/-- **Programs that stay in separate parts do not notice each other**: in every order of their
turns, one that has finished has returned what it returns alone, and left its part so. -/
theorem separate_programs {order : List κ} {result : α}
    (hstays : ∀ k, (start.programs k).StaysIn part k) (hrun : Run TakesTurn start order finish)
    (hdone : finish.programs k = .done result) :
    result = ((start.programs k).run start.state).1 ∧
      part k finish.state = part k ((start.programs k).run start.state).2 := by
  have hstart : Unnoticed part start start := ⟨hstays, fun _ => rfl, fun _ => rfl⟩
  have h := hrun.invariant hstart fun _ _ _ h hturn => h.turn hturn
  have hresult := h.result k
  have hpart := h.part k
  rw [hdone] at hresult hpart
  exact ⟨hresult, hpart⟩

/-- **Programs that only look do not notice each other**: in every order of their turns nothing that
is seen changes, and one that has finished has returned what it returns alone. -/
theorem looking_programs {τ : Type*} {view : σ → τ} {order : List κ}
    (hlooks : ∀ k, (start.programs k).Looks view start.state)
    (hrun : Run TakesTurn start order finish) :
    view finish.state = view start.state ∧ ∀ k result, finish.programs k = .done result →
      result = ((start.programs k).run start.state).1 := by
  let Inv (now : Threads κ σ α) : Prop := view now.state = view start.state ∧ ∀ k,
    (now.programs k).Looks view now.state ∧
      ((now.programs k).run now.state).1 = ((start.programs k).run start.state).1
  have hinv : Inv finish := by
    refine hrun.invariant ⟨rfl, fun k => ⟨hlooks k, rfl⟩⟩ ?_
    rintro before k after ⟨hview, hprograms⟩ ⟨effect, next, hprogram, rfl⟩
    have hk := hprograms k
    rw [hprogram] at hk
    obtain ⟨⟨hown, hnext⟩, hresult⟩ := hk
    have hkept := (hown before.state rfl).1
    refine ⟨hkept.trans hview, ?_⟩
    intro j
    by_cases hj : j = k
    · subst hj
      dsimp only
      rw [Function.update_self]
      exact ⟨hnext, hresult⟩
    · dsimp only
      rw [Function.update_of_ne hj]
      obtain ⟨hlooks', hresult', _⟩ := (hprograms j).1.congr hkept
      exact ⟨hlooks', hresult'.trans (hprograms j).2⟩
  refine ⟨hinv.1, ?_⟩
  intro k result hdone
  have hresult := (hinv.2 k).2
  rwa [hdone] at hresult

end Turns

end Pmemcpy.Lib
