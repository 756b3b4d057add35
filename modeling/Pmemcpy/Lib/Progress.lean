import Pmemcpy.Lib.Interleaving

/-!
# Programs that have come some way

What a program alone leads to in its part of the state holds from the moment on at which
it has taken all its actions, however other programs take turns with it, as long as what
follows it keeps that. A program on one state is one on any state that has the first in it.
-/

namespace Pmemcpy.Lib

namespace Program

variable {σ τ α β κ : Type*}

/-- The number of actions that a program takes alone. -/
def steps : Program σ α → σ → ℕ
  | done _, _ => 0
  | act effect next, s => (next s).steps (effect s) + 1

/-- Every action of the program keeps this. -/
def Preserves (I : σ → Prop) : Program σ α → Prop
  | done _ => True
  | act effect next => (∀ s, I s → I (effect s)) ∧ ∀ s, (next s).Preserves I

section Preserves

variable {I : σ → Prop} {p : Program σ α} {f : α → Program σ β} {s : σ}

/-- A call keeps what its function keeps. -/
theorem preserves_call {f : σ → α × σ} (h : ∀ s, I s → I (f s).2) : (call f).Preserves I :=
  ⟨h, fun _ => trivial⟩

/-- One program after another keeps what both keep, the second one after every result that the first
one can have. -/
theorem Preserves.bind_returns {P : α → Prop} (hp : p.Preserves I) (hresult : p.Returns P)
    (hf : ∀ a, P a → (f a).Preserves I) : (p.bind f).Preserves I := by
  induction p with
  | done result => exact hf result hresult
  | act effect next ih => exact ⟨hp.1, fun s => ih s (hp.2 s) (hresult s)⟩

/-- One program after another keeps what both keep. -/
theorem Preserves.bind (hp : p.Preserves I) (hf : ∀ a, (f a).Preserves I) :
    (p.bind f).Preserves I :=
  hp.bind_returns p.returns_true fun a _ => hf a

/-- What every action of a program keeps holds after the program. -/
theorem Preserves.run (hp : p.Preserves I) (hs : I s) : I (p.run s).2 := by
  induction p generalizing s with
  | done result => exact hs
  | act effect next ih => exact ih s (hp.2 s) (hp.1 s hs)

/-- A program that stays in a part keeps what holds of the others. -/
theorem StaysIn.preserves {V : κ → Type*} {part : ∀ k, σ → V k} {j k : κ} (hp : p.StaysIn part k)
    (hj : j ≠ k) (J : V j → Prop) : p.Preserves fun s => J (part j s) := by
  induction p with
  | done result => trivial
  | act effect next ih =>
    obtain ⟨_, hother, hnext⟩ := hp
    refine ⟨?_, fun s => ih s (hnext s)⟩
    intro s hs
    rwa [hother s j hj]

/-- A program that stays in a part takes as many actions wherever this part is the same. -/
theorem StaysIn.steps_congr {V : κ → Type*} {part : ∀ k, σ → V k} {k : κ} {t : σ}
    (hp : p.StaysIn part k) (hst : part k s = part k t) : p.steps s = p.steps t := by
  induction p generalizing s t with
  | done result => rfl
  | act effect next ih =>
    obtain ⟨hown, _, hnext⟩ := hp
    obtain ⟨heffect, heq⟩ := hown s t hst
    rw [steps, steps, ← heq, ih s (hnext s) heffect]

end Preserves

/-! ### A state within another one -/

/-- The program on a state that has the one of the program in it, where `after` carries its actions
out. -/
def lift (view : τ → σ) (after : (σ → σ) → τ → τ) : Program σ α → Program τ α
  | done result => done result
  | act effect next => act (after effect) fun t => (next (view t)).lift view after

section Lift

variable {view : τ → σ} {after : (σ → σ) → τ → τ} {p : Program σ α}

/-- A program that is carried out in a larger state does there what it does alone. -/
theorem run_lift (hview : ∀ effect t, view (after effect t) = effect (view t)) (t : τ) :
    ((p.lift view after).run t).1 = (p.run (view t)).1 ∧
      view ((p.lift view after).run t).2 = (p.run (view t)).2 := by
  induction p generalizing t with
  | done result => exact ⟨rfl, rfl⟩
  | act effect next ih =>
    have h := ih (view t) (after effect t)
    rw [hview] at h
    exact h

/-- A program that is carried out in a larger state has the same results. -/
theorem Returns.lift {P : α → Prop} (h : p.Returns P) : (p.lift view after).Returns P := by
  induction p with
  | done result => exact h
  | act effect next ih => exact fun t => ih (view t) (h (view t))

/-- A program that is carried out in a larger state keeps what its actions keep when they are
carried out there. -/
theorem Preserves.lift {I : σ → Prop} {J : τ → Prop} (hp : p.Preserves I)
    (h : ∀ effect, (∀ s, I s → I (effect s)) → ∀ t, J t → J (after effect t)) :
    (p.lift view after).Preserves J := by
  induction p with
  | done result => trivial
  | act effect next ih =>
    exact ⟨h effect hp.1, fun t => ih (view t) (hp.2 (view t))⟩

/-- A program that is carried out in a larger state stays in what goes with its part. -/
theorem StaysIn.lift {V W : κ → Type*} {part : ∀ k, σ → V k} {wide : ∀ k, τ → W k} {k : κ}
    (hp : p.StaysIn part k)
    (hpart : ∀ t u, wide k t = wide k u → part k (view t) = part k (view u))
    (hown : ∀ effect, (∀ s s', part k s = part k s' → part k (effect s) = part k (effect s')) →
      ∀ t u, wide k t = wide k u → wide k (after effect t) = wide k (after effect u))
    (hother : ∀ effect j, (∀ s, part j (effect s) = part j s) →
      ∀ t, wide j (after effect t) = wide j t) :
    (p.lift view after).StaysIn wide k := by
  induction p with
  | done result => trivial
  | act effect next ih =>
    obtain ⟨hsame, hrest, hnext⟩ := hp
    refine ⟨?_, ?_, fun t => ih (view t) (hnext (view t))⟩
    · intro t u htu
      refine ⟨hown effect (fun s s' h => (hsame s s' h).1) t u htu, ?_⟩
      exact congrArg (fun q => Program.lift view after q) (hsame _ _ (hpart t u htu)).2
    · intro t j hj
      exact hother effect j (fun s => hrest s j hj) t

end Lift

end Program

section Turns

open Program

variable {κ σ α β : Type*} [DecidableEq κ] {V : κ → Type*} {part : ∀ k, σ → V k}
  {start finish : Threads κ σ α} {order : List κ} {k : κ}

/-- What every program keeps holds in every state of a run. -/
theorem Threads.preserved {I : σ → Prop} (hprograms : ∀ j, (start.programs j).Preserves I)
    (hstart : I start.state) (hrun : Run TakesTurn start order finish) : I finish.state := by
  let Inv (now : Threads κ σ α) : Prop := I now.state ∧ ∀ j, (now.programs j).Preserves I
  have hinv : Inv finish := by
    refine hrun.invariant ⟨hstart, hprograms⟩ ?_
    rintro before j after ⟨hstate, hall⟩ ⟨effect, next, hprogram, rfl⟩
    have hj := hall j
    rw [hprogram] at hj
    refine ⟨hj.1 _ hstate, ?_⟩
    intro i
    by_cases hi : i = j
    · subst hi
      simpa using hj.2 before.state
    · simpa [Function.update_of_ne hi] using hall i
  exact hinv.1

/-- **What a program leads to lasts.** In every order of turns in which program `k` has come as far
as `p` takes it alone, what `p` alone leads to in its part holds, if what follows `p` keeps it. -/
theorem Threads.after_steps {I : V k → Prop} {p : Program σ β} {next : β → Program σ α}
    (hk : start.programs k = p.bind next) (hp : p.StaysIn part k)
    (hothers : ∀ j, j ≠ k → (start.programs j).StaysIn part j)
    (hI : I (part k (p.run start.state).2))
    (hnext : (next (p.run start.state).1).Preserves fun s => I (part k s))
    (hrun : Run TakesTurn start order finish) (hsteps : p.steps start.state ≤ order.count k) :
    I (part k finish.state) := by
  induction order generalizing start p with
  | nil =>
    obtain rfl := hrun.nil_inv
    cases p with
    | done result => exact hI
    | act effect rest => simp [steps] at hsteps
  | cons j order ih =>
    cases p with
    | done result =>
      refine Threads.preserved (I := fun s => I (part k s)) ?_ hI hrun
      intro i
      by_cases hi : i = k
      · subst hi
        rw [hk]
        exact hnext
      · exact (hothers i hi).preserves (Ne.symm hi) I
    | act effect rest =>
      obtain ⟨mid, ⟨effect', next', hprogram, rfl⟩, hrest⟩ := hrun.cons_inv
      by_cases hj : j = k
      · subst hj
        rw [hk] at hprogram
        cases hprogram
        let mid : Threads κ σ α :=
          ⟨effect start.state, Function.update start.programs j ((rest start.state).bind next)⟩
        have hmid : mid.programs j = (rest start.state).bind next := Function.update_self ..
        refine ih hmid (hp.2.2 start.state) ?_ hI hnext hrest ?_
        · intro i hi
          have hkept : mid.programs i = start.programs i := Function.update_of_ne hi ..
          rw [hkept]
          exact hothers i hi
        · rw [List.count_cons_self] at hsteps
          exact Nat.le_of_succ_le_succ hsteps
      · have hown := hothers j hj
        rw [hprogram] at hown
        have hkept : part k start.state = part k (effect' start.state) :=
          (hown.2.1 start.state k (Ne.symm hj)).symm
        obtain ⟨hresult, hpart⟩ := hp.run_congr hkept
        have hsame := hp.steps_congr hkept
        let mid : Threads κ σ α :=
          ⟨effect' start.state, Function.update start.programs j (next' start.state)⟩
        have hmid : mid.programs k = (act effect rest).bind next :=
          (Function.update_of_ne (Ne.symm hj) ..).trans hk
        rw [hpart] at hI
        rw [hresult] at hnext
        rw [hsame, List.count_cons_of_ne hj] at hsteps
        refine ih hmid hp ?_ hI hnext hrest hsteps
        intro i hi
        by_cases hij : i = j
        · subst hij
          have hturned : mid.programs i = next' start.state := Function.update_self ..
          rw [hturned]
          exact hown.2.2 start.state
        · have hother : mid.programs i = start.programs i := Function.update_of_ne hij ..
          rw [hother]
          exact hothers i hi

/-- A program can take the actions that it takes alone one after the other. -/
theorem Threads.exists_steps {p : Program σ β} {next : β → Program σ α}
    (hk : start.programs k = p.bind next) :
    Run TakesTurn start (List.replicate (p.steps start.state) k)
      ⟨(p.run start.state).2,
        Function.update start.programs k (next (p.run start.state).1)⟩ := by
  induction p generalizing start with
  | done result =>
    have hsame : Function.update start.programs k (next result) = start.programs := by
      rw [← show start.programs k = next result from hk, Function.update_eq_self]
    rw [run_done, hsame]
    exact Run.nil
  | act effect rest ih =>
    let mid : Threads κ σ α :=
      ⟨effect start.state, Function.update start.programs k ((rest start.state).bind next)⟩
    have hturn : TakesTurn start k mid := ⟨effect, _, hk, rfl⟩
    have hmid : mid.programs k = (rest start.state).bind next := Function.update_self ..
    have hrest := ih start.state hmid
    rw [Function.update_idem] at hrest
    exact Run.cons hturn hrest

end Turns

end Pmemcpy.Lib
