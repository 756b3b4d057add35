import Pmemcpy.Lib.Interleaving
import Mathlib.Order.Defs.Unbundled

/-!
# Programs that look atomic

A program implements another one whose actions are larger, if it makes each of these
actions at one point, and otherwise does nothing that can be seen. It may rely on what
the others leave as it is. A system of such programs is then seen to do what the larger
ones do, in every order of turns, and each of the larger actions happens at a turn of its
own program. Where the programs are the bodies of calls, it happens within its call.
-/

namespace Pmemcpy.Lib

variable {σ τ α β κ ι : Type*}

namespace Program

section Implements

variable (Inv : σ → Prop) (rely : σ → σ → Prop) (view : σ → τ)

/-- From a state on, while the others keep the invariant and what this program relies on, it
implements the other program; and it keeps for them what they rely on. -/
def Implements : Program σ α → Program τ α → σ → Prop
  | done result, spec, _ => spec = done result
  | act effect next, spec, s => ∀ t, Inv t → rely s t →
      (Inv (effect t) ∧ rely t (effect t)) ∧
        ((view (effect t) = view t ∧ (next t).Implements spec (effect t)) ∨
          ∃ effect' next', spec = act effect' next' ∧ view (effect t) = effect' (view t) ∧
            (next t).Implements (next' (view t)) (effect t))

variable {Inv rely view} {p : Program σ α} {q : Program τ α} {s : σ}

/-- A call that changes nothing that is seen may come before a program that implements another
one. -/
theorem implements_silent {f : σ → β × σ} {next : β → Program σ α}
    (h : ∀ t, Inv t → rely s t → (Inv (f t).2 ∧ rely t (f t).2) ∧ view (f t).2 = view t ∧
      (next (f t).1).Implements Inv rely view q (f t).2) :
    ((call f).bind next).Implements Inv rely view q s := by
  intro t ht hst
  obtain ⟨hkeeps, hview, hnext⟩ := h t ht hst
  exact ⟨hkeeps, Or.inl ⟨hview, hnext⟩⟩

/-- A call that does what the other program calls, and is followed by what returns the same,
implements it. -/
theorem implements_commit {f : σ → β × σ} {next : β → Program σ α} {g : τ → α × τ}
    (h : ∀ t, Inv t → rely s t → (Inv (f t).2 ∧ rely t (f t).2) ∧
      view (f t).2 = (g (view t)).2 ∧
        (next (f t).1).Implements Inv rely view (done (g (view t)).1) (f t).2) :
    ((call f).bind next).Implements Inv rely view (call g) s := by
  intro t ht hst
  obtain ⟨hkeeps, hview, hnext⟩ := h t ht hst
  exact ⟨hkeeps, Or.inr ⟨_, _, rfl, hview, hnext⟩⟩

variable [IsPreorder σ rely]

/-- What a program implements from one state on, it implements from a later one. -/
theorem Implements.later {t : σ} (h : p.Implements Inv rely view q s) (hst : rely s t) :
    p.Implements Inv rely view q t := by
  cases p with
  | done result => exact h
  | act effect next => exact fun u hu htu => h u hu (trans_of rely hst htu)

/-- Programs one after another implement the others one after another. -/
theorem Implements.bind {f : α → Program σ β} {g : α → Program τ β}
    (h : p.Implements Inv rely view q s)
    (hf : ∀ a t, rely s t → (f a).Implements Inv rely view (g a) t) :
    (p.bind f).Implements Inv rely view (q.bind g) s := by
  induction p generalizing q s with
  | done result =>
    obtain rfl : q = done result := h
    exact hf result s (refl_of rely s)
  | act effect next ih =>
    intro t ht hst
    obtain ⟨⟨hinv, hkeeps⟩, hnext⟩ := h t ht hst
    have hafter (a : α) (u : σ) (hu : rely (effect t) u) :
        (f a).Implements Inv rely view (g a) u :=
      hf a u (trans_of rely hst (trans_of rely hkeeps hu))
    refine ⟨⟨hinv, hkeeps⟩, ?_⟩
    rcases hnext with ⟨hview, hrest⟩ | ⟨effect', next', rfl, hview, hrest⟩
    · exact Or.inl ⟨hview, ih t hrest hafter⟩
    · exact Or.inr ⟨effect', fun v => (next' v).bind g, rfl, hview, ih t hrest hafter⟩

end Implements

end Program

/-! ### Callers -/

/-- One who makes calls: what is left to ask for, which calls have returned and what, and the rest
of the program of the call that is not finished yet, if there is one. -/
structure Caller (C ι ρ σ : Type*) where
  rest : C
  log : List (ι × ρ)
  running : Option (Program σ ρ)

/-- Before the first call. -/
def Caller.start {C ι ρ σ : Type*} (rest : C) : Caller C ι ρ σ := ⟨rest, [], none⟩

/-- After an action of the call that leaves this program of it. -/
def Caller.going {C ι ρ σ : Type*} (c : Caller C ι ρ σ) (op : ι) (next : ρ → C) :
    Program σ ρ → Caller C ι ρ σ
  | .done result => ⟨next result, c.log ++ [(op, result)], none⟩
  | .act effect rest => { c with running := some (.act effect rest) }

/-- These of the calls of a caller have happened: those that have returned, with what they have
returned, and maybe the one that it is in. -/
def Caller.Happened {C ι ρ σ : Type*} (ask : C → Option (ι × (ρ → C))) (c : Caller C ι ρ σ)
    (calls : List (ι × ρ)) : Prop :=
  calls = c.log ∨ c.running.isSome ∧
    ∃ op next result, ask c.rest = some (op, next) ∧ calls = c.log ++ [(op, result)]

/-- Callers that share a state. -/
structure Callers (κ C ι ρ σ : Type*) where
  state : σ
  callers : κ → Caller C ι ρ σ

/-- Callers whose calls are one step each: what is left to ask for, and what has returned. -/
structure AtomicCallers (κ C ι ρ τ : Type*) where
  state : τ
  rests : κ → C
  logs : κ → List (ι × ρ)

section Callers

variable {C ρ : Type*} [DecidableEq κ] (ask : C → Option (ι × (ρ → C))) (body : ι → Program σ ρ)
  (atomic : ι → τ → ρ × τ)

/-- A caller takes one action: of the call that it is in, or of the next one. -/
def CallTurn (now : Callers κ C ι ρ σ) (k : κ) (later : Callers κ C ι ρ σ) : Prop :=
  ∃ op next effect rest, ask (now.callers k).rest = some (op, next) ∧
    (now.callers k).running.getD (body op) = .act effect rest ∧
    later = ⟨effect now.state,
      Function.update now.callers k ((now.callers k).going op next (rest now.state))⟩

/-- A caller makes its next call, in one step. -/
def AtomicStep (before : AtomicCallers κ C ι ρ τ) (e : κ × ι × ρ)
    (after : AtomicCallers κ C ι ρ τ) : Prop :=
  ∃ next, ask (before.rests e.1) = some (e.2.1, next) ∧
    atomic e.2.1 before.state = (e.2.2, after.state) ∧
    after.rests = Function.update before.rests e.1 (next e.2.2) ∧
    after.logs = Function.update before.logs e.1 (before.logs e.1 ++ [e.2])

variable (Inv : σ → Prop) (rely : σ → σ → Prop) (view : σ → τ)

/-- What a caller looks like from a state on: as it is before its call has done what it does, and
as it is when this call has returned after that. -/
inductive LooksLike (c : Caller C ι ρ σ) (s : σ) : C → List (ι × ρ) → Prop
  | before (h : ∀ op next, ask c.rest = some (op, next) →
      (c.running.getD (body op)).Implements Inv rely view (.call (atomic op)) s) :
      LooksLike c s c.rest c.log
  | after {op : ι} {next : ρ → C} {p : Program σ ρ} {result : ρ}
      (hask : ask c.rest = some (op, next)) (hrunning : c.running = some p)
      (h : p.Implements Inv rely view (.done result) s) :
      LooksLike c s (next result) (c.log ++ [(op, result)])

/-- Callers look like those whose calls are one step each, and will ask for good calls only. -/
structure Abstracts (Good : C → Prop) (now : Callers κ C ι ρ σ) (spec : AtomicCallers κ C ι ρ τ) :
    Prop where
  inv : Inv now.state
  state : view now.state = spec.state
  callers : ∀ k, LooksLike ask body atomic Inv rely view (now.callers k) now.state (spec.rests k)
    (spec.logs k)
  good : ∀ k, Good (spec.rests k)

variable {ask body atomic Inv rely view} {Good : C → Prop} {now later start : Callers κ C ι ρ σ}
  {before after spec : AtomicCallers κ C ι ρ τ} {k : κ} {c : Caller C ι ρ σ} {s t : σ}
  {rest : C} {log : List (ι × ρ)} {order : List κ}

omit [DecidableEq κ] in
/-- What a caller looks like from one state on, it looks like from a later one. -/
theorem LooksLike.mono [IsPreorder σ rely]
    (h : LooksLike ask body atomic Inv rely view c s rest log) (hst : rely s t) :
    LooksLike ask body atomic Inv rely view c t rest log := by
  cases h with
  | before h => exact .before fun op next hask => (h op next hask).later hst
  | after hask hrunning h => exact .after hask hrunning (h.later hst)

omit [DecidableEq κ] in
/-- What a caller looks like has made the calls that have happened. -/
theorem LooksLike.happened (h : LooksLike ask body atomic Inv rely view c s rest log) :
    c.Happened ask log := by
  cases h with
  | before h => exact Or.inl rfl
  | after hask hrunning h => exact Or.inr ⟨by simp [hrunning], _, _, _, hask, rfl⟩

/-- In one state a caller can take a turn in one way only. -/
theorem CallTurn.deterministic {later' : Callers κ C ι ρ σ} (h : CallTurn ask body now k later)
    (h' : CallTurn ask body now k later') : later = later' := by
  obtain ⟨op, next, effect, rest, hask, haction, rfl⟩ := h
  obtain ⟨op', next', effect', rest', hask', haction', rfl⟩ := h'
  rw [hask] at hask'
  cases hask'
  rw [haction] at haction'
  cases haction'
  rfl

/-- The calls of a caller that are one step each are those that have returned. -/
theorem AtomicStep.logs {events : List (κ × ι × ρ)}
    (hrun : Run (AtomicStep ask atomic) before events after) (k : κ) :
    after.logs k = before.logs k ++ (events.filter (·.1 = k)).map Prod.snd := by
  induction hrun with
  | nil => simp
  | @snoc events c e c' _ hstep ih =>
    obtain ⟨_, _, _, _, hlogs⟩ := hstep
    rw [hlogs, Function.update_apply, List.filter_append]
    by_cases hk : k = e.1
    · subst hk
      simp [ih]
    · simp [ih, hk, Ne.symm hk]

variable [IsPreorder σ rely]
  (hgood : ∀ c op next, Good c → ask c = some (op, next) →
    (∀ s, (body op).Implements Inv rely view (.call (atomic op)) s) ∧ ∀ result, Good (next result))

include hgood

omit [DecidableEq κ] [IsPreorder σ rely] in
/-- A caller that asks for good calls looks as it is when it is in none. -/
theorem looksLike_idle (hrest : Good rest) :
    LooksLike ask body atomic Inv rely view ⟨rest, log, none⟩ s rest log :=
  .before fun op next hask => (hgood rest op next hrest hask).1 s

omit [DecidableEq κ] in
/-- An action of a call is not seen, or does what the whole call does. -/
theorem LooksLike.turn {op : ι} {next : ρ → C} {effect : σ → σ} {p : σ → Program σ ρ}
    (h : LooksLike ask body atomic Inv rely view c s rest log) (hs : Inv s) (hrest : Good rest)
    (hask : ask c.rest = some (op, next))
    (haction : c.running.getD (body op) = .act effect p) :
    (Inv (effect s) ∧ rely s (effect s)) ∧
      ((view (effect s) = view s ∧
          LooksLike ask body atomic Inv rely view (c.going op next (p s)) (effect s) rest log) ∨
        (ask rest = some (op, next) ∧ view (effect s) = (atomic op (view s)).2 ∧
          LooksLike ask body atomic Inv rely view (c.going op next (p s)) (effect s)
            (next (atomic op (view s)).1) (log ++ [(op, (atomic op (view s)).1)]))) := by
  cases h with
  | before himplements =>
    have hbody := himplements op next hask
    rw [haction] at hbody
    obtain ⟨hkeeps, hsilent | hcommit⟩ := hbody s hs (refl_of rely s)
    · obtain ⟨hview, hnext⟩ := hsilent
      refine ⟨hkeeps, Or.inl ⟨hview, ?_⟩⟩
      cases hp : p s with
      | done result =>
        rw [hp] at hnext
        cases hnext
      | act effect' p' =>
        rw [hp] at hnext
        refine .before fun op' next' hask' => ?_
        have hsame : some (op, next) = some (op', next') := hask.symm.trans hask'
        cases hsame
        exact hnext
    · obtain ⟨_, _, hspec, hview, hnext⟩ := hcommit
      cases hspec
      refine ⟨hkeeps, Or.inr ⟨hask, hview, ?_⟩⟩
      cases hp : p s with
      | done result =>
        rw [hp] at hnext
        cases hnext
        exact looksLike_idle hgood ((hgood _ op next hrest hask).2 _)
      | act effect' p' =>
        rw [hp] at hnext
        exact .after hask rfl hnext
  | @after op' next' q result hask' hrunning himplements =>
    rw [hask] at hask'
    cases hask'
    rw [hrunning] at haction
    obtain rfl : q = .act effect p := haction
    obtain ⟨hkeeps, hsilent | hcommit⟩ := himplements s hs (refl_of rely s)
    · obtain ⟨hview, hnext⟩ := hsilent
      refine ⟨hkeeps, Or.inl ⟨hview, ?_⟩⟩
      cases hp : p s with
      | done result' =>
        rw [hp] at hnext
        cases hnext
        exact looksLike_idle hgood hrest
      | act effect' p' =>
        rw [hp] at hnext
        exact .after hask rfl hnext
    · obtain ⟨_, _, hspec, _⟩ := hcommit
      cases hspec

/-- **Every turn is not seen, or a whole call** of the caller who takes it. -/
theorem Abstracts.turn (h : Abstracts ask body atomic Inv rely view Good now spec)
    (hturn : CallTurn ask body now k later) :
    Abstracts ask body atomic Inv rely view Good later spec ∨
      ∃ e after, e.1 = k ∧ AtomicStep ask atomic spec e after ∧
        Abstracts ask body atomic Inv rely view Good later after := by
  obtain ⟨op, next, effect, p, hask, haction, rfl⟩ := hturn
  obtain ⟨⟨hinv, hrely⟩, hsilent | hcommit⟩ :=
    (h.callers k).turn hgood h.inv (h.good k) hask haction
  · obtain ⟨hview, hk⟩ := hsilent
    refine Or.inl ⟨hinv, hview.trans h.state, ?_, h.good⟩
    exact (Function.forall_update_iff _ fun j c =>
      LooksLike ask body atomic Inv rely view c (effect now.state) (spec.rests j) (spec.logs j)).mpr
        ⟨hk, fun j _ => (h.callers j).mono hrely⟩
  · obtain ⟨hspec, hview, hk⟩ := hcommit
    rw [h.state] at hview hk
    let result := (atomic op spec.state).1
    refine Or.inr ⟨(k, op, result), ⟨(atomic op spec.state).2,
      Function.update spec.rests k (next result),
      Function.update spec.logs k (spec.logs k ++ [(op, result)])⟩, rfl,
      ⟨next, hspec, rfl, rfl, rfl⟩, hinv, hview, ?_, ?_⟩
    · intro j
      by_cases hj : j = k
      · subst hj
        dsimp only
        rw [Function.update_self, Function.update_self, Function.update_self]
        exact hk
      · dsimp only
        rw [Function.update_of_ne hj, Function.update_of_ne hj, Function.update_of_ne hj]
        exact (h.callers j).mono hrely
    · have hnext : Good (next result) := (hgood _ op next (h.good k) hspec).2 result
      exact (Function.forall_update_iff _ fun _ rest => Good rest).mpr
        ⟨hnext, fun j _ => h.good j⟩

/-- **Callers whose calls have one point each are linearizable.** In every order of their turns each
call can be given one of the turns that it takes, such that at every cut of the run the calls so
far, one step each, lead to what is seen, and those of a caller are the calls that have returned to
it, with what they have returned, and at most the one that it is in. -/
theorem Callers.linearizable {rests : κ → C} (hrests : ∀ k, Good (rests k)) (hinv : Inv s)
    (hrun : Run (CallTurn ask body) ⟨s, fun k => .start (rests k)⟩ order now) :
    ∃ points : List (Option (κ × ι × ρ)),
      List.Forall₂ (fun k point => ∀ event ∈ point, event.1 = k) order points ∧
      ∀ before after, order = before ++ after →
        ∀ mid, Run (CallTurn ask body) ⟨s, fun k => .start (rests k)⟩ before mid →
          ∃ spec, Run (AtomicStep ask atomic) ⟨view s, rests, fun _ => []⟩
              (points.take before.length).reduceOption spec ∧
            Abstracts ask body atomic Inv rely view Good mid spec := by
  have hturn (now : Callers κ C ι ρ σ) (spec : AtomicCallers κ C ι ρ τ) (k : κ)
      (later : Callers κ C ι ρ σ) (h : Abstracts ask body atomic Inv rely view Good now spec)
      (hturn : CallTurn ask body now k later) :
      Abstracts ask body atomic Inv rely view Good later spec ∨
        ∃ e after, e.1 = k ∧ AtomicStep ask atomic spec e after ∧
          Abstracts ask body atomic Inv rely view Good later after := h.turn hgood hturn
  have hstart : Abstracts ask body atomic Inv rely view Good ⟨s, fun k => .start (rests k)⟩
      ⟨view s, rests, fun _ => []⟩ :=
    ⟨hinv, rfl, fun k => looksLike_idle hgood (hrests k), hrests⟩
  exact hrun.stutters (fun _ _ _ _ h h' => h.deterministic h') hturn hstart

end Callers

end Pmemcpy.Lib
