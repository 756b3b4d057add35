import Mathlib.Data.List.Induction
import Mathlib.Data.List.ReduceOption
import Mathlib.Data.List.Forall2

/-!
# Finite runs of a labelled step relation

A run is read from its last step, so that an induction on it sees the labels
taken so far and the state they lead to. The lemmas here are the induction
rules of the development: invariants, simulations by a function on abstract
states, and the cutting of a run at one of its labels.
-/

namespace Pmemcpy.Lib

variable {σ ι α : Type*} {step step' : σ → ι → σ → Prop} {start mid s t : σ}
  {labels more : List ι} {label : ι}

/-- A finite run from `start`, with the labels of its steps in the order they were taken. -/
inductive Run (step : σ → ι → σ → Prop) (start : σ) : List ι → σ → Prop where
  | nil : Run step start [] start
  | snoc {labels : List ι} {s : σ} {label : ι} {t : σ} :
      Run step start labels s → step s label t → Run step start (labels ++ [label]) t

/-- One step is a run. -/
theorem Run.single (h : step start label t) : Run step start [label] t :=
  Run.snoc Run.nil h

/-- A run whose labels end in `label` ends in a step with that label. -/
theorem Run.snoc_inv (h : Run step start (labels ++ [label]) t) :
    ∃ s, Run step start labels s ∧ step s label t := by
  generalize hall : labels ++ [label] = all at h
  cases h with
  | nil => simp at hall
  | snoc hrun hstep =>
    obtain ⟨rfl, hlast⟩ := List.append_inj' hall rfl
    cases hlast
    exact ⟨_, hrun, hstep⟩

/-- A run without labels stays where it is. -/
theorem Run.nil_inv (h : Run step start [] t) : t = start := by
  generalize hall : ([] : List ι) = all at h
  cases h with
  | nil => rfl
  | snoc => simp at hall

/-- A run can be cut between any two of its labels. -/
theorem Run.split (h : Run step start (labels ++ more) t) :
    ∃ mid, Run step start labels mid ∧ Run step mid more t := by
  induction more using List.reverseRecOn generalizing t with
  | nil => exact ⟨t, by simpa using h, Run.nil⟩
  | append_singleton more label ih =>
    rw [← List.append_assoc] at h
    obtain ⟨s, hrun, hstep⟩ := h.snoc_inv
    obtain ⟨mid, hfirst, hsecond⟩ := ih hrun
    exact ⟨mid, hfirst, hsecond.snoc hstep⟩

/-- A run begins with a step of its first label. -/
theorem Run.cons_inv (h : Run step start (label :: labels) t) :
    ∃ s, step start label s ∧ Run step s labels t := by
  have hcut : Run step start ([label] ++ labels) t := h
  obtain ⟨mid, hfirst, hrest⟩ := hcut.split
  have hsnoc : Run step start ([] ++ [label]) mid := hfirst
  obtain ⟨s, hnil, hstep⟩ := hsnoc.snoc_inv
  rw [hnil.nil_inv] at hstep
  exact ⟨mid, hstep, hrest⟩

/-- A step and a run after it are a run. -/
theorem Run.cons {mid : σ} (hstep : step start label mid) (h : Run step mid labels t) :
    Run step start (label :: labels) t := by
  induction h with
  | nil => exact Run.single hstep
  | snoc _ hlast ih => exact ih.snoc hlast

/-- A run and another one after it are a run. -/
theorem Run.append (h : Run step start labels mid) (h' : Run step mid more t) :
    Run step start (labels ++ more) t := by
  induction h' with
  | nil => rwa [List.append_nil]
  | snoc _ hlast ih =>
    rw [← List.append_assoc]
    exact ih.snoc hlast

/-- Steps of one relation that are steps of another carry a run over. -/
theorem Run.imp (himp : ∀ s label t, step s label t → step' s label t)
    (h : Run step start labels t) : Run step' start labels t := by
  induction h with
  | nil => exact Run.nil
  | snoc _ hstep ih => exact ih.snoc (himp _ _ _ hstep)

/-- A run is a run of another relation, when its states and labels are looked at
through functions that carry steps over. -/
theorem Run.map {τ κ : Type*} {step' : τ → κ → τ → Prop} {f : σ → τ} {g : ι → κ}
    (hstep : ∀ s label t, step s label t → step' (f s) (g label) (f t))
    (h : Run step start labels t) : Run step' (f start) (labels.map g) (f t) := by
  induction h with
  | nil => exact Run.nil
  | snoc _ hlast ih =>
    rw [List.map_append]
    exact ih.snoc (hstep _ _ _ hlast)

/-- What holds at the start and is kept by every step holds after every run. -/
theorem Run.invariant {Inv : σ → Prop} (hstart : Inv start)
    (hstep : ∀ s label t, Inv s → step s label t → Inv t) (h : Run step start labels t) :
    Inv t := by
  induction h with
  | nil => exact hstart
  | snoc _ hlast ih => exact hstep _ _ _ ih hlast

/-- Where steps are determined by their labels, so are runs. -/
theorem Run.deterministic (hdet : ∀ s label t t', step s label t → step s label t' → t = t')
    {t' : σ} (h : Run step start labels t) (h' : Run step start labels t') : t = t' := by
  induction h generalizing t' with
  | nil => exact h'.nil_inv.symm
  | snoc _ hstep ih =>
    obtain ⟨s', hrun', hstep'⟩ := h'.snoc_inv
    obtain rfl := ih hrun'
    exact hdet _ _ _ _ hstep hstep'

/-- A forward simulation by a function: the abstract state of a run is the fold
of the abstract steps over its labels. -/
theorem Run.simulates {Rel : σ → α → Prop} {next : α → ι → α} {a : α} (hstart : Rel start a)
    (hstep : ∀ s a label t, Rel s a → step s label t → Rel t (next a label))
    (h : Run step start labels t) : Rel t (labels.foldl next a) := by
  induction h with
  | nil => exact hstart
  | snoc _ hlast ih =>
    rw [List.foldl_append]
    exact hstep _ _ _ _ ih hlast

/-- A forward simulation whose steps may stay behind: at some of the steps of a run, the abstract
state takes one. The events it has taken before any cut of the run belong to the labels before
the cut. -/
theorem Run.stutters {τ κ : Type*} {step' : τ → κ → τ → Prop} {Rel : σ → τ → Prop}
    {Causes : ι → κ → Prop} {a : τ}
    (hdet : ∀ s label t t', step s label t → step s label t' → t = t')
    (hstep : ∀ s a label t, Rel s a → step s label t →
      Rel t a ∨ ∃ event b, Causes label event ∧ step' a event b ∧ Rel t b)
    (hstart : Rel start a) (h : Run step start labels t) :
    ∃ points : List (Option κ),
      List.Forall₂ (fun label point => ∀ event ∈ point, Causes label event) labels points ∧
      ∀ before after, labels = before ++ after → ∀ mid, Run step start before mid →
        ∃ b, Run step' a (points.take before.length).reduceOption b ∧ Rel mid b := by
  induction h with
  | nil =>
    refine ⟨[], .nil, ?_⟩
    intro before after hcut mid hmid
    obtain ⟨rfl, _⟩ := List.append_eq_nil_iff.mp hcut.symm
    exact ⟨a, Run.nil, by rwa [hmid.nil_inv]⟩
  | @snoc labels s label t hrun hlast ih =>
    obtain ⟨points, hpoints, hcuts⟩ := ih
    have hlength : labels.length = points.length := hpoints.length_eq
    obtain ⟨b, hb, hrel⟩ := hcuts labels [] (List.append_nil _).symm s hrun
    rw [hlength, List.take_length] at hb
    obtain ⟨point, c, hpoint, hc, hrelc⟩ : ∃ point c, (∀ event ∈ point, Causes label event) ∧
        Run step' a (points ++ [point]).reduceOption c ∧ Rel t c := by
      rcases hstep _ _ _ _ hrel hlast with hsame | ⟨event, c, hcause, htake, hrelc⟩
      · refine ⟨none, b, by simp, ?_, hsame⟩
        rwa [List.reduceOption_append, List.reduceOption_singleton, Option.toList_none,
          List.append_nil]
      · refine ⟨some event, c, by simpa using hcause, ?_, hrelc⟩
        rw [List.reduceOption_append, List.reduceOption_singleton, Option.toList_some]
        exact hb.snoc htake
    refine ⟨points ++ [point], List.rel_append hpoints (.cons hpoint .nil), ?_⟩
    intro before after hcut mid hmid
    induction after using List.reverseRecOn with
    | nil =>
      rw [List.append_nil] at hcut
      obtain rfl := hcut
      obtain rfl := hmid.deterministic hdet (hrun.snoc hlast)
      have hall : (labels ++ [label]).length = (points ++ [point]).length := by simp [hlength]
      rw [hall, List.take_length]
      exact ⟨c, hc, hrelc⟩
    | append_singleton after last _ =>
      rw [← List.append_assoc] at hcut
      obtain ⟨rfl, _⟩ := List.append_inj' hcut rfl
      have hle : before.length ≤ points.length := by
        rw [← hlength, List.length_append]
        exact Nat.le_add_right _ _
      rw [List.take_append_of_le_length hle]
      exact hcuts before after rfl mid hmid

end Pmemcpy.Lib
