import Mathlib.Data.Finset.Option
import Mathlib.Data.Finset.Card
import Pmemcpy.Lib.Run

/-!
# Resources that steps do not give back

A step takes resources that are free, and gives back all of them but at most one,
which its label tells. Then a run holds what it held at its start and what its
steps did not give back: there is one more for each such step, so that a table of
resources is used up exactly when there were enough of them.
-/

namespace Pmemcpy.Lib

variable {σ ι ρ : Type*} [DecidableEq ρ]

/-- A step keeps the resource that its label tells, which was free, and no other. -/
def StepKeeps (step : σ → ι → σ → Prop) (held : σ → Finset ρ) (kept : ι → Option ρ) : Prop :=
  ∀ s label t, step s label t →
    (∀ r ∈ kept label, r ∉ held s) ∧ held t = held s ∪ (kept label).toFinset

/-- The resources of a table are all in use. -/
def UsedUp (table held : Finset ρ) : Prop := table ⊆ held

instance (table held : Finset ρ) : Decidable (UsedUp table held) :=
  inferInstanceAs (Decidable (table ⊆ held))

section Runs

variable {step : σ → ι → σ → Prop} {held : σ → Finset ρ} {kept : ι → Option ρ} {start t : σ}
  {labels : List ι} {table : Finset ρ}

/-- A step holds one resource more if it keeps one. -/
theorem StepKeeps.card (hkeeps : StepKeeps step held kept) {s : σ} {label : ι}
    (h : step s label t) :
    (held t).card = (held s).card + if (kept label).isSome then 1 else 0 := by
  obtain ⟨hfree, hheld⟩ := hkeeps s label t h
  rw [hheld]
  cases hkept : kept label with
  | none => simp
  | some r =>
    rw [Option.toFinset_some, Finset.card_union_of_disjoint]
    · simp
    · rw [Finset.disjoint_singleton_right]
      exact hfree r hkept

/-- **A run holds one resource more for each step that keeps one.** -/
theorem StepKeeps.card_run (hkeeps : StepKeeps step held kept) (h : Run step start labels t) :
    (held t).card = (held start).card + labels.countP fun label => (kept label).isSome := by
  induction h with
  | nil => simp
  | snoc _ hstep ih =>
    rw [hkeeps.card hstep, ih, List.countP_append, List.countP_singleton]
    omega

/-- A run never gives back what it held at its start. -/
theorem StepKeeps.subset_run (hkeeps : StepKeeps step held kept) (h : Run step start labels t) :
    held start ⊆ held t := by
  induction h with
  | nil => exact Finset.Subset.refl _
  | snoc _ hstep ih =>
    rw [(hkeeps _ _ _ hstep).2]
    exact ih.trans Finset.subset_union_left

/-- **A run ends with the resources of its start exactly if no step keeps one.** -/
theorem StepKeeps.run_eq_iff (hkeeps : StepKeeps step held kept) (h : Run step start labels t) :
    held t = held start ↔ ∀ label ∈ labels, kept label = none := by
  have hcard := hkeeps.card_run h
  have hcount : labels.countP (fun label => (kept label).isSome) = 0 ↔
      ∀ label ∈ labels, kept label = none := by
    simp [List.countP_eq_zero]
  rw [← hcount]
  constructor
  · intro heq
    rw [heq] at hcard
    omega
  · intro hzero
    apply (Finset.eq_of_subset_of_card_le (hkeeps.subset_run h) _).symm
    omega

/-- What is kept comes from the table, so nothing else is held. -/
theorem StepKeeps.run_subset (hkeeps : StepKeeps step held kept)
    (htable : ∀ s label t, step s label t → ∀ r ∈ kept label, r ∈ table)
    (hstart : held start ⊆ table) (h : Run step start labels t) : held t ⊆ table := by
  induction h with
  | nil => exact hstart
  | snoc _ hstep ih =>
    rw [(hkeeps _ _ _ hstep).2]
    apply Finset.union_subset ih
    intro r hr
    exact htable _ _ _ hstep r (Option.mem_toFinset.mp hr)

/-- **A table is used up when as many steps have kept a resource as were free.** -/
theorem StepKeeps.usedUp_iff (hkeeps : StepKeeps step held kept)
    (htable : ∀ s label t, step s label t → ∀ r ∈ kept label, r ∈ table)
    (hstart : held start ⊆ table) (h : Run step start labels t) :
    UsedUp table (held t) ↔
      (held start).card + labels.countP (fun label => (kept label).isSome) = table.card := by
  rw [← hkeeps.card_run h]
  have hsub := hkeeps.run_subset htable hstart h
  constructor
  · intro hused
    rw [Finset.Subset.antisymm hsub hused]
  · intro hcard
    exact (Finset.eq_of_subset_of_card_le hsub hcard.ge).ge

end Runs

end Pmemcpy.Lib
