import Mathlib.Data.List.Lex
import Mathlib.Algebra.BigOperators.Group.List.Basic
import Mathlib.Algebra.Ring.Nat

/-!
# Hyperslabs of an array

An array of any rank has an element at each index of a box, and a slab is the
box of its sizes, moved by its offsets. Both are listed in row-major order,
which is the lexicographic order of the indices: two lists of the same indices
are one list.
-/

namespace Pmemcpy.Lib

/-- The indices of a box in row-major order. -/
def box : List ℕ → List (List ℕ)
  | [] => [[]]
  | dim :: dims => (List.range dim).flatMap fun i => (box dims).map (i :: ·)

/-- The order of indices. -/
abbrev IndexLt : List ℕ → List ℕ → Prop := List.Lex (· < ·)

section Box

variable {dims index : List ℕ}

/-- A box has as many indices as the product of its dimensions. -/
@[simp] theorem length_box (dims : List ℕ) : (box dims).length = dims.prod := by
  induction dims with
  | nil => rfl
  | cons dim dims ih =>
    rw [box, List.length_flatMap, List.prod_cons]
    simp only [List.length_map, ih, List.map_const', List.length_range, List.sum_replicate_nat]

/-- An index has a number for each dimension. -/
theorem length_of_mem_box (h : index ∈ box dims) : index.length = dims.length := by
  induction dims generalizing index with
  | nil => simp_all [box]
  | cons dim dims ih =>
    obtain ⟨i, _, hindex⟩ := List.mem_flatMap.mp h
    obtain ⟨rest, hrest, rfl⟩ := List.mem_map.mp hindex
    rw [List.length_cons, List.length_cons, ih hrest]

/-- The indices of a box are in order. -/
theorem pairwise_box (dims : List ℕ) : (box dims).Pairwise IndexLt := by
  induction dims with
  | nil => exact List.pairwise_singleton _ _
  | cons dim dims ih =>
    rw [box, List.pairwise_flatMap]
    constructor
    · intro i _
      exact ih.map _ fun a b h => List.Lex.cons h
    · apply List.pairwise_lt_range.imp
      intro i j hij a ha b hb
      obtain ⟨_, _, rfl⟩ := List.mem_map.mp ha
      obtain ⟨_, _, rfl⟩ := List.mem_map.mp hb
      exact List.Lex.rel hij

end Box

/-- A slab of an array: the index it starts at, and its sizes, for each dimension. -/
structure Slab where
  offsets : List ℕ
  sizes : List ℕ
  sameRank : offsets.length = sizes.length

namespace Slab

/-- The number of indices. -/
def volume (s : Slab) : ℕ := s.sizes.prod

/-- The indices of a slab in row-major order. -/
def indices (s : Slab) : List (List ℕ) := (box s.sizes).map (List.zipWith (· + ·) s.offsets)

/-- A slab has as many indices as its volume says. -/
@[simp] theorem length_indices (s : Slab) : s.indices.length = s.volume := by
  simp [indices, volume]

/-- Moving indices keeps their order. -/
theorem indexLt_zipWith {offsets a b : List ℕ} (ha : a.length = offsets.length)
    (hb : b.length = offsets.length) (h : IndexLt a b) :
    IndexLt (List.zipWith (· + ·) offsets a) (List.zipWith (· + ·) offsets b) := by
  induction h generalizing offsets with
  | nil =>
    rw [← ha] at hb
    cases hb
  | rel hlt =>
    cases offsets with
    | nil => cases ha
    | cons o offsets => exact List.Lex.rel (Nat.add_lt_add_left hlt o)
  | cons _ ih =>
    cases offsets with
    | nil => cases ha
    | cons o offsets => exact List.Lex.cons (ih (Nat.succ.inj ha) (Nat.succ.inj hb))

/-- The indices of a slab are in order. -/
theorem pairwise_indices (s : Slab) : s.indices.Pairwise IndexLt := by
  rw [indices, List.pairwise_map]
  apply (pairwise_box s.sizes).imp_of_mem
  intro a b ha hb hlt
  apply indexLt_zipWith _ _ hlt
  · rw [length_of_mem_box ha, s.sameRank]
  · rw [length_of_mem_box hb, s.sameRank]

end Slab

/-- The slabs, of which there is at least one, have every index of the box once. -/
structure Partition (dims : List ℕ) (slabs : List Slab) : Prop where
  nonempty : slabs ≠ []
  covers : (slabs.flatMap Slab.indices).Perm (box dims)

namespace Partition

variable {dims : List ℕ} {slabs : List Slab}

/-- The slabs have as many indices as the box. -/
theorem sum_volume (h : Partition dims slabs) : (slabs.map Slab.volume).sum = dims.prod := by
  have hlength := h.covers.length_eq
  rw [List.length_flatMap, length_box] at hlength
  rw [← hlength]
  congr 1
  exact List.map_congr_left fun s _ => s.length_indices.symm

/-- A slab that has all of the indices lists them as the box does. -/
theorem indices_eq {s : Slab} (h : Partition dims [s]) : s.indices = box dims := by
  have hperm := h.covers
  rw [List.flatMap_singleton] at hperm
  apply hperm.eq_of_pairwise _ s.pairwise_indices (pairwise_box dims)
  intro a b _ _ hab hba
  exact absurd hba (asymm hab)

/-- If every slab is as large as the box, each one lists all of the indices. -/
theorem indices_eq_of_full (h : Partition dims slabs)
    (hfull : ∀ s ∈ slabs, s.volume = dims.prod) {s : Slab} (hs : s ∈ slabs) :
    s.indices = box dims := by
  by_cases hempty : dims.prod = 0
  · have hbox : box dims = [] := by
      rw [← List.length_eq_zero_iff, length_box, hempty]
    have hslab : s.indices = [] := by
      rw [← List.length_eq_zero_iff, s.length_indices, hfull s hs, hempty]
    rw [hslab, hbox]
  · have hsum := h.sum_volume
    have hmap : slabs.map Slab.volume = List.replicate slabs.length dims.prod := by
      rw [List.eq_replicate_iff]
      refine ⟨List.length_map _, ?_⟩
      intro n hn
      obtain ⟨t, ht, rfl⟩ := List.mem_map.mp hn
      exact hfull t ht
    rw [hmap, List.sum_replicate_nat] at hsum
    have hone : slabs.length = 1 := Nat.eq_of_mul_eq_mul_right (Nat.pos_of_ne_zero hempty)
      (hsum.trans (Nat.one_mul _).symm)
    obtain ⟨t, rfl⟩ := List.length_eq_one_iff.mp hone
    rw [List.mem_singleton.mp hs]
    exact h.indices_eq

end Partition

end Pmemcpy.Lib
