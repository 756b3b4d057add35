import Mathlib.Data.List.Infix
import Mathlib.Data.List.Count
import Mathlib.Tactic.Ring

/-!
# Templates

A template is a text with marks of two symbols in it, which are replaced by other
texts from left to right. The two symbols of a mark are different, so that marks do
not overlap, and a template is cut into the pieces between its marks in one way only.
-/

namespace Pmemcpy.Lib

variable {α : Type*} {a b x : α} {l p : List α} {ps texts : List (List α)}

/-- No mark begins anywhere in the text. -/
def MarkFree (a b : α) (l : List α) : Prop := ¬[a, b] <:+: l

/-- There is no mark in an empty text. -/
theorem markFree_nil : MarkFree a b ([] : List α) := by
  simp [MarkFree]

/-- A text has no mark if it begins with none and its rest has none. -/
theorem markFree_cons : MarkFree a b (x :: l) ↔ ¬[a, b] <+: x :: l ∧ MarkFree a b l := by
  rw [MarkFree, List.infix_cons_iff, not_or, MarkFree]

/-- Pieces with a text between each two of them; a text that is missing is empty. -/
def weave : List (List α) → List (List α) → List α
  | [], _ => []
  | [p], _ => p
  | p :: q :: ps, [] => p ++ weave (q :: ps) []
  | p :: q :: ps, text :: texts => p ++ text ++ weave (q :: ps) texts

/-- The replacement of the marks, without an algorithm: the template is put together of
pieces without marks, and the result of the same pieces with the texts in between. -/
def Substituted (a b : α) (l : List α) (texts : List (List α)) (out : List α) : Prop :=
  ∃ ps, ps ≠ [] ∧ (∀ p ∈ ps, MarkFree a b p) ∧ l = [a, b].intercalate ps ∧ out = weave ps texts

variable [DecidableEq α]

/-- The pieces of a template between its marks. -/
def pieces (a b : α) : List α → List (List α)
  | [] => [[]]
  | [x] => [[x]]
  | x :: y :: rest =>
    if x = a ∧ y = b then [] :: pieces a b rest
    else (pieces a b (y :: rest)).modifyHead (x :: ·)

/-- The template with its marks replaced by texts. -/
def substitute (a b : α) (l : List α) (texts : List (List α)) : List α :=
  weave (pieces a b l) texts

/-- How many marks a template has. -/
def marks (a b : α) (l : List α) : ℕ := (l.zip l.tail).count (a, b)

section Pieces

/-- A mark in front of a template puts an empty piece in front of its pieces. -/
@[simp] theorem pieces_mark (rest : List α) :
    pieces a b (a :: b :: rest) = [] :: pieces a b rest := by
  rw [pieces, if_pos ⟨rfl, rfl⟩]

/-- A symbol that begins no mark belongs to the first piece. -/
theorem pieces_cons (h : ¬[a, b] <+: x :: l) :
    pieces a b (x :: l) = (pieces a b l).modifyHead (x :: ·) := by
  cases l with
  | nil => rfl
  | cons y rest =>
    have hmark : ¬(x = a ∧ y = b) := by
      rintro ⟨rfl, rfl⟩
      exact h (List.prefix_append [x, y] rest)
    rw [pieces, if_neg hmark]

/-- A template is empty, or begins with a mark or with another symbol. -/
theorem template_cases (a b : α) {P : List α → Prop} (nil : P [])
    (mark : ∀ rest, P rest → P (a :: b :: rest))
    (symbol : ∀ x l, ¬[a, b] <+: x :: l → P l → P (x :: l)) (l : List α) : P l := by
  induction l using pieces.induct a b with
  | case1 => exact nil
  | case2 x =>
    refine symbol x [] (fun h => ?_) nil
    have hlen := h.length_le
    simp at hlen
  | case3 x y rest h ih =>
    obtain ⟨rfl, rfl⟩ := h
    exact mark rest ih
  | case4 x y rest h ih =>
    refine symbol x (y :: rest) (fun hmark => h ?_) ih
    rw [List.cons_prefix_cons, List.cons_prefix_cons] at hmark
    exact ⟨hmark.1.symm, hmark.2.1.symm⟩

/-- A template has at least one piece. -/
theorem pieces_ne_nil (a b : α) (l : List α) : pieces a b l ≠ [] := by
  induction l using template_cases a b with
  | nil => simp [pieces]
  | mark rest => simp
  | symbol x l h ih =>
    rw [pieces_cons h]
    simpa using ih

/-- A template has a first piece. -/
theorem pieces_eq_cons (a b : α) (l : List α) : ∃ p ps, pieces a b l = p :: ps :=
  List.exists_cons_of_ne_nil (pieces_ne_nil a b l)

/-- A template is put together of its pieces. -/
theorem intercalate_pieces (a b : α) (l : List α) : [a, b].intercalate (pieces a b l) = l := by
  induction l using template_cases a b with
  | nil => rfl
  | mark rest ih =>
    rw [pieces_mark, List.intercalate_cons_of_ne_nil (pieces_ne_nil a b rest), ih]
    rfl
  | symbol x l h ih =>
    obtain ⟨p, ps, hps⟩ := pieces_eq_cons a b l
    rw [pieces_cons h, hps, List.modifyHead_cons, List.intercalate_cons_cons_left, ← hps, ih]

/-- No piece has a mark in it. -/
theorem markFree_of_mem_pieces (hp : p ∈ pieces a b l) : MarkFree a b p := by
  induction l using template_cases a b generalizing p with
  | nil =>
    obtain rfl : p = [] := by simpa [pieces] using hp
    exact markFree_nil
  | mark rest ih =>
    rw [pieces_mark] at hp
    rcases List.mem_cons.mp hp with rfl | hp
    · exact markFree_nil
    · exact ih hp
  | symbol x l h ih =>
    obtain ⟨q, qs, hqs⟩ := pieces_eq_cons a b l
    rw [pieces_cons h, hqs, List.modifyHead_cons] at hp
    rw [hqs] at ih
    rcases List.mem_cons.mp hp with rfl | hp
    · refine markFree_cons.mpr ⟨fun hmark => h ?_, ih List.mem_cons_self⟩
      -- the first piece is a prefix of the text
      have hq : q <+: l := by
        rw [← intercalate_pieces a b l, hqs]
        cases qs with
        | nil => simp
        | cons r rs => simp [List.append_assoc]
      exact hmark.trans (List.cons_prefix_cons.mpr ⟨rfl, hq⟩)
    · exact ih (List.mem_cons_of_mem _ hp)

/-- A text without marks is one piece. -/
theorem pieces_eq_singleton (h : MarkFree a b l) : pieces a b l = [l] := by
  induction l with
  | nil => rfl
  | cons x l ih =>
    obtain ⟨hmark, hfree⟩ := markFree_cons.mp h
    rw [pieces_cons hmark, ih hfree, List.modifyHead_cons]

/-- A text without marks in front of a mark is the first piece. -/
theorem pieces_append_mark (hab : a ≠ b) (h : MarkFree a b p) (rest : List α) :
    pieces a b (p ++ a :: b :: rest) = p :: pieces a b rest := by
  induction p with
  | nil => exact pieces_mark rest
  | cons x p ih =>
    obtain ⟨hmark, hfree⟩ := markFree_cons.mp h
    have hnone : ¬[a, b] <+: x :: (p ++ a :: b :: rest) := by
      intro hlong
      rw [List.cons_prefix_cons] at hlong
      cases p with
      | nil => exact hab ((List.cons_prefix_cons.mp hlong.2).1).symm
      | cons y p =>
        obtain ⟨rfl, hrest⟩ := hlong
        obtain ⟨rfl, _⟩ := List.cons_prefix_cons.mp hrest
        exact hmark (List.prefix_append [a, b] p)
    rw [List.cons_append, pieces_cons hnone, ih hfree, List.modifyHead_cons]

/-- **A template is put together in one way only of pieces without marks.** -/
theorem pieces_intercalate (hab : a ≠ b) (hne : ps ≠ []) (hfree : ∀ p ∈ ps, MarkFree a b p) :
    pieces a b ([a, b].intercalate ps) = ps := by
  induction ps with
  | nil => exact absurd rfl hne
  | cons p ps ih =>
    have hp := hfree p List.mem_cons_self
    cases ps with
    | nil =>
      rw [List.intercalate_singleton]
      exact pieces_eq_singleton hp
    | cons q qs =>
      have hrest := ih (List.cons_ne_nil q qs) fun r hr => hfree r (List.mem_cons_of_mem _ hr)
      have hcut := pieces_append_mark hab hp ([a, b].intercalate (q :: qs))
      rw [hrest] at hcut
      rw [List.intercalate_cons_cons, List.append_assoc]
      exact hcut

/-- The replacement of the marks is what `substitute` computes. -/
theorem substituted_iff (hab : a ≠ b) {out : List α} :
    Substituted a b l texts out ↔ out = substitute a b l texts := by
  constructor
  · rintro ⟨ps, hne, hfree, rfl, rfl⟩
    rw [substitute, pieces_intercalate hab hne hfree]
  · rintro rfl
    exact ⟨pieces a b l, pieces_ne_nil a b l, fun _ => markFree_of_mem_pieces,
      (intercalate_pieces a b l).symm, rfl⟩

end Pieces

section Substitute

/-- An empty template gives an empty text. -/
@[simp] theorem substitute_nil (a b : α) (texts : List (List α)) :
    substitute a b [] texts = [] := rfl

/-- A mark is replaced by the first text. -/
theorem substitute_mark (rest text : List α) :
    substitute a b (a :: b :: rest) (text :: texts) = text ++ substitute a b rest texts := by
  obtain ⟨p, ps, hps⟩ := pieces_eq_cons a b rest
  rw [substitute, pieces_mark, substitute, hps, weave, List.nil_append]

/-- A symbol that begins no mark is kept. -/
theorem substitute_cons (h : ¬[a, b] <+: x :: l) :
    substitute a b (x :: l) texts = x :: substitute a b l texts := by
  obtain ⟨p, ps, hps⟩ := pieces_eq_cons a b l
  rw [substitute, pieces_cons h, substitute, hps, List.modifyHead_cons]
  cases ps with
  | nil => rfl
  | cons q qs => cases texts <;> rfl

/-- An empty template has no marks. -/
@[simp] theorem marks_nil (a b : α) : marks a b [] = 0 := rfl

/-- A mark in front is one mark more. -/
@[simp] theorem marks_mark (hab : a ≠ b) (rest : List α) :
    marks a b (a :: b :: rest) = marks a b rest + 1 := by
  cases rest with
  | nil => simp [marks]
  | cons y rest => simp [marks, hab.symm]

/-- A symbol in front that begins no mark adds none. -/
theorem marks_cons (h : ¬[a, b] <+: x :: l) : marks a b (x :: l) = marks a b l := by
  cases l with
  | nil => rfl
  | cons y rest =>
    have hne : (x, y) ≠ (a, b) := by
      rintro hmark
      cases hmark
      exact h (List.prefix_append [a, b] rest)
    rw [marks, marks, List.tail_cons, List.zip_cons_cons, List.count_cons_of_ne hne, List.tail_cons]

/-- **The length of what a template becomes**: its own without the marks, and the lengths of
the texts that replace them. -/
theorem length_substitute (hab : a ≠ b) (henough : marks a b l ≤ texts.length) :
    (substitute a b l texts).length + 2 * marks a b l =
      l.length + ((texts.take (marks a b l)).map List.length).sum := by
  induction l using template_cases a b generalizing texts with
  | nil => rfl
  | mark rest ih =>
    rw [marks_mark hab] at henough ⊢
    cases texts with
    | nil => simp at henough
    | cons text texts =>
      have hrest := ih (Nat.le_of_succ_le_succ henough)
      rw [substitute_mark, List.take_succ_cons, List.map_cons, List.sum_cons, List.length_append,
        List.length_cons, List.length_cons]
      omega
  | symbol x l h ih =>
    rw [marks_cons h] at henough ⊢
    have hrest := ih henough
    rw [substitute_cons h, List.length_cons, List.length_cons]
    omega

end Substitute

end Pmemcpy.Lib
