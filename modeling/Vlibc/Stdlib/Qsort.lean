import Mathlib.Data.List.Perm.Basic
import Mathlib.Data.Int.Notation

/-!
# `qsort`

The array is the list of its elements. The loop over `i` goes down the list, and the loop over `j`
compares the element at `i` with each one behind it, and exchanges the two where the comparison is
positive.
-/

namespace Vlibc.Stdlib

open List

variable {α : Type*}

/-- The loop over `j`, for the element at `i` and those that are still to be compared with it: what
the element at `i` is in the end, and what they are. -/
def qsortInner (compar : α → α → ℤ) : α → List α → α × List α
  | x, [] => (x, [])
  | x, y :: l =>
    if compar x y > 0 then
      let (m, r) := qsortInner compar y l
      (m, x :: r)
    else
      let (m, r) := qsortInner compar x l
      (m, y :: r)

/-- The loop over `i`, for the `n` elements from there on. -/
def qsortOuter (compar : α → α → ℤ) : ℕ → List α → List α
  | n + 1, x :: l =>
    let (m, r) := qsortInner compar x l
    m :: qsortOuter compar n r
  | _, l => l

/-- `qsort`, with the two loops of the source. -/
def qsort (compar : α → α → ℤ) (base : List α) : List α := qsortOuter compar base.length base

variable {compar : α → α → ℤ} {x : α} {l : List α}

theorem qsortInner_perm (compar : α → α → ℤ) (x : α) (l : List α) :
    ((qsortInner compar x l).1 :: (qsortInner compar x l).2).Perm (x :: l) := by
  fun_induction qsortInner compar x l with
  | case1 x => exact .refl _
  | case2 x y l h m r e ih =>
    rw [e] at ih
    exact (Perm.swap x m r).trans (ih.cons x)
  | case3 x y l h m r e ih =>
    rw [e] at ih
    exact ((Perm.swap y m r).trans (ih.cons y)).trans (Perm.swap x y l)

theorem qsortOuter_perm (compar : α → α → ℤ) (n : ℕ) (l : List α) :
    (qsortOuter compar n l).Perm l := by
  induction n generalizing l with
  | zero => exact .refl _
  | succ n ih =>
    cases l with
    | nil => exact .refl _
    | cons x l => exact ((ih _).cons _).trans (qsortInner_perm compar x l)

theorem qsort_perm (compar : α → α → ℤ) (l : List α) : (qsort compar l).Perm l :=
  qsortOuter_perm compar _ l

section Map

variable {β : Type*} (f : α → β) (compar : β → β → ℤ)

theorem qsortInner_map (x : α) (l : List α) :
    qsortInner compar (f x) (l.map f) =
      Prod.map f (List.map f) (qsortInner (fun a b => compar (f a) (f b)) x l) := by
  induction l generalizing x with
  | nil => rfl
  | cons y l ih =>
    rw [map_cons, qsortInner, qsortInner, ih, ih]
    by_cases h : compar (f x) (f y) > 0
    · rw [if_pos h, if_pos h]
      rfl
    · rw [if_neg h, if_neg h]
      rfl

theorem qsortOuter_map (n : ℕ) (l : List α) :
    qsortOuter compar n (l.map f) = (qsortOuter (fun a b => compar (f a) (f b)) n l).map f := by
  induction n generalizing l with
  | zero => rfl
  | succ n ih =>
    cases l with
    | nil => rfl
    | cons x l =>
      rw [map_cons, qsortOuter, qsortOuter, qsortInner_map]
      exact congrArg _ (ih _)

/-- **Elements that are compared by what they point to** are sorted like that. -/
theorem qsort_map (l : List α) :
    qsort compar (l.map f) = (qsort (fun a b => compar (f a) (f b)) l).map f := by
  rw [qsort, length_map, qsortOuter_map]
  rfl

end Map

/-- The comparison is that of an order: of two elements, one is not above the other. -/
structure IsComparison (compar : α → α → ℤ) : Prop where
  total : ∀ x y, 0 < compar x y → compar y x ≤ 0
  trans : ∀ x y z, compar x y ≤ 0 → compar y z ≤ 0 → compar x z ≤ 0

theorem IsComparison.qsortInner_le (hc : IsComparison compar) (x : α) (l : List α) :
    compar (qsortInner compar x l).1 x ≤ 0 ∧
      ∀ y ∈ (qsortInner compar x l).2, compar (qsortInner compar x l).1 y ≤ 0 := by
  have hrefl : ∀ x, compar x x ≤ 0 := fun x => by
    by_contra h
    exact h (hc.total x x (by omega))
  fun_induction qsortInner compar x l with
  | case1 x => exact ⟨hrefl x, fun y hy => absurd hy not_mem_nil⟩
  | case2 x y l h m r e ih =>
    rw [e] at ih
    have hx : compar m x ≤ 0 := hc.trans m y x ih.1 (hc.total x y h)
    exact ⟨hx, forall_mem_cons.2 ⟨hx, ih.2⟩⟩
  | case3 x y l h m r e ih =>
    rw [e] at ih
    have hy : compar m y ≤ 0 := hc.trans m x y ih.1 (by omega)
    exact ⟨ih.1, forall_mem_cons.2 ⟨hy, ih.2⟩⟩

theorem length_qsortInner (compar : α → α → ℤ) (x : α) (l : List α) :
    (qsortInner compar x l).2.length = l.length :=
  Nat.succ.inj (qsortInner_perm compar x l).length_eq

theorem IsComparison.qsortOuter_pairwise (hc : IsComparison compar) (n : ℕ) (l : List α)
    (hl : l.length ≤ n) : (qsortOuter compar n l).Pairwise fun x y => compar x y ≤ 0 := by
  induction n generalizing l with
  | zero =>
    rw [length_eq_zero_iff.1 (Nat.le_zero.1 hl)]
    exact .nil
  | succ n ih =>
    cases l with
    | nil => exact .nil
    | cons x l =>
      refine pairwise_cons.2 ⟨fun y hy => ?_, ih _ ?_⟩
      · exact (hc.qsortInner_le x l).2 y ((qsortOuter_perm compar n _).mem_iff.1 hy)
      · rw [length_qsortInner]
        exact Nat.le_of_succ_le_succ hl

theorem IsComparison.qsort_pairwise (hc : IsComparison compar) (l : List α) :
    (qsort compar l).Pairwise fun x y => compar x y ≤ 0 :=
  hc.qsortOuter_pairwise _ l (Nat.le_refl _)

end Vlibc.Stdlib
