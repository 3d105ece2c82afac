import Mathlib.Tactic.Linarith

/-!
# Signed operations

An operation of a signed type with `width` bits is recorded with the number that it should yield; it
overflows if that number is not a value of the type (`SignedOp.Fits`). The negation of a value fits
for all but one of them (`neg_fits_iff`), and the accumulation of digits if and only if the number
that they make does (`accumulate_fits_iff`).
-/

namespace Vlibc

open List

/-- An operation of a signed type: its width in bits, and the exact result. -/
structure SignedOp where
  width : ℕ
  result : ℤ

/-- The result is a value of the type. -/
def SignedOp.Fits (op : SignedOp) : Prop :=
  -2 ^ (op.width - 1) ≤ op.result ∧ op.result < 2 ^ (op.width - 1)

instance (op : SignedOp) : Decidable op.Fits :=
  inferInstanceAs (Decidable (-2 ^ (op.width - 1) ≤ op.result ∧ op.result < 2 ^ (op.width - 1)))

variable {w : ℕ}

/-- The operation `-v`, if `v` is below zero. -/
def negateNegative (v : BitVec w) : List SignedOp := if v.msb then [⟨w, -v.toInt⟩] else []

theorem neg_fits_iff (hw : 0 < w) (v : BitVec w) :
    (∀ op ∈ negateNegative v, op.Fits) ↔ v ≠ .intMin w := by
  have hlo := v.le_toInt
  have hhi := v.toInt_lt
  have hmin : (BitVec.intMin w).toInt = -2 ^ (w - 1) := BitVec.toInt_intMin_of_pos hw
  have hpos : (0 : ℤ) < 2 ^ (w - 1) := by positivity
  unfold negateNegative
  rw [BitVec.msb_eq_toInt, ne_eq, ← BitVec.toInt_inj, hmin]
  by_cases hneg : v.toInt < 0
  · rw [decide_eq_true hneg, if_pos rfl, forall_mem_singleton, SignedOp.Fits]
    dsimp only
    omega
  · rw [decide_eq_false hneg]
    simp only [Bool.false_eq_true, if_false, not_mem_nil, false_implies, implies_true, true_iff]
    omega

/-! ## Accumulation of digits -/

section accumulation

variable {α : Type*} (val : α → ℕ) (b : ℕ) {n : ℤ}

/-- The operations of the steps `n = n * b + d`. -/
def accumulate (w : ℕ) : ℤ → List α → List SignedOp
  | _, [] => []
  | n, d :: ds => ⟨w, n * b⟩ :: ⟨w, n * b + val d⟩ :: accumulate w (n * b + val d) ds

/-- The number that digits make behind `n`. -/
def accumulated (n : ℤ) (ds : List α) : ℤ := ds.foldl (fun n d => n * b + val d) n

variable {val b}

theorem le_accumulated (hb : 0 < b) (hn : 0 ≤ n) (ds : List α) : n ≤ accumulated val b n ds := by
  induction ds generalizing n with
  | nil => exact le_refl n
  | cons d ds ih =>
    have hstep : n ≤ n * b + val d := by
      have : n * 1 ≤ n * b := Int.mul_le_mul_of_nonneg_left (by omega) hn
      omega
    exact hstep.trans (ih (hn.trans hstep))

/-- **An accumulation does not overflow if and only if its result fits.** The numbers on the way are
not larger. -/
theorem accumulate_fits_iff (hb : 0 < b) (hn : 0 ≤ n) (hfits : n < 2 ^ (w - 1)) (ds : List α) :
    (∀ op ∈ accumulate val b w n ds, op.Fits) ↔ accumulated val b n ds < 2 ^ (w - 1) := by
  induction ds generalizing n with
  | nil => simpa [accumulate, accumulated] using hfits
  | cons d ds ih =>
    have hmul : 0 ≤ n * b := Int.mul_nonneg hn (by omega)
    have hlow : -2 ^ (w - 1) ≤ (0 : ℤ) := by simp
    have hle : n * b + val d ≤ accumulated val b (n * b + val d) ds :=
      le_accumulated hb (by omega) ds
    rw [accumulate, forall_mem_cons, forall_mem_cons, SignedOp.Fits, SignedOp.Fits]
    dsimp only
    by_cases hstep : n * b + val d < 2 ^ (w - 1)
    · rw [ih (by omega) hstep]
      exact ⟨fun h => h.2.2, fun h => ⟨by omega, by omega, h⟩⟩
    · change _ ↔ accumulated val b (n * b + val d) ds < _
      omega

end accumulation

end Vlibc
