import Mathlib.Algebra.Order.Ring.Int
import Vlibc.Foundations.Template

/-!
# Widths and precisions

The two formatters, of `char` and of `wchar_t`, read a width and a precision with the same loops.
Here the loops are stated for any type of characters (`scanNumber`, `scanDotNumber`).
-/

namespace Vlibc.Printf

open List

/-- The largest `int`. -/
def INT_MAX : ℤ := 2 ^ 31 - 1

/-- The value of an `int` expression, unless it overflows. -/
def intValue (v : ℤ) : Option ℤ := if v ≤ INT_MAX then some v else none

/-- A type of characters. -/
class CodeUnit (α : Type) where
  code : α → ℕ
  /-- A character constant. -/
  lit : Char → α
  /-- The terminator. -/
  nul : α
  code_lit : ∀ c : Char, c.toNat < 128 → code (lit c) = c.toNat
  code_nul : code nul = 0

instance : CodeUnit UInt8 where
  code := UInt8.toNat
  lit := Char.toUInt8
  nul := 0
  code_lit c hc := by
    change c.val.toUInt8.toNat = c.val.toNat
    rw [UInt32.toNat_toUInt8]
    exact Nat.mod_eq_of_lt (Nat.lt_trans hc (by decide))
  code_nul := rfl

instance : CodeUnit UInt32 where
  code := UInt32.toNat
  lit := Char.val
  nul := 0
  code_lit _ _ := rfl
  code_nul := rfl

open CodeUnit

variable {α : Type} [CodeUnit α]

/-- A decimal digit. -/
def isDigit (c : α) : Bool := 48 ≤ code c ∧ code c ≤ 57

/-- The value of the digits `ds` behind digits of the value `n`. -/
def decimal (n : ℤ) (ds : List α) : ℤ := ds.foldl (fun n c => n * 10 + ((code c - 48 : ℕ) : ℤ)) n

theorem isDigit_nul : isDigit (nul : α) = false := by
  simp [isDigit, code_nul]

theorem nul_ne_dot : (nul : α) ≠ lit '.' := by
  intro h
  have := congrArg code h
  rw [code_nul, code_lit '.' (by decide)] at this
  cases this

/-! ## The loops -/

/-- The loops over the digits of a width and of a precision. -/
def scanNumber : ℤ → List α → Option (ℤ × List α)
  | _, [] => none
  | n, c :: p =>
    if isDigit c then
      match intValue (n * 10 + ((code c - 48 : ℕ) : ℤ)) with
      | none => none
      | some n => scanNumber n p
    else some (n, c :: p)

theorem le_decimal {n : ℤ} (hn : 0 ≤ n) (ds : List α) : n ≤ decimal n ds := by
  induction ds generalizing n with
  | nil => exact le_refl n
  | cons d ds ih =>
    have h := ih (n := n * 10 + ((code d - 48 : ℕ) : ℤ)) (by omega)
    exact le_trans (by omega) h

theorem scanNumber_eq {n : ℤ} (hn : 0 ≤ n) (hmax : n ≤ INT_MAX) (p : List α) :
    scanNumber n (p ++ [nul]) =
      if decimal n (p.takeWhile isDigit) ≤ INT_MAX then
        some (decimal n (p.takeWhile isDigit), p.dropWhile isDigit ++ [nul])
      else none := by
  induction p generalizing n with
  | nil => simp [scanNumber, isDigit_nul, decimal, hmax]
  | cons c p ih =>
    rw [cons_append, scanNumber, takeWhile_cons, dropWhile_cons]
    by_cases hc : isDigit c
    · rw [if_pos hc, if_pos hc, if_pos hc]
      change _ = if decimal (n * 10 + ((code c - 48 : ℕ) : ℤ)) _ ≤ INT_MAX then
        some (decimal (n * 10 + ((code c - 48 : ℕ) : ℤ)) _, _) else none
      unfold intValue
      split
      · next h =>
        split at h
        · simp at h
        · next hgt =>
          have := le_decimal (n := n * 10 + ((code c - 48 : ℕ) : ℤ)) (by omega)
            (p.takeWhile isDigit)
          rw [if_neg (by omega)]
      · next v h =>
        split at h
        · next hle =>
          cases h
          exact ih (by omega) hle
        · simp at h
    · rw [if_neg hc, if_neg hc, if_neg hc]
      exact (if_pos hmax).symm

section precision

variable [DecidableEq α]

/-- A `.` and the loop behind it. -/
def scanDotNumber : List α → Option (ℤ × List α)
  | [] => none
  | c :: p => if c = lit '.' then scanNumber 0 p else some (-1, c :: p)

/-- The precision at the head of a text, and what follows. -/
def readPrecision (p : List α) : ℤ × List α :=
  if p.head? = some (lit '.') then
    (decimal 0 (p.tail.takeWhile isDigit), p.tail.dropWhile isDigit)
  else (-1, p)

theorem readPrecision_suffix (p : List α) : (readPrecision p).2 <:+ p := by
  unfold readPrecision
  split
  · exact (dropWhile_suffix _).trans (tail_suffix p)
  · exact suffix_refl p

theorem scanDotNumber_eq (p : List α) :
    scanDotNumber (p ++ [nul]) =
      if (readPrecision p).1 ≤ INT_MAX then
        some ((readPrecision p).1, (readPrecision p).2 ++ [nul])
      else none := by
  cases p with
  | nil =>
    rw [nil_append, scanDotNumber, if_neg nul_ne_dot]
    exact (if_pos (by decide : (-1 : ℤ) ≤ INT_MAX)).symm
  | cons c p =>
    rw [cons_append, scanDotNumber, readPrecision, head?_cons]
    by_cases hc : c = lit '.'
    · rw [if_pos hc, if_pos (congrArg some hc)]
      exact scanNumber_eq (le_refl 0) (by decide) p
    · rw [if_neg hc, if_neg fun h => hc (Option.some.inj h)]
      exact (if_pos (by decide : (-1 : ℤ) ≤ INT_MAX)).symm

open Scanner

/-- A pointer that takes the ways of the loops: over a width, and behind a `.` over a precision. -/
theorem within_numbers_iff {Q : Type*} {S : Scanner α Q} {width next : Q} {m : ℕ → α}
    {i b : ℕ} {p : List α} (precision : Q)
    (hwidth : ∀ c, S width c = if isDigit c then some (width, true)
      else if c = lit '.' then some (precision, true) else some (next, false))
    (hprecision : ∀ c, S precision c = if isDigit c then some (precision, true)
      else some (next, false))
    (hp : Lies m i (p ++ [nul])) (hb : i + p.length ≤ b) :
    S.Within m b width i ↔
      S.Within m b next (i + (p.length - (readPrecision (p.dropWhile isDigit)).2.length)) := by
  have hsuf := dropWhile_suffix (l := p) isDigit
  have hle := hsuf.length_le
  have hnot := head?_dropWhile_not isDigit p
  have hp' := hp.suffix hsuf
  rw [within_iff_skip (f := isDigit) (fun c hc => by rw [hwidth, if_pos hc]) hp hb]
  generalize p.dropWhile isDigit = r at hle hnot hp' ⊢
  cases r with
  | nil =>
    have hstep : S width nul = some (next, false) := by
      rw [hwidth, isDigit_nul, if_neg (by decide), if_neg nul_ne_dot]
    exact within_iff_stay (hp'.1.symm ▸ hstep) (by omega)
  | cons c r =>
    have hc : isDigit c = false := hnot
    rw [length_cons] at hle hp' ⊢
    rw [readPrecision, head?_cons]
    by_cases hdot : c = lit '.'
    · have hstep : S width c = some (precision, true) := by
        rw [hwidth, if_neg (by simp [hc]), if_pos hdot]
      have hleave : ∀ c, isDigit c = false → S precision c = some (next, false) :=
        fun c hc => by rw [hprecision, hc, if_neg (by decide)]
      have hr := (dropWhile_suffix (l := r) isDigit).length_le
      rw [within_iff_move (hp'.1.symm ▸ hstep) (by omega),
        within_iff_loop (f := isDigit) (fun c hc => by rw [hprecision, if_pos hc]) hleave
          isDigit_nul hp'.2 (by omega),
        if_pos (congrArg some hdot)]
      dsimp only [tail_cons]
      congr! 1
      omega
    · have hstep : S width c = some (next, false) := by
        rw [hwidth, if_neg (by simp [hc]), if_neg hdot]
      rw [if_neg fun h => hdot (Option.some.inj h)]
      exact within_iff_stay (hp'.1.symm ▸ hstep) (by omega)

end precision

end Vlibc.Printf
