import Mathlib.Data.Nat.Digits.Lemmas

/-!
# Positional notation

Reading digits from the left, `v ↦ v * b + d`, gives the number they stand for (`horner_numeral`).
A reader that must not pass a limit can see before each step whether the step would
(`cut_iff`), with a division made once.
-/

namespace Vlibc

open List Nat

variable {b v d cutoff : ℕ} {ds es : List ℕ}

/-- The number that the digits `ds` make behind digits that make `v`. -/
def horner (b v : ℕ) (ds : List ℕ) : ℕ := ds.foldl (fun v d => v * b + d) v

@[simp] theorem horner_nil : horner b v [] = v := rfl

@[simp] theorem horner_cons : horner b v (d :: ds) = horner b (v * b + d) ds := rfl

theorem horner_append : horner b v (ds ++ es) = horner b (horner b v ds) es :=
  foldl_append

theorem horner_replicate_zero (b n : ℕ) : horner b 0 (List.replicate n 0) = 0 := by
  induction n with
  | zero => rfl
  | succ n ih => simpa [replicate_succ] using ih

theorem le_horner (hb : 0 < b) : v ≤ horner b v ds := by
  induction ds generalizing v with
  | nil => exact le_refl v
  | cons d ds ih =>
    calc v ≤ v * b := Nat.le_mul_of_pos_right v hb
      _ ≤ v * b + d := le_add_right _ _
      _ ≤ horner b v (d :: ds) := ih

theorem horner_modEq {m v' : ℕ} (h : v ≡ v' [MOD m]) (b : ℕ) (ds : List ℕ) :
    horner b v ds ≡ horner b v' ds [MOD m] := by
  induction ds generalizing v v' with
  | nil => exact h
  | cons d ds ih => exact ih ((h.mul_right b).add_right d)

theorem horner_reverse (b : ℕ) (ds : List ℕ) : horner b 0 ds.reverse = Nat.ofDigits b ds := by
  rw [horner, foldl_reverse, ofDigits_eq_foldr]
  congr 1
  funext d v
  simp [mul_comm, add_comm]

theorem horner_eq_add (b v : ℕ) (ds : List ℕ) : horner b v ds = v * b ^ ds.length + horner b 0 ds := by
  induction ds generalizing v with
  | nil => simp
  | cons d ds ih =>
    rw [horner_cons, horner_cons, ih, ih (0 * b + d), length_cons, pow_succ']
    ring

theorem horner_lt (hb : 1 < b) (hds : ∀ d ∈ ds, d < b) : horner b 0 ds < b ^ ds.length := by
  have h := ofDigits_lt_base_pow_length (l := ds.reverse) hb (by simpa using hds)
  rwa [← horner_reverse, reverse_reverse, length_reverse] at h

theorem horner_eq_zero_iff (hb : 0 < b) : horner b v ds = 0 ↔ v = 0 ∧ ∀ d ∈ ds, d = 0 := by
  induction ds generalizing v with
  | nil => simp
  | cons d ds ih =>
    have hb : b ≠ 0 := by omega
    rw [horner_cons, ih, forall_mem_cons, Nat.add_eq_zero_iff, Nat.mul_eq_zero, or_iff_left hb,
      and_assoc]

/-- The digits of a number, the last one first. There is at least one. -/
def numeral (b n : ℕ) : List ℕ := if n = 0 then [0] else Nat.digits b n

theorem horner_numeral (b n : ℕ) : horner b 0 (numeral b n).reverse = n := by
  rw [horner_reverse, numeral]
  split
  · next h => simp [h]
  · exact ofDigits_digits b n

theorem lt_of_mem_numeral (hb : 1 < b) {n : ℕ} (h : d ∈ numeral b n) : d < b := by
  unfold numeral at h
  split at h
  · rw [mem_singleton] at h
    omega
  · exact digits_lt_base hb h

theorem numeral_ne_nil (b n : ℕ) : numeral b n ≠ [] := by
  unfold numeral
  split
  · simp
  · next h => exact digits_ne_nil_iff_ne_zero.2 h

theorem length_numeral_le (hb : 1 < b) {n width : ℕ} (hwidth : 0 < width) (hn : n < b ^ width) :
    (numeral b n).length ≤ width := by
  unfold numeral
  split
  · exact hwidth
  · exact (digits_length_le_iff hb n).2 hn

theorem numeral_eq (hb : 1 < b) (n : ℕ) :
    numeral b n = n % b :: if n / b = 0 then [] else numeral b (n / b) := by
  unfold numeral
  by_cases hn : n = 0
  · simp [hn]
  · rw [if_neg hn, digits_def' hb (pos_of_ne_zero hn)]
    congr 1
    split
    · next h => rw [h, digits_zero]
    · rfl

theorem cut_iff (hd : d < b) :
    cutoff / b < v ∨ v = cutoff / b ∧ cutoff % b < d ↔ cutoff < v * b + d := by
  have hsplit := div_add_mod cutoff b
  have hmod := mod_lt cutoff (zero_lt_of_lt hd)
  generalize cutoff / b = q at hsplit ⊢
  generalize cutoff % b = r at hsplit hmod ⊢
  rcases lt_trichotomy v q with hlt | rfl | hgt
  · have h : (v + 1) * b ≤ q * b := mul_le_mul_right b hlt
    rw [add_mul, one_mul] at h
    rw [mul_comm b q] at hsplit
    omega
  · rw [mul_comm b v] at hsplit
    omega
  · have h : (q + 1) * b ≤ v * b := mul_le_mul_right b hgt
    rw [add_mul, one_mul] at h
    rw [mul_comm b q] at hsplit
    omega

end Vlibc
