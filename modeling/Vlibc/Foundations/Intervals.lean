import Mathlib.Tactic.Ring

/-!
# Consecutive intervals

A loop that adds up lengths computes where an interval begins (`covered`); a loop that takes whole
intervals off a distance ends with the interval in which the distance ends, and with what is left of
it (`takeOff_eq`).
-/

namespace Vlibc

variable {len : ℤ → ℤ} {i n r : ℤ} {k fuel : ℕ}

/-- The length of `k` intervals, from the `i`-th on. -/
def covered (len : ℤ → ℤ) (i : ℤ) : ℕ → ℤ
  | 0 => 0
  | k + 1 => covered len i k + len (i + k)

@[simp] theorem covered_zero : covered len i 0 = 0 := rfl

theorem covered_succ (len : ℤ → ℤ) (i : ℤ) (k : ℕ) :
    covered len i (k + 1) = covered len i k + len (i + k) := rfl

theorem covered_succ_left (len : ℤ → ℤ) (i : ℤ) (k : ℕ) :
    covered len i (k + 1) = len i + covered len (i + 1) k := by
  induction k with
  | zero => simp [covered]
  | succ k ih =>
    rw [covered_succ len i (k + 1), ih, covered_succ len (i + 1) k, add_assoc,
      show i + ((k + 1 : ℕ) : ℤ) = i + 1 + k by push_cast; ring]

theorem covered_nonneg (h : ∀ j < k, 0 ≤ len (i + j)) : 0 ≤ covered len i k := by
  induction k with
  | zero => exact le_rfl
  | succ k ih =>
    exact Int.add_nonneg (ih fun j hj => h j (Nat.lt_succ_of_lt hj)) (h k (Nat.lt_succ_self k))

theorem le_covered (h : ∀ j < k, 1 ≤ len (i + j)) : (k : ℤ) ≤ covered len i k := by
  induction k with
  | zero => exact le_rfl
  | succ k ih =>
    have hk := h k (Nat.lt_succ_self k)
    have ih := ih fun j hj => h j (Nat.lt_succ_of_lt hj)
    rw [covered_succ]
    omega

/-- The beginnings of the intervals are known if each one is the end of the one before. -/
theorem covered_eq {start : ℤ → ℤ} (h : ∀ j, start (j + 1) = start j + len j) (i : ℤ) (k : ℕ) :
    covered len i k = start (i + k) - start i := by
  induction k with
  | zero => simp
  | succ k ih =>
    rw [covered_succ, ih, show i + ((k + 1 : ℕ) : ℤ) = i + k + 1 by push_cast; ring, h]
    ring

theorem foldl_range_eq_covered (len : ℤ → ℤ) (i a : ℤ) (k : ℕ) :
    (List.range k).foldl (fun s (j : ℕ) => s + len (i + j)) a = a + covered len i k := by
  induction k with
  | zero => simp
  | succ k ih => rw [List.range_succ, List.foldl_append, ih, covered_succ, ← add_assoc]; rfl

/-- The loop that takes whole intervals off. -/
def takeOff (len : ℤ → ℤ) : (fuel : ℕ) → (i n : ℤ) → ℤ × ℤ
  | 0, i, n => (i, n)
  | fuel + 1, i, n => if len i ≤ n then takeOff len fuel (i + 1) (n - len i) else (i, n)

theorem takeOff_eq (hlen : ∀ j < k, 0 ≤ len (i + j)) (hn : n = covered len i k + r) (hr : 0 ≤ r)
    (hlt : r < len (i + k)) (hf : k < fuel) : takeOff len fuel i n = (i + k, r) := by
  induction k generalizing i n fuel with
  | zero =>
    obtain _ | fuel := fuel
    · omega
    simp only [covered_zero, zero_add, Nat.cast_zero, add_zero] at hn hlt ⊢
    rw [takeOff, hn, if_neg (by omega)]
  | succ k ih =>
    obtain _ | fuel := fuel
    · omega
    have hnext (j : ℕ) : i + 1 + j = i + ((j + 1 : ℕ) : ℤ) := by
      push_cast
      ring
    have hrest : ∀ j < k, 0 ≤ len (i + 1 + j) := fun j hj => by
      rw [hnext]
      exact hlen (j + 1) (Nat.succ_lt_succ hj)
    have hpos := covered_nonneg hrest
    rw [covered_succ_left] at hn
    rw [takeOff, if_pos (by omega), ← hnext]
    exact ih hrest (by omega) (by rwa [hnext]) (by omega)

theorem exists_covered (hn : 0 ≤ n) (hlt : n < covered len i k) :
    ∃ j < k, ∃ r, 0 ≤ r ∧ r < len (i + j) ∧ n = covered len i j + r := by
  induction k with
  | zero => exact absurd hn (not_le.2 hlt)
  | succ k ih =>
    by_cases hbefore : n < covered len i k
    · obtain ⟨j, hj, hr⟩ := ih hbefore
      exact ⟨j, Nat.lt_succ_of_lt hj, hr⟩
    · rw [covered_succ] at hlt
      exact ⟨k, Nat.lt_succ_self k, n - covered len i k, by omega, by omega, by ring⟩

end Vlibc
