import Mathlib.Dynamics.PeriodicPts.Lemmas
import Mathlib.Tactic.Ring

/-!
# Linear congruential generators

A step multiplies by `a`, adds `c` and keeps the lowest bits. When `a` is `1` modulo `4` and `c` is
odd, every state comes back after as many steps as there are states, and not before
(`minimalPeriod_step`).
-/

namespace Vlibc.Congruential

open Function Nat Finset

/-- A step on `k` bits. -/
def step (a c k x : ℕ) : ℕ := (a * x + c) % 2 ^ k

variable {a c k x : ℕ}

theorem step_lt : step a c k x < 2 ^ k := mod_lt _ (Nat.two_pow_pos k)

theorem step_mod : step a c k (x % 2 ^ k) = step a c k x := by
  simp only [step, add_mod, mul_mod, mod_mod]

theorem iterate_step_lt {n : ℕ} (hn : 0 < n ∨ x < 2 ^ k) : (step a c k)^[n] x < 2 ^ k := by
  cases n with
  | zero => exact hn.resolve_left (lt_irrefl 0)
  | succ n =>
    rw [iterate_succ_apply']
    exact step_lt

/-- The bits may also be dropped after the last step only. -/
theorem iterate_step (hx : x < 2 ^ k) (n : ℕ) :
    (step a c k)^[n] x = (fun x => a * x + c)^[n] x % 2 ^ k := by
  induction n with
  | zero => exact (mod_eq_of_lt hx).symm
  | succ n ih => rw [iterate_succ_apply', iterate_succ_apply', ih, step_mod, step]

/-- What `2 ^ j` steps do before any bit is dropped. -/
theorem exists_iterate_two_pow (ha : a % 4 = 1) (hc : c % 2 = 1) (j : ℕ) : ∃ t s, ∀ x,
    (fun x => a * x + c)^[2 ^ j] x = x + 2 ^ (j + 2) * (t * x) + 2 ^ j * (2 * s + 1) := by
  induction j with
  | zero =>
    refine ⟨a / 4, c / 2, fun x => ?_⟩
    have ha : a = 1 + 4 * (a / 4) := by omega
    have hc : c = 2 * (c / 2) + 1 := by omega
    calc a * x + c = (1 + 4 * (a / 4)) * x + (2 * (c / 2) + 1) := by rw [← ha, ← hc]
      _ = _ := by ring
  | succ j ih =>
    obtain ⟨t, s, h⟩ := ih
    refine ⟨t + 2 ^ (j + 1) * t * t, s + 2 ^ j * t * (2 * s + 1), fun x => ?_⟩
    rw [pow_succ, mul_two, iterate_add_apply, h, h]
    ring

theorem minimalPeriod_step (ha : a % 4 = 1) (hc : c % 2 = 1) (hx : x < 2 ^ (k + 1)) :
    minimalPeriod (step a c (k + 1)) x = 2 ^ (k + 1) := by
  have : Fact (Nat.Prime 2) := ⟨prime_two⟩
  apply minimalPeriod_eq_prime_pow
  · intro hper
    obtain ⟨t, s, h⟩ := exists_iterate_two_pow ha hc k
    have hper : (step a c (k + 1))^[2 ^ k] x = x := hper
    -- Half the states further the highest bit differs.
    have hform : x + 2 ^ (k + 2) * (t * x) + 2 ^ k * (2 * s + 1) =
        x + 2 ^ k + 2 ^ (k + 1) * (2 * (t * x) + s) := by ring
    rw [iterate_step hx, h, hform, add_mul_mod_self_left] at hper
    rw [pow_succ] at hx hper
    have hpos := Nat.two_pow_pos k
    rcases lt_or_ge (x + 2 ^ k) (2 ^ k * 2) with hlt | hge
    · rw [mod_eq_of_lt hlt] at hper
      omega
    · rw [mod_eq_sub_mod hge, mod_eq_of_lt (by omega)] at hper
      omega
  · obtain ⟨t, s, h⟩ := exists_iterate_two_pow ha hc (k + 1)
    have hform : x + 2 ^ (k + 1 + 2) * (t * x) + 2 ^ (k + 1) * (2 * s + 1) =
        x + 2 ^ (k + 1) * (4 * (t * x) + 2 * s + 1) := by ring
    change (step a c (k + 1))^[2 ^ (k + 1)] x = x
    rw [iterate_step hx, h, hform, add_mul_mod_self_left, mod_eq_of_lt hx]

/-- A point whose period is the number of states meets every state once in a period. -/
theorem card_filter_orbit {f : ℕ → ℕ} {N : ℕ} (hper : minimalPeriod f x = N)
    (hlt : ∀ n, f^[n] x < N) (P : ℕ → Prop) [DecidablePred P] :
    ((Finset.range N).filter fun n => P (f^[n] x)).card = ((Finset.range N).filter P).card := by
  have hinj : Set.InjOn (fun n => f^[n] x) (Finset.range N) := by
    rw [coe_range, ← hper]
    exact iterate_injOn_Iio_minimalPeriod
  have himage : (Finset.range N).image (fun n => f^[n] x) = Finset.range N := by
    refine eq_of_subset_of_card_le ?_ (Finset.card_image_of_injOn hinj).ge
    exact image_subset_iff.2 fun n _ => mem_range.2 (hlt n)
  rw [← Finset.card_image_of_injOn (hinj.mono (coe_subset.2 (filter_subset _ _))),
    ← filter_image, himage]

end Vlibc.Congruential
