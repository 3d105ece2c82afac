import Mathlib.Order.Basic

/-!
# The first longest run

A scan from the left keeps the first longest run that has ended, and the run that has not: where
that one ends it replaces the other if it is longer (`Longest.merge`), and a position without the
property ends no run (`Longest.succ`).
-/

namespace Vlibc

variable {z : ℕ → Prop} {m b n b' n' c k : ℕ}

/-- The positions from `b` to `b + n` have the property. -/
def Run (z : ℕ → Prop) (b n : ℕ) : Prop := ∀ i, b ≤ i → i < b + n → z i

/-- The first of the longest runs below `m`. If no position has the property this is the empty run at
0. -/
structure Longest (z : ℕ → Prop) (m b n : ℕ) : Prop where
  run : Run z b n
  le : b + n ≤ m
  longest : ∀ b' n', b' + n' ≤ m → Run z b' n' → n' < n ∨ n' = n ∧ b ≤ b'

theorem run_zero (z : ℕ → Prop) (b : ℕ) : Run z b 0 := by
  intro i hi hi'
  omega

theorem longest_zero (z : ℕ → Prop) : Longest z 0 0 0 where
  run := run_zero z 0
  le := Nat.le_refl 0
  longest b' n' hle _ := .inr ⟨by omega, Nat.zero_le b'⟩

theorem Longest.unique (h : Longest z m b n) (h' : Longest z m b' n') : b = b' ∧ n = n' := by
  have hle := h.longest b' n' h'.le h'.run
  have hge := h'.longest b n h.le h.run
  omega

theorem Longest.succ (h : Longest z m b n) (hm : ¬ z m) : Longest z (m + 1) b n where
  run := h.run
  le := Nat.le_succ_of_le h.le
  longest b' n' hle hrun := by
    by_cases hend : b' + n' = m + 1 ∧ n' ≠ 0
    · exact absurd (hrun m (by omega) (by omega)) hm
    · by_cases hn : n' = 0
      · -- an empty run at the new end is one at 0 as well
        have hzero := h.longest 0 0 (Nat.zero_le m) (run_zero z 0)
        omega
      · exact h.longest b' n' (by omega) hrun

theorem Longest.merge (h : Longest z c b n) (hc : c = 0 ∨ ¬ z (c - 1)) (hrun : Run z c k) :
    Longest z (c + k) (if n < k then c else b) (if n < k then k else n) := by
  have hlongest : ∀ b' n', b' + n' ≤ c + k → Run z b' n' →
      (n' < n ∨ n' = n ∧ b ≤ b') ∨ n' ≤ k ∧ c ≤ b' := by
    intro b' n' hle hrun'
    by_cases hend : b' + n' ≤ c
    · exact .inl (h.longest b' n' hend hrun')
    · refine .inr ⟨?_, ?_⟩
      all_goals
        by_contra hbefore
        rcases hc with rfl | hc
        · omega
        · exact hc (hrun' (c - 1) (by omega) (by omega))
  have hle := h.le
  split
  · next hlt =>
    refine ⟨hrun, Nat.le_refl _, ?_⟩
    intro b' n' hle' hrun'
    rcases hlongest b' n' hle' hrun' with h | h <;> omega
  · next hge =>
    refine ⟨h.run, by omega, ?_⟩
    intro b' n' hle' hrun'
    rcases hlongest b' n' hle' hrun' with h | h <;> omega

end Vlibc
