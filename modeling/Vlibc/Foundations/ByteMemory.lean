import Mathlib.Data.List.GetD
import Mathlib.Tactic.Ring

/-!
# Byte memories

A memory is a total function from addresses to bytes.

* Little-endian words: `loadLE m a n` is the value of the `n` bytes from `a` on, `storeLE` writes
  one. A load sees a store at the same place (`loadLE_storeLE`) and no store elsewhere
  (`loadLE_storeLE_of_apart`), and a wide load splits into two narrow ones (`loadLE_add`).
* Footprints: `patch` overwrites a byte range (`patch_add`) and leaves every other byte as it is
  (`patch_of_not`); `Apart` is disjointness of two byte ranges.
-/

namespace Vlibc.ByteMemory

open List

/-- A memory of bytes. -/
abbrev Mem := ℕ → UInt8

/-- The byte range `[a, a + n)` lies entirely below or entirely above `[b, b + k)`. -/
def Apart (a n b k : ℕ) : Prop := a + n ≤ b ∨ b + k ≤ a

variable {a n b k : ℕ}

theorem Apart.symm (h : Apart a n b k) : Apart b k a n := Or.symm h

/-- Overwrite the `n` bytes from `a` on; `f` gives them by their offset. -/
def patch (m : Mem) (a n : ℕ) (f : ℕ → UInt8) : Mem := fun x =>
  if a ≤ x ∧ x < a + n then f (x - a) else m x

theorem patch_add (m : Mem) (a n : ℕ) (f : ℕ → UInt8) {i : ℕ} (hi : i < n) :
    patch m a n f (a + i) = f i := by
  rw [patch, if_pos (by omega), Nat.add_sub_cancel_left]

theorem patch_of_not (m : Mem) (a n : ℕ) (f : ℕ → UInt8) {x : ℕ} (hx : x < a ∨ a + n ≤ x) :
    patch m a n f x = m x := by
  rw [patch, if_neg (by omega)]

@[simp] theorem patch_zero (m : Mem) (a : ℕ) (f : ℕ → UInt8) : patch m a 0 f = m :=
  funext fun _ => patch_of_not m a 0 f (by omega)

theorem patch_one (m : Mem) (a : ℕ) (f : ℕ → UInt8) : patch m a 1 f = Function.update m a (f 0) := by
  funext x
  rcases eq_or_ne x a with rfl | hx
  · rw [Function.update_self]
    exact patch_add m x 1 f (i := 0) one_pos
  · rw [Function.update_of_ne hx, patch_of_not m a 1 f (by omega)]

theorem patch_append (m : Mem) (a : ℕ) (l r : List UInt8) :
    patch m a (l ++ r).length (fun i => (l ++ r).getD i 0) =
      patch (patch m a l.length fun i => l.getD i 0) (a + l.length) r.length
        fun i => r.getD i 0 := by
  funext x
  unfold patch
  rw [length_append]
  by_cases hx : x < a + l.length
  · rw [if_neg (by omega : ¬ (a + l.length ≤ x ∧ x < a + l.length + r.length))]
    by_cases ha : a ≤ x
    · rw [if_pos ⟨ha, by omega⟩, if_pos ⟨ha, hx⟩]
      exact getD_append l r 0 (x - a) (by omega)
    · rw [if_neg (by omega), if_neg (by omega)]
  · rw [if_neg (by omega : ¬ (a ≤ x ∧ x < a + l.length))]
    by_cases hend : x < a + l.length + r.length
    · rw [if_pos ⟨by omega, by omega⟩, if_pos ⟨by omega, hend⟩, Nat.sub_add_eq]
      exact getD_append_right l r 0 (x - a) (by omega)
    · rw [if_neg (by omega), if_neg (by omega)]

/-! ## Little-endian words -/

/-- The value of the `n` bytes from `a` on, the lowest address least significant. -/
def loadLE (m : Mem) (a : ℕ) : ℕ → ℕ
  | 0 => 0
  | n + 1 => (m a).toNat + 256 * loadLE m (a + 1) n

/-- Write `v` into the `n` bytes from `a` on. -/
def storeLE (m : Mem) (a n v : ℕ) : Mem := patch m a n fun i => UInt8.ofNat (v / 256 ^ i)

@[simp] theorem loadLE_zero (m : Mem) (a : ℕ) : loadLE m a 0 = 0 := rfl

theorem loadLE_succ (m : Mem) (a n : ℕ) :
    loadLE m a (n + 1) = (m a).toNat + 256 * loadLE m (a + 1) n := rfl

theorem loadLE_congr {m m' : Mem} {a n : ℕ} (h : ∀ x, a ≤ x → x < a + n → m' x = m x) :
    loadLE m' a n = loadLE m a n := by
  induction n generalizing a with
  | zero => rfl
  | succ n ih =>
    rw [loadLE_succ, loadLE_succ, h a le_rfl (by omega), ih fun x h₁ h₂ => h x (by omega) (by omega)]

theorem loadLE_lt (m : Mem) (a n : ℕ) : loadLE m a n < 256 ^ n := by
  induction n generalizing a with
  | zero => simp
  | succ n ih =>
    have h₁ := (m a).toNat_lt
    have h₂ := ih (a + 1)
    rw [loadLE_succ, pow_succ]
    omega

theorem loadLE_add (m : Mem) (a k l : ℕ) :
    loadLE m a (k + l) = loadLE m a k + 256 ^ k * loadLE m (a + k) l := by
  induction k generalizing a with
  | zero => simp
  | succ k ih =>
    rw [show k + 1 + l = (k + l) + 1 by omega, loadLE_succ, loadLE_succ, ih,
      show a + 1 + k = a + (k + 1) by omega]
    ring

theorem loadLE_add_mod (m : Mem) (a k l : ℕ) : loadLE m a (k + l) % 256 ^ k = loadLE m a k := by
  rw [loadLE_add, Nat.add_mul_mod_self_left, Nat.mod_eq_of_lt (loadLE_lt m a k)]

theorem loadLE_of_digits {m : Mem} {a n v : ℕ}
    (h : ∀ i < n, m (a + i) = UInt8.ofNat (v / 256 ^ i)) : loadLE m a n = v % 256 ^ n := by
  induction n generalizing a v with
  | zero => simp [Nat.mod_one]
  | succ n ih =>
    have h₀ : m a = UInt8.ofNat v := by simpa using h 0 (by omega)
    have ht : loadLE m (a + 1) n = v / 256 % 256 ^ n := by
      refine ih fun i hi => ?_
      rw [show a + 1 + i = a + (i + 1) by omega, h (i + 1) (by omega), Nat.div_div_eq_div_mul,
        pow_succ']
    have hv : (UInt8.ofNat v).toNat = v % 256 := by simp
    rw [loadLE_succ, h₀, ht, hv, pow_succ', Nat.mod_mul]

theorem loadLE_storeLE (m : Mem) (a n v : ℕ) : loadLE (storeLE m a n v) a n = v % 256 ^ n :=
  loadLE_of_digits fun _ hi => patch_add m a n _ hi

theorem loadLE_storeLE_of_lt (m : Mem) (a : ℕ) {n v : ℕ} (hv : v < 256 ^ n) :
    loadLE (storeLE m a n v) a n = v := by
  rw [loadLE_storeLE, Nat.mod_eq_of_lt hv]

theorem loadLE_patch_of_apart (m : Mem) (f : ℕ → UInt8) (h : Apart a n b k) :
    loadLE (patch m a n f) b k = loadLE m b k := by
  refine loadLE_congr fun x h₁ h₂ => patch_of_not m a n f ?_
  rcases h with h | h <;> omega

theorem loadLE_storeLE_of_apart (m : Mem) (v : ℕ) (h : Apart a n b k) :
    loadLE (storeLE m a n v) b k = loadLE m b k :=
  loadLE_patch_of_apart m _ h

theorem storeLE_of_not (m : Mem) (a n v : ℕ) {x : ℕ} (hx : x < a ∨ a + n ≤ x) :
    storeLE m a n v x = m x :=
  patch_of_not m a n _ hx

end Vlibc.ByteMemory
