import Vlibc.Foundations.ByteMemory

/-!
# Byte loops

The byte-wise loops of `memory_ops.c`. They write only the destination range (`vmemset_eq`,
`copyUp_of_not`); a forward copy puts byte `i` of the source at byte `i` of the destination as long
as that source byte has not been overwritten on the way (`copyUp_add`). The pointer of `vmemset`
wraps at `2 ^ 64`.
-/

namespace Vlibc.Memory

open ByteMemory Function

/-- `while (n--) *p++ = (unsigned char)c`. -/
def vmemset (m : Mem) (p : ℕ) (c : UInt8) : ℕ → Mem
  | 0 => m
  | n + 1 => vmemset (Function.update m p c) ((p + 1) % 2 ^ 64) c n

theorem vmemset_eq (m : Mem) {p : ℕ} (c : UInt8) {n : ℕ} (h : p + n < 2 ^ 64) :
    vmemset m p c n = patch m p n fun _ => c := by
  induction n generalizing m p with
  | zero => funext x; simp [vmemset, patch]
  | succ n ih =>
    rw [vmemset, Nat.mod_eq_of_lt (by omega), ih _ (by omega)]
    funext x
    by_cases hx : x = p
    · subst hx
      rw [patch_of_not _ _ _ _ (by omega), update_self, patch, if_pos (by omega)]
    · by_cases hr : p + 1 ≤ x ∧ x < p + 1 + n
      · rw [patch, if_pos hr, patch, if_pos (by omega)]
      · rw [patch, if_neg hr, update_of_ne hx, patch, if_neg (by omega)]

theorem vmemset_add (m : Mem) {p : ℕ} (c : UInt8) {n i : ℕ} (h : p + n < 2 ^ 64) (hi : i < n) :
    vmemset m p c n (p + i) = c := by
  rw [vmemset_eq m c h, patch_add m p n _ hi]

/-- The bytes from the `k`th to the `n`th from `p` on are set, if there are such, and no others. -/
theorem vmemset_rest_of_not (m : Mem) (c : UInt8) {p k n x : ℕ} (hend : p + n < 2 ^ 64)
    (hx : x < p + k ∨ p + n ≤ x) : vmemset m (p + k) c (n - k) x = m x := by
  by_cases hle : k ≤ n
  · rw [vmemset_eq _ _ (by omega)]
    exact patch_of_not _ _ _ _ (by omega)
  · rw [Nat.sub_eq_zero_of_le (by omega)]
    rfl

/-- A byte that has been set stays set. -/
theorem vmemset_of_eq {m : Mem} {c : UInt8} {x : ℕ} (h : m x = c) (p n : ℕ) :
    vmemset m p c n x = c := by
  induction n generalizing m p with
  | zero => exact h
  | succ n ih =>
    refine ih ?_ _
    rw [update_apply, h, ite_self]

/-- **A range that wraps**: every address is set that is less than `n` bytes behind `p`, counted
modulo `2 ^ 64`. -/
theorem vmemset_of_mod_lt (m : Mem) {p : ℕ} (c : UInt8) {n x : ℕ} (hp : p < 2 ^ 64)
    (hx : x < 2 ^ 64) (h : (x + (2 ^ 64 - p)) % 2 ^ 64 < n) : vmemset m p c n x = c := by
  induction n generalizing m p with
  | zero => omega
  | succ n ih =>
    rcases eq_or_ne x p with rfl | hne
    · exact vmemset_of_eq (update_self ..) _ _
    · exact ih _ (Nat.mod_lt _ (by decide)) (by omega)

variable {α : Type*}

/-- `while (n--) *d++ = *s++`. -/
def copyUp (m : ℕ → α) (d s : ℕ) : ℕ → ℕ → α
  | 0 => m
  | n + 1 => copyUp (Function.update m d (m s)) (d + 1) (s + 1) n

theorem copyUp_of_not (m : ℕ → α) (d s n : ℕ) {x : ℕ} (hx : x < d ∨ d + n ≤ x) :
    copyUp m d s n x = m x := by
  induction n generalizing m d s with
  | zero => rfl
  | succ n ih => rw [copyUp, ih _ _ _ (by omega), update_of_ne (by omega)]

/-- **A forward copy**: with the source not below the destination, or source byte `i` still below
it, byte `i` arrives. -/
theorem copyUp_add (m : ℕ → α) {d s n i : ℕ} (hi : i < n) (h : d ≤ s ∨ s + i < d) :
    copyUp m d s n (d + i) = m (s + i) := by
  induction n generalizing m d s i with
  | zero => omega
  | succ n ih =>
    rw [copyUp]
    rcases i with _ | i
    · rw [copyUp_of_not _ _ _ _ (by omega), add_zero, update_self, add_zero]
    · rw [show d + (i + 1) = d + 1 + i by omega, ih _ (by omega) (by omega),
        update_of_ne (by omega), show s + (i + 1) = s + 1 + i by omega]

/-- `vmemcpy`. -/
def vmemcpy (m : Mem) (dest src n : ℕ) : Mem := copyUp m dest src n

/-! ## `vmemmove` and `wmemmove`

Both copy upwards if the destination is below the source, and downwards otherwise, so that a cell of
the source is read before it is overwritten. The memory after the call is the one before it with the
source as it was in place of the destination (`snapshot`). -/

variable (m : ℕ → α) {d s : ℕ} (n : ℕ)

/-- `while (n--) *--d = *--s`, from `n` cells behind the starts on. -/
def copyDown (m : ℕ → α) (d s : ℕ) : ℕ → ℕ → α
  | 0 => m
  | n + 1 => copyDown (Function.update m (d + n) (m (s + n))) d s n

/-- What `vmemmove` and `wmemmove` do with the cells of a memory. -/
def move (m : ℕ → α) (dest src n : ℕ) : ℕ → α :=
  if dest = src ∨ n = 0 then m
  else if dest < src then copyUp m dest src n
  else copyDown m dest src n

/-- `vmemmove`. -/
def vmemmove (m : ℕ → UInt8) (dest src n : ℕ) : ℕ → UInt8 := move m dest src n

/-- `wmemmove`. -/
def wmemmove (m : ℕ → BitVec 32) (dest src n : ℕ) : ℕ → BitVec 32 := move m dest src n

/-- The memory in which the `n` cells from `d` on are those that were at `s`. -/
def snapshot (m : ℕ → α) (d s n : ℕ) : ℕ → α := fun x =>
  if d ≤ x ∧ x < d + n then m (s + (x - d)) else m x

theorem copyUp_eq (h : d ≤ s) : copyUp m d s n = snapshot m d s n := by
  funext x
  rw [snapshot]
  split_ifs with hx
  · obtain ⟨i, rfl⟩ := Nat.exists_eq_add_of_le hx.1
    rw [copyUp_add m (by omega) (.inl h), Nat.add_sub_cancel_left]
  · exact copyUp_of_not m d s n (by omega)

theorem copyDown_eq (h : s ≤ d) : copyDown m d s n = snapshot m d s n := by
  induction n generalizing m with
  | zero => funext x; rw [copyDown, snapshot, if_neg (by omega)]
  | succ n ih =>
    rw [copyDown, ih]
    funext x
    -- the cells that are read from now on are below the one that has been written
    by_cases hx : d ≤ x ∧ x < d + n
    · rw [snapshot, if_pos hx, snapshot, if_pos (by omega), update_of_ne (by omega)]
    · rw [snapshot, if_neg hx, snapshot]
      rcases eq_or_ne x (d + n) with rfl | hne
      · rw [update_self, if_pos (by omega), Nat.add_sub_cancel_left]
      · rw [update_of_ne hne, if_neg (by omega)]

theorem move_eq (d s : ℕ) : move m d s n = snapshot m d s n := by
  rw [move]
  split_ifs with hsame hlt
  · funext x
    rcases hsame with rfl | rfl
    · rw [snapshot]
      split_ifs with hx
      · rw [Nat.add_sub_cancel' hx.1]
      · rfl
    · rw [snapshot, if_neg (by omega)]
  · exact copyUp_eq m n (Nat.le_of_lt hlt)
  · exact copyDown_eq m n (Nat.le_of_not_lt hlt)

/-- The destination holds what the source held before, and every other cell what it held. -/
structure IsMoved (before after : ℕ → α) (d s n : ℕ) : Prop where
  moved : ∀ i < n, after (d + i) = before (s + i)
  kept : ∀ x, x < d ∨ d + n ≤ x → after x = before x

theorem isMoved_move (d s : ℕ) : IsMoved m (move m d s n) d s n where
  moved i hi := by rw [move_eq, snapshot, if_pos (by omega), Nat.add_sub_cancel_left]
  kept x hx := by rw [move_eq, snapshot, if_neg (by omega)]

/-- **Overlapping moves are snapshot copies**, wherever the two regions lie. -/
theorem memmove_snapshot (d s n : ℕ) :
    (∀ m, IsMoved m (vmemmove m d s n) d s n) ∧ ∀ m, IsMoved m (wmemmove m d s n) d s n :=
  ⟨fun m => isMoved_move m n d s, fun m => isMoved_move m n d s⟩

end Vlibc.Memory
