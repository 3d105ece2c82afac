import Vlibc.Foundations.Regular

/-!
# Backtracking

A backtracking matcher tries the numbers of repetitions of an item in a fixed order (`order`) and
takes the first for which the rest matches (`firstLength`). Tried at one index after the other it
finds the least one at which there is a match (`firstIndex_eq_some_iff`).

A matcher that counts the length of its match in a variable that failed attempts share counts too
much if an attempt that fails leaves behind what it has counted; `extra` is how much.
-/

namespace Vlibc

open List Option

variable {α : Type*} {r : Rep} {es : List (Elem α)} {pos n m : ℕ} {text : List α}

/-- The numbers from `low + k - 1` down to `low`. -/
def downTo (low : ℕ) : (k : ℕ) → List ℕ
  | 0 => []
  | k + 1 => (k + low) :: downTo low k

theorem mem_downTo {low k m : ℕ} : m ∈ downTo low k ↔ low ≤ m ∧ m < low + k := by
  induction k with
  | zero =>
    simp only [downTo, not_mem_nil, false_iff]
    omega
  | succ k ih =>
    rw [downTo, mem_cons, ih]
    omega

/-- The numbers of repetitions in the order in which they are tried, for a run of length `n`. -/
def order : Rep → (n : ℕ) → List ℕ
  | .one, n => if n = 0 then [] else [1]
  | .opt, n => if n = 0 then [0] else [0, 1]
  | .star, n => downTo 0 (n + 1)
  | .plus, n => downTo 1 n

theorem mem_order : m ∈ order r n ↔ m ≤ n ∧ r.Allows m := by
  cases r with
  | one =>
    rw [order, Rep.Allows]
    split_ifs with hn
    · exact iff_of_false not_mem_nil (by omega)
    · rw [mem_singleton]
      omega
  | opt =>
    rw [order, Rep.Allows]
    split_ifs with hn
    · rw [mem_singleton]
      omega
    · rw [mem_cons, mem_singleton]
      omega
  | star =>
    rw [order, mem_downTo, Rep.Allows, and_true]
    omega
  | plus =>
    rw [order, mem_downTo, Rep.Allows]
    omega

/-- The length of the first match at `pos`, in the order in which a backtracking matcher tries them.
-/
def firstLength : List (Elem α) → (pos : ℕ) → (text : List α) → Option ℕ
  | [], _, _ => some 0
  | .bol :: es, pos, text => if pos = 0 then firstLength es pos text else none
  | .eol :: es, pos, text => if text = [] then firstLength es pos text else none
  | .item p r :: es, pos, text =>
    (order r (run p text)).findSome? fun m => (firstLength es (pos + m) (text.drop m)).map (m + ·)

theorem spans_of_firstLength (h : firstLength es pos text = some n) : Spans es pos text n := by
  induction es generalizing pos text n with
  | nil => exact (some.inj h).symm
  | cons e es ih =>
    cases e with
    | bol =>
      rw [firstLength] at h
      split_ifs at h with hpos
      exact ⟨hpos, ih h⟩
    | eol =>
      rw [firstLength] at h
      split_ifs at h with htext
      exact ⟨htext, ih h⟩
    | item p r =>
      obtain ⟨m, hm, hsome⟩ := exists_of_findSome?_eq_some h
      obtain ⟨n', hn', rfl⟩ := map_eq_some_iff.1 hsome
      obtain ⟨hle, hallows⟩ := mem_order.1 hm
      exact ⟨m, hle, hallows, n', rfl, ih hn'⟩

/-- **A match is found if there is one.** -/
theorem firstLength_isSome_iff : (firstLength es pos text).isSome ↔ ∃ n, Spans es pos text n := by
  constructor
  · intro h
    obtain ⟨n, hn⟩ := isSome_iff_exists.1 h
    exact ⟨n, spans_of_firstLength hn⟩
  · rintro ⟨n, h⟩
    induction es generalizing pos text n with
    | nil => rfl
    | cons e es ih =>
      cases e with
      | bol | eol =>
        rw [firstLength, if_pos h.1]
        exact ih n h.2
      | item p r =>
        obtain ⟨m, hm, hallows, n', rfl, hn'⟩ := h
        rw [firstLength, findSome?_isSome_iff]
        refine ⟨m, mem_order.2 ⟨hm, hallows⟩, ?_⟩
        rw [isSome_map]
        exact ih n' hn'

/-! ## The first index -/

/-- The first index from `pos` on at which there is a match. -/
def firstIndex (es : List (Elem α)) : (pos : ℕ) → (text : List α) → Option ℕ
  | pos, [] => if (firstLength es pos []).isSome then some pos else none
  | pos, c :: text =>
    if (firstLength es pos (c :: text)).isSome then some pos else firstIndex es (pos + 1) text

/-- The indices at which the sequence matches, in a text that stands at `pos`. -/
def matchIndices (es : List (Elem α)) (pos : ℕ) (text : List α) : Set ℕ :=
  {i | pos ≤ i ∧ i ≤ pos + text.length ∧ ∃ n, Spans es i (text.drop (i - pos)) n}

theorem matchIndices_cons (c : α) (h : firstLength es pos (c :: text) = none) :
    matchIndices es pos (c :: text) = matchIndices es (pos + 1) text := by
  ext i
  constructor
  · rintro ⟨hle, hlt, hspans⟩
    have hne : i ≠ pos := by
      rintro rfl
      rw [Nat.sub_self, drop_zero, ← firstLength_isSome_iff, h] at hspans
      exact (nomatch hspans)
    rw [show i - pos = (i - (pos + 1)) + 1 by omega, drop_succ_cons] at hspans
    rw [length_cons] at hlt
    exact ⟨by omega, by omega, hspans⟩
  · rintro ⟨hle, hlt, hspans⟩
    refine ⟨by omega, by rw [length_cons]; omega, ?_⟩
    rwa [show i - pos = (i - (pos + 1)) + 1 by omega, drop_succ_cons]

theorem isLeast_matchIndices (h : (firstLength es pos text).isSome) :
    IsLeast (matchIndices es pos text) pos := by
  refine ⟨⟨le_rfl, Nat.le_add_right _ _, ?_⟩, fun j hj => hj.1⟩
  rwa [Nat.sub_self, drop_zero, ← firstLength_isSome_iff]

theorem isLeast_of_firstIndex {i : ℕ} (h : firstIndex es pos text = some i) :
    IsLeast (matchIndices es pos text) i := by
  induction text generalizing pos with
  | nil =>
    rw [firstIndex] at h
    split_ifs at h with hsome
    cases h
    exact isLeast_matchIndices hsome
  | cons c text ih =>
    rw [firstIndex] at h
    split_ifs at h with hsome
    · cases h
      exact isLeast_matchIndices hsome
    · rw [matchIndices_cons c (not_isSome_iff_eq_none.1 hsome)]
      exact ih h

theorem matchIndices_of_firstIndex (h : firstIndex es pos text = none) :
    matchIndices es pos text = ∅ := by
  induction text generalizing pos with
  | nil =>
    rw [firstIndex] at h
    split_ifs at h with hsome
    refine Set.eq_empty_of_forall_notMem ?_
    rintro i ⟨hle, hlt, hspans⟩
    obtain rfl : i = pos := le_antisymm hlt hle
    rw [Nat.sub_self, drop_zero, ← firstLength_isSome_iff] at hspans
    exact hsome hspans
  | cons c text ih =>
    rw [firstIndex] at h
    split_ifs at h with hsome
    rw [matchIndices_cons c (not_isSome_iff_eq_none.1 hsome)]
    exact ih h

theorem firstIndex_eq_some_iff {i : ℕ} :
    firstIndex es pos text = some i ↔ IsLeast (matchIndices es pos text) i := by
  refine ⟨isLeast_of_firstIndex, fun h => ?_⟩
  cases hfirst : firstIndex es pos text with
  | none =>
    rw [matchIndices_of_firstIndex hfirst] at h
    exact h.1.elim
  | some j => rw [(isLeast_of_firstIndex hfirst).unique h]

theorem firstIndex_bol : firstIndex (.bol :: es) 0 text = (firstLength es 0 text).map fun _ => 0 := by
  have hnone (pos : ℕ) (text : List α) : firstIndex (.bol :: es) (pos + 1) text = none := by
    induction text generalizing pos with
    | nil => simp [firstIndex, firstLength]
    | cons c text ih => simp [firstIndex, firstLength, ih]
  cases hfirst : firstLength es 0 text with
  | none => cases text <;> simp [firstIndex, firstLength, hfirst, hnone]
  | some n => cases text <;> simp [firstIndex, firstLength, hfirst]

/-- The sum of the costs of the attempts, up to the first that succeeds. -/
def spent (hit : ℕ → Bool) (cost : ℕ → ℕ) : List ℕ → ℕ
  | [] => 0
  | m :: ms => cost m + if hit m then 0 else spent hit cost ms

/-- What is counted beyond the length of the match, or, if there is none, what a failed attempt
leaves behind. The attempt has counted `k` characters since it began. -/
def extra : List (Elem α) → (k pos : ℕ) → (text : List α) → ℕ
  | [], _, _, _ => 0
  | .bol :: es, k, pos, text => if pos = 0 then extra es k pos text else 0
  | .eol :: es, k, pos, text => if text = [] then extra es k pos text else 0
  | .item p r :: es, k, pos, text =>
    let hit := fun m => (firstLength es (pos + m) (text.drop m)).isSome
    let cost := fun m => extra es 0 (pos + m) (text.drop m)
    let ms := order r (run p text)
    match r with
    | .one => if run p text = 0 then 0 else extra es (k + 1) (pos + 1) (text.drop 1)
    | .star => if ms.any hit then spent hit cost ms else k
    | _ => if ms.any hit then spent hit cost ms else k + spent hit cost ms

end Vlibc
