import Mathlib.Data.List.Basic

/-!
# Sequences with a position

A `Tape` is a list of cells and a position, as the system keeps one for an open file: a read takes
the cells from the position on, a write overwrites them and extends the tape. The position may lie
behind the last cell; a write there fills the gap first.

A `Cursor` is a tape whose position does not lie behind the last cell.
-/

namespace Vlibc

open List

/-- Cells, and a position among them or behind them. -/
structure Tape (α : Type*) where
  cells : List α
  pos : ℕ

namespace Tape

variable {α : Type*}

/-- The cells from the position on. -/
def rest (t : Tape α) : List α := t.cells.drop t.pos

/-- The position moves on. -/
def advance (t : Tape α) (n : ℕ) : Tape α := { t with pos := t.pos + n }

/-- Overwrite and extend from the position on; `pad` fills a gap. -/
def write (pad : α) (t : Tape α) (xs : List α) : Tape α :=
  if xs = [] then t
  else
    { cells := t.cells.take t.pos ++ List.replicate (t.pos - t.cells.length) pad ++ xs ++
        t.cells.drop (t.pos + xs.length)
      pos := t.pos + xs.length }

@[simp] theorem rest_advance (t : Tape α) (n : ℕ) : (t.advance n).rest = t.rest.drop n := by
  simp [rest, advance, drop_drop]

@[simp] theorem pos_advance (t : Tape α) (n : ℕ) : (t.advance n).pos = t.pos + n := rfl

theorem pos_write (pad : α) (t : Tape α) (xs : List α) :
    (t.write pad xs).pos = t.pos + xs.length := by
  unfold write
  split
  · simp_all
  · rfl

@[simp] theorem write_nil (pad : α) (t : Tape α) : t.write pad [] = t := if_pos rfl

theorem length_take_pad (pad : α) (t : Tape α) :
    (t.cells.take t.pos ++ List.replicate (t.pos - t.cells.length) pad).length = t.pos := by
  rw [length_append, length_take, length_replicate]
  omega

theorem write_write (pad : α) (t : Tape α) (xs ys : List α) :
    (t.write pad xs).write pad ys = t.write pad (xs ++ ys) := by
  by_cases hxs : xs = []
  · rw [hxs, write_nil, nil_append]
  by_cases hys : ys = []
  · rw [hys, write_nil, append_nil]
  have hne : xs ++ ys ≠ [] := fun h => hxs (append_eq_nil_iff.1 h).1
  unfold write
  rw [if_neg hxs, if_neg hys, if_neg hne]
  have hlen := length_take_pad pad t
  generalize t.cells.take t.pos ++ List.replicate (t.pos - t.cells.length) pad = front at hlen ⊢
  have hfront : (front ++ xs).length = t.pos + xs.length := by rw [length_append, hlen]
  congr 1
  · have htake : (front ++ xs ++ t.cells.drop (t.pos + xs.length)).take (t.pos + xs.length)
        = front ++ xs := take_left' hfront
    have hgap : t.pos + xs.length
        - (front ++ xs ++ t.cells.drop (t.pos + xs.length)).length = 0 := by
      rw [length_append, hfront]
      omega
    have hdrop : (front ++ xs ++ t.cells.drop (t.pos + xs.length)).drop
        (t.pos + xs.length + ys.length) = t.cells.drop (t.pos + (xs ++ ys).length) := by
      rw [length_append, ← Nat.add_assoc, ← drop_drop (j := t.pos + xs.length),
        drop_left' hfront, drop_drop]
    rw [htake, hgap, hdrop, replicate_zero, append_nil, append_assoc front]
  · dsimp only
    rw [length_append, Nat.add_assoc]

end Tape

/-- A tape whose position does not lie behind the last cell. -/
structure Cursor (α : Type*) extends Tape α where
  le : pos ≤ cells.length

namespace Cursor

variable {α : Type*}

/-- No cells. -/
def empty : Cursor α := ⟨⟨[], 0⟩, Nat.le_refl 0⟩

/-- Cells from the position on are replaced, and added at the end. -/
def write (c : Cursor α) (xs : List α) : Cursor α where
  cells := c.cells.take c.pos ++ xs ++ c.cells.drop (c.pos + xs.length)
  pos := c.pos + xs.length
  le := by
    have := c.le
    simp only [List.length_append, List.length_take, List.length_drop]
    omega

/-- Move to a place, or to the end if the place lies behind it. -/
def seekTo (c : Cursor α) (p : ℕ) : Cursor α :=
  ⟨⟨c.cells, min p c.cells.length⟩, Nat.min_le_right _ _⟩

@[simp] theorem write_nil (c : Cursor α) : c.write [] = c := by
  simp [write]

theorem length_write (c : Cursor α) (xs : List α) :
    (c.write xs).cells.length = max c.cells.length (c.pos + xs.length) := by
  have := c.le
  simp only [write, length_append, length_take, length_drop]
  omega

end Cursor

end Vlibc
