import Mathlib.Data.List.Forall2

/-!
# Patterns with wildcards

A pattern is a list of elements, each of which stands for any text (`star`) or for one letter of a
given kind (`one`). A text is covered by the pattern if it can be split into pieces, one for each
element (`Covers`).
-/

namespace Vlibc

open List

variable {α : Type*}

/-- An element of a wildcard pattern. -/
inductive Wild (α : Type*) where
  | star
  | one (p : α → Prop)

/-- What an element matches. -/
def Wild.Matches : Wild α → List α → Prop
  | star, _ => True
  | one p, s => ∃ c, s = [c] ∧ p c

/-- The text consists of pieces that the elements stand for, one after the other. -/
def Covers (ws : List (Wild α)) (s : List α) : Prop :=
  ∃ pieces : List (List α), s = pieces.flatten ∧ List.Forall₂ Wild.Matches ws pieces

variable {ws : List (Wild α)} {w : Wild α} {p : α → Prop} {s : List α}

@[simp] theorem covers_nil : Covers ([] : List (Wild α)) s ↔ s = [] := by
  constructor
  · rintro ⟨pieces, rfl, h⟩
    cases h
    rfl
  · rintro rfl
    exact ⟨[], rfl, .nil⟩

theorem covers_cons : Covers (w :: ws) s ↔ ∃ a b, s = a ++ b ∧ w.Matches a ∧ Covers ws b := by
  constructor
  · rintro ⟨pieces, rfl, h⟩
    obtain ⟨a, pieces, ha, hrest, rfl⟩ := forall₂_cons_left_iff.1 h
    exact ⟨a, pieces.flatten, rfl, ha, pieces, rfl, hrest⟩
  · rintro ⟨a, b, rfl, ha, pieces, rfl, h⟩
    exact ⟨a :: pieces, rfl, .cons ha h⟩

theorem covers_one : Covers (.one p :: ws) s ↔ ∃ c r, s = c :: r ∧ p c ∧ Covers ws r := by
  rw [covers_cons]
  constructor
  · rintro ⟨a, b, rfl, ⟨c, rfl, hc⟩, hb⟩
    exact ⟨c, b, rfl, hc, hb⟩
  · rintro ⟨c, r, rfl, hc, hr⟩
    exact ⟨[c], r, rfl, ⟨c, rfl, hc⟩, hr⟩

@[simp] theorem covers_one_nil : ¬ Covers (.one p :: ws) [] := by
  rw [covers_one]
  rintro ⟨c, r, h, -⟩
  cases h

theorem covers_star : Covers (.star :: ws) s ↔ ∃ r, r <:+ s ∧ Covers ws r := by
  rw [covers_cons]
  constructor
  · rintro ⟨a, b, rfl, -, hb⟩
    exact ⟨b, suffix_append a b, hb⟩
  · rintro ⟨r, ⟨a, rfl⟩, hr⟩
    exact ⟨a, r, rfl, trivial, hr⟩

theorem covers_star_nil : Covers [.star] s := by
  rw [covers_star]
  exact ⟨[], nil_suffix, covers_nil.2 rfl⟩

theorem covers_star_star : Covers (.star :: .star :: ws) s ↔ Covers (.star :: ws) s := by
  rw [covers_star, covers_star]
  constructor
  · rintro ⟨r, hr, h⟩
    obtain ⟨r', hr', h⟩ := covers_star.1 h
    exact ⟨r', hr'.trans hr, h⟩
  · rintro ⟨r, hr, h⟩
    exact ⟨s, suffix_refl s, covers_star.2 ⟨r, hr, h⟩⟩

theorem covers_star_one :
    Covers (.star :: .one p :: ws) s ↔ ∃ r, r ≠ [] ∧ r <:+ s ∧ Covers (.one p :: ws) r := by
  rw [covers_star]
  refine exists_congr fun r => ⟨fun ⟨hr, h⟩ => ⟨?_, hr, h⟩, fun ⟨_, hr, h⟩ => ⟨hr, h⟩⟩
  rintro rfl
  exact covers_one_nil h

end Vlibc
