import Mathlib.Logic.Function.Basic

/-!
# Open addressing

A table keeps at most one key in a slot, and a key is searched along a path: a list of slots that
depends on the key alone, in which a slot may come twice. The search ends at the slot with the key,
at the first empty slot or at the end of the path (`follow`). If a key is only ever put into the
slot at which its own search ended, then every key in the table is found (`Findable`), no key is in
two slots, and a new key moves no other (`Findable.insert`).
-/

namespace Vlibc

open List Function

variable {σ κ : Type*}

/-- How a search ends: at what it looks for, at a vacant place, or without either. -/
inductive Stop (σ : Type*)
  | hit (i : σ)
  | vacant (i : σ)
  | spent

variable [DecidableEq κ] {held : σ → Option κ} {k k' : κ} {i j : σ} {l : List σ}

/-- The search for `k` along a path, in a table with the keys `held`. -/
def follow (held : σ → Option κ) (k : κ) : List σ → Stop σ
  | [] => .spent
  | i :: l =>
    match held i with
    | none => .vacant i
    | some k' => if k' = k then .hit i else follow held k l

@[simp] theorem follow_nil : follow held k ([] : List σ) = .spent := rfl

theorem follow_cons_none (h : held i = none) : follow held k (i :: l) = .vacant i := by
  simp only [follow, h]

theorem follow_cons_self (h : held i = some k) : follow held k (i :: l) = .hit i := by
  simp only [follow, h, if_true]

theorem follow_cons_ne (h : held i = some k') (hne : k' ≠ k) :
    follow held k (i :: l) = follow held k l := by
  simp only [follow, h, if_neg hne]

theorem follow_cons_cases (held : σ → Option κ) (k : κ) (i : σ) (l : List σ) :
    (held i = none ∧ follow held k (i :: l) = .vacant i) ∨
    (held i = some k ∧ follow held k (i :: l) = .hit i) ∨
    ∃ k', held i = some k' ∧ k' ≠ k ∧ follow held k (i :: l) = follow held k l := by
  rcases h : held i with _ | k'
  · exact .inl ⟨rfl, follow_cons_none h⟩
  · by_cases hk : k' = k
    · subst hk
      exact .inr (.inl ⟨rfl, follow_cons_self h⟩)
    · exact .inr (.inr ⟨k', rfl, hk, follow_cons_ne h hk⟩)

theorem held_of_hit (h : follow held k l = .hit i) : held i = some k := by
  induction l with
  | nil => cases h
  | cons a l ih =>
    obtain ⟨-, e⟩ | ⟨ha, e⟩ | ⟨k', -, -, e⟩ := follow_cons_cases held k a l
    · rw [e] at h
      cases h
    · rw [e] at h
      cases h
      exact ha
    · exact ih (e ▸ h)

theorem vacant_spec (h : follow held k l = .vacant i) : i ∈ l ∧ held i = none := by
  induction l with
  | nil => cases h
  | cons a l ih =>
    obtain ⟨ha, e⟩ | ⟨-, e⟩ | ⟨k', -, -, e⟩ := follow_cons_cases held k a l
    · rw [e] at h
      cases h
      exact ⟨mem_cons_self, ha⟩
    · rw [e] at h
      cases h
    · exact (ih (e ▸ h)).imp_left (mem_cons_of_mem _)

theorem follow_eq_spent_iff :
    follow held k l = .spent ↔ ∀ i ∈ l, ∃ k', held i = some k' ∧ k' ≠ k := by
  induction l with
  | nil => simp
  | cons a l ih =>
    rw [forall_mem_cons]
    obtain ⟨ha, e⟩ | ⟨ha, e⟩ | ⟨k', ha, hne, e⟩ := follow_cons_cases held k a l
    · simp [e, ha]
    · simp [e, ha]
    · rw [e, ih]
      exact ⟨fun h => ⟨⟨k', ha, hne⟩, h⟩, fun h => h.2⟩

variable [DecidableEq σ]

theorem follow_update_of_hit (h : follow held k' l = .hit i) (hj : held j = none) :
    follow (Function.update held j (some k)) k' l = .hit i := by
  induction l with
  | nil => cases h
  | cons a l ih =>
    obtain ⟨-, e⟩ | ⟨ha, e⟩ | ⟨k'', ha, hne, e⟩ := follow_cons_cases held k' a l
    · rw [e] at h
      cases h
    · have haj : a ≠ j := fun haj => by simp [← haj, ha] at hj
      rw [← h, e, follow_cons_self ((update_of_ne haj _ _).trans ha)]
    · have haj : a ≠ j := fun haj => by simp [← haj, ha] at hj
      rw [follow_cons_ne ((update_of_ne haj _ _).trans ha) hne]
      exact ih (e ▸ h)

theorem follow_update_of_vacant (h : follow held k l = .vacant j) :
    follow (Function.update held j (some k)) k l = .hit j := by
  induction l with
  | nil => cases h
  | cons a l ih =>
    obtain ⟨-, e⟩ | ⟨-, e⟩ | ⟨k', ha, hne, e⟩ := follow_cons_cases held k a l
    · rw [e] at h
      cases h
      exact follow_cons_self (update_self ..)
    · rw [e] at h
      cases h
    · have haj : a ≠ j := fun haj => by
        rw [haj, (vacant_spec h).2] at ha
        cases ha
      rw [follow_cons_ne ((update_of_ne haj _ _).trans ha) hne]
      exact ih (e ▸ h)

variable {path : κ → List σ}

/-- Every key in the table is found where it is. -/
def Findable (path : κ → List σ) (held : σ → Option κ) : Prop :=
  ∀ i k, held i = some k → follow held k (path k) = .hit i

namespace Findable

omit [DecidableEq σ]

theorem unique (hf : Findable path held) (hi : held i = some k) (hj : held j = some k) : i = j := by
  have e := (hf i k hi).symm.trans (hf j k hj)
  cases e
  rfl

variable [DecidableEq σ]

/-- **Insertion** of a key where its search ended. -/
theorem insert (hf : Findable path held) (h : follow held k (path k) = .vacant j) :
    Findable path (Function.update held j (some k)) := by
  intro i k' hi
  by_cases hij : i = j
  · subst hij
    rw [update_self] at hi
    cases hi
    exact follow_update_of_vacant h
  · rw [update_of_ne hij] at hi
    exact follow_update_of_hit (hf i k' hi) (vacant_spec h).2

end Findable

end Vlibc
