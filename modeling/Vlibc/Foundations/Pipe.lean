import Mathlib.Data.List.Infix
import Mathlib.Logic.Relation

/-!
# Output through a buffer

A `Pipe` is the history of a buffered writer: the items `accepted` from its callers, those
`delivered` to the other side, and those still `pending`. It may give up draining its buffer after
`n` items, and keeps the whole buffer for the next attempt then.

* `Pipe.Exact`: what was accepted is what was delivered followed by what is pending. It survives
  every step except an attempt given up half-way (`Reach.exact`).
* `Pipe.Carries`: nothing accepted is lost before the last pending item, and that item has not been
  delivered. It survives every step (`Reach.carries`).
-/

namespace Vlibc

open List

/-- The history of a buffered writer. -/
structure Pipe (α : Type*) where
  accepted : List α
  delivered : List α
  pending : List α

namespace Pipe

/-- How a buffered writer moves. -/
inductive Event (α : Type*)
  | accept (xs : List α)
  | pass (xs : List α)
  | drain
  | abort (n : ℕ)

variable {α : Type*} {p q r : Pipe α} {P Q : Event α → Prop}

/-- What an event does to a pipe. -/
inductive Step : Pipe α → Event α → Pipe α → Prop
  | accept (p : Pipe α) (xs : List α) :
    Step p (.accept xs) ⟨p.accepted ++ xs, p.delivered, p.pending ++ xs⟩
  | pass (p : Pipe α) (xs : List α) (h : p.pending = []) :
    Step p (.pass xs) ⟨p.accepted ++ xs, p.delivered ++ xs, []⟩
  | drain (p : Pipe α) :
    Step p .drain ⟨p.accepted, p.delivered ++ p.pending, []⟩
  | abort (p : Pipe α) (n : ℕ) (h : n < p.pending.length) :
    Step p (.abort n) ⟨p.accepted, p.delivered ++ p.pending.take n, p.pending⟩

/-- Any number of moves, all of a permitted kind. -/
def Reach (P : Event α → Prop) : Pipe α → Pipe α → Prop :=
  Relation.ReflTransGen fun p q => ∃ e, P e ∧ Step p e q

theorem Reach.refl (p : Pipe α) : Reach P p p := Relation.ReflTransGen.refl

theorem Reach.trans (h : Reach P p q) (h' : Reach P q r) : Reach P p r :=
  Relation.ReflTransGen.trans h h'

theorem Step.reach {e : Event α} (h : Step p e q) (he : P e) : Reach P p q :=
  Relation.ReflTransGen.single ⟨e, he, h⟩

theorem Reach.induct {I : Pipe α → Prop} (h : Reach P p q)
    (hstep : ∀ {p q : Pipe α} {e : Event α}, P e → Step p e q → I p → I q) (hp : I p) : I q := by
  induction h with
  | refl => exact hp
  | tail _ hlast ih =>
    obtain ⟨e, he, hs⟩ := hlast
    exact hstep he hs ih

/-- An attempt to drain that is given up is given up before its first item. -/
def Event.Clean (e : Event α) : Prop := ∀ n, e = .abort n → n = 0

/-- What was accepted is what was delivered, then what is pending. -/
def Exact (p : Pipe α) : Prop := p.accepted = p.delivered ++ p.pending

theorem Step.exact {e : Event α} (h : Step p e q) (he : e.Clean) (hp : p.Exact) : q.Exact := by
  unfold Exact at hp ⊢
  cases h with
  | accept xs => simp [hp]
  | pass xs h => simp [hp, h]
  | drain => simp [hp]
  | abort n h => simp [hp, he n rfl]

theorem Reach.exact (h : Reach Event.Clean p q) (hp : p.Exact) : q.Exact :=
  h.induct (fun he hs => hs.exact he) hp

theorem Exact.sublist (h : p.Exact) : p.delivered.Sublist p.accepted := by
  rw [show p.accepted = p.delivered ++ p.pending from h]
  exact sublist_append_left _ _

theorem Reach.mono (h : Reach P p q) (hPQ : ∀ e, P e → Q e) : Reach Q p q :=
  h.induct (I := Reach Q p) (fun he hs hr => hr.trans (hs.reach (hPQ _ he))) (Reach.refl p)

/-! ## Nothing lost but the pending items -/

/-- The accepted items are some `d` that was delivered, possibly with repetitions, and then the
pending ones; of the pending ones all but the last may have been delivered as well. -/
def Carries (p : Pipe α) : Prop :=
  ∃ d, p.accepted = d ++ p.pending ∧ d.Sublist p.delivered ∧
    ∀ x ∈ p.delivered, x ∈ d ++ p.pending.dropLast

theorem take_subset_dropLast {l : List α} {n : ℕ} (h : n < l.length) : l.take n ⊆ l.dropLast := by
  rw [dropLast_eq_take]
  exact (take_prefix_take_left (by omega)).subset

theorem dropLast_subset_append (l xs : List α) : l.dropLast ⊆ (l ++ xs).dropLast := by
  have hpre : l.dropLast <+: (l ++ xs).dropLast := by
    have htake : l.dropLast = (l ++ xs).take (l.length - 1) := by
      rw [take_append_of_le_length (Nat.sub_le _ _), dropLast_eq_take]
    rw [htake, dropLast_eq_take, length_append]
    exact take_prefix_take_left (by omega)
  exact hpre.subset

theorem Step.carries {e : Event α} (h : Step p e q) (hp : p.Carries) : q.Carries := by
  obtain ⟨d, hacc, hsub, hmem⟩ := hp
  cases h with
  | accept xs =>
    refine ⟨d, by simp [hacc], hsub, ?_⟩
    intro x hx
    rcases mem_append.1 (hmem x hx) with hd | hl
    · exact mem_append_left _ hd
    · exact mem_append_right _ (dropLast_subset_append _ _ hl)
  | pass xs h =>
    refine ⟨d ++ xs, by simp [hacc, h], hsub.append (Sublist.refl xs), ?_⟩
    intro x hx
    rw [h] at hmem
    rcases mem_append.1 hx with hx | hx
    · exact mem_append_left _ (mem_append_left _ (by simpa using hmem x hx))
    · exact mem_append_left _ (mem_append_right _ hx)
  | drain =>
    refine ⟨d ++ p.pending, by simp [hacc], hsub.append (Sublist.refl _), ?_⟩
    intro x hx
    rcases mem_append.1 hx with hx | hx
    · rcases mem_append.1 (hmem x hx) with hd | hl
      · exact mem_append_left _ (mem_append_left _ hd)
      · exact mem_append_left _ (mem_append_right _ (mem_of_mem_dropLast hl))
    · exact mem_append_left _ (mem_append_right _ hx)
  | abort n h =>
    refine ⟨d, hacc, hsub.trans (sublist_append_left _ _), ?_⟩
    intro x hx
    rcases mem_append.1 hx with hx | hx
    · exact hmem x hx
    · exact mem_append_right _ (take_subset_dropLast h hx)

theorem Reach.carries (h : Reach P p q) (hp : p.Carries) : q.Carries :=
  h.induct (fun _ hs => hs.carries) hp

theorem Carries.sublist_of_drained (h : p.Carries) (hp : p.pending = []) :
    p.accepted.Sublist p.delivered := by
  obtain ⟨d, hacc, hsub, -⟩ := h
  rw [hacc, hp, append_nil]
  exact hsub

/-- With something pending, and all accepted items distinct, the last of them was not
delivered. -/
theorem Carries.exists_lost (h : p.Carries) (hp : p.pending ≠ []) (hnd : p.accepted.Nodup) :
    ∃ x ∈ p.accepted, x ∉ p.delivered := by
  obtain ⟨d, hacc, -, hmem⟩ := h
  have hsplit : p.accepted = (d ++ p.pending.dropLast) ++ [p.pending.getLast hp] := by
    rw [hacc, append_assoc, dropLast_append_getLast]
  refine ⟨p.pending.getLast hp, ?_, ?_⟩
  · rw [hsplit]
    exact mem_append_right _ (mem_singleton_self _)
  · intro hx
    rw [hsplit] at hnd
    exact (nodup_append.1 hnd).2.2 _ (hmem _ hx) _ (mem_singleton_self _) rfl

end Pipe

end Vlibc
