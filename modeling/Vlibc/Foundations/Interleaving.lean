import Mathlib.Algebra.BigOperators.Ring.Finset
import Mathlib.Algebra.Order.BigOperators.Group.Finset

/-!
# Threads that take turns

Threads share a memory `σ`, and each has a place `τ` of its own: how far it has come in the code it
runs, and what it keeps there. A `Program` says what one atomic step does. A schedule names the
thread that moves next, again and again, with a choice that the code does not make itself; every
interleaving is a schedule, and what every step preserves holds after it (`exec_invariant`).

`total` is the sum over the threads of a number that each has at its place; `total_update` says how
it changes when one thread moves, in a form that linear arithmetic can use.
-/

namespace Vlibc.Interleaving

open List Option Function Finset

variable {ι χ σ τ : Type*}

/-- The memory, and the place of each thread. -/
structure Conf (ι σ τ : Type*) where
  mem : σ
  loc : ι → τ

/-- One step of a thread, given a choice. There is none where the thread cannot make that choice. -/
def Program (ι χ σ τ : Type*) := ι → χ → σ → τ → Option (σ × τ)

/-! ## Schedules -/

section schedules

variable [DecidableEq ι] {p : Program ι χ σ τ} {c c' d : Conf ι σ τ}

/-- A step of one thread, seen from all of them. -/
def Program.step (p : Program ι χ σ τ) (a : ι × χ) (c : Conf ι σ τ) : Option (Conf ι σ τ) :=
  (p a.1 a.2 c.mem (c.loc a.1)).map fun r => ⟨r.1, Function.update c.loc a.1 r.2⟩

/-- A run: the steps of a schedule, one after the other. -/
def Program.exec (p : Program ι χ σ τ) : List (ι × χ) → Conf ι σ τ → Option (Conf ι σ τ)
  | [], c => some c
  | a :: as, c => (p.step a c).bind (p.exec as)

/-- Each step of the schedule meets a condition in the state it starts from. -/
def Program.Meets (p : Program ι χ σ τ) (ok : ι → Conf ι σ τ → Prop) :
    List (ι × χ) → Conf ι σ τ → Prop
  | [], _ => True
  | a :: as, c => ok a.1 c ∧ ∀ c' ∈ p.step a c, p.Meets ok as c'

instance Program.decidableMeets {ok : ι → Conf ι σ τ → Prop} [∀ i c, Decidable (ok i c)] :
    ∀ (as : List (ι × χ)) (c : Conf ι σ τ), Decidable (p.Meets ok as c)
  | [], _ => .isTrue trivial
  | a :: as, c =>
    have : ∀ c', Decidable (p.Meets ok as c') := decidableMeets as
    inferInstanceAs (Decidable (ok a.1 c ∧ ∀ c' ∈ p.step a c, p.Meets ok as c'))

theorem Program.step_eq_some {a : ι × χ} (h : p.step a c = some c') :
    ∃ m t, p a.1 a.2 c.mem (c.loc a.1) = some (m, t) ∧
      c' = ⟨m, Function.update c.loc a.1 t⟩ := by
  obtain ⟨⟨m, t⟩, hr, rfl⟩ := map_eq_some_iff.1 h
  exact ⟨m, t, hr, rfl⟩

theorem Program.exec_append {as bs : List (ι × χ)} (h : p.exec as c = some c') :
    p.exec (as ++ bs) c = p.exec bs c' := by
  induction as generalizing c with
  | nil =>
    obtain rfl : c = c' := some.inj h
    rfl
  | cons a as ih =>
    obtain ⟨d, hd, hrest⟩ := bind_eq_some_iff.1 h
    rw [cons_append, exec, hd]
    exact ih hrest

variable {I : Conf ι σ τ → Prop}

/-- **What every step preserves holds after every schedule.** -/
theorem Program.exec_invariant {ok : ι → Conf ι σ τ → Prop}
    (hstep : ∀ a c c', I c → ok a.1 c → p.step a c = some c' → I c') {as : List (ι × χ)}
    (hI : I c) (hmeets : p.Meets ok as c) (h : p.exec as c = some c') : I c' := by
  induction as generalizing c with
  | nil =>
    obtain rfl : c = c' := some.inj h
    exact hI
  | cons a as ih =>
    obtain ⟨d, hd, hrest⟩ := bind_eq_some_iff.1 h
    exact ih (hstep a c d hI hmeets.1 hd) (hmeets.2 d hd) hrest

theorem Program.meets_true (as : List (ι × χ)) (c : Conf ι σ τ) : p.Meets (fun _ _ => True) as c := by
  induction as generalizing c with
  | nil => trivial
  | cons a as ih => exact ⟨trivial, fun d _ => ih d⟩

theorem Program.exec_preserves
    (hstep : ∀ a c c', I c → p.step a c = some c' → I c') {as : List (ι × χ)}
    (hI : I c) (h : p.exec as c = some c') : I c' :=
  exec_invariant (fun a c c' hI _ => hstep a c c' hI) hI (meets_true as c) h

/-- A state that some schedule leads to. -/
def Program.Reaches (p : Program ι χ σ τ) (c c' : Conf ι σ τ) : Prop :=
  ∃ as, p.exec as c = some c'

theorem Program.Reaches.refl (c : Conf ι σ τ) : p.Reaches c c := ⟨[], rfl⟩

theorem Program.Reaches.trans (h : p.Reaches c c') (h' : p.Reaches c' d) : p.Reaches c d := by
  obtain ⟨as, has⟩ := h
  obtain ⟨bs, hbs⟩ := h'
  exact ⟨as ++ bs, (exec_append has).trans hbs⟩

/-- The steps of one thread alone. -/
def Program.solo (p : Program ι χ σ τ) (i : ι) : List χ → σ × τ → Option (σ × τ)
  | [], r => some r
  | x :: xs, r => (p i x r.1 r.2).bind (p.solo i xs)

variable {xs : List χ}

theorem Program.exec_solo {i : ι} {m : σ} {t : τ}
    (h : p.solo i xs (c.mem, c.loc i) = some (m, t)) :
    p.exec (xs.map fun x => (i, x)) c = some ⟨m, Function.update c.loc i t⟩ := by
  induction xs generalizing c with
  | nil =>
    cases h
    rw [update_eq_self]
    rfl
  | cons x xs ih =>
    obtain ⟨⟨m₁, t₁⟩, h₁, hrest⟩ := bind_eq_some_iff.1 h
    have hstep : p.step (i, x) c = some ⟨m₁, Function.update c.loc i t₁⟩ := by
      rw [step, h₁]
      rfl
    have hself : (Conf.mk m₁ (Function.update c.loc i t₁)).loc i = t₁ := update_self ..
    rw [List.map_cons, exec, hstep, bind_some, ih (by rw [hself]; exact hrest), update_idem]

theorem Program.Reaches.solo {i : ι} {m m' : σ} {t : τ} {loc : ι → τ}
    (h : p.solo i xs (m, loc i) = some (m', t)) :
    p.Reaches ⟨m, loc⟩ ⟨m', Function.update loc i t⟩ := ⟨_, exec_solo h⟩

/-- **Threads that do the same one after the other.** Each starts at `a` and ends at `b`, and the
memory runs through `mem`. -/
theorem Program.Reaches.sweep {is : List ι} {a b : τ} {mem : ℕ → σ}
    {loc loc' : ι → τ} (hnodup : is.Nodup) (hloc : ∀ i ∈ is, loc i = a)
    (hloc' : ∀ i ∈ is, loc' i = b) (hrest : ∀ i ∉ is, loc' i = loc i) (n : ℕ)
    (h : ∀ i ∈ is, ∀ j, p.solo i xs (mem j, a) = some (mem (j + 1), b)) :
    p.Reaches ⟨mem n, loc⟩ ⟨mem (n + is.length), loc'⟩ := by
  induction is generalizing n loc with
  | nil =>
    obtain rfl : loc' = loc := funext fun i => hrest i not_mem_nil
    exact .refl _
  | cons i is ih =>
    obtain ⟨hi, hnodup⟩ := nodup_cons.1 hnodup
    have hsolo : p.solo i xs (mem n, loc i) = some (mem (n + 1), b) := by
      rw [hloc i List.mem_cons_self]
      exact h i List.mem_cons_self n
    have hfirst : p.Reaches ⟨mem n, loc⟩ ⟨mem (n + 1), Function.update loc i b⟩ := .solo hsolo
    have htail : p.Reaches ⟨mem (n + 1), Function.update loc i b⟩
        ⟨mem (n + 1 + is.length), loc'⟩ := by
      apply ih hnodup
      · intro j hj
        rw [update_of_ne (ne_of_mem_of_not_mem hj hi)]
        exact hloc j (List.mem_cons_of_mem i hj)
      · exact fun j hj => hloc' j (List.mem_cons_of_mem i hj)
      · intro j hj
        by_cases hji : j = i
        · subst hji
          rw [update_self, hloc' j List.mem_cons_self]
        · rw [update_of_ne hji]
          exact hrest j (by simp [hji, hj])
      · exact fun j hj => h j (List.mem_cons_of_mem i hj)
    rw [add_assoc, add_comm 1] at htail
    exact hfirst.trans htail

end schedules

section total

variable [Fintype ι]

/-- The sum of a number over all threads. -/
def total (f : τ → ℕ) (loc : ι → τ) : ℕ := ∑ i, f (loc i)

variable {f g : τ → ℕ} {loc : ι → τ}

theorem total_update [DecidableEq ι] (f : τ → ℕ) (loc : ι → τ) (i : ι) (t : τ) :
    total f (Function.update loc i t) + f (loc i) = total f loc + f t := by
  have hsum : ∀ l : ι → τ, total f l = f (l i) + ∑ j ∈ Finset.univ.erase i, f (l j) := fun l =>
    (add_sum_erase _ _ (mem_univ i)).symm
  have hrest : ∑ j ∈ Finset.univ.erase i, f (Function.update loc i t j)
      = ∑ j ∈ Finset.univ.erase i, f (loc j) := by
    refine sum_congr rfl fun j hj => ?_
    rw [update_of_ne (ne_of_mem_erase hj)]
  rw [hsum, hsum loc, hrest, update_self]
  omega

theorem le_total (f : τ → ℕ) (loc : ι → τ) (i : ι) : f (loc i) ≤ total f loc :=
  Finset.single_le_sum (f := fun i => f (loc i)) (fun _ _ => Nat.zero_le _) (mem_univ i)

theorem total_mono (h : ∀ t, f t ≤ g t) (loc : ι → τ) : total f loc ≤ total g loc :=
  Finset.sum_le_sum fun i _ => h (loc i)

theorem total_congr (h : ∀ i, f (loc i) = g (loc i)) : total f loc = total g loc :=
  sum_congr rfl fun i _ => h i

theorem total_eq_zero (h : ∀ i, f (loc i) = 0) : total f loc = 0 :=
  Finset.sum_eq_zero fun i _ => h i

theorem eq_of_total_le_one [DecidableEq ι] (h : total f loc ≤ 1) {i j : ι} (hi : 0 < f (loc i))
    (hj : 0 < f (loc j)) : i = j := by
  by_contra hne
  have hle : ∑ l ∈ {i, j}, f (loc l) ≤ total f loc :=
    sum_le_sum_of_subset (subset_univ _)
  rw [Finset.sum_pair hne] at hle
  omega

end total

theorem toNat_add_one {r : BitVec 32} (h : r ≠ -1) : (r + 1).toNat = r.toNat + 1 := by
  bv_omega

theorem toNat_sub_one {r : BitVec 32} (h : 0 < r.toNat) : (r - 1).toNat = r.toNat - 1 := by
  bv_omega

end Vlibc.Interleaving
