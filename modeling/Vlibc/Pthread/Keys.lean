import Mathlib.Data.Nat.Notation
import Mathlib.Logic.Function.Basic
import Vlibc.Errno

/-!
# Thread-specific data

`pthread_key_create`, `pthread_key_delete`, `pthread_setspecific` and `pthread_getspecific` of
`pthread.c`. A thread that deletes a key clears its own value only, and no value is cleared when the
key is given out again (`getspecific_eq_stored_iff`).
-/

namespace Vlibc.Pthread.Keys

open Function List

variable {ι : Type*} [DecidableEq ι]

def KEY_MAX : ℕ := 64

/-- The tables of `pthread.c`, with `0` for `NULL`. -/
structure State (ι : Type*) where
  destructors : ℕ → ℕ
  /-- Each thread has its own. -/
  values : ι → ℕ → ℕ
  /-- What a thread has stored since the key was created; not a variable of the program. -/
  stored : ι → ℕ → ℕ

/-- A value is stored for one thread and one key. -/
def put (table : ι → ℕ → ℕ) (i : ι) (key value : ℕ) : ι → ℕ → ℕ := fun j k =>
  if j = i ∧ k = key then value else table j k

namespace State

/-- The first key that is free. -/
def free (s : State ι) : Option ℕ := (range KEY_MAX).find? (s.destructors · = 0)

/-- `pthread_key_create`. -/
def keyCreate (s : State ι) (destructor : ℕ) : Except ℕ ℕ × State ι :=
  match s.free with
  | none => (.error EAGAIN, s)
  | some key =>
    (.ok key, { s with
      destructors := update s.destructors key (if destructor = 0 then 1 else destructor)
      stored := fun i => update (s.stored i) key 0 })

/-- `pthread_key_delete`. -/
def keyDelete (s : State ι) (i : ι) (key : ℕ) : ℕ × State ι :=
  if KEY_MAX ≤ key then (EINVAL, s)
  else (0, { s with
    destructors := update s.destructors key 0
    values := put s.values i key 0 })

/-- `pthread_setspecific`. -/
def setspecific (s : State ι) (i : ι) (key value : ℕ) : ℕ × State ι :=
  if KEY_MAX ≤ key ∨ s.destructors key = 0 then (EINVAL, s)
  else (0, { s with
    values := put s.values i key value
    stored := put s.stored i key value })

/-- `pthread_getspecific`. -/
def getspecific (s : State ι) (i : ι) (key : ℕ) : ℕ :=
  if KEY_MAX ≤ key ∨ s.destructors key = 0 then 0 else s.values i key

end State

/-- The calls that change the tables. -/
inductive Call
  | create (destructor : ℕ)
  | delete (key : ℕ)
  | setspecific (key value : ℕ)

/-- What a call does, in a thread. -/
def step (s : State ι) : ι × Call → State ι
  | (_, .create destructor) => (s.keyCreate destructor).2
  | (i, .delete key) => (s.keyDelete i key).2
  | (i, .setspecific key value) => (s.setspecific i key value).2

/-- After these calls of these threads, in this order. -/
def run (as : List (ι × Call)) : State ι :=
  as.foldl step ⟨fun _ => 0, fun _ _ => 0, fun _ _ => 0⟩

/-- Each thread finds under each key that exists what it has stored there. -/
def Recalls (s : State ι) : Prop :=
  ∀ i, ∀ key < KEY_MAX, s.destructors key ≠ 0 → s.getspecific i key = s.stored i key

/-- No thread has a value left under the key that is given out next. -/
def Fresh (s : State ι) : Prop := ∀ key ∈ s.free, ∀ i, s.values i key = 0

omit [DecidableEq ι] in
theorem recalls_iff (s : State ι) : Recalls s ↔
    ∀ i, ∀ key < KEY_MAX, s.destructors key ≠ 0 → s.values i key = s.stored i key := by
  grind [Recalls, State.getspecific]

theorem step_recalls_iff {s : State ι} (h : Recalls s) (a : ι × Call) :
    Recalls (step s a) ↔ ((∃ d, a.2 = .create d) → Fresh s) := by
  obtain ⟨i, call⟩ := a
  rw [recalls_iff] at *
  cases call with
  | create d =>
    simp only [step, State.keyCreate, Fresh, Call.create.injEq, exists_eq', true_implies]
    cases hfree : s.free with
    | none => simpa using h
    | some key =>
      have hlt : key < KEY_MAX := by simpa using mem_of_find?_eq_some hfree
      simp only [update_apply, Option.mem_some_iff, forall_eq']
      exact ⟨fun hnext j => by grind [hnext j key hlt], by grind⟩
  | delete key =>
    simp only [step, State.keyDelete, reduceCtorEq, exists_false, false_implies, iff_true]
    split <;> grind [update_apply, put]
  | setspecific key value =>
    simp only [step, State.setspecific, reduceCtorEq, exists_false, false_implies, iff_true]
    split <;> grind [put]

/-- **In a run of any calls by any threads, each thread finds at all times what it has stored under
each key since it was created, if and only if no key is given out while a thread has a value left
under it.** -/
theorem getspecific_eq_stored_iff (as : List (ι × Call)) :
    (∀ n, Recalls (run (as.take n))) ↔
      ∀ n i d, as[n]? = some (i, .create d) → Fresh (run (as.take n)) := by
  have hsucc (n : ℕ) :
      run (as.take (n + 1)) = as[n]?.elim (run (as.take n)) (step (run (as.take n))) := by
    rw [take_add_one, run, foldl_append]
    cases as[n]? <;> rfl
  constructor
  · intro h n i d hcall
    have hnext := h (n + 1)
    rw [hsucc, hcall] at hnext
    exact (step_recalls_iff (h n) (i, .create d)).1 hnext ⟨d, rfl⟩
  · intro h n
    induction n with
    | zero => simp [Recalls, run]
    | succ n ih =>
      rw [hsucc]
      cases hcall : as[n]? with
      | none => exact ih
      | some a =>
        refine (step_recalls_iff ih a).2 ?_
        rintro ⟨d, hd⟩
        exact h n a.1 d (hcall.trans (by rw [← hd]))

/-- A value that another thread had stored under the key before it was deleted. -/
example : (run [(0, .create 0), (1, .setspecific 0 5), (0, .delete 0), (0, .create 0)] :
    State (Fin 2)).getspecific 1 0 = 5 := by
  decide

end Vlibc.Pthread.Keys
