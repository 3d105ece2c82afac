import Vlibc.Pthread.Mutex

/-!
# One-time initialisation

`pthread_once` of `pthread.c`, on any control objects `κ`, which share the normal mutex `once_lock`.
Recorded besides are how often it has been started, whether it has returned, and which calls have
returned.
-/

namespace Vlibc.Pthread.Once

open Interleaving Function

/-- The mutex and the control objects. -/
structure Mem (κ : Type*) where
  lock : Mutex.Mem
  done : κ → Bool
  started : κ → ℕ
  completed : κ → Bool
  returned : List κ

/-- The places inside the mutex functions have the names of `Mutex.Place`. -/
inductive Place (κ : Type*)
  | out
  /-- The first `atomic_load(&once_control->done)`. -/
  | test (o : κ)
  | swap (o : κ)
  | sleep (o : κ)
  | setOwner (o : κ)
  | setRecursion (o : κ)
  /-- The second `atomic_load(&once_control->done)`. -/
  | retest (o : κ)
  /-- `init_routine` is running. -/
  | init (o : κ)
  /-- `atomic_store(&once_control->done, 1)`. -/
  | finish (o : κ)
  | clearOwner (o : κ)
  | clearRecursion (o : κ)
  | store (o : κ)
  | wake (o : κ)

variable {ι κ : Type*} [DecidableEq κ]

/-- One step in `pthread_once`; between calls, a thread begins one on the control object `x`. -/
def move (self : BitVec 64) (x : κ) (m : Mem κ) : Place κ → Mem κ × Place κ
  | .out => (m, .test x)
  | .test o => if m.done o then ({ m with returned := o :: m.returned }, .out) else (m, .swap o)
  | .swap o =>
    ({ m with lock.locked := true }, if m.lock.locked then .sleep o else .setOwner o)
  | .sleep o => (m, .swap o)
  | .setOwner o => ({ m with lock.owner := self }, .setRecursion o)
  | .setRecursion o => ({ m with lock.recursion := 1 }, .retest o)
  | .retest o =>
    if m.done o then (m, .clearOwner o)
    else ({ m with started := update m.started o (m.started o + 1) }, .init o)
  | .init o => ({ m with completed := update m.completed o true }, .finish o)
  | .finish o => ({ m with done := update m.done o true }, .clearOwner o)
  | .clearOwner o => ({ m with lock.owner := 0 }, .clearRecursion o)
  | .clearRecursion o => ({ m with lock.recursion := 0 }, .store o)
  | .store o => ({ m with lock.locked := false }, .wake o)
  | .wake o => ({ m with returned := o :: m.returned }, .out)

/-- The threads that call `pthread_once`. -/
def program (ids : ι → BitVec 64) : Program ι κ (Mem κ) (Place κ) :=
  fun i x m t => some (move (ids i) x m t)

/-- Nothing was called yet. -/
def start (ι κ : Type*) : Conf ι (Mem κ) (Place κ) :=
  ⟨⟨⟨false, 0, 0⟩, fun _ => false, fun _ => 0, fun _ => false, []⟩, fun _ => .out⟩

/-- The places at which a thread has the mutex. -/
def Holding : Place κ → Prop
  | .setOwner _ | .setRecursion _ | .retest _ | .init _ | .finish _ | .clearOwner _
  | .clearRecursion _ | .store _ => True
  | _ => False

/-- Behind the second test, or behind the store of `done`. -/
def Behind (o : κ) : Place κ → Prop
  | .clearOwner o' | .clearRecursion o' | .store o' | .wake o' => o' = o
  | _ => False

/-- The mutex has one holder at most. An initialiser that has started is running, or `done` is about
to be set, or it is set. -/
structure Inv (c : Conf ι (Mem κ) (Place κ)) : Prop where
  locked : ∀ i, Holding (c.loc i) → c.mem.lock.locked
  one : ∀ i j, Holding (c.loc i) → Holding (c.loc j) → i = j
  init : ∀ i o, c.loc i = .init o → c.mem.started o = 1 ∧ c.mem.done o = false
  finish : ∀ i o, c.loc i = .finish o → c.mem.started o = 1 ∧ c.mem.completed o
  behind : ∀ i o, Behind o (c.loc i) → c.mem.completed o
  object : ∀ o, c.mem.started o = 0 ∧ c.mem.done o = false ∨
    c.mem.started o = 1 ∧ c.mem.done o ∧ c.mem.completed o ∨
    ∃ i, c.loc i = .init o ∨ c.loc i = .finish o
  returned : ∀ o ∈ c.mem.returned, c.mem.completed o

variable [DecidableEq ι] {ids : ι → BitVec 64} {c : Conf ι (Mem κ) (Place κ)}

theorem step_inv (a : ι × κ) (c c' : Conf ι (Mem κ) (Place κ)) (hI : Inv c)
    (h : (program ids).step a c = some c') : Inv c' := by
  obtain ⟨m, t, hmove, rfl⟩ := Program.step_eq_some h
  obtain ⟨i, x⟩ := a
  obtain ⟨hlocked, hone, hinit, hfinish, hbehind, hobject, hreturned⟩ := hI
  simp only [program, Option.some.injEq] at hmove
  -- A thread that takes the mutex finds it free, so `locked` leaves no other holder. Only a holder
  -- changes a control object, and by `one` no other thread is at a place that depends on it.
  cases hp : c.loc i with
  | test o | swap o | retest o =>
    rw [hp, move] at hmove
    split at hmove <;> cases hmove <;> constructor <;> simp only [update_apply] <;>
      grind [Holding, Behind]
  | _ =>
    rw [hp, move] at hmove
    cases hmove
    constructor <;> simp only [update_apply] <;> grind [Holding, Behind]

/-- **In every interleaving each initialiser is started at most once, and a call returns only after
the initialiser of its control object has returned.** -/
theorem once_runs_once {as : List (ι × κ)} (h : (program ids).exec as (start ι κ) = some c) (o : κ) :
    c.mem.started o ≤ 1 ∧ (o ∈ c.mem.returned → c.mem.completed o) := by
  have hstart : Inv (start ι κ) := by constructor <;> simp [start, Holding, Behind]
  have hI := Program.exec_preserves step_inv hstart h
  refine ⟨?_, hI.returned o⟩
  obtain h | h | ⟨i, h | h⟩ := hI.object o
  · omega
  · omega
  · exact (hI.init i o h).1.le
  · exact (hI.finish i o h).1.le

/-- Two threads that both find `done` unset; the second one sleeps until the first has run the
initialiser. -/
def bothCall : List (Bool × Unit) :=
  [(false, ()), (true, ()), (false, ()), (true, ()), (false, ()), (true, ())] ++
    List.replicate 9 (false, ()) ++ List.replicate 9 (true, ())

theorem once_runs_once_both :
    let c := ((program fun i : Bool => if i then 7 else 8).exec bothCall (start Bool Unit)).get rfl
    c.mem.returned = [(), ()] ∧ c.mem.started () ≤ 1 ∧ c.mem.completed () := by
  intro c
  have hc : c.mem.started () ≤ 1 ∧ (() ∈ c.mem.returned → c.mem.completed ()) :=
    once_runs_once (Option.some_get _).symm ()
  exact ⟨rfl, hc.1, hc.2 (by decide)⟩

end Vlibc.Pthread.Once
