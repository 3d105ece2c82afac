import Vlibc.Errno
import Vlibc.Foundations.Interleaving

/-!
# Semaphores

`sem_wait`, `sem_trywait` and `sem_post` of `semaphore.c` and `sem_timedwait` of `semaphore_named.c`,
one atomic operation a step. The kernel's side of the futex is two numbers: the threads that sleep,
and those that have been woken and have not gone on. Units are neither lost nor made, and no wake-up
is lost (`sem_conserves`).
-/

namespace Vlibc.Pthread.Semaphore

open Interleaving

/-- The semaphore, and what is counted besides. -/
structure Mem where
  count : BitVec 32
  sleepers : ℕ
  woken : ℕ
  /-- The units taken and added so far; not variables of the program. -/
  taken : ℕ
  posted : ℕ

/-- The functions. -/
inductive Call
  | wait
  | trywait
  | timedwait
  | post
  deriving DecidableEq

/-- The places in the functions. -/
inductive Place
  | out (ret : ℕ)
  | load (call : Call)
  /-- `val > 0`, and then `atomic_compare_exchange_weak(&sem->count, &val, val - 1)`. -/
  | cas (call : Call) (val : BitVec 32)
  /-- `futex_wait(&sem->count, 0, …)`, before the kernel has compared the count. -/
  | futex (timed : Bool)
  | asleep (timed : Bool)
  | add
  | wake

/-- Where a wait begins again. -/
def again (timed : Bool) : Place := .load (if timed then .timedwait else .wait)

/-- One step. What is `odd` is that a weak exchange fails, a deadline has passed, or a thread stops
sleeping that nobody has woken. -/
def move (call : Call) (odd : Bool) (m : Mem) : Place → Option (Mem × Place)
  | .out _ => some (m, if call = .post then .add else .load call)
  | .load call => some (m, .cas call m.count)
  | .cas call val =>
    if 0 < val.toInt then
      if m.count = val ∧ !odd then
        some ({ m with count := val - 1, taken := m.taken + 1 }, .out 0)
      -- Only `sem_wait` has no loop about the exchange.
      else some (m, if call = .wait then .futex false else .cas call m.count)
    else match call with
    | .wait => some (m, .futex false)
    | .timedwait => some (m, if odd then .out ETIMEDOUT else .futex true)
    | _ => some (m, .out EAGAIN)
  | .futex timed =>
    if m.count = 0 then some ({ m with sleepers := m.sleepers + 1 }, .asleep timed)
    else some (m, again timed)
  | .asleep timed =>
    if odd then
      if m.sleepers = 0 then none else some ({ m with sleepers := m.sleepers - 1 }, again timed)
    else if m.woken = 0 then none else some ({ m with woken := m.woken - 1 }, again timed)
  | .add => some ({ m with count := m.count + 1, posted := m.posted + 1 }, .wake)
  | .wake =>
    if m.sleepers = 0 then some (m, .out 0)
    else some ({ m with sleepers := m.sleepers - 1, woken := m.woken + 1 }, .out 0)

/-- The threads that use a semaphore. -/
def program (ι : Type*) : Program ι (Call × Bool) Mem Place := fun _ x => move x.1 x.2

/-- `sem_init`. -/
def semInit (ι : Type*) (value : BitVec 32) : Conf ι Mem Place :=
  ⟨⟨value, 0, 0, 0, 0⟩, fun _ => .out 0⟩

/-- One for a thread that is about to wake another. -/
def wakes : Place → ℕ
  | .wake => 1
  | _ => 0

/-- One for a thread that takes a unit, or sleeps only when there is none. -/
def awake : Place → ℕ
  | .load .wait | .cas .wait _ | .futex false | .load .timedwait => 1
  | .cas .timedwait val => if 0 < val.toInt then 1 else 0
  | _ => 0

variable {ι : Type*} [Fintype ι] [DecidableEq ι] {value : BitVec 32} {c : Conf ι Mem Place}

/-- As long as the units fit an `int`, none is lost; and while a thread sleeps, a wake-up or a thread
awake stands behind each unit. -/
def Inv (value : BitVec 32) (c : Conf ι Mem Place) : Prop :=
  value.toNat + c.mem.posted < 2 ^ 31 →
    c.mem.count.toNat + c.mem.taken = value.toNat + c.mem.posted ∧
    (0 < c.mem.sleepers →
      c.mem.count.toNat ≤ total wakes c.loc + total awake c.loc + c.mem.woken)

theorem step_inv (a : ι × Call × Bool) (c c' : Conf ι Mem Place) (hI : Inv value c)
    (h : (program ι).step a c = some c') : Inv value c' := by
  obtain ⟨m, t, hmove, rfl⟩ := Program.step_eq_some h
  obtain ⟨i, call, odd⟩ := a
  have hwakes := total_update wakes c.loc i t
  have hawake := total_update awake c.loc i t
  intro hlt
  simp only [program] at hmove hlt ⊢
  unfold Inv at hI
  cases hp : c.loc i with
  | out r | wake => grind [move, wakes, awake]
  | load call => cases call <;> grind [move, wakes, awake]
  | cas call val =>
    have hsub : 0 < val.toInt → 0 < val.toNat ∧ (val - 1).toNat = val.toNat - 1 := by
      intro hpos
      have hne : 0 < val.toNat := by grind
      exact ⟨hne, toNat_sub_one hne⟩
    cases call <;> grind [move, wakes, awake]
  | add =>
    have hadd : c.mem.count ≠ -1 → _ := toNat_add_one
    grind [move, wakes, awake]
  | futex timed | asleep timed => cases timed <;> grind [move, again, wakes, awake]

/-- **In every interleaving the count and the units taken are the first count and the units posted,
and while a thread sleeps, each unit has a wake-up to come, a thread that was woken or one awake.** -/
theorem sem_conserves {as : List (ι × Call × Bool)}
    (h : (program ι).exec as (semInit ι value) = some c)
    (hmax : value.toNat + c.mem.posted < 2 ^ 31) :
    c.mem.count.toNat + c.mem.taken = value.toNat + c.mem.posted ∧
    (0 < c.mem.sleepers →
      c.mem.count.toNat ≤ total wakes c.loc + total awake c.loc + c.mem.woken) := by
  have hstart : Inv value (semInit ι value) := by simp [Inv, semInit]
  exact Program.exec_preserves step_inv hstart h hmax

/-- One thread sleeps in `sem_wait`, and another is between the two steps of `sem_post`. -/
theorem sem_conserves_sleeper :
    let c := ((program Bool).exec (List.replicate 4 (false, .wait, false) ++
      List.replicate 2 (true, .post, false)) (semInit Bool 0)).get rfl
    c.mem.sleepers = 1 ∧ c.mem.count.toNat ≤ total wakes c.loc + total awake c.loc + c.mem.woken :=
  ⟨rfl, (sem_conserves (Option.some_get _).symm (by decide)).2 (by decide)⟩

end Vlibc.Pthread.Semaphore
