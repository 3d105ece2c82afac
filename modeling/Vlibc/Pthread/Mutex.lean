import Vlibc.Errno
import Vlibc.Foundations.Interleaving

/-!
# Mutexes

`pthread_mutex_lock`, `pthread_mutex_trylock` and `pthread_mutex_unlock` of `pthread.c`. A step is
one atomic operation on `locked`, or one read or one write of `owner` or `recursion`, which are not
atomic. `futex_wait` may return at any time, and neither it nor `futex_wake` changes anything.

The invariant `Owned` names the thread that has the mutex. What the other threads read of `owner` is
either zero or that thread's id, so none of them finds its own.
-/

namespace Vlibc.Pthread.Mutex

open Interleaving Option Function

/-- `PTHREAD_MUTEX_NORMAL` and `PTHREAD_MUTEX_RECURSIVE`. -/
inductive Kind
  | normal
  | recursive
  deriving DecidableEq

/-- `pthread_mutex_t`, but for the type, which does not change; `locked` is only ever 0 or 1. -/
structure Mem where
  locked : Bool
  owner : BitVec 64
  recursion : BitVec 32
  deriving DecidableEq

/-- The places in the functions. -/
inductive Place
  /-- Between calls, with what the last one returned. -/
  | out (ret : ℕ)
  /-- `mutex->owner == self`, in `trylock` or in `lock`. -/
  | readOwner (tries : Bool)
  /-- The read of `mutex->recursion++`. -/
  | incRead
  /-- The write of `mutex->recursion++`. -/
  | incWrite (r : BitVec 32)
  /-- `atomic_exchange(&mutex->locked, 1)`. -/
  | swap
  /-- `futex_wait(&mutex->locked, 1, NULL)`. -/
  | sleep
  /-- `atomic_compare_exchange_strong(&mutex->locked, &expected, 1)`. -/
  | cas
  /-- `mutex->owner = self`. -/
  | setOwner
  /-- `mutex->recursion = 1`. -/
  | setRecursion
  /-- `mutex->owner != pthread_self()`. -/
  | checkOwner
  /-- The read of `--mutex->recursion`. -/
  | decRead
  /-- The write of `--mutex->recursion`, and the test. -/
  | decWrite (r : BitVec 32)
  /-- `mutex->owner = 0`. -/
  | clearOwner
  /-- `mutex->recursion = 0`. -/
  | clearRecursion
  /-- `atomic_store(&mutex->locked, 0)`. -/
  | store
  /-- `futex_wake(&mutex->locked, 1)`. -/
  | wake
  deriving DecidableEq

/-- A thread: its place, and the number of its acquisitions that are not released. -/
structure Thread where
  place : Place
  held : ℕ
  deriving DecidableEq

/-- The functions. -/
inductive Call
  | lock
  | trylock
  | unlock

/-- Begin a call, with the test of `mutex->type`. Only its holder unlocks a normal mutex. -/
def Thread.begin (k : Kind) (t : Thread) : Call → Option Thread
  | .lock =>
    match k with
    | .recursive => some ⟨.readOwner false, t.held⟩
    | .normal => some ⟨.swap, t.held⟩
  | .trylock =>
    match k with
    | .recursive => some ⟨.readOwner true, t.held⟩
    | .normal => some ⟨.cas, t.held⟩
  | .unlock =>
    match k with
    | .recursive => some ⟨.checkOwner, t.held⟩
    | .normal => if t.held = 0 then none else some ⟨.clearOwner, t.held⟩

/-- One step of the thread with the id `self`. -/
def move (k : Kind) (self : BitVec 64) (call : Call) (m : Mem) (t : Thread) :
    Option (Mem × Thread) :=
  match t.place with
  | .out _ => (t.begin k call).map fun t => (m, t)
  | .readOwner tries =>
    some (m, ⟨if m.owner = self then .incRead else if tries then .cas else .swap, t.held⟩)
  | .incRead => some (m, ⟨.incWrite m.recursion, t.held⟩)
  | .incWrite r => some ({ m with recursion := r + 1 }, ⟨.out 0, t.held + 1⟩)
  | .swap =>
    some ({ m with locked := true }, if m.locked then ⟨.sleep, t.held⟩ else ⟨.setOwner, t.held + 1⟩)
  | .sleep => some (m, ⟨.swap, t.held⟩)
  | .cas =>
    if m.locked then some (m, ⟨.out EBUSY, t.held⟩)
    else some ({ m with locked := true }, ⟨.setOwner, t.held + 1⟩)
  | .setOwner => some ({ m with owner := self }, ⟨.setRecursion, t.held⟩)
  | .setRecursion => some ({ m with recursion := 1 }, ⟨.out 0, t.held⟩)
  | .checkOwner => some (m, ⟨if m.owner ≠ self then .out EPERM else .decRead, t.held⟩)
  | .decRead => some (m, ⟨.decWrite m.recursion, t.held⟩)
  | .decWrite r =>
    some ({ m with recursion := r - 1 },
      if r - 1 = 0 then ⟨.clearOwner, t.held⟩ else ⟨.out 0, t.held - 1⟩)
  | .clearOwner =>
    some ({ m with owner := 0 }, ⟨if k = .recursive then .store else .clearRecursion, t.held⟩)
  | .clearRecursion => some ({ m with recursion := 0 }, ⟨.store, t.held⟩)
  | .store => some ({ m with locked := false }, ⟨.wake, t.held - 1⟩)
  | .wake => some (m, ⟨.out 0, t.held⟩)

/-- The threads that use a mutex. -/
def program {ι : Type*} (k : Kind) (self : ι → BitVec 64) : Program ι Call Mem Thread :=
  fun i => move k (self i)

/-- After `pthread_mutex_init`, before the first call. -/
def start (ι : Type*) : Conf ι Mem Thread := ⟨⟨false, 0, 0⟩, fun _ => ⟨.out 0, 0⟩⟩

/-- What the functions promise in a state: `one` is exclusion, `counts` the meaning of `recursion`
between the holder's calls, `free` when the mutex is free, `busy` what `EBUSY` says, and `stranger`
what `unlock` answers to a thread that does not hold a recursive mutex. -/
structure Correct {ι : Type*} [DecidableEq ι] (k : Kind) (ids : ι → BitVec 64)
    (c : Conf ι Mem Thread) : Prop where
  one : ∀ i j, 0 < (c.loc i).held → 0 < (c.loc j).held → i = j
  counts : ∀ i r, (c.loc i).place = .out r → 0 < (c.loc i).held →
    c.mem.recursion.toNat = (c.loc i).held
  free : c.mem.locked = false ↔ ∀ i, (c.loc i).held = 0
  busy : ∀ i call c', (∀ r, (c.loc i).place ≠ .out r) → (program k ids).step (i, call) c = some c' →
    (c'.loc i).place = .out EBUSY → ∃ j, 0 < (c.loc j).held ∧ (k = .recursive → j ≠ i)
  stranger : ∀ i call c', (c.loc i).place = .checkOwner → (c.loc i).held = 0 →
    (program k ids).step (i, call) c = some c' → c'.loc i = ⟨.out EPERM, 0⟩ ∧ c'.mem = c.mem

/-! ## The thread that has the mutex, and the others -/

/-- The thread `self` has the mutex, and its place says what it has written. -/
def Holds (k : Kind) (self : BitVec 64) (m : Mem) (t : Thread) : Prop :=
  match t.place with
  | .out _ =>
    0 < t.held ∧ m.owner = self ∧ m.recursion.toNat = t.held ∧ (k = .normal → t.held = 1)
  | .readOwner _ | .incRead | .checkOwner | .decRead =>
    k = .recursive ∧ 0 < t.held ∧ m.owner = self ∧ m.recursion.toNat = t.held
  | .incWrite r =>
    k = .recursive ∧ 0 < t.held ∧ m.owner = self ∧ r.toNat = t.held ∧ r ≠ -1
  | .decWrite r => k = .recursive ∧ 0 < t.held ∧ m.owner = self ∧ r.toNat = t.held
  | .swap | .sleep | .cas =>
    k = .normal ∧ t.held = 1 ∧ m.owner = self ∧ m.recursion.toNat = t.held
  | .setOwner => t.held = 1 ∧ m.owner = 0
  | .setRecursion => t.held = 1 ∧ m.owner = self
  | .clearOwner => t.held = 1 ∧ m.owner = self
  | .clearRecursion => k = .normal ∧ t.held = 1 ∧ m.owner = 0
  | .store => t.held = 1 ∧ m.owner = 0
  | .wake => False

/-- A thread that does not have the mutex. -/
def Waits (k : Kind) (t : Thread) : Prop :=
  t.held = 0 ∧ match t.place with
    | .out _ | .swap | .sleep | .cas | .wake => True
    | .readOwner _ | .checkOwner => k = .recursive
    | _ => False

variable {k : Kind} {self : BitVec 64} {call : Call} {m m' : Mem} {t t' : Thread}

theorem Holds.held_pos (h : Holds k self m t) : 0 < t.held := by
  unfold Holds at h
  split at h <;> first | omega | exact h.elim

theorem Holds.owner (h : Holds k self m t) : m.owner = 0 ∨ m.owner = self := by
  unfold Holds at h
  split at h <;> tauto

theorem Holds.begin (h : Holds k self m t) {r : ℕ} (hp : t.place = .out r)
    (hbegin : t.begin k call = some t') : Holds k self m t' := by
  obtain ⟨p, n⟩ := t
  obtain rfl : p = .out r := hp
  obtain ⟨hn, ho, hr, hone⟩ := h
  cases k with
  | recursive =>
    cases call <;> obtain rfl := some.inj hbegin <;> exact ⟨rfl, hn, ho, hr⟩
  | normal =>
    have h1 : n = 1 := hone rfl
    cases call with
    | lock | trylock =>
      cases hbegin
      exact ⟨rfl, h1, ho, hr⟩
    | unlock =>
      rw [Thread.begin, if_neg hn.ne'] at hbegin
      cases hbegin
      exact ⟨h1, ho⟩

theorem Holds.move (h : Holds k self m t) (hlocked : m.locked = true)
    (hwrap : t.place = .incRead → m.recursion ≠ -1)
    (hmove : move k self call m t = some (m', t')) :
    Holds k self m' t' ∧ m'.locked = true ∨ Waits k t' ∧ m'.locked = false ∧ m'.owner = 0 := by
  obtain ⟨p, n⟩ := t
  obtain ⟨locked, owner, recursion⟩ := m
  obtain rfl : locked = true := hlocked
  cases p with
  | out r =>
    obtain ⟨u, hu, hres⟩ := map_eq_some_iff.1 hmove
    cases hres
    exact .inl ⟨h.begin rfl hu, rfl⟩
  | readOwner b =>
    cases hmove
    rw [if_pos h.2.2.1]
    exact .inl ⟨h, rfl⟩
  | incRead =>
    cases hmove
    exact .inl ⟨⟨h.1, h.2.1, h.2.2.1, h.2.2.2, hwrap rfl⟩, rfl⟩
  | incWrite r =>
    cases hmove
    obtain ⟨hk, hn, ho, hr, hne⟩ := h
    have hcount : (r + 1).toNat = n + 1 := by rw [toNat_add_one hne, hr]
    exact .inl ⟨⟨Nat.succ_pos n, ho, hcount,
      fun h => by rw [hk] at h; exact Kind.noConfusion h⟩, rfl⟩
  | swap | sleep =>
    cases hmove
    exact .inl ⟨h, rfl⟩
  | cas =>
    cases hmove
    obtain ⟨-, hn, ho, hr⟩ := h
    have h1 : n = 1 := hn
    exact .inl ⟨⟨by dsimp only; omega, ho, hr, fun _ => hn⟩, rfl⟩
  | setOwner =>
    cases hmove
    exact .inl ⟨⟨h.1, rfl⟩, rfl⟩
  | setRecursion =>
    cases hmove
    obtain ⟨hn, ho⟩ := h
    obtain rfl : n = 1 := hn
    exact .inl ⟨⟨one_pos, ho, rfl, fun _ => rfl⟩, rfl⟩
  | checkOwner =>
    cases hmove
    rw [if_neg (not_not.2 h.2.2.1)]
    exact .inl ⟨h, rfl⟩
  | decRead =>
    cases hmove
    exact .inl ⟨⟨h.1, h.2.1, h.2.2.1, h.2.2.2⟩, rfl⟩
  | decWrite r =>
    cases hmove
    obtain ⟨hk, hn, ho, hr⟩ := h
    have hcount : (r - 1).toNat = n - 1 := by rw [toNat_sub_one (hr ▸ hn), hr]
    by_cases h0 : r - 1 = 0
    · rw [if_pos h0]
      rw [h0] at hcount
      have hn1 : n = 1 := by
        change 0 = n - 1 at hcount
        dsimp only at hn
        omega
      exact .inl ⟨⟨hn1, ho⟩, rfl⟩
    · rw [if_neg h0]
      have hpos : 0 < n - 1 := by
        rw [← hcount]
        exact pos_of_ne_zero fun h => h0 (BitVec.eq_of_toNat_eq h)
      exact .inl ⟨⟨hpos, ho, hcount, fun h => by rw [hk] at h; exact Kind.noConfusion h⟩, rfl⟩
  | clearOwner =>
    cases hmove
    cases k with
    | recursive => exact .inl ⟨⟨h.1, rfl⟩, rfl⟩
    | normal => exact .inl ⟨⟨rfl, h.1, rfl⟩, rfl⟩
  | clearRecursion =>
    cases hmove
    exact .inl ⟨⟨h.2.1, h.2.2⟩, rfl⟩
  | store =>
    cases hmove
    have hn : n - 1 = 0 := by rw [show n = 1 from h.1]
    exact .inr ⟨⟨hn, trivial⟩, rfl, h.2⟩
  | wake => exact h.elim

theorem Waits.move (h : Waits k t) (hother : m.owner ≠ self)
    (hmove : move k self call m t = some (m', t')) :
    Waits k t' ∧ m' = m ∨
      m.locked = false ∧ m' = { m with locked := true } ∧ t' = ⟨.setOwner, 1⟩ := by
  obtain ⟨p, n⟩ := t
  obtain ⟨locked, owner, recursion⟩ := m
  obtain ⟨hn, hp⟩ := h
  obtain rfl : n = 0 := hn
  cases p with
  | out r =>
    obtain ⟨u, hu, hres⟩ := map_eq_some_iff.1 hmove
    cases hres
    refine .inl ⟨?_, rfl⟩
    cases k with
    | recursive => cases call <;> obtain rfl := some.inj hu <;> exact ⟨rfl, rfl⟩
    | normal =>
      cases call with
      | unlock => exact absurd hu (by simp [Thread.begin])
      | _ =>
        cases hu
        exact ⟨rfl, trivial⟩
  | readOwner b =>
    cases hmove
    rw [if_neg hother]
    cases b <;> exact .inl ⟨⟨rfl, trivial⟩, rfl⟩
  | swap =>
    cases hmove
    cases locked with
    | true => exact .inl ⟨⟨rfl, trivial⟩, rfl⟩
    | false => exact .inr ⟨rfl, rfl, rfl⟩
  | sleep =>
    cases hmove
    exact .inl ⟨⟨rfl, trivial⟩, rfl⟩
  | cas =>
    cases locked with
    | true =>
      cases hmove
      exact .inl ⟨⟨rfl, trivial⟩, rfl⟩
    | false =>
      cases hmove
      exact .inr ⟨rfl, rfl, rfl⟩
  | checkOwner =>
    cases hmove
    rw [if_pos hother]
    exact .inl ⟨⟨rfl, trivial⟩, rfl⟩
  | wake =>
    cases hmove
    exact .inl ⟨⟨rfl, trivial⟩, rfl⟩
  | _ => exact hp.elim

theorem move_busy (hp : ∀ r, t.place ≠ .out r) (hmove : move k self call m t = some (m', t'))
    (hbusy : t'.place = .out EBUSY) : t.place = .cas ∧ m.locked = true := by
  obtain ⟨p, n⟩ := t
  cases p with
  | out r => exact absurd rfl (hp r)
  | cas =>
    cases hl : m.locked with
    | true => exact ⟨rfl, rfl⟩
    | false =>
      simp only [move, hl] at hmove
      cases hmove
      exact Place.noConfusion hbusy
  | incWrite r | setRecursion | wake =>
    cases hmove
    exact absurd (Place.out.inj hbusy) (by decide)
  | readOwner b =>
    cases hmove
    split at hbusy <;> [skip; split at hbusy] <;> exact Place.noConfusion hbusy
  | swap | clearOwner =>
    cases hmove
    dsimp only at hbusy
    split at hbusy <;> exact Place.noConfusion hbusy
  | checkOwner =>
    cases hmove
    split at hbusy
    · exact absurd (Place.out.inj hbusy) (by decide)
    · exact Place.noConfusion hbusy
  | decWrite r =>
    cases hmove
    dsimp only at hbusy
    split at hbusy
    · exact Place.noConfusion hbusy
    · exact absurd (Place.out.inj hbusy) (by decide)
  | _ =>
    cases hmove
    exact Place.noConfusion hbusy

theorem move_stranger (hp : t.place = .checkOwner) (hother : m.owner ≠ self)
    (hmove : move k self call m t = some (m', t')) : t' = ⟨.out EPERM, t.held⟩ ∧ m' = m := by
  simp only [move, hp, ne_eq, hother, not_false_eq_true, if_true] at hmove
  cases hmove
  exact ⟨rfl, rfl⟩

/-! ## All threads -/

section threads

variable {ι : Type*} {ids : ι → BitVec 64} {h : Option ι} {c c' : Conf ι Mem Thread}

/-- What the ids of the threads are: distinct, and not zero. -/
structure Distinct (ids : ι → BitVec 64) : Prop where
  injective : Function.Injective ids
  ne_zero : ∀ i, ids i ≠ 0

/-- The invariant: `h` is the thread that has the mutex, if one has it. -/
structure Owned (k : Kind) (ids : ι → BitVec 64) (h : Option ι) (c : Conf ι Mem Thread) :
    Prop where
  locked : c.mem.locked = h.isSome
  free : h = none → c.mem.owner = 0
  holder : ∀ i, h = some i → Holds k (ids i) c.mem (c.loc i)
  others : ∀ i, h ≠ some i → Waits k (c.loc i)

theorem Owned.held_pos_iff (hc : Owned k ids h c) (i : ι) : 0 < (c.loc i).held ↔ h = some i := by
  refine ⟨fun hpos => ?_, fun hi => (hc.holder i hi).held_pos⟩
  by_contra hne
  exact absurd (hc.others i hne).1 hpos.ne'

theorem Owned.owner_ne (hids : Distinct ids) (hc : Owned k ids h c) {i : ι} (hi : h ≠ some i) :
    c.mem.owner ≠ ids i := by
  cases h with
  | none =>
    rw [hc.free rfl]
    exact (hids.ne_zero i).symm
  | some j =>
    rcases (hc.holder j rfl).owner with h0 | hj
    · rw [h0]
      exact (hids.ne_zero i).symm
    · rw [hj]
      exact fun he => hi (congrArg some (hids.injective he))

variable [DecidableEq ι]

/-- A nested acquisition does not find `recursion` at its largest value. -/
def NoWrap (i : ι) (c : Conf ι Mem Thread) : Prop :=
  (c.loc i).place = .incRead → c.mem.recursion ≠ -1

instance (i : ι) (c : Conf ι Mem Thread) : Decidable (NoWrap i c) :=
  inferInstanceAs (Decidable (_ → _))

theorem Owned.noWrap_of_normal (hc : Owned .normal ids h c) (i : ι) : NoWrap i c := by
  intro hp
  by_cases hi : h = some i
  · have hholds := hc.holder i hi
    unfold Holds at hholds
    rw [hp] at hholds
    exact Kind.noConfusion hholds.1
  · have hwaits := (hc.others i hi).2
    rw [hp] at hwaits
    exact hwaits.elim

/-- **One step.** -/
theorem step_owned {a : ι × Call} (hids : Distinct ids) (hc : Owned k ids h c)
    (hok : NoWrap a.1 c) (hstep : (program k ids).step a c = some c') :
    ∃ h', Owned k ids h' c' := by
  obtain ⟨m, t, hmove, rfl⟩ := Program.step_eq_some hstep
  obtain ⟨i, call⟩ := a
  have hself : Function.update c.loc i t i = t := update_self ..
  have hrest : ∀ j, j ≠ i → Function.update c.loc i t j = c.loc j := fun j hj =>
    update_of_ne hj ..
  by_cases hi : h = some i
  · subst hi
    have hothers : ∀ j, some i ≠ some j → Waits k (Function.update c.loc i t j) := by
      intro j hj
      rw [hrest j fun he => hj (congrArg some he.symm)]
      exact hc.others j hj
    rcases (hc.holder i rfl).move hc.locked hok hmove with ⟨hholds, hl⟩ | ⟨hwaits, hl, ho⟩
    · refine ⟨some i, hl, by simp, fun j hj => ?_, hothers⟩
      cases hj
      rw [← hself] at hholds
      exact hholds
    · refine ⟨none, hl, fun _ => ho, by simp, fun j _ => ?_⟩
      by_cases hj : j = i
      · subst hj
        rw [← hself] at hwaits
        exact hwaits
      · exact hothers j fun he => hj (some.inj he).symm
  · rcases (hc.others i hi).move (hc.owner_ne hids hi) hmove with ⟨hwaits, rfl⟩ | ⟨hl, rfl, rfl⟩
    · refine ⟨h, hc.locked, hc.free, fun j hj => ?_, fun j hj => ?_⟩
      · have hne : j ≠ i := fun he => hi (he ▸ hj)
        dsimp only
        rw [hrest j hne]
        exact hc.holder j hj
      · dsimp only
        by_cases hji : j = i
        · subst hji
          rwa [hself]
        · rw [hrest j hji]
          exact hc.others j hj
    · obtain rfl : h = none := by
        rw [hc.locked] at hl
        exact not_isSome_iff_eq_none.1 (by simp [hl])
      refine ⟨some i, rfl, by simp, fun j hj => ?_, fun j hj => ?_⟩
      · cases hj
        dsimp only
        rw [hself]
        exact ⟨rfl, hc.free rfl⟩
      · dsimp only
        rw [hrest j fun he => hj (congrArg some he.symm)]
        exact hc.others j (by simp)

omit [DecidableEq ι] in
theorem start_owned : Owned k ids none (start ι) :=
  ⟨rfl, fun _ => rfl, fun i hi => by simp at hi, fun i _ => ⟨rfl, trivial⟩⟩

theorem Owned.correct (hids : Distinct ids) (hc : Owned k ids h c) : Correct k ids c := by
  refine ⟨fun i j hi hj => ?_, fun i r hp hi => ?_, ?_, fun i call c' hp hstep hbusy => ?_,
    fun i call c' hp hi hstep => ?_⟩
  · rw [hc.held_pos_iff] at hi hj
    exact some.inj (hi.symm.trans hj)
  · have hholds := hc.holder i ((hc.held_pos_iff i).1 hi)
    unfold Holds at hholds
    rw [hp] at hholds
    exact hholds.2.2.1
  · rw [hc.locked]
    cases h with
    | none => exact iff_of_true rfl fun i => (hc.others i (by simp)).1
    | some i =>
      refine iff_of_false (by simp) fun hall => ?_
      exact absurd (hall i) (hc.holder i rfl).held_pos.ne'
  · obtain ⟨m, t, hmove, rfl⟩ := Program.step_eq_some hstep
    have hplace : t.place = .out EBUSY := by simpa using hbusy
    obtain ⟨hcas, hl⟩ := move_busy hp hmove hplace
    rw [hc.locked] at hl
    obtain ⟨j, rfl⟩ := isSome_iff_exists.1 hl
    refine ⟨j, (hc.holder j rfl).held_pos, fun hk hji => ?_⟩
    -- the holder of a recursive mutex does not come here
    have hholds := hc.holder j rfl
    unfold Holds at hholds
    rw [hji, hcas, hk] at hholds
    exact Kind.noConfusion hholds.1
  · obtain ⟨m, t, hmove, rfl⟩ := Program.step_eq_some hstep
    have hne : h ≠ some i := fun he => absurd hi ((hc.held_pos_iff i).2 he).ne'
    obtain ⟨rfl, rfl⟩ := move_stranger hp (hc.owner_ne hids hne) hmove
    dsimp only
    rw [update_self, hi]
    exact ⟨rfl, rfl⟩

/-- **Mutual exclusion and the count of acquisitions**, along every run in which no nested
acquisition finds `recursion` at its largest value. -/
theorem correct_of_noWrap {as : List (ι × Call)} (hids : Distinct ids)
    (hrun : (program k ids).exec as (start ι) = some c)
    (hok : (program k ids).Meets NoWrap as (start ι)) : Correct k ids c := by
  obtain ⟨h, hc⟩ := Program.exec_invariant (I := fun c => ∃ h, Owned k ids h c)
    (fun a c c' hI hok hstep => by
      obtain ⟨h, hc⟩ := hI
      exact step_owned hids hc hok hstep) ⟨none, start_owned⟩ hok hrun
  exact hc.correct hids

end threads

/-- The ids of two threads, `false` and `true`. -/
def twoIds : Bool → BitVec 64 := fun i => if i then 2 else 1

theorem twoIds_distinct : Distinct twoIds := ⟨by decide, by decide⟩

/-- The first thread takes the mutex twice and gives one back, while the other one tries. -/
def nestAndTry : List (Bool × Call) :=
  List.replicate 5 (false, .lock) ++ List.replicate 4 (false, .trylock) ++
    List.replicate 3 (true, .trylock) ++ List.replicate 4 (false, .unlock) ++
    List.replicate 2 (true, .unlock)

theorem correct_of_noWrap_two :
    ∃ c, (program .recursive twoIds).exec nestAndTry (start Bool) = some c ∧
      (c.loc false).held = 1 ∧ c.mem.recursion = 1 ∧ (c.loc true).place = .out EPERM ∧
      Correct .recursive twoIds c := by
  refine ⟨_, rfl, rfl, rfl, rfl, ?_⟩
  have hrun : (program .recursive twoIds).exec nestAndTry (start Bool) = some _ := rfl
  exact correct_of_noWrap twoIds_distinct hrun (by decide)

/-- The first thread holds the mutex `n` times. -/
def nested (n : ℕ) : Conf Bool Mem Thread :=
  ⟨⟨true, 1, .ofNat 32 n⟩, Function.update (start Bool).loc false ⟨.out 0, n⟩⟩

theorem reaches_nested (n : ℕ) :
    (program .recursive twoIds).Reaches (start Bool) (nested (n + 1)) := by
  induction n with
  | zero =>
    have hsolo : (program .recursive twoIds).solo false (List.replicate 5 .lock)
        (⟨false, 0, 0⟩, (start Bool).loc false) = some (⟨true, 1, .ofNat 32 1⟩, ⟨.out 0, 1⟩) := rfl
    exact .solo hsolo
  | succ n ih =>
    have hsolo : (program .recursive twoIds).solo false (List.replicate 4 .lock)
        (⟨true, 1, .ofNat 32 (n + 1)⟩, Function.update (start Bool).loc false ⟨.out 0, n + 1⟩ false)
        = some (⟨true, 1, .ofNat 32 (n + 1 + 1)⟩, ⟨.out 0, n + 1 + 1⟩) := by
      rw [update_self, BitVec.ofNat_add (n + 1)]
      rfl
    have hstep := Program.Reaches.solo hsolo
    rw [update_idem] at hstep
    exact ih.trans hstep

/-- Where `recursion` has come around to one, a single release frees the mutex, and another thread
takes it. -/
theorem reaches_two_holders {n : ℕ} (hn : BitVec.ofNat 32 (n + 1) = 1) :
    ∃ c, (program .recursive twoIds).Reaches (start Bool) c ∧
      (c.loc false).held = n ∧ (c.loc true).held = 1 := by
  have hrelease : (program .recursive twoIds).solo false (List.replicate 7 .unlock)
      (⟨true, 1, .ofNat 32 (n + 1)⟩, Function.update (start Bool).loc false ⟨.out 0, n + 1⟩ false)
      = some (⟨false, 0, 0⟩, ⟨.out 0, n⟩) := by
    rw [update_self, hn]
    simp [Program.solo, program, move, Thread.begin, twoIds]
  have htake : (program .recursive twoIds).solo true (List.replicate 5 .lock)
      (⟨false, 0, 0⟩, Function.update (Function.update (start Bool).loc false ⟨.out 0, n + 1⟩) false
        ⟨.out 0, n⟩ true) = some (⟨true, 2, 1⟩, ⟨.out 0, 1⟩) := rfl
  refine ⟨_, ((reaches_nested n).trans (.solo hrelease)).trans (.solo htake), ?_, ?_⟩ <;> rfl

/-- After `2 ^ 32 + 1` nested acquisitions one release frees the mutex, and another thread takes it
while the first still holds it `2 ^ 32` times. -/
theorem two_holders :
    ∃ c, (program .recursive twoIds).Reaches (start Bool) c ∧
      (c.loc false).held = 2 ^ 32 ∧ (c.loc true).held = 1 ∧ ¬ Correct .recursive twoIds c := by
  have hwrap : BitVec.ofNat 32 (2 ^ 32 + 1) = 1 := by decide
  obtain ⟨c, hreach, h₀, h₁⟩ := reaches_two_holders hwrap
  refine ⟨c, hreach, h₀, h₁, fun hc => ?_⟩
  have heq := hc.one false true (by rw [h₀]; exact Nat.two_pow_pos 32) (by rw [h₁]; exact one_pos)
  cases heq

end Vlibc.Pthread.Mutex
