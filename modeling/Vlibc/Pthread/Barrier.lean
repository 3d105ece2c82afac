import Vlibc.Pthread.Mutex

/-!
# Barriers

`pthread_barrier_wait` of `pthread_barrier.c`, with the mutex and condition functions that it calls.
Inside a mutex function a thread takes the steps of `Mutex.move` on the barrier's normal mutex; seen
through `lockConf`, a run of the barrier is a run of the mutex, so exclusion is the mutex's.

A call arrives with its addition to `waiting`. The number `a` of a call is its place in the order of
arrival, and `a / n` its group of `n` calls; the program does not have these numbers.
-/

namespace Vlibc.Pthread.Barrier

open Interleaving List Option Function Nat

def PTHREAD_BARRIER_SERIAL_THREAD : ℤ := -1

/-- `pthread_barrier_t`, but for the count, which does not change. Of `cond`, only `seq` is used. -/
structure Mem where
  lock : Mutex.Mem
  waiting : BitVec 32
  phase : BitVec 32
  seq : BitVec 32
  /-- The number of calls that have arrived. -/
  arrived : ℕ
  /-- The calls that have returned, by their place in the order of arrival. -/
  returned : List (ℕ × ℤ)

/-- How far a thread has come, with its local variables `phase`, `w` and `seq`, and the number of
its call. -/
inductive Place
  /-- Between calls. -/
  | out
  /-- `pthread_mutex_lock(&barrier->lock)`. -/
  | locking
  /-- `phase = atomic_load(&barrier->phase)`. -/
  | loadPhase
  /-- `atomic_fetch_add(&barrier->waiting, 1)`. -/
  | add (phase : BitVec 32)
  /-- `if (w == barrier->count)`. -/
  | test (phase w : BitVec 32) (a : ℕ)
  /-- `atomic_store(&barrier->waiting, 0)`. -/
  | clear (a : ℕ)
  /-- `atomic_fetch_add(&barrier->phase, 1)`. -/
  | bump (a : ℕ)
  /-- `atomic_fetch_add(&cond->seq, 1)`. -/
  | broadcast (a : ℕ)
  /-- `futex_wake(&cond->seq, INT_MAX)`. -/
  | wakeAll (a : ℕ)
  /-- `pthread_mutex_unlock(&barrier->lock)`, before the serial thread returns. -/
  | unlockLast (a : ℕ)
  /-- `while (phase == atomic_load(&barrier->phase))`. -/
  | loop (phase : BitVec 32) (a : ℕ)
  /-- `seq = atomic_load(&cond->seq)`. -/
  | condSeq (phase : BitVec 32) (a : ℕ)
  /-- `pthread_mutex_unlock(mutex)`, in `pthread_cond_wait`. -/
  | condUnlock (phase : BitVec 32) (a : ℕ) (seq : BitVec 32)
  /-- `while (atomic_load(&cond->seq) == seq)`. -/
  | condTest (phase : BitVec 32) (a : ℕ) (seq : BitVec 32)
  /-- `futex_wait(&cond->seq, seq, NULL)`. -/
  | condSleep (phase : BitVec 32) (a : ℕ) (seq : BitVec 32)
  /-- `pthread_mutex_lock(mutex)`, in `pthread_cond_wait`. -/
  | condLock (phase : BitVec 32) (a : ℕ)
  /-- `pthread_mutex_unlock(&barrier->lock)`, before the others return. -/
  | unlocking (a : ℕ)

/-- A thread: its place here, and what the mutex functions know of it. -/
structure Thread where
  place : Place
  lock : Mutex.Thread

/-- A step inside a function of the mutex. -/
def call (self : BitVec 64) (f : Mutex.Call) (p : Place) (m : Mem) (t : Thread) :
    Option (Mem × Thread) :=
  (Mutex.move .normal self f m.lock t.lock).map fun r => ({ m with lock := r.1 }, ⟨p, r.2⟩)

/-- Go on with the call of a mutex function, or with what comes after it. -/
def resume (self : BitVec 64) (next : Mem × Place) (m : Mem) (t : Thread) :
    Option (Mem × Thread) :=
  match t.lock.place with
  | .out _ => some (next.1, ⟨next.2, t.lock⟩)
  | _ => call self .lock t.place m t

/-- One step of the thread with the id `self` in `pthread_barrier_wait`, for a barrier of `n`. -/
def move (n : BitVec 32) (self : BitVec 64) (m : Mem) (t : Thread) : Option (Mem × Thread) :=
  match t.place with
  | .out => call self .lock .locking m t
  | .locking => resume self (m, .loadPhase) m t
  | .loadPhase => some (m, ⟨.add m.phase, t.lock⟩)
  | .add phase =>
    some ({ m with waiting := m.waiting + 1, arrived := m.arrived + 1 },
      ⟨.test phase (m.waiting + 1) m.arrived, t.lock⟩)
  | .test phase w a => some (m, ⟨if w = n then .clear a else .loop phase a, t.lock⟩)
  | .clear a => some ({ m with waiting := 0 }, ⟨.bump a, t.lock⟩)
  | .bump a => some ({ m with phase := m.phase + 1 }, ⟨.broadcast a, t.lock⟩)
  | .broadcast a => some ({ m with seq := m.seq + 1 }, ⟨.wakeAll a, t.lock⟩)
  | .wakeAll a => call self .unlock (.unlockLast a) m t
  | .unlockLast a =>
    resume self ({ m with returned := (a, PTHREAD_BARRIER_SERIAL_THREAD) :: m.returned }, .out) m t
  | .loop phase a =>
    if phase = m.phase then some (m, ⟨.condSeq phase a, t.lock⟩)
    else call self .unlock (.unlocking a) m t
  | .condSeq phase a => call self .unlock (.condUnlock phase a m.seq) m t
  | .condUnlock phase a seq => resume self (m, .condTest phase a seq) m t
  | .condTest phase a seq =>
    if m.seq = seq then some (m, ⟨.condSleep phase a seq, t.lock⟩)
    else call self .lock (.condLock phase a) m t
  | .condSleep phase a seq => some (m, ⟨.condTest phase a seq, t.lock⟩)
  | .condLock phase a => resume self (m, .loop phase a) m t
  | .unlocking a => resume self ({ m with returned := (a, 0) :: m.returned }, .out) m t

/-- The threads, each with its id, on a barrier of `n`. -/
def program {ι : Type*} (n : BitVec 32) (ids : ι → BitVec 64) : Program ι Unit Mem Thread :=
  fun i _ => move n (ids i)

/-- After `pthread_barrier_init`, which refuses a count of zero. -/
def init (ι : Type*) (count : BitVec 32) : Option (Conf ι Mem Thread) :=
  if count = 0 then none
  else some ⟨⟨⟨false, 0, 0⟩, 0, 0, 0, 0, []⟩, fun _ => ⟨.out, ⟨.out 0, 0⟩⟩⟩

/-! ## The mutex -/

/-- The barrier's mutex, and the threads as its functions see them. -/
def lockConf {ι : Type*} (c : Conf ι Mem Thread) : Conf ι Mutex.Mem Mutex.Thread :=
  ⟨c.mem.lock, fun i => (c.loc i).lock⟩

/-- The places at which a thread has the mutex and is in no call. -/
def Place.Critical : Place → Prop
  | .loadPhase | .add _ | .test _ _ _ | .clear _ | .bump _ | .broadcast _ | .wakeAll _ | .loop _ _
  | .condSeq _ _ => True
  | _ => False

/-- A thread in a call of `pthread_mutex_lock`, or just behind it. -/
def InLock (u : Mutex.Thread) : Prop :=
  match u.place with
  | .swap | .sleep => u.held = 0
  | .setOwner | .setRecursion | .out _ => u.held = 1
  | _ => False

/-- A thread in a call of `pthread_mutex_unlock`, or just behind it. -/
def InUnlock (u : Mutex.Thread) : Prop :=
  match u.place with
  | .clearOwner | .clearRecursion | .store => u.held = 1
  | .wake | .out _ => u.held = 0
  | _ => False

/-- What a thread's place here says about its place in the mutex functions. -/
def Linked (t : Thread) : Prop :=
  match t.place with
  | .out | .condTest _ _ _ | .condSleep _ _ _ => ∃ r, t.lock = ⟨.out r, 0⟩
  | .locking | .condLock _ _ => InLock t.lock
  | .unlockLast _ | .condUnlock _ _ _ | .unlocking _ => InUnlock t.lock
  | _ => ∃ r, t.lock = ⟨.out r, 1⟩

variable {n : BitVec 32} {self : BitVec 64} {m m' : Mem} {t t' : Thread} {N : ℕ} {p : Place}

theorem call_spec {f : Mutex.Call} (h : call self f p m t = some (m', t')) :
    ∃ l u, Mutex.move .normal self f m.lock t.lock = some (l, u) ∧ m' = { m with lock := l } ∧
      t' = ⟨p, u⟩ := by
  obtain ⟨⟨l, u⟩, hmove, hres⟩ := map_eq_some_iff.1 h
  cases hres
  exact ⟨l, u, hmove, rfl, rfl⟩

theorem call_lock (ht : ∃ r, t.lock = ⟨.out r, 0⟩)
    (h : call self .lock p m t = some (m', t')) : m' = m ∧ ∃ u, t' = ⟨p, u⟩ ∧ InLock u := by
  obtain ⟨r, hr⟩ := ht
  obtain ⟨l, u, hmove, rfl, rfl⟩ := call_spec h
  rw [hr] at hmove
  cases hmove
  exact ⟨rfl, _, rfl, rfl⟩

theorem call_unlock (ht : ∃ r, t.lock = ⟨.out r, 1⟩)
    (h : call self .unlock p m t = some (m', t')) : m' = m ∧ ∃ u, t' = ⟨p, u⟩ ∧ InUnlock u := by
  obtain ⟨r, hr⟩ := ht
  obtain ⟨l, u, hmove, rfl, rfl⟩ := call_spec h
  rw [hr] at hmove
  cases hmove
  exact ⟨rfl, _, rfl, rfl⟩

theorem resume_spec {next : Mem × Place} (h : resume self next m t = some (m', t')) :
    (∃ r, t.lock.place = .out r ∧ m' = next.1 ∧ t' = ⟨next.2, t.lock⟩) ∨
      (∀ r, t.lock.place ≠ .out r) ∧ ∃ l u,
        Mutex.move .normal self .lock m.lock t.lock = some (l, u) ∧ m' = { m with lock := l } ∧
        t' = ⟨t.place, u⟩ := by
  unfold resume at h
  split at h
  · next r hr =>
    cases h
    exact .inl ⟨r, hr, rfl, rfl⟩
  · next hne => exact .inr ⟨hne, call_spec h⟩

theorem InLock.move {l l' : Mutex.Mem} {u u' : Mutex.Thread} (h : InLock u)
    (hp : ∀ r, u.place ≠ .out r) (hmove : Mutex.move .normal self .lock l u = some (l', u')) :
    InLock u' := by
  obtain ⟨p, k⟩ := u
  cases p with
  | out r => exact absurd rfl (hp r)
  | swap =>
    cases hmove
    cases l.locked
    · exact congrArg (· + 1) h
    · exact h
  | sleep | setOwner | setRecursion =>
    cases hmove
    exact h
  | _ => exact h.elim

theorem InUnlock.move {l l' : Mutex.Mem} {u u' : Mutex.Thread} (h : InUnlock u)
    (hp : ∀ r, u.place ≠ .out r) (hmove : Mutex.move .normal self .lock l u = some (l', u')) :
    InUnlock u' := by
  obtain ⟨p, k⟩ := u
  cases p with
  | out r => exact absurd rfl (hp r)
  | store =>
    cases hmove
    exact congrArg (· - 1) h
  | clearOwner | clearRecursion | wake =>
    cases hmove
    exact h
  | _ => exact h.elim

variable {u : Mutex.Thread}

theorem InLock.over {r : ℕ} (h : InLock u) (hp : u.place = .out r) :
    u = ⟨.out r, 1⟩ := by
  obtain ⟨p, k⟩ := u
  obtain rfl : p = .out r := hp
  exact congrArg _ h

theorem InUnlock.over {r : ℕ} (h : InUnlock u) (hp : u.place = .out r) :
    u = ⟨.out r, 0⟩ := by
  obtain ⟨p, k⟩ := u
  obtain rfl : p = .out r := hp
  exact congrArg _ h

/-! ## What a thread knows of the counters -/

/-- The counters of a barrier. -/
structure Counts where
  waiting : BitVec 32
  phase : BitVec 32
  arrived : ℕ

/-- The counters in the memory. -/
def Mem.counts (m : Mem) : Counts := ⟨m.waiting, m.phase, m.arrived⟩

/-- The counters between two changes: the calls of the open group, and the groups that are
complete. -/
def Quiet (N : ℕ) (s : Counts) : Prop :=
  s.waiting.toNat = s.arrived % N ∧ s.phase.toNat = s.arrived / N

/-- The arrival `a` is the last of its round. -/
def Last (N a : ℕ) : Prop := a % N + 1 = N

instance (N a : ℕ) : Decidable (Last N a) := inferInstanceAs (Decidable (_ = _))

/-- The round of the arrival `a` is complete. -/
def Complete (N : ℕ) (s : Counts) (a : ℕ) : Prop := a / N < s.arrived / N

/-- What a thread's place says about the counters and its call. -/
def Facts (N : ℕ) (s : Counts) : Place → Prop
  | .out | .locking => True
  | .loadPhase => Quiet N s
  | .add phase => Quiet N s ∧ phase = s.phase
  | .test phase w a =>
    a + 1 = s.arrived ∧ w = s.waiting ∧ w.toNat = a % N + 1 ∧ phase = s.phase ∧
      phase.toNat = a / N
  | .clear a => a + 1 = s.arrived ∧ Last N a ∧ s.phase.toNat = a / N
  | .bump a => a + 1 = s.arrived ∧ Last N a ∧ s.waiting = 0 ∧ s.phase.toNat = a / N
  | .broadcast a | .wakeAll a => Quiet N s ∧ Last N a ∧ Complete N s a
  | .unlockLast a => Last N a ∧ Complete N s a
  | .loop phase a | .condSeq phase a =>
    Quiet N s ∧ ¬ Last N a ∧ a < s.arrived ∧ phase.toNat = a / N
  | .condUnlock phase a _ | .condTest phase a _ | .condSleep phase a _ | .condLock phase a =>
    ¬ Last N a ∧ a < s.arrived ∧ phase.toNat = a / N
  | .unlocking a => ¬ Last N a ∧ Complete N s a

theorem Complete.mono {s s' : Counts} {a : ℕ} (h : Complete N s a)
    (hle : s.arrived ≤ s'.arrived) : Complete N s' a :=
  lt_of_lt_of_le h (Nat.div_le_div_right hle)

theorem Facts.mono {s s' : Counts} (h : Facts N s p) (hp : ¬ p.Critical)
    (hle : s.arrived ≤ s'.arrived) : Facts N s' p := by
  cases p with
  | out | locking => trivial
  | unlockLast a | unlocking a => exact ⟨h.1, h.2.mono hle⟩
  | condUnlock phase a seq | condTest phase a seq | condSleep phase a seq | condLock phase a =>
    exact ⟨h.1, h.2.1.trans_le hle, h.2.2⟩
  | _ => exact absurd trivial hp

/-- The call of a thread that has arrived. -/
def Place.ticket : Place → Option ℕ
  | .out | .locking | .loadPhase | .add _ => none
  | .test _ _ a | .clear a | .bump a | .broadcast a | .wakeAll a | .unlockLast a | .loop _ a
  | .condSeq _ a | .condUnlock _ a _ | .condTest _ a _ | .condSleep _ a _ | .condLock _ a
  | .unlocking a => some a

/-- What the call of an arrival returns. -/
def result (N a : ℕ) : ℤ := if Last N a then PTHREAD_BARRIER_SERIAL_THREAD else 0

/-- How an arrival and a return are booked. -/
inductive Booked (N : ℕ) (m m' : Mem) : Option ℕ → Option ℕ → Prop
  | keep (x : Option ℕ) (ha : m'.arrived = m.arrived) (hr : m'.returned = m.returned) :
      Booked N m m' x x
  | arrive (ha : m'.arrived = m.arrived + 1) (hr : m'.returned = m.returned) :
      Booked N m m' none (some m.arrived)
  | leave {a : ℕ} (hc : Complete N m.counts a) (ha : m'.arrived = m.arrived)
      (hr : m'.returned = (a, result N a) :: m.returned) : Booked N m m' (some a) none

/-- What a step keeps. -/
structure Moved (N : ℕ) (m m' : Mem) (t t' : Thread) : Prop where
  linked : Linked t'
  facts : Facts N m'.counts t'.place
  counts : m'.counts = m.counts ∨ t.place.Critical ∧ m.arrived ≤ m'.arrived
  quiet : t.place.Critical → ¬ t'.place.Critical → Quiet N m'.counts
  booked : Booked N m m' t.place.ticket t'.place.ticket

theorem Moved.of_counts (hlinked : Linked t') (hcounts : m'.counts = m.counts)
    (hreturned : m'.returned = m.returned) (hfacts : Facts N m.counts t'.place)
    (hquiet : t.place.Critical → ¬ t'.place.Critical → Quiet N m.counts)
    (hticket : t'.place.ticket = t.place.ticket) : Moved N m m' t t' := by
  refine ⟨hlinked, hcounts ▸ hfacts, .inl hcounts, hcounts ▸ hquiet, ?_⟩
  rw [hticket]
  exact .keep _ (congrArg Counts.arrived hcounts) hreturned

theorem Moved.inside {l : Mutex.Mem} (hlinked : Linked ⟨t.place, u⟩)
    (hfacts : Facts N m.counts t.place) (hp : ¬ t.place.Critical) :
    Moved N m { m with lock := l } t ⟨t.place, u⟩ :=
  .of_counts hlinked rfl rfl hfacts (fun h => absurd h hp) rfl

theorem succ_div_mod_of_last {a : ℕ} (h : Last N a) :
    (a + 1) / N = a / N + 1 ∧ (a + 1) % N = 0 := by
  unfold Last at h
  have hN : 0 < N := by omega
  have hsum : a + 1 = (a / N + 1) * N := by
    have := div_add_mod a N
    rw [add_mul, one_mul, mul_comm (a / N)]
    omega
  rw [hsum]
  exact ⟨Nat.mul_div_cancel _ hN, mul_mod_left _ _⟩

theorem succ_div_mod_of_not_last {a : ℕ} (hN : 0 < N) (h : ¬ Last N a) :
    (a + 1) / N = a / N ∧ (a + 1) % N = a % N + 1 := by
  unfold Last at h
  have hlt := mod_lt a hN
  have hsum : a + 1 = a % N + 1 + N * (a / N) := by
    have := div_add_mod a N
    omega
  have hmod : (a % N + 1) % N = a % N + 1 := mod_eq_of_lt (by omega)
  have hdiv : (a % N + 1) / N = 0 := div_eq_of_lt (by omega)
  rw [hsum, add_mul_div_left _ _ hN, add_mul_mod_self_left, hmod, hdiv, zero_add]
  exact ⟨rfl, rfl⟩

/-- **What a step of a thread does**, as long as `phase` does not wrap around. -/
theorem move_moved (hn : 0 < n.toNat) (hlinked : Linked t) (hfacts : Facts n.toNat m.counts t.place)
    (henter : InLock t.lock → (∃ r, t.lock.place = .out r) → ¬ t.place.Critical →
      Quiet n.toNat m.counts)
    (hbound : m'.arrived / n.toNat < 2 ^ 32) (hmove : move n self m t = some (m', t')) :
    Moved n.toNat m m' t t' := by
  obtain ⟨p, u⟩ := t
  cases p with
  | out =>
    obtain ⟨rfl, u', rfl, hin⟩ := call_lock hlinked hmove
    exact .of_counts hin rfl rfl trivial (fun h => h.elim) rfl
  | locking =>
    rcases resume_spec hmove with ⟨r, hr, rfl, rfl⟩ | ⟨hne, l, v, hstep, rfl, rfl⟩
    · exact .of_counts ⟨r, hlinked.over hr⟩ rfl rfl (henter hlinked ⟨r, hr⟩ id) (fun h => h.elim)
        rfl
    · exact .inside (InLock.move hlinked hne hstep) hfacts id
  | loadPhase =>
    cases hmove
    exact .of_counts hlinked rfl rfl ⟨hfacts, rfl⟩ (fun _ h => absurd trivial h) rfl
  | add phase =>
    cases hmove
    obtain ⟨⟨hw, hph⟩, rfl⟩ := hfacts
    change m.waiting.toNat = m.arrived % n.toNat at hw
    have hlt := mod_lt m.arrived hn
    have hadd : (m.waiting + 1).toNat = m.waiting.toNat + 1 := by
      have := n.isLt
      bv_omega
    refine ⟨hlinked, ⟨rfl, rfl, ?_, rfl, hph⟩, .inr ⟨trivial, le_succ _⟩,
      fun _ h => absurd trivial h, .arrive rfl rfl⟩
    rw [hadd, hw]
  | test phase w a =>
    cases hmove
    obtain ⟨ha, rfl, hw, rfl, hph⟩ := hfacts
    split
    · next heq =>
      refine .of_counts hlinked rfl rfl ⟨ha, ?_, hph⟩ (fun _ h => absurd trivial h) rfl
      rw [heq] at hw
      exact hw.symm
    · next hne =>
      have hlast : ¬ Last n.toNat a := by
        intro hl
        exact hne (BitVec.eq_of_toNat_eq (hw.trans hl))
      obtain ⟨hdiv, hmod⟩ := succ_div_mod_of_not_last hn hlast
      refine .of_counts hlinked rfl rfl ⟨⟨?_, ?_⟩, hlast, by omega, hph⟩
        (fun _ h => absurd trivial h) rfl
      · rw [← ha, hmod, hw]
      · rw [← ha, hdiv, hph]
  | clear a =>
    cases hmove
    obtain ⟨ha, hlast, hph⟩ := hfacts
    exact ⟨hlinked, ⟨ha, hlast, rfl, hph⟩, .inr ⟨trivial, le_rfl⟩, fun _ h => absurd trivial h,
      .keep _ rfl rfl⟩
  | bump a =>
    cases hmove
    obtain ⟨ha, hlast, hw, hph⟩ := hfacts
    obtain ⟨hdiv, hmod⟩ := succ_div_mod_of_last hlast
    change a + 1 = m.arrived at ha
    change m.phase.toNat = _ at hph
    rw [← ha, hdiv] at hbound
    have hadd : (m.phase + 1).toNat = m.phase.toNat + 1 := by bv_omega
    refine ⟨hlinked, ⟨⟨?_, ?_⟩, hlast, ?_⟩, .inr ⟨trivial, le_rfl⟩, fun _ h => absurd trivial h,
      .keep _ rfl rfl⟩
    · change m.waiting.toNat = m.arrived % _
      rw [← ha, hmod, show m.waiting = 0 from hw]
      rfl
    · change (m.phase + 1).toNat = m.arrived / _
      rw [← ha, hdiv, hadd, hph]
    · change a / _ < m.arrived / _
      rw [← ha, hdiv]
      exact lt_succ_self _
  | broadcast a =>
    cases hmove
    exact .of_counts hlinked rfl rfl hfacts (fun _ h => absurd trivial h) rfl
  | wakeAll a =>
    obtain ⟨rfl, u', rfl, hin⟩ := call_unlock hlinked hmove
    exact .of_counts hin rfl rfl hfacts.2 (fun _ _ => hfacts.1) rfl
  | unlockLast a =>
    rcases resume_spec hmove with ⟨r, hr, rfl, rfl⟩ | ⟨hne, l, v, hstep, rfl, rfl⟩
    · refine ⟨⟨r, hlinked.over hr⟩, trivial, .inl rfl, fun h => h.elim, .leave hfacts.2 rfl ?_⟩
      rw [result, if_pos hfacts.1]
    · exact .inside (InUnlock.move hlinked hne hstep) hfacts id
  | loop phase a =>
    change (if phase = m.phase then _ else _) = _ at hmove
    obtain ⟨hq, hlast, ha, hph⟩ := hfacts
    split at hmove
    · cases hmove
      exact .of_counts hlinked rfl rfl ⟨hq, hlast, ha, hph⟩ (fun _ h => absurd trivial h) rfl
    · next hne =>
      obtain ⟨rfl, u', rfl, hin⟩ := call_unlock hlinked hmove
      refine .of_counts hin rfl rfl ⟨hlast, ?_⟩ (fun _ _ => hq) rfl
      have hle : a / n.toNat ≤ m'.arrived / n.toNat := Nat.div_le_div_right ha.le
      refine lt_of_le_of_ne hle fun he => hne (BitVec.eq_of_toNat_eq ?_)
      rw [hph, he]
      exact hq.2.symm
  | condSeq phase a =>
    obtain ⟨rfl, u', rfl, hin⟩ := call_unlock hlinked hmove
    exact .of_counts hin rfl rfl hfacts.2 (fun _ _ => hfacts.1) rfl
  | condUnlock phase a seq =>
    rcases resume_spec hmove with ⟨r, hr, rfl, rfl⟩ | ⟨hne, l, v, hstep, rfl, rfl⟩
    · exact .of_counts ⟨r, hlinked.over hr⟩ rfl rfl hfacts (fun h => h.elim) rfl
    · exact .inside (InUnlock.move hlinked hne hstep) hfacts id
  | condTest phase a seq =>
    change (if m.seq = seq then _ else _) = _ at hmove
    split at hmove
    · cases hmove
      exact .of_counts hlinked rfl rfl hfacts (fun h => h.elim) rfl
    · obtain ⟨rfl, u', rfl, hin⟩ := call_lock hlinked hmove
      exact .of_counts hin rfl rfl hfacts (fun h => h.elim) rfl
  | condSleep phase a seq =>
    cases hmove
    exact .of_counts hlinked rfl rfl hfacts (fun h => h.elim) rfl
  | condLock phase a =>
    rcases resume_spec hmove with ⟨r, hr, rfl, rfl⟩ | ⟨hne, l, v, hstep, rfl, rfl⟩
    · exact .of_counts ⟨r, hlinked.over hr⟩ rfl rfl ⟨henter hlinked ⟨r, hr⟩ id, hfacts⟩
        (fun h => h.elim) rfl
    · exact .inside (InLock.move hlinked hne hstep) hfacts id
  | unlocking a =>
    rcases resume_spec hmove with ⟨r, hr, rfl, rfl⟩ | ⟨hne, l, v, hstep, rfl, rfl⟩
    · refine ⟨⟨r, hlinked.over hr⟩, trivial, .inl rfl, fun h => h.elim, .leave hfacts.2 rfl ?_⟩
      rw [result, if_neg hfacts.1]
    · exact .inside (InUnlock.move hlinked hne hstep) hfacts id

theorem move_lock (hmove : move n self m t = some (m', t')) :
    (m'.lock = m.lock ∧ t'.lock = t.lock ∨
      ∃ f, Mutex.move .normal self f m.lock t.lock = some (m'.lock, t'.lock)) ∧
    m.arrived ≤ m'.arrived := by
  have hcall : ∀ {f p}, call self f p m t = some (m', t') →
      (∃ f, Mutex.move .normal self f m.lock t.lock = some (m'.lock, t'.lock)) ∧
        m.arrived ≤ m'.arrived := by
    intro f p h
    obtain ⟨l, u, hstep, rfl, rfl⟩ := call_spec h
    exact ⟨⟨f, hstep⟩, le_rfl⟩
  have hresume : ∀ {next : Mem × Place}, next.1.lock = m.lock → m.arrived = next.1.arrived →
      resume self next m t = some (m', t') →
      (m'.lock = m.lock ∧ t'.lock = t.lock ∨
        ∃ f, Mutex.move .normal self f m.lock t.lock = some (m'.lock, t'.lock)) ∧
      m.arrived ≤ m'.arrived := by
    intro next hlock harrived h
    rcases resume_spec h with ⟨r, -, rfl, rfl⟩ | ⟨-, l, u, hstep, rfl, rfl⟩
    · exact ⟨.inl ⟨hlock, rfl⟩, harrived.le⟩
    · exact ⟨.inr ⟨_, hstep⟩, le_rfl⟩
  obtain ⟨p, u⟩ := t
  cases p with
  | out | wakeAll a | condSeq phase a => exact (hcall hmove).imp_left .inr
  | locking | unlockLast a | condUnlock phase a seq | condLock phase a | unlocking a =>
    exact hresume rfl rfl hmove
  | loop phase a =>
    change (if phase = m.phase then _ else _) = _ at hmove
    split at hmove
    · cases hmove
      exact ⟨.inl ⟨rfl, rfl⟩, le_rfl⟩
    · exact (hcall hmove).imp_left .inr
  | condTest phase a seq =>
    change (if m.seq = seq then _ else _) = _ at hmove
    split at hmove
    · cases hmove
      exact ⟨.inl ⟨rfl, rfl⟩, le_rfl⟩
    · exact (hcall hmove).imp_left .inr
  | add phase =>
    cases hmove
    exact ⟨.inl ⟨rfl, rfl⟩, le_succ _⟩
  | _ =>
    cases hmove
    exact ⟨.inl ⟨rfl, rfl⟩, le_rfl⟩

theorem Linked.held_of_critical (h : Linked t) (hp : t.place.Critical) : t.lock.held = 1 := by
  obtain ⟨p, u⟩ := t
  cases p with
  | loadPhase | add _ | test _ _ _ | clear _ | bump _ | broadcast _ | wakeAll _ | loop _ _
  | condSeq _ _ =>
    obtain ⟨r, hr⟩ := h
    exact congrArg Mutex.Thread.held hr
  | _ => exact hp.elim

/-! ## All threads -/

section threads

variable {ι : Type*} {ids : ι → BitVec 64} {c c' : Conf ι Mem Thread}

/-- The books: the calls that have arrived and not returned, and those that have returned. -/
structure Books (N arrived : ℕ) (returned : List (ℕ × ℤ)) (ticket : ι → Option ℕ) : Prop where
  lt : ∀ i a, ticket i = some a → a < arrived
  notMem : ∀ i a, ticket i = some a → a ∉ returned.map Prod.fst
  inj : ∀ i j a, ticket i = some a → ticket j = some a → i = j
  nodup : (returned.map Prod.fst).Nodup
  done : ∀ e ∈ returned, e.1 / N < arrived / N ∧ e.2 = result N e.1

/-- The invariant: one thread holds the mutex, and the counters and the places fit together. -/
structure Inv (n : BitVec 32) (ids : ι → BitVec 64) (c : Conf ι Mem Thread) : Prop where
  owned : ∃ h, Mutex.Owned .normal ids h (lockConf c)
  linked : ∀ i, Linked (c.loc i)
  facts : ∀ i, Facts n.toNat c.mem.counts (c.loc i).place
  quiet : (∀ i, ¬ (c.loc i).place.Critical) → Quiet n.toNat c.mem.counts
  books : Books n.toNat c.mem.arrived c.mem.returned fun i => (c.loc i).place.ticket

variable [DecidableEq ι]

theorem Books.step {ticket : ι → Option ℕ} {i : ι} {x : Option ℕ}
    (h : Books N m.arrived m.returned ticket) (hb : Booked N m m' (ticket i) x) :
    Books N m'.arrived m'.returned (Function.update ticket i x) := by
  have hcases : ∀ {j a}, Function.update ticket i x j = some a →
      j = i ∧ x = some a ∨ j ≠ i ∧ ticket j = some a := by
    intro j a hj
    by_cases hji : j = i
    · subst hji
      rw [update_self] at hj
      exact .inl ⟨rfl, hj⟩
    · rw [update_of_ne hji] at hj
      exact .inr ⟨hji, hj⟩
  generalize hy : ticket i = y at hb
  cases hb with
  | keep _ ha hr =>
    rw [ha, hr, ← hy, update_eq_self]
    exact h
  | arrive ha hr =>
    rw [ha, hr]
    have hfresh : m.arrived ∉ m.returned.map Prod.fst := by
      intro hmem
      obtain ⟨e, he, heq⟩ := List.mem_map.1 hmem
      have := (h.done e he).1
      rw [heq] at this
      exact lt_irrefl _ this
    refine ⟨fun j a hj => ?_, fun j a hj => ?_, fun j l a hj hl => ?_, h.nodup, fun e he => ?_⟩
    · rcases hcases hj with ⟨-, hx⟩ | ⟨-, hj⟩
      · exact some.inj hx ▸ lt_succ_self _
      · exact lt_succ_of_lt (h.lt j a hj)
    · rcases hcases hj with ⟨-, hx⟩ | ⟨-, hj⟩
      · exact some.inj hx ▸ hfresh
      · exact h.notMem j a hj
    · rcases hcases hj with ⟨hji, hx⟩ | ⟨-, hj'⟩ <;> rcases hcases hl with ⟨hli, hx'⟩ | ⟨-, hl'⟩
      · exact hji.trans hli.symm
      · exact absurd (h.lt l a hl') (some.inj hx ▸ lt_irrefl _)
      · exact absurd (h.lt j a hj') (some.inj hx' ▸ lt_irrefl _)
      · exact h.inj j l a hj' hl'
    · have := h.done e he
      exact ⟨this.1.trans_le (Nat.div_le_div_right (le_succ _)), this.2⟩
  | @leave a hc ha hr =>
    rw [ha, hr]
    refine ⟨fun j b hj => ?_, fun j b hj => ?_, fun j l b hj hl => ?_, ?_, ?_⟩
    · rcases hcases hj with ⟨-, hx⟩ | ⟨-, hj⟩
      · cases hx
      · exact h.lt j b hj
    · rcases hcases hj with ⟨-, hx⟩ | ⟨hne, hj⟩
      · cases hx
      · rw [map_cons, mem_cons, not_or]
        refine ⟨fun hba => ?_, h.notMem j b hj⟩
        obtain rfl : b = a := hba
        exact hne (h.inj j i b hj hy)
    · rcases hcases hj with ⟨-, hx⟩ | ⟨-, hj⟩
      · cases hx
      rcases hcases hl with ⟨-, hx⟩ | ⟨-, hl⟩
      · cases hx
      exact h.inj j l b hj hl
    · rw [map_cons]
      exact nodup_cons.2 ⟨h.notMem i a hy, h.nodup⟩
    · rw [forall_mem_cons]
      exact ⟨⟨hc, rfl⟩, h.done⟩

/-- **One step.** -/
theorem step_inv {a : ι × Unit} (hids : Mutex.Distinct ids) (hn : 0 < n.toNat) (hinv : Inv n ids c)
    (hbound : c'.mem.arrived / n.toNat < 2 ^ 32) (hstep : (program n ids).step a c = some c') :
    Inv n ids c' := by
  obtain ⟨m, t, hmove, rfl⟩ := Program.step_eq_some hstep
  obtain ⟨i, call⟩ := a
  obtain ⟨⟨h, howned⟩, hlinked, hfacts, hquiet, hbooks⟩ := hinv
  have hholder : ∀ j, (c.loc j).lock.held = 1 → h = some j := fun j hj =>
    (howned.held_pos_iff j).1 (by change 0 < (c.loc j).lock.held; omega)
  have hcritical : ∀ j, (c.loc j).place.Critical → h = some j := fun j hj =>
    hholder j ((hlinked j).held_of_critical hj)
  have hm : Moved n.toNat c.mem m (c.loc i) t := by
    refine move_moved hn (hlinked i) (hfacts i) (fun hin hout hp => ?_) hbound hmove
    obtain ⟨r, hr⟩ := hout
    have hi : h = some i := hholder i (congrArg Mutex.Thread.held (hin.over hr))
    refine hquiet fun j hj => ?_
    obtain rfl := some.inj (hi.symm.trans (hcritical j hj))
    exact hp hj
  have hself : Function.update c.loc i t i = t := update_self ..
  have hrest : ∀ j, j ≠ i → Function.update c.loc i t j = c.loc j := fun j hj =>
    update_of_ne hj ..
  refine ⟨?_, fun j => ?_, fun j => ?_, fun hall => ?_, ?_⟩
  · have hconf : lockConf ⟨m, Function.update c.loc i t⟩
        = ⟨m.lock, Function.update (lockConf c).loc i t.lock⟩ := by
      unfold lockConf
      congr 1
      exact comp_update Thread.lock c.loc i t
    rw [hconf]
    rcases (move_lock hmove).1 with ⟨hl, ht⟩ | ⟨f, hf⟩
    · refine ⟨h, ?_⟩
      rw [hl, ht]
      have : Function.update (lockConf c).loc i (c.loc i).lock = (lockConf c).loc :=
        update_eq_self ..
      rw [this]
      exact howned
    · have hlock : (Mutex.program .normal ids).step (i, f) (lockConf c)
          = some ⟨m.lock, Function.update (lockConf c).loc i t.lock⟩ :=
        map_eq_some_iff.2 ⟨_, hf, rfl⟩
      exact Mutex.step_owned hids howned (howned.noWrap_of_normal i) hlock
  · dsimp only
    by_cases hj : j = i
    · subst hj
      rw [hself]
      exact hm.linked
    · rw [hrest j hj]
      exact hlinked j
  · dsimp only
    by_cases hj : j = i
    · subst hj
      rw [hself]
      exact hm.facts
    · rw [hrest j hj]
      rcases hm.counts with heq | ⟨hp, hle⟩
      · rw [heq]
        exact hfacts j
      · refine (hfacts j).mono (fun hp' => hj ?_) hle
        exact some.inj ((hcritical j hp').symm.trans (hcritical i hp))
  · have hout : ¬ t.place.Critical := hself ▸ hall i
    by_cases hp : (c.loc i).place.Critical
    · exact hm.quiet hp hout
    · rcases hm.counts with heq | ⟨hp', -⟩
      · rw [heq]
        refine hquiet fun j => ?_
        by_cases hj : j = i
        · exact hj ▸ hp
        · exact hrest j hj ▸ hall j
      · exact absurd hp' hp
  · have hticket : (fun j => (Function.update c.loc i t j).place.ticket)
        = Function.update (fun j => (c.loc j).place.ticket) i t.place.ticket :=
      comp_update (fun t : Thread => t.place.ticket) c.loc i t
    dsimp only
    rw [hticket]
    exact hbooks.step hm.booked

omit [DecidableEq ι] in
theorem init_inv (ids : ι → BitVec 64) (hinit : init ι n = some c) : 0 < n.toNat ∧ Inv n ids c := by
  unfold init at hinit
  split at hinit
  · cases hinit
  next hn =>
  cases hinit
  have hpos : 0 < n.toNat := pos_of_ne_zero fun h => hn (BitVec.eq_of_toNat_eq h)
  have hquiet : Quiet n.toNat ⟨0, 0, 0⟩ := ⟨(zero_mod _).symm, (Nat.zero_div _).symm⟩
  refine ⟨hpos, ⟨none, ?_⟩, fun i => ⟨0, rfl⟩, fun i => trivial, fun _ => hquiet, ?_⟩
  · exact Mutex.start_owned
  · exact ⟨fun i a h => by simp [Place.ticket] at h, fun i a h => by simp [Place.ticket] at h,
      fun i j a h => by simp [Place.ticket] at h, nodup_nil, forall_mem_nil _⟩

end threads

/-- **The phases of a barrier of `N`**, in the order of arrival: no call returns twice; when a call
has returned, all `N` calls of its group have arrived; and it returned
`PTHREAD_BARRIER_SERIAL_THREAD` if it was the last of its group, else zero. So of a group that has
returned, exactly one call returned that. -/
structure Phases (N : ℕ) (m : Mem) : Prop where
  once : (m.returned.map Prod.fst).Nodup
  together : ∀ a v, (a, v) ∈ m.returned → (a / N + 1) * N ≤ m.arrived
  value : ∀ a v, (a, v) ∈ m.returned →
    v = if a % N = N - 1 then PTHREAD_BARRIER_SERIAL_THREAD else 0
  serial : ∀ g, (∀ a, a / N = g → ∃ v, (a, v) ∈ m.returned) →
    ∃! a, a / N = g ∧ (a, PTHREAD_BARRIER_SERIAL_THREAD) ∈ m.returned

theorem Books.phases {ι : Type*} {ticket : ι → Option ℕ} (hN : 0 < N)
    (h : Books N m.arrived m.returned ticket) : Phases N m := by
  have hresult : ∀ a, result N a = if a % N = N - 1 then PTHREAD_BARRIER_SERIAL_THREAD else 0 := by
    intro a
    have hiff : Last N a ↔ a % N = N - 1 := by
      unfold Last
      omega
    exact if_congr hiff rfl rfl
  have hvalue : ∀ a v, (a, v) ∈ m.returned →
      v = if a % N = N - 1 then PTHREAD_BARRIER_SERIAL_THREAD else 0 := fun a v hav =>
    (h.done _ hav).2.trans (hresult a)
  refine ⟨h.nodup, fun a v hav => ?_, hvalue, fun g hg => ?_⟩
  · exact (Nat.le_div_iff_mul_le hN).1 (h.done _ hav).1
  · have hgroup : (g * N + (N - 1)) / N = g := by
      rw [mul_comm, mul_add_div hN, div_eq_of_lt (by omega), add_zero]
    have hlast : (g * N + (N - 1)) % N = N - 1 := by
      rw [mul_comm, mul_add_mod, mod_eq_of_lt (by omega)]
    obtain ⟨v, hv⟩ := hg _ hgroup
    have hserial := hvalue _ _ hv
    rw [if_pos hlast] at hserial
    refine ⟨_, ⟨hgroup, hserial ▸ hv⟩, fun b hb => ?_⟩
    obtain ⟨hbg, hbm⟩ := hb
    have hbv := hvalue _ _ hbm
    have hbl : b % N = N - 1 := by
      by_contra hne
      rw [if_neg hne] at hbv
      cases hbv
    rw [← div_add_mod b N, hbg, hbl, mul_comm]

/-- **A barrier groups the calls in the order of their arrival**, whatever the interleaving, as long
as fewer than `2 ^ 32` phases are complete. -/
theorem phases_of_run {ι : Type*} [DecidableEq ι] {ids : ι → BitVec 64} {c₀ c : Conf ι Mem Thread}
    {as : List (ι × Unit)} (hids : Mutex.Distinct ids) (hinit : init ι n = some c₀)
    (hrun : (program n ids).exec as c₀ = some c) (hphases : c.mem.arrived / n.toNat < 2 ^ 32) :
    Phases n.toNat c.mem := by
  obtain ⟨hn, hinv⟩ := init_inv ids hinit
  have hmain := Program.exec_preserves
    (I := fun c => c.mem.arrived / n.toNat < 2 ^ 32 → Inv n ids c) (fun a c c' hI hstep hbound => by
      obtain ⟨m, t, hmove, rfl⟩ := Program.step_eq_some hstep
      have hle : c.mem.arrived ≤ m.arrived := (move_lock hmove).2
      have hbefore := (Nat.div_le_div_right hle).trans_lt hbound
      exact step_inv hids hn (hI hbefore) hbound hstep) (fun _ => hinv) hrun
  exact (hmain hphases).books.phases hn

/-- A thread arrives and waits; another one arrives, and both return. -/
def twoArrive : List (Bool × Unit) :=
  List.replicate 16 (false, ()) ++ List.replicate 17 (true, ()) ++ List.replicate 12 (false, ())

theorem phases_of_run_two :
    ∃ c₀ c, init Bool 2 = some c₀ ∧ (program 2 Mutex.twoIds).exec twoArrive c₀ = some c ∧
      c.mem.returned = [(0, 0), (1, -1)] ∧ Phases 2 c.mem := by
  have hinit : init Bool 2 = some _ := rfl
  have hrun : (program 2 Mutex.twoIds).exec twoArrive
    ⟨⟨⟨false, 0, 0⟩, 0, 0, 0, 0, []⟩, fun _ => ⟨.out, ⟨.out 0, 0⟩⟩⟩ = some _ := rfl
  exact ⟨_, _, hinit, hrun, rfl, phases_of_run Mutex.twoIds_distinct hinit hrun (by decide)⟩

end Vlibc.Pthread.Barrier
