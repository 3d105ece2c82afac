import Vlibc.Foundations.Interleaving

/-!
# Read-write locks

`pthread_rwlock_rdlock`, `pthread_rwlock_wrlock` and `pthread_rwlock_unlock` of `pthread_rwlock.c`,
one atomic operation a step. `futex_wait` may return at any time and changes nothing, and neither
does `futex_wake`.

A thread keeps a record of what it holds, which the program does not have: `unlock` finds out from
the flag what kind of hold it releases. The flag may have been set by a writer that waits for the
readers to leave. A reader that sees it then clears the flag and leaves its count in `readers`.
-/

namespace Vlibc.Pthread.Rwlock

open Interleaving Option

/-- `pthread_rwlock_t`; `writer` is only ever 0 or 1. -/
structure Mem where
  readers : BitVec 32
  writer : Bool
  deriving DecidableEq

/-- How a thread holds the lock. -/
inductive Hold
  | read
  | write
  deriving DecidableEq

/-- The places in the functions. -/
inductive Place
  /-- Between calls. -/
  | out
  /-- `while (atomic_load(&rwlock->writer))`. -/
  | rdTest
  /-- `futex_wait(&rwlock->writer, 1, NULL)`. -/
  | rdWait
  /-- `atomic_fetch_add(&rwlock->readers, 1)`. -/
  | rdAdd
  /-- `if (!atomic_load(&rwlock->writer)) break`. -/
  | rdCheck
  /-- `atomic_fetch_sub(&rwlock->readers, 1)`. -/
  | rdUndo
  /-- `while (atomic_exchange(&rwlock->writer, 1))`. -/
  | wrSwap
  /-- `futex_wait(&rwlock->writer, 1, NULL)`. -/
  | wrWait
  /-- `while (atomic_load(&rwlock->readers) != 0)`. -/
  | wrTest
  /-- `futex_wait(&rwlock->readers, 0, NULL)`. -/
  | wrDrain
  /-- `if (atomic_load(&rwlock->writer))`, with the hold to release. -/
  | unTest (h : Hold)
  /-- `atomic_store(&rwlock->writer, 0)`. -/
  | unClear (h : Hold)
  /-- `atomic_fetch_sub(&rwlock->readers, 1)`. -/
  | unSub (h : Hold)
  /-- `futex_wake`. -/
  | unWake
  deriving DecidableEq

/-- A thread: its place, and the holds it has and has not passed to `unlock`. -/
structure Thread where
  place : Place
  reads : ℕ
  writes : ℕ
  deriving DecidableEq

/-- A call, with the hold that `unlock` is for. -/
inductive Call
  | rdlock
  | wrlock
  | unlock (h : Hold)

namespace Thread

/-- The thread goes on at a place. -/
def go (t : Thread) (p : Place) : Thread := { t with place := p }

/-- Begin a call. A thread calls `unlock` for a hold it has. -/
def begin (t : Thread) : Call → Option Thread
  | .rdlock => some (t.go .rdTest)
  | .wrlock => some (t.go .wrSwap)
  | .unlock .read => if t.reads = 0 then none else some ⟨.unTest .read, t.reads - 1, t.writes⟩
  | .unlock .write => if t.writes = 0 then none else some ⟨.unTest .write, t.reads, t.writes - 1⟩

end Thread

/-- One step of a thread. -/
def move (call : Call) (m : Mem) (t : Thread) : Option (Mem × Thread) :=
  match t.place with
  | .out => (t.begin call).map fun t => (m, t)
  | .rdTest => some (m, t.go (if m.writer then .rdWait else .rdAdd))
  | .rdWait => some (m, t.go .rdTest)
  | .rdAdd => some ({ m with readers := m.readers + 1 }, t.go .rdCheck)
  | .rdCheck => some (m, if m.writer then t.go .rdUndo else ⟨.out, t.reads + 1, t.writes⟩)
  | .rdUndo => some ({ m with readers := m.readers - 1 }, t.go .rdTest)
  | .wrSwap => some ({ m with writer := true }, t.go (if m.writer then .wrWait else .wrTest))
  | .wrWait => some (m, t.go .wrSwap)
  | .wrTest => some (m, if m.readers = 0 then ⟨.out, t.reads, t.writes + 1⟩ else t.go .wrDrain)
  | .wrDrain => some (m, t.go .wrTest)
  | .unTest h => some (m, t.go (if m.writer then .unClear h else .unSub h))
  | .unClear _ => some ({ m with writer := false }, t.go .unWake)
  | .unSub _ =>
    some ({ m with readers := m.readers - 1 }, t.go (if m.readers = 1 then .unWake else .out))
  | .unWake => some (m, t.go .out)

/-- Every thread runs the same code. -/
def program (ι : Type*) : Program ι Call Mem Thread := fun _ => move

/-- After `pthread_rwlock_init`, before the first call. -/
def start (ι : Type*) : Conf ι Mem Thread := ⟨⟨0, false⟩, fun _ => ⟨.out, 0, 0⟩⟩

/-! ## What a step does -/

/-- One for a thread that has counted itself in `readers`, and is neither out again nor done. -/
def Place.counted : Place → ℕ
  | .rdCheck | .rdUndo | .unTest .read | .unClear .read | .unSub .read => 1
  | _ => 0

/-- One for a thread that has set the flag for itself, and not cleared it. -/
def Place.flagged : Place → ℕ
  | .wrTest | .wrDrain | .unTest .write | .unClear .write | .unSub .write => 1
  | _ => 0

/-- One for a thread that is releasing a hold. -/
def Place.releases (h : Hold) : Place → ℕ
  | .unTest h' | .unClear h' | .unSub h' => if h' = h then 1 else 0
  | _ => 0

namespace Thread

/-- The share of a thread in `readers`. -/
def counted (t : Thread) : ℕ := t.reads + t.place.counted

/-- The share of a thread in `writer`. -/
def flagged (t : Thread) : ℕ := t.writes + t.place.flagged

/-- The holds for reading, with those being released. -/
def reading (t : Thread) : ℕ := t.reads + t.place.releases .read

/-- The holds for writing, with those being released. -/
def writing (t : Thread) : ℕ := t.writes + t.place.releases .write

end Thread

/-- What a step does to the memory and to the shares of its thread. -/
inductive Effect (m : Mem) (t t' : Thread) : Mem → Prop
  | none (hc : t'.counted = t.counted) (hf : t'.flagged = t.flagged) (hr : t'.reading = t.reading)
      (hw : t'.writing = t.writing) : Effect m t t' m
  | add (hp : t.place = .rdAdd) (hc : t'.counted = t.counted + 1) (hf : t'.flagged = t.flagged)
      (hr : t'.reading = t.reading) (hw : t'.writing = t.writing) :
      Effect m t t' { m with readers := m.readers + 1 }
  | enter (hm : m.writer = false) (hc : t'.counted = t.counted) (hf : t'.flagged = t.flagged)
      (hr : t'.reading = t.reading + 1) (hw : t'.writing = t.writing) : Effect m t t' m
  | undo (hc : t.counted = t'.counted + 1) (hf : t'.flagged = t.flagged)
      (hr : t'.reading = t.reading) (hw : t'.writing = t.writing) :
      Effect m t t' { m with readers := m.readers - 1 }
  | flag (hm : m.writer = false) (hc : t'.counted = t.counted) (hf : t'.flagged = t.flagged + 1)
      (hr : t'.reading = t.reading) (hw : t'.writing = t.writing) :
      Effect m t t' { m with writer := true }
  | seize (hm : m.readers = 0) (hp : 0 < t.flagged) (hc : t'.counted = t.counted)
      (hf : t'.flagged = t.flagged) (hr : t'.reading = t.reading)
      (hw : t'.writing = t.writing + 1) : Effect m t t' m
  | lose (hp : t.place = .unClear .read) (hc : t.counted = t'.counted + 1)
      (hf : t'.flagged = t.flagged) (hr : t.reading = t'.reading + 1)
      (hw : t'.writing = t.writing) : Effect m t t' { m with writer := false }
  | clear (hp : t.place = .unClear .write) (hc : t'.counted = t.counted)
      (hf : t.flagged = t'.flagged + 1) (hr : t'.reading = t.reading)
      (hw : t.writing = t'.writing + 1) : Effect m t t' { m with writer := false }
  | leave (hp : t.place = .unSub .read) (hc : t.counted = t'.counted + 1)
      (hf : t'.flagged = t.flagged) (hr : t.reading = t'.reading + 1)
      (hw : t'.writing = t.writing) : Effect m t t' { m with readers := m.readers - 1 }
  | stray (hp : t.place = .unSub .write) : Effect m t t' { m with readers := m.readers - 1 }

variable {t t' : Thread} {call : Call}

open Thread

theorem begin_place (h : t.begin call = some t') :
    t'.place = .rdTest ∨ t'.place = .wrSwap ∨ ∃ k, t'.place = .unTest k := by
  cases call with
  | rdlock => exact .inl (by rw [← some.inj h]; rfl)
  | wrlock => exact .inr (.inl (by rw [← some.inj h]; rfl))
  | unlock k =>
    refine .inr (.inr ⟨k, ?_⟩)
    cases k <;> rw [begin] at h <;> split at h
    · cases h
    · rw [← some.inj h]
    · cases h
    · rw [← some.inj h]

theorem begin_effect {m : Mem} (hp : t.place = .out)
    (h : t.begin call = some t') : Effect m t t' m := by
  obtain ⟨p, r, w⟩ := t
  obtain rfl : p = .out := hp
  cases call with
  | rdlock | wrlock =>
    cases h
    exact .none rfl rfl rfl rfl
  | unlock k =>
    cases k with
    | read =>
      rw [begin] at h
      split at h
      · cases h
      · next hr =>
        cases h
        have hr : r - 1 + 1 = r := Nat.succ_pred_eq_of_ne_zero hr
        exact .none hr rfl hr rfl
    | write =>
      rw [begin] at h
      split at h
      · cases h
      · next hw =>
        cases h
        have hw : w - 1 + 1 = w := Nat.succ_pred_eq_of_ne_zero hw
        exact .none rfl hw rfl hw

/-- **What a step does.** -/
theorem move_effect {m m' : Mem}
    (h : move call m t = some (m', t')) : Effect m t t' m' := by
  obtain ⟨p, r, w⟩ := t
  obtain ⟨readers, writer⟩ := m
  cases p with
  | out =>
    obtain ⟨u, hu, hres⟩ := map_eq_some_iff.1 h
    cases hres
    exact begin_effect rfl hu
  | rdTest =>
    cases h
    cases writer <;> exact .none rfl rfl rfl rfl
  | rdWait =>
    cases h
    exact .none rfl rfl rfl rfl
  | rdAdd =>
    cases h
    exact .add rfl rfl rfl rfl rfl
  | rdCheck =>
    cases h
    cases writer
    · exact .enter rfl rfl rfl rfl rfl
    · exact .none rfl rfl rfl rfl
  | rdUndo =>
    cases h
    exact .undo rfl rfl rfl rfl
  | wrSwap =>
    cases h
    cases writer
    · exact .flag rfl rfl rfl rfl rfl
    · exact .none rfl rfl rfl rfl
  | wrWait =>
    cases h
    exact .none rfl rfl rfl rfl
  | wrTest =>
    cases h
    split
    · next h0 => exact .seize h0 (Nat.succ_pos _) rfl rfl rfl rfl
    · exact .none rfl rfl rfl rfl
  | wrDrain =>
    cases h
    exact .none rfl rfl rfl rfl
  | unTest k =>
    cases h
    cases k <;> cases writer <;> exact .none rfl rfl rfl rfl
  | unClear k =>
    cases h
    cases k
    · exact .lose rfl rfl rfl rfl rfl
    · exact .clear rfl rfl rfl rfl rfl
  | unSub k =>
    cases h
    cases k
    · dsimp only
      split <;> exact .leave rfl rfl rfl rfl rfl
    · exact .stray rfl
  | unWake =>
    cases h
    exact .none rfl rfl rfl rfl

theorem move_enters {m m' : Mem} {k : Hold}
    (h : move call m t = some (m', t')) :
    (t'.place = .unClear k → t.place = .unTest k ∧ m.writer = true) ∧
      (t'.place = .unSub k → t.place = .unTest k ∧ m.writer = false) := by
  obtain ⟨p, r, w⟩ := t
  obtain ⟨readers, writer⟩ := m
  cases p with
  | out =>
    obtain ⟨u, hu, hres⟩ := map_eq_some_iff.1 h
    cases hres
    rcases begin_place hu with hp | hp | ⟨k', hp⟩ <;> simp [hp]
  | unTest k' =>
    cases h
    cases writer <;> simp [Thread.go]
  | rdTest | rdCheck | wrSwap | wrTest | unSub k' =>
    cases h
    split <;> simp [Thread.go]
  | _ =>
    cases h
    simp [Thread.go]

/-! ## Exclusion -/

/-- **Exclusion**: at most one thread holds the lock for writing, and when one does no thread holds
it for reading. -/
structure Exclusive {ι : Type*} (c : Conf ι Mem Thread) : Prop where
  one : ∀ i j, 0 < (c.loc i).writes → 0 < (c.loc j).writes → i = j
  apart : ∀ i j, 0 < (c.loc i).writes → (c.loc j).reads = 0

section exclusion

variable {ι : Type*} [Fintype ι]

/-- The invariant, with the number `lost` of readers that have left without counting themselves
out. -/
structure Inv (lost : ℕ) (c : Conf ι Mem Thread) : Prop where
  readers : c.mem.readers.toNat = total Thread.counted c.loc + lost
  writer : lost = 0 → total Thread.flagged c.loc = c.mem.writer.toNat
  apart : 0 < total Thread.writing c.loc →
    c.mem.writer.toNat = 1 ∧ lost = 0 ∧ total Thread.reading c.loc = 0
  sound : ∀ i, (c.loc i).place ≠ .unSub .write

theorem Place.flagged_le (p : Place) : p.releases .write ≤ p.flagged := by
  cases p with
  | unTest k | unClear k | unSub k => cases k <;> decide
  | _ => exact Nat.zero_le _

theorem Place.counted_le (p : Place) : p.releases .read ≤ p.counted := by
  cases p with
  | unTest k | unClear k | unSub k => cases k <;> decide
  | _ => exact Nat.zero_le _

theorem writing_le (c : Conf ι Mem Thread) :
    total Thread.writing c.loc ≤ total Thread.flagged c.loc :=
  total_mono (fun t => Nat.add_le_add_left t.place.flagged_le _) c.loc

theorem reading_le (c : Conf ι Mem Thread) :
    total Thread.reading c.loc ≤ total Thread.counted c.loc :=
  total_mono (fun t => Nat.add_le_add_left t.place.counted_le _) c.loc

variable [DecidableEq ι] {c c' : Conf ι Mem Thread} {lost : ℕ}

/-- The increment of `readers` does not wrap around. -/
def NoWrap (i : ι) (c : Conf ι Mem Thread) : Prop :=
  (c.loc i).place = .rdAdd → c.mem.readers ≠ -1

instance (i : ι) (c : Conf ι Mem Thread) : Decidable (NoWrap i c) :=
  inferInstanceAs (Decidable (_ → _))

/-- **One step** keeps the invariant; a reader is lost only where one stores to the flag. -/
theorem step_inv {a : ι × Call} (hinv : Inv lost c) (hok : NoWrap a.1 c)
    (h : (program ι).step a c = some c') :
    ∃ lost', Inv lost' c' ∧ ((c.loc a.1).place ≠ .unClear .read → lost' = lost) := by
  obtain ⟨m, t, hmove, rfl⟩ := Program.step_eq_some h
  obtain ⟨i, call⟩ := a
  have hC := total_update counted c.loc i t
  have hF := total_update flagged c.loc i t
  have hR := total_update reading c.loc i t
  have hW := total_update writing c.loc i t
  have hWF := writing_le c
  have hRC := reading_le c
  have hC' := le_total counted c.loc i
  have hF' := le_total flagged c.loc i
  have hW' := le_total writing c.loc i
  obtain ⟨hreaders, hwriter, hapart, hsound⟩ := hinv
  have hsound' : ∀ j, (Function.update c.loc i t j).place ≠ .unSub .write := by
    intro j
    by_cases hj : j = i
    · subst hj
      rw [Function.update_self]
      intro hp
      -- the flag of a writer that releases its hold is set
      obtain ⟨htest, hm⟩ := (move_enters hmove).2 hp
      have hpos : 0 < (c.loc j).writing := by
        unfold writing
        rw [htest]
        exact Nat.succ_pos _
      have hset := (hapart (by omega)).1
      rw [hm] at hset
      cases hset
    · rw [Function.update_of_ne hj]
      exact hsound j
  have heff : Effect c.mem (c.loc i) t m := move_effect hmove
  cases heff with
  | none hc hf hr hw =>
    refine ⟨lost, ⟨?_, ?_, ?_, hsound'⟩, fun _ => rfl⟩ <;> dsimp only <;> omega
  | add hp hc hf hr hw =>
    have hadd := toNat_add_one (hok hp)
    refine ⟨lost, ⟨?_, ?_, ?_, hsound'⟩, fun _ => rfl⟩ <;> dsimp only <;> omega
  | enter hm hc hf hr hw =>
    rw [hm, Bool.toNat_false] at hapart
    refine ⟨lost, ⟨?_, ?_, ?_, hsound'⟩, fun _ => rfl⟩ <;> dsimp only <;> omega
  | undo hc hf hr hw =>
    have hsub : (c.mem.readers - 1).toNat = c.mem.readers.toNat - 1 := toNat_sub_one (by omega)
    refine ⟨lost, ⟨?_, ?_, ?_, hsound'⟩, fun _ => rfl⟩ <;> dsimp only <;> omega
  | flag hm hc hf hr hw =>
    rw [hm, Bool.toNat_false] at hwriter hapart
    refine ⟨lost, ⟨?_, ?_, ?_, hsound'⟩, fun _ => rfl⟩ <;> dsimp only [Bool.toNat_true] <;> omega
  | seize hm hp hc hf hr hw =>
    -- nobody is counted, so nobody was lost, and the flag belongs to this writer alone
    have h0 : c.mem.readers.toNat = 0 := by rw [hm]; rfl
    have hle := Bool.toNat_le c.mem.writer
    refine ⟨lost, ⟨?_, ?_, ?_, hsound'⟩, fun _ => rfl⟩ <;> dsimp only <;> omega
  | lose hp hc hf hr hw =>
    refine ⟨lost + 1, ⟨?_, ?_, ?_, hsound'⟩, fun hne => absurd hp hne⟩ <;> dsimp only <;> omega
  | clear hp hc hf hr hw =>
    refine ⟨lost, ⟨?_, ?_, ?_, hsound'⟩, fun _ => rfl⟩ <;> dsimp only [Bool.toNat_false] <;> omega
  | leave hp hc hf hr hw =>
    have hsub : (c.mem.readers - 1).toNat = c.mem.readers.toNat - 1 := toNat_sub_one (by omega)
    refine ⟨lost, ⟨?_, ?_, ?_, hsound'⟩, fun _ => rfl⟩ <;> dsimp only <;> omega
  | stray hp => exact absurd hp (hsound i)

omit [DecidableEq ι] in
theorem start_inv : Inv 0 (start ι) := by
  have hzero : ∀ f : Thread → ℕ, f ⟨.out, 0, 0⟩ = 0 → total f (start ι).loc = 0 :=
    fun f hf => total_eq_zero fun _ => hf
  refine ⟨(hzero _ rfl).symm, fun _ => hzero _ rfl, fun h => ?_, fun _ h => ?_⟩
  · rw [hzero _ rfl] at h
    exact absurd h (lt_irrefl 0)
  · exact Place.noConfusion h

theorem Inv.exclusive (h : Inv lost c) : Exclusive c := by
  have hwrites : total writes c.loc ≤ total writing c.loc :=
    total_mono (fun t => Nat.le_add_right _ _) c.loc
  have hreads : total reads c.loc ≤ total reading c.loc :=
    total_mono (fun t => Nat.le_add_right _ _) c.loc
  have hWF := writing_le c
  obtain ⟨-, hwriter, hapart, -⟩ := h
  refine ⟨fun i j hi hj => ?_, fun i j hi => ?_⟩
  · have hle := le_total writes c.loc i
    exact eq_of_total_le_one (f := writes) (by omega) hi hj
  · have hle := le_total writes c.loc i
    have hle' := le_total reads c.loc j
    omega

/-- **Exclusion holds as long as `readers` does not wrap around.** -/
theorem exclusive_of_noWrap {as : List (ι × Call)}
    (hrun : (program ι).exec as (start ι) = some c)
    (hok : (program ι).Meets NoWrap as (start ι)) : Exclusive c := by
  obtain ⟨lost, hinv⟩ := Program.exec_invariant (I := fun c => ∃ lost, Inv lost c)
    (fun a c c' hI hok h => by
      obtain ⟨lost, hinv⟩ := hI
      obtain ⟨lost', hinv', -⟩ := step_inv hinv hok h
      exact ⟨lost', hinv'⟩) ⟨0, start_inv⟩ hok hrun
  exact hinv.exclusive

end exclusion

/-- A reader enters; a writer sets the flag and finds the count at one. -/
def readerAndWriter : List (Bool × Call) :=
  List.replicate 4 (false, .rdlock) ++ List.replicate 3 (true, .wrlock)

theorem exclusive_of_noWrap_two :
    ∃ c, (program Bool).exec readerAndWriter (start Bool) = some c ∧ Exclusive c := by
  refine ⟨_, rfl, ?_⟩
  have hrun : (program Bool).exec readerAndWriter (start Bool) = some _ := rfl
  exact exclusive_of_noWrap hrun (by decide)

end Vlibc.Pthread.Rwlock
