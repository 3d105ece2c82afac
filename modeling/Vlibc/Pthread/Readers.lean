import Vlibc.Pthread.Rwlock

/-!
# The count of readers

A reader that leaves while a writer waits takes the writer's flag for its own, clears it, and stays
counted for good: `readers` is too large from then on, and the writer, whose flag is gone, waits for
it to become zero. It does when the count wraps around, which takes as many lost readers as a 32-bit
number has values.
-/

namespace Vlibc.Pthread.Rwlock

open Interleaving List Function

/-! ## Released -/

/-- The places in `unlock`. -/
def Place.InUnlock : Place → Prop
  | .unTest _ | .unClear _ | .unSub _ | .unWake => True
  | _ => False

/-- Between the increment of `rdlock` and the end of the decision, which may take it back. -/
def Place.Deciding (p : Place) : Prop := p = .rdCheck ∨ p = .rdUndo

instance : (p : Place) → Decidable p.InUnlock
  | .unTest _ | .unClear _ | .unSub _ | .unWake => .isTrue trivial
  | .out | .rdTest | .rdWait | .rdAdd | .rdCheck | .rdUndo | .wrSwap | .wrWait | .wrTest
  | .wrDrain => .isFalse id

instance (p : Place) : Decidable p.Deciding := inferInstanceAs (Decidable (_ ∨ _))

/-- **Released**: the lock is as at first when no thread holds it or is in a call, and `readers` is
the number of holds for reading when no thread is just changing it; that is the number of threads
that hold the lock for reading if none holds it twice. -/
structure Released {ι : Type*} [Fintype ι] (c : Conf ι Mem Thread) : Prop where
  free : (∀ i, c.loc i = ⟨.out, 0, 0⟩) → c.mem.readers = 0 ∧ c.mem.writer = false
  holds : (∀ i, ¬ (c.loc i).place.InUnlock ∧ ¬ (c.loc i).place.Deciding) →
    c.mem.readers.toInt = total Thread.reads c.loc
  threads : (∀ i, ¬ (c.loc i).place.InUnlock ∧ ¬ (c.loc i).place.Deciding) →
    (∀ i, (c.loc i).reads ≤ 1) →
    c.mem.readers.toInt = (Finset.univ.filter fun i => 0 < (c.loc i).reads).card

section released

variable {ι : Type*} [Fintype ι] [DecidableEq ι] {c c' : Conf ι Mem Thread}

/-- No reader finds the flag set when it leaves, and the increment of `readers` stays in `int`. -/
def Undisturbed (i : ι) (c : Conf ι Mem Thread) : Prop :=
  ((c.loc i).place = .unTest .read → c.mem.writer = false) ∧
    ((c.loc i).place = .rdAdd → c.mem.readers ≠ .intMax 32)

/-- Nobody is lost, and the count is an `int`. -/
structure Exact (c : Conf ι Mem Thread) : Prop where
  inv : Inv 0 c
  small : c.mem.readers.toNat < 2 ^ 31
  staying : ∀ i, (c.loc i).place ≠ .unClear .read

theorem step_exact {a : ι × Call} (h : Exact c) (hok : Undisturbed a.1 c)
    (hstep : (program ι).step a c = some c') : Exact c' := by
  have hwrap : NoWrap a.1 c := by
    intro _ hm
    have := h.small
    rw [hm] at this
    exact absurd this (by decide)
  obtain ⟨lost, hinv, hlost⟩ := step_inv h.inv hwrap hstep
  obtain rfl := hlost (h.staying a.1)
  obtain ⟨m, t, hmove, rfl⟩ := Program.step_eq_some hstep
  obtain ⟨i, call⟩ := a
  refine ⟨hinv, ?_, ?_⟩
  · have hsmall := h.small
    have hreaders := h.inv.readers
    have hle := le_total Thread.counted c.loc i
    have heff : Effect c.mem (c.loc i) t m := move_effect hmove
    cases heff with
    | add hp =>
      have hne : c.mem.readers.toNat ≠ 2 ^ 31 - 1 := fun he =>
        hok.2 hp (BitVec.eq_of_toNat_eq he)
      rw [toNat_add_one (hwrap hp)]
      omega
    | undo hc | leave hp hc =>
      rw [toNat_sub_one (by omega)]
      omega
    | stray hp => exact absurd hp (h.inv.sound i)
    | _ => exact hsmall
  · intro j
    change (Function.update c.loc i t j).place ≠ _
    by_cases hj : j = i
    · subst hj
      rw [update_self]
      intro hp
      obtain ⟨htest, hm⟩ := (move_enters hmove).1 hp
      rw [hok.1 htest] at hm
      exact absurd hm (by decide)
    · rw [update_of_ne hj]
      exact h.staying j

theorem Place.counted_of_settled {p : Place} (h : ¬ p.InUnlock ∧ ¬ p.Deciding) : p.counted = 0 := by
  cases p with
  | rdCheck => exact absurd (.inl rfl) h.2
  | rdUndo => exact absurd (.inr rfl) h.2
  | unTest k | unClear k | unSub k => exact absurd trivial h.1
  | _ => rfl

omit [DecidableEq ι] in
theorem Exact.released (h : Exact c) : Released c := by
  have hreaders := h.inv.readers
  rw [add_zero] at hreaders
  have hint : c.mem.readers.toInt = c.mem.readers.toNat :=
    BitVec.toInt_eq_toNat_of_lt (by have := h.small; omega)
  have hholds : (∀ i, ¬ (c.loc i).place.InUnlock ∧ ¬ (c.loc i).place.Deciding) →
      c.mem.readers.toInt = total Thread.reads c.loc := by
    intro hsettled
    rw [hint, hreaders]
    congr 1
    refine total_congr fun i => ?_
    rw [Thread.counted, Place.counted_of_settled (hsettled i), add_zero]
  refine ⟨fun hfree => ?_, hholds, fun hsettled hone => ?_⟩
  · have hzero : ∀ f : Thread → ℕ, f ⟨.out, 0, 0⟩ = 0 → total f c.loc = 0 :=
      fun f hf => total_eq_zero fun i => by rw [hfree i, hf]
    have hwriter := h.inv.writer rfl
    rw [hzero _ rfl] at hreaders hwriter
    exact ⟨BitVec.eq_of_toNat_eq hreaders, Bool.toNat_eq_zero.1 hwriter.symm⟩
  · rw [hholds hsettled, Finset.card_filter]
    congr 1
    refine Finset.sum_congr rfl fun i _ => ?_
    have := hone i
    split <;> omega

/-- **The lock is released** along every run in which no reader finds the flag set when it leaves
and `readers` stays in `int`. -/
theorem released_of_undisturbed {as : List (ι × Call)}
    (hrun : (program ι).exec as (start ι) = some c)
    (hok : (program ι).Meets Undisturbed as (start ι)) : Released c := by
  have hstart : Exact (start ι) := ⟨start_inv, Nat.two_pow_pos 31, fun i h => Place.noConfusion h⟩
  exact (Program.exec_invariant (fun a c c' => step_exact) hstart hok hrun).released

end released

instance {ι : Type*} (i : ι) (c : Conf ι Mem Thread) : Decidable (Undisturbed i c) :=
  inferInstanceAs (Decidable ((_ → _) ∧ (_ → _)))

/-- A reader enters and leaves, then a writer. -/
def inTurn : List (Bool × Call) :=
  List.replicate 4 (false, .rdlock) ++ List.replicate 4 (false, .unlock .read) ++
    List.replicate 3 (true, .wrlock) ++ List.replicate 4 (true, .unlock .write)

theorem released_of_undisturbed_inTurn :
    ∃ c, (program Bool).exec inTurn (start Bool) = some c ∧ Released c := by
  refine ⟨_, rfl, ?_⟩
  have hrun : (program Bool).exec inTurn (start Bool) = some _ := rfl
  exact released_of_undisturbed hrun (by decide)

/-- A reader enters, a writer sets the flag, and the reader leaves. -/
def leftBehind : List (Bool × Call) :=
  List.replicate 4 (false, .rdlock) ++ List.replicate 2 (true, .wrlock) ++
    List.replicate 4 (false, .unlock .read)

/-- A reader that leaves while a writer waits stays counted. -/
theorem reader_lost :
    ∃ c, (program Bool).exec leftBehind (start Bool) = some c ∧
      (∀ i, ¬ (c.loc i).place.InUnlock ∧ ¬ (c.loc i).place.Deciding) ∧
      (∀ i, (c.loc i).reads = 0) ∧ c.mem.readers.toInt = 1 ∧ ¬ Released c := by
  refine ⟨_, rfl, by decide, by decide, by decide, ?_⟩
  intro h
  have hholds := h.holds (by decide)
  exact absurd hholds (by decide)

/-! ## Around the clock -/

section wrap

variable {n k : ℕ}

/-- The readers are at one place, and the first `j` writers wait for the count to become zero. -/
def crowd (r : Thread) (j : ℕ) : Fin n ⊕ Fin k → Thread :=
  Sum.elim (fun _ => r) fun w => ⟨if w.val < j then .wrTest else .out, 0, 0⟩

/-- The threads that read. -/
def readers (n k : ℕ) : List (Fin n ⊕ Fin k) := (List.finRange n).map Sum.inl

theorem readers_nodup : (readers n k).Nodup :=
  (nodup_finRange n).map Sum.inl_injective

theorem mem_readers (i : Fin n) : Sum.inl i ∈ readers n k :=
  mem_map_of_mem (mem_finRange i)

theorem reaches_crowd (xs : List Call) (a b : Thread) (mem : ℕ → Mem) (j : ℕ)
    (h : ∀ i l, (program (Fin n ⊕ Fin k)).solo i xs (mem l, a) = some (mem (l + 1), b)) :
    (program (Fin n ⊕ Fin k)).Reaches ⟨mem 0, crowd a j⟩ ⟨mem n, crowd b j⟩ := by
  have hloc : ∀ i ∈ readers n k, crowd a j i = a := by
    intro i hi
    obtain ⟨r, -, rfl⟩ := mem_map.1 hi
    rfl
  have hloc' : ∀ i ∈ readers n k, crowd b j i = b := by
    intro i hi
    obtain ⟨r, -, rfl⟩ := mem_map.1 hi
    rfl
  have hrest : ∀ i ∉ readers n k, crowd b j i = crowd a j i := by
    intro i hi
    cases i with
    | inl r => exact absurd (mem_readers r) hi
    | inr w => rfl
  have hsweep := Program.Reaches.sweep readers_nodup hloc hloc' hrest 0 fun i _ => h i
  have hlen : 0 + (readers n k).length = n := by simp [readers]
  rwa [hlen] at hsweep

theorem reaches_flag {r : Thread} {m : BitVec 32} {j : ℕ} (hj : j < k) :
    (program (Fin n ⊕ Fin k)).Reaches ⟨⟨m, false⟩, crowd r j⟩ ⟨⟨m, true⟩, crowd r (j + 1)⟩ := by
  have hout : crowd r j (.inr ⟨j, hj⟩ : Fin n ⊕ Fin k) = ⟨.out, 0, 0⟩ := by simp [crowd]
  have hsolo : (program (Fin n ⊕ Fin k)).solo (.inr ⟨j, hj⟩) [.wrlock, .wrlock]
      (⟨m, false⟩, crowd r j (.inr ⟨j, hj⟩ : Fin n ⊕ Fin k)) =
        some (⟨m, true⟩, ⟨.wrTest, 0, 0⟩) := by
    rw [hout]
    rfl
  have hend : Function.update (crowd r j) (.inr ⟨j, hj⟩ : Fin n ⊕ Fin k) ⟨.wrTest, 0, 0⟩
      = crowd r (j + 1) := by
    funext i
    cases i with
    | inl r => rfl
    | inr w =>
      by_cases hw : w.val = j
      · obtain rfl : w = ⟨j, hj⟩ := Fin.ext hw
        rw [update_self]
        simp [crowd]
      · have hne : (Sum.inr w : Fin n ⊕ Fin k) ≠ .inr ⟨j, hj⟩ := fun h =>
          hw (congrArg Fin.val (Sum.inr.inj h))
        have hlt : w.val < j + 1 ↔ w.val < j := by omega
        rw [update_of_ne hne]
        simp only [crowd, Sum.elim_inr, hlt]
  have hreach := Program.Reaches.solo hsolo
  rwa [hend] at hreach

theorem reaches_round {j : ℕ} (hn : 0 < n) (hj : j < k) :
    (program (Fin n ⊕ Fin k)).Reaches
      ⟨⟨.ofNat 32 (n * j), false⟩, crowd ⟨.out, 0, 0⟩ j⟩
      ⟨⟨.ofNat 32 (n * (j + 1)), false⟩, crowd ⟨.out, 0, 0⟩ (j + 1)⟩ := by
  have henter := reaches_crowd (n := n) (k := k) (List.replicate 4 .rdlock) ⟨.out, 0, 0⟩
    ⟨.out, 1, 0⟩ (fun l => ⟨.ofNat 32 (n * j + l), false⟩) j (by
      intro i l
      rw [← add_assoc, BitVec.ofNat_add (n * j + l)]
      rfl)
  have hturn := reaches_crowd (n := n) (k := k) (List.replicate 2 (.unlock .read)) ⟨.out, 1, 0⟩
    ⟨.unClear .read, 0, 0⟩ (fun _ => ⟨.ofNat 32 (n * j + n), true⟩) (j + 1) fun _ _ => rfl
  have hleave := reaches_crowd (n := n) (k := k) (List.replicate 2 .rdlock)
    ⟨.unClear .read, 0, 0⟩ ⟨.out, 0, 0⟩
    (fun l => ⟨.ofNat 32 (n * j + n), decide (l = 0)⟩) (j + 1) fun _ _ => rfl
  have hlast : decide (n = 0) = false := decide_eq_false hn.ne'
  rw [hlast] at hleave
  rw [Nat.mul_succ]
  exact ((henter.trans (reaches_flag hj)).trans hturn).trans hleave

theorem reaches_rounds (hn : 0 < n) {j : ℕ} (hj : j ≤ k) :
    (program (Fin n ⊕ Fin k)).Reaches (start (Fin n ⊕ Fin k))
      ⟨⟨.ofNat 32 (n * j), false⟩, crowd ⟨.out, 0, 0⟩ j⟩ := by
  induction j with
  | zero =>
    have hstart : start (Fin n ⊕ Fin k) = ⟨⟨.ofNat 32 (n * 0), false⟩, crowd ⟨.out, 0, 0⟩ 0⟩ := by
      unfold start
      congr 1
      funext i
      cases i <;> rfl
    rw [hstart]
    exact .refl _
  | succ j ih => exact (ih (by omega)).trans (reaches_round hn (by omega))

theorem reaches_two_writers (hn : 0 < n) (hwrap : BitVec.ofNat 32 (n * k) = 0) {v w : Fin k}
    (hvw : w ≠ v) :
    ∃ c, (program (Fin n ⊕ Fin k)).Reaches (start (Fin n ⊕ Fin k)) c ∧
      (c.loc (.inr v)).writes = 1 ∧ (c.loc (.inr w)).writes = 1 := by
  have hrounds : (program (Fin n ⊕ Fin k)).Reaches (start (Fin n ⊕ Fin k))
      ⟨⟨0, false⟩, crowd ⟨.out, 0, 0⟩ k⟩ := hwrap ▸ reaches_rounds hn (le_refl k)
  set loc : Fin n ⊕ Fin k → Thread := crowd ⟨.out, 0, 0⟩ k with hloc
  have hwaits : ∀ u, loc (.inr u) = ⟨.wrTest, 0, 0⟩ := by
    intro u
    simp [hloc, crowd]
  have hgo : ∀ (u : Fin k) (l : Fin n ⊕ Fin k → Thread), l (.inr u) = ⟨.wrTest, 0, 0⟩ →
      (program (Fin n ⊕ Fin k)).Reaches ⟨⟨0, false⟩, l⟩
        ⟨⟨0, false⟩, Function.update l (.inr u) ⟨.out, 0, 1⟩⟩ := by
    intro u l hl
    have hsolo : (program (Fin n ⊕ Fin k)).solo (.inr u) [.wrlock] (⟨0, false⟩, l (.inr u))
        = some (⟨0, false⟩, ⟨.out, 0, 1⟩) := by
      rw [hl]
      rfl
    exact .solo hsolo
  have hne : (Sum.inr w : Fin n ⊕ Fin k) ≠ .inr v := fun h => hvw (Sum.inr.inj h)
  have hsecond := hgo w (Function.update loc (.inr v) ⟨.out, 0, 1⟩)
    (by rw [update_of_ne hne, hwaits])
  refine ⟨_, (hrounds.trans (hgo v loc (hwaits v))).trans hsecond, ?_, ?_⟩
  · dsimp only
    rw [update_of_ne hne.symm, update_self]
  · dsimp only
    rw [update_self]

end wrap

/-- With 65536 readers and as many writers, two writers hold the lock in the end. -/
theorem two_writers :
    ∃ c, (program (Fin 65536 ⊕ Fin 65536)).Reaches (start _) c ∧ ¬ Exclusive c := by
  have hwrap : BitVec.ofNat 32 (65536 * 65536) = 0 := by decide
  have hne : (1 : Fin 65536) ≠ 0 := by decide
  obtain ⟨c, hreach, hv, hw⟩ := reaches_two_writers (by decide) hwrap hne
  refine ⟨c, hreach, ?_⟩
  intro hex
  have heq := hex.one (.inr 1) (.inr 0) (hw ▸ one_pos) (hv ▸ one_pos)
  exact hne (Sum.inr.inj heq)

end Vlibc.Pthread.Rwlock
