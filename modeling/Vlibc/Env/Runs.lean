import Mathlib.Data.List.Induction
import Vlibc.Env.Ownership

/-!
# What a call can do, and runs

`Outcome` lists what a call can do in a state that is in order, whatever allocations fail, and
`Sound.outcome` says that there is nothing else. The invariant over sequences of calls in which no
allocation fails follows (`Run.sound`).
-/

namespace Vlibc.Env

open State List Option

variable {st st' st₀ : State} {mem : Alloc} {a p x i : ℕ} {l pre post rest : List ℕ} {s : CStr}
  {n : List UInt8} {r : Reply} {c : Call} {name value : Option CStr} {str : ℕ}

/-! ## Freeing several strings -/

/-- The state without the strings of `l`. -/
def State.without (st : State) (l : List ℕ) : State :=
  { st with heap := fun x => if x ∈ l then none else st.heap x }

theorem State.heap_without_of_not_mem (h : x ∉ l) : (st.without l).heap x = st.heap x := if_neg h

theorem State.without_cons (st : State) (a : ℕ) (l : List ℕ) :
    State.without { st with heap := Function.update st.heap a none } l = st.without (a :: l) := by
  unfold State.without
  congr 1
  funext x
  by_cases hx : x ∈ l
  · simp [hx]
  · by_cases hxa : x = a
    · simp [hxa]
    · simp [hx, hxa]

theorem State.free_without_store (ha : st.heap a = none) (hl : a ∉ l) :
    ((st.store a s).without l).free a = .ok (st.without l) := by
  have ho : ((st.store a s).without l).origin a = some .library := by
    rw [origin, heap_without_of_not_mem hl, heap_store_self]
    rfl
  rw [free_eq ho]
  congr 2
  funext x
  by_cases hx : x = a
  · subst hx
    rw [Function.update_self, ha, ite_self]
  · rw [Function.update_of_ne hx]
    by_cases hxl : x ∈ l
    · simp [State.without, hxl]
    · rw [heap_without_of_not_mem hxl, heap_store_ne hx, if_neg hxl]

theorem freeAll_eq (hl : ∀ x ∈ l, st.origin x = some .library) (hd : l.Nodup) :
    freeAll st l = .ok (st.without l) := by
  induction l generalizing st with
  | nil =>
    change Except.ok st = _
    simp [State.without]
  | cons a l ih =>
    obtain ⟨ha, hl⟩ := forall_mem_cons.1 hl
    obtain ⟨hnot, hd⟩ := nodup_cons.1 hd
    change (st.free a >>= fun st => freeAll st l) = _
    rw [free_eq ha]
    change freeAll _ l = _
    rw [ih (fun x hx => ?_) hd, State.without_cons]
    have hxa : x ≠ a := fun e => hnot (e ▸ hx)
    exact (origin_update_of_ne hxa none).trans (hl x hx)

theorem freeAll_error (st : State) (hx : x ∈ l) (ho : st.origin x ≠ some .library) :
    ∃ f, freeAll st l = .error f := by
  induction l generalizing st with
  | nil => cases hx
  | cons a l ih =>
    change ∃ f, (st.free a >>= fun st => freeAll st l) = .error f
    by_cases ha : st.origin a = some .library
    · have hxa : x ≠ a := fun e => ho (e ▸ ha)
      rw [free_eq ha]
      refine ih _ (mem_of_ne_of_mem hxa hx) fun h => ho ?_
      exact (origin_update_of_ne hxa none).symm.trans h
    · exact ⟨_, by rw [free_eq_error ha]; rfl⟩

theorem flagged_sublist (l : List ℕ) (flags : List Bool) : (flagged l flags).Sublist l := by
  induction l generalizing flags with
  | nil => simp [flagged]
  | cons a l ih =>
    cases flags with
    | nil => simp [flagged]
    | cons f flags =>
      cases f
      · exact (ih flags).trans (sublist_cons_self a l)
      · exact (ih flags).cons_cons a

theorem Sound.library_of_not_handed (hs : Sound st) (ho : st.owned) (ha : a ∈ st.entries)
    (h : st.origin a ≠ some .handed) : st.origin a = some .library := by
  obtain ⟨c, hc⟩ := isSome_iff_exists.1 (hs.live a ha)
  have hcaller := hs.own ho a ha
  rw [State.origin, hc] at h hcaller ⊢
  rcases hcell : c.origin with _ | _ | _
  · exact absurd (congrArg some hcell) hcaller
  · exact congrArg some hcell
  · exact absurd (congrArg some hcell) h

theorem Sound.clearenv_without (hs : Sound st) (hne : st.environ ≠ none) (ho : st.owned)
    (henv : mem.newenv) (hflags : mem.newflags)
    (hsafe : ∀ a ∈ flagged st.entries st.flags, st.origin a ≠ some .handed) :
    clearenv st mem = .ok (⟨0, none⟩,
      { st.without (flagged st.entries st.flags) with
        environ := some [0], owned := true, flags := [] }) := by
  have hsub := flagged_sublist st.entries st.flags
  have hlib : ∀ a ∈ flagged st.entries st.flags, st.origin a = some .library := fun a ha =>
    hs.library_of_not_handed ho (hsub.subset ha) (hsafe a ha)
  have hnodup : (flagged st.entries st.flags).Nodup := by
    rw [nodup_iff_count_le_one]
    intro a
    by_cases ha : a ∈ flagged st.entries st.flags
    · exact (hsub.count_le a).trans (hs.unique a (hlib a ha))
    · rw [count_eq_zero_of_not_mem ha]
      exact Nat.zero_le 1
  rw [clearenv_owned hs.toTerminated hne ho henv hflags, freeAll_eq hlib hnodup]
  rfl

theorem Sound.of_initial (h : Initial st) : Sound st := by
  have hnocaller : ∀ a, st.origin a ≠ some .library := fun a ha => by
    obtain ⟨c, hc, hl⟩ := map_eq_some_iff.1 ha
    rw [h.callers a c hc] at hl
    cases hl
  have hown : st.owned → False := fun ho => by simp [h.notOwned] at ho
  cases he : st.environ with
  | none =>
    have hempty : st.entries = [] := by simp [State.entries, he]
    exact ⟨⟨fun cells hc => by simp [he] at hc, by simp [hempty]⟩,
      fun x hx => absurd hx (hnocaller x), fun ho => (hown ho).elim⟩
  | some cells =>
    obtain ⟨l, rest, rfl, hl⟩ := h.array cells he
    exact (Sound.of_environ he hl (fun x hx => absurd hx (hnocaller x)) fun ho => (hown ho).elim).2

/-- A `malloc` that returns one address after the other. -/
def Alloc.counting (k : ℕ) : Alloc := ⟨some k, true, true, fun i => some (k + 1 + i)⟩

theorem Alloc.counting_grants (k : ℕ) : (counting k).Grants := ⟨rfl, rfl, rfl, fun _ => rfl⟩

theorem Alloc.counting_fresh {k : ℕ} (hk : k ≠ 0) (h : ∀ a, k ≤ a → st.heap a = none) :
    (counting k).Fresh st where
  entry p hp := by
    cases hp
    exact ⟨hk, h k (le_refl k)⟩
  dup i q hq := by
    cases hq
    refine ⟨by omega, h _ (by omega), fun he => ?_⟩
    have := some.inj he
    omega
  inj i j q hi hj := by
    have h1 := some.inj hi
    have h2 := some.inj hj
    omega

/-- **The cleanup of a new array** frees the shared strings with the copies. -/
theorem Sound.grow_failed (hs : Sound st) (hf : mem.FreshFrom st 0) (henv : mem.newenv)
    (hflags : mem.newflags) (he : st.entries = pre ++ a :: post) (hc : Copyable mem st pre 0)
    (hsh : st.shared pre.length = false) (hd : mem.dup pre.length = none)
    (hlib : ∀ x ∈ sharedOf st pre 0, st.origin x = some .library) (flag : Bool) :
    grow st mem p flag = .ok (st.without (sharedOf st pre 0), false) := by
  have hlive : ∀ b ∈ pre, (st.heap b).isSome := fun b hb =>
    hs.live b (he ▸ mem_append_left _ hb)
  have horigin : ∀ x ∈ copies mem st pre 0, (copied mem st pre 0).origin x = some .library := by
    intro x hx
    by_cases hnew : st.heap x = none
    · exact origin_copied hf hlive hc hx hnew
    · rw [origin_congr (heap_copied hf hc (isSome_iff_ne_none.2 hnew))]
      obtain h | ⟨j, hj, h⟩ := mem_copies hc hx
      · exact hlib x h
      · exact absurd (hf.dup j x hj h).2 hnew
  have hnodup : (copies mem st pre 0).Nodup := by
    rw [nodup_iff_count_le_one]
    intro x
    by_cases hnew : st.heap x = none
    · exact count_copies_le_one hf hlive hc hnew
    · by_cases hx : x ∈ copies mem st pre 0
      · have hsome : (st.heap x).isSome := isSome_iff_ne_none.2 hnew
        have hxlib := (origin_congr (heap_copied hf hc hsome)).symm.trans (horigin x hx)
        calc (copies mem st pre 0).count x ≤ pre.count x := count_copies_le hf hc hsome
          _ ≤ st.entries.count x := he ▸ (sublist_append_left pre _).count_le x
          _ ≤ 1 := hs.unique x hxlib
      · rw [count_eq_zero_of_not_mem hx]
        exact Nat.zero_le 1
  obtain ⟨h₁, h₂, h₃⟩ := copied_fields mem st pre 0
  rw [grow_fail hs.toTerminated henv hflags he hc hsh hd, freeAll_eq horigin hnodup]
  change Except.ok (State.mk _ _ _ _, false) = .ok (State.mk _ _ _ _, false)
  rw [h₁, h₂, h₃]
  congr 3
  funext x
  by_cases hx : x ∈ copies mem st pre 0
  · rw [if_pos hx]
    obtain h | ⟨j, hj, h⟩ := mem_copies hc hx
    · rw [if_pos h]
    · rw [(hf.dup j x hj h).2, ite_self]
  · rw [if_neg hx, if_neg fun h => hx (sharedOf_subset_copies mem h), heap_copied_of_not_mem hx]

/-- A shared string that was handed over is freed as well, which is not defined. -/
theorem Sound.grow_badFree (hs : Sound st) (hf : mem.FreshFrom st 0) (henv : mem.newenv)
    (hflags : mem.newflags) (he : st.entries = pre ++ a :: post) (hc : Copyable mem st pre 0)
    (hsh : st.shared pre.length = false) (hd : mem.dup pre.length = none)
    (hx : x ∈ sharedOf st pre 0) (hlib : st.origin x ≠ some .library) (flag : Bool) :
    ∃ f, grow st mem p flag = .error f := by
  have hlive : (st.heap x).isSome :=
    hs.live x (he ▸ mem_append_left _ (mem_of_mem_sharedOf hx).1)
  obtain ⟨f, e⟩ := freeAll_error (copied mem st pre 0) (sharedOf_subset_copies mem hx)
    (by rwa [origin_congr (heap_copied hf hc hlive)])
  exact ⟨f, by rw [grow_fail hs.toTerminated henv hflags he hc hsh hd, e]; rfl⟩

theorem copyable_or (mem : Alloc) (st : State) (l : List ℕ) :
    Copyable mem st l 0 ∨ ∃ pre a post, l = pre ++ a :: post ∧ Copyable mem st pre 0 ∧
      st.shared pre.length = false ∧ mem.dup pre.length = none := by
  induction l using List.reverseRecOn with
  | nil => exact .inl fun k hk => absurd hk (Nat.not_lt_zero k)
  | append_singleton l a ih =>
    obtain hc | ⟨pre, b, post, rfl, hrest⟩ := ih
    · by_cases hlast : st.shared l.length ∨ (mem.dup l.length).isSome
      · refine .inl fun k hk => ?_
        rw [length_append, length_singleton] at hk
        rcases lt_or_ge k l.length with h | h
        · exact hc k h
        · obtain rfl : k = l.length := by omega
          rwa [zero_add]
      · rw [not_or] at hlast
        exact .inr ⟨l, a, [], rfl, hc, by simpa using hlast.1, by simpa using hlast.2⟩
    · exact .inr ⟨pre, b, post ++ [a], by simp, hrest⟩

/-! ## What a call can do -/

/-- The calls that are refused for their argument. -/
def Call.Rejected (st : State) : Call → Prop
  | setenv name _ _ => ∀ n, name = some n → equals ∈ n.bytes
  | putenv str => str = 0 ∨ (st.heap str).isSome ∧ ∀ n, ¬ Assigns st str n
  | unsetenv name => st.environ = none ∨ ∀ n, name = some n → equals ∈ n.bytes
  | clearenv => False

/-- An array, or the string of `setenv`, is not granted. -/
def Call.NoMem (mem : Alloc) : Call → Prop
  | setenv _ _ _ => mem.entry = none ∨ mem.newenv = false ∨ mem.newflags = false
  | putenv _ => mem.newenv = false ∨ mem.newflags = false
  | unsetenv _ => False
  | clearenv => mem.newenv = false ∨ mem.newflags = false

/-- The call would add a string to `environ`, and has memory for the string and the arrays. -/
def Call.Adds (st : State) (mem : Alloc) : Call → Prop
  | setenv name _ _ => ∃ n, name = some n ∧ equals ∉ n.bytes ∧ Absent st n.bytes ∧
      mem.entry.isSome ∧ mem.newenv ∧ mem.newflags
  | putenv str => ∃ n, Assigns st str n ∧ Absent st n ∧ mem.newenv ∧ mem.newflags
  | _ => False

/-- The copy of the string behind `pre` is the first one that fails. -/
structure FailsAt (mem : Alloc) (st : State) (pre : List ℕ) (a : ℕ) (post : List ℕ) : Prop where
  eq : st.entries = pre ++ a :: post
  copyable : Copyable mem st pre 0
  notShared : st.shared pre.length = false
  noMem : mem.dup pre.length = none

/-- **What a call can do** in a state that is in order. -/
inductive Outcome (st : State) (mem : Alloc) : Call → Except Fault (Reply × State) → Prop
  | rejected {c : Call} {e : Option ℕ} :
    c.Rejected st → Outcome st mem c (.ok (⟨-1, e⟩, st))
  | dangling {str : ℕ} :
    str ≠ 0 → st.heap str = none → Outcome st mem (.putenv str) (.error (.dangling str))
  | kept {name : CStr} {value : Option CStr} {pre post : List ℕ} {a : ℕ} :
    equals ∉ name.bytes → Present st name.bytes pre a post →
      Outcome st mem (.setenv (some name) value false) (.ok (⟨0, none⟩, st))
  | missing {name : CStr} :
    equals ∉ name.bytes → st.environ ≠ none → Absent st name.bytes →
      Outcome st mem (.unsetenv (some name)) (.ok (⟨0, none⟩, st))
  | null :
    st.environ = none → Outcome st mem .clearenv (.ok (⟨0, none⟩, st))
  | noMem {c : Call} :
    c.NoMem mem → Outcome st mem c (.ok (⟨-1, some ENOMEM⟩, st))
  | failed {c : Call} {pre post : List ℕ} {a : ℕ} :
    c.Adds st mem → FailsAt mem st pre a post →
      (∀ x ∈ sharedOf st pre 0, st.origin x = some .library) →
      Outcome st mem c (.ok (⟨-1, some ENOMEM⟩, st.without (sharedOf st pre 0)))
  | failedFault {c : Call} {pre post : List ℕ} {a : ℕ} {f : Fault} :
    c.Adds st mem → FailsAt mem st pre a post → Outcome st mem c (.error f)
  | set {name : CStr} {value : Option CStr} {pre post : List ℕ} {a p : ℕ} {st' : State} :
    equals ∉ name.bytes → mem.entry = some p → (st.owned → st.origin a = some .library) →
      Replaced st st' name.bytes pre a post p ⟨newEntry name value, .library⟩ →
      Outcome st mem (.setenv (some name) value true) (.ok (⟨0, none⟩, st'))
  | setFault {name : CStr} {value : Option CStr} {pre post : List ℕ} {a : ℕ} :
    equals ∉ name.bytes → Present st name.bytes pre a post → st.owned →
      st.origin a ≠ some .library →
      Outcome st mem (.setenv (some name) value true) (.error (.badFree a))
  | put {str : ℕ} {n : List UInt8} {pre post : List ℕ} {a : ℕ} {st' : State} :
    Assigns st str n → Replaced st st' n pre a post str ⟨st.text str, .handed⟩ →
      Outcome st mem (.putenv str) (.ok (⟨0, none⟩, st'))
  | setNew {name : CStr} {value : Option CStr} {overwrite : Bool} {p : ℕ} {st' : State} :
    equals ∉ name.bytes → mem.entry = some p → Absent st name.bytes →
      Grown mem (st.store p (newEntry name value)) st' name.bytes p ⟨newEntry name value, .library⟩ →
      Outcome st mem (.setenv (some name) value overwrite) (.ok (⟨0, none⟩, st'))
  | putNew {str : ℕ} {n : List UInt8} {st' : State} :
    Assigns st str n → Grown mem st st' n str ⟨st.text str, .handed⟩ →
      Outcome st mem (.putenv str) (.ok (⟨0, none⟩, st'))
  | unset {name : CStr} {pre post : List ℕ} {a : ℕ} {st' : State} :
    equals ∉ name.bytes → (st.shared pre.length → st.origin a = some .library) →
      Removed st st' name.bytes pre a post →
      Outcome st mem (.unsetenv (some name)) (.ok (⟨0, none⟩, st'))
  | unsetFault {name : CStr} {pre post : List ℕ} {a : ℕ} :
    equals ∉ name.bytes → Present st name.bytes pre a post → st.shared pre.length →
      st.origin a ≠ some .library →
      Outcome st mem (.unsetenv (some name)) (.error (.badFree a))
  | clear {r : Reply} {st' : State} :
    (st.owned → ∀ a ∈ flagged st.entries st.flags, st.origin a ≠ some .handed) → Cleared st st' →
      Outcome st mem .clearenv (.ok (r, st'))
  | clearFault {a : ℕ} {f : Fault} :
    st.owned → a ∈ flagged st.entries st.flags → st.origin a = some .handed →
      Outcome st mem .clearenv (.error f)

section Outcomes

variable (hs : Sound st) (hf : mem.Fresh st)

include hs hf

theorem Sound.outcome_setenv (name value : Option CStr) (overwrite : Bool) :
    Outcome st mem (.setenv name value overwrite) (setenv st mem name value overwrite) := by
  by_cases hn : ∀ n, name = some n → equals ∈ n.bytes
  · rw [setenv_rejected hn]
    exact .rejected hn
  push Not at hn
  obtain ⟨n, rfl, hn⟩ := hn
  have ht := hs.toTerminated
  obtain habs | ⟨pre, a, post, hpres⟩ := absent_or_present st n.bytes
  · cases hp : mem.entry with
    | none =>
      rw [setenv_noMem ht hn (.inr habs) hp]
      exact .noMem (.inl hp)
    | some p =>
      have hheap := (hf.entry p hp).2
      have hs' := hs.store (s := newEntry n value) hheap
      have hf' := hf.freshFrom_store (s := newEntry n value) hp 0
      by_cases hmem : mem.newenv = false ∨ mem.newflags = false
      · rw [setenv_append ht hn habs hp, grow_noMem hs'.toTerminated hmem]
        change Outcome st mem _ (((st.store p (newEntry n value)).free p).map _)
        rw [free_store hheap]
        exact .noMem (.inr hmem)
      simp only [not_or, Bool.not_eq_false] at hmem
      obtain hc | ⟨pre, a, post, he, hc, hsh, hd⟩ := copyable_or mem st st.entries
      · obtain ⟨st', e, hg⟩ := hs.setenv_grown hn hf habs hp hmem.1 hmem.2 hc value overwrite
        rw [e]
        exact .setNew hn hp habs hg
      have hadds : Call.Adds st mem (.setenv (some n) value overwrite) :=
        ⟨n, rfl, hn, habs, by simp [hp], hmem.1, hmem.2⟩
      have hlive : ∀ x ∈ sharedOf st pre 0, (st.heap x).isSome := fun x hx =>
        hs.live x (he ▸ mem_append_left _ (mem_of_mem_sharedOf hx).1)
      have hkeep : ∀ x ∈ sharedOf st pre 0,
          (st.store p (newEntry n value)).origin x = st.origin x := fun x hx =>
        origin_congr (heap_store_of_isSome hheap (hlive x hx))
      by_cases hlib : ∀ x ∈ sharedOf st pre 0, st.origin x = some .library
      · rw [setenv_append ht hn habs hp, hs'.grow_failed hf' hmem.1 hmem.2 he hc hsh hd
          (fun x hx => by rw [sharedOf_store] at hx; rw [hkeep x hx]; exact hlib x hx),
          sharedOf_store]
        change Outcome st mem _ ((((st.store p (newEntry n value)).without _).free p).map _)
        rw [free_without_store hheap fun hx => by simpa [hheap] using hlive p hx]
        exact .failed hadds ⟨he, hc, hsh, hd⟩ hlib
      · push Not at hlib
        obtain ⟨x, hx, hxlib⟩ := hlib
        obtain ⟨f, e⟩ := hs'.grow_badFree (p := p) hf' hmem.1 hmem.2 he hc hsh hd
          (sharedOf_store ▸ hx) (by rwa [hkeep x hx]) true
        rw [setenv_append ht hn habs hp, e]
        exact .failedFault hadds ⟨he, hc, hsh, hd⟩
  · cases overwrite with
    | false =>
      rw [setenv_keep ht hn hpres]
      exact .kept hn hpres
    | true =>
      cases hp : mem.entry with
      | none =>
        rw [setenv_noMem ht hn (.inl rfl) hp]
        exact .noMem (.inl hp)
      | some p =>
        by_cases hsafe : st.owned → st.origin a = some .library
        · obtain ⟨st', e, hrep⟩ := hs.setenv_replaced hn hf hpres hp hsafe value
          rw [e]
          exact .set hn hp hsafe hrep
        · push Not at hsafe
          rw [hs.setenv_badFree hn hf hpres hp hsafe.1 hsafe.2]
          exact .setFault hn hpres hsafe.1 hsafe.2

theorem Sound.outcome_putenv (str : ℕ) : Outcome st mem (.putenv str) (putenv st mem str) := by
  have ht := hs.toTerminated
  by_cases hn : ∃ n, Assigns st str n
  · obtain ⟨n, hstr⟩ := hn
    obtain habs | ⟨pre, a, post, hpres⟩ := absent_or_present st n
    · by_cases hmem : mem.newenv = false ∨ mem.newflags = false
      · rw [putenv_append ht hstr habs mem, grow_noMem ht hmem]
        exact .noMem hmem
      simp only [not_or, Bool.not_eq_false] at hmem
      obtain hc | ⟨pre, a, post, he, hc, hsh, hd⟩ := copyable_or mem st st.entries
      · obtain ⟨st', e, hg⟩ := hs.putenv_grown hstr hf habs hmem.1 hmem.2 hc
        rw [e]
        exact .putNew hstr hg
      have hadds : Call.Adds st mem (.putenv str) := ⟨n, hstr, habs, hmem.1, hmem.2⟩
      by_cases hlib : ∀ x ∈ sharedOf st pre 0, st.origin x = some .library
      · rw [putenv_append ht hstr habs mem,
          hs.grow_failed (hf.freshFrom 0) hmem.1 hmem.2 he hc hsh hd hlib]
        exact .failed hadds ⟨he, hc, hsh, hd⟩ hlib
      · push Not at hlib
        obtain ⟨x, hx, hxlib⟩ := hlib
        obtain ⟨f, e⟩ := hs.grow_badFree (p := str) (hf.freshFrom 0) hmem.1 hmem.2 he hc hsh hd hx
          hxlib false
        rw [putenv_append ht hstr habs mem, e]
        exact .failedFault hadds ⟨he, hc, hsh, hd⟩
    · obtain ⟨st', e, hrep⟩ := hs.putenv_replaced hstr hpres mem
      rw [e]
      exact .put hstr hrep
  · push Not at hn
    by_cases hlive : str = 0 ∨ (st.heap str).isSome
    · have hrej := hlive.imp_right fun hl => (⟨hl, hn⟩ : _ ∧ ∀ n, ¬ Assigns st str n)
      rw [putenv_rejected hrej]
      exact .rejected hrej
    · rw [not_or, not_isSome_iff_eq_none] at hlive
      rw [putenv_dangling hlive.1 hlive.2]
      exact .dangling hlive.1 hlive.2

omit hf in
theorem Sound.outcome_unsetenv (name : Option CStr) :
    Outcome st mem (.unsetenv name) (unsetenv st name) := by
  by_cases hn : st.environ = none ∨ ∀ n, name = some n → equals ∈ n.bytes
  · rw [unsetenv_rejected hn]
    exact .rejected hn
  push Not at hn
  obtain ⟨hne, n, rfl, hn⟩ := hn
  obtain habs | ⟨pre, a, post, hpres⟩ := absent_or_present st n.bytes
  · rw [unsetenv_absent hs.toTerminated hn hne habs]
    exact .missing hn hne habs
  · by_cases hsafe : st.shared pre.length → st.origin a = some .library
    · obtain ⟨st', e, hrem⟩ := hs.unsetenv_removed hn hpres hsafe
      rw [e]
      exact .unset hn hsafe hrem
    · push Not at hsafe
      rw [unsetenv_badFree hs hn hpres hsafe.1 hsafe.2]
      exact .unsetFault hn hpres hsafe.1 hsafe.2

omit hf in
theorem Sound.outcome_clearenv : Outcome st mem .clearenv (clearenv st mem) := by
  have ht := hs.toTerminated
  by_cases hne : st.environ = none
  · rw [clearenv_null hne]
    exact .null hne
  cases ho : st.owned with
  | false =>
    obtain ⟨rest, e⟩ := clearenv_borrowed ht hne ho mem
    rw [e]
    exact .clear (by simp [ho]) ⟨⟨rest, rfl⟩, fun _ _ => rfl, fun _ => .inl rfl⟩
  | true =>
    by_cases hmem : mem.newenv = false ∨ mem.newflags = false
    · rw [clearenv_noMem hne ho hmem]
      exact .noMem hmem
    simp only [not_or, Bool.not_eq_false] at hmem
    by_cases hsafe : ∀ a ∈ flagged st.entries st.flags, st.origin a ≠ some .handed
    · rw [hs.clearenv_without hne ho hmem.1 hmem.2 hsafe]
      refine .clear (fun _ => hsafe) ⟨⟨[], rfl⟩, fun x hx => ?_, fun x => ?_⟩
      · have hsub := flagged_sublist st.entries st.flags
        exact heap_without_of_not_mem fun hmem' =>
          hx (hs.library_of_not_handed ho (hsub.subset hmem') (hsafe x hmem'))
      · by_cases hx : x ∈ flagged st.entries st.flags
        · exact .inr (if_pos hx)
        · exact .inl (heap_without_of_not_mem hx)
    · push Not at hsafe
      obtain ⟨a, ha, hhand⟩ := hsafe
      obtain ⟨f, e⟩ := freeAll_error st ha (by simp [hhand])
      rw [clearenv_owned ht hne ho hmem.1 hmem.2, e]
      exact .clearFault ho ha hhand

/-- **What a call can do**, for every call. -/
theorem Sound.outcome (c : Call) : Outcome st mem c (c.exec st mem) := by
  cases c with
  | setenv name value overwrite => exact hs.outcome_setenv hf name value overwrite
  | putenv str => exact hs.outcome_putenv hf str
  | unsetenv name => exact hs.outcome_unsetenv name
  | clearenv => exact hs.outcome_clearenv

end Outcomes

theorem FailsAt.not_grants (h : FailsAt mem st pre a post) : ¬ mem.Grants := fun hg => by
  simpa [h.noMem] using hg.dup pre.length

theorem Call.NoMem.not_grants (h : c.NoMem mem) : ¬ mem.Grants := fun hg => by
  have h1 := isSome_iff_ne_none.1 hg.entry
  cases c <;> simp [Call.NoMem, h1, hg.newenv, hg.newflags] at h

theorem Sound.of_outcome (hs : Sound st) (hf : mem.Fresh st) (hg : mem.Grants)
    (ho : Outcome st mem c (.ok (r, st'))) : Sound st' := by
  cases ho with
  | rejected | kept | missing | null | noMem => exact hs
  | failed _ hfail => exact absurd hg hfail.not_grants
  | set _ _ _ hrep | put _ hrep => exact (hrep.sound hs).2
  | setNew _ hp _ hgrown => exact (hgrown.sound (hs.store (hf.entry _ hp).2)).2
  | putNew _ hgrown => exact (hgrown.sound hs).2
  | unset _ _ hrem => exact (hrem.sound hs).2
  | clear _ hclear => exact hclear.sound.2

theorem Run.sound {steps : List (Call × Alloc)} (hrun : Run st₀ steps st) (h₀ : Initial st₀)
    (hg : ∀ s ∈ steps, s.2.Grants) : Sound st := by
  induction hrun with
  | start => exact .of_initial h₀
  | step _ hf he ih =>
    have hprev := ih fun s hs => hg s (mem_append_left _ hs)
    exact hprev.of_outcome hf (hg _ (mem_append_right _ (mem_singleton_self _)))
      (he ▸ hprev.outcome hf _)

end Vlibc.Env
