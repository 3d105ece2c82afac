import Vlibc.Env.Names

/-!
# What the functions do to the array

The parts of `setenv`, `putenv`, `unsetenv` and `clearenv` that write: a cell that gets another
string, the strings behind a cell that move up by one, and the array that is built anew with copies
of the strings that are not shared (`copies`, in the memory `copied`).
-/

namespace Vlibc.Env

open List Option Function

variable {st st' : State} {mem : Alloc} {a p x i : ℕ} {l pre post rest : List ℕ} {s : CStr}

namespace State

/-- Where the string at an address comes from. -/
def origin (st : State) (a : ℕ) : Option Origin := (st.heap a).map Cell.origin

@[simp] theorem entries_store : (st.store a s).entries = st.entries := rfl

theorem heap_store_self : (st.store a s).heap a = some ⟨s, .library⟩ := update_self ..

theorem heap_store_ne (h : x ≠ a) : (st.store a s).heap x = st.heap x :=
  update_of_ne h _ _

theorem heap_store_of_isSome (ha : st.heap a = none) (hx : (st.heap x).isSome) :
    (st.store a s).heap x = st.heap x :=
  heap_store_ne fun h => by simp [h, ha] at hx

theorem text_congr (h : st'.heap x = st.heap x) : st'.text x = st.text x := by
  rw [text, text, h]

theorem nameAt_congr (h : st'.heap x = st.heap x) : st'.nameAt x = st.nameAt x := by
  rw [nameAt, nameAt, text_congr h]

theorem origin_congr (h : st'.heap x = st.heap x) : st'.origin x = st.origin x := by
  rw [origin, origin, h]

theorem origin_update_of_ne (h : x ≠ a) (c : Option Cell) :
    ({ st with heap := Function.update st.heap a c } : State).origin x = st.origin x :=
  origin_congr (update_of_ne h _ _)

theorem free_eq (h : st.origin a = some .library) :
    st.free a = .ok { st with heap := Function.update st.heap a none } := by
  obtain ⟨⟨t, o⟩, hc, ho⟩ := map_eq_some_iff.1 h
  cases ho
  simp only [free, hc]

theorem free_eq_error (h : st.origin a ≠ some .library) : st.free a = .error (.badFree a) := by
  unfold free
  split
  · next t ht => exact absurd (by rw [origin, ht]; rfl) h
  · rfl

theorem free_store (ha : st.heap a = none) : (st.store a s).free a = .ok st := by
  rw [free_eq (by rw [origin, heap_store_self]; rfl)]
  congr 1
  change State.mk (Function.update (Function.update _ _ _) _ _) _ _ _ = _
  rw [update_idem, ← ha, update_eq_self]
  rfl

end State

open State

/-! ## Cells -/

theorem Terminated.of_environ (h : st.environ = some (l ++ 0 :: rest))
    (hl : ∀ a ∈ l, a ≠ 0 ∧ (st.heap a).isSome) : st.entries = l ∧ Terminated st := by
  have he := entries_of_environ h fun a ha => (hl a ha).1
  refine ⟨he, fun cells hc => ?_, fun a ha => (hl a (he ▸ ha)).2⟩
  rw [h] at hc
  cases hc
  exact mem_append_right _ mem_cons_self

theorem Terminated.store (ht : Terminated st) : Terminated (st.store a s) where
  ends := ht.ends
  live x hx := by
    by_cases h : x = a
    · simp [h, heap_store_self]
    · rw [heap_store_ne h]
      exact ht.live x hx

theorem Terminated.split (ht : Terminated st) (he : st.entries = pre ++ a :: post) :
    ∃ rest, st.environ = some (pre ++ a :: (post ++ 0 :: rest)) := by
  obtain ⟨-, h⟩ | ⟨rest, h⟩ := ht.array
  · simp [he] at h
  · exact ⟨rest, by rw [h, he, append_assoc, cons_append]⟩

theorem Terminated.cell_eq (ht : Terminated st) (he : st.entries = pre ++ a :: post) :
    st.cell pre.length = a := by
  obtain ⟨rest, h⟩ := ht.split he
  simp [State.cell, h]

theorem Terminated.setCell_environ (ht : Terminated st) (he : st.entries = pre ++ a :: post)
    (p : ℕ) : ∃ rest, (st.setCell pre.length p).environ = some ((pre ++ p :: post) ++ 0 :: rest) := by
  obtain ⟨rest, h⟩ := ht.split he
  exact ⟨rest, by simp [State.setCell, h]⟩

/-- **The loop of `unsetenv`** moves the strings up, and the `NULL` with them. -/
theorem shift_append (hl : ∀ x ∈ a :: l, x ≠ 0) :
    shift (a :: (l ++ 0 :: rest)) = .ok (l ++ 0 :: 0 :: rest) := by
  induction l generalizing a with
  | nil =>
    rw [nil_append, shift, if_neg (hl a mem_cons_self)]
    rfl
  | cons b l ih =>
    obtain ⟨ha, hl⟩ := forall_mem_cons.1 hl
    rw [cons_append, shift, if_neg ha, ih hl]
    rfl

theorem nullify_append (hl : ∀ x ∈ l, x ≠ 0) :
    nullify (l ++ 0 :: rest) = .ok (List.replicate l.length 0 ++ 0 :: rest) := by
  induction l with
  | nil => rfl
  | cons a l ih =>
    obtain ⟨ha, hl⟩ := forall_mem_cons.1 hl
    rw [cons_append, nullify, if_neg ha, ih hl]
    rfl

/-! ## The new array -/

/-- Whether the string `i` goes into the new array as it is. -/
def State.shared (st : State) (i : ℕ) : Bool := st.owned && st.flags.getD i false

/-- The strings in the new array. -/
def copies (mem : Alloc) (st : State) : List ℕ → ℕ → List ℕ
  | [], _ => []
  | a :: l, i => (if st.shared i then a else (mem.dup i).getD 0) :: copies mem st l (i + 1)

/-- The memory after the strings were copied. -/
def copied (mem : Alloc) : State → List ℕ → ℕ → State
  | st, [], _ => st
  | st, a :: l, i =>
    if st.shared i then copied mem st l (i + 1)
    else copied mem (st.store ((mem.dup i).getD 0) (st.text a)) l (i + 1)

/-- The strings that go into the new array as they are. -/
def sharedOf (st : State) : List ℕ → ℕ → List ℕ
  | [], _ => []
  | a :: l, i => if st.shared i then a :: sharedOf st l (i + 1) else sharedOf st l (i + 1)

@[simp] theorem shared_store : (st.store a s).shared i = st.shared i := rfl

theorem copies_store : copies mem (st.store a s) l i = copies mem st l i := by
  induction l generalizing i with
  | nil => rfl
  | cons b l ih => rw [copies, copies, ih, shared_store]

theorem copies_append (l₁ l₂ : List ℕ) (i : ℕ) :
    copies mem st (l₁ ++ l₂) i = copies mem st l₁ i ++ copies mem st l₂ (i + l₁.length) := by
  induction l₁ generalizing i with
  | nil => rfl
  | cons a l₁ ih =>
    rw [cons_append, copies, copies, ih, length_cons, cons_append, add_right_comm, add_assoc]

@[simp] theorem length_copies : (copies mem st l i).length = l.length := by
  induction l generalizing i with
  | nil => rfl
  | cons a l ih => rw [copies, length_cons, length_cons, ih]

theorem copied_fields (mem : Alloc) (st : State) (l : List ℕ) (i : ℕ) :
    (copied mem st l i).environ = st.environ ∧ (copied mem st l i).owned = st.owned ∧
      (copied mem st l i).flags = st.flags := by
  induction l generalizing st i with
  | nil => exact ⟨rfl, rfl, rfl⟩
  | cons a l ih =>
    rw [copied]
    split
    · exact ih st (i + 1)
    · exact ih _ (i + 1)

theorem isSome_copied (hx : (st.heap x).isSome) : ((copied mem st l i).heap x).isSome := by
  induction l generalizing st i with
  | nil => exact hx
  | cons a l ih =>
    rw [copied]
    split
    · exact ih hx
    · apply ih
      by_cases h : x = (mem.dup i).getD 0
      · simp [h, heap_store_self]
      · rwa [heap_store_ne h]

/-- The copies of the strings from `i` on that have to be made are made. -/
def Copyable (mem : Alloc) (st : State) (l : List ℕ) (i : ℕ) : Prop :=
  ∀ k < l.length, st.shared (i + k) ∨ (mem.dup (i + k)).isSome

theorem copyable_cons : Copyable mem st (a :: l) i ↔
    (st.shared i ∨ (mem.dup i).isSome) ∧ Copyable mem st l (i + 1) := by
  constructor
  · intro h
    refine ⟨h 0 (Nat.succ_pos _), fun k hk => ?_⟩
    have := h (k + 1) (Nat.succ_lt_succ hk)
    rwa [show i + (k + 1) = i + 1 + k by omega] at this
  · rintro ⟨h0, h⟩ k hk
    cases k with
    | zero => exact h0
    | succ k =>
      have := h k (Nat.lt_of_succ_lt_succ hk)
      rwa [show i + 1 + k = i + (k + 1) by omega] at this

theorem copyFrom_append (hl : ∀ a ∈ l, (st.heap a).isSome) (hc : Copyable mem st l i)
    (done rest : List ℕ) :
    copyFrom mem st (l ++ rest) i done =
      copyFrom mem (copied mem st l i) rest (i + l.length) (done ++ copies mem st l i) := by
  induction l generalizing st i done with
  | nil => simp [copied, copies]
  | cons a l ih =>
    obtain ⟨ha, hl⟩ := forall_mem_cons.1 hl
    obtain ⟨hd, hc⟩ := copyable_cons.1 hc
    rw [cons_append, copyFrom, copied, copies, length_cons,
      show i + (l.length + 1) = i + 1 + l.length by omega]
    change (if st.shared i = true then _ else _) = _
    by_cases hs : st.shared i
    · rw [if_pos hs, if_pos hs, if_pos hs, ih hl hc, append_assoc]
      rfl
    · obtain ⟨q, hq⟩ := isSome_iff_exists.1 (hd.resolve_left hs)
      rw [if_neg hs, if_neg hs, if_neg hs, read_eq ha, hq]
      change copyFrom mem (st.store q (st.text a)) (l ++ rest) (i + 1) (done ++ [q]) = _
      have hl' : ∀ b ∈ l, ((st.store q (st.text a)).heap b).isSome := by
        intro b hb
        by_cases h : b = q
        · simp [h, heap_store_self]
        · rw [heap_store_ne h]
          exact hl b hb
      rw [ih hl' hc, copies_store, append_assoc]
      rfl

/-- The addresses of the copies from `i` on are not in use. -/
structure Alloc.FreshFrom (mem : Alloc) (st : State) (i : ℕ) : Prop where
  dup : ∀ j q, i ≤ j → mem.dup j = some q → q ≠ 0 ∧ st.heap q = none
  inj : ∀ j k q, mem.dup j = some q → mem.dup k = some q → j = k

theorem Alloc.Fresh.freshFrom (hf : mem.Fresh st) (i : ℕ) : mem.FreshFrom st i :=
  ⟨fun j q _ h => ⟨(hf.dup j q h).1, (hf.dup j q h).2.1⟩, hf.inj⟩

theorem Alloc.Fresh.freshFrom_store (hf : mem.Fresh st) (he : mem.entry = some p) (i : ℕ) :
    mem.FreshFrom (st.store p s) i := by
  refine ⟨fun j q _ h => ⟨(hf.dup j q h).1, ?_⟩, hf.inj⟩
  have hne : q ≠ p := fun e => (hf.dup j q h).2.2 (e ▸ he)
  rw [heap_store_ne hne]
  exact (hf.dup j q h).2.1

theorem Alloc.FreshFrom.succ (hf : mem.FreshFrom st i) : mem.FreshFrom st (i + 1) :=
  ⟨fun j q hj h => hf.dup j q (by omega) h, hf.inj⟩

theorem Alloc.FreshFrom.succ_store (hf : mem.FreshFrom st i) {q : ℕ} (hq : mem.dup i = some q) :
    mem.FreshFrom (st.store q s) (i + 1) := by
  refine ⟨fun j q' hj h => ?_, hf.inj⟩
  have hne : q' ≠ q := fun e => by
    have := hf.inj j i q (e ▸ h) hq
    omega
  exact ⟨(hf.dup j q' (by omega) h).1, by rw [heap_store_ne hne]; exact (hf.dup j q' (by omega) h).2⟩

theorem heap_copied (hf : mem.FreshFrom st i) (hc : Copyable mem st l i) (hx : (st.heap x).isSome) :
    (copied mem st l i).heap x = st.heap x := by
  induction l generalizing st i with
  | nil => rfl
  | cons a l ih =>
    obtain ⟨hd, hc⟩ := copyable_cons.1 hc
    rw [copied]
    by_cases hs : st.shared i
    · rw [if_pos hs]
      exact ih hf.succ hc hx
    · obtain ⟨q, hq⟩ := isSome_iff_exists.1 (hd.resolve_left hs)
      have hkeep : (st.store q (st.text a)).heap x = st.heap x :=
        heap_store_of_isSome (hf.dup i q (le_refl i) hq).2 hx
      rw [if_neg hs, hq, getD_some, ← hkeep]
      exact ih (hf.succ_store hq) hc (by rwa [hkeep])

theorem sharedOf_store : sharedOf (st.store a s) l i = sharedOf st l i := by
  induction l generalizing i with
  | nil => rfl
  | cons b l ih => rw [sharedOf, sharedOf, ih, shared_store]

theorem sharedOf_subset_copies (mem : Alloc) : sharedOf st l i ⊆ copies mem st l i := by
  induction l generalizing i with
  | nil => exact Subset.refl _
  | cons a l ih =>
    rw [sharedOf, copies]
    by_cases hs : st.shared i
    · rw [if_pos hs, if_pos hs]
      exact cons_subset_cons a ih
    · rw [if_neg hs]
      exact subset_cons_of_subset _ ih

theorem mem_of_mem_sharedOf (hx : x ∈ sharedOf st l i) : x ∈ l ∧ st.owned := by
  induction l generalizing i with
  | nil => cases hx
  | cons a l ih =>
    rw [sharedOf] at hx
    split at hx
    · next hs =>
      obtain rfl | hx := mem_cons.1 hx
      · exact ⟨mem_cons_self, ((Bool.and_eq_true _ _).mp hs).1⟩
      · exact ⟨mem_cons_of_mem a (ih hx).1, (ih hx).2⟩
    · exact ⟨mem_cons_of_mem a (ih hx).1, (ih hx).2⟩

theorem mem_copies (hc : Copyable mem st l i) (hx : x ∈ copies mem st l i) :
    x ∈ sharedOf st l i ∨ ∃ j ≥ i, mem.dup j = some x := by
  induction l generalizing i with
  | nil => cases hx
  | cons a l ih =>
    obtain ⟨hd, hc⟩ := copyable_cons.1 hc
    rw [copies] at hx
    rw [sharedOf]
    by_cases hs : st.shared i
    · rw [if_pos hs] at hx ⊢
      obtain rfl | hx := mem_cons.1 hx
      · exact .inl mem_cons_self
      · obtain h | ⟨j, hj, h⟩ := ih hc hx
        · exact .inl (mem_cons_of_mem a h)
        · exact .inr ⟨j, Nat.le_of_succ_le hj, h⟩
    · obtain ⟨q, hq⟩ := isSome_iff_exists.1 (hd.resolve_left hs)
      rw [if_neg hs, hq] at hx
      rw [if_neg hs]
      obtain rfl | hx := mem_cons.1 hx
      · exact .inr ⟨i, le_refl i, hq⟩
      · obtain h | ⟨j, hj, h⟩ := ih hc hx
        · exact .inl h
        · exact .inr ⟨j, Nat.le_of_succ_le hj, h⟩

theorem heap_copied_of_not_mem (hx : x ∉ copies mem st l i) :
    (copied mem st l i).heap x = st.heap x := by
  induction l generalizing st i with
  | nil => rfl
  | cons a l ih =>
    rw [copies] at hx
    obtain ⟨hne, hx⟩ := ne_and_not_mem_of_not_mem_cons hx
    rw [copied]
    by_cases hs : st.shared i
    · rw [if_pos hs]
      exact ih hx
    · rw [if_neg hs] at hne ⊢
      rw [ih (by rwa [copies_store]), heap_store_ne hne]

theorem origin_copied (hf : mem.FreshFrom st i) (hl : ∀ a ∈ l, (st.heap a).isSome)
    (hc : Copyable mem st l i) (hx : x ∈ copies mem st l i) (hnew : st.heap x = none) :
    (copied mem st l i).origin x = some .library := by
  induction l generalizing st i with
  | nil => cases hx
  | cons a l ih =>
    obtain ⟨ha, hl⟩ := forall_mem_cons.1 hl
    obtain ⟨hd, hc⟩ := copyable_cons.1 hc
    rw [copies] at hx
    rw [copied]
    by_cases hs : st.shared i
    · rw [if_pos hs] at hx ⊢
      obtain rfl | hx := mem_cons.1 hx
      · simp [hnew] at ha
      · exact ih hf.succ hl hc hx hnew
    · obtain ⟨q, hq⟩ := isSome_iff_exists.1 (hd.resolve_left hs)
      have hq0 := (hf.dup i q (le_refl i) hq).2
      have hf' := hf.succ_store (s := st.text a) hq
      rw [if_neg hs, hq, getD_some] at hx ⊢
      by_cases hxq : x = q
      · subst hxq
        rw [origin_congr (heap_copied hf' hc (by simp [heap_store_self])), State.origin,
          heap_store_self]
        rfl
      · obtain rfl | hx := mem_cons.1 hx
        · exact absurd rfl hxq
        · rw [← copies_store (a := q) (s := st.text a)] at hx
          refine ih hf' (fun b hb => ?_) hc hx (by rwa [heap_store_ne hxq])
          rw [heap_store_of_isSome hq0 (hl b hb)]
          exact hl b hb

theorem text_copies (hf : mem.FreshFrom st i) (hl : ∀ a ∈ l, (st.heap a).isSome)
    (hc : Copyable mem st l i) :
    (copies mem st l i).map (copied mem st l i).text = l.map st.text := by
  induction l generalizing st i with
  | nil => rfl
  | cons a l ih =>
    obtain ⟨ha, hl⟩ := forall_mem_cons.1 hl
    obtain ⟨hd, hc⟩ := copyable_cons.1 hc
    rw [copies, copied, map_cons, map_cons]
    by_cases hs : st.shared i
    · rw [if_pos hs, if_pos hs, ih hf.succ hl hc, text_congr (heap_copied hf.succ hc ha)]
    · obtain ⟨q, hq⟩ := isSome_iff_exists.1 (hd.resolve_left hs)
      have hq0 := (hf.dup i q (le_refl i) hq).2
      have hf' := hf.succ_store (s := st.text a) hq
      have hl' : ∀ b ∈ l, ((st.store q (st.text a)).heap b).isSome := fun b hb => by
        rw [heap_store_of_isSome hq0 (hl b hb)]
        exact hl b hb
      have hrest := ih hf' hl' hc
      rw [copies_store] at hrest
      rw [if_neg hs, if_neg hs, hq, getD_some, hrest,
        text_congr (heap_copied hf' hc (by simp [heap_store_self]))]
      refine congrArg₂ List.cons ?_ (map_congr_left fun b hb => ?_)
      · simp [State.text, heap_store_self]
      · exact text_congr (heap_store_of_isSome hq0 (hl b hb))

theorem count_copies_le (hf : mem.FreshFrom st i) (hc : Copyable mem st l i)
    (hx : (st.heap x).isSome) : (copies mem st l i).count x ≤ l.count x := by
  induction l generalizing i with
  | nil => exact le_refl 0
  | cons a l ih =>
    obtain ⟨hd, hc⟩ := copyable_cons.1 hc
    have ih := ih hf.succ hc
    rw [copies, count_cons, count_cons]
    by_cases hs : st.shared i
    · rw [if_pos hs]
      omega
    · obtain ⟨q, hq⟩ := isSome_iff_exists.1 (hd.resolve_left hs)
      have hne : q ≠ x := fun h => by simp [← h, (hf.dup i q (le_refl i) hq).2] at hx
      rw [if_neg hs, hq, getD_some, if_neg (by simpa using hne)]
      omega

theorem count_copies_le_one (hf : mem.FreshFrom st i) (hl : ∀ a ∈ l, (st.heap a).isSome)
    (hc : Copyable mem st l i) (hx : st.heap x = none) : (copies mem st l i).count x ≤ 1 := by
  induction l generalizing i with
  | nil => exact Nat.zero_le 1
  | cons a l ih =>
    obtain ⟨ha, hl⟩ := forall_mem_cons.1 hl
    obtain ⟨hd, hc⟩ := copyable_cons.1 hc
    have ih := ih hf.succ hl hc
    rw [copies, count_cons]
    by_cases hs : st.shared i
    · have hne : a ≠ x := fun h => by simp [h, hx] at ha
      rw [if_pos hs, if_neg (by simpa using hne)]
      exact ih
    · obtain ⟨q, hq⟩ := isSome_iff_exists.1 (hd.resolve_left hs)
      rw [if_neg hs, hq, getD_some]
      by_cases hqx : q = x
      · subst hqx
        have hnot : q ∉ copies mem st l (i + 1) := fun hmem => by
          obtain h | ⟨j, hj, h⟩ := mem_copies hc hmem
          · simpa [hx] using hl q (mem_of_mem_sharedOf h).1
          · have := hf.inj j i q h hq
            omega
        simp [count_eq_zero_of_not_mem hnot]
      · rw [if_neg (by simpa using hqx)]
        exact ih

end Vlibc.Env
