import Vlibc.Env.Steps

/-!
# The functions, case by case

One equation for each case of each function, in a state whose `environ` is in order (`Terminated`).
Which case applies is said with the names in `environ`: the name is there, at a first place
(`FirstAt`), or it is not.
-/

namespace Vlibc.Env

open State List Option

variable {st st' : State} {mem : Alloc} {a p i : ℕ} {l pre post rest : List ℕ} {s : CStr}
  {name : CStr} {name' value : Option CStr} {flag : Bool}

/-- No string of `environ` has the name. -/
def Absent (st : State) (n : List UInt8) : Prop := ∀ a ∈ st.entries, st.nameAt a ≠ some n

/-- The first string of `environ` with the name is at `a`. -/
abbrev Present (st : State) (n : List UInt8) (pre : List ℕ) (a : ℕ) (post : List ℕ) : Prop :=
  FirstAt st.nameAt n st.entries pre a post

theorem absent_or_present (st : State) (n : List UInt8) :
    Absent st n ∨ ∃ pre a post, Present st n pre a post :=
  firstWith_cases st.nameAt n st.entries

theorem not_absent {n : List UInt8} (h : Present st n pre a post) : ¬ Absent st n :=
  fun habs => habs a h.mem h.has

section Find

variable {len : ℕ}

theorem Terminated.find_absent (ht : Terminated st) (hlen : len ≤ s.bytes.length)
    (hn : equals ∉ s.bytes.take len) (h : Absent st (s.bytes.take len)) :
    findEnvIndex st s len = .ok none := by
  obtain ⟨-, e⟩ | ⟨pre, a, post, hp, -⟩ := ht.findEnvIndex_cases hlen hn
  · exact e
  · exact absurd h (not_absent hp)

theorem Terminated.find_present (ht : Terminated st) (hlen : len ≤ s.bytes.length)
    (hn : equals ∉ s.bytes.take len) (h : Present st (s.bytes.take len) pre a post) :
    findEnvIndex st s len = .ok (some pre.length) := by
  obtain ⟨habs, -⟩ | ⟨pre', a', post', h', e⟩ := ht.findEnvIndex_cases hlen hn
  · exact absurd habs (not_absent h)
  · rw [e, h.length_unique h']

theorem Terminated.find_absent_name (ht : Terminated st) (hn : equals ∉ name.bytes)
    (h : Absent st name.bytes) : findEnvIndex st name (vstrlen name) = .ok none := by
  have htake : name.bytes.take (vstrlen name) = name.bytes := take_length
  exact ht.find_absent (le_refl _) (htake.symm ▸ hn) (htake.symm ▸ h)

theorem Terminated.find_present_name (ht : Terminated st) (hn : equals ∉ name.bytes)
    (h : Present st name.bytes pre a post) :
    findEnvIndex st name (vstrlen name) = .ok (some pre.length) := by
  have htake : name.bytes.take (vstrlen name) = name.bytes := take_length
  exact ht.find_present (le_refl _) (htake.symm ▸ hn) (htake.symm ▸ h)

end Find

/-- The state behind a `grow` that succeeds. -/
def grown (mem : Alloc) (st : State) (p : ℕ) (flag : Bool) : State where
  heap := (copied mem st st.entries 0).heap
  environ := some (copies mem st st.entries 0 ++ [p, 0])
  owned := true
  flags := List.replicate st.entries.length true ++ [flag]

theorem grow_noMem (ht : Terminated st) (h : mem.newenv = false ∨ mem.newflags = false) :
    grow st mem p flag = .ok (st, false) := by
  rw [grow, ht.entriesOf_eq]
  change (if (!mem.newenv || !mem.newflags) = true then _ else _) = _
  rw [if_pos (by rcases h with h | h <;> simp [h])]
  rfl

theorem grow_ok (ht : Terminated st) (henv : mem.newenv) (hflags : mem.newflags)
    (hc : Copyable mem st st.entries 0) : grow st mem p flag = .ok (grown mem st p flag, true) := by
  have hcopy := copyFrom_append ht.live hc [] []
  rw [append_nil, nil_append, copyFrom] at hcopy
  rw [grow, ht.entriesOf_eq]
  change (if (!mem.newenv || !mem.newflags) = true then _ else _) = _
  rw [if_neg (by simp [henv, hflags]), hcopy]
  change Except.ok (State.mk _ _ _ _, true) = _
  rw [grown, length_copies]

theorem grow_fail (ht : Terminated st) (henv : mem.newenv) (hflags : mem.newflags)
    (he : st.entries = pre ++ a :: post) (hc : Copyable mem st pre 0)
    (hs : st.shared pre.length = false) (hd : mem.dup pre.length = none) :
    grow st mem p flag =
      (freeAll (copied mem st pre 0) (copies mem st pre 0)).map fun st => (st, false) := by
  have hlive : ∀ b ∈ pre, (st.heap b).isSome := fun b hb =>
    ht.live b (he ▸ mem_append_left _ hb)
  have hread : ((copied mem st pre 0).heap a).isSome := isSome_copied (ht.live a (he ▸ by simp))
  obtain ⟨-, howned, hfl⟩ := copied_fields mem st pre 0
  have hstop : copyFrom mem (copied mem st pre 0) (a :: post) pre.length (copies mem st pre 0) =
      (freeAll (copied mem st pre 0) (copies mem st pre 0)).map fun st => (st, none) := by
    rw [copyFrom, howned, hfl]
    change (if st.shared pre.length = true then _ else _) = _
    rw [if_neg (by simp [hs]), read_eq hread, hd]
    cases freeAll (copied mem st pre 0) (copies mem st pre 0) <;> rfl
  have hcopy := copyFrom_append hlive hc [] (a :: post)
  rw [nil_append, zero_add, hstop, ← he] at hcopy
  rw [grow, ht.entriesOf_eq]
  change (if (!mem.newenv || !mem.newflags) = true then _ else _) = _
  rw [if_neg (by simp [henv, hflags]), hcopy]
  cases freeAll (copied mem st pre 0) (copies mem st pre 0) <;> rfl

theorem setenv_rejected (h : ∀ n, name' = some n → equals ∈ n.bytes) (overwrite : Bool) :
    setenv st mem name' value overwrite = .ok (⟨-1, some EINVAL⟩, st) := by
  cases name' with
  | none => rfl
  | some n =>
    have hsome : (strchr n equals).isSome := by
      rw [isSome_iff_ne_none, Ne, strchr_eq_none_iff (by decide), not_not]
      exact h n rfl
    rw [setenv, if_pos hsome]

section Setenv

variable (ht : Terminated st) (hn : equals ∉ name.bytes)

/-- The string that `setenv` makes. -/
def newEntry (name : CStr) (value : Option CStr) : CStr :=
  assignment name (value.getD (str ""))

include ht hn

theorem setenv_keep (h : Present st name.bytes pre a post) :
    setenv st mem (some name) value false = .ok (⟨0, none⟩, st) := by
  rw [setenv, if_neg (by simp [(strchr_eq_none_iff (by decide)).2 hn]), ht.find_present_name hn h]
  rfl

theorem setenv_noMem {overwrite : Bool} (h : overwrite ∨ Absent st name.bytes)
    (he : mem.entry = none) :
    setenv st mem (some name) value overwrite = .ok (⟨-1, some ENOMEM⟩, st) := by
  rw [setenv, if_neg (by simp [(strchr_eq_none_iff (by decide)).2 hn])]
  obtain habs | ⟨pre, a, post, hp⟩ := absent_or_present st name.bytes
  · rw [ht.find_absent_name hn habs, he]
    rfl
  · rw [ht.find_present_name hn hp, he, h.resolve_right (not_absent hp)]
    rfl

/-- **An entry is replaced**; in an array of this file the old one is freed. -/
theorem setenv_replace (h : Present st name.bytes pre a post) (he : mem.entry = some p) :
    setenv st mem (some name) value true =
      (if st.owned then (st.store p (newEntry name value)).free a
        else .ok (st.store p (newEntry name value))).map
          fun st => (⟨0, none⟩, st.setCell pre.length p) := by
  have hcell : (st.store p (newEntry name value)).cell pre.length = a := ht.cell_eq h.eq
  rw [setenv, if_neg (by simp [(strchr_eq_none_iff (by decide)).2 hn]), ht.find_present_name hn h, he]
  change (if st.owned = true then (st.store p (newEntry name value)).free
    ((st.store p (newEntry name value)).cell pre.length) >>= _ else _) = _
  rw [hcell]
  by_cases ho : st.owned
  · rw [if_pos ho, if_pos ho]
    cases (st.store p (newEntry name value)).free a <;> rfl
  · rw [if_neg ho, if_neg ho]
    rfl

theorem setenv_append {overwrite : Bool} (h : Absent st name.bytes) (he : mem.entry = some p) :
    setenv st mem (some name) value overwrite =
      (grow (st.store p (newEntry name value)) mem p true).bind fun r =>
        if r.2 then .ok (⟨0, none⟩, r.1)
        else (r.1.free p).map fun st => (⟨-1, some ENOMEM⟩, st) := by
  rw [setenv, if_neg (by simp [(strchr_eq_none_iff (by decide)).2 hn]), ht.find_absent_name hn h, he]
  change (grow (st.store p (newEntry name value)) mem p true >>= _) = _
  cases grow (st.store p (newEntry name value)) mem p true with
  | error f => rfl
  | ok r =>
    obtain ⟨st', b⟩ := r
    cases b
    · cases st'.free p <;> rfl
    · rfl

end Setenv

/-! ## `putenv` -/

section Putenv

variable {str : ℕ} {n : List UInt8}

/-- What `putenv` takes: `name=value` with a name that is not empty. -/
def Assigns (st : State) (str : ℕ) (n : List UInt8) : Prop :=
  str ≠ 0 ∧ (st.heap str).isSome ∧ st.nameAt str = some n ∧ n ≠ []

theorem putenv_rejected (h : str = 0 ∨ (st.heap str).isSome ∧ ∀ n, ¬ Assigns st str n) :
    putenv st mem str = .ok (⟨-1, some EINVAL⟩, st) := by
  by_cases h0 : str = 0
  · rw [putenv, if_pos h0]
  · obtain ⟨hlive, hno⟩ := h.resolve_left h0
    simp only [putenv, if_neg h0, read_eq hlive, Bind.bind, Except.bind]
    rcases hs : strchr (st.text str) equals with _ | _ | len
    · rfl
    · rfl
    · obtain ⟨hle, hnot, hname⟩ := nameOf_of_strchr hs
      refine absurd ⟨h0, hlive, hname, fun hnil => ?_⟩ (hno ((st.text str).bytes.take (len + 1)))
      have := congrArg List.length hnil
      rw [length_take_of_le hle] at this
      simp at this

theorem putenv_dangling (h0 : str ≠ 0) (h : st.heap str = none) :
    putenv st mem str = .error (.dangling str) := by
  rw [putenv, if_neg h0, State.read, h]
  rfl

theorem Assigns.strchr_eq (h : Assigns st str n) :
    ∃ len, strchr (st.text str) equals = some (len + 1) ∧ len + 1 ≤ (st.text str).bytes.length ∧
      equals ∉ (st.text str).bytes.take (len + 1) ∧ (st.text str).bytes.take (len + 1) = n := by
  obtain ⟨-, -, hname, hne⟩ := h
  have hsome : strchr (st.text str) equals ≠ none := fun hnone => by
    rw [strchr_eq_none_iff (by decide)] at hnone
    rw [State.nameAt, nameOf_eq_none_iff.2 hnone] at hname
    cases hname
  obtain ⟨len, hlen⟩ := ne_none_iff_exists'.1 hsome
  obtain ⟨hle, hnot, hname'⟩ := nameOf_of_strchr hlen
  have hn : (st.text str).bytes.take len = n := some.inj (hname'.symm.trans hname)
  cases len with
  | zero => exact absurd hn.symm hne
  | succ len => exact ⟨len, hlen, hle, hnot, hn⟩

theorem putenv_eq_find {len : ℕ} (h : Assigns st str n)
    (hs : strchr (st.text str) equals = some (len + 1)) :
    putenv st mem str = (findEnvIndex st (st.text str) (len + 1)).bind fun idx =>
      match idx with
      | some i => .ok (⟨0, none⟩, (st.setCell i str).handOver str)
      | none => (grow st mem str false).map fun r =>
        if r.2 then (⟨0, none⟩, r.1.handOver str) else (⟨-1, some ENOMEM⟩, r.1) := by
  simp only [putenv, if_neg h.1, read_eq h.2.1, hs, Bind.bind, Except.bind]
  rcases findEnvIndex st (st.text str) (len + 1) with f | _ | i
  · rfl
  · rcases grow st mem str false with f | ⟨st', _ | _⟩ <;> rfl
  · rfl

variable (ht : Terminated st) (h : Assigns st str n)

include ht h

/-- **The string takes the place** of the entry with its name, which is not freed. -/
theorem putenv_replace (hp : Present st n pre a post) (mem : Alloc) :
    putenv st mem str = .ok (⟨0, none⟩, (st.setCell pre.length str).handOver str) := by
  obtain ⟨len, hs, hle, hnot, hn⟩ := h.strchr_eq
  rw [putenv_eq_find h hs, ht.find_present hle hnot (hn.symm ▸ hp)]
  rfl

theorem putenv_append (habs : Absent st n) (mem : Alloc) :
    putenv st mem str = (grow st mem str false).map fun r =>
      if r.2 then (⟨0, none⟩, r.1.handOver str) else (⟨-1, some ENOMEM⟩, r.1) := by
  obtain ⟨len, hs, hle, hnot, hn⟩ := h.strchr_eq
  rw [putenv_eq_find h hs, ht.find_absent hle hnot (hn.symm ▸ habs)]
  rfl

end Putenv

/-! ## `unsetenv` and `clearenv` -/

theorem unsetenv_rejected
    (h : st.environ = none ∨ ∀ n, name' = some n → equals ∈ n.bytes) :
    unsetenv st name' = .ok (⟨-1, none⟩, st) := by
  cases he : st.environ with
  | none => simp only [unsetenv, he]
  | some cells =>
    cases name' with
    | none => simp only [unsetenv, he]
    | some n =>
      have hsome : (strchr n equals).isSome := by
        rw [isSome_iff_ne_none, Ne, strchr_eq_none_iff (by decide), not_not]
        exact (h.resolve_left (by simp [he])) n rfl
      simp only [unsetenv, he, if_pos hsome]

theorem unsetenv_absent (ht : Terminated st) (hn : equals ∉ name.bytes) (hne : st.environ ≠ none)
    (h : Absent st name.bytes) : unsetenv st (some name) = .ok (⟨0, none⟩, st) := by
  obtain ⟨cells, hc⟩ := ne_none_iff_exists'.1 hne
  simp only [unsetenv, hc, (strchr_eq_none_iff (by decide)).2 hn, ht.find_absent_name hn h]
  rfl

/-- The state without the string at the place `i`. -/
def removed (st : State) (i : ℕ) (cells : List ℕ) : State :=
  { st with environ := some cells, flags := if st.owned then st.flags.eraseIdx i else st.flags }

theorem unsetenv_present (ht : Terminated st) (hn : equals ∉ name.bytes)
    (h : Present st name.bytes pre a post) :
    ∃ rest, unsetenv st (some name) =
      (if st.shared pre.length then st.free a else .ok st).map fun st =>
        (⟨0, none⟩, removed st pre.length ((pre ++ post) ++ 0 :: rest)) := by
  obtain ⟨rest, hcells⟩ := ht.split h.eq
  have h0 : ∀ x ∈ a :: post, x ≠ 0 := fun x hx => by
    have hmem : x ∈ st.entries := h.eq ▸ mem_append_right _ hx
    exact entries_ne_zero hmem
  refine ⟨0 :: rest, ?_⟩
  rw [← ht.cell_eq h.eq]
  simp only [unsetenv, hcells, (strchr_eq_none_iff (by decide)).2 hn, ht.find_present_name hn h]
  change (if st.shared pre.length = true then st.free _ >>= _ else _) = _
  rw [drop_left, shift_append h0, take_left, append_assoc]
  by_cases hs : st.shared pre.length
  · rw [if_pos hs, if_pos hs]
    cases st.free (st.cell pre.length) <;> rfl
  · rw [if_neg hs, if_neg hs]
    rfl

theorem clearenv_null (h : st.environ = none) : clearenv st mem = .ok (⟨0, none⟩, st) := by
  simp only [clearenv, h]

theorem clearenv_borrowed (ht : Terminated st) (hne : st.environ ≠ none) (ho : st.owned = false)
    (mem : Alloc) :
    ∃ rest, clearenv st mem = .ok (⟨0, some 0⟩, { st with environ := some (0 :: rest) }) := by
  obtain ⟨h, -⟩ | ⟨rest, h⟩ := ht.array
  · exact absurd h hne
  · have h0 : ∀ x ∈ st.entries, x ≠ 0 := fun x => entries_ne_zero
    simp only [clearenv, h, ho, nullify_append h0]
    cases st.entries with
    | nil => exact ⟨rest, rfl⟩
    | cons b l => exact ⟨List.replicate l.length 0 ++ 0 :: rest, rfl⟩

theorem clearenv_noMem (hne : st.environ ≠ none) (ho : st.owned)
    (h : mem.newenv = false ∨ mem.newflags = false) :
    clearenv st mem = .ok (⟨-1, some ENOMEM⟩, st) := by
  obtain ⟨cells, hc⟩ := ne_none_iff_exists'.1 hne
  have hm : (!mem.newenv || !mem.newflags) = true := by rcases h with h | h <;> simp [h]
  simp only [clearenv, hc, ho, hm, Bool.not_true, Bool.false_eq_true, if_false, if_true]

theorem clearenv_owned (ht : Terminated st) (hne : st.environ ≠ none) (ho : st.owned)
    (henv : mem.newenv) (hflags : mem.newflags) :
    clearenv st mem = (freeAll st (flagged st.entries st.flags)).map fun st =>
      (⟨0, none⟩, { st with environ := some [0], owned := true, flags := [] }) := by
  obtain ⟨cells, hc⟩ := ne_none_iff_exists'.1 hne
  have hent := ht.entriesOf_eq
  rw [hc, getD_some] at hent
  simp only [clearenv, hc, ho, henv, hflags, hent, Bool.not_true, Bool.or_self,
    Bool.false_eq_true, if_false]
  change (freeAll st (flagged st.entries st.flags) >>= _) = _
  cases freeAll st (flagged st.entries st.flags) <;> rfl

end Vlibc.Env
