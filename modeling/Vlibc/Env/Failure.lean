import Vlibc.Env.Runs

/-!
# Allocations that fail

When `setenv` or `putenv` cannot copy a string of the old array, it frees every string that it had
already put into the new one, among them those that it shared with the old array. If there are none,
the call has no effect (`failed_call_iff`); otherwise `environ` starts with a string that is no
longer in memory (`Broken`), and no later call gets past it. So every state that a run reaches is in
order or broken (`Run.sound_or_broken`).
-/

namespace Vlibc.Env

open State List Option

variable {st st' st₀ : State} {mem : Alloc} {a p x i : ℕ} {l pre post pre' post' : List ℕ}
  {n : List UInt8} {c : Call} {r : Reply} {steps : List (Call × Alloc)}

/-- In an array of this file every string but the last is flagged. -/
def Flagged (st : State) : Prop :=
  st.owned → ∀ i, i + 1 < st.entries.length → st.flags.getD i false = true

theorem Flagged.replaced (hs : Sound st) (h : Flagged st) {cell : Cell}
    (hr : Replaced st st' n pre a post p cell) : Flagged st' := by
  intro ho i hi
  rw [hr.flags]
  refine h (hr.owned ▸ ho) i ?_
  rw [(hr.sound hs).1] at hi
  rw [hr.present.eq]
  simpa using hi

theorem Flagged.removed (hs : Sound st) (h : Flagged st) (hr : Removed st st' n pre a post) :
    Flagged st' := by
  intro ho i hi
  have ho : st.owned := hr.owned ▸ ho
  rw [(hr.sound hs).1, length_append] at hi
  have hlen : st.entries.length = pre.length + post.length + 1 := by
    rw [hr.present.eq, length_append, length_cons, add_assoc]
  rw [hr.flags, if_pos ho, getD_eq_getElem?_getD, getElem?_eraseIdx]
  split
  · rw [← getD_eq_getElem?_getD]
    exact h ho i (by omega)
  · rw [← getD_eq_getElem?_getD]
    exact h ho (i + 1) (by omega)

theorem Flagged.grown (hs : Sound st) {cell : Cell} (hg : Grown mem st st' n p cell) :
    Flagged st' := by
  intro _ i hi
  obtain ⟨f, hf⟩ := hg.flags
  rw [(hg.sound hs).1, length_append, length_copies, length_singleton] at hi
  have hlt : i < (List.replicate st.entries.length true).length := by
    rw [length_replicate]
    omega
  rw [hf, getD_append _ _ _ _ hlt, getD_replicate _ (by omega)]

/-! ## Broken states -/

/-- `environ` starts with a string that is not in memory, and that would be freed again. -/
def Broken (st : State) : Prop :=
  ∃ a cells flags, st.environ = some (a :: cells) ∧ a ≠ 0 ∧ st.heap a = none ∧ st.owned ∧
    st.flags = true :: flags

theorem Broken.find (hb : Broken st) (s : CStr) (len : ℕ) : ∃ f, findEnvIndex st s len = .error f := by
  obtain ⟨a, cells, flags, he, h0, ha, -, -⟩ := hb
  refine ⟨.dangling a, ?_⟩
  rw [findEnvIndex, he]
  change findFrom st s len (a :: cells) 0 = _
  rw [findFrom, if_neg h0, State.read, ha]
  rfl

/-- **Nothing gets past a broken state**: a call that returns was refused, or `clearenv` had no
memory, and left everything as it was. -/
theorem Broken.exec (hb : Broken st) (h : c.exec st mem = .ok (r, st')) :
    st' = st ∧ r.ret = -1 ∧ (c = .clearenv ∨ c.Rejected st) := by
  cases c with
  | setenv name value overwrite =>
    change setenv st mem name value overwrite = _ at h
    by_cases hn : ∀ n, name = some n → equals ∈ n.bytes
    · rw [setenv_rejected hn] at h
      cases h
      exact ⟨rfl, rfl, .inr hn⟩
    · push Not at hn
      obtain ⟨n, rfl, hn⟩ := hn
      obtain ⟨f, e⟩ := hb.find n (vstrlen n)
      rw [setenv, if_neg (by simp [(strchr_eq_none_iff (by decide)).2 hn]), e] at h
      cases h
  | putenv str =>
    change putenv st mem str = _ at h
    by_cases hlive : str = 0 ∨ (st.heap str).isSome
    · by_cases hn : ∃ n, Assigns st str n
      · obtain ⟨n, hstr⟩ := hn
        obtain ⟨len, hs, -⟩ := hstr.strchr_eq
        obtain ⟨f, e⟩ := hb.find (st.text str) (len + 1)
        rw [putenv_eq_find hstr hs, e] at h
        cases h
      · push Not at hn
        have hrej := hlive.imp_right fun hl => (⟨hl, hn⟩ : _ ∧ ∀ n, ¬ Assigns st str n)
        rw [putenv_rejected hrej] at h
        cases h
        exact ⟨rfl, rfl, .inr hrej⟩
    · rw [not_or, not_isSome_iff_eq_none] at hlive
      rw [putenv_dangling hlive.1 hlive.2] at h
      cases h
  | unsetenv name =>
    change unsetenv st name = _ at h
    by_cases hn : st.environ = none ∨ ∀ n, name = some n → equals ∈ n.bytes
    · rw [unsetenv_rejected hn] at h
      cases h
      exact ⟨rfl, rfl, .inr hn⟩
    · push Not at hn
      obtain ⟨hne, n, rfl, hn⟩ := hn
      obtain ⟨cells, hc⟩ := ne_none_iff_exists'.1 hne
      obtain ⟨f, e⟩ := hb.find n (vstrlen n)
      simp only [unsetenv, hc, (strchr_eq_none_iff (by decide)).2 hn, e] at h
      cases h
  | clearenv =>
    change clearenv st mem = _ at h
    obtain ⟨a, cells, flags, he, h0, ha, ho, hfl⟩ := hb
    by_cases hmem : mem.newenv = false ∨ mem.newflags = false
    · rw [clearenv_noMem (by simp [he]) ho hmem] at h
      cases h
      exact ⟨rfl, rfl, .inl rfl⟩
    · simp only [not_or, Bool.not_eq_false] at hmem
      simp only [clearenv, he, ho, hmem.1, hmem.2, Bool.not_true, Bool.or_self,
        Bool.false_eq_true, if_false, entriesOf, if_neg h0] at h
      cases hent : entriesOf cells with
      | error f =>
        rw [hent] at h
        cases h
      | ok l =>
        rw [hent] at h
        change (freeAll st (flagged (a :: l) st.flags) >>= _) = _ at h
        have hmem : a ∈ flagged (a :: l) st.flags := by simp [hfl, flagged]
        obtain ⟨f, e⟩ := freeAll_error st hmem (by simp [State.origin, ha])
        rw [e] at h
        cases h

theorem FailsAt.broken (hs : Sound st) (hfl : Flagged st) (hfail : FailsAt mem st pre a post)
    (hne : sharedOf st pre 0 ≠ []) : Broken (st.without (sharedOf st pre 0)) := by
  obtain ⟨x, hx⟩ := exists_mem_of_ne_nil _ hne
  obtain ⟨hxpre, ho⟩ := mem_of_mem_sharedOf hx
  obtain ⟨b, pre, rfl⟩ := exists_cons_of_ne_nil (ne_nil_of_mem hxpre)
  have hflag : st.flags.getD 0 false = true := hfl ho 0 (by rw [hfail.eq]; simp)
  obtain ⟨flags, hflags⟩ : ∃ flags, st.flags = true :: flags := by
    rcases hcase : st.flags with _ | ⟨f, flags⟩
    · simp [hcase] at hflag
    · rw [hcase] at hflag
      exact ⟨flags, by simpa using hflag⟩
  have hshared : b ∈ sharedOf st (b :: pre) 0 := by
    rw [sharedOf, if_pos (by simp [State.shared, ho, hflags])]
    exact mem_cons_self
  have hb : b ∈ st.entries := hfail.eq ▸ mem_append_left _ mem_cons_self
  obtain ⟨rest, henv⟩ := hs.toTerminated.split hfail.eq
  exact ⟨b, _, flags, henv, entries_ne_zero hb, if_pos hshared, ho, hflags⟩

theorem without_nil (st : State) : st.without [] = st := by
  simp [State.without]

/-- **Every state that a run reaches** is in order or broken. -/
theorem Run.sound_or_broken (hrun : Run st₀ steps st) (h₀ : Initial st₀) :
    (Sound st ∧ Flagged st) ∨ Broken st := by
  induction hrun with
  | start => exact .inl ⟨.of_initial h₀, fun ho => by simp [h₀.notOwned] at ho⟩
  | @step steps st st' c mem r _ hf he ih =>
    obtain ⟨hs, hfl⟩ | hb := ih
    · have ho : Outcome st mem c (.ok (r, st')) := he ▸ hs.outcome hf c
      cases ho with
      | rejected | kept | missing | null | noMem => exact .inl ⟨hs, hfl⟩
      | @failed _ pre _ _ _ hfail _ =>
        by_cases hne : sharedOf st pre 0 = []
        · rw [hne, without_nil]
          exact .inl ⟨hs, hfl⟩
        · exact .inr (hfail.broken hs hfl hne)
      | set _ _ _ hrep | put _ hrep => exact .inl ⟨(hrep.sound hs).2, hfl.replaced hs hrep⟩
      | setNew _ hp _ hg =>
        exact .inl ⟨(hg.sound (hs.store (hf.entry _ hp).2)).2,
          .grown (hs.store (hf.entry _ hp).2) hg⟩
      | putNew _ hg => exact .inl ⟨(hg.sound hs).2, .grown hs hg⟩
      | unset _ _ hrem => exact .inl ⟨(hrem.sound hs).2, hfl.removed hs hrem⟩
      | clear _ hclear =>
        refine .inl ⟨hclear.sound.2, fun _ i hi => ?_⟩
        rw [hclear.sound.1] at hi
        exact absurd hi (Nat.not_lt_zero _)
    · rw [(hb.exec he).1]
      exact .inr hb

/-! ## A call that fails -/

theorem FailsAt.unique (h : FailsAt mem st pre a post) {a' : ℕ} (h' : FailsAt mem st pre' a' post') :
    pre = pre' := by
  have hle : ∀ {p₁ p₂ q₁ q₂ : List ℕ} {x₁ x₂ : ℕ}, FailsAt mem st p₁ x₁ q₁ →
      FailsAt mem st p₂ x₂ q₂ → ¬ p₁.length < p₂.length := by
    intro p₁ p₂ q₁ q₂ x₁ x₂ h₁ h₂ hlt
    have := h₂.copyable p₁.length hlt
    rw [zero_add, h₁.notShared, h₁.noMem] at this
    simp at this
  have hlen := le_antisymm (not_lt.1 (hle h' h)) (not_lt.1 (hle h h'))
  exact (append_inj (h.eq.symm.trans h'.eq) hlen).1

/-- The replies of a sequence of calls, and the state behind it. -/
def execAll (st : State) : List (Call × Alloc) → Except Fault (List Reply × State)
  | [] => .ok ([], st)
  | (c, mem) :: steps => do
    let (r, st) ← c.exec st mem
    let (rs, st) ← execAll st steps
    return (r :: rs, st)

/-- Nothing can be told from the state before: `environ` and its strings are the same, and so is
every answer of `getenv` and of every later sequence of calls. -/
structure Unaffected (st st' : State) : Prop where
  environ : st'.environ = st.environ
  strings : ∀ a ∈ st.entries, st'.heap a = st.heap a
  getenv : ∀ name, getenv st' name = getenv st name
  later : ∀ steps, execAll st' steps = execAll st steps

/-- A string that is shared stands before the first one whose copy fails. -/
def Spoils (st : State) (mem : Alloc) (c : Call) : Prop :=
  c.Adds st mem ∧ ∃ pre a post, FailsAt mem st pre a post ∧ sharedOf st pre 0 ≠ []

theorem Call.Rejected.not_adds (h : c.Rejected st) : ¬ c.Adds st mem := by
  cases c with
  | setenv name value overwrite =>
    rintro ⟨n, hname, hn, -⟩
    exact hn (h n hname)
  | putenv str =>
    rintro ⟨n, hstr, -⟩
    obtain h0 | ⟨-, hno⟩ := h
    · exact hstr.1 h0
    · exact hno n hstr
  | unsetenv name | clearenv => exact id

theorem Call.NoMem.not_adds (h : c.NoMem mem) : ¬ c.Adds st mem := by
  cases c with
  | setenv name value overwrite =>
    rintro ⟨n, -, -, -, he, h1, h2⟩
    simp [Call.NoMem, h1, h2, isSome_iff_ne_none.1 he] at h
  | putenv str =>
    rintro ⟨n, -, -, h1, h2⟩
    simp [Call.NoMem, h1, h2] at h
  | unsetenv name | clearenv => exact id

/-- **A call that fails.** In every state that a run reaches, whatever allocations fail: a `setenv`
or `putenv` that returns -1 has no effect exactly if no shared string stands before the string whose
copy failed. -/
theorem failed_call_iff (st₀ st st' : State) (steps : List (Call × Alloc)) (c : Call) (mem : Alloc)
    (r : Reply) (h₀ : Initial st₀) (hrun : Run st₀ steps st) (hf : mem.Fresh st)
    (hc : c ≠ .clearenv) (he : c.exec st mem = .ok (r, st')) (hr : r.ret = -1) :
    Unaffected st st' ↔ ¬ Spoils st mem c := by
  have hsame : ∀ st, Unaffected st st := fun st => ⟨rfl, fun _ _ => rfl, fun _ => rfl, fun _ => rfl⟩
  obtain ⟨hs, -⟩ | hb := hrun.sound_or_broken h₀
  · have ho : Outcome st mem c (.ok (r, st')) := he ▸ hs.outcome hf c
    cases ho with
    | rejected hrej => exact iff_of_true (hsame st) fun h => hrej.not_adds h.1
    | noMem hno => exact iff_of_true (hsame st) fun h => hno.not_adds h.1
    | @failed _ pre _ _ hadds hfail _ =>
      constructor
      · rintro hun ⟨-, pre', a', post', hfail', hne⟩
        obtain rfl := hfail.unique hfail'
        obtain ⟨x, hx⟩ := exists_mem_of_ne_nil _ hne
        have hmem : x ∈ st.entries :=
          hfail.eq ▸ mem_append_left _ (mem_of_mem_sharedOf hx).1
        have hkeep := hun.strings x hmem
        rw [show (st.without (sharedOf st pre 0)).heap x = none from if_pos hx] at hkeep
        simpa [← hkeep] using hs.live x hmem
      · intro hno
        have hnil : sharedOf st pre 0 = [] := by
          by_contra hne
          exact hno ⟨hadds, _, _, _, hfail, hne⟩
        rw [hnil, without_nil]
        exact hsame st
    | kept | missing | null | set | put | setNew | putNew | unset => simp at hr
    | clear => exact absurd rfl hc
  · obtain ⟨rfl, -, hclear | hrej⟩ := hb.exec he
    · exact absurd hclear hc
    · exact iff_of_true (hsame _) fun h => hrej.not_adds h.1

/-- One variable of the caller; `B=2` is not in the environment. -/
def twoStrings : State where
  heap a :=
    if a = 1 then some ⟨str "A=1", .caller⟩ else if a = 2 then some ⟨str "B=2", .caller⟩ else none
  environ := some [1, 0]
  owned := false
  flags := []

theorem initial_twoStrings : Initial twoStrings where
  notOwned := rfl
  noFlags := rfl
  array cells hc := by
    cases hc
    exact ⟨[1], [], rfl, by decide⟩
  callers a c hc := by
    simp only [twoStrings] at hc
    split_ifs at hc <;> cases hc <;> rfl

/-- There is memory for `entry` and the arrays, and for no copy. -/
def noCopy (k : ℕ) : Alloc := ⟨some k, true, true, fun _ => none⟩

theorem failed_call_iff_noCopy :
    ∃ r st', setenv twoStrings (noCopy 10) (some (str "C")) (some (str "3")) true = .ok (r, st') ∧
      r.ret = -1 ∧ Unaffected twoStrings st' := by
  have hfresh : (noCopy 10).Fresh twoStrings :=
    ⟨fun p hp => by cases hp; exact ⟨by decide, rfl⟩, nofun, nofun⟩
  refine ⟨_, _, rfl, rfl, (failed_call_iff twoStrings twoStrings _ []
    (.setenv (some (str "C")) (some (str "3")) true) (noCopy 10) _ initial_twoStrings .start hfresh
    nofun rfl rfl).2 ?_⟩
  rintro ⟨-, pre, a, post, -, hne⟩
  obtain ⟨x, hx⟩ := exists_mem_of_ne_nil _ hne
  exact absurd (mem_of_mem_sharedOf hx).2 (by decide)

/-- `setenv` of `A`, `putenv` of `B`, and a `setenv` of `C` that cannot copy the string of `B`. -/
def setPutSet : List (Call × Alloc) :=
  [(.setenv (some (str "A")) (some (str "1")) true, .counting 10), (.putenv 2, .counting 20),
    (.setenv (some (str "C")) (some (str "3")) true, noCopy 30)]

/-- The last call fails, and frees the string of `A`, which `environ` still has. -/
theorem failed_setenv_frees_shared :
    (execAll (envInit twoStrings none) (setPutSet.take 2)).map (fun r => r.2.entries) =
      .ok [10, 2] ∧
    ((execAll (envInit twoStrings none) (setPutSet.take 2)).bind
      fun r => getenv r.2 (some (str "A"))) = .ok (some (str "1")) ∧
    (execAll (envInit twoStrings none) setPutSet).map (fun r => r.1.map Reply.ret) =
      .ok [0, 0, -1] ∧
    (execAll (envInit twoStrings none) setPutSet).map (fun r => r.2.entries) = .ok [10, 2] ∧
    ((execAll (envInit twoStrings none) setPutSet).bind
      fun r => getenv r.2 (some (str "A"))) = .error (.dangling 10) := by
  decide

end Vlibc.Env
