import Vlibc.Env.Runs

/-!
# The environment as a map

Without `putenv`, and with memory for every allocation, the environment is a map from names to
values: `setenv` inserts or replaces, `unsetenv` removes, `clearenv` empties, and `getenv` answers
for the map (`environment_refines`). Each of the four things that a call can do to `environ` changes
the list of the texts in one place.
-/

namespace Vlibc.Env

open State List Option Function

variable {st st' st₀ : State} {mem : Alloc} {a p x : ℕ} {pre post : List ℕ} {n n' : List UInt8}
  {c : Call} {cell : Cell} {r : Reply} {name : CStr} {value : Option CStr} {t : CStr}

/-- What the environment stands for: the values by their names. -/
abbrev Bindings : Type := List UInt8 → Option CStr

/-- What a call does to the map. A name with `=` in it and `NULL` are refused. -/
def Call.apply (m : Bindings) : Call → Bindings
  | setenv (some name) value overwrite =>
    if equals ∈ name.bytes ∨ (m name.bytes).isSome ∧ overwrite = false then m
    else Function.update m name.bytes (some (value.getD (str "")))
  | unsetenv (some name) =>
    if equals ∈ name.bytes then m else Function.update m name.bytes none
  | clearenv => fun _ => none
  | _ => m

/-- The map after a sequence of calls. -/
def bindingsAfter (m : Bindings) (steps : List (Call × Alloc)) : Bindings :=
  steps.foldl (fun m s => s.1.apply m) m

namespace State

/-- The map that `environ` stands for. -/
def bindings (st : State) : Bindings := fun n => (firstWith nameOf n st.texts).map valueOf

end State

theorem map_text_lookup (st : State) (n : List UInt8) :
    (st.lookup n).map st.text = firstWith nameOf n st.texts := by
  rw [State.lookup, State.texts, firstWith, firstWith, find?_map]
  rfl

/-- `getenv` reads the map of bindings. -/
theorem Terminated.getenv_eq_bindings (ht : Terminated st) (hn : equals ∉ name.bytes) :
    getenv st (some name) = .ok (st.bindings name.bytes) := by
  rw [ht.getenv_eq hn, State.bindings, ← map_text_lookup, Option.map_map]
  rfl

theorem bindings_eq_none_iff : st.bindings n = none ↔ ∀ t ∈ st.texts, nameOf t ≠ some n := by
  rw [State.bindings, map_eq_none_iff, firstWith_eq_none_iff]

theorem Absent.bindings_eq_none (h : Absent st n) : st.bindings n = none := by
  rw [bindings_eq_none_iff, State.texts, List.forall_mem_map]
  exact h

theorem present_texts (h : Present st n pre a post) :
    FirstAt nameOf n st.texts (pre.map st.text) (st.text a) (post.map st.text) where
  eq := by rw [State.texts, h.eq, map_append, map_cons]
  has := h.has
  before := List.forall_mem_map.2 h.before

theorem isSome_bindings_of_present (h : Present st n pre a post) : (st.bindings n).isSome := by
  rw [State.bindings, (present_texts h).firstWith_eq]
  rfl

theorem texts_store (ht : Terminated st) (ha : st.heap a = none) :
    (st.store a t).texts = st.texts :=
  map_congr_left fun x hx => text_congr (heap_store_of_isSome ha (ht.live x hx))

theorem Replaced.texts_eq (hs : Sound st) (hr : Replaced st st' n pre a post p cell) :
    st'.texts = pre.map st.text ++ cell.text :: post.map st.text := by
  rw [State.texts, (hr.sound hs).1, map_append, map_cons, hr.text_eq]
  refine congrArg₂ (· ++ ·) (map_congr_left fun x hx => ?_)
    (congrArg _ (map_congr_left fun x hx => ?_))
  · exact hr.text_keep hs.toTerminated (mem_append_left _ hx)
  · exact hr.text_keep hs.toTerminated (mem_append_right _ hx)

theorem Grown.texts_eq (hs : Sound st) (hg : Grown mem st st' n p cell) :
    st'.texts = st.texts ++ [cell.text] := by
  rw [State.texts, (hg.sound hs).1, hg.texts hs.toTerminated]
  rfl

theorem Cleared.texts_eq (hc : Cleared st st') : st'.texts = [] := by
  rw [State.texts, hc.sound.1]
  rfl

/-! ## What becomes of the map -/

/-- A replacement updates the binding of its name. -/
theorem Replaced.bindings_eq (hs : Sound st) (hr : Replaced st st' n pre a post p cell) :
    st'.bindings = Function.update st.bindings n (some (valueOf cell.text)) := by
  have hfirst := present_texts hr.present
  funext n'
  rw [State.bindings, hr.texts_eq hs]
  by_cases h : n' = n
  · subst h
    rw [update_self, (hfirst.replace hr.named).firstWith_eq]
    rfl
  · rw [update_of_ne h, hfirst.firstWith_replace_ne hr.named h]
    rfl

/-- A removal clears the binding of its name, when no name occurs twice. -/
theorem Removed.bindings_eq (hs : Sound st) (hr : Removed st st' n pre a post)
    (hd : (st.texts.filterMap nameOf).Nodup) :
    st'.bindings = Function.update st.bindings n none := by
  have hfirst := present_texts hr.present
  funext n'
  rw [State.bindings, hr.texts_eq hs, map_append]
  by_cases h : n' = n
  · subst h
    rw [update_self, hfirst.firstWith_remove_of_nodup hd]
    rfl
  · rw [update_of_ne h, hfirst.firstWith_remove_ne h]
    rfl

/-- A new entry updates the binding of its name. -/
theorem Grown.bindings_eq (hs : Sound st) (hg : Grown mem st st' n p cell) :
    st'.bindings = Function.update st.bindings n (some (valueOf cell.text)) := by
  have habs := bindings_eq_none_iff.1 hg.absent.bindings_eq_none
  funext n'
  rw [State.bindings, hg.texts_eq hs]
  by_cases h : n' = n
  · subst h
    rw [update_self, firstWith_append_left habs, firstWith_cons_self hg.named]
    rfl
  · have hne : ∀ t ∈ [cell.text], nameOf t ≠ some n' := by
      simpa [hg.named] using Ne.symm h
    rw [update_of_ne h, firstWith_append_right hne]
    rfl

theorem Call.Rejected.apply_eq (h : c.Rejected st) : c.apply st.bindings = st.bindings := by
  cases c with
  | setenv name value overwrite =>
    cases name with
    | none => rfl
    | some name => exact if_pos (.inl (h name rfl))
  | putenv str => rfl
  | unsetenv name =>
    cases name with
    | none => rfl
    | some name =>
      obtain he | heq := h
      · have hempty : ∀ n, st.bindings n = none := fun n => by
          simp [State.bindings, State.texts, State.entries, he, firstWith]
        change (if _ then _ else _) = _
        rw [← hempty name.bytes, update_eq_self, ite_self]
      · exact if_pos (heq name rfl)
  | clearenv => exact h.elim

/-- **One call** on the map. -/
theorem Outcome.bindings_eq (hs : Sound st) (hf : mem.Fresh st) (hg : mem.Grants)
    (hd : (st.texts.filterMap nameOf).Nodup) (hput : ∀ str, c ≠ .putenv str)
    (ho : Outcome st mem c (.ok (r, st'))) : st'.bindings = c.apply st.bindings := by
  cases ho with
  | rejected hrej => exact hrej.apply_eq.symm
  | kept hn hpres => exact (if_pos (.inr ⟨isSome_bindings_of_present hpres, rfl⟩)).symm
  | @missing name hn _ habs =>
    change _ = if _ then _ else _
    rw [if_neg hn, ← habs.bindings_eq_none, update_eq_self]
  | null he =>
    funext n
    simp [State.bindings, State.texts, State.entries, he, firstWith, Call.apply]
  | noMem hno => exact absurd hg hno.not_grants
  | failed _ hfail => exact absurd hg hfail.not_grants
  | @set name value _ _ _ _ _ hn _ _ hrep =>
    change _ = if _ then _ else _
    rw [hrep.bindings_eq hs, if_neg (by simp [hn]), newEntry, valueOf_assignment hn]
  | put _ _ => exact absurd rfl (hput _)
  | @setNew name value overwrite p _ hn hp habs hgrown =>
    have hheap := (hf.entry p hp).2
    have hbase : (st.store p (newEntry name value)).bindings = st.bindings := by
      funext n
      rw [State.bindings, texts_store hs.toTerminated hheap]
      rfl
    change _ = if _ then _ else _
    rw [hgrown.bindings_eq (hs.store hheap), hbase, if_neg (by simp [hn, habs.bindings_eq_none]),
      newEntry, valueOf_assignment hn]
  | putNew _ _ => exact absurd rfl (hput _)
  | @unset name _ _ _ _ hn _ hrem =>
    change _ = if _ then _ else _
    rw [hrem.bindings_eq hs hd, if_neg hn]
  | clear _ hclear =>
    funext n
    simp [State.bindings, hclear.texts_eq, firstWith, Call.apply]

/-- One step: no call makes a name occur twice. -/
theorem Outcome.nodup (hs : Sound st) (hf : mem.Fresh st) (hg : mem.Grants)
    (hd : (st.texts.filterMap nameOf).Nodup) (ho : Outcome st mem c (.ok (r, st'))) :
    (st'.texts.filterMap nameOf).Nodup := by
  cases ho with
  | rejected | kept | missing | null | noMem => exact hd
  | failed _ hfail => exact absurd hg hfail.not_grants
  | set _ _ _ hrep | put _ hrep =>
    rw [hrep.texts_eq hs, (present_texts hrep.present).filterMap_replace hrep.named]
    exact hd
  | setNew _ hp _ hgrown =>
    have hheap := (hf.entry _ hp).2
    rw [hgrown.texts_eq (hs.store hheap)]
    refine nodup_append_of_absent ?_ hgrown.named
      (bindings_eq_none_iff.1 hgrown.absent.bindings_eq_none)
    rwa [texts_store hs.toTerminated hheap]
  | putNew _ hgrown =>
    rw [hgrown.texts_eq hs]
    exact nodup_append_of_absent hd hgrown.named
      (bindings_eq_none_iff.1 hgrown.absent.bindings_eq_none)
  | unset _ _ hrem =>
    rw [hrem.texts_eq hs, map_append]
    exact hd.sublist (present_texts hrem.present).filterMap_remove
  | clear _ hclear =>
    rw [hclear.texts_eq]
    exact nodup_nil

/-! ## Runs without `putenv` -/

/-- No string was handed over by `putenv`. -/
def NoneHanded (st : State) : Prop := ∀ x, st.origin x ≠ some .handed

theorem NoneHanded.of_others (h : NoneHanded st)
    (ho : ∀ x, st'.heap x = st.heap x ∨ st'.heap x = none ∨ st'.origin x = some .library) :
    NoneHanded st' := by
  intro x
  obtain e | e | e := ho x
  · rw [origin_congr e]
    exact h x
  · simp [State.origin, e]
  · simp [e]

/-- One step: without `putenv` every entry stays the library's own. -/
theorem NoneHanded.of_outcome (hs : Sound st) (hf : mem.Fresh st) (hg : mem.Grants)
    (h : NoneHanded st) (hput : ∀ str, c ≠ .putenv str) (ho : Outcome st mem c (.ok (r, st'))) :
    NoneHanded st' := by
  cases ho with
  | rejected | kept | missing | null | noMem => exact h
  | failed _ hfail => exact absurd hg hfail.not_grants
  | @set _ _ _ _ _ p _ _ _ _ hrep =>
    refine h.of_others fun x => ?_
    by_cases hx : x = p
    · exact .inr (.inr (by rw [hx, State.origin, hrep.new]; rfl))
    · exact (hrep.others x hx).imp_right .inl
  | put _ _ => exact absurd rfl (hput _)
  | @setNew name value _ p _ _ hp _ hgrown =>
    have hheap := (hf.entry p hp).2
    refine h.of_others fun x => ?_
    by_cases hx : x = p
    · exact .inr (.inr (by rw [hx, State.origin, hgrown.new]; rfl))
    · by_cases hmem : x ∈ copies mem (st.store p (newEntry name value)) st.entries 0
      · by_cases hnew : (st.store p (newEntry name value)).heap x = none
        · refine .inr (.inr ?_)
          rw [origin_congr (hgrown.heap x hx)]
          exact origin_copied hgrown.fresh (hs.store hheap).live hgrown.copyable hmem hnew
        · refine .inl ?_
          rw [hgrown.heap_keep (isSome_iff_ne_none.2 hnew) hx, heap_store_ne hx]
      · refine .inl ?_
        rw [hgrown.heap x hx]
        exact (heap_copied_of_not_mem hmem).trans (heap_store_ne hx)
  | putNew _ _ => exact absurd rfl (hput _)
  | unset _ _ hrem => exact h.of_others fun x => (hrem.others x).imp_right .inl
  | clear _ hclear => exact h.of_others fun x => (hclear.others x).imp_right .inl

theorem exec_ok (hs : Sound st) (h : NoneHanded st) (hf : mem.Fresh st) (hg : mem.Grants)
    (hput : ∀ str, c ≠ .putenv str) : ∃ r st', c.exec st mem = .ok (r, st') := by
  have ho := hs.outcome hf c
  cases he : c.exec st mem with
  | ok res => exact ⟨res.1, res.2, rfl⟩
  | error f =>
    rw [he] at ho
    have hlib : ∀ a ∈ st.entries, st.owned → st.origin a = some .library := fun a ha howned =>
      hs.library_of_not_handed howned ha (h a)
    cases ho with
    | dangling => exact absurd rfl (hput _)
    | failedFault _ hfail => exact absurd hg hfail.not_grants
    | setFault _ hpres howned hne => exact absurd (hlib _ hpres.mem howned) hne
    | unsetFault _ hpres hsh hne =>
      exact absurd (hlib _ hpres.mem ((Bool.and_eq_true _ _).mp hsh).1) hne
    | clearFault _ _ hhand => exact absurd hhand (h _)

/-- The state after a run without `putenv`. -/
structure MapState (st₀ : State) (steps : List (Call × Alloc)) (st : State) : Prop where
  sound : Sound st
  noneHanded : NoneHanded st
  nodup : (st.texts.filterMap nameOf).Nodup
  bindings : st.bindings = bindingsAfter st₀.bindings steps

/-- The whole run: the invariants of the map hold after every run without `putenv`. -/
theorem Run.mapState {steps : List (Call × Alloc)} (hrun : Run st₀ steps st) (h₀ : Initial st₀)
    (hd : (st₀.texts.filterMap nameOf).Nodup) (hg : ∀ s ∈ steps, s.2.Grants)
    (hput : ∀ s ∈ steps, ∀ str, s.1 ≠ .putenv str) : MapState st₀ steps st := by
  induction hrun with
  | start =>
    refine ⟨.of_initial h₀, fun x hx => ?_, hd, rfl⟩
    obtain ⟨c, hc, hl⟩ := map_eq_some_iff.1 hx
    rw [h₀.callers x c hc] at hl
    cases hl
  | @step steps st st' c mem r _ hf he ih =>
    have ih := ih (fun s hs => hg s (mem_append_left _ hs))
      fun s hs => hput s (mem_append_left _ hs)
    have hg := hg (c, mem) (mem_append_right _ (mem_singleton_self _))
    have hput := hput (c, mem) (mem_append_right _ (mem_singleton_self _))
    have ho : Outcome st mem c (.ok (r, st')) := he ▸ ih.sound.outcome hf c
    refine ⟨ih.sound.of_outcome hf hg ho, ih.noneHanded.of_outcome ih.sound hf hg hput ho,
      ho.nodup ih.sound hf hg ih.nodup, ?_⟩
    rw [ho.bindings_eq ih.sound hf hg ih.nodup hput, ih.bindings, bindingsAfter, bindingsAfter,
      foldl_append]
    rfl

/-- **The environment refines a map.** From an initial environment with distinct names, after any
sequence of `setenv`, `unsetenv` and `clearenv` in which no allocation fails: `getenv` of every name
without `=` returns what the map holds, and `NULL` if the name is unbound; `environ` is `NULL` or ends
with a `NULL`, and its names are distinct; and the next call returns. -/
theorem environment_refines (st₀ st : State) (steps : List (Call × Alloc)) (h₀ : Initial st₀)
    (hd : (st₀.texts.filterMap nameOf).Nodup) (hg : ∀ s ∈ steps, s.2.Grants)
    (hput : ∀ s ∈ steps, ∀ str, s.1 ≠ .putenv str) (hrun : Run st₀ steps st) :
    (∀ name : CStr, equals ∉ name.bytes →
      getenv st (some name) = .ok (bindingsAfter st₀.bindings steps name.bytes)) ∧
    (∀ cells, st.environ = some cells → 0 ∈ cells) ∧
    (st.texts.filterMap nameOf).Nodup ∧
    ∀ (c : Call) (mem : Alloc), (∀ str, c ≠ .putenv str) → mem.Fresh st → mem.Grants →
      ∃ r st', c.exec st mem = .ok (r, st') := by
  have hm := hrun.mapState h₀ hd hg hput
  refine ⟨fun name hn => ?_, hm.sound.ends, hm.nodup, fun c mem hput hf hg =>
    exec_ok hm.sound hm.noneHanded hf hg hput⟩
  rw [hm.sound.getenv_eq_bindings hn, hm.bindings]

/-- An environment with the one variable `A`. -/
def oneVariable : State where
  heap a := if a = 1 then some ⟨str "A=1", .caller⟩ else none
  environ := some [1, 0]
  owned := false
  flags := []

theorem initial_oneVariable : Initial oneVariable where
  notOwned := rfl
  noFlags := rfl
  array cells hc := by
    cases hc
    exact ⟨[1], [], rfl, by decide⟩
  callers a c hc := by
    simp only [oneVariable] at hc
    split_ifs at hc
    cases hc
    rfl

theorem heap_oneVariable (h : 2 ≤ a) : oneVariable.heap a = none := if_neg (by omega)

theorem environment_refines_oneVariable :
    ∃ st, Run oneVariable [(.setenv (some (str "B")) (some (str "2")) true, .counting 10)] st ∧
      getenv st (some (str "A")) = .ok (some (str "1")) ∧
      getenv st (some (str "B")) = .ok (some (str "2")) := by
  have hfresh : (Alloc.counting 10).Fresh oneVariable :=
    Alloc.counting_fresh (by decide) fun a ha => heap_oneVariable (by omega)
  have hrun := Run.step (c := .setenv (some (str "B")) (some (str "2")) true) .start hfresh rfl
  have h := (environment_refines oneVariable _ _ initial_oneVariable (by decide)
    (by simp [Alloc.counting_grants 10]) (by simp) hrun).1
  exact ⟨_, hrun, (h (str "A") (by decide)).trans (by decide),
    (h (str "B") (by decide)).trans (by decide)⟩

/-- With a `=` in it, what `getenv` is asked for need not be the name of anything: it is found where
a string has it before a `=` of its value. -/
theorem getenv_finds_value :
    ∃ st, Run oneVariable [(.setenv (some (str "A")) (some (str "B=C")) true, .counting 10)] st ∧
      bindingsAfter oneVariable.bindings
        [(.setenv (some (str "A")) (some (str "B=C")) true, .counting 10)] (str "A=B").bytes = none ∧
      getenv st (some (str "A=B")) = .ok (some (str "C")) := by
  have hfresh : (Alloc.counting 10).Fresh oneVariable :=
    Alloc.counting_fresh (by decide) fun a ha => heap_oneVariable (by omega)
  exact ⟨_, Run.step (c := .setenv (some (str "A")) (some (str "B=C")) true) .start hfresh rfl,
    by decide, by decide⟩

end Vlibc.Env
