import Vlibc.Env.Failure
import Vlibc.Env.Map

/-!
# Strings that were handed over

`putenv` puts the caller's string itself into `environ`. Two things can go wrong with it later. A
call may free it: `setenv` over an entry of an array of this file frees the old string whatever its
flag says, and a `putenv` over an entry leaves the flag of the string that it replaces. And a call
that builds the array anew copies every string that is not flagged. A call is safe exactly if it
does neither (`handed_safe_iff`).
-/

namespace Vlibc.Env

open State List Option

variable {st st' : State} {mem : Alloc} {a p x : ℕ} {pre post : List ℕ} {n n' : List UInt8}
  {c : Call} {cell : Cell} {r : Reply}

/-! ## What `unsetenv` removes

It takes out the first string with the name and no other. If the initial environment has a name
twice, the second string with it counts afterwards; and `getenv` of a name with `=` in it may have
found a part of the value that goes (`unsetenv_removes_iff`). -/

/-- A lookup after a removal searches the remaining entries. -/
theorem Removed.lookup_eq (hs : Sound st) (hr : Removed st st' n pre a post) (n' : List UInt8) :
    st'.lookup n' = firstWith st.nameAt n' (pre ++ post) := by
  rw [State.lookup, (hr.sound hs).1]
  exact firstWith_congr fun x hx => nameAt_congr (hr.keep x hx)

/-- Removing a string whose value has no `=` in it changes nothing for `getenv` of another name. -/
theorem Removed.getenv_other {name other : CStr} (hs : Sound st)
    (hr : Removed st st' name.bytes pre a post) (hv : equals ∉ (valueOf (st.text a)).bytes)
    (hne : other ≠ name) : getenv st' (some other) = getenv st (some other) := by
  have hno : ¬ names (st.text a) other (vstrlen other) := by
    rw [names_iff_of_nameOf hr.present.has]
    rintro (h | ⟨w, v, -, h⟩)
    · exact hne (CStr.ext h)
    · exact hv (by simp [h])
  rw [(hr.sound hs).2.getenv_eq_find, hs.getenv_eq_find, hr.texts_eq hs, State.texts, hr.present.eq,
    map_append, map_append, map_cons, find?_append, find?_append,
    find?_cons_of_neg (p := fun t => names t other (vstrlen other)) hno]

/-- Conversely, with `w=` at the start of its value the string is what `getenv` finds for the name
followed by `=w`, and no string is left for that. -/
theorem Removed.equals_not_mem {name : CStr} (hs : Sound st) (hn : equals ∉ name.bytes)
    (hr : Removed st st' name.bytes pre a post)
    (hothers : ∀ x ∈ pre ++ post, st.nameAt x ≠ some name.bytes)
    (h : ∀ other : CStr, other ≠ name → getenv st' (some other) = getenv st (some other)) :
    equals ∉ (valueOf (st.text a)).bytes := by
  intro hmem
  obtain ⟨w, v, hv, -⟩ := eq_append_cons_of_mem hmem
  have hw : (0 : UInt8) ∉ w := fun h => (valueOf (st.text a)).noNul (by simp [hv, h])
  obtain ⟨other, hother⟩ : ∃ other : CStr, other.bytes = name.bytes ++ equals :: w :=
    ⟨assignment name ⟨w, hw⟩, rfl⟩
  have hne : other ≠ name := fun e => by simp [e] at hother
  have hfound : (st.texts.find? fun t => names t other (vstrlen other)).isSome := by
    refine find?_isSome.2 ⟨st.text a, mem_map.2 ⟨a, hr.present.mem, rfl⟩, ?_⟩
    exact (names_iff_of_nameOf hr.present.has).2 (.inr ⟨w, v, hother, hv⟩)
  have hlost : (st'.texts.find? fun t => names t other (vstrlen other)) = none := by
    rw [hr.texts_eq hs, find?_eq_none, List.forall_mem_map]
    intro x hx hnames
    obtain ⟨v', hv'⟩ := (names_iff_append (le_refl (vstrlen other))).1 hnames
    refine hothers x hx (nameOf_eq_some_iff.2 ⟨hn, w ++ equals :: v', ?_⟩)
    rw [hv', show other.bytes.take (vstrlen other) = other.bytes from take_length, hother,
      append_assoc, cons_append]
  have heq := h other hne
  rw [(hr.sound hs).2.getenv_eq_find, hs.getenv_eq_find, hlost] at heq
  obtain ⟨t, ht⟩ := isSome_iff_exists.1 hfound
  rw [ht] at heq
  cases heq

/-- **`unsetenv` removes the name** and leaves what `getenv` returns for every other one exactly if at
most one string has the name and there is no `=` in its value: in every state that a run reaches, for
every `unsetenv` that returns 0. -/
theorem unsetenv_removes_iff (st₀ st st' : State) (steps : List (Call × Alloc)) (name : CStr)
    (e : Option ℕ) (h₀ : Initial st₀) (hrun : Run st₀ steps st)
    (he : unsetenv st (some name) = .ok (⟨0, e⟩, st')) :
    (getenv st' (some name) = .ok none ∧
      ∀ other : CStr, other ≠ name → getenv st' (some other) = getenv st (some other)) ↔
    (st.entries.filter fun a => st.nameAt a = some name.bytes).length ≤ 1 ∧
      ∀ a ∈ st.entries, st.nameAt a = some name.bytes → equals ∉ (valueOf (st.text a)).bytes := by
  obtain ⟨hs, -⟩ | hb := hrun.sound_or_broken h₀
  · have ho : Outcome st ⟨none, false, false, fun _ => none⟩ (.unsetenv (some name))
        (.ok (⟨0, e⟩, st')) := he ▸ hs.outcome_unsetenv (some name)
    cases ho with
    | missing hn _ habs =>
      have hnone : st.lookup name.bytes = none := firstWith_eq_none_iff.2 habs
      have hempty : st.entries.filter (fun a => st.nameAt a = some name.bytes) = [] :=
        List.filter_eq_nil_iff.2 fun a ha => by simpa using habs a ha
      refine iff_of_true ⟨?_, fun _ _ => rfl⟩ ⟨by simp [hempty], fun a ha h => absurd h (habs a ha)⟩
      rw [hs.getenv_eq hn, hnone]
      rfl
    | @unset _ pre post a _ hn _ hrem =>
      have hs' := (hrem.sound hs).2
      have hgone : (∀ x ∈ pre ++ post, st.nameAt x ≠ some name.bytes) ↔
          (st.entries.filter fun a => st.nameAt a = some name.bytes).length ≤ 1 := by
        rw [← hrem.present.firstWith_remove_eq_none_iff, firstWith_eq_none_iff]
      have hnull : getenv st' (some name) = .ok none ↔
          ∀ x ∈ pre ++ post, st.nameAt x ≠ some name.bytes := by
        rw [hs'.getenv_eq hn, hrem.lookup_eq hs, ← firstWith_eq_none_iff]
        simp
      rw [hnull, ← hgone]
      refine and_congr_right fun hothers => ⟨fun h x hx hname => ?_, fun hv other => ?_⟩
      · rw [hrem.present.eq, mem_append, mem_cons] at hx
        obtain hx | rfl | hx := hx
        · exact absurd hname (hothers x (mem_append_left _ hx))
        · exact hrem.equals_not_mem hs hn hothers h
        · exact absurd hname (hothers x (mem_append_right _ hx))
      · exact hrem.getenv_other hs (hv a hrem.present.mem hrem.present.has)
  · have he' : (Call.unsetenv (some name)).exec st ⟨none, false, false, fun _ => none⟩ = _ := he
    obtain ⟨-, hret, -⟩ := hb.exec he'
    cases hret

/-- An environment with the name `A` twice. -/
def twice : State where
  heap a :=
    if a = 1 then some ⟨str "A=1", .caller⟩ else if a = 2 then some ⟨str "A=2", .caller⟩ else none
  environ := some [1, 2, 0]
  owned := false
  flags := []

theorem initial_twice : Initial twice where
  notOwned := rfl
  noFlags := rfl
  array cells hc := by
    cases hc
    exact ⟨[1, 2], [], rfl, by decide⟩
  callers a c hc := by
    simp only [twice] at hc
    split_ifs at hc <;> cases hc <;> rfl

theorem unsetenv_removes_iff_oneVariable :
    ∃ st', unsetenv oneVariable (some (str "A")) = .ok (⟨0, none⟩, st') ∧
      getenv st' (some (str "A")) = .ok none ∧
      ∀ other : CStr, other ≠ str "A" → getenv st' (some other) = getenv oneVariable (some other) :=
  ⟨_, rfl, (unsetenv_removes_iff oneVariable oneVariable _ [] (str "A") none initial_oneVariable .start
    rfl).2 (by decide)⟩

/-- After `unsetenv` of `A`, which returns 0, `getenv` returns the other value of `A`. -/
theorem unsetenv_leaves_second :
    (unsetenv twice (some (str "A"))).map (fun r => r.1.ret) = .ok 0 ∧
    ((unsetenv twice (some (str "A"))).bind fun r => getenv r.2 (some (str "A"))) =
      .ok (some (str "2")) := by
  decide

/-! ## Who frees a string -/

/-- The names whose strings a call replaces or removes. -/
def Call.Targets (st : State) (n : List UInt8) : Call → Prop
  | setenv name _ overwrite => overwrite = true ∧ ∃ s, name = some s ∧ s.bytes = n
  | putenv str => st.nameAt str = some n
  | unsetenv name => ∃ s, name = some s ∧ s.bytes = n
  | clearenv => True

/-- What a call must not do: after it the strings in `environ` are in memory, a string that was not
allocated in this file is there as it was, and a string that was handed over is still the one that
`environ` has for its name, unless the call was to replace or remove it. -/
structure Keeps (st : State) (c : Call) (st' : State) : Prop where
  live : ∀ a ∈ st'.entries, (st'.heap a).isSome
  notFreed : ∀ a cell, st.heap a = some cell → cell.origin ≠ .library →
    (st'.heap a).map Cell.text = some cell.text
  stays : ∀ n a, ¬ c.Targets st n → st.lookup n = some a → st.origin a = some .handed →
    st'.lookup n = some a

/-- The call returns, so that it freed only strings of this file, and each once, and it keeps the
others. -/
def Safe (st : State) (mem : Alloc) (c : Call) : Prop :=
  ∃ r st', c.exec st mem = .ok (r, st') ∧ Keeps st c st'

/-- Every string that was handed over, and that `environ` has for a name, is shared with a new
array. -/
def NoneCopied (st : State) : Prop :=
  ∀ n pre a post, Present st n pre a post → st.origin a = some .handed → st.shared pre.length

/-- The call frees no string that was handed over, and makes no copy of one. -/
def Careful (st : State) : Call → Prop
  | .setenv name _ overwrite => ∀ s, name = some s → equals ∉ s.bytes →
      (Absent st s.bytes → NoneCopied st) ∧
      (overwrite = true → st.owned → ∀ a, st.lookup s.bytes = some a → st.origin a ≠ some .handed)
  | .putenv str => ∀ n, Assigns st str n → Absent st n → NoneCopied st
  | .unsetenv name => ∀ s, name = some s → equals ∉ s.bytes →
      ∀ pre a post, Present st s.bytes pre a post → st.shared pre.length →
        st.origin a ≠ some .handed
  | .clearenv => st.owned → ∀ a ∈ flagged st.entries st.flags, st.origin a ≠ some .handed

/-! ## Where a string stands afterwards -/

theorem present_of_lookup (h : st.lookup n = some a) : ∃ pre post, Present st n pre a post := by
  obtain habs | ⟨pre, b, post, hp⟩ := absent_or_present st n
  · rw [State.lookup, firstWith_eq_none_iff.2 habs] at h
    cases h
  · rw [State.lookup, hp.firstWith_eq] at h
    cases h
    exact ⟨pre, post, hp⟩

/-- A replacement leaves the entry of every other name where it is. -/
theorem Replaced.lookup_ne (hs : Sound st) (hr : Replaced st st' n pre a post p cell) (hne : n' ≠ n) :
    st'.lookup n' = st.lookup n' := by
  have hname : st'.nameAt p = some n := by
    rw [State.nameAt, hr.text_eq]
    exact hr.named
  have hkeep : ∀ x ∈ pre ++ post, st'.nameAt x = st.nameAt x := fun x hx =>
    congrArg nameOf (hr.text_keep hs.toTerminated hx)
  have hp : st'.nameAt p ≠ some n' := fun h => hne (some.inj (h.symm.trans hname))
  have ha : st.nameAt a ≠ some n' := fun h => hne (some.inj (h.symm.trans hr.present.has))
  rw [State.lookup, State.lookup, (hr.sound hs).1, hr.present.eq, firstWith_append,
    firstWith_append, firstWith_cons_ne hp, firstWith_cons_ne ha, ← firstWith_append,
    ← firstWith_append, firstWith_congr hkeep]

theorem Grown.lookup_eq (hs : Sound st) (hg : Grown mem st st' n p cell)
    (hp : Present st n' pre a post) :
    st'.lookup n' = some (if st.shared pre.length then a else (mem.dup pre.length).getD 0) := by
  set q := if st.shared pre.length then a else (mem.dup pre.length).getD 0 with hq
  have hsplit : copies mem st st.entries 0 =
      copies mem st pre 0 ++ q :: copies mem st post (pre.length + 1) := by
    rw [hp.eq, copies_append, copies, zero_add]
  have htexts := hg.texts hs.toTerminated
  rw [hsplit, hp.eq] at htexts
  simp only [append_assoc, cons_append, map_append, map_cons] at htexts
  obtain ⟨hpre, hrest⟩ := append_inj htexts (by simp)
  have hfirst : FirstAt st'.nameAt n' st'.entries (copies mem st pre 0) q
      (copies mem st post (pre.length + 1) ++ [p]) := by
    refine ⟨by rw [(hg.sound hs).1, hsplit]; simp, ?_, fun b hb hname => ?_⟩
    · rw [State.nameAt, (cons.inj hrest).1]
      exact hp.has
    · have hmem : st'.text b ∈ pre.map st.text := hpre ▸ List.mem_map_of_mem hb
      obtain ⟨b', hb', htext⟩ := List.mem_map.1 hmem
      refine hp.before b' hb' ?_
      rw [State.nameAt, htext]
      exact hname
  exact hfirst.firstWith_eq

/-- When the array grows, an entry stays in place exactly when it is not copied. -/
theorem Grown.stays_iff (hs : Sound st) (hg : Grown mem st st' n p cell)
    (hp : Present st n' pre a post) : st'.lookup n' = some a ↔ st.shared pre.length := by
  rw [hg.lookup_eq hs hp, some.injEq]
  by_cases hsh : st.shared pre.length
  · simp [hsh]
  · have hlt : pre.length < st.entries.length := by
      rw [hp.eq]
      simp
    have hd := (hg.copyable pre.length hlt).resolve_left (by rwa [Nat.zero_add])
    rw [Nat.zero_add] at hd
    obtain ⟨q, hq⟩ := isSome_iff_exists.1 hd
    have hne : q ≠ a := fun h => by
      simpa [← h, (hg.fresh.dup _ q (Nat.zero_le _) hq).2] using hs.live a hp.mem
    simpa [hsh, hq] using hne

theorem Keeps.same (hs : Sound st) (c : Call) : Keeps st c st where
  live := hs.live
  notFreed a cell h _ := by rw [h]; rfl
  stays _ _ _ h _ := h

theorem Keeps.replaced (hs : Sound st) (hr : Replaced st st' n pre a post p cell)
    (hstays : ∀ n', ¬ c.Targets st n' → n' ≠ n) : Keeps st c st' where
  live := (hr.sound hs).2.live
  notFreed x cell' hx ho := by
    by_cases hxp : x = p
    · subst hxp
      obtain hnone | hsame := hr.text
      · rw [hx] at hnone
        cases hnone
      · rw [hr.new]
        rw [hx] at hsame
        exact hsame.symm
    · rw [hr.survive x hxp (by rw [State.origin, hx]; exact fun h => ho (some.inj h)), hx]
      rfl
  stays n' b hno hlook _ := by rw [hr.lookup_ne hs (hstays n' hno), hlook]

theorem Keeps.grown (hs : Sound st) (hg : Grown mem st st' n p cell)
    (htext : (st.heap p).map Cell.text = some cell.text) (hnc : NoneCopied st) :
    Keeps st c st' where
  live := (hg.sound hs).2.live
  notFreed x cell' hx _ := by
    by_cases hxp : x = p
    · subst hxp
      rw [hg.new]
      rw [hx] at htext
      exact htext.symm
    · rw [hg.heap_keep (by simp [hx]) hxp, hx]
      rfl
  stays n' a _ hlook hhand := by
    obtain ⟨pre, post, hp⟩ := present_of_lookup hlook
    exact (hg.stays_iff hs hp).2 (hnc n' pre a post hp hhand)

theorem Keeps.removed (hs : Sound st) (hr : Removed st st' n pre a post)
    (hstays : ∀ n', ¬ c.Targets st n' → n' ≠ n) : Keeps st c st' where
  live := (hr.sound hs).2.live
  notFreed x cell' hx ho := by
    rw [hr.survive x (by rw [State.origin, hx]; exact fun h => ho (some.inj h)), hx]
    rfl
  stays n' b hno hlook _ := by
    rw [hr.lookup_eq hs, hr.present.firstWith_remove_ne (hstays n' hno)]
    exact hlook

theorem Keeps.cleared (hc : Cleared st st') : Keeps st .clearenv st' where
  live := hc.sound.2.live
  notFreed x cell' hx ho := by
    rw [hc.survive x (by rw [State.origin, hx]; exact fun h => ho (some.inj h)), hx]
    rfl
  stays _ _ hno := absurd trivial hno

section Store

variable {s : CStr} (ht : Terminated st) (hp : st.heap p = none)

include ht hp

theorem nameAt_store (ha : a ∈ st.entries) : (st.store p s).nameAt a = st.nameAt a :=
  nameAt_congr (heap_store_of_isSome hp (ht.live a ha))

theorem lookup_store (n : List UInt8) : (st.store p s).lookup n = st.lookup n :=
  firstWith_congr fun _ hx => nameAt_store ht hp hx

theorem present_store_iff : Present (st.store p s) n pre a post ↔ Present st n pre a post := by
  have hsame : ∀ {x}, x ∈ st.entries → (st.store p s).nameAt x = st.nameAt x :=
    fun hx => nameAt_store ht hp hx
  constructor
  · rintro ⟨he, hhas, hbefore⟩
    have he : st.entries = pre ++ a :: post := he
    exact ⟨he, by rw [← hsame (he ▸ by simp), hhas], fun b hb => by
      rw [← hsame (he ▸ mem_append_left _ hb)]
      exact hbefore b hb⟩
  · rintro ⟨he, hhas, hbefore⟩
    exact ⟨he, by rw [hsame (he ▸ by simp), hhas], fun b hb => by
      rw [hsame (he ▸ mem_append_left _ hb)]
      exact hbefore b hb⟩

theorem noneCopied_store_iff : NoneCopied (st.store p s) ↔ NoneCopied st := by
  refine forall₄_congr fun n pre a post => ?_
  rw [present_store_iff ht hp, shared_store]
  refine imp_congr_right fun hpres => ?_
  rw [origin_congr (heap_store_of_isSome hp (ht.live a hpres.mem))]

/-- The string that `setenv` stores first is in nobody's way. -/
theorem Keeps.of_store {name value : Option CStr} {overwrite : Bool}
    (h : Keeps (st.store p s) (.setenv name value overwrite) st') :
    Keeps st (.setenv name value overwrite) st' where
  live := h.live
  notFreed a cell ha ho :=
    h.notFreed a cell ((heap_store_of_isSome hp (by simp [ha])).trans ha) ho
  stays n a hno hlook hhand := by
    refine h.stays n a hno ((lookup_store ht hp n).trans hlook) ?_
    rw [origin_congr (heap_store_of_isSome hp (ht.live a (mem_of_firstWith hlook)))]
    exact hhand

end Store

/-! ## The calls -/

theorem Sound.handed_of_not_library (hs : Sound st) (ho : st.owned) (ha : a ∈ st.entries)
    (h : st.origin a ≠ some .library) : st.origin a = some .handed := by
  by_contra hne
  exact h (hs.library_of_not_handed ho ha hne)

theorem Call.Rejected.careful (h : c.Rejected st) : Careful st c := by
  cases c with
  | setenv name value overwrite => exact fun s hs hn => absurd (h s hs) hn
  | putenv str =>
    intro n hstr
    obtain h0 | ⟨-, hno⟩ := h
    · exact absurd h0 hstr.1
    · exact absurd hstr (hno n)
  | unsetenv name =>
    intro s hs hn pre a post hpres
    obtain he | heq := h
    · have hmem := hpres.mem
      simp [State.entries, he] at hmem
    · exact absurd (heq s hs) hn
  | clearenv => exact h.elim

/-- An array that has grown for a new name of `setenv` keeps the strings if it copies none. -/
theorem keeps_setNew_iff {name : CStr} {value : Option CStr} {overwrite : Bool} (hs : Sound st)
    (hn : equals ∉ name.bytes) (hheap : st.heap p = none) (habs : Absent st name.bytes)
    (hgrown : Grown mem (st.store p (newEntry name value)) st' name.bytes p
      ⟨newEntry name value, .library⟩) :
    Keeps st (.setenv (some name) value overwrite) st' ↔
      Careful st (.setenv (some name) value overwrite) := by
  have ht := hs.toTerminated
  have hs' := hs.store (s := newEntry name value) hheap
  constructor
  · intro hk s hs'' _
    cases hs''
    refine ⟨fun _ n' pre a post hpres hhand => ?_, fun _ _ a hlook => ?_⟩
    · have hno : ¬ (Call.setenv (some name) value overwrite).Targets st n' := by
        rintro ⟨-, s, hsome, rfl⟩
        cases hsome
        exact not_absent hpres habs
      have hstay := hk.stays n' a hno hpres.firstWith_eq hhand
      exact (hgrown.stays_iff hs' ((present_store_iff ht hheap).2 hpres)).1 hstay
    · rw [State.lookup, firstWith_eq_none_iff.2 habs] at hlook
      cases hlook
  · intro hcare
    have hnc := (hcare name rfl hn).1 habs
    exact .of_store ht hheap (.grown hs' hgrown (by rw [heap_store_self]; rfl)
      ((noneCopied_store_iff ht hheap).2 hnc))

/-- `putenv` of a new name keeps the handed entries exactly when the call is careful. -/
theorem keeps_putNew_iff {str : ℕ} (hs : Sound st) (hstr : Assigns st str n)
    (hgrown : Grown mem st st' n str ⟨st.text str, .handed⟩) :
    Keeps st (.putenv str) st' ↔ Careful st (.putenv str) := by
  constructor
  · intro hk n' hn' _ m pre a post hpres hhand
    have hno : ¬ (Call.putenv str).Targets st m := fun htarget => by
      have hmn : m = n := some.inj (htarget.symm.trans hstr.2.2.1)
      exact not_absent (hmn ▸ hpres) hgrown.absent
    exact (hgrown.stays_iff hs hpres).1 (hk.stays m a hno hpres.firstWith_eq hhand)
  · intro hcare
    refine .grown hs hgrown ?_ (hcare n hstr hgrown.absent)
    obtain ⟨cell, hcell⟩ := isSome_iff_exists.1 hstr.2.1
    simp [State.text, hcell]

/-- One step: a call keeps the handed entries exactly when it is careful. -/
theorem Outcome.keeps_iff (hs : Sound st) (hf : mem.Fresh st) (hg : mem.Grants)
    (ho : Outcome st mem c (.ok (r, st'))) : Keeps st c st' ↔ Careful st c := by
  cases ho with
  | rejected hrej => exact iff_of_true (.same hs _) hrej.careful
  | kept hn hpres =>
    refine iff_of_true (.same hs _) fun s hs' _ => ?_
    cases hs'
    exact ⟨fun habs => absurd habs (not_absent hpres), fun hover => absurd hover Bool.false_ne_true⟩
  | missing hn _ habs =>
    refine iff_of_true (.same hs _) fun s hs' _ pre a post hpres => ?_
    cases hs'
    exact absurd habs (not_absent hpres)
  | null he =>
    refine iff_of_true (.same hs _) fun _ a ha => ?_
    simp [State.entries, he, flagged] at ha
  | noMem hno => exact absurd hg hno.not_grants
  | failed _ hfail => exact absurd hg hfail.not_grants
  | set hn _ hsafe hrep =>
    refine iff_of_true (.replaced hs hrep fun n' hno e => hno ⟨rfl, _, rfl, e.symm⟩)
      fun s hs' _ => ?_
    cases hs'
    refine ⟨fun habs => absurd habs (not_absent hrep.present), fun _ howned b hlook => ?_⟩
    rw [State.lookup, hrep.present.firstWith_eq] at hlook
    cases hlook
    simp [hsafe howned]
  | put hstr hrep =>
    refine iff_of_true (.replaced hs hrep fun n' hno e => hno (e ▸ hstr.2.2.1)) fun n' hn' => ?_
    obtain rfl := some.inj (hn'.2.2.1.symm.trans hstr.2.2.1)
    exact fun habs => absurd habs (not_absent hrep.present)
  | setNew hn hp habs hgrown => exact keeps_setNew_iff hs hn (hf.entry _ hp).2 habs hgrown
  | putNew hstr hgrown => exact keeps_putNew_iff hs hstr hgrown
  | unset hn hsafe hrem =>
    refine iff_of_true (.removed hs hrem fun n' hno e => hno ⟨_, rfl, e.symm⟩)
      fun s hs' _ pre' a' post' hpres hsh => ?_
    cases hs'
    have hlen := hpres.length_unique hrem.present
    have ha : a' = _ := some.inj (hpres.firstWith_eq.symm.trans hrem.present.firstWith_eq)
    rw [ha, hsafe (hlen ▸ hsh)]
    intro hhand
    cases hhand
  | clear hsafe hclear => exact iff_of_true (.cleared hclear) hsafe

/-- **A call that does not return** was not careful. -/
theorem Outcome.not_careful {f : Fault} (hs : Sound st) (hg : mem.Grants)
    (hstr : ∀ str, c = .putenv str → str = 0 ∨ (st.heap str).isSome)
    (ho : Outcome st mem c (.error f)) : ¬ Careful st c := by
  cases ho with
  | dangling h0 hnone =>
    have := (hstr _ rfl).resolve_left h0
    simp [hnone] at this
  | failedFault _ hfail => exact absurd hg hfail.not_grants
  | setFault hn hpres howned hlib =>
    intro hcare
    exact (hcare _ rfl hn).2 rfl howned _ hpres.firstWith_eq
      (hs.handed_of_not_library howned hpres.mem hlib)
  | unsetFault hn hpres hsh hlib =>
    intro hcare
    have howned : st.owned := ((Bool.and_eq_true _ _).mp hsh).1
    exact hcare _ rfl hn _ _ _ hpres hsh (hs.handed_of_not_library howned hpres.mem hlib)
  | clearFault howned ha hhand => exact fun hcare => hcare howned _ ha hhand

/-- **Strings that were handed over.** In every state that a run reaches, and with memory for every
allocation, a call is safe exactly if it frees no string that was handed over by `putenv` and makes
no copy of one that `environ` has for a name. -/
theorem handed_safe_iff (st₀ st : State) (steps : List (Call × Alloc)) (c : Call) (mem : Alloc)
    (h₀ : Initial st₀) (hrun : Run st₀ steps st) (hsteps : ∀ s ∈ steps, s.2.Grants)
    (hf : mem.Fresh st) (hg : mem.Grants)
    (hstr : ∀ str, c = .putenv str → str = 0 ∨ (st.heap str).isSome) :
    Safe st mem c ↔ Careful st c := by
  have hs := hrun.sound h₀ hsteps
  have ho := hs.outcome hf c
  cases he : c.exec st mem with
  | error f =>
    refine iff_of_false ?_ ((he ▸ ho : Outcome st mem c (.error f)).not_careful hs hg hstr)
    rintro ⟨r, st', h, -⟩
    rw [he] at h
    cases h
  | ok res =>
    have hok : Outcome st mem c (.ok (res.1, res.2)) := he ▸ ho
    rw [← hok.keeps_iff hs hf hg]
    constructor
    · rintro ⟨r, st', h, hk⟩
      rw [he] at h
      cases h
      exact hk
    · exact fun hk => ⟨res.1, res.2, he, hk⟩

/-- No variable; the strings `A=1` and `A=2` are the caller's. -/
def callersStrings : State where
  heap a :=
    if a = 1 then some ⟨str "A=1", .caller⟩ else if a = 2 then some ⟨str "A=2", .caller⟩ else none
  environ := none
  owned := false
  flags := []

theorem initial_callersStrings : Initial callersStrings where
  notOwned := rfl
  noFlags := rfl
  array _ := nofun
  callers a c hc := by
    simp only [callersStrings] at hc
    split_ifs at hc <;> cases hc <;> rfl

theorem heap_callersStrings (h : 3 ≤ a) : callersStrings.heap a = none := by
  simp only [callersStrings]
  rw [if_neg (by omega), if_neg (by omega)]

/-- The state after `putenv` of `A=1`. -/
def handedOver : State where
  heap := Function.update callersStrings.heap 1 (some ⟨str "A=1", .handed⟩)
  environ := some [1, 0]
  owned := true
  flags := [false]

theorem handed_safe_iff_handedOver :
    Run callersStrings [(.putenv 1, .counting 10)] handedOver ∧
    Safe handedOver (.counting 20) (.unsetenv (some (str "A"))) := by
  have hrun : Run callersStrings [(.putenv 1, .counting 10)] handedOver :=
    .step (r := ⟨0, none⟩) .start
      (Alloc.counting_fresh (by decide) fun a ha => heap_callersStrings (by omega)) rfl
  have hfresh : (Alloc.counting 20).Fresh handedOver := by
    refine Alloc.counting_fresh (by decide) fun a ha => ?_
    exact (Function.update_of_ne (by omega) _ _).trans (heap_callersStrings (by omega))
  refine ⟨hrun, (handed_safe_iff callersStrings handedOver _ (.unsetenv (some (str "A"))) _
    initial_callersStrings hrun (by simp [Alloc.counting_grants 10]) hfresh
    (Alloc.counting_grants 20) nofun).2 ?_⟩
  intro s _ _ pre a post _ hsh
  have hnot : handedOver.shared pre.length = false := by
    cases pre.length <;> rfl
  simp [hnot] at hsh

/-- `setenv` over the string that `putenv` handed over frees it; `putenv` over the string of
`setenv` leaves the flag, so that `unsetenv` frees it; and a `setenv` of another name puts a copy in
its place. -/
theorem handed_string_freed :
    (execAll callersStrings [(.putenv 1, .counting 10),
      (.setenv (some (str "A")) (some (str "2")) true, .counting 20)]).map Prod.fst =
        .error (.badFree 1) ∧
    (execAll callersStrings [(.setenv (some (str "A")) (some (str "0")) true, .counting 10),
      (.putenv 1, .counting 20), (.unsetenv (some (str "A")), .counting 30)]).map Prod.fst =
        .error (.badFree 1) ∧
    (execAll callersStrings [(.putenv 1, .counting 10),
      (.setenv (some (str "B")) (some (str "2")) true, .counting 20)]).map (fun r => r.2.entries) =
        .ok [21, 20] := by
  decide

end Vlibc.Env
