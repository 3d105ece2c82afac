import Vlibc.Env.Calls

/-!
# Who owns the strings

Between calls the strings in `environ` are in memory, a string that was allocated in this file is in
`environ` at most once, and an array of this file has no string of the initial environment
(`Sound`). A call does one of four things to the array (`Replaced`, `Removed`, `Grown`, `Cleared`);
each keeps `Sound`, and says what is in `environ` afterwards.
-/

namespace Vlibc.Env

open State List Option Function

variable {st st' : State} {mem : Alloc} {a p x : ℕ} {l pre post rest : List ℕ} {s : CStr}
  {n : List UInt8} {c : Cell}

/-- What holds between calls. -/
structure Sound (st : State) : Prop extends Terminated st where
  unique : ∀ x, st.origin x = some .library → st.entries.count x ≤ 1
  own : st.owned → ∀ a ∈ st.entries, st.origin a ≠ some .caller

theorem Sound.store (hs : Sound st) (ha : st.heap a = none) : Sound (st.store a s) where
  toTerminated := hs.toTerminated.store
  unique x hx := by
    by_cases h : x = a
    · subst h
      rw [entries_store, count_eq_zero_of_not_mem fun hmem => by simpa [ha] using hs.live x hmem]
      exact Nat.zero_le 1
    · rw [origin_congr (heap_store_ne h)] at hx
      exact hs.unique x hx
  own ho x hx := by
    rw [origin_congr (heap_store_of_isSome ha (hs.live x hx))]
    exact hs.own ho x hx

theorem Sound.not_mem_of_library (hs : Sound st) (he : st.entries = pre ++ a :: post)
    (ha : st.origin a = some .library) : a ∉ pre ++ post := by
  have hc := hs.unique a ha
  rw [he, count_append, count_cons_self] at hc
  rw [← count_eq_zero, count_append]
  omega

theorem Sound.of_environ (h : st'.environ = some (l ++ 0 :: rest))
    (hl : ∀ a ∈ l, a ≠ 0 ∧ (st'.heap a).isSome)
    (hu : ∀ x, st'.origin x = some .library → l.count x ≤ 1)
    (ho : st'.owned → ∀ a ∈ l, st'.origin a ≠ some .caller) : st'.entries = l ∧ Sound st' := by
  obtain ⟨he, ht⟩ := Terminated.of_environ h hl
  exact ⟨he, ht, he ▸ hu, he ▸ ho⟩

/-- The string `c` at `p` takes the place of the first entry with its name. -/
structure Replaced (st st' : State) (n : List UInt8) (pre : List ℕ) (a : ℕ) (post : List ℕ) (p : ℕ)
    (c : Cell) : Prop where
  present : Present st n pre a post
  environ : ∃ rest, st'.environ = some ((pre ++ p :: post) ++ 0 :: rest)
  owned : st'.owned = st.owned
  ne_zero : p ≠ 0
  new : st'.heap p = some c
  named : nameOf c.text = some n
  text : st.heap p = none ∨ (st.heap p).map Cell.text = some c.text
  keep : ∀ x ∈ pre ++ post, x ≠ p → st'.heap x = st.heap x
  library : c.origin = .library → p ∉ pre ++ post
  caller : c.origin ≠ .caller
  survive : ∀ x, x ≠ p → st.origin x ≠ some .library → st'.heap x = st.heap x
  others : ∀ x, x ≠ p → st'.heap x = st.heap x ∨ st'.heap x = none
  flags : st'.flags = st.flags

namespace Replaced

theorem text_eq (hr : Replaced st st' n pre a post p c) : st'.text p = c.text := by
  rw [State.text, hr.new]
  rfl

theorem text_keep (ht : Terminated st) (hr : Replaced st st' n pre a post p c)
    (hx : x ∈ pre ++ post) : st'.text x = st.text x := by
  by_cases h : x = p
  · subst h
    have hlive : (st.heap x).isSome := ht.live x (hr.present.mem_of_mem hx)
    obtain hnone | hsame := hr.text
    · simp [hnone] at hlive
    · rw [hr.text_eq, State.text, hsame]
      rfl
  · exact text_congr (hr.keep x hx h)

theorem sound (hs : Sound st) (hr : Replaced st st' n pre a post p c) :
    st'.entries = pre ++ p :: post ∧ Sound st' := by
  obtain ⟨rest, henv⟩ := hr.environ
  have hmem : ∀ x, x ∈ pre ++ p :: post ↔ x = p ∨ x ∈ pre ++ post := fun x => by
    simp only [mem_append, mem_cons]
    tauto
  have horigin : st'.origin p = some c.origin := by
    rw [State.origin, hr.new]
    rfl
  refine Sound.of_environ henv (fun x hx => ?_) (fun x hx => ?_) fun ho x hx => ?_
  · by_cases h : x = p
    · subst h
      exact ⟨hr.ne_zero, by simp [hr.new]⟩
    · have hx := ((hmem x).1 hx).resolve_left h
      rw [hr.keep x hx h]
      exact hs.mem x (hr.present.mem_of_mem hx)
  · rw [count_append]
    by_cases h : x = p
    · subst h
      rw [horigin] at hx
      have hnot := hr.library (some.inj hx)
      rw [← count_eq_zero, count_append] at hnot
      rw [count_cons_self]
      omega
    · rw [count_cons_of_ne (Ne.symm h), ← count_append]
      by_cases hx' : x ∈ pre ++ post
      · rw [origin_congr (hr.keep x hx' h)] at hx
        have hle := hs.unique x hx
        rw [hr.present.eq, count_append, count_cons] at hle
        rw [count_append]
        omega
      · rw [count_eq_zero_of_not_mem hx']
        exact Nat.zero_le 1
  · by_cases h : x = p
    · subst h
      rw [horigin]
      exact fun hc => hr.caller (some.inj hc)
    · have hx := ((hmem x).1 hx).resolve_left h
      rw [origin_congr (hr.keep x hx h)]
      exact hs.own (hr.owned ▸ ho) x (hr.present.mem_of_mem hx)

end Replaced

/-- The first entry with the name is taken out. -/
structure Removed (st st' : State) (n : List UInt8) (pre : List ℕ) (a : ℕ) (post : List ℕ) : Prop
    where
  present : Present st n pre a post
  environ : ∃ rest, st'.environ = some ((pre ++ post) ++ 0 :: rest)
  owned : st'.owned = st.owned
  keep : ∀ x ∈ pre ++ post, st'.heap x = st.heap x
  library : ∀ x, st'.origin x = some .library → st.origin x = some .library
  survive : ∀ x, st.origin x ≠ some .library → st'.heap x = st.heap x
  others : ∀ x, st'.heap x = st.heap x ∨ st'.heap x = none
  flags : st'.flags = if st.owned then st.flags.eraseIdx pre.length else st.flags

theorem Removed.sound (hs : Sound st) (hr : Removed st st' n pre a post) :
    st'.entries = pre ++ post ∧ Sound st' := by
  obtain ⟨rest, henv⟩ := hr.environ
  refine Sound.of_environ henv (fun x hx => ?_) (fun x hx => ?_) fun ho x hx => ?_
  · rw [hr.keep x hx]
    exact hs.mem x (hr.present.mem_of_mem hx)
  · have hle := hs.unique x (hr.library x hx)
    rw [hr.present.eq, count_append, count_cons] at hle
    rw [count_append]
    omega
  · rw [origin_congr (hr.keep x hx)]
    exact hs.own (hr.owned ▸ ho) x (hr.present.mem_of_mem hx)

theorem Removed.texts_eq (hs : Sound st) (hr : Removed st st' n pre a post) :
    st'.texts = (pre ++ post).map st.text := by
  rw [State.texts, (hr.sound hs).1]
  exact map_congr_left fun x hx => text_congr (hr.keep x hx)

/-! ## A new array -/

/-- The array is built anew, with the string `c` at `p` behind the others. -/
structure Grown (mem : Alloc) (st st' : State) (n : List UInt8) (p : ℕ) (c : Cell) : Prop where
  absent : Absent st n
  copyable : Copyable mem st st.entries 0
  fresh : mem.FreshFrom st 0
  environ : st'.environ = some ((copies mem st st.entries 0 ++ [p]) ++ [0])
  ne_zero : p ≠ 0
  live : (st.heap p).isSome
  not_mem : p ∉ st.entries
  new : st'.heap p = some c
  named : nameOf c.text = some n
  heap : ∀ x, x ≠ p → st'.heap x = (copied mem st st.entries 0).heap x
  caller : c.origin ≠ .caller
  flags : ∃ f, st'.flags = List.replicate st.entries.length true ++ [f]

namespace Grown

theorem not_mem_copies (hg : Grown mem st st' n p c) : p ∉ copies mem st st.entries 0 := by
  intro hmem
  obtain h | ⟨j, hj, h⟩ := mem_copies hg.copyable hmem
  · exact hg.not_mem (mem_of_mem_sharedOf h).1
  · simpa [(hg.fresh.dup j p hj h).2] using hg.live

theorem heap_of_mem (hg : Grown mem st st' n p c) (hx : x ∈ copies mem st st.entries 0) :
    st'.heap x = (copied mem st st.entries 0).heap x :=
  hg.heap x fun h => hg.not_mem_copies (h ▸ hx)

theorem heap_keep (hg : Grown mem st st' n p c) (hx : (st.heap x).isSome) (hne : x ≠ p) :
    st'.heap x = st.heap x := by
  rw [hg.heap x hne, heap_copied hg.fresh hg.copyable hx]

theorem texts (hs : Terminated st) (hg : Grown mem st st' n p c) :
    (copies mem st st.entries 0 ++ [p]).map st'.text = st.entries.map st.text ++ [c.text] := by
  rw [map_append, ← text_copies hg.fresh hs.live hg.copyable]
  refine congrArg₂ (· ++ ·) (map_congr_left fun x hx => text_congr (hg.heap_of_mem hx)) ?_
  simp [State.text, hg.new]

theorem sound (hs : Sound st) (hg : Grown mem st st' n p c) :
    st'.entries = copies mem st st.entries 0 ++ [p] ∧ Sound st' := by
  have hcopy : ∀ x ∈ copies mem st st.entries 0,
      (x ∈ st.entries ∧ st.owned ∧ st'.heap x = st.heap x) ∨
      (st.heap x = none ∧ x ≠ 0 ∧ st'.origin x = some .library) := by
    intro x hx
    by_cases hnew : st.heap x = none
    · refine .inr ⟨hnew, ?_, ?_⟩
      · obtain h | ⟨j, hj, h⟩ := mem_copies hg.copyable hx
        · exact entries_ne_zero (mem_of_mem_sharedOf h).1
        · exact (hg.fresh.dup j x hj h).1
      · rw [origin_congr (hg.heap_of_mem hx)]
        exact origin_copied hg.fresh hs.live hg.copyable hx hnew
    · have hlive : (st.heap x).isSome := isSome_iff_ne_none.2 hnew
      obtain h | ⟨j, hj, h⟩ := mem_copies hg.copyable hx
      · obtain ⟨hmem, ho⟩ := mem_of_mem_sharedOf h
        exact .inl ⟨hmem, ho, by rw [hg.heap_of_mem hx, heap_copied hg.fresh hg.copyable hlive]⟩
      · exact absurd (hg.fresh.dup j x hj h).2 hnew
  have henv : st'.environ = some ((copies mem st st.entries 0 ++ [p]) ++ 0 :: []) := hg.environ
  refine Sound.of_environ henv (fun x hx => ?_) (fun x hx => ?_) fun _ x hx => ?_
  · obtain hx | hx := mem_append.1 hx
    · obtain ⟨hmem, -, he⟩ | ⟨-, h0, ho⟩ := hcopy x hx
      · rw [he]
        exact hs.mem x hmem
      · refine ⟨h0, ?_⟩
        obtain ⟨c', hc', -⟩ := map_eq_some_iff.1 ho
        simp [hc']
    · obtain rfl := mem_singleton.1 hx
      exact ⟨hg.ne_zero, by simp [hg.new]⟩
  · rw [count_append]
    by_cases h : x = p
    · subst h
      simp [count_eq_zero_of_not_mem hg.not_mem_copies]
    · rw [count_singleton, if_neg (by simpa using Ne.symm h), add_zero]
      by_cases hnew : st.heap x = none
      · exact count_copies_le_one hg.fresh hs.live hg.copyable hnew
      · have hlive : (st.heap x).isSome := isSome_iff_ne_none.2 hnew
        rw [origin_congr (hg.heap_keep hlive h)] at hx
        exact (count_copies_le hg.fresh hg.copyable hlive).trans (hs.unique x hx)
  · obtain hx | hx := mem_append.1 hx
    · obtain ⟨hmem, ho, he⟩ | ⟨-, -, ho⟩ := hcopy x hx
      · rw [origin_congr he]
        exact hs.own ho x hmem
      · simp [ho]
    · obtain rfl := mem_singleton.1 hx
      rw [State.origin, hg.new]
      exact fun h => hg.caller (some.inj h)

end Grown

/-- `environ` is empty, and only strings of this file were freed. -/
structure Cleared (st st' : State) : Prop where
  environ : ∃ rest, st'.environ = some (0 :: rest)
  survive : ∀ x, st.origin x ≠ some .library → st'.heap x = st.heap x
  others : ∀ x, st'.heap x = st.heap x ∨ st'.heap x = none

theorem Cleared.sound (hc : Cleared st st') : st'.entries = [] ∧ Sound st' := by
  obtain ⟨rest, h⟩ := hc.environ
  exact Sound.of_environ (l := []) h (fun x hx => absurd hx not_mem_nil)
    (fun x _ => Nat.zero_le 1) fun _ x hx => absurd hx not_mem_nil

/-! ## The calls -/

variable {name : CStr} {str : ℕ}

/-- A successful `setenv` over an entry. In an array of this file the entry must be a string of this
file. -/
theorem Sound.setenv_replaced (hs : Sound st) (hn : equals ∉ name.bytes) (hf : mem.Fresh st)
    (h : Present st name.bytes pre a post) (he : mem.entry = some p)
    (hsafe : st.owned → st.origin a = some .library) (value : Option CStr) :
    ∃ st', setenv st mem (some name) value true = .ok (⟨0, none⟩, st') ∧
      Replaced st st' name.bytes pre a post p ⟨newEntry name value, .library⟩ := by
  obtain ⟨h0, hp⟩ := hf.entry p he
  have hlive : ∀ x ∈ st.entries, x ≠ p := fun x hx e => by simpa [e, hp] using hs.live x hx
  rw [setenv_replace hs.toTerminated hn h he]
  by_cases ho : st.owned
  · have ha := hsafe ho
    have hap : a ≠ p := hlive a h.mem
    have hna := hs.not_mem_of_library h.eq ha
    rw [if_pos ho, free_eq (by rw [origin_congr (heap_store_ne hap)]; exact ha)]
    refine ⟨_, rfl, h, ?_, rfl, h0, ?_, nameOf_assignment hn _, .inl hp, fun x hx hxp => ?_,
      fun _ hmem => hlive p (h.mem_of_mem hmem) rfl, Origin.noConfusion, fun x hxp hx => ?_, fun x hxp => ?_, rfl⟩
    · exact hs.toTerminated.setCell_environ h.eq p
    · change Function.update (st.store p _).heap a none p = _
      rw [update_of_ne hap.symm, heap_store_self]
    · have hxa : x ≠ a := fun e => hna (e ▸ hx)
      change Function.update (st.store p _).heap a none x = _
      rw [update_of_ne hxa, heap_store_ne hxp]
    · have hxa : x ≠ a := fun e => hx (e ▸ ha)
      change Function.update (st.store p _).heap a none x = _
      rw [update_of_ne hxa, heap_store_ne hxp]
    · by_cases hxa : x = a
      · exact .inr (hxa ▸ update_self ..)
      · exact .inl ((update_of_ne hxa _ _).trans (heap_store_ne hxp))
  · rw [if_neg ho]
    exact ⟨_, rfl, h, hs.toTerminated.setCell_environ h.eq p, rfl, h0, heap_store_self,
      nameOf_assignment hn _, .inl hp, fun x _ hxp => heap_store_ne hxp,
      fun _ hmem => hlive p (h.mem_of_mem hmem) rfl, Origin.noConfusion,
      fun x hxp _ => heap_store_ne hxp,
      fun x hxp => .inl (heap_store_ne hxp), rfl⟩

theorem Sound.setenv_badFree (hs : Sound st) (hn : equals ∉ name.bytes) (hf : mem.Fresh st)
    (h : Present st name.bytes pre a post) (he : mem.entry = some p) (ho : st.owned)
    (ha : st.origin a ≠ some .library) :
    setenv st mem (some name) value true = .error (.badFree a) := by
  have hap : a ≠ p := fun e => by simpa [e, (hf.entry p he).2] using hs.live a h.mem
  rw [setenv_replace hs.toTerminated hn h he, if_pos ho, free_eq_error]
  · rfl
  · rwa [origin_congr (heap_store_ne hap)]

variable {n : List UInt8}

theorem Sound.putenv_replaced (hs : Sound st) (hstr : Assigns st str n)
    (h : Present st n pre a post) (mem : Alloc) :
    ∃ st', putenv st mem str = .ok (⟨0, none⟩, st') ∧
      Replaced st st' n pre a post str ⟨st.text str, .handed⟩ := by
  have hput := putenv_replace hs.toTerminated hstr h mem
  obtain ⟨h0, hlive, hname, -⟩ := hstr
  obtain ⟨c, hc⟩ := isSome_iff_exists.1 hlive
  have htext : st.text str = c.text := by simp [State.text, hc]
  refine ⟨_, hput, h, hs.toTerminated.setCell_environ h.eq str, rfl, h0, ?_, hname,
    .inr (by simp [hc, htext]), fun x _ hx => update_of_ne hx _ _,
    Origin.noConfusion, Origin.noConfusion, fun x hx _ => update_of_ne hx _ _, fun x hx => .inl (update_of_ne hx _ _), rfl⟩
  change Function.update st.heap str _ str = _
  rw [update_self, htext]
  change (st.heap str).map _ = _
  rw [hc]
  rfl

theorem Sound.unsetenv_removed (hs : Sound st) (hn : equals ∉ name.bytes)
    (h : Present st name.bytes pre a post)
    (hsafe : st.shared pre.length → st.origin a = some .library) :
    ∃ st', unsetenv st (some name) = .ok (⟨0, none⟩, st') ∧
      Removed st st' name.bytes pre a post := by
  obtain ⟨rest, e⟩ := unsetenv_present hs.toTerminated hn h
  rw [e]
  by_cases hsh : st.shared pre.length
  · have ha := hsafe hsh
    have hna := hs.not_mem_of_library h.eq ha
    rw [if_pos hsh, free_eq ha]
    have hkeep : ∀ x, x ≠ a → Function.update st.heap a none x = st.heap x := fun x hx =>
      update_of_ne hx _ _
    refine ⟨_, rfl, h, ⟨rest, rfl⟩, rfl, fun x hx => ?_, fun x hx => ?_, fun x hx => ?_,
      fun x => ?_, rfl⟩
    · exact hkeep x fun e => hna (e ▸ hx)
    · by_cases hxa : x = a
      · exact hxa ▸ ha
      · exact (congrArg (Option.map Cell.origin) (hkeep x hxa)).symm.trans hx
    · exact hkeep x fun e => hx (e ▸ ha)
    · by_cases hxa : x = a
      · exact .inr (hxa ▸ update_self ..)
      · exact .inl (hkeep x hxa)
  · rw [if_neg hsh]
    exact ⟨_, rfl, h, ⟨rest, rfl⟩, rfl, fun _ _ => rfl, fun _ h => h, fun _ _ => rfl,
      fun _ => .inl rfl, rfl⟩

theorem unsetenv_badFree (hs : Sound st) (hn : equals ∉ name.bytes)
    (h : Present st name.bytes pre a post) (hsh : st.shared pre.length)
    (ha : st.origin a ≠ some .library) :
    unsetenv st (some name) = .error (.badFree a) := by
  obtain ⟨rest, e⟩ := unsetenv_present hs.toTerminated hn h
  rw [e, if_pos hsh, free_eq_error ha]
  rfl

theorem Absent.store (hs : Terminated st) (ha : st.heap a = none)
    (h : Absent st n) : Absent (st.store a s) n := by
  intro x hx
  rw [nameAt_congr (heap_store_of_isSome ha (hs.live x hx))]
  exact h x hx

theorem Sound.setenv_grown (hs : Sound st) (hn : equals ∉ name.bytes) (hf : mem.Fresh st)
    (h : Absent st name.bytes) (he : mem.entry = some p) (henv : mem.newenv) (hflags : mem.newflags)
    (hc : Copyable mem st st.entries 0) (value : Option CStr) (overwrite : Bool) :
    ∃ st', setenv st mem (some name) value overwrite = .ok (⟨0, none⟩, st') ∧
      Grown mem (st.store p (newEntry name value)) st' name.bytes p
        ⟨newEntry name value, .library⟩ := by
  obtain ⟨h0, hp⟩ := hf.entry p he
  have hs' := hs.store (s := newEntry name value) hp
  have hfresh := hf.freshFrom_store (s := newEntry name value) he 0
  have hlive : ((st.store p (newEntry name value)).heap p).isSome := by simp [heap_store_self]
  rw [setenv_append hs.toTerminated hn h he, grow_ok hs'.toTerminated henv hflags hc]
  refine ⟨_, rfl, h.store hs.toTerminated hp, hc, hfresh, by simp [grown], h0, hlive,
    fun hmem => by simpa [hp] using hs.live p hmem, ?_, nameOf_assignment hn _, fun _ _ => rfl,
    nofun, ⟨true, rfl⟩⟩
  change (copied mem (st.store p _) st.entries 0).heap p = _
  rw [heap_copied hfresh hc hlive, heap_store_self]

theorem Sound.putenv_grown (hs : Sound st) (hstr : Assigns st str n)
    (hf : mem.Fresh st) (h : Absent st n) (henv : mem.newenv) (hflags : mem.newflags)
    (hc : Copyable mem st st.entries 0) :
    ∃ st', putenv st mem str = .ok (⟨0, none⟩, st') ∧
      Grown mem st st' n str ⟨st.text str, .handed⟩ := by
  have happ := putenv_append hs.toTerminated hstr h mem
  obtain ⟨h0, hlive, hname, -⟩ := hstr
  rw [happ, grow_ok hs.toTerminated henv hflags hc]
  refine ⟨_, rfl, h, hc, hf.freshFrom 0, by simp [grown, State.handOver], h0, hlive,
    fun hmem => h str hmem hname, ?_, hname, fun x hx => update_of_ne hx _ _, nofun,
    ⟨false, rfl⟩⟩
  change Function.update (copied mem st st.entries 0).heap str _ str = _
  obtain ⟨c, hcell⟩ := isSome_iff_exists.1 hlive
  rw [update_self]
  change ((copied mem st st.entries 0).heap str).map _ = _
  rw [heap_copied (hf.freshFrom 0) hc hlive, hcell]
  simp [State.text, hcell]

end Vlibc.Env
