import Vlibc.Env.Environ
import Vlibc.Foundations.Keyed

/-!
# The names in the environment

The name in a string of the environment is what stands before its first `=` (`nameOf`). For a name
without `=`, the loops of `getenv` and `find_env_index` find the first string with the name
(`Terminated.findEnvIndex_cases`, `Terminated.getenv_eq`). For a name with `=` in it, `getenv` also
compares parts of the values (`names_iff_of_nameOf`).
-/

namespace Vlibc.Env

open List Option

variable {st : State} {e name s : CStr} {n v : List UInt8} {a i : ℕ} {l : List ℕ}

/-- The name in a string, if there is one. -/
def nameOf (t : CStr) : Option (List UInt8) :=
  if equals ∈ t.bytes then some (t.bytes.takeWhile (· ≠ equals)) else none

/-- What stands behind the first `=`. -/
def valueOf (t : CStr) : CStr := t.drop ((t.bytes.takeWhile (· ≠ equals)).length + 1)

theorem takeWhile_of_eq (hn : equals ∉ n) (h : e.bytes = n ++ equals :: v) :
    e.bytes.takeWhile (· ≠ equals) = n := by
  have hpos : ∀ b ∈ n, decide (b ≠ equals) = true := fun b hb =>
    decide_eq_true fun hb' => hn (hb' ▸ hb)
  rw [h, takeWhile_append_of_pos hpos]
  simp

theorem nameOf_eq_some_iff : nameOf e = some n ↔ equals ∉ n ∧ ∃ v, e.bytes = n ++ equals :: v := by
  constructor
  · intro h
    unfold nameOf at h
    split at h
    · next hmem =>
      obtain ⟨w, v, hw, hnot⟩ := eq_append_cons_of_mem hmem
      cases h
      rw [takeWhile_of_eq hnot hw]
      exact ⟨hnot, v, hw⟩
    · cases h
  · rintro ⟨hn, v, h⟩
    rw [nameOf, if_pos (by simp [h]), takeWhile_of_eq hn h]

theorem nameOf_eq_none_iff : nameOf e = none ↔ equals ∉ e.bytes := by
  unfold nameOf
  split <;> simp_all

theorem valueOf_bytes (hn : equals ∉ n) (h : e.bytes = n ++ equals :: v) : (valueOf e).bytes = v := by
  change e.bytes.drop _ = v
  rw [takeWhile_of_eq hn h, h, ← drop_drop, drop_left]
  rfl

theorem nameOf_assignment (hn : equals ∉ name.bytes) (value : CStr) :
    nameOf (assignment name value) = some name.bytes :=
  nameOf_eq_some_iff.2 ⟨hn, value.bytes, rfl⟩

theorem valueOf_assignment (hn : equals ∉ name.bytes) (value : CStr) :
    valueOf (assignment name value) = value :=
  CStr.ext (valueOf_bytes hn rfl)

/-- **The condition of the loops**: the string starts with the first `len` bytes and a `=`. -/
theorem names_iff_append {len : ℕ} (hlen : len ≤ s.bytes.length) :
    names e s len ↔ ∃ v, e.bytes = s.bytes.take len ++ equals :: v := by
  rw [names, decide_eq_true_eq, vstrncmp, vstrncmpFrom_eq_zero_iff e.noNul s.noNul]
  constructor
  · rintro ⟨htake, hat⟩
    have hlt : len < e.bytes.length := by
      by_contra hge
      rw [getD_eq_default _ _ (not_lt.1 hge)] at hat
      cases hat
    refine ⟨e.bytes.drop (len + 1), ?_⟩
    rw [getD_eq_getElem _ _ hlt] at hat
    rw [← htake, ← hat, ← drop_eq_getElem_cons hlt, take_append_drop]
  · rintro ⟨v, hv⟩
    have hl : (s.bytes.take len).length = len := length_take_of_le hlen
    rw [hv]
    refine ⟨take_left' hl, ?_⟩
    rw [getD_append_right _ _ _ _ hl.le, hl, Nat.sub_self]
    rfl

/-- Without a `=` among them, the bytes are the name in the string. -/
theorem names_iff {len : ℕ} (hlen : len ≤ s.bytes.length) (hn : equals ∉ s.bytes.take len) :
    names e s len ↔ nameOf e = some (s.bytes.take len) := by
  rw [names_iff_append hlen, nameOf_eq_some_iff, and_iff_right hn]

/-- What `getenv` takes for the name in a string: the name itself, or more than it, up to a `=` in
the value. -/
theorem names_iff_of_nameOf (h : nameOf e = some n) :
    names e s (vstrlen s) ↔ s.bytes = n ∨
      ∃ w v, s.bytes = n ++ equals :: w ∧ (valueOf e).bytes = w ++ equals :: v := by
  have htake : s.bytes.take (vstrlen s) = s.bytes := take_length
  have hiff := names_iff_append (e := e) (le_refl (vstrlen s))
  rw [htake] at hiff
  obtain ⟨hn, val, hval⟩ := nameOf_eq_some_iff.1 h
  rw [valueOf_bytes hn hval, hiff]
  constructor
  · rintro ⟨v, hv⟩
    by_cases hs : equals ∈ s.bytes
    · obtain ⟨m, w, hw, hm⟩ := eq_append_cons_of_mem hs
      have he : e.bytes = m ++ equals :: (w ++ equals :: v) := by
        rw [hv, hw, append_assoc, cons_append]
      obtain rfl : n = m := by rw [← takeWhile_of_eq hn hval, takeWhile_of_eq hm he]
      rw [hval, append_cancel_left_eq, cons_inj_right] at he
      exact .inr ⟨w, v, hw, he⟩
    · exact .inl (some.inj ((nameOf_eq_some_iff.2 ⟨hs, v, hv⟩).symm.trans h))
  · rintro (rfl | ⟨w, v, hw, rfl⟩)
    · exact ⟨val, hval⟩
    · exact ⟨v, by rw [hval, hw, append_assoc, cons_append]⟩

theorem drop_eq_valueOf (h : nameOf e = some n) : e.drop (n.length + 1) = valueOf e := by
  obtain ⟨hn, v, hv⟩ := nameOf_eq_some_iff.1 h
  rw [valueOf, takeWhile_of_eq hn hv]

theorem nameOf_of_strchr {len : ℕ} (h : strchr s equals = some len) :
    len ≤ s.bytes.length ∧ equals ∉ s.bytes.take len ∧ nameOf s = some (s.bytes.take len) := by
  obtain ⟨hlt, hat, hbefore⟩ := idxOf?_eq_some_iff.1 ((strchr_eq_idxOf? (by decide)).symm.trans h)
  have hn : equals ∉ s.bytes.take len := by
    intro hmem
    obtain ⟨j, hj, hj'⟩ := mem_take_iff_getElem.1 hmem
    exact hbefore j (by omega) hj'
  refine ⟨hlt.le, hn, nameOf_eq_some_iff.2 ⟨hn, s.bytes.drop (len + 1), ?_⟩⟩
  conv_lhs => rw [← take_append_drop len s.bytes, drop_eq_getElem_cons hlt, hat]

/-! ## Searching the array -/

namespace State

/-- The strings in `environ`: those before the `NULL`. -/
def entries (st : State) : List ℕ := (st.environ.getD [0]).takeWhile (· ≠ 0)

/-- The text at an address; empty where there is none. -/
def text (st : State) (a : ℕ) : CStr := ((st.heap a).map Cell.text).getD (str "")

/-- The name in the string at an address. -/
def nameAt (st : State) (a : ℕ) : Option (List UInt8) := nameOf (st.text a)

/-- The texts of the strings in `environ`. -/
def texts (st : State) : List CStr := st.entries.map st.text

/-- The string that `environ` has for a name: the first one. -/
def lookup (st : State) (n : List UInt8) : Option ℕ := firstWith st.nameAt n st.entries

end State

/-- `environ` is `NULL`, or a `NULL` ends it; and its strings are in memory. -/
structure Terminated (st : State) : Prop where
  ends : ∀ cells, st.environ = some cells → 0 ∈ cells
  live : ∀ a ∈ st.entries, (st.heap a).isSome

theorem entries_ne_zero (ha : a ∈ st.entries) : a ≠ 0 := by
  simpa using mem_takeWhile_imp ha

theorem Terminated.array (ht : Terminated st) :
    (st.environ = none ∧ st.entries = []) ∨ ∃ rest, st.environ = some (st.entries ++ 0 :: rest) := by
  cases h : st.environ with
  | none => exact .inl ⟨rfl, by simp [State.entries, h]⟩
  | some cells =>
    obtain ⟨w, rest, hw, hnot⟩ := eq_append_cons_of_mem (ht.ends cells h)
    have hpos : ∀ b ∈ w, decide (b ≠ 0) = true := fun b hb =>
      decide_eq_true fun hb' => hnot (hb' ▸ hb)
    have hent : st.entries = w := by
      rw [State.entries, h, getD_some, hw, takeWhile_append_of_pos hpos]
      simp
    exact .inr ⟨rest, by rw [hent, hw]⟩

theorem entries_of_environ {rest : List ℕ} (h : st.environ = some (l ++ 0 :: rest))
    (h0 : ∀ a ∈ l, a ≠ 0) : st.entries = l := by
  rw [State.entries, h, getD_some, takeWhile_append_of_pos fun b hb => decide_eq_true (h0 b hb)]
  simp

theorem entriesOf_append {rest : List ℕ} (h0 : ∀ a ∈ l, a ≠ 0) :
    entriesOf (l ++ 0 :: rest) = .ok l := by
  induction l with
  | nil => rfl
  | cons a l ih =>
    obtain ⟨ha, h0⟩ := forall_mem_cons.1 h0
    rw [cons_append, entriesOf, if_neg ha, ih h0]
    rfl

theorem Terminated.entriesOf_eq (ht : Terminated st) :
    entriesOf (st.environ.getD [0]) = .ok st.entries := by
  obtain ⟨h, he⟩ | ⟨rest, h⟩ := ht.array
  · rw [h, he]
    rfl
  · rw [h, getD_some]
    exact entriesOf_append fun a => entries_ne_zero

theorem read_eq (h : (st.heap a).isSome) : st.read a = .ok (st.text a) := by
  obtain ⟨c, hc⟩ := isSome_iff_exists.1 h
  simp [State.read, State.text, hc]

section Find

variable {len : ℕ}

/-- **The loop of `find_env_index`** over strings that are in memory. -/
theorem findFrom_cases (hlen : len ≤ s.bytes.length) (hn : equals ∉ s.bytes.take len)
    (hl : ∀ a ∈ l, a ≠ 0 ∧ (st.heap a).isSome) (rest : List ℕ) (i : ℕ) :
    ((∀ a ∈ l, st.nameAt a ≠ some (s.bytes.take len)) ∧
      findFrom st s len (l ++ 0 :: rest) i = .ok none) ∨
    ∃ pre a post, FirstAt st.nameAt (s.bytes.take len) l pre a post ∧
      findFrom st s len (l ++ 0 :: rest) i = .ok (some (i + pre.length)) := by
  induction l generalizing i with
  | nil => exact .inl ⟨fun a ha => absurd ha not_mem_nil, rfl⟩
  | cons a l ih =>
    obtain ⟨⟨ha, hlive⟩, hl⟩ := forall_mem_cons.1 hl
    by_cases hname : st.nameAt a = some (s.bytes.take len)
    · refine .inr ⟨[], a, l, ⟨rfl, hname, fun b hb => absurd hb not_mem_nil⟩, ?_⟩
      rw [cons_append, findFrom, if_neg ha, read_eq hlive]
      change (if names (st.text a) s len = true then _ else _) = _
      rw [if_pos ((names_iff hlen hn).2 hname)]
      rfl
    · have hstep : findFrom st s len (a :: l ++ 0 :: rest) i =
          findFrom st s len (l ++ 0 :: rest) (i + 1) := by
        rw [cons_append, findFrom, if_neg ha, read_eq hlive]
        change (if names (st.text a) s len = true then _ else _) = _
        rw [if_neg fun h => hname ((names_iff hlen hn).1 h)]
      rw [hstep]
      obtain ⟨hnone, e⟩ | ⟨pre, b, post, hfirst, e⟩ := ih hl (i + 1)
      · exact .inl ⟨forall_mem_cons.2 ⟨hname, hnone⟩, e⟩
      · refine .inr ⟨a :: pre, b, post, ⟨by rw [hfirst.eq]; rfl, hfirst.has,
          forall_mem_cons.2 ⟨hname, hfirst.before⟩⟩, ?_⟩
        rw [e, length_cons, add_right_comm, add_assoc]

theorem Terminated.mem (ht : Terminated st) : ∀ a ∈ st.entries, a ≠ 0 ∧ (st.heap a).isSome :=
  fun a ha => ⟨entries_ne_zero ha, ht.live a ha⟩

/-- **`find_env_index`** finds the first string with the name. -/
theorem Terminated.findEnvIndex_cases (ht : Terminated st) (hlen : len ≤ s.bytes.length)
    (hn : equals ∉ s.bytes.take len) :
    ((∀ a ∈ st.entries, st.nameAt a ≠ some (s.bytes.take len)) ∧
      findEnvIndex st s len = .ok none) ∨
    ∃ pre a post, FirstAt st.nameAt (s.bytes.take len) st.entries pre a post ∧
      findEnvIndex st s len = .ok (some pre.length) := by
  obtain ⟨h, he⟩ | ⟨rest, h⟩ := ht.array
  · refine .inl ⟨by simp [he], by rw [findEnvIndex, h]⟩
  · rw [findEnvIndex, h]
    simpa using findFrom_cases hlen hn ht.mem rest 0

/-- The loop of `getenv`. -/
theorem getenvFrom_eq (name : CStr) (rest : List ℕ) (hl : ∀ a ∈ l, a ≠ 0 ∧ (st.heap a).isSome) :
    getenvFrom st name len (l ++ 0 :: rest) =
      .ok (((l.map st.text).find? fun t => names t name len).map fun t => t.drop (len + 1)) := by
  induction l with
  | nil => rfl
  | cons a l ih =>
    obtain ⟨⟨ha, hlive⟩, hl⟩ := forall_mem_cons.1 hl
    rw [cons_append, getenvFrom, if_neg ha, read_eq hlive, map_cons]
    change (if names (st.text a) name len = true then _ else _) = _
    by_cases hname : names (st.text a) name len = true
    · rw [if_pos hname, find?_cons_of_pos (p := fun t => names t name len) hname]
      rfl
    · rw [if_neg hname, find?_cons_of_neg (p := fun t => names t name len) hname]
      exact ih hl

/-- **`getenv`** returns what stands behind the name in the first string that starts with it. -/
theorem Terminated.getenv_eq_find (ht : Terminated st) (name : CStr) :
    getenv st (some name) = .ok ((st.texts.find? fun t => names t name (vstrlen name)).map
      fun t => t.drop (vstrlen name + 1)) := by
  obtain ⟨h, he⟩ | ⟨rest, h⟩ := ht.array
  · simp only [getenv, h, State.texts, he]
    rfl
  · simp only [getenv, h]
    exact getenvFrom_eq name rest ht.mem

/-- For a name without `=` that is the value in the string that `environ` has for the name. -/
theorem Terminated.getenv_eq (ht : Terminated st) (hn : equals ∉ name.bytes) :
    getenv st (some name) = .ok ((st.lookup name.bytes).map fun a => valueOf (st.text a)) := by
  have htake : name.bytes.take (vstrlen name) = name.bytes := take_length
  have hiff : ∀ t, names t name (vstrlen name) = decide (nameOf t = some name.bytes) := fun t => by
    rw [Bool.eq_iff_iff, names_iff (le_refl (vstrlen name)) (by rwa [htake]), htake, decide_eq_true_iff]
  rw [ht.getenv_eq_find, State.texts, State.lookup, firstWith, find?_map, Option.map_map]
  simp only [hiff]
  refine congrArg Except.ok (map_congr fun a ha => ?_)
  have hname : decide (nameOf (st.text a) = some name.bytes) = true := by simpa using find?_some ha
  exact drop_eq_valueOf (of_decide_eq_true hname)

end Find

end Vlibc.Env
