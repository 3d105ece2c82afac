import Vlibc.Search.Hash

/-!
# Runs of `hsearch`

Any sequence of `ENTER` and `FIND` on a table is a sequence of insertions and queries on a map in
which an insertion never replaces anything. What the map holds for a key is the first `ENTER` of the
key that did not return `NULL` (`firstEnter`).
-/

namespace Vlibc.Search

open HashTable List Option

variable {S : Strings} {g g' g₀ : HashTable} {n i : ℕ} {item : Entry} {action : Action} {k : CStr}

/-- A call of `hsearch`. -/
structure Lookup where
  item : Entry
  action : Action
  deriving DecidableEq

/-- The calls made so far, each with what it returned, and the table. -/
abbrev Session : Type := List (Lookup × Option ℕ) × HashTable

/-- One call. -/
def Session.call (S : Strings) (s : Session) (c : Lookup) : Session :=
  (s.1 ++ [(c, (hsearch S s.2 c.item c.action).1)], (hsearch S s.2 c.item c.action).2)

/-- A sequence of calls. -/
def session (S : Strings) (g : HashTable) (calls : List Lookup) : Session :=
  calls.foldl (Session.call S) ([], g)

theorem session_concat (calls : List Lookup) (c : Lookup) :
    session S g (calls ++ [c]) = (session S g calls).call S c := by
  rw [session, foldl_append]
  rfl

theorem map_fst_session (calls : List Lookup) : (session S g calls).1.map Prod.fst = calls := by
  induction calls using List.reverseRecOn with
  | nil => rfl
  | append_singleton calls c ih =>
    rw [session_concat, Session.call, map_append, ih]
    rfl

variable {c : Lookup × Option ℕ}

theorem fst_mem_of_mem_session {calls : List Lookup}
    (h : c ∈ (session S g calls).1) : c.1 ∈ calls := by
  have hmem := List.mem_map_of_mem (f := Prod.fst) h
  rwa [map_fst_session] at hmem

/-- Whether a call entered a key equal to `k` and did not return `NULL`. -/
def Entered (S : Strings) (k : CStr) (c : Lookup × Option ℕ) : Bool :=
  c.1.action = .enter ∧ c.2.isSome ∧ S.str c.1.item.key = k

/-- The first successful `ENTER` of a key equal to `k`. -/
def firstEnter (S : Strings) (done : List (Lookup × Option ℕ)) (k : CStr) :
    Option (Lookup × Option ℕ) :=
  done.find? (Entered S k)

/-- The table holds what the calls entered first, in the slots that they returned. -/
structure Reflects (S : Strings) (n : ℕ) (s : Session) : Prop where
  sound : Sound S n s.2
  holds : ∀ k c r, firstEnter S s.1 k = some (c, r) →
    ∃ i, r = some i ∧ s.2.held S i = some k ∧ s.2.entry i = c.item
  only : ∀ i k, s.2.held S i = some k → (firstEnter S s.1 k).isSome

variable {s : Session} {done : List (Lookup × Option ℕ)}

theorem firstEnter_concat_of_isSome (c : Lookup × Option ℕ)
    (h : (firstEnter S done k).isSome) : firstEnter S (done ++ [c]) k = firstEnter S done k := by
  rw [firstEnter, find?_append]
  exact or_of_isSome h

theorem firstEnter_concat_of_none (c : Lookup × Option ℕ)
    (h : firstEnter S done k = none) :
    firstEnter S (done ++ [c]) k = if Entered S k c then some c else none := by
  rw [firstEnter, find?_append, show done.find? (Entered S k) = none from h]
  cases hc : Entered S k c <;> simp [hc]

theorem firstEnter_concat_of_not
    (h : Entered S k c = false) : firstEnter S (done ++ [c]) k = firstEnter S done k := by
  rw [firstEnter, find?_append]
  simp [firstEnter, h]

namespace Reflects

theorem start (hs : Sound S n g) (h0 : ∀ i, g.held S i = none) : Reflects S n ([], g) where
  sound := hs
  holds k c r h := by simp [firstEnter] at h
  only i k h := by simp [h0] at h

theorem not_held (hr : Reflects S n s) (h : firstEnter S s.1 k = none) (i : ℕ) :
    s.2.held S i ≠ some k := by
  intro hi
  have hsome := hr.only i k hi
  simp [h] at hsome

theorem eq_none (hr : Reflects S n s) (h : ∀ i, s.2.held S i ≠ some k) :
    firstEnter S s.1 k = none := by
  by_contra hne
  obtain ⟨⟨c, r⟩, hc⟩ := ne_none_iff_exists'.1 hne
  obtain ⟨i, -, hi, -⟩ := hr.holds k c r hc
  exact h i hi

/-- A call that leaves the table as it is, and is not the first to enter its key. -/
theorem unchanged (hr : Reflects S n s) (c : Lookup) (r : Option ℕ)
    (h : Entered S (S.str c.item.key) (c, r) → (firstEnter S s.1 (S.str c.item.key)).isSome) :
    Reflects S n (s.1 ++ [(c, r)], s.2) := by
  have hfirst : ∀ k, firstEnter S (s.1 ++ [(c, r)]) k = firstEnter S s.1 k := by
    intro k
    cases he : Entered S k (c, r) with
    | false => exact firstEnter_concat_of_not he
    | true =>
      obtain rfl : S.str c.item.key = k := (of_decide_eq_true he).2.2
      exact firstEnter_concat_of_isSome _ (h he)
  exact ⟨hr.sound, fun k c' r' => hfirst k ▸ hr.holds k c' r', fun i k => hfirst k ▸ hr.only i k⟩

theorem entered (hr : Reflects S n s)
    (hv : follow (s.2.held S) (S.str item.key) (probes n (S.str item.key)) = .vacant i)
    (hnone : firstEnter S s.1 (S.str item.key) = none) :
    Reflects S n (s.1 ++ [(⟨item, .enter⟩, some i)], s.2.put i item) := by
  have hcr := hr.sound.created
  refine ⟨hr.sound.put hv, fun k c r h => ?_, fun j k h => ?_⟩
  · by_cases hk : k = S.str item.key
    · subst hk
      rw [firstEnter_concat_of_none _ hnone, if_pos (by simp [Entered])] at h
      cases h
      exact ⟨i, rfl, by simp [held_put S hcr], by simp [entry_put hcr]⟩
    · rw [firstEnter_concat_of_not (by simpa [Entered] using Ne.symm hk)] at h
      obtain ⟨j, rfl, hj, he⟩ := hr.holds k c r h
      have hji : j ≠ i := fun e => by simp [e, (vacant_spec hv).2] at hj
      exact ⟨j, rfl, by simp [held_put S hcr, hji, hj], by simp [entry_put hcr, hji, he]⟩
  · by_cases hk : k = S.str item.key
    · subst hk
      rw [firstEnter_concat_of_none _ hnone, if_pos (by simp [Entered])]
      rfl
    · rw [firstEnter_concat_of_not (by simpa [Entered] using Ne.symm hk)]
      rw [held_put S hcr] at h
      by_cases hji : j = i
      · subst hji
        rw [Function.update_self] at h
        exact absurd (some.inj h).symm hk
      · exact hr.only j k (by rwa [Function.update_of_ne hji] at h)

/-- **One call** keeps the table and the calls in step. -/
theorem call (hr : Reflects S n s) (c : Lookup) : Reflects S n (s.call S c) := by
  unfold Session.call
  by_cases hkey : c.item.key = 0
  · have he : hsearch S s.2 c.item c.action = (none, s.2) := by simp [hsearch, hkey]
    rw [he]
    exact hr.unchanged c none fun h => by simp [Entered] at h
  obtain ⟨i, hi, e⟩ | ⟨i, hv, e⟩ | ⟨-, e⟩ := hr.sound.hsearch_cases hkey c.action
  · rw [e]
    exact hr.unchanged c _ fun _ => hr.only i _ hi
  · rw [e]
    have hnone := hr.eq_none (hr.sound.held_ne (k := S.str c.item.key) fun j => by simp [hv])
    by_cases ha : c.action = .enter
    · rw [if_pos ha, show c = ⟨c.item, .enter⟩ by rw [← ha]]
      exact hr.entered hv hnone
    · rw [if_neg ha]
      exact hr.unchanged c none fun h => by simp [Entered] at h
  · rw [e]
    exact hr.unchanged c none fun h => by simp [Entered] at h

theorem of_hcreate {mem : Bool × Bool} (hcreated : hcreate g n mem = (1, g₀))
    (calls : List Lookup) : Reflects S n (session S g₀ calls) := by
  induction calls using List.reverseRecOn with
  | nil =>
    refine start (.of_hcreate hcreated) fun i => ?_
    obtain ⟨-, rfl⟩ := hcreate_eq_one hcreated
    rfl
  | append_singleton calls c ih =>
    rw [session_concat]
    exact ih.call c

/-! ## What a call returns -/

theorem hsearch_of_some (hr : Reflects S n s) (hkey : item.key ≠ 0) {c : Lookup} {r : Option ℕ}
    (h : firstEnter S s.1 (S.str item.key) = some (c, r)) (action : Action) :
    hsearch S s.2 item action = (r, s.2) ∧ r.map s.2.entry = some c.item := by
  obtain ⟨i, rfl, hi, he⟩ := hr.holds _ c r h
  obtain ⟨j, hj, e⟩ | ⟨j, hv, -⟩ | ⟨hv, -⟩ := hr.sound.hsearch_cases hkey action
  · obtain rfl := hr.sound.findable.unique hi hj
    exact ⟨e, congrArg some he⟩
  · simp [hr.sound.findable i _ hi] at hv
  · simp [hr.sound.findable i _ hi] at hv

theorem find_of_none (hr : Reflects S n s) (hkey : item.key ≠ 0)
    (h : firstEnter S s.1 (S.str item.key) = none) :
    hsearch S s.2 item .find = (none, s.2) := by
  obtain ⟨j, hj, -⟩ | ⟨j, -, e⟩ | ⟨-, e⟩ := hr.sound.hsearch_cases hkey .find
  · exact absurd hj (hr.not_held h j)
  · exact e
  · exact e

theorem find_eq (hr : Reflects S n s) (hkey : item.key ≠ 0) :
    hsearch S s.2 item .find = ((firstEnter S s.1 (S.str item.key)).bind Prod.snd, s.2) ∧
      ((hsearch S s.2 item .find).1.map s.2.entry) =
        (firstEnter S s.1 (S.str item.key)).map fun c => c.1.item := by
  cases h : firstEnter S s.1 (S.str item.key) with
  | none => simp [hr.find_of_none hkey h]
  | some c =>
    obtain ⟨e, he⟩ := hr.hsearch_of_some hkey h .find
    rw [e]
    exact ⟨rfl, he⟩

theorem put_of_enter (hr : Reflects S n s) (hkey : item.key ≠ 0)
    (h : firstEnter S s.1 (S.str item.key) = none)
    (he : hsearch S s.2 item .enter = (some i, g')) :
    g' = s.2.put i item ∧ s.2.held S i = none := by
  obtain ⟨j, hj, -⟩ | ⟨j, hv, e⟩ | ⟨-, e⟩ := hr.sound.hsearch_cases hkey .enter
  · exact absurd hj (hr.not_held h j)
  · rw [e] at he
    cases he
    exact ⟨rfl, (vacant_spec hv).2⟩
  · rw [e] at he
    cases he

end Reflects

/-- **The table refines a map in which nothing is replaced.** After any sequence of calls on a new
table: `FIND` returns the slot that the first successful `ENTER` of an equal key returned, which
holds the item of that call, and `NULL` if there was none; `ENTER` of a key that is present returns
the same and changes nothing; a successful `ENTER` of a new key stores it and leaves every other key
where it is, with its entry; and `items` is the number of used slots, which all are in the table. -/
theorem hsearch_refines (S : Strings) (g g₀ : HashTable) (n : ℕ) (mem : Bool × Bool)
    (hcreated : hcreate g n mem = (1, g₀)) (calls : List Lookup) :
    (∀ item : Entry, item.key ≠ 0 →
      hsearch S (session S g₀ calls).2 item .find =
          ((firstEnter S (session S g₀ calls).1 (S.str item.key)).bind Prod.snd,
            (session S g₀ calls).2) ∧
        (hsearch S (session S g₀ calls).2 item .find).1.map (session S g₀ calls).2.entry =
          (firstEnter S (session S g₀ calls).1 (S.str item.key)).map fun c => c.1.item) ∧
    (∀ item : Entry, item.key ≠ 0 → ∀ c r,
      firstEnter S (session S g₀ calls).1 (S.str item.key) = some (c, r) →
        hsearch S (session S g₀ calls).2 item .enter = (r, (session S g₀ calls).2) ∧
        r.map (session S g₀ calls).2.entry = some c.item) ∧
    (∀ item : Entry, item.key ≠ 0 →
      firstEnter S (session S g₀ calls).1 (S.str item.key) = none → ∀ i g',
        hsearch S (session S g₀ calls).2 item .enter = (some i, g') →
          g'.entry i = item ∧
          ∀ other : Entry, other.key ≠ 0 → S.str other.key ≠ S.str item.key →
            (hsearch S g' other .find).1 = (hsearch S (session S g₀ calls).2 other .find).1 ∧
            (hsearch S g' other .find).1.map g'.entry =
              (hsearch S (session S g₀ calls).2 other .find).1.map
                (session S g₀ calls).2.entry) ∧
    (session S g₀ calls).2.items =
      (Finset.filter (fun i => (session S g₀ calls).2.used i) (Finset.range n)).card ∧
    (∀ i, (session S g₀ calls).2.used i → i < n) ∧
    (session S g₀ calls).2.items ≤ n := by
  have hr := Reflects.of_hcreate (S := S) hcreated calls
  refine ⟨fun item hkey => hr.find_eq hkey, fun item hkey c r h => hr.hsearch_of_some hkey h .enter,
    fun item hkey hnone i g' he => ?_, hr.sound.count, hr.sound.lt, hr.sound.items_le⟩
  obtain ⟨rfl, -⟩ := hr.put_of_enter hkey hnone he
  refine ⟨by simp [entry_put hr.sound.created], fun other hother hne => ?_⟩
  -- the session with the new call answers for the other key as the session before it
  have hnext := hr.call ⟨item, .enter⟩
  rw [Session.call, he] at hnext
  have hsame : firstEnter S ((session S g₀ calls).1 ++ [(⟨item, .enter⟩, some i)])
      (S.str other.key) = firstEnter S (session S g₀ calls).1 (S.str other.key) :=
    firstEnter_concat_of_not (by simpa [Entered] using hne.symm)
  have h1 := hr.find_eq hother
  have h2 := hnext.find_eq hother
  rw [hsame] at h2
  exact ⟨(congrArg Prod.fst h2.1).trans (congrArg Prod.fst h1.1).symm, h2.2.trans h1.2.symm⟩

/-- `a` stands at two addresses; an entry of the second copy is the entry of the first. -/
def twoCopies : Strings where
  str a := if a = 1 ∨ a = 2 then str "a" else str ""
  fits a := by split <;> decide

theorem hsearch_refines_twoCopies :
    (hcreate .initial 2 (true, true)).1 = 1 ∧
    ((hsearch twoCopies (session twoCopies (hcreate .initial 2 (true, true)).2
        [⟨⟨1, 10⟩, .enter⟩, ⟨⟨2, 20⟩, .enter⟩]).2 ⟨2, 0⟩ .find).1.map
      (session twoCopies (hcreate .initial 2 (true, true)).2
        [⟨⟨1, 10⟩, .enter⟩, ⟨⟨2, 20⟩, .enter⟩]).2.entry) = some ⟨1, 10⟩ :=
  ⟨rfl, ((hsearch_refines twoCopies .initial _ 2 (true, true) rfl
    [⟨⟨1, 10⟩, .enter⟩, ⟨⟨2, 20⟩, .enter⟩]).1 ⟨2, 0⟩ (by decide)).2.trans (by decide)⟩

end Vlibc.Search
