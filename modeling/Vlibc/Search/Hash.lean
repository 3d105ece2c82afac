import Mathlib.Order.Interval.Finset.Nat
import Vlibc.Foundations.Probing
import Vlibc.Memory.Malloc
import Vlibc.Strings

/-!
# `hcreate` and `hsearch`

The functions of `search_hash.c` and what one call of `hsearch` does. The callers' key strings stand
in memory and stay as they are (`Strings`), so an entry has the address of its key, as the source
does, and two keys are compared by what stands there. A pointer into the table is the index of the
slot.

`hsearch_eq` says that the loop is the search of `Foundations/Probing.lean` along the slots that the
hash of the key gives.
-/

namespace Vlibc.Search

open List Finset

open Memory (SIZE_MAX)

/-- The strings in memory by address. None is as long as the memory. -/
structure Strings where
  str : ℕ → CStr
  fits : ∀ a, (str a).bytes.length < 2 ^ 64

/-- `ENTRY`. -/
structure Entry where
  key : ℕ
  data : ℕ
  deriving DecidableEq

/-- `ACTION`. -/
inductive Action
  | find
  | enter
  deriving DecidableEq

/-- The variables of the file. The two arrays are there together, so `none` stands for `NULL` in
both `table` and `used`. -/
structure HashTable where
  table : Option (ℕ → Entry)
  used : ℕ → Bool
  tableSize : ℕ
  items : ℕ

/-- The variables before the first call. -/
def HashTable.initial : HashTable := ⟨none, fun _ => false, 0, 0⟩

/-- `hash_str`. -/
def hashStr (s : CStr) : UInt64 :=
  s.bytes.foldl (fun h c => ((h <<< 5) + h) + c.toUInt64) 5381

/-- Whether `calloc` returns memory: the product must not overflow, and `malloc` must have it. -/
def callocGrants (nmemb size : ℕ) (granted : Bool) : Bool :=
  ¬ (size ≠ 0 ∧ SIZE_MAX / size < nmemb) ∧ granted

/-- `hcreate`. An `ENTRY` has 16 bytes; `mem` is what the two calls of `malloc` find. -/
def hcreate (g : HashTable) (nel : ℕ) (mem : Bool × Bool) : ℤ × HashTable :=
  if g.table.isSome then (0, g)
  else if ¬ callocGrants nel 16 mem.1 then (0, g)
  else if ¬ callocGrants nel 1 mem.2 then (0, g)
  else (1, ⟨some fun _ => ⟨0, 0⟩, fun _ => false, nel, 0⟩)

namespace HashTable

/-- `idx` in the round `i` of the loop. -/
def idx (tableSize : ℕ) (h : UInt64) (i : ℕ) : ℕ := (h + UInt64.ofNat i).toNat % tableSize

/-- An entry of the table. -/
def entry (g : HashTable) (i : ℕ) : Entry := (g.table.getD fun _ => ⟨0, 0⟩) i

/-- `item` in the slot `i`, which is used then. -/
def put (g : HashTable) (i : ℕ) (item : Entry) : HashTable where
  table := g.table.map fun t => Function.update t i item
  used := Function.update g.used i true
  tableSize := g.tableSize
  items := g.items + 1

end HashTable

open HashTable

/-- The rounds of the loop of `hsearch` that are left. -/
def hsearchLoop (S : Strings) (g : HashTable) (item : Entry) (action : Action) (h : UInt64) :
    List ℕ → Option ℕ × HashTable
  | [] => (none, g)
  | i :: rounds =>
    let idx := idx g.tableSize h i
    if ¬ g.used idx then
      if action = .enter then
        if g.tableSize ≤ g.items then (none, g) else (some idx, g.put idx item)
      else (none, g)
    else if strcmp (S.str (g.entry idx).key) (S.str item.key) = 0 then (some idx, g)
    else hsearchLoop S g item action h rounds

/-- `hsearch`. -/
def hsearch (S : Strings) (g : HashTable) (item : Entry) (action : Action) :
    Option ℕ × HashTable :=
  if g.table.isNone ∨ item.key = 0 then (none, g)
  else hsearchLoop S g item action (hashStr (S.str item.key)) (List.range g.tableSize)

/-- The slots in which `hsearch` looks for `k`. -/
def probes (n : ℕ) (k : CStr) : List ℕ := (List.range n).map (idx n (hashStr k))

theorem lt_of_mem_probes {n i : ℕ} {k : CStr} (h : i ∈ probes n k) : i < n := by
  obtain ⟨j, hj, rfl⟩ := List.mem_map.1 h
  exact Nat.mod_lt _ (Nat.zero_lt_of_lt (List.mem_range.1 hj))

theorem Strings.strcmp_eq_zero_iff (S : Strings) (a b : ℕ) :
    strcmp (S.str a) (S.str b) = 0 ↔ S.str a = S.str b := by
  have htake : ∀ a, (S.str a).bytes.take (2 ^ 64 - 1) = (S.str a).bytes := fun a =>
    take_of_length_le (Nat.le_sub_one_of_lt (S.fits a))
  rw [strcmp, vstrncmp, vstrncmpFrom_eq_zero_iff (S.str a).noNul (S.str b).noNul, htake, htake,
    CStr.ext_iff]

namespace HashTable

variable (S : Strings) {g : HashTable} {i j n : ℕ} {item : Entry} {action : Action} {k : CStr}

/-- The key in a used slot. -/
def held (g : HashTable) (i : ℕ) : Option CStr :=
  if g.used i then some (S.str (g.entry i).key) else none

theorem held_eq_some_iff : g.held S i = some k ↔ g.used i ∧ S.str (g.entry i).key = k := by
  unfold held
  split <;> simp [*]

theorem held_eq_none_iff : g.held S i = none ↔ g.used i = false := by
  unfold held
  split <;> simp [*]

@[simp] theorem used_put : (g.put i item).used = Function.update g.used i true := rfl

@[simp] theorem items_put : (g.put i item).items = g.items + 1 := rfl

theorem entry_put (hg : g.table.isSome) : (g.put i item).entry = Function.update g.entry i item := by
  obtain ⟨t, ht⟩ := Option.isSome_iff_exists.1 hg
  have he : g.entry = t := by
    funext j
    simp [entry, ht]
  funext j
  rw [he]
  simp [entry, put, ht]

theorem held_put (hg : g.table.isSome) :
    (g.put i item).held S = Function.update (g.held S) i (some (S.str item.key)) := by
  funext j
  by_cases hj : j = i
  · subst hj
    simp [held, entry_put hg]
  · simp [held, entry_put hg, hj]

/-- What `hsearch` does at the end of its search. -/
def finish (g : HashTable) (item : Entry) (action : Action) : Stop ℕ → Option ℕ × HashTable
  | .hit i => (some i, g)
  | .vacant i =>
    if action = .enter ∧ g.items < g.tableSize then (some i, g.put i item) else (none, g)
  | .spent => (none, g)

/-- **The loop of `hsearch`** is a search along its slots. -/
theorem hsearchLoop_eq (h : UInt64) (rounds : List ℕ) :
    hsearchLoop S g item action h rounds =
      g.finish item action
        (follow (g.held S) (S.str item.key) (rounds.map (idx g.tableSize h))) := by
  induction rounds with
  | nil => rfl
  | cons i rounds ih =>
    rw [List.map_cons, hsearchLoop]
    obtain ⟨hi, e⟩ | ⟨hi, e⟩ | ⟨k, hi, hne, e⟩ := follow_cons_cases (g.held S) (S.str item.key)
      (idx g.tableSize h i) (rounds.map (idx g.tableSize h))
    · rw [e, finish, if_pos (by simp [(held_eq_none_iff S).1 hi])]
      by_cases ha : action = .enter <;> by_cases hn : g.tableSize ≤ g.items <;>
        simp [ha, hn, not_lt.2, Nat.lt_of_not_le]
    · obtain ⟨hu, hk⟩ := (held_eq_some_iff S).1 hi
      rw [e, finish, if_neg (by simp [hu]), if_pos ((S.strcmp_eq_zero_iff _ _).2 hk)]
    · obtain ⟨hu, rfl⟩ := (held_eq_some_iff S).1 hi
      rw [e, if_neg (by simp [hu]), if_neg fun h0 => hne ((S.strcmp_eq_zero_iff _ _).1 h0), ih]

theorem hsearch_eq (hg : g.table.isSome) (hkey : item.key ≠ 0) :
    hsearch S g item action =
      g.finish item action (follow (g.held S) (S.str item.key)
        (probes g.tableSize (S.str item.key))) := by
  rw [hsearch, if_neg (by simp [hkey, Option.isSome_iff_ne_none.1 hg]), hsearchLoop_eq, probes]

/-! ## The table -/

/-- The table after `hcreate` with room for `n`: every key that is in it is found, and `items`
counts the slots that are used. -/
structure Sound (n : ℕ) (g : HashTable) : Prop where
  created : g.table.isSome
  size : g.tableSize = n
  findable : Findable (probes n) (g.held S)
  lt : ∀ i, g.used i → i < n
  count : g.items = (Finset.filter (fun i => g.used i) (Finset.range n)).card

variable {S}

theorem Sound.items_le (hs : Sound S n g) : g.items ≤ n := by
  rw [hs.count]
  exact (card_filter_le _ _).trans_eq (card_range n)

theorem Sound.items_lt (hs : Sound S n g) (hi : i < n) (hu : g.used i = false) : g.items < n := by
  rw [hs.count]
  calc _ < (Finset.range n).card := card_lt_card <| filter_ssubset.2
        ⟨i, Finset.mem_range.2 hi, by simp [hu]⟩
    _ = n := card_range n

theorem hcreate_eq_one {g₀ : HashTable} {mem : Bool × Bool} (h : hcreate g n mem = (1, g₀)) :
    n ≤ SIZE_MAX / 16 ∧ g₀ = ⟨some fun _ => ⟨0, 0⟩, fun _ => false, n, 0⟩ := by
  unfold hcreate at h
  split_ifs at h with _ h16 <;> simp only [Prod.mk.injEq, zero_ne_one, false_and] at h
  refine ⟨?_, h.2.symm⟩
  simp only [callocGrants, decide_eq_true_eq, not_and, not_lt] at h16
  exact h16.1 (by decide)

theorem Sound.of_hcreate {g₀ : HashTable} {mem : Bool × Bool} (h : hcreate g n mem = (1, g₀)) :
    Sound S n g₀ := by
  obtain ⟨-, rfl⟩ := hcreate_eq_one h
  exact ⟨rfl, rfl, fun i k hk => by simp [held] at hk, fun i hi => by simp at hi, by simp⟩

theorem Sound.put (hs : Sound S n g)
    (hv : follow (g.held S) (S.str item.key) (probes n (S.str item.key)) = .vacant i) :
    Sound S n (g.put i item) where
  created := by simpa [HashTable.put] using hs.created
  size := hs.size
  findable := held_put S hs.created ▸ hs.findable.insert hv
  lt j hj := by
    by_cases hji : j = i
    · subst hji
      exact lt_of_mem_probes (vacant_spec hv).1
    · exact hs.lt j (by simpa [hji] using hj)
  count := by
    have hu : g.used i = false := (held_eq_none_iff S).1 (vacant_spec hv).2
    have hins : Finset.filter (fun j => (g.put i item).used j) (Finset.range n) =
        insert i (Finset.filter (fun j => g.used j) (Finset.range n)) := by
      ext j
      rw [mem_insert, Finset.mem_filter, Finset.mem_filter, used_put]
      by_cases hj : j = i
      · subst hj
        simpa using lt_of_mem_probes (vacant_spec hv).1
      · simp [hj]
    rw [hins, card_insert_of_notMem (by simp [hu]), items_put, hs.count]

/-- **The cases of `hsearch`**: the key is in the table and is found; or it is not, and then `ENTER`
puts it into the slot at which the search ended, if there is one. -/
theorem Sound.hsearch_cases (hs : Sound S n g) (hkey : item.key ≠ 0) (action : Action) :
    (∃ i, g.held S i = some (S.str item.key) ∧ hsearch S g item action = (some i, g)) ∨
    (∃ i, follow (g.held S) (S.str item.key) (probes n (S.str item.key)) = .vacant i ∧
      hsearch S g item action =
        if action = .enter then (some i, g.put i item) else (none, g)) ∨
    (follow (g.held S) (S.str item.key) (probes n (S.str item.key)) = .spent ∧
      hsearch S g item action = (none, g)) := by
  rw [hsearch_eq S hs.created hkey, hs.size]
  rcases hf : follow (g.held S) (S.str item.key) (probes n (S.str item.key)) with i | i | _
  · exact .inl ⟨i, held_of_hit hf, rfl⟩
  · have hi : g.items < g.tableSize :=
      hs.size ▸ hs.items_lt (lt_of_mem_probes (vacant_spec hf).1)
        ((held_eq_none_iff S).1 (vacant_spec hf).2)
    exact .inr (.inl ⟨i, rfl, by simp [finish, hi]⟩)
  · exact .inr (.inr ⟨rfl, rfl⟩)

theorem Sound.held_ne (hs : Sound S n g) (h : ∀ i, follow (g.held S) k (probes n k) ≠ .hit i)
    (i : ℕ) : g.held S i ≠ some k := fun hi => h i (hs.findable i k hi)

end HashTable

end Vlibc.Search
