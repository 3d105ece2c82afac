import Vlibc.Foundations.Positional
import Vlibc.Search.HashRuns

/-!
# How many keys a table takes

The sum of the hash and the number of the probe is taken modulo `2 ^ 64` first. If the size of the
table divides `2 ^ 64` the probes of every key visit every slot, so that a table of size `n` takes
any `n` keys. Otherwise it does not: every number below `2 ^ 64` is the hash of some key
(`exists_hashStr_eq`), and the probes of a key with the hash `2 ^ 64 - 1` wrap around after the
first one and never reach the last slot (`capacity_iff`).
-/

namespace Vlibc.Search

open HashTable List Nat

theorem toNat_hash_step (h : UInt64) (c : UInt8) :
    (((h <<< 5) + h) + c.toUInt64).toNat = (h.toNat * 33 + c.toNat) % 2 ^ 64 := by
  have h5 : (5 : UInt64).toNat = 5 := rfl
  simp only [UInt64.toNat_add, UInt64.toNat_shiftLeft, UInt8.toNat_toUInt64, h5, shiftLeft_eq,
    Nat.reduceMod, Nat.reducePow]
  omega

theorem toNat_hashStr (s : CStr) :
    (hashStr s).toNat = horner 33 5381 (s.bytes.map UInt8.toNat) % 2 ^ 64 := by
  have hfold : ∀ (bs : List UInt8) (h : UInt64),
      (bs.foldl (fun (h : UInt64) c => ((h <<< 5) + h) + c.toUInt64) h).toNat =
        horner 33 h.toNat (bs.map UInt8.toNat) % 2 ^ 64 := by
    intro bs
    induction bs with
    | nil =>
      intro h
      exact (mod_eq_of_lt h.toNat_lt).symm
    | cons c bs ih =>
      intro h
      rw [foldl_cons, ih, toNat_hash_step, map_cons, horner_cons]
      exact horner_modEq (mod_modEq _ _) 33 _
  exact hfold s.bytes 5381

/-- Bytes from 1 on, as many as wanted, that raise the value by any `d` that is not too large. -/
theorem exists_horner_eq_add (v len d : ℕ) (hd : d < 33 ^ len) :
    ∃ bs : List UInt8, bs.length = len ∧ 0 ∉ bs ∧
      horner 33 v (bs.map UInt8.toNat) = horner 33 v (List.replicate len 1) + d := by
  induction len generalizing d with
  | zero =>
    obtain rfl : d = 0 := by simpa using hd
    exact ⟨[], rfl, not_mem_nil, rfl⟩
  | succ len ih =>
    have hdiv : d / 33 < 33 ^ len := Nat.div_lt_of_lt_mul (by rwa [pow_succ, mul_comm] at hd)
    obtain ⟨bs, hlen, hnul, hval⟩ := ih (d / 33) hdiv
    have hdigit : (UInt8.ofNat (d % 33 + 1)).toNat = d % 33 + 1 := by
      rw [UInt8.toNat_ofNat']
      omega
    refine ⟨bs ++ [UInt8.ofNat (d % 33 + 1)], by simp [hlen], ?_, ?_⟩
    · have hne : UInt8.ofNat (d % 33 + 1) ≠ 0 := fun h => by
        have := congrArg UInt8.toNat h
        rw [hdigit] at this
        simp at this
      simpa [hnul] using hne.symm
    · rw [map_append, horner_append, hval, replicate_succ', horner_append]
      simp only [map_cons, map_nil, horner_cons, horner_nil, hdigit]
      omega

theorem exists_hashStr_eq (h : UInt64) : ∃ k : CStr, k.bytes.length = 13 ∧ hashStr k = h := by
  -- 33 ^ 13 is larger than 2 ^ 64, so thirteen bytes reach every remainder
  let base := horner 33 5381 (List.replicate 13 1)
  let d := (h.toNat + 2 ^ 64 - base % 2 ^ 64) % 2 ^ 64
  have hd : d < 33 ^ 13 := (mod_lt _ (by norm_num)).trans (by norm_num)
  obtain ⟨bs, hlen, hnul, hval⟩ := exists_horner_eq_add 5381 13 d hd
  refine ⟨⟨bs, hnul⟩, hlen, UInt64.toNat_inj.1 ?_⟩
  have hh := h.toNat_lt
  have hbase : base % 2 ^ 64 < 2 ^ 64 := mod_lt _ (by norm_num)
  rw [toNat_hashStr, hval, add_mod]
  omega

theorem idx_eq (n : ℕ) (h : UInt64) (i : ℕ) : idx n h i = (h.toNat + i) % 2 ^ 64 % n := by
  rw [idx, UInt64.toNat_add, UInt64.toNat_ofNat', add_mod_mod]

theorem mem_probes_of_dvd {n i : ℕ} (hn : n ∣ 2 ^ 64) (hi : i < n) (k : CStr) :
    i ∈ probes n k := by
  have hpos : 0 < n := zero_lt_of_lt hi
  refine mem_map.2 ⟨(i + n - (hashStr k).toNat % n) % n, mem_range.2 (mod_lt _ hpos), ?_⟩
  have hlt : (hashStr k).toNat % n < n := mod_lt _ hpos
  rw [idx_eq, mod_mod_of_dvd _ hn, add_mod_mod, ← mod_add_mod,
    show (hashStr k).toNat % n + (i + n - (hashStr k).toNat % n) = i + n by omega,
    add_mod_right, mod_eq_of_lt hi]

theorem lt_of_mem_probes_of_not_dvd {n i : ℕ} (hn : ¬ n ∣ 2 ^ 64) (hle : n ≤ 2 ^ 60) {k : CStr}
    (hk : (hashStr k).toNat = 2 ^ 64 - 1) (hi : i ∈ probes n k) : i < n - 1 := by
  obtain ⟨j, hj, rfl⟩ := mem_map.1 hi
  have hj := mem_range.1 hj
  rw [idx_eq, hk]
  cases j with
  | zero =>
    have hlt : (2 ^ 64 - 1 + 0) % 2 ^ 64 % n < n := mod_lt _ (by omega)
    have hdvd : (2 ^ 64 - 1 + 0) % 2 ^ 64 % n ≠ n - 1 := fun h => hn <| by
      rw [dvd_iff_mod_eq_zero, show 2 ^ 64 = (2 ^ 64 - 1 + 0) % 2 ^ 64 + 1 by norm_num, add_mod, h]
      rcases Nat.lt_or_ge 1 n with h1 | h1
      · rw [mod_eq_of_lt h1, Nat.sub_add_cancel h1.le, mod_self]
      · rw [show n = 1 by omega]
    omega
  | succ j =>
    rw [show 2 ^ 64 - 1 + (j + 1) = 2 ^ 64 + j by omega, add_mod_left,
      mod_eq_of_lt (show j < 2 ^ 64 by omega), mod_eq_of_lt (show j < n by omega)]
    omega

/-! ## Entering keys -/

variable {S : Strings} {g g₀ : HashTable} {n : ℕ} {mem : Bool × Bool}

/-- Items are entered one after the other. -/
def enterAll (S : Strings) (g : HashTable) (items : List Entry) : Session :=
  session S g (items.map fun e => ⟨e, .enter⟩)

theorem enterAll_concat (items : List Entry) (e : Entry) :
    enterAll S g (items ++ [e]) = (enterAll S g items).call S ⟨e, .enter⟩ := by
  rw [enterAll, map_append]
  exact session_concat _ _

theorem reflects_enterAll (hcreated : hcreate g n mem = (1, g₀)) (items : List Entry) :
    Reflects S n (enterAll S g₀ items) :=
  Reflects.of_hcreate hcreated _

theorem items_enterAll_le (hcreated : hcreate g n mem = (1, g₀)) {items : List Entry}
    (hkeys : ∀ e ∈ items, e.key ≠ 0) : (enterAll S g₀ items).2.items ≤ items.length := by
  induction items using List.reverseRecOn with
  | nil =>
    obtain ⟨-, rfl⟩ := hcreate_eq_one hcreated
    exact le_refl 0
  | append_singleton items e ih =>
    have ih := ih fun e he => hkeys e (mem_append_left _ he)
    have hkey : e.key ≠ 0 := hkeys e (by simp)
    rw [enterAll_concat, Session.call, length_append, length_singleton]
    obtain ⟨i, -, h⟩ | ⟨i, -, h⟩ | ⟨-, h⟩ :=
      (reflects_enterAll (S := S) hcreated items).sound.hsearch_cases hkey .enter
    · rw [h]
      exact le_succ_of_le ih
    · rw [h]
      exact succ_le_succ ih
    · rw [h]
      exact le_succ_of_le ih

theorem enterAll_ne_none (hcreated : hcreate g n mem = (1, g₀)) (hn : n ∣ 2 ^ 64)
    {items : List Entry} (hkeys : ∀ e ∈ items, e.key ≠ 0) (hlen : items.length ≤ n) :
    ∀ c ∈ (enterAll S g₀ items).1, c.2 ≠ none := by
  induction items using List.reverseRecOn with
  | nil => exact fun c hc => absurd hc not_mem_nil
  | append_singleton items e ih =>
    have hkey : e.key ≠ 0 := hkeys e (by simp)
    have hkeys' : ∀ e ∈ items, e.key ≠ 0 := fun e he => hkeys e (mem_append_left _ he)
    rw [length_append, length_singleton] at hlen
    have hr := reflects_enterAll (S := S) hcreated items
    rw [enterAll_concat, Session.call]
    intro c hc
    obtain hc | hc := mem_append.1 hc
    · exact ih hkeys' (by omega) c hc
    · obtain rfl := mem_singleton.1 hc
      obtain ⟨i, -, h⟩ | ⟨i, -, h⟩ | ⟨hspent, -⟩ := hr.sound.hsearch_cases hkey .enter
      · simp [h]
      · simp [h]
      · -- all slots are used, by fewer than `n` calls
        have hfull : ∀ i ∈ Finset.range n, (enterAll S g₀ items).2.used i := by
          intro i hi
          obtain ⟨k', hk', -⟩ := follow_eq_spent_iff.1 hspent i
            (mem_probes_of_dvd hn (Finset.mem_range.1 hi) _)
          exact ((held_eq_some_iff S).1 hk').1
        have hcount := hr.sound.count
        rw [Finset.filter_true_of_mem hfull, Finset.card_range] at hcount
        have := items_enterAll_le (S := S) hcreated hkeys'
        omega

/-! ## Filling all but the last slot -/

/-- The hashes of the keys that leave no way to the last slot: each of the first `n - 1` is its
slot. -/
def crowd (n j : ℕ) : UInt64 := if j + 1 = n then UInt64.ofNat (2 ^ 64 - 1) else UInt64.ofNat j

theorem crowd_injOn (hle : n ≤ 2 ^ 60) {i j : ℕ} (hi : i < n) (hj : j < n)
    (h : crowd n i = crowd n j) : i = j := by
  unfold crowd at h
  have h := congrArg UInt64.toNat h
  split_ifs at h <;> simp only [UInt64.toNat_ofNat'] at h <;> omega

theorem exists_crowd (n : ℕ) : ∃ S : Strings, ∀ j, hashStr (S.str (j + 1)) = crowd n j := by
  choose key hlen hkey using fun j => exists_hashStr_eq (crowd n j)
  refine ⟨⟨fun a => key (a - 1), fun a => ?_⟩, hkey⟩
  rw [hlen]
  norm_num

/-- Items whose keys are at `1` to `m`. -/
def crowdItems (m : ℕ) : List Entry := (List.range m).map fun j => ⟨j + 1, 0⟩

theorem crowdItems_succ (m : ℕ) : crowdItems (m + 1) = crowdItems m ++ [⟨m + 1, 0⟩] := by
  rw [crowdItems, List.range_succ, map_append]
  rfl

theorem used_enterAll_crowdItems (hcreated : hcreate g n mem = (1, g₀)) (hle : n ≤ 2 ^ 60)
    (hS : ∀ j, hashStr (S.str (j + 1)) = crowd n j) {m : ℕ} (hm : m < n) :
    ∀ i, (enterAll S g₀ (crowdItems m)).2.used i = decide (i < m) := by
  induction m with
  | zero =>
    obtain ⟨-, rfl⟩ := hcreate_eq_one hcreated
    intro i
    rfl
  | succ m ih =>
    have ih := ih (by omega)
    have hr := reflects_enterAll (S := S) hcreated (crowdItems m)
    have hfirst : idx n (hashStr (S.str (m + 1))) 0 = m := by
      rw [idx_eq, hS, crowd, if_neg (by omega), UInt64.toNat_ofNat']
      rw [mod_eq_of_lt (show m < 2 ^ 64 by omega), add_zero,
        mod_eq_of_lt (show m < 2 ^ 64 by omega), mod_eq_of_lt (show m < n by omega)]
    have hv : follow ((enterAll S g₀ (crowdItems m)).2.held S) (S.str (m + 1))
        (probes n (S.str (m + 1))) = .vacant m := by
      have hfree : (enterAll S g₀ (crowdItems m)).2.used m = false := by simp [ih]
      obtain ⟨n, rfl⟩ := Nat.exists_eq_add_of_lt hm
      rw [probes, range_succ_eq_map, map_cons, hfirst]
      exact follow_cons_none ((held_eq_none_iff S).2 hfree)
    rw [crowdItems_succ, enterAll_concat, Session.call]
    obtain ⟨i, hi, -⟩ | ⟨i, hv', h⟩ | ⟨hv', -⟩ :=
      hr.sound.hsearch_cases (show (⟨m + 1, 0⟩ : Entry).key ≠ 0 from succ_ne_zero m) .enter
    · simp [hr.sound.findable i _ hi] at hv
    · rw [hv] at hv'
      cases hv'
      rw [h]
      intro j
      by_cases hj : j = m
      · simp [hj]
      · simp [hj, ih]
        omega
    · rw [hv] at hv'
      cases hv'

theorem hsearch_crowd_eq_none (hcreated : hcreate g n mem = (1, g₀)) (hn : ¬ n ∣ 2 ^ 64)
    (hle : n ≤ 2 ^ 60) (hS : ∀ j, hashStr (S.str (j + 1)) = crowd n j) {m : ℕ} (hm : n = m + 1) :
    (hsearch S (enterAll S g₀ (crowdItems m)).2 ⟨m + 1, 0⟩ .enter).1 = none := by
  have hr := reflects_enterAll (S := S) hcreated (crowdItems m)
  have hused := used_enterAll_crowdItems (S := S) hcreated hle hS (show m < n by omega)
  have hlast : (hashStr (S.str (m + 1))).toNat = 2 ^ 64 - 1 := by
    rw [hS, crowd, if_pos hm.symm, UInt64.toNat_ofNat']
    norm_num
  have hnew : firstEnter S (enterAll S g₀ (crowdItems m)).1 (S.str (m + 1)) = none := by
    refine find?_eq_none.2 fun c hc he => ?_
    obtain ⟨e, he', hce⟩ := mem_map.1 (fst_mem_of_mem_session hc)
    obtain ⟨j, hj, rfl⟩ := mem_map.1 he'
    have hj := mem_range.1 hj
    obtain ⟨-, -, hkey⟩ := of_decide_eq_true he
    rw [← hce] at hkey
    have hsame : crowd n j = crowd n m := by rw [← hS, ← hS, hkey]
    have := crowd_injOn hle (show j < n by omega) (show m < n by omega) hsame
    omega
  obtain ⟨i, hi, -⟩ | ⟨i, hv, -⟩ | ⟨-, h⟩ :=
    hr.sound.hsearch_cases (show (⟨m + 1, 0⟩ : Entry).key ≠ 0 from succ_ne_zero m) .enter
  · exact absurd hi (hr.not_held hnew i)
  · have hi := lt_of_mem_probes_of_not_dvd hn hle hlast (vacant_spec hv).1
    have hfree := (held_eq_none_iff S).1 (vacant_spec hv).2
    rw [hused] at hfree
    simp at hfree
    omega
  · rw [h]

theorem nodup_crowdItems (hle : n ≤ 2 ^ 60) (hS : ∀ j, hashStr (S.str (j + 1)) = crowd n j) :
    ((crowdItems n).map fun e => S.str e.key).Nodup := by
  rw [crowdItems, map_map]
  refine Nodup.map_on (fun i hi j hj h => ?_) nodup_range
  have hsame : crowd n i = crowd n j := by
    rw [← hS, ← hS]
    exact congrArg hashStr h
  exact crowd_injOn hle (mem_range.1 hi) (mem_range.1 hj) hsame

/-- **How many keys a table takes**: a table of size `n` takes every sequence of `n` distinct keys
exactly if `n` divides `2 ^ 64`. -/
theorem capacity_iff (g g₀ : HashTable) (n : ℕ) (mem : Bool × Bool) (hpos : 1 ≤ n)
    (hcreated : hcreate g n mem = (1, g₀)) :
    (∀ (S : Strings) (items : List Entry), items.length = n → (∀ e ∈ items, e.key ≠ 0) →
      (items.map fun e => S.str e.key).Nodup →
        ∀ c ∈ (session S g₀ (items.map fun e => ⟨e, .enter⟩)).1, c.2 ≠ none) ↔ n ∣ 2 ^ 64 := by
  constructor
  · intro h
    by_contra hn
    have hle : n ≤ 2 ^ 60 := (hcreate_eq_one hcreated).1.trans (by decide)
    obtain ⟨S, hS⟩ := exists_crowd n
    obtain ⟨m, hm⟩ : ∃ m, n = m + 1 := ⟨n - 1, by omega⟩
    have hnone := hsearch_crowd_eq_none hcreated hn hle hS hm
    have hmem : (⟨⟨m + 1, 0⟩, .enter⟩, none) ∈ (enterAll S g₀ (crowdItems n)).1 := by
      rw [hm, crowdItems_succ, enterAll_concat, Session.call, hnone]
      exact mem_append_right _ (mem_singleton_self _)
    refine h S (crowdItems n) (by simp [crowdItems]) (fun e he => ?_) (nodup_crowdItems hle hS)
      _ hmem rfl
    obtain ⟨j, -, rfl⟩ := mem_map.1 he
    exact succ_ne_zero j
  · intro hn S items hlen hkeys _
    exact enterAll_ne_none hcreated hn hkeys hlen.le

theorem capacity_iff_three :
    (hcreate .initial 3 (true, true)).1 = 1 ∧
    ¬ ∀ (S : Strings) (items : List Entry), items.length = 3 → (∀ e ∈ items, e.key ≠ 0) →
      (items.map fun e => S.str e.key).Nodup →
        ∀ c ∈ (session S (hcreate .initial 3 (true, true)).2
          (items.map fun e => ⟨e, .enter⟩)).1, c.2 ≠ none :=
  ⟨rfl, fun h => absurd ((capacity_iff .initial _ 3 (true, true) (by decide) rfl).1 h) (by decide)⟩

/-- Three keys; the hash of the third is `2 ^ 64 - 1`. -/
def threeKeys : Strings where
  str
    | 1 => str "c"
    | 2 => str "a"
    | 3 => str "002MOOEEGBU>W"
    | _ => str ""
  fits a := by
    split <;> decide

/-- In a table of size 3 they get the slots 0 and 1, and none: slot 2 is free, but its probes are
the slots 0, 0 and 1. -/
theorem third_key_refused :
    (hcreate .initial 3 (true, true)).1 = 1 ∧
    ([1, 2, 3].map threeKeys.str).Nodup ∧
    ((session threeKeys (hcreate .initial 3 (true, true)).2
      [⟨⟨1, 0⟩, .enter⟩, ⟨⟨2, 0⟩, .enter⟩, ⟨⟨3, 0⟩, .enter⟩]).1.map Prod.snd) =
        [some 0, some 1, none] ∧
    probes 3 (threeKeys.str 3) = [0, 0, 1] := by
  decide

end Vlibc.Search
