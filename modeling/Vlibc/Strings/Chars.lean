import Mathlib.Data.List.GetD
import Vlibc.Strings

/-!
# Searching for one byte

`memchr` and `strchr` search forwards, `memrchr` backwards, and `strrchr` forwards for the last place.
Three of them compare bytes as `unsigned char`. `strrchr` compares a `char`, which is signed, with an
`unsigned char`: it finds no byte above 127 (`searches_agree_iff`).
-/

namespace Vlibc.Chars

open List

/-- `memchr` from place `i` on, where the bytes `s` are left. -/
def memchrFrom (ch : UInt8) (i : ℕ) : List UInt8 → Option ℕ
  | [] => none
  | b :: s => if b = ch then some i else memchrFrom ch (i + 1) s

/-- `memrchr` in the first `n` bytes. -/
def memrchrFrom (ch : UInt8) (s : List UInt8) : ℕ → Option ℕ
  | 0 => none
  | n + 1 => if s.getD n 0 = ch then some n else memrchrFrom ch s n

/-- `*s == ch`: the promoted values of a `char` and of an `unsigned char`. -/
def same (b ch : UInt8) : Bool := b.toInt8.toInt = ch.toNat

/-- `strrchr` from place `i` on; the terminator is compared too. -/
def strrchrFrom (ch : UInt8) (ret : Option ℕ) (i : ℕ) : List UInt8 → Option ℕ
  | [] => if same 0 ch then some i else ret
  | b :: s => strrchrFrom ch (if same b ch then some i else ret) (i + 1) s

/-- `memchr` in all bytes of `s`: how far behind the start. -/
def memchr (s : List UInt8) (c : ℤ) : Option ℕ := memchrFrom (.ofInt c) 0 s

/-- `memrchr` in all bytes of `s`. -/
def memrchr (s : List UInt8) (c : ℤ) : Option ℕ := memrchrFrom (.ofInt c) s s.length

/-- `strrchr`. -/
def strrchr (s : CStr) (c : ℤ) : Option ℕ := strrchrFrom (.ofInt c) none 0 s.bytes

variable {ch : UInt8} {s : List UInt8}

theorem strchrFrom_eq_memchrFrom (ch : UInt8) (i : ℕ) (s : List UInt8) :
    strchrFrom ch i s = memchrFrom ch i (s ++ [0]) := by
  induction s generalizing i with
  | nil => simp only [strchrFrom, nil_append, memchrFrom, eq_comm]
  | cons b s ih => rw [strchrFrom, cons_append, memchrFrom, ih]

theorem memchrFrom_eq_none_iff (i : ℕ) : memchrFrom ch i s = none ↔ ch ∉ s := by
  induction s generalizing i with
  | nil => exact iff_of_true rfl not_mem_nil
  | cons b s ih =>
    rw [memchrFrom, mem_cons, not_or]
    by_cases h : b = ch
    · exact iff_of_false (by rw [if_pos h]; exact Option.some_ne_none i) fun hno => hno.1 h.symm
    · rw [if_neg h, ih, and_iff_right (Ne.symm h)]

theorem memrchrFrom_eq_none_iff (n : ℕ) (hn : n ≤ s.length) :
    memrchrFrom ch s n = none ↔ ch ∉ s.take n := by
  induction n with
  | zero => exact iff_of_true rfl not_mem_nil
  | succ n ih =>
    have hget : s.getD n 0 = s[n] := getD_eq_getElem s 0 hn
    rw [memrchrFrom, take_succ_eq_append_getElem hn, mem_append, mem_singleton, not_or, hget]
    by_cases h : s[n] = ch
    · exact iff_of_false (by rw [if_pos h]; exact Option.some_ne_none n) fun hno => hno.2 h.symm
    · rw [if_neg h, ih (by omega), and_iff_left (Ne.symm h)]

theorem same_iff (b : UInt8) : same b ch ↔ b = ch ∧ ch < 128 := by
  have hsigned : b.toInt8.toInt = if 2 * b.toNat < 256 then (b.toNat : ℤ) else b.toNat - 256 :=
    BitVec.toInt_eq_toNat_cond b.toBitVec
  have hb := b.toNat_lt
  rw [same, decide_eq_true_iff, hsigned, ← UInt8.toNat_inj, UInt8.lt_iff_toNat_lt,
    show (128 : UInt8).toNat = 128 from rfl]
  split_ifs <;> omega

theorem strrchrFrom_eq (hch : ch < 128) (before s : List UInt8) :
    strrchrFrom ch (memrchrFrom ch (before ++ (s ++ [0])) before.length) before.length s =
      memrchrFrom ch (before ++ (s ++ [0])) (before.length + s.length + 1) := by
  induction s generalizing before with
  | nil =>
    rw [strrchrFrom, memrchrFrom]
    simp [same_iff, hch]
  | cons b s ih =>
    have hstep : memrchrFrom ch (before ++ (b :: s ++ [0])) (before.length + 1) =
        if b = ch then some before.length
        else memrchrFrom ch (before ++ (b :: s ++ [0])) before.length := by
      rw [memrchrFrom]
      simp
    have hnext := ih (before ++ [b])
    rw [append_assoc, length_append, length_singleton] at hnext
    simp only [strrchrFrom, same_iff, hch, and_true]
    rw [← hstep, length_cons, add_comm s.length, ← add_assoc]
    exact hnext

theorem strrchrFrom_eq_none (hch : ¬ ch < 128) (i : ℕ) (s : List UInt8) :
    strrchrFrom ch none i s = none := by
  induction s generalizing i with
  | nil => rw [strrchrFrom, if_neg fun h => hch ((same_iff 0).1 h).2]
  | cons b s ih => rw [strrchrFrom, if_neg fun h => hch ((same_iff b).1 h).2, ih]

theorem strchr_eq_memchr (s : CStr) (c : ℤ) :
    strchr s (.ofInt c) = memchr (s.bytes ++ [0]) c :=
  strchrFrom_eq_memchrFrom _ 0 s.bytes

theorem strchr_eq_none_iff_not_mem (s : CStr) (c : ℤ) :
    strchr s (.ofInt c) = none ↔ UInt8.ofInt c ∉ s.bytes ++ [0] := by
  rw [strchr_eq_memchr, memchr, memchrFrom_eq_none_iff]

theorem memrchr_eq_none_iff (s : List UInt8) (c : ℤ) : memrchr s c = none ↔ UInt8.ofInt c ∉ s := by
  rw [memrchr, memrchrFrom_eq_none_iff s.length le_rfl, take_length]

/-- `strrchr` is `memrchr` over the string and its terminator for the bytes that a `char` can hold. -/
theorem strrchr_eq (s : CStr) {c : ℤ} (hc : UInt8.ofInt c < 128) :
    strrchr s c = memrchr (s.bytes ++ [0]) c := by
  have h := strrchrFrom_eq hc [] s.bytes
  rw [nil_append, length_nil, zero_add] at h
  rwa [memrchr, length_append, length_singleton]

/-- **The four searches agree**, the last ones of `s` and the first ones, exactly if the byte is below
128 or not in the string at all. -/
theorem searches_agree_iff (s : CStr) (c : ℤ) :
    (strrchr s c = memrchr (s.bytes ++ [0]) c ∧
        strchr s (.ofInt c) = memchr (s.bytes ++ [0]) c ∧
        (strrchr s c = none ↔ strchr s (.ofInt c) = none)) ↔
      UInt8.ofInt c < 128 ∨ UInt8.ofInt c ∉ s.bytes := by
  by_cases hc : UInt8.ofInt c < 128
  · refine iff_of_true ⟨strrchr_eq s hc, strchr_eq_memchr s c, ?_⟩ (.inl hc)
    rw [strrchr_eq s hc, memrchr_eq_none_iff, strchr_eq_none_iff_not_mem]
  · have hnone : strrchr s c = none := strrchrFrom_eq_none hc 0 s.bytes
    have hzero : UInt8.ofInt c ≠ 0 := fun h0 => hc (h0 ▸ by decide)
    have hmem : UInt8.ofInt c ∉ s.bytes ++ [0] ↔ UInt8.ofInt c ∉ s.bytes := by simp [hzero]
    rw [hnone, eq_comm, memrchr_eq_none_iff, strchr_eq_none_iff_not_mem, hmem, or_iff_right hc]
    exact ⟨And.left, fun h => ⟨h, strchr_eq_memchr s c, iff_of_true rfl h⟩⟩

/-- `strrchr("\xe9", 0xe9)` finds nothing where `strchr` finds the first byte. -/
theorem not_searches_agree_eacute : ∃ s : CStr, s.bytes = [0xe9] ∧ strrchr s 0xe9 = none ∧
    memrchr (s.bytes ++ [0]) 0xe9 = some 0 ∧ strchr s 0xe9 = some 0 :=
  ⟨⟨[0xe9], by decide⟩, rfl, by decide, by decide, by decide⟩

end Vlibc.Chars
