import Mathlib.Algebra.Group.Nat.Defs
import Mathlib.Data.List.Lex
import Mathlib.Data.List.TakeWhile
import Vlibc.Ctype

/-!
# Strings

The functions of `string.c` and `string_extra.c` that the other files call. A string is the list of
its bytes before the terminator (`CStr`), and reading the place behind the last of them reads the
terminator.
-/

namespace Vlibc

open List

/-- A string in memory: its bytes, none of which is the terminator. -/
@[ext]
structure CStr where
  bytes : List UInt8
  noNul : 0 ∉ bytes
  deriving DecidableEq

/-- The string behind the first `n` bytes. -/
def CStr.drop (s : CStr) (n : ℕ) : CStr where
  bytes := s.bytes.drop n
  noNul h := s.noNul (List.mem_of_mem_drop h)

/-- The first bytes of a string. -/
def CStr.take (s : CStr) (n : ℕ) : CStr where
  bytes := s.bytes.take n
  noNul h := s.noNul (List.mem_of_mem_take h)

/-- One string behind another. -/
def CStr.append (s t : CStr) : CStr where
  bytes := s.bytes ++ t.bytes
  noNul h := (List.mem_append.1 h).elim s.noNul t.noNul

@[simp] theorem CStr.bytes_drop (s : CStr) (n : ℕ) : (s.drop n).bytes = s.bytes.drop n := rfl

@[simp] theorem CStr.bytes_take (s : CStr) (n : ℕ) : (s.take n).bytes = s.bytes.take n := rfl

@[simp] theorem CStr.bytes_append (s t : CStr) : (s.append t).bytes = s.bytes ++ t.bytes := rfl

/-- The string that a literal stands for: its characters, up to a NUL among them. -/
def str (s : String) : CStr where
  bytes := (s.toList.map Char.toUInt8).takeWhile (· ≠ 0)
  noNul h := by simpa using List.mem_takeWhile_imp h

/-- The string that bytes are, up to a NUL among them. -/
def CStr.ofBytes (l : List UInt8) : CStr where
  bytes := l.takeWhile (· ≠ 0)
  noNul h := by simpa using List.mem_takeWhile_imp h

theorem CStr.ofBytes_bytes (s : CStr) : CStr.ofBytes s.bytes = s :=
  CStr.ext (takeWhile_eq_self_iff.2 fun c hc => by
    simpa using fun h : c = 0 => s.noNul (h ▸ hc))

/-- `vstrlen`. -/
def vstrlen (s : CStr) : ℕ := s.bytes.length

/-- The loop of `vstrncmp`, from two places in the strings on, with `n` bytes left to compare. -/
def vstrncmpFrom : List UInt8 → List UInt8 → ℕ → ℤ
  | _, _, 0 => 0
  | [], s2, _ + 1 => 0 - (s2.headD 0).toNat
  | c1 :: s1, s2, n + 1 =>
    if c1 = s2.headD 0 then vstrncmpFrom s1 s2.tail n else c1.toNat - (s2.headD 0).toNat

/-- `vstrncmp`. -/
def vstrncmp (s1 s2 : CStr) (n : ℕ) : ℤ := vstrncmpFrom s1.bytes s2.bytes n

/-- `strcmp`. -/
def strcmp (s1 s2 : CStr) : ℤ := vstrncmp s1 s2 (2 ^ 64 - 1)

/-- `strchr` from place `i` on; the terminator is compared too. -/
def strchrFrom (ch : UInt8) (i : ℕ) : List UInt8 → Option ℕ
  | [] => if ch = 0 then some i else none
  | b :: s => if b = ch then some i else strchrFrom ch (i + 1) s

/-- `strchr`, with its argument converted to a byte: how far behind the start it found the byte. -/
def strchr (s : CStr) (c : UInt8) : Option ℕ := strchrFrom c 0 s.bytes

/-- The loop of `strncasecmp`. -/
def strncasecmpFrom : List UInt8 → List UInt8 → ℕ → ℤ
  | _, _, 0 => 0
  | [], s2, _ + 1 => (Ctype.tolower 0).toNat - (Ctype.tolower (s2.headD 0)).toNat
  | c1 :: s1, s2, n + 1 =>
    if Ctype.tolower c1 = Ctype.tolower (s2.headD 0) then strncasecmpFrom s1 s2.tail n
    else (Ctype.tolower c1).toNat - (Ctype.tolower (s2.headD 0)).toNat

/-- `strncasecmp`. -/
def strncasecmp (s1 s2 : CStr) (n : ℕ) : ℤ := strncasecmpFrom s1.bytes s2.bytes n

/-- `strcasecmp`. -/
def strcasecmp (s1 s2 : CStr) : ℤ := strncasecmp s1 s2 (2 ^ 64 - 1)

theorem strchrFrom_eq {c : UInt8} (hc : c ≠ 0) (i : ℕ) (s : List UInt8) :
    strchrFrom c i s = (s.idxOf? c).map (i + ·) := by
  induction s generalizing i with
  | nil => rw [strchrFrom, if_neg hc, idxOf?_nil, Option.map_none]
  | cons b s ih =>
    rw [strchrFrom, idxOf?_cons, ih]
    by_cases hb : b = c
    · simp [hb]
    · simp [hb, Function.comp_def, add_assoc, add_comm 1]

/-- A byte that is not the terminator is searched for in the bytes before it. -/
theorem strchr_eq_idxOf? {s : CStr} {c : UInt8} (hc : c ≠ 0) : strchr s c = s.bytes.idxOf? c := by
  rw [strchr, strchrFrom_eq hc]
  simp

theorem strchr_eq_none_iff {s : CStr} {c : UInt8} (hc : c ≠ 0) : strchr s c = none ↔ c ∉ s.bytes := by
  rw [strchr_eq_idxOf? hc, idxOf?_eq_none_iff]

theorem strchr_eq_some {s : CStr} {c : UInt8} {pre post : List UInt8} (h0 : c ≠ 0)
    (h : s.bytes = pre ++ c :: post) (hc : c ∉ pre) : strchr s c = some pre.length := by
  rw [strchr_eq_idxOf? h0, h]
  refine idxOf?_eq_some_iff.2 ⟨by simp, by simp, fun j hj e => hc ?_⟩
  rw [getElem_append_left hj] at e
  exact e ▸ getElem_mem hj

/-! ## Comparison -/

section Compare

variable {c1 c2 : UInt8} {s1 s2 : List UInt8}

@[simp] theorem vstrncmpFrom_zero (s1 s2 : List UInt8) : vstrncmpFrom s1 s2 0 = 0 := by
  cases s1 <;> rfl

@[simp] theorem vstrncmpFrom_nil_nil (n : ℕ) : vstrncmpFrom [] [] n = 0 := by
  cases n <;> rfl

@[simp] theorem vstrncmpFrom_nil_cons (c2 : UInt8) (s2 : List UInt8) (n : ℕ) :
    vstrncmpFrom [] (c2 :: s2) (n + 1) = 0 - c2.toNat := rfl

theorem vstrncmpFrom_cons_nil (hc : c1 ≠ 0) (s1 : List UInt8) (n : ℕ) :
    vstrncmpFrom (c1 :: s1) [] (n + 1) = c1.toNat := by
  change (if c1 = 0 then _ else (c1.toNat : ℤ) - 0) = _
  rw [if_neg hc, Int.sub_zero]

@[simp] theorem vstrncmpFrom_cons_cons (c1 c2 : UInt8) (s1 s2 : List UInt8) (n : ℕ) :
    vstrncmpFrom (c1 :: s1) (c2 :: s2) (n + 1) =
      if c1 = c2 then vstrncmpFrom s1 s2 n else (c1.toNat : ℤ) - c2.toNat := rfl

theorem toNat_pos_of_ne_zero (hc : c1 ≠ 0) : 0 < c1.toNat :=
  Nat.pos_of_ne_zero fun h => hc (UInt8.toNat_inj.1 h)

/-- **`vstrncmp` orders** by the first `n` bytes, as unsigned numbers. -/
theorem vstrncmpFrom_spec (h1 : 0 ∉ s1) (h2 : 0 ∉ s2) (n : ℕ) :
    (vstrncmpFrom s1 s2 n = 0 ↔ s1.take n = s2.take n) ∧
      (vstrncmpFrom s1 s2 n < 0 ↔ s1.take n < s2.take n) := by
  induction n generalizing s1 s2 with
  | zero => simp
  | succ n ih =>
    rcases s1 with _ | ⟨c1, s1⟩ <;> rcases s2 with _ | ⟨c2, s2⟩
    · simp
    · have hc := toNat_pos_of_ne_zero (ne_of_not_mem_cons h2).symm
      simp only [vstrncmpFrom_nil_cons, take_nil, take_succ_cons, nil_eq,
        reduceCtorEq, iff_false, nil_lt_cons, iff_true]
      omega
    · have hc0 := (ne_of_not_mem_cons h1).symm
      have hc := toNat_pos_of_ne_zero hc0
      simp only [vstrncmpFrom_cons_nil hc0, take_nil, take_succ_cons, reduceCtorEq,
        iff_false, not_lt_nil]
      omega
    · obtain ⟨heq, hlt⟩ := ih (not_mem_of_not_mem_cons h1) (not_mem_of_not_mem_cons h2)
      rw [vstrncmpFrom_cons_cons, take_succ_cons, take_succ_cons, cons.injEq, ← heq,
        cons_lt_cons_iff, ← hlt, UInt8.lt_iff_toNat_lt]
      by_cases he : c1 = c2
      · simp [he]
      · have hne : (c1.toNat : ℤ) - c2.toNat ≠ 0 := fun h => he (UInt8.toNat_inj.1 (by omega))
        simp only [he, if_false, false_and, or_false, hne, true_and]
        omega

theorem vstrncmpFrom_eq_zero_iff (h1 : 0 ∉ s1) (h2 : 0 ∉ s2) (n : ℕ) :
    vstrncmpFrom s1 s2 n = 0 ↔ s1.take n = s2.take n := (vstrncmpFrom_spec h1 h2 n).1

theorem strcmp_le_zero_iff (s1 s2 : CStr) :
    strcmp s1 s2 ≤ 0 ↔ s1.bytes.take (2 ^ 64 - 1) ≤ s2.bytes.take (2 ^ 64 - 1) := by
  rw [List.le_iff_lt_or_eq, ← (vstrncmpFrom_spec s1.noNul s2.noNul _).2,
    ← vstrncmpFrom_eq_zero_iff s1.noNul s2.noNul, strcmp, vstrncmp]
  omega

theorem tolower_eq_zero_iff (c : UInt8) : Ctype.tolower c = 0 ↔ c = 0 :=
  Ctype.forall_byte (p := fun c => Ctype.tolower c = 0 ↔ c = 0) (by decide +kernel) c

theorem strncasecmpFrom_eq (s1 s2 : List UInt8) (n : ℕ) :
    strncasecmpFrom s1 s2 n = vstrncmpFrom (s1.map Ctype.tolower) (s2.map Ctype.tolower) n := by
  have h0 : Ctype.tolower 0 = 0 := (tolower_eq_zero_iff 0).2 rfl
  have hhead : ∀ s : List UInt8, (s.map Ctype.tolower).headD 0 = Ctype.tolower (s.headD 0) := by
    intro s
    cases s with
    | nil => exact h0.symm
    | cons c s => rfl
  induction n generalizing s1 s2 with
  | zero => cases s1 <;> simp [strncasecmpFrom]
  | succ n ih =>
    cases s1 with
    | nil => simp only [strncasecmpFrom, map_nil, vstrncmpFrom, hhead, h0]; rfl
    | cons c1 s1 =>
      simp only [strncasecmpFrom, map_cons, vstrncmpFrom, hhead, ← map_tail, ih]

theorem take_eq_take_iff {l l' : List UInt8} {n : ℕ} (h : l'.length < n) :
    l.take n = l'.take n ↔ l = l' := by
  constructor
  · intro e
    have hlen := congrArg List.length e
    simp only [length_take] at hlen
    rwa [take_of_length_le (by omega), take_of_length_le h.le] at e
  · exact fun e => congrArg _ e

theorem strcmp_eq_zero_iff (s1 s2 : CStr) (h2 : s2.bytes.length < 2 ^ 64 - 1) :
    strcmp s1 s2 = 0 ↔ s1 = s2 := by
  rw [strcmp, vstrncmp, vstrncmpFrom_eq_zero_iff s1.noNul s2.noNul, take_eq_take_iff h2,
    CStr.ext_iff]

theorem strcasecmp_eq_zero_iff (s1 s2 : CStr) (h2 : s2.bytes.length < 2 ^ 64 - 1) :
    strcasecmp s1 s2 = 0 ↔ s1.bytes.map Ctype.tolower = s2.bytes.map Ctype.tolower := by
  have hnot : ∀ s : CStr, 0 ∉ s.bytes.map Ctype.tolower := by
    intro s hmem
    obtain ⟨c, hc, h⟩ := mem_map.1 hmem
    exact s.noNul ((tolower_eq_zero_iff c).1 h ▸ hc)
  rw [strcasecmp, strncasecmp, strncasecmpFrom_eq, vstrncmpFrom_eq_zero_iff (hnot s1) (hnot s2),
    take_eq_take_iff (by rwa [length_map])]

end Compare

end Vlibc
