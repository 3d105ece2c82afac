import Vlibc.Foundations.Positional
import Vlibc.Foundations.Template
import Vlibc.Memory.Malloc

/-!
# `strtol` and its relatives

The integer functions of `strto.c`. The four have one body, which is `strto`; they differ in the
limit beyond which a number overflows and in what they return then. On LP64 `long` and `long long`
are the same type.

A pointer into a string is the list of the bytes from there to the terminator, which is no white
space, no sign and no digit, so no loop goes beyond it.
-/

namespace Vlibc.Stdlib

open List

/-- `digit_val`, with `-1` for other characters. -/
def digitVal (c : UInt8) : ℤ :=
  if '0'.toUInt8 ≤ c ∧ c ≤ '9'.toUInt8 then (c - '0'.toUInt8).toNat
  else if 'a'.toUInt8 ≤ c ∧ c ≤ 'z'.toUInt8 then (c - 'a'.toUInt8).toNat + 10
  else if 'A'.toUInt8 ≤ c ∧ c ≤ 'Z'.toUInt8 then (c - 'A'.toUInt8).toNat + 10
  else -1

/-- The white space that is skipped; 12 and 11 are `\f` and `\v`. -/
def isBlank (c : UInt8) : Bool :=
  c = ' '.toUInt8 ∨ c = '\t'.toUInt8 ∨ c = '\n'.toUInt8 ∨ c = '\r'.toUInt8 ∨ c = 12 ∨ c = 11

/-- A sign: whether it is `-`, and what follows it. -/
def readSign (s : List UInt8) : Bool × List UInt8 :=
  if s.head? = some '+'.toUInt8 ∨ s.head? = some '-'.toUInt8 then
    (s.head? = some '-'.toUInt8, s.tail)
  else (false, s)

/-- `0x` or `0X`. -/
def isHexPrefix (s : List UInt8) : Bool :=
  s.head? = some '0'.toUInt8 ∧
    (s.tail.head? = some 'x'.toUInt8 ∨ s.tail.head? = some 'X'.toUInt8)

/-- The base that is used, and what follows the prefix. -/
def readBase (base : ℕ) (s : List UInt8) : ℕ × List UInt8 :=
  if base = 0 then
    if s.head? = some '0'.toUInt8 then
      if isHexPrefix s then (16, s.drop 2) else (8, s.drop 1)
    else (10, s)
  else if base = 16 then
    if isHexPrefix s then (base, s.drop 2) else (base, s)
  else (base, s)

/-- A digit of the base. -/
def isDigitOf (base : ℕ) (c : UInt8) : Bool := 0 ≤ digitVal c ∧ digitVal c < base

/-- The loop over the digits: `val`, `overflow` and what follows them. -/
def digitsLoop (base cutoff : ℕ) : (val : ℕ) → (overflow : Bool) → List UInt8 →
    ℕ × Bool × List UInt8
  | val, overflow, [] => (val, overflow, [])
  | val, overflow, c :: s =>
    if isDigitOf base c then
      if overflow then digitsLoop base cutoff val overflow s
      else
        let d := (digitVal c).toNat
        if cutoff / base < val ∨ val = cutoff / base ∧ cutoff % base < d then
          digitsLoop base cutoff val true s
        else digitsLoop base cutoff ((val * base + d) % 2 ^ 64) false s
    else (val, overflow, c :: s)

/-- What is returned, what is stored in `*endptr` if `endptr` is not `NULL`, and in `errno` if it is
set. -/
structure Parsed where
  value : BitVec 64
  endptr : List UInt8
  errno : Option ℕ

/-- The body of the four functions. With a sign, `cutoff` is the limit of a number and `saturated`
is returned for one beyond it. -/
def strto (cutoff : Bool → ℕ) (saturated : Bool → BitVec 64) (nptr : List UInt8) (base : ℤ) :
    Parsed :=
  if base ≠ 0 ∧ (base < 2 ∨ 36 < base) then ⟨0, nptr, some EINVAL⟩
  else
    let s := nptr.dropWhile isBlank
    let (neg, s) := readSign s
    let (base, start) := readBase base.toNat s
    let (val, overflow, s) := digitsLoop base (cutoff neg) 0 false start
    if s.length = start.length then ⟨0, nptr, none⟩
    else if overflow then ⟨saturated neg, s, some ERANGE⟩
    else ⟨if neg then -BitVec.ofNat 64 val else BitVec.ofNat 64 val, s, none⟩

/-- `LLONG_MAX + 1` below zero, `LLONG_MAX` above. -/
def signedCutoff (neg : Bool) : ℕ := if neg then 2 ^ 63 else 2 ^ 63 - 1

/-- `strtol`. -/
def strtol (nptr : List UInt8) (base : ℤ) : Parsed :=
  strto signedCutoff (fun neg => if neg then .intMin 64 else .intMax 64) nptr base

/-- `strtoul`. -/
def strtoul (nptr : List UInt8) (base : ℤ) : Parsed :=
  strto (fun _ => 2 ^ 64 - 1) (fun _ => .allOnes 64) nptr base

/-- `strtoll`. -/
def strtoll (nptr : List UInt8) (base : ℤ) : Parsed :=
  strto signedCutoff (fun neg => if neg then .intMin 64 else .intMax 64) nptr base

/-- `strtoull`. -/
def strtoull (nptr : List UInt8) (base : ℤ) : Parsed :=
  strto (fun _ => 2 ^ 64 - 1) (fun _ => .allOnes 64) nptr base

/-! ## The loop over the digits -/

variable {base cutoff val : ℕ} {s : List UInt8}

/-- The values of digits. -/
def digitVals (s : List UInt8) : List ℕ := s.map fun c => (digitVal c).toNat

theorem digitsLoop_overflow (base cutoff val : ℕ) (s : List UInt8) :
    digitsLoop base cutoff val true s = (val, true, s.dropWhile (isDigitOf base)) := by
  induction s with
  | nil => rfl
  | cons c s ih =>
    rw [digitsLoop, dropWhile_cons]
    split
    · rw [if_pos rfl]
      exact ih
    · rfl

/-- The loop reads the digits to their end. It has the number they make if that is within the
limit, and has seen an overflow if it is not. By induction on the string: up to the first step that
would pass the limit, `val` is the number made so far. -/
theorem digitsLoop_spec (base : ℕ) (s : List UInt8) (hcutoff : cutoff < 2 ^ 64)
    (hval : val ≤ cutoff) :
    let n := horner base val (digitVals (s.takeWhile (isDigitOf base)))
    ∃ w, digitsLoop base cutoff val false s =
        (w, decide (cutoff < n), s.dropWhile (isDigitOf base)) ∧ (n ≤ cutoff → w = n) := by
  induction s generalizing val with
  | nil => exact ⟨val, by simp [digitsLoop, digitVals, not_lt.2 hval], fun _ => rfl⟩
  | cons c s ih =>
    rw [takeWhile_cons, dropWhile_cons]
    by_cases hc : isDigitOf base c
    · have hd : (digitVal c).toNat < base := by
        have : 0 ≤ digitVal c ∧ digitVal c < base := of_decide_eq_true hc
        omega
      rw [if_pos hc, if_pos hc]
      simp only [digitsLoop, hc, if_true, Bool.false_eq_true, if_false, cut_iff hd, digitVals,
        map_cons, horner_cons]
      by_cases hcut : cutoff < val * base + (digitVal c).toNat
      · have hpast : cutoff < horner base (val * base + (digitVal c).toNat)
            (digitVals (s.takeWhile (isDigitOf base))) :=
          hcut.trans_le (le_horner (Nat.zero_lt_of_lt hd))
        rw [if_pos hcut, digitsLoop_overflow]
        exact ⟨val, by simpa [digitVals] using hpast, fun h => absurd h (not_le.2 hpast)⟩
      · rw [if_neg hcut, Nat.mod_eq_of_lt (by omega)]
        exact ih (by omega)
    · rw [if_neg hc, if_neg hc, digitsLoop, if_neg hc]
      exact ⟨val, by simp [digitVals, not_lt.2 hval], fun _ => rfl⟩

/-- **A number that is within the limit is returned**, and `*endptr` points behind its digits. The
string is white space and `s₁`, which is a sign, if there is one, and `s₂`; behind the prefix that
the base allows come digits, and what follows them does not begin with one. -/
theorem strto_of_parts {cutoff : Bool → ℕ} {saturated : Bool → BitVec 64} {neg : Bool} {b : ℕ}
    {blanks s₁ s₂ digits rest : List UInt8} (hblanks : ∀ c ∈ blanks, isBlank c = true)
    (hhead : ∀ c ∈ s₁.head?, isBlank c = false) (hsign : readSign s₁ = (neg, s₂))
    (hb : 2 ≤ b ∧ b ≤ 36) (hbase : readBase b s₂ = (base, digits ++ rest))
    (hdigits : ∀ c ∈ digits, isDigitOf base c = true) (hne : digits ≠ [])
    (hrest : ∀ c ∈ rest.head?, isDigitOf base c = false) (hcutoff : cutoff neg < 2 ^ 64)
    (hle : horner base 0 (digitVals digits) ≤ cutoff neg) :
    strto cutoff saturated (blanks ++ s₁) b =
      ⟨if neg then -BitVec.ofNat 64 (horner base 0 (digitVals digits))
        else BitVec.ofNat 64 (horner base 0 (digitVals digits)), rest, none⟩ := by
  obtain ⟨-, hskip⟩ := span_append hblanks hhead
  obtain ⟨htake, hdrop⟩ := span_append hdigits hrest
  obtain ⟨w, hloop, hw⟩ := digitsLoop_spec base (digits ++ rest) hcutoff (Nat.zero_le _)
  rw [htake] at hloop hw
  rw [hdrop] at hloop
  rw [decide_eq_false (Nat.not_lt.2 hle)] at hloop
  obtain rfl := hw hle
  have hlen : ¬ rest.length = (digits ++ rest).length := by
    have := length_pos_iff.2 hne
    rw [length_append]
    omega
  have hrange : ¬ ((b : ℤ) ≠ 0 ∧ ((b : ℤ) < 2 ∨ 36 < (b : ℤ))) := by omega
  simp only [strto, if_neg hrange, hskip, hsign, Int.toNat_natCast, hbase, hloop, if_neg hlen,
    Bool.false_eq_true, if_false]

end Vlibc.Stdlib
