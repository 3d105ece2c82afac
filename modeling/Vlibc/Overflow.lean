import Vlibc.Foundations.Signed
import Vlibc.Printf.Syntax
import Vlibc.Regex.Compile
import Vlibc.Stdlib.Subject
import Vlibc.Wprintf.Format

/-!
# Signed overflow

The signed operations that depend on how large a number of the input is: the last negation of
`strtol` and `strtoll`, the negation of an argument below zero in the two formatters, and the loops
that read a width, a precision and the bounds of a range of a regular expression. `Call.ops` lists
those of a call, each with the exact result. None overflows if and only if no number of the input is
too large for its type (`ops_fit_iff`).
-/

namespace Vlibc.Overflow

open List

open Printf (INT_MAX CodeUnit isDigit decimal readPrecision isFlag)
open Stdlib
open Regex (Fault nextItem parseRange copies ensureCapacity)

/-- The last negation. -/
def strtolOps (nptr : List UInt8) (base : ℤ) : List SignedOp :=
  if base ≠ 0 ∧ (base < 2 ∨ 36 < base) then []
  else
    let s := nptr.dropWhile isBlank
    let (neg, s) := readSign s
    let (base, start) := readBase base.toNat s
    let (val, overflow, s) := digitsLoop base (signedCutoff neg) 0 false start
    if s.length = start.length then []
    else if overflow then []
    else if neg then [⟨64, -(BitVec.ofNat 64 val).toInt⟩]
    else []

section numbers

variable {α : Type} [CodeUnit α] [DecidableEq α]

/-- The accumulation of digits in an `int`. -/
def digitOps (ds : List α) : List SignedOp :=
  accumulate (fun c => CodeUnit.code c - 48) 10 32 0 ds

/-- The loops over a width and, behind a `.`, over a precision. -/
def numberOps (p : List α) : List SignedOp :=
  let rest := p.dropWhile isDigit
  digitOps (p.takeWhile isDigit) ++
    if rest.head? = some (CodeUnit.lit '.') then digitOps (rest.tail.takeWhile isDigit) else []

end numbers

/-- The argument of a `%d`. -/
def signedArg (p : List UInt8) (args : List Printf.Arg) : Option (BitVec 64) :=
  match Printf.scanDirective p with
  | none => none
  | some (d, _) =>
    if d.spec = 'd'.toUInt8 then (Printf.vaSigned d.length args).map Prod.fst else none

/-- The specifications that `vsnprintf` comes to, with the arguments that are left there. -/
def specs (fmt : List UInt8) (args : List Printf.Arg) : List (List UInt8 × List Printf.Arg) :=
  visits '%'.toUInt8 0 Printf.scanDirective
    (fun d args => (Printf.convert (fun _ _ => ()) () d args).map Prod.snd) fmt.length fmt args

/-- The signed operations of `vsnprintf`. -/
def vsnprintfOps (fmt : List UInt8) (args : List Printf.Arg) : List SignedOp :=
  (specs fmt args).flatMap fun (p, args) =>
    numberOps (p.dropWhile isFlag) ++ ((signedArg p args).elim [] negateNegative)

/-- The argument of a `%d` of the wide formatter. -/
def wideSignedArg (p : List UInt32) (args : List Wprintf.Arg) : Option (BitVec 32) :=
  match Wprintf.scanDirective p with
  | none => none
  | some (d, _) => if d.spec = 'd'.val then (Wprintf.vaInt args).map Prod.fst else none

/-- The specifications that `vswprintf` comes to, with the arguments that are left there. -/
def wideSpecs (fmt : List UInt32) (args : List Wprintf.Arg) :
    List (List UInt32 × List Wprintf.Arg) :=
  visits '%'.val 0 Wprintf.scanDirective
    (fun d args => (Wprintf.convert (fun _ _ => ()) () d args).map Prod.snd) fmt.length fmt args

/-- The signed operations of `vswprintf`. -/
def vswprintfOps (fmt : List UInt32) (args : List Wprintf.Arg) : List SignedOp :=
  (wideSpecs fmt args).flatMap fun (p, args) =>
    numberOps p ++ ((wideSignedArg p args).elim [] negateNegative)

/-- The places behind an item where `expand_ranges` looks for a range. -/
def rangePlaces : (fuel : ℕ) → (pat out : List UInt8) → (cap : ℕ) → List (List UInt8)
  | 0, _, _, _ => []
  | _ + 1, [], _, _ => []
  | fuel + 1, c :: s, out, cap =>
    let item := nextItem (c :: s)
    item.2 ::
      match parseRange item.2 with
      | .error _ => []
      | .ok r =>
        if r.1.any (fun range => range.n = none ∧ INT_MAX < range.m + 1) then []
        else
          let piece := copies item.1 r.1
          match ensureCapacity out.length piece.length cap with
          | none => []
          | some cap => rangePlaces fuel r.2 (out ++ piece) cap

/-- The digits of the lower bound of a repetition. -/
def lowDigits (s : List UInt8) : List UInt8 :=
  if s.head? = some '{'.toUInt8 then s.tail.takeWhile Ctype.isdigit else []

/-- The digits of the second bound. Without digits of a first one there is no range. -/
def highDigits (s : List UInt8) : List UInt8 :=
  let rest := s.tail.dropWhile Ctype.isdigit
  if lowDigits s ≠ [] ∧ rest.head? = some ','.toUInt8 then rest.tail.takeWhile Ctype.isdigit else []

/-- The signed operations of `expand_ranges`. -/
def rangeOps (pattern : List UInt8) : List SignedOp :=
  (rangePlaces pattern.length pattern [] (pattern.length * 4 + 1)).flatMap fun s =>
    digitOps (lowDigits s) ++ digitOps (highDigits s)

/-- A call of one of the functions, with what the caller passes. A format is passed with its
terminator. -/
inductive Call
  | strtol (nptr : List UInt8) (base : ℤ)
  | strtoll (nptr : List UInt8) (base : ℤ)
  | vsnprintf (fmt : List UInt8) (args : List Printf.Arg)
  | vswprintf (fmt : List UInt32) (args : List Wprintf.Arg)
  | regcomp (pattern : List UInt8)

/-- The signed operations of a call. -/
def Call.ops : Call → List SignedOp
  | strtol nptr base | strtoll nptr base => strtolOps nptr base
  | vsnprintf fmt args => vsnprintfOps fmt args
  | vswprintf fmt args => vswprintfOps fmt args
  | regcomp pattern => rangeOps pattern

/-- No number of the input is too large. -/
def Call.Fine : Call → Prop
  -- the text is not that of `LONG_MIN`
  | strtol nptr base | strtoll nptr base => ¬ (ValidBase base ∧ (scan nptr base).number = -2 ^ 63)
  | vsnprintf fmt args => ∀ s ∈ specs fmt args,
      (Printf.readSpec s.1).1.Fits ∧ signedArg s.1 s.2 ≠ some (.intMin 64)
  | vswprintf fmt args => ∀ s ∈ wideSpecs fmt args,
      (Wprintf.readSpec s.1).1.Fits ∧ wideSignedArg s.1 s.2 ≠ some (.intMin 32)
  | regcomp pattern => ∀ s ∈ rangePlaces pattern.length pattern [] (pattern.length * 4 + 1),
      decimal 0 (lowDigits s) ≤ INT_MAX ∧ decimal 0 (highDigits s) ≤ INT_MAX

/-! ## When the operations fit -/

/-- Up to the limit for a number with a `-`, only the limit itself is not a `long`. -/
theorem neg_ofNat_fits_iff {n : ℕ} (hn : n ≤ 2 ^ 63) :
    (⟨64, -(BitVec.ofNat 64 n).toInt⟩ : SignedOp).Fits ↔ n ≠ 2 ^ 63 := by
  rw [SignedOp.Fits, BitVec.toInt_ofNat', Int.bmod_def]
  dsimp only
  split <;> omega

theorem strtolOps_fit_iff (nptr : List UInt8) (base : ℤ) :
    (∀ op ∈ strtolOps nptr base, op.Fits) ↔
      ¬ (ValidBase base ∧ (scan nptr base).number = -2 ^ 63) := by
  by_cases hbase : ValidBase base
  · rw [and_iff_right hbase]
    have hrange : ¬ (base ≠ 0 ∧ (base < 2 ∨ 36 < base)) := by
      rcases hbase with h | h <;> omega
    set r := scan nptr base
    have hrun : strtolOps nptr base =
        let l := digitsLoop r.base (signedCutoff r.neg) 0 false r.start
        if l.2.2.length = r.start.length then []
        else if l.2.1 then []
        else if r.neg then [⟨64, -(BitVec.ofNat 64 l.1).toInt⟩] else [] := by
      rw [strtolOps, if_neg hrange]
      rfl
    have hcutoff : signedCutoff r.neg < 2 ^ 64 := by cases r.neg <;> decide
    obtain ⟨w, hloop, hw⟩ := digitsLoop_spec r.base r.start hcutoff (Nat.zero_le _)
    rw [show digitsLoop r.base (signedCutoff r.neg) 0 false r.start =
      (w, decide (signedCutoff r.neg < r.value), r.rest) from hloop] at hrun
    rw [hrun]
    rw [if_congr r.length_rest_eq_iff rfl rfl, if_congr decide_eq_true_iff rfl rfl]
    by_cases hdigits : r.digits = []
    · have hzero : r.value = 0 := by
        rw [Scan.value, hdigits]
        rfl
      rw [if_pos hdigits, Scan.number, hzero]
      simp
    rw [if_neg hdigits]
    by_cases hcut : signedCutoff r.neg < r.value
    · have hnumber := (signedCutoff_lt_iff r).1 hcut
      rw [if_pos hcut]
      simp only [not_mem_nil, false_implies, implies_true, true_iff]
      omega
    · have hw : w = r.value := hw (Nat.not_lt.1 hcut)
      rw [if_neg hcut, hw, Scan.number]
      cases hneg : r.neg with
      | false =>
        simp only [Bool.false_eq_true, if_false, not_mem_nil, false_implies, implies_true, true_iff]
        omega
      | true =>
        rw [hneg, signedCutoff, if_pos rfl] at hcut
        rw [if_pos rfl, if_pos rfl, forall_mem_singleton, neg_ofNat_fits_iff (by omega)]
        omega
  · have hrange : base ≠ 0 ∧ (base < 2 ∨ 36 < base) := by
      rw [ValidBase] at hbase
      omega
    rw [strtolOps, if_pos hrange]
    simp [hbase]

section numbers

variable {α : Type} [CodeUnit α]

theorem digitOps_fit_iff (ds : List α) :
    (∀ op ∈ digitOps ds, op.Fits) ↔ decimal 0 ds ≤ INT_MAX := by
  rw [digitOps, accumulate_fits_iff (by decide) (le_refl 0) (by decide)]
  change decimal 0 ds < 2 ^ 31 ↔ _
  unfold INT_MAX
  omega

variable [DecidableEq α]

theorem numberOps_fit_iff (p : List α) :
    (∀ op ∈ numberOps p, op.Fits) ↔
      decimal 0 (p.takeWhile isDigit) ≤ INT_MAX ∧
        (readPrecision (p.dropWhile isDigit)).1 ≤ INT_MAX := by
  unfold numberOps readPrecision
  rw [forall_mem_append, digitOps_fit_iff]
  split
  · rw [digitOps_fit_iff]
  · simp [INT_MAX]

end numbers

theorem negate_fit_iff {w : ℕ} (hw : 0 < w) (v : Option (BitVec w)) :
    (∀ op ∈ v.elim [] negateNegative, op.Fits) ↔ v ≠ some (.intMin w) := by
  cases v with
  | none => simp
  | some v => rw [Option.elim_some, neg_fits_iff hw, ne_eq, ne_eq, Option.some_inj]

/-- **No signed operation of a call overflows if and only if no number of its input is too large**:
the text of `strtol` is not that of the least `long`, no width, no precision and no bound of a range
exceeds `INT_MAX`, and no argument of `%d` is the least value of the type it is negated in. -/
theorem ops_fit_iff (c : Call) : (∀ op ∈ c.ops, op.Fits) ↔ c.Fine := by
  cases c with
  | strtol nptr base | strtoll nptr base => exact strtolOps_fit_iff nptr base
  | vsnprintf fmt args =>
    simp only [Call.ops, Call.Fine, vsnprintfOps, forall_mem_flatMap]
    refine forall₂_congr fun s _ => ?_
    rw [forall_mem_append, numberOps_fit_iff, negate_fit_iff (by decide)]
    rfl
  | vswprintf fmt args =>
    simp only [Call.ops, Call.Fine, vswprintfOps, forall_mem_flatMap]
    refine forall₂_congr fun s _ => ?_
    rw [forall_mem_append, numberOps_fit_iff, negate_fit_iff (by decide)]
    rfl
  | regcomp pattern =>
    simp only [Call.ops, Call.Fine, rangeOps, forall_mem_flatMap]
    refine forall₂_congr fun s _ => ?_
    rw [forall_mem_append, digitOps_fit_iff, digitOps_fit_iff]

/-- The least `long` as a text and as an argument, the least `int`, and numbers beyond `INT_MAX`. -/
theorem ops_overflow :
    (∃ op ∈ (Call.strtol (Regex.bytes "-9223372036854775808") 10).ops, ¬ op.Fits) ∧
    (∃ op ∈ (Call.vsnprintf (Regex.bytes "%ld" ++ [0]) [.long (.intMin 64)]).ops, ¬ op.Fits) ∧
    (∃ op ∈ (Call.vswprintf ['%'.val, 'd'.val, 0] [.int (.intMin 32)]).ops, ¬ op.Fits) ∧
    (∃ op ∈ (Call.vsnprintf (Regex.bytes "%2147483648d" ++ [0]) [.int 0]).ops, ¬ op.Fits) ∧
    (∃ op ∈ (Call.regcomp (Regex.bytes "a\x7b2147483648\x7d")).ops, ¬ op.Fits) := by
  refine ⟨?_, ?_, ?_, ?_, ?_⟩ <;> decide

end Vlibc.Overflow
