import Mathlib.Data.List.TakeWhile
import Vlibc.Stdlib.Strto

/-!
# What `strtol` reads

A call skips white space, a sign and a prefix and then reads digits to their end (`scan`). What is
returned is the number that these digits make, cut off at the limits of the type (`strto_eq_scan`,
`strtol_value`).

`Subject` is the text that the C standard lets a number be written with: the prefix `0` may be all
there is, and the prefix `0x` needs a digit behind it. The functions skip the prefix first and look
for digits then, and if there is none they give back all that was read (`LonePrefix`).
-/

namespace Vlibc.Stdlib

open List BitVec

/-- What stands before the digits: whether the number is negated, the base that is used, and the
text from the first digit on. -/
structure Scan where
  neg : Bool
  base : ℕ
  start : List UInt8

/-- White space, sign and prefix, as the four functions skip them. -/
def scan (nptr : List UInt8) (base : ℤ) : Scan :=
  let s := readSign (nptr.dropWhile isBlank)
  let r := readBase base.toNat s.2
  ⟨s.1, r.1, r.2⟩

namespace Scan

/-- The maximal run of digits. -/
def digits (r : Scan) : List UInt8 := r.start.takeWhile (isDigitOf r.base)

/-- What follows the digits. -/
def rest (r : Scan) : List UInt8 := r.start.dropWhile (isDigitOf r.base)

/-- The value of the digits. -/
def value (r : Scan) : ℕ := horner r.base 0 (digitVals r.digits)

/-- The number with its sign. -/
def number (r : Scan) : ℤ := if r.neg then -(r.value : ℤ) else r.value

theorem digits_append_rest (r : Scan) : r.digits ++ r.rest = r.start :=
  takeWhile_append_dropWhile

theorem length_rest_eq_iff (r : Scan) : r.rest.length = r.start.length ↔ r.digits = [] := by
  rw [← r.digits_append_rest, length_append, ← length_eq_zero_iff]
  omega

theorem ofInt_number (r : Scan) : BitVec.ofInt 64 r.number =
    if r.neg then -BitVec.ofNat 64 r.value else BitVec.ofNat 64 r.value := by
  rw [number]
  split
  · rw [ofInt_neg, ofInt_natCast]
  · rw [ofInt_natCast]

end Scan

/-- The bases that are accepted. -/
def ValidBase (base : ℤ) : Prop := base = 0 ∨ 2 ≤ base ∧ base ≤ 36

variable {nptr : List UInt8} {base : ℤ} {cutoff : Bool → ℕ}

/-- **What a call does, by its digits.** Nothing is read if there are none; a number beyond the
limit is replaced; any other is returned with its sign. -/
theorem strto_eq_scan (saturated : Bool → BitVec 64) (hbase : ValidBase base)
    (nptr : List UInt8) (hcutoff : ∀ neg, cutoff neg < 2 ^ 64) :
    strto cutoff saturated nptr base =
      let r := scan nptr base
      if r.digits = [] then ⟨0, nptr, none⟩
      else if cutoff r.neg < r.value then ⟨saturated r.neg, r.rest, some ERANGE⟩
      else ⟨BitVec.ofInt 64 r.number, r.rest, none⟩ := by
  have hrange : ¬ (base ≠ 0 ∧ (base < 2 ∨ 36 < base)) := by
    rcases hbase with h | h <;> omega
  set r := scan nptr base
  have hrun : strto cutoff saturated nptr base =
      let l := digitsLoop r.base (cutoff r.neg) 0 false r.start
      if l.2.2.length = r.start.length then ⟨0, nptr, none⟩
      else if l.2.1 then ⟨saturated r.neg, l.2.2, some ERANGE⟩
      else ⟨if r.neg then -BitVec.ofNat 64 l.1 else BitVec.ofNat 64 l.1, l.2.2, none⟩ := by
    rw [strto, if_neg hrange]
    rfl
  obtain ⟨w, hloop, hw⟩ := digitsLoop_spec r.base r.start (hcutoff r.neg) (Nat.zero_le _)
  rw [show digitsLoop r.base (cutoff r.neg) 0 false r.start =
    (w, decide (cutoff r.neg < r.value), r.rest) from hloop] at hrun
  rw [hrun]
  dsimp only
  rw [if_congr r.length_rest_eq_iff rfl rfl, if_congr decide_eq_true_iff rfl rfl]
  by_cases hcut : cutoff r.neg < r.value
  · rw [if_pos hcut, if_pos hcut]
  · have hw : w = r.value := hw (Nat.not_lt.1 hcut)
    rw [if_neg hcut, if_neg hcut, hw, r.ofInt_number]

/-! ## The number that is returned -/

theorem signedCutoff_lt_iff (r : Scan) :
    signedCutoff r.neg < r.value ↔ ¬ (-2 ^ 63 ≤ r.number ∧ r.number ≤ 2 ^ 63 - 1) := by
  rw [signedCutoff, Scan.number]
  split <;> omega

theorem strtol_eq_scan (hbase : ValidBase base) (nptr : List UInt8) :
    strtol nptr base =
      let r := scan nptr base
      if r.digits = [] then ⟨0, nptr, none⟩
      else if signedCutoff r.neg < r.value then
        ⟨if r.neg then .intMin 64 else .intMax 64, r.rest, some ERANGE⟩
      else ⟨BitVec.ofInt 64 r.number, r.rest, none⟩ :=
  strto_eq_scan _ hbase nptr fun neg => by cases neg <;> decide

theorem strtoul_eq_scan (hbase : ValidBase base) (nptr : List UInt8) :
    strtoul nptr base =
      let r := scan nptr base
      if r.digits = [] then ⟨0, nptr, none⟩
      else if 2 ^ 64 - 1 < r.value then ⟨.allOnes 64, r.rest, some ERANGE⟩
      else ⟨BitVec.ofInt 64 r.number, r.rest, none⟩ :=
  strto_eq_scan _ hbase nptr fun _ => by decide

theorem strtol_value (hbase : ValidBase base) (hdigits : (scan nptr base).digits ≠ []) :
    (strtol nptr base).value.toInt = max (-2 ^ 63) (min (2 ^ 63 - 1) (scan nptr base).number) := by
  rw [strtol_eq_scan hbase]
  set r := scan nptr base
  rw [if_neg hdigits]
  by_cases hcut : signedCutoff r.neg < r.value
  · have hnumber := (signedCutoff_lt_iff r).1 hcut
    rw [if_pos hcut]
    rw [Scan.number] at hnumber ⊢
    cases hneg : r.neg with
    | true =>
      have : (BitVec.intMin 64).toInt = -2 ^ 63 := by decide
      simp only [hneg, if_true] at hnumber ⊢
      omega
    | false =>
      have : (BitVec.intMax 64).toInt = 2 ^ 63 - 1 := by decide
      simp only [hneg, Bool.false_eq_true, if_false] at hnumber ⊢
      omega
  · have hnumber := not_not.1 (mt (signedCutoff_lt_iff r).2 hcut)
    rw [if_neg hcut, toInt_ofInt, Int.bmod_eq_of_le (by norm_num; omega) (by norm_num; omega)]
    omega

/-- An unsigned number is reduced if it is negated, and cut off if it is too large. -/
theorem strtoul_value (hbase : ValidBase base) (hdigits : (scan nptr base).digits ≠ []) :
    ((strtoul nptr base).value.toNat : ℤ) =
      if (scan nptr base).value < 2 ^ 64 then (scan nptr base).number % 2 ^ 64 else 2 ^ 64 - 1 := by
  rw [strtoul_eq_scan hbase]
  set r := scan nptr base
  rw [if_neg hdigits]
  by_cases hcut : 2 ^ 64 - 1 < r.value
  · rw [if_pos hcut, if_neg (by omega), toNat_allOnes]
    rfl
  · rw [if_neg hcut, if_pos (by omega), toNat_ofInt, Int.toNat_of_nonneg (by omega)]
    rfl

theorem erange_iff {p q : Prop} [Decidable p] [Decidable q] {x y z : Parsed} (hx : x.errno = none)
    (hy : y.errno = some ERANGE) (hz : z.errno = none) :
    (if p then x else if q then y else z).errno = some ERANGE ↔ ¬ p ∧ q := by
  split_ifs <;> simp [*]

theorem strtol_errno (hbase : ValidBase base) (nptr : List UInt8) :
    (strtol nptr base).errno = some ERANGE ↔ (scan nptr base).digits ≠ [] ∧
      ¬ (-2 ^ 63 ≤ (scan nptr base).number ∧ (scan nptr base).number ≤ 2 ^ 63 - 1) := by
  rw [strtol_eq_scan hbase, ← signedCutoff_lt_iff]
  exact erange_iff rfl rfl rfl

theorem strtoul_errno (hbase : ValidBase base) (nptr : List UInt8) :
    (strtoul nptr base).errno = some ERANGE ↔
      (scan nptr base).digits ≠ [] ∧ 2 ^ 64 ≤ (scan nptr base).value := by
  rw [strtoul_eq_scan hbase]
  exact (erange_iff rfl rfl rfl).trans (and_congr_right' (by omega))

/-- **Integer parsing is exact, with saturation.** The digits may be any in number. -/
theorem strto_saturates (hbase : ValidBase base) (nptr : List UInt8) :
    let r := scan nptr base
    (r.digits ≠ [] →
      (strtol nptr base).value.toInt = max (-2 ^ 63) (min (2 ^ 63 - 1) r.number) ∧
      ((strtoul nptr base).value.toNat : ℤ) =
        if r.value < 2 ^ 64 then r.number % 2 ^ 64 else 2 ^ 64 - 1) ∧
    ((strtol nptr base).errno = some ERANGE ↔
      r.digits ≠ [] ∧ ¬ (-2 ^ 63 ≤ r.number ∧ r.number ≤ 2 ^ 63 - 1)) ∧
    ((strtoul nptr base).errno = some ERANGE ↔ r.digits ≠ [] ∧ 2 ^ 64 ≤ r.value) ∧
    strtoll nptr base = strtol nptr base ∧ strtoull nptr base = strtoul nptr base := by
  refine ⟨fun hdigits => ⟨strtol_value hbase hdigits, strtoul_value hbase hdigits⟩,
    strtol_errno hbase nptr, strtoul_errno hbase nptr, rfl, rfl⟩

/-- The text `-0x1g` in base 16. -/
theorem strto_saturates_minus_one :
    (strtol [45, 48, 120, 49, 103] 16).value.toInt = -1 ∧
      ((strtoul [45, 48, 120, 49, 103] 16).value.toNat : ℤ) = 2 ^ 64 - 1 := by
  have h := (strto_saturates (.inr ⟨by decide, by decide⟩ : ValidBase 16)
    [45, 48, 120, 49, 103]).1 (by decide)
  exact ⟨h.1.trans (by decide), h.2.trans (by decide)⟩

/-- The text of a number behind its sign: digits of the base; for base 16, and with no base given,
`0x` and digits; with no base given also `0` and octal digits, or decimal digits that do not begin
with `0`. -/
inductive Body : ℤ → List UInt8 → Prop
  | digits {base : ℤ} {ds : List UInt8} (hbase : 2 ≤ base) (hne : ds ≠ [])
      (hds : ∀ c ∈ ds, isDigitOf base.toNat c = true) : Body base ds
  | hex {base : ℤ} {x : UInt8} {ds : List UInt8} (hbase : base = 0 ∨ base = 16)
      (hx : x = 'x'.toUInt8 ∨ x = 'X'.toUInt8) (hne : ds ≠ [])
      (hds : ∀ c ∈ ds, isDigitOf 16 c = true) : Body base ('0'.toUInt8 :: x :: ds)
  | octal {ds : List UInt8} (hds : ∀ c ∈ ds, isDigitOf 8 c = true) : Body 0 ('0'.toUInt8 :: ds)
  | decimal {c : UInt8} {ds : List UInt8} (hc : c ≠ '0'.toUInt8)
      (hds : ∀ d ∈ c :: ds, isDigitOf 10 d = true) : Body 0 (c :: ds)

/-- The text of a number: white space, a sign that may be left out, and the number. -/
def Subject (base : ℤ) (text : List UInt8) : Prop :=
  ∃ blanks sign body, text = blanks ++ (sign ++ body) ∧ (∀ c ∈ blanks, isBlank c = true) ∧
    (sign = [] ∨ sign = ['+'.toUInt8] ∨ sign = ['-'.toUInt8]) ∧ Body base body

/-- `s` points behind the longest text of a number that `nptr` begins with, and to `nptr` if it
begins with none. -/
def IsEnd (base : ℤ) (nptr s : List UInt8) : Prop :=
  (∃ text, nptr = text ++ s ∧ Subject base text ∧
    ∀ text' s', nptr = text' ++ s' → Subject base text' → text'.length ≤ text.length) ∨
  s = nptr ∧ ∀ text s', nptr = text ++ s' → ¬ Subject base text

/-- The text behind white space and sign, as the functions skip them. -/
def unsigned (nptr : List UInt8) : List UInt8 := (readSign (nptr.dropWhile isBlank)).2

/-- Behind white space and sign there is a prefix and no digit behind it: with no base given, `0`
that neither `x` nor an octal digit follows; with no base given or base 16, `0x` that no
hexadecimal digit follows. -/
def LonePrefix (base : ℤ) (nptr : List UInt8) : Prop :=
  let s := unsigned nptr
  base = 0 ∧ s.head? = some '0'.toUInt8 ∧ isHexPrefix s = false ∧
      (∀ c ∈ s.tail.head?, isDigitOf 8 c = false) ∨
    (base = 0 ∨ base = 16) ∧ isHexPrefix s = true ∧ ∀ c ∈ (s.drop 2).head?, isDigitOf 16 c = false

instance (base : ℤ) (nptr : List UInt8) : Decidable (LonePrefix base nptr) :=
  inferInstanceAs (Decidable (_ ∨ _))

/-! ## White space and sign -/

variable {b : ℕ} {c : UInt8}

theorem isBlank_of_isDigitOf (h : isDigitOf b c = true) :
    isBlank c = false ∧ c ≠ '+'.toUInt8 ∧ c ≠ '-'.toUInt8 := by
  have hnonneg : 0 ≤ digitVal c := (of_decide_eq_true h).1
  have hno : ∀ c' : UInt8, digitVal c' = -1 → c ≠ c' := by
    rintro c' hc' rfl
    omega
  refine ⟨decide_eq_false ?_, hno _ rfl, hno _ rfl⟩
  rintro (h | h | h | h | h | h) <;> exact hno _ rfl h

theorem Body.head {body : List UInt8} (h : Body base body) :
    ∃ b c, body.head? = some c ∧ isDigitOf b c = true := by
  cases h with
  | @digits base ds hbase hne hds =>
    obtain ⟨c, ds, rfl⟩ := exists_cons_of_ne_nil hne
    exact ⟨_, c, rfl, hds c mem_cons_self⟩
  | hex => exact ⟨16, _, rfl, by decide⟩
  | octal => exact ⟨8, _, rfl, by decide⟩
  | @decimal c ds hc hds => exact ⟨_, c, rfl, hds c mem_cons_self⟩

/-- `s` points behind the text of a number that `text`, without white space and sign, begins
with. -/
def Follows (base : ℤ) (text s : List UInt8) : Prop := ∃ body, Body base body ∧ text = body ++ s

theorem readSign_append (s : List UInt8) :
    ∃ sign, (sign = [] ∨ sign = ['+'.toUInt8] ∨ sign = ['-'.toUInt8]) ∧
      (readSign s).1 = decide (sign = ['-'.toUInt8]) ∧ s = sign ++ (readSign s).2 := by
  rw [readSign]
  split
  · next h =>
    cases s with
    | nil => simp at h
    | cons c s =>
      exact ⟨[c], by simpa using h, by simp, rfl⟩
  · exact ⟨[], .inl rfl, rfl, rfl⟩

variable {sign body s : List UInt8}

theorem readSign_sign
    (hsign : sign = [] ∨ sign = ['+'.toUInt8] ∨ sign = ['-'.toUInt8]) (hbody : body.head? = some c)
    (hc : c ≠ '+'.toUInt8 ∧ c ≠ '-'.toUInt8) :
    readSign (sign ++ (body ++ s)) = (decide (sign = ['-'.toUInt8]), body ++ s) := by
  have hhead : (body ++ s).head? = some c := by rw [head?_append, hbody]; rfl
  rcases hsign with rfl | rfl | rfl
  · rw [readSign, if_neg]
    · rfl
    · simpa [hhead] using hc
  · rfl
  · rfl

theorem isBlank_head_sign
    (hsign : sign = [] ∨ sign = ['+'.toUInt8] ∨ sign = ['-'.toUInt8]) (hbody : body.head? = some c)
    (hc : isBlank c = false) : ∀ c' ∈ (sign ++ (body ++ s)).head?, isBlank c' = false := by
  rcases hsign with rfl | rfl | rfl
  · rintro c' hc'
    rw [nil_append, head?_append, hbody] at hc'
    cases hc'
    exact hc
  · rintro c' ⟨⟩
    rfl
  · rintro c' ⟨⟩
    rfl

theorem exists_subject_iff (base : ℤ) (nptr s : List UInt8) :
    (∃ text, nptr = text ++ s ∧ Subject base text) ↔ Follows base (unsigned nptr) s := by
  constructor
  · rintro ⟨_, rfl, blanks, sign, body, rfl, hblanks, hsign, hbody⟩
    obtain ⟨b, c, hhead, hdigit⟩ := hbody.head
    have hc := isBlank_of_isDigitOf hdigit
    refine ⟨body, hbody, ?_⟩
    rw [unsigned, List.append_assoc, List.append_assoc,
      (span_append hblanks (isBlank_head_sign hsign hhead hc.1)).2, readSign_sign hsign hhead hc.2]
  · rintro ⟨body, hbody, hs⟩
    obtain ⟨sign, hsign, -, happend⟩ := readSign_append (nptr.dropWhile isBlank)
    refine ⟨nptr.takeWhile isBlank ++ (sign ++ body), ?_, _, sign, body, rfl, ?_, hsign, hbody⟩
    · rw [List.append_assoc, List.append_assoc, ← hs, unsigned, ← happend,
        takeWhile_append_dropWhile]
    · exact fun c hc => mem_takeWhile_imp hc

theorem isEnd_iff (base : ℤ) (nptr s : List UInt8) :
    IsEnd base nptr s ↔
      (Follows base (unsigned nptr) s ∧
        ∀ s', Follows base (unsigned nptr) s' → s.length ≤ s'.length) ∨
      s = nptr ∧ ∀ s', ¬ Follows base (unsigned nptr) s' := by
  refine or_congr ⟨?_, ?_⟩ (and_congr_right fun _ => ?_)
  · rintro ⟨text, rfl, htext, hlongest⟩
    refine ⟨(exists_subject_iff ..).1 ⟨text, rfl, htext⟩, fun s' hs' => ?_⟩
    obtain ⟨text', heq, htext'⟩ := (exists_subject_iff ..).2 hs'
    have := hlongest text' s' heq htext'
    have := congrArg List.length heq
    simp only [length_append] at this
    omega
  · rintro ⟨hs, hshortest⟩
    obtain ⟨text, rfl, htext⟩ := (exists_subject_iff ..).2 hs
    refine ⟨text, rfl, htext, fun text' s' heq htext' => ?_⟩
    have := hshortest s' ((exists_subject_iff ..).1 ⟨text', heq, htext'⟩)
    have := congrArg List.length heq
    simp only [length_append] at this
    omega
  · constructor
    · intro hnone s' hs'
      obtain ⟨text, heq, htext⟩ := (exists_subject_iff ..).2 hs'
      exact hnone text s' heq htext
    · exact fun hnone text s' heq htext => hnone s' ((exists_subject_iff ..).1 ⟨text, heq, htext⟩)

/-! ## Prefix and digits -/

theorem length_dropWhile_le {ds s : List UInt8} (hds : ∀ c ∈ ds, isDigitOf b c = true) :
    ((ds ++ s).dropWhile (isDigitOf b)).length ≤ s.length := by
  rw [dropWhile_append_of_pos hds]
  exact (dropWhile_suffix _).length_le

theorem isHexPrefix_iff (s : List UInt8) : isHexPrefix s = true ↔
    ∃ x t, s = '0'.toUInt8 :: x :: t ∧ (x = 'x'.toUInt8 ∨ x = 'X'.toUInt8) := by
  rcases s with _ | ⟨c, _ | ⟨x, t⟩⟩ <;> simp [isHexPrefix]

theorem readBase_cases (hbase : ValidBase base) (s : List UInt8) :
    (base = 0 ∨ base = 16) ∧ isHexPrefix s = true ∧ readBase base.toNat s = (16, s.drop 2) ∨
    base = 0 ∧ isHexPrefix s = false ∧ s.head? = some '0'.toUInt8 ∧
      readBase base.toNat s = (8, s.tail) ∨
    base = 0 ∧ s.head? ≠ some '0'.toUInt8 ∧ readBase base.toNat s = (10, s) ∨
    2 ≤ base ∧ (base = 16 → isHexPrefix s = false) ∧ readBase base.toNat s = (base.toNat, s) := by
  rcases hbase with rfl | ⟨hlow, -⟩
  · simp only [readBase, Int.toNat_zero, if_true]
    by_cases hzero : s.head? = some '0'.toUInt8
    · cases hhex : isHexPrefix s <;> simp [hzero]
    · simp [hzero]
  · have h0 : base.toNat ≠ 0 := by omega
    by_cases h16 : base = 16
    · subst h16
      simp only [readBase]
      cases hhex : isHexPrefix s <;> simp
    · have h16' : base.toNat ≠ 16 := by omega
      simp [readBase, h0, h16', h16, hlow]

theorem follows_of_readBase {text ds s : List UInt8} (hbase : ValidBase base)
    (hread : readBase base.toNat text = (b, ds ++ s)) (hne : ds ≠ [])
    (hds : ∀ c ∈ ds, isDigitOf b c = true) : Follows base text s := by
  obtain ⟨h0, hhex, h⟩ | ⟨rfl, -, hzero, h⟩ | ⟨rfl, hzero, h⟩ | ⟨hlow, -, h⟩ :=
    readBase_cases hbase text
  all_goals
    obtain ⟨rfl, hstart⟩ := Prod.mk.inj (hread.symm.trans h)
  · obtain ⟨x, t, rfl, hx⟩ := (isHexPrefix_iff _).1 hhex
    obtain rfl : ds ++ s = t := hstart
    exact ⟨_, .hex h0 hx hne hds, rfl⟩
  · obtain ⟨t, rfl⟩ := head?_eq_some_iff.1 hzero
    obtain rfl : ds ++ s = t := hstart
    exact ⟨_, .octal hds, rfl⟩
  · obtain ⟨c, ds, rfl⟩ := exists_cons_of_ne_nil hne
    subst hstart
    exact ⟨_, .decimal (by simpa using hzero) hds, rfl⟩
  · exact ⟨ds, .digits hlow hne hds, hstart.symm⟩

theorem isDigitOf_x {x : UInt8} (hx : x = 'x'.toUInt8 ∨ x = 'X'.toUInt8) (hb : b ≤ 16) :
    isDigitOf b x = false := by
  have hval : digitVal x = 33 := by rcases hx with rfl | rfl <;> decide
  rw [isDigitOf, hval]
  exact decide_eq_false (by omega)

theorem eq_of_cons_x {x : UInt8} {ds s t : List UInt8}
    (hx : x = 'x'.toUInt8 ∨ x = 'X'.toUInt8) (hb : b ≤ 16)
    (hds : ∀ c ∈ ds, isDigitOf b c = true) (h : x :: t = ds ++ s) : s = x :: t := by
  cases ds with
  | nil => exact h.symm
  | cons c ds =>
    cases h
    exact absurd (hds x mem_cons_self) (by rw [isDigitOf_x hx hb]; decide)

/-- **Where a number can end.** Either it is the `0` of a prefix `0x`, or it ends behind digits
that stand behind the prefix; there are such digits unless the number is the prefix `0` alone. The
cases are the ways of the prefix, and in each the texts of a number that can stand there. -/
theorem Follows.cases {text start s : List UInt8} (hbase : ValidBase base)
    (hread : readBase base.toNat text = (b, start)) (hfollows : Follows base text s) :
    ((base = 0 ∨ base = 16) ∧ isHexPrefix text = true ∧ s = text.tail) ∨
      ∃ ds, (∀ c ∈ ds, isDigitOf b c = true) ∧ start = ds ++ s ∧
        (ds = [] → base = 0 ∧ isHexPrefix text = false ∧ text.head? = some '0'.toUInt8) := by
  obtain ⟨body, hbody, rfl⟩ := hfollows
  obtain ⟨h0, hhex, h⟩ | ⟨rfl, hhex, hzero, h⟩ | ⟨rfl, hzero, h⟩ | ⟨hlow, hhex, h⟩ :=
    readBase_cases hbase (body ++ s)
  all_goals
    obtain ⟨rfl, rfl⟩ := Prod.mk.inj (hread.symm.trans h)
  · obtain ⟨x, t, htext, hx⟩ := (isHexPrefix_iff _).1 hhex
    cases hbody with
    | hex _ _ hne hds => exact .inr ⟨_, hds, rfl, fun hnil => absurd hnil hne⟩
    | @digits _ ds hlow hne hds =>
      obtain ⟨c, ds, rfl⟩ := exists_cons_of_ne_nil hne
      refine .inl ⟨h0, hhex, ?_⟩
      have ht := (cons.inj htext).2
      exact (eq_of_cons_x hx (by omega) (fun c hc => hds c (.tail _ hc)) ht.symm).trans ht.symm
    | octal hds =>
      have ht := (cons.inj htext).2
      exact .inl ⟨h0, hhex, (eq_of_cons_x hx (by decide) hds ht.symm).trans ht.symm⟩
    | decimal hc _ => exact absurd (cons.inj htext).1 hc
  · cases hbody with
    | hex _ hx _ _ => exact absurd ((isHexPrefix_iff _).2 ⟨_, _, rfl, hx⟩) (Bool.eq_false_iff.1 hhex)
    | digits hlow _ _ => cases hlow
    | octal hds => exact .inr ⟨_, hds, rfl, fun _ => ⟨rfl, hhex, rfl⟩⟩
    | decimal hc _ => exact absurd (by simpa using hzero) hc
  · cases hbody with
    | hex => exact absurd rfl hzero
    | digits hlow _ _ => cases hlow
    | octal => exact absurd rfl hzero
    | decimal _ hds => exact .inr ⟨_, hds, rfl, fun hnil => nomatch hnil⟩
  · cases hbody with
    | hex h0 hx _ _ =>
      have hno := Bool.eq_false_iff.1 (hhex (by omega))
      exact absurd ((isHexPrefix_iff _).2 ⟨_, _, rfl, hx⟩) hno
    | digits _ hne hds => exact .inr ⟨_, hds, rfl, fun hnil => absurd hnil hne⟩
    | octal | decimal => cases hlow

theorem readBase_hex {text : List UInt8} (h0 : base = 0 ∨ base = 16)
    (hhex : isHexPrefix text = true) : readBase base.toNat text = (16, text.drop 2) := by
  obtain ⟨x, t, rfl, -⟩ := (isHexPrefix_iff _).1 hhex
  rcases h0 with rfl | rfl <;> simp [readBase, hhex]

theorem readBase_unsigned (nptr : List UInt8) (base : ℤ) :
    readBase base.toNat (unsigned nptr) = ((scan nptr base).base, (scan nptr base).start) := rfl

theorem Follows.length_le {s : List UInt8} (hbase : ValidBase base)
    (h : Follows base (unsigned nptr) s) : (scan nptr base).rest.length ≤ s.length := by
  rcases h.cases hbase (readBase_unsigned nptr base) with ⟨h0, hhex, rfl⟩ | ⟨ds, hds, hstart, -⟩
  · have hstart : (scan nptr base).start = (unsigned nptr).drop 2 :=
      congrArg Prod.snd (readBase_hex h0 hhex)
    calc (scan nptr base).rest.length ≤ (scan nptr base).start.length :=
          (dropWhile_suffix _).length_le
      _ ≤ (unsigned nptr).tail.length := by
          rw [hstart, length_drop, length_tail]
          omega
  · rw [Scan.rest, hstart]
    exact length_dropWhile_le hds

theorem follows_rest (hbase : ValidBase base) (hdigits : (scan nptr base).digits ≠ []) :
    Follows base (unsigned nptr) (scan nptr base).rest := by
  have hread := readBase_unsigned nptr base
  rw [← Scan.digits_append_rest] at hread
  exact follows_of_readBase hbase hread hdigits fun c hc => mem_takeWhile_imp hc

theorem Scan.digits_eq_nil_iff (r : Scan) :
    r.digits = [] ↔ ∀ c ∈ r.start.head?, isDigitOf r.base c = false := by
  rw [Scan.digits]
  cases r.start with
  | nil => simp
  | cons c s => cases h : isDigitOf r.base c <;> simp [h]

theorem LonePrefix.follows (h : LonePrefix base nptr) :
    Follows base (unsigned nptr) (unsigned nptr).tail := by
  have hoctal : ∀ {text : List UInt8}, text.head? = some '0'.toUInt8 → Follows 0 text text.tail := by
    intro text hhead
    obtain ⟨t, rfl⟩ := head?_eq_some_iff.1 hhead
    exact ⟨['0'.toUInt8], .octal (by simp), rfl⟩
  rcases h with ⟨rfl, hhead, -⟩ | ⟨h0, hhex, -⟩
  · exact hoctal hhead
  · obtain ⟨x, t, htext, -⟩ := (isHexPrefix_iff _).1 hhex
    rcases h0 with rfl | rfl
    · exact hoctal (by rw [htext]; rfl)
    · rw [htext]
      exact ⟨['0'.toUInt8], .digits (by decide) (by decide) (by simp; decide), rfl⟩

theorem readBase_octal {text : List UInt8} (hhead : text.head? = some '0'.toUInt8)
    (hhex : isHexPrefix text = false) : readBase 0 text = (8, text.tail) := by
  simp [readBase, hhead, hhex]

/-- **No digit is read** if a prefix stands alone, or if there is no number. -/
theorem digits_eq_nil_iff (hbase : ValidBase base) (nptr : List UInt8) :
    (scan nptr base).digits = [] ↔
      LonePrefix base nptr ∨ ∀ s, ¬ Follows base (unsigned nptr) s := by
  have hread := readBase_unsigned nptr base
  rw [Scan.digits_eq_nil_iff]
  constructor
  · intro hnone
    by_contra! hnot
    obtain ⟨hlone, s, hs⟩ := hnot
    obtain ⟨h0, hhex, -⟩ | ⟨ds, hds, hstart, hnil⟩ := hs.cases hbase hread
    · rw [readBase_hex h0 hhex, Prod.mk.injEq] at hread
      exact hlone (.inr ⟨h0, hhex, by rw [hread.1, hread.2]; exact hnone⟩)
    · cases ds with
      | nil =>
        obtain ⟨rfl, hhex, hhead⟩ := hnil rfl
        rw [Int.toNat_zero, readBase_octal hhead hhex, Prod.mk.injEq] at hread
        exact hlone (.inl ⟨rfl, hhead, hhex, by rw [hread.1, hread.2]; exact hnone⟩)
      | cons c ds =>
        have hc := hnone c (by rw [hstart]; rfl)
        rw [hds c mem_cons_self] at hc
        cases hc
  · rintro ((⟨rfl, hhead, hhex, hnext⟩ | ⟨h0, hhex, hnext⟩) | hnone)
    · rw [Int.toNat_zero, readBase_octal hhead hhex, Prod.mk.injEq] at hread
      rw [← hread.1, ← hread.2]
      exact hnext
    · rw [readBase_hex h0 hhex, Prod.mk.injEq] at hread
      rw [← hread.1, ← hread.2]
      exact hnext
    · rw [← Scan.digits_eq_nil_iff]
      by_contra hne
      exact hnone _ (follows_rest hbase hne)

theorem strto_endptr (saturated : Bool → BitVec 64) (hbase : ValidBase base)
    (nptr : List UInt8) (hcutoff : ∀ neg, cutoff neg < 2 ^ 64) :
    (strto cutoff saturated nptr base).endptr =
      if (scan nptr base).digits = [] then nptr else (scan nptr base).rest := by
  rw [strto_eq_scan saturated hbase nptr hcutoff]
  dsimp only
  split_ifs <;> rfl

theorem endptr_eq {f : List UInt8 → ℤ → Parsed} (hf : f ∈ [strtol, strtoul, strtoll, strtoull])
    (hbase : ValidBase base) (nptr : List UInt8) :
    (f nptr base).endptr =
      if (scan nptr base).digits = [] then nptr else (scan nptr base).rest := by
  have hsigned : ∀ neg, signedCutoff neg < 2 ^ 64 := fun neg => by cases neg <;> decide
  simp only [mem_cons, not_mem_nil, or_false] at hf
  rcases hf with rfl | rfl | rfl | rfl
  · exact strto_endptr _ hbase nptr hsigned
  · exact strto_endptr _ hbase nptr fun _ => by decide
  · exact strto_endptr _ hbase nptr hsigned
  · exact strto_endptr _ hbase nptr fun _ => by decide

theorem Follows.length_lt {text s : List UInt8} (h : Follows base text s) :
    s.length < text.length := by
  obtain ⟨body, hbody, rfl⟩ := h
  obtain ⟨b, c, hhead, -⟩ := hbody.head
  obtain ⟨t, rfl⟩ := head?_eq_some_iff.1 hhead
  simp only [length_append, length_cons]
  omega

theorem length_unsigned_le (nptr : List UInt8) : (unsigned nptr).length ≤ nptr.length := by
  obtain ⟨sign, -, -, happend⟩ := readSign_append (nptr.dropWhile isBlank)
  calc (unsigned nptr).length ≤ (nptr.dropWhile isBlank).length := by
        conv_rhs => rw [happend, length_append]
        exact Nat.le_add_left _ _
    _ ≤ nptr.length := (dropWhile_suffix _).length_le

/-- **`*endptr` marks the longest number**, unless a prefix stands alone. -/
theorem endptr_isEnd_iff {f : List UInt8 → ℤ → Parsed}
    (hf : f ∈ [strtol, strtoul, strtoll, strtoull]) (hbase : ValidBase base) (nptr : List UInt8) :
    IsEnd base nptr (f nptr base).endptr ↔ ¬ LonePrefix base nptr := by
  rw [endptr_eq hf hbase, isEnd_iff]
  by_cases hdigits : (scan nptr base).digits = []
  · rw [if_pos hdigits]
    have hnotSelf : ¬ Follows base (unsigned nptr) nptr := fun h =>
      absurd h.length_lt (not_lt.2 (length_unsigned_le nptr))
    constructor
    · rintro (⟨hself, -⟩ | ⟨-, hnone⟩) hlone
      · exact hnotSelf hself
      · exact hnone _ hlone.follows
    · intro hlone
      exact .inr ⟨rfl, ((digits_eq_nil_iff hbase nptr).1 hdigits).resolve_left hlone⟩
  · rw [if_neg hdigits]
    have hnot := not_or.1 (mt (digits_eq_nil_iff hbase nptr).2 hdigits)
    exact iff_of_true (.inl ⟨follows_rest hbase hdigits, fun s' hs' => hs'.length_le hbase⟩) hnot.1

/-- In the text `-07`, with no base given, the number ends behind the `7`. -/
theorem endptr_isEnd_octal : IsEnd 0 [45, 48, 55] (strtol [45, 48, 55] 0).endptr :=
  (endptr_isEnd_iff (by simp) (.inl rfl) _).2 (by decide)

/-- The text `0` is a number with no base given, and `strtol` reads nothing of it. -/
theorem not_isEnd_zero : ¬ IsEnd 0 [48] (strtol [48] 0).endptr := by
  have hend : (strtol [48] 0).endptr = [48] := by decide
  rw [hend, isEnd_iff]
  rintro (⟨hself, -⟩ | ⟨-, hnone⟩)
  · exact absurd hself.length_lt (by decide)
  · exact hnone [] ⟨[48], .octal (by simp), by decide⟩

end Vlibc.Stdlib
