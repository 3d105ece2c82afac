import Vlibc.Ctype
import Vlibc.Printf.ReadBack

/-!
# The scanner of `scanf.c`

`vsscanf_impl`, and the formats that it reads back. White space in a format stands for any white
space of the text, and `%d` skips it once more. With texts that are not digits between the
conversions, what `vsnprintf` prints for `%d` ends where `strtol` stops, so the scanner is at the
same place of the format as the formatter was (`sscanf_snprintf`).

The scanner is stated for any `strtod` and any conversion of a `double` to `float`. `count` is at
most the number of arguments of the call.
-/

namespace Vlibc.Scanf

open Ctype List Option
open Printf
open Printf.IntSpec (toNat_abs toInt_of_natAbs)
open Stdio (toInt)
open Stdlib

/-- What is stored through the pointer of a conversion, by the type of the pointer. -/
inductive Stored (δ φ : Type)
  | int (v : BitVec 32)
  | unsigned (v : BitVec 32)
  | double (v : δ)
  | float (v : φ)
  | str (s : List UInt8)

/-- The pointer into the string, the number of conversions and what has been stored, in the order of
the arguments. -/
structure Scan (δ φ : Type) where
  s : List UInt8
  count : ℕ
  stored : List (Stored δ φ)

/-- White space is passed over. -/
def skipWs (s : List UInt8) : List UInt8 := s.dropWhile isspace

section scanner

variable {δ φ : Type} (strtod : List UInt8 → δ × List UInt8) (toFloat : δ → φ)

/-- A conversion that stores `v` and leaves `s` at `rest`. -/
def Scan.store (st : Scan δ φ) (rest : List UInt8) (v : Stored δ φ) : Scan δ φ :=
  ⟨rest, st.count + 1, st.stored ++ [v]⟩

/-- A conversion; `none` if `vsscanf_impl` returns there. -/
def conversion (longMod : Bool) (c : UInt8) (st : Scan δ φ) : Option (Scan δ φ) :=
  let s := skipWs st.s
  if c = 'd'.toUInt8 then
    let r := strtol s 10
    if r.endptr.length = s.length then none
    else some (st.store r.endptr (.int (r.value.setWidth 32)))
  else if c = 'u'.toUInt8 then
    let r := strtol s 10
    if r.endptr.length = s.length ∨ r.value.toInt < 0 then none
    else some (st.store r.endptr (.unsigned (r.value.setWidth 32)))
  else if c = 'x'.toUInt8 ∨ c = 'X'.toUInt8 then
    let r := strtoul s 16
    if r.endptr.length = s.length then none
    else some (st.store r.endptr (.unsigned (r.value.setWidth 32)))
  else if c = 'o'.toUInt8 then
    let r := strtoul s 8
    if r.endptr.length = s.length then none
    else some (st.store r.endptr (.unsigned (r.value.setWidth 32)))
  else if c ∈ ['f', 'F', 'e', 'E', 'g', 'G'].map Char.toUInt8 then
    let (v, endptr) := strtod s
    if endptr.length = s.length then none
    else some (st.store endptr (if longMod then .double v else .float (toFloat v)))
  else if c = 's'.toUInt8 then
    if s = [] then none
    else some (st.store (s.dropWhile fun c => !isspace c) (.str (s.takeWhile fun c => !isspace c)))
  else if c = '%'.toUInt8 then
    -- without `skip_ws`
    if st.s.head? ≠ some '%'.toUInt8 then none else some { st with s := st.s.tail }
  else none

/-- The loop over the format. Every round reads at least one character of it. -/
def scanLoop : (fuel : ℕ) → Scan δ φ → List UInt8 → Scan δ φ
  | 0, st, _ => st
  | _ + 1, st, [] => st
  | fuel + 1, st, c :: fmt =>
    if isspace c then scanLoop fuel { st with s := skipWs st.s } (fmt.dropWhile isspace)
    else if c ≠ '%'.toUInt8 then
      if st.s.head? ≠ some c then st else scanLoop fuel { st with s := st.s.tail } fmt
    else
      let longMod : Bool := fmt.head? = some 'l'.toUInt8
      match if longMod then fmt.tail else fmt with
      | [] => st
      | c :: fmt =>
        match conversion strtod toFloat longMod c st with
        | none => st
        | some st => scanLoop fuel st fmt

/-- `vsscanf`: the return value, and what is stored. -/
def vsscanf (str fmt : List UInt8) : ℕ × List (Stored δ φ) :=
  let st := scanLoop strtod toFloat fmt.length ⟨str, 0, []⟩ fmt
  (st.count, st.stored)

end scanner

/-- A character between conversions: white space, or an ordinary one that is no digit and no `%`. -/
def isSeparator (c : UInt8) : Bool := c ≠ 0 ∧ isDigitOf 10 c = false ∧ c ≠ '%'.toUInt8

/-- Conversions `%d` with texts before, between and behind them. -/
structure DFormat where
  before : List UInt8
  /-- The text behind each conversion. -/
  behind : List (List UInt8)
  beforeOk : ∀ c ∈ before, isSeparator c = true
  behindOk : ∀ t ∈ behind, ∀ c ∈ t, isSeparator c = true
  /-- Only behind the last one there may be none. -/
  apart : ∀ t ∈ behind.dropLast, t ≠ []

/-- Conversions, each with the text behind it. -/
def conversions (behind : List (List UInt8)) : List UInt8 :=
  behind.flatMap fun t => '%'.toUInt8 :: 'd'.toUInt8 :: t

/-- The format. -/
def DFormat.format (f : DFormat) : List UInt8 := f.before ++ conversions f.behind

/-- A number as `%d` prints it. -/
def intText (v : BitVec 32) : List UInt8 :=
  (if v.toInt < 0 then ['-'.toUInt8] else []) ++
    (numeral 10 v.toInt.natAbs).reverse.map (digit false)

/-- The text from a conversion on. -/
def numbers : List (List UInt8) → List (BitVec 32) → List UInt8
  | t :: behind, v :: vs => intText v ++ (t ++ numbers behind vs)
  | _, _ => []

/-- The input with the numbers printed in their places. -/
def DFormat.text (f : DFormat) (vs : List (BitVec 32)) : List UInt8 :=
  f.before ++ numbers f.behind vs

/-! ## The formatter -/

section printing

variable {t : List UInt8} {args : List Arg}

/-- The specification `%d`. -/
def dSpec : Spec := ⟨{}, 0, -1, .none⟩

theorem text_int (v : BitVec 32) :
    (dSpec.directive 'd'.toUInt8).text (.int v :: args) = some (intText v, args) := by
  have hvalue : (v.signExtend 64).toInt = v.toInt := BitVec.toInt_signExtend_of_le (by decide)
  have habs := toNat_abs (v.signExtend 64)
  have hsign : (v.signExtend 64).msb = decide (v.toInt < 0) := by
    rw [BitVec.msb_eq_toInt, hvalue]
  rw [hvalue] at habs
  have hlt : v.toInt.natAbs < 2 ^ 64 := habs ▸ BitVec.isLt _
  change some (numberText (dSpec.directive 'd'.toUInt8)
    ⟨ullToBase (if (v.signExtend 64).msb then -v.signExtend 64 else v.signExtend 64).toNat 10 false 64,
      [], signChar {} (v.signExtend 64).msb⟩, args) = _
  rw [habs, ullToBase_eq false (by decide) hlt, hsign]
  by_cases hneg : v.toInt < 0 <;>
    simp [numberText, Number.digits, Number.lead, signChar, intText, dSpec, Spec.directive, hneg]

theorem length_intText_le (v : BitVec 32) : (intText v).length ≤ 11 := by
  have hlt : v.toInt.natAbs < 10 ^ 10 := by
    have := v.toInt_lt
    have := v.le_toInt
    omega
  have : (numeral 10 v.toInt.natAbs).length ≤ 10 := length_numeral_le (by decide) (by decide) hlt
  unfold intText
  split <;> simp <;> omega

/-- The pieces of a format print a text, whatever stands before. -/
def Prints (p : List UInt8) (args : List Arg) (text : List UInt8) : Prop :=
  ∃ ps, grammar.pieces p = some ps ∧ ∀ o,
    play snoc (fun o s c args => (s.scanned c).bind fun d => convert snoc o d args) ps o args =
      some (o ++ text)

theorem prints_nil (args : List Arg) : Prints [] args [] :=
  ⟨[], Grammar.pieces_nil, fun o => by rw [play, append_nil]⟩

variable {c : UInt8}

theorem Prints.char {p text : List UInt8} (h : Prints p args text)
    (hc : c ≠ '%'.toUInt8) : Prints (c :: p) args (c :: text) := by
  obtain ⟨ps, hps, hplay⟩ := h
  refine ⟨.char c :: ps, ?_, fun o => ?_⟩
  · rw [Grammar.pieces_char (G := grammar) hc, hps]
    rfl
  · rw [play, hplay, snoc, append_assoc]
    rfl

theorem Prints.separators {p text t : List UInt8} (h : Prints p args text)
    (ht : ∀ c ∈ t, isSeparator c = true) : Prints (t ++ p) args (t ++ text) := by
  induction t with
  | nil => exact h
  | cons c t ih =>
    obtain ⟨hc, ht⟩ := forall_mem_cons.1 ht
    exact (ih ht).char (of_decide_eq_true hc).2.2

theorem Prints.int {p text : List UInt8} (h : Prints p args text) (v : BitVec 32) :
    Prints ('%'.toUInt8 :: 'd'.toUInt8 :: p) (.int v :: args) (intText v ++ text) := by
  obtain ⟨ps, hps, hplay⟩ := h
  have hhead : ('d'.toUInt8 :: p).head? ≠ some '%'.toUInt8 := by
    rw [head?_cons]
    decide
  have hread : grammar.read ('d'.toUInt8 :: p) = (dSpec, 'd'.toUInt8 :: p) := rfl
  refine ⟨.spec dSpec 'd'.toUInt8 :: ps, ?_, fun o => ?_⟩
  · have := Grammar.pieces_spec (G := grammar) hhead hread
    rw [hps] at this
    exact this
  · have hlen : ((intText v).length : ℤ) ≤ INT_MAX := by
      have := length_intText_le v
      unfold INT_MAX
      omega
    have hscanned : dSpec.scanned 'd'.toUInt8 = some (dSpec.directive 'd'.toUInt8) :=
      if_pos (by decide)
    rw [play, hscanned, bind_some, convert_eq o (text_int v) (by decide) hlen,
      bind_some, hplay, append_assoc]

variable {behind : List (List UInt8)} {vs : List (BitVec 32)}

theorem prints_conversions
    (hbehind : ∀ t ∈ behind, ∀ c ∈ t, isSeparator c = true) (hlen : vs.length = behind.length) :
    Prints (conversions behind) (vs.map .int) (numbers behind vs) := by
  induction behind generalizing vs with
  | nil =>
    obtain rfl := length_eq_zero_iff.1 hlen
    exact prints_nil []
  | cons t behind ih =>
    obtain ⟨v, vs, rfl⟩ := exists_cons_of_length_eq_add_one hlen
    obtain ⟨ht, hbehind⟩ := forall_mem_cons.1 hbehind
    exact ((ih hbehind (by simpa using hlen)).separators ht).int v

theorem DFormat.expansion_eq (f : DFormat)
    (hlen : vs.length = f.behind.length) :
    expansion (f.format ++ [0]) (vs.map .int) = some (f.text vs) := by
  obtain ⟨ps, hps, hplay⟩ := (prints_conversions f.behindOk hlen).separators f.beforeOk
  have hz : 0 ∉ f.format := by
    intro hmem
    rcases mem_append.1 hmem with h | h
    · exact absurd (f.beforeOk 0 h) (by decide)
    · obtain ⟨t, ht, h⟩ := mem_flatMap.1 h
      rcases mem_cons.1 h with h | h
      · cases h
      rcases mem_cons.1 h with h | h
      · cases h
      · exact absurd (f.behindOk t ht 0 h) (by decide)
  rw [expansion, format_eq_play [] hz hps, hplay]
  rfl

theorem nul_notMem_intText (v : BitVec 32) : 0 ∉ intText v := by
  have hdigit : ∀ d : Fin 10, digit false d ≠ 0 := by decide
  intro hmem
  rcases mem_append.1 hmem with h | h
  · split at h
    · exact absurd h (by decide)
    · cases h
  · obtain ⟨d, hd, hzero⟩ := List.mem_map.1 h
    exact hdigit ⟨d, lt_of_mem_numeral (by decide) (mem_reverse.1 hd)⟩ hzero

theorem nul_notMem_numbers
    (hbehind : ∀ t ∈ behind, ∀ c ∈ t, isSeparator c = true) (vs : List (BitVec 32)) :
    0 ∉ numbers behind vs := by
  induction behind generalizing vs with
  | nil => exact not_mem_nil
  | cons t behind ih =>
    obtain ⟨ht, hbehind⟩ := forall_mem_cons.1 hbehind
    cases vs with
    | nil => exact not_mem_nil
    | cons v vs =>
      rw [numbers, mem_append, mem_append, not_or, not_or]
      exact ⟨nul_notMem_intText v, fun h => absurd (ht 0 h) (by decide), ih hbehind vs⟩

theorem DFormat.nul_notMem_text (f : DFormat) (vs : List (BitVec 32)) : 0 ∉ f.text vs := by
  rw [DFormat.text, mem_append, not_or]
  exact ⟨fun h => absurd (f.beforeOk 0 h) (by decide), nul_notMem_numbers f.behindOk vs⟩

end printing

/-! ## The scanner -/

section scanning

variable {δ φ : Type} {strtod : List UInt8 → δ × List UInt8} {toFloat : δ → φ} {st st' : Scan δ φ}
  {fmt rest t : List UInt8}

/-- The loop ends with `st'`, if it has the rounds it needs. -/
def Scans (strtod : List UInt8 → δ × List UInt8) (toFloat : δ → φ) (st : Scan δ φ)
    (fmt : List UInt8) (st' : Scan δ φ) : Prop :=
  ∀ fuel, fmt.length ≤ fuel → scanLoop strtod toFloat fuel st fmt = st'

theorem scans_nil (st : Scan δ φ) : Scans strtod toFloat st [] st := by
  intro fuel _
  cases fuel <;> rfl

/-- A text that does not begin with white space. -/
def NoSpace (l : List UInt8) : Prop := ∀ c ∈ l.head?, isspace c = false

theorem dropWhile_append_of_noSpace (t : List UInt8) (h : NoSpace rest) :
    (t ++ rest).dropWhile isspace = t.dropWhile isspace ++ rest := by
  induction t with
  | nil =>
    cases rest with
    | nil => rfl
    | cons c rest => exact dropWhile_cons_of_neg (by simpa using h c rfl)
  | cons c t ih =>
    rw [cons_append, dropWhile_cons, dropWhile_cons]
    split
    · exact ih
    · rfl

/-- Separators that stand in the format and in the text are passed in both. By induction on their
number: a character of white space takes those behind it along, in both. -/
theorem Scans.separators (h : Scans strtod toFloat { st with s := rest } fmt st')
    (hfmt : NoSpace fmt) (hrest : NoSpace rest) (n : ℕ) (t : List UInt8) (hn : t.length ≤ n)
    (ht : ∀ c ∈ t, isSeparator c = true) :
    Scans strtod toFloat { st with s := t ++ rest } (t ++ fmt) st' := by
  induction n generalizing t with
  | zero =>
    obtain rfl := length_eq_zero_iff.1 (Nat.le_zero.1 hn)
    exact h
  | succ n ih =>
    cases t with
    | nil => exact h
    | cons c t =>
      obtain ⟨hc, ht⟩ := forall_mem_cons.1 ht
      rw [length_cons, Nat.add_le_add_iff_right] at hn
      intro fuel hfuel
      rw [cons_append, length_cons] at hfuel
      obtain _ | fuel := fuel
      · omega
      rw [cons_append, cons_append, scanLoop]
      by_cases hspace : isspace c = true
      · have hlen : (t.dropWhile isspace).length ≤ t.length := (dropWhile_suffix _).length_le
        rw [if_pos hspace, skipWs, dropWhile_cons_of_pos hspace,
          dropWhile_append_of_noSpace t hrest, dropWhile_append_of_noSpace t hfmt]
        refine ih (t.dropWhile isspace) (hlen.trans hn)
          (fun c hc => ht c ((dropWhile_suffix _).subset hc)) fuel ?_
        rw [length_append] at hfuel ⊢
        omega
      · rw [if_neg hspace, if_pos (of_decide_eq_true hc).2.2, if_neg (by simp)]
        exact ih t hn ht fuel (by omega)

theorem intText_ne_nil (v : BitVec 32) : intText v ≠ [] := by
  simp [intText, numeral_ne_nil]

theorem isDigitOf_decimal {n : ℕ}
    (hc : c ∈ (numeral 10 n).reverse.map (digit false)) : isDigitOf 10 c = true := by
  obtain ⟨d, hd, rfl⟩ := List.mem_map.1 hc
  exact isDigitOf_digit false (lt_of_mem_numeral (by decide) (mem_reverse.1 hd)) (by decide)

theorem intText_head {v : BitVec 32} (hc : c ∈ (intText v ++ rest).head?) :
    c = '-'.toUInt8 ∨ ∃ d < 10, c = digit false d := by
  rw [head?_append_of_ne_nil _ (intText_ne_nil v)] at hc
  rcases mem_append.1 (mem_of_mem_head? hc) with h | h
  · split at h
    · exact .inl (mem_singleton.1 h)
    · cases h
  · obtain ⟨d, hd, rfl⟩ := List.mem_map.1 h
    exact .inr ⟨d, lt_of_mem_numeral (by decide) (mem_reverse.1 hd), rfl⟩

theorem noSpace_intText (v : BitVec 32) (rest : List UInt8) : NoSpace (intText v ++ rest) := by
  intro c hc
  have hdigit : ∀ d : Fin 10, isspace (digit false d) = false := by decide
  rcases intText_head hc with rfl | ⟨d, hd, rfl⟩
  · decide
  · exact hdigit ⟨d, hd⟩

theorem strtol_intText (v : BitVec 32) (hrest : ∀ c ∈ rest.head?, isDigitOf 10 c = false) :
    strtol (intText v ++ rest) 10 = ⟨v.signExtend 64, rest, none⟩ := by
  have hlo := v.le_toInt
  have hhi := v.toInt_lt
  have hne : (numeral 10 v.toInt.natAbs).reverse.map (digit false) ≠ [] := by
    simp [numeral_ne_nil]
  have hhorner : horner 10 0 (digitVals ((numeral 10 v.toInt.natAbs).reverse.map (digit false))) =
      v.toInt.natAbs := by
    rw [digitVals_digits, horner_numeral]
    intro d hd
    have := lt_of_mem_numeral (b := 10) (by decide) (mem_reverse.1 hd)
    omega
  have hsign : readSign (intText v ++ rest) = (decide (v.toInt < 0),
      (numeral 10 v.toInt.natAbs).reverse.map (digit false) ++ rest) := by
    unfold intText
    by_cases hneg : v.toInt < 0
    · rw [if_pos hneg, decide_eq_true hneg]
      rfl
    · rw [if_neg hneg, decide_eq_false hneg]
      refine readSign_of_isDigitOf fun c hc => ?_
      rw [nil_append, head?_append_of_ne_nil _ hne] at hc
      exact isDigitOf_mono (by decide) (isDigitOf_decimal (mem_of_mem_head? hc))
  have hblank : ∀ c ∈ (intText v ++ rest).head?, isBlank c = false := by
    intro c hc
    rcases intText_head hc with rfl | ⟨d, hd, rfl⟩
    · decide
    · exact isBlank_of_isDigitOf (isDigitOf_digit false (by omega) (by decide))
  have hcutoff : ∀ neg, signedCutoff neg < 2 ^ 64 := by
    intro neg
    cases neg <;> decide
  have hread := @strto_of_parts 10 signedCutoff (fun neg => if neg then .intMin 64 else .intMax 64)
    (decide (v.toInt < 0)) 10 [] _ _ _ _ (forall_mem_nil _) hblank
    hsign (by decide) rfl (fun c hc => isDigitOf_decimal hc) hne hrest (hcutoff _)
    (by rw [hhorner]; unfold signedCutoff; split <;> omega)
  rw [hhorner] at hread
  refine hread.trans ?_
  congr 1
  apply BitVec.eq_of_toInt_eq
  simp only [decide_eq_true_eq]
  rw [toInt_of_natAbs (by omega) (by omega), BitVec.toInt_signExtend_of_le (by decide)]

theorem setWidth_signExtend (v : BitVec 32) : (v.signExtend 64).setWidth 32 = v := by
  ext i hi
  rw [BitVec.getElem_setWidth, BitVec.getLsbD_signExtend]
  simp [hi]
  omega

theorem scanLoop_conversion {fuel : ℕ} (hc : c ≠ 'l'.toUInt8)
    (h : conversion strtod toFloat false c st = some st') :
    scanLoop strtod toFloat (fuel + 1) st ('%'.toUInt8 :: c :: fmt) =
      scanLoop strtod toFloat fuel st' fmt := by
  have hmod : decide ((c :: fmt).head? = some 'l'.toUInt8) = false := by simpa using hc
  rw [scanLoop, if_neg (by decide), if_neg (by decide)]
  rw [hmod]
  simp only [Bool.false_eq_true, if_false, h]

theorem Scans.int {v : BitVec 32} (hrest : ∀ c ∈ rest.head?, isDigitOf 10 c = false)
    (h : Scans strtod toFloat ⟨rest, st.count + 1, st.stored ++ [.int v]⟩ fmt st') :
    Scans strtod toFloat { st with s := intText v ++ rest } ('%'.toUInt8 :: 'd'.toUInt8 :: fmt)
      st' := by
  have hlen : ¬ rest.length = (intText v ++ rest).length := by
    have := length_pos_iff.2 (intText_ne_nil v)
    rw [length_append]
    omega
  have hskip : skipWs (intText v ++ rest) = intText v ++ rest :=
    dropWhile_append_of_noSpace [] (noSpace_intText v rest)
  have hconv : conversion strtod toFloat false 'd'.toUInt8 { st with s := intText v ++ rest } =
      some ⟨rest, st.count + 1, st.stored ++ [.int v]⟩ := by
    rw [conversion, if_pos rfl]
    rw [hskip, strtol_intText v hrest, if_neg hlen, setWidth_signExtend]
    rfl
  intro fuel hfuel
  rw [length_cons, length_cons] at hfuel
  obtain _ | fuel := fuel
  · omega
  rw [scanLoop_conversion (by decide) hconv]
  exact h fuel (by omega)

theorem noSpace_numbers
    (hlen : vs.length = behind.length) : NoSpace (numbers behind vs) := by
  cases behind with
  | nil =>
    obtain rfl := length_eq_zero_iff.1 hlen
    intro c hc
    cases hc
  | cons t behind =>
    obtain ⟨v, vs, rfl⟩ := exists_cons_of_length_eq_add_one hlen
    exact noSpace_intText v _

theorem noSpace_conversions (behind : List (List UInt8)) : NoSpace (conversions behind) := by
  intro c hc
  cases behind with
  | nil => cases hc
  | cons t behind =>
    cases hc
    decide

theorem scans_conversions (st : Scan δ φ)
    (hbehind : ∀ t ∈ behind, ∀ c ∈ t, isSeparator c = true) (hapart : ∀ t ∈ behind.dropLast, t ≠ [])
    (hlen : vs.length = behind.length) :
    Scans strtod toFloat { st with s := numbers behind vs } (conversions behind)
      ⟨[], st.count + vs.length, st.stored ++ vs.map .int⟩ := by
  induction behind generalizing vs st with
  | nil =>
    obtain rfl := length_eq_zero_iff.1 hlen
    rw [length_nil, map_nil, append_nil]
    exact scans_nil { st with s := [] }
  | cons t behind ih =>
    obtain ⟨v, vs, rfl⟩ := exists_cons_of_length_eq_add_one hlen
    obtain ⟨ht, hbehind⟩ := forall_mem_cons.1 hbehind
    rw [length_cons, length_cons, Nat.add_right_cancel_iff] at hlen
    -- a number is followed by the end or by a separator
    have hstop : ∀ c ∈ (t ++ numbers behind vs).head?, isDigitOf 10 c = false := by
      intro c hc
      cases t with
      | nil =>
        cases behind with
        | nil =>
          obtain rfl := length_eq_zero_iff.1 hlen
          cases hc
        | cons t' behind => exact absurd rfl (hapart [] (by simp))
      | cons d t =>
        obtain rfl := some.inj hc
        exact (of_decide_eq_true (ht d mem_cons_self)).2.1
    have hapart : ∀ t ∈ behind.dropLast, t ≠ [] := by
      intro t' ht'
      cases behind with
      | nil => cases ht'
      | cons t'' behind => exact hapart t' (mem_cons_of_mem t ht')
    have hrest := ih ⟨[], st.count + 1, st.stored ++ [.int v]⟩ hbehind hapart hlen
    have hsep := hrest.separators (noSpace_conversions behind) (noSpace_numbers hlen) t.length t
      le_rfl ht
    have hint := Scans.int hstop hsep
    rw [add_assoc, add_comm 1, append_assoc] at hint
    exact hint

end scanning

variable {δ φ : Type}

/-- **Printed integers scan back.** With any texts of white space and ordinary characters, no digits
and no `%`, around and between conversions `%d`, the text that `vsnprintf` leaves in a buffer with
room for it makes `vsscanf` with the same format return the number of the conversions and store the
arguments. -/
theorem sscanf_snprintf (strtod : List UInt8 → δ × List UInt8) (toFloat : δ → φ) (f : DFormat)
    (vs : List (BitVec 32)) (hlen : vs.length = f.behind.length) :
    ∃ o : List UInt8, 0 ∉ o ∧
      (∀ (str : ℕ → UInt8) (size : ℕ), o.length < size →
        ∃ buf, vsnprintf str size (f.format ++ [0]) (vs.map .int) = some (buf, toInt o.length) ∧
          (List.range (o.length + 1)).map buf = o ++ [0]) ∧
      vsscanf strtod toFloat o f.format = (vs.length, vs.map .int) := by
  refine ⟨f.text vs, f.nul_notMem_text vs, fun str size hsize => ?_, ?_⟩
  · obtain ⟨buf, hprint, hbuf⟩ := vsnprintf_truncated str size (f.expansion_eq hlen)
    refine ⟨buf, hprint, ?_⟩
    have hend := hbuf.ended (by omega)
    rw [Nat.min_eq_left (by omega)] at hend
    rw [range_succ, map_append, map_singleton, hend]
    congr 1
    apply ext_getElem (by simp)
    intro i hi hi'
    rw [getElem_map, getElem_range, hbuf.stored i hi' (by omega)]
  · have hconv : Scans strtod toFloat
        { (⟨[], 0, []⟩ : Scan δ φ) with s := numbers f.behind vs } (conversions f.behind) _ :=
      scans_conversions ⟨[], 0, []⟩ f.behindOk f.apart hlen
    have hscan := hconv.separators (noSpace_conversions _) (noSpace_numbers hlen) f.before.length
      f.before le_rfl f.beforeOk f.format.length le_rfl
    rw [Nat.zero_add, nil_append] at hscan
    exact congrArg (fun st => (st.count, st.stored)) hscan

/-- `%d-%d` with `-1` and `-2`, printed as `-1--2`. -/
def dashed : DFormat where
  before := []
  behind := [['-'.toUInt8], []]
  beforeOk := List.forall_mem_nil _
  behindOk := by
    simp only [List.forall_mem_cons, List.not_mem_nil, false_implies, implies_true, and_true]
    decide
  apart := by simp

theorem sscanf_snprintf_dashed :
    [(-1 : BitVec 32), -2].length = dashed.behind.length ∧
    ∃ o : List UInt8, 0 ∉ o ∧
      (∀ (str : ℕ → UInt8) (size : ℕ), o.length < size →
        ∃ buf, vsnprintf str size (dashed.format ++ [0]) ([-1, -2].map .int) =
            some (buf, toInt o.length) ∧
          (List.range (o.length + 1)).map buf = o ++ [0]) ∧
      vsscanf (fun s => ((), s)) id o dashed.format = (2, [-1, -2].map .int) :=
  ⟨rfl, sscanf_snprintf _ id dashed [-1, -2] rfl⟩

end Vlibc.Scanf
