import Vlibc.Printf.Integers
import Vlibc.Printf.Truncation
import Vlibc.Stdlib.Strto

/-!
# Integers read back

What `vsnprintf` prints for one integer conversion is read back by `strtoll` or `strtoull` as the
value of the argument: blanks in front are skipped, the sign and the prefix are those the parser
knows, zeros on the left do not count, and the parser stops at the blanks behind. The one condition
is that the length of the number without its padding fits an `int` (`integer_reads_back_iff`).
-/

namespace Vlibc.Printf

open List Option BitVec

open Stdio (toInt)
open Stdlib

variable {c : UInt8} {d base : ℕ}

theorem numberText_parts (d : Directive) (n : Number) : ∃ i j k, numberText d n =
    List.replicate i ' '.toUInt8 ++ (n.lead ++ (List.replicate j '0'.toUInt8 ++
      (n.buf ++ List.replicate k ' '.toUInt8))) := by
  unfold numberText Number.digits
  dsimp only
  generalize d.precision.toNat - n.buf.length = j
  generalize d.width.toNat - (n.lead.length + (List.replicate j '0'.toUInt8 ++ n.buf).length) = pad
  split_ifs
  · exact ⟨0, j, pad, by simp⟩
  · refine ⟨0, pad + j, 0, ?_⟩
    rw [← replicate_append_replicate]
    simp only [List.replicate_zero, nil_append, append_nil, List.append_assoc]
  · exact ⟨pad, j, 0, by simp⟩

theorem digitVal_digit (upper : Bool) (hd : d < 16) : digitVal (digit upper d) = d := by
  have hall : ∀ upper : Bool, ∀ d : Fin 16, digitVal (digit upper d) = d := by decide
  exact hall upper ⟨d, hd⟩

theorem digitVals_digits (upper : Bool) {ds : List ℕ} (hds : ∀ d ∈ ds, d < 16) :
    digitVals (ds.map (digit upper)) = ds := by
  unfold digitVals
  rw [List.map_map]
  refine (map_congr_left fun d hd => ?_).trans (List.map_id ds)
  rw [Function.comp_apply, digitVal_digit upper (hds d hd)]
  rfl

theorem isDigitOf_digit (upper : Bool) (hd : d < base) (hbase : base ≤ 16) :
    isDigitOf base (digit upper d) = true := by
  rw [isDigitOf, digitVal_digit upper (by omega), decide_eq_true_iff]
  omega

theorem isDigitOf_mono (hbase : base ≤ 16) (hc : isDigitOf base c = true) :
    isDigitOf 16 c = true := by
  rw [isDigitOf, decide_eq_true_iff] at hc ⊢
  omega

theorem isDigitOf_zero (hbase : 0 < base) : isDigitOf base '0'.toUInt8 = true := by
  rw [isDigitOf, show digitVal '0'.toUInt8 = 0 by decide, decide_eq_true_iff]
  omega

theorem isBlank_of_isDigitOf (hc : isDigitOf 16 c = true) : isBlank c = false := by
  by_contra hblank
  rw [Bool.not_eq_false, isBlank, decide_eq_true_iff] at hblank
  rcases hblank with rfl | rfl | rfl | rfl | rfl | rfl <;> cases hc

theorem readSign_of_isDigitOf {s : List UInt8} (hs : ∀ c ∈ s.head?, isDigitOf 16 c = true) :
    readSign s = (false, s) := by
  apply if_neg
  rintro (h | h)
  · exact absurd (hs _ h) (by decide)
  · exact absurd (hs _ h) (by decide)

namespace IntSpec

variable (s : IntSpec) (a : BitVec 64)

theorem base_le (c : IntConv) : c.base ≤ 16 := by
  cases c <;> decide

theorem buf_isDigitOf : ∀ c ∈ (s.number a).buf, isDigitOf s.conv.base c = true := by
  intro c hc
  obtain ⟨d, hd, rfl⟩ := List.mem_map.1 hc
  exact isDigitOf_digit _ (lt_of_mem_numeral s.conv.one_lt_base (mem_reverse.1 hd)) (base_le s.conv)

theorem buf_ne_nil : (s.number a).buf ≠ [] := by
  simp [number, digits, numeral_ne_nil]

theorem horner_buf (j : ℕ) :
    horner s.conv.base 0 (digitVals (List.replicate j '0'.toUInt8 ++ (s.number a).buf)) =
      (s.value a).natAbs := by
  have hzero : (digitVal '0'.toUInt8).toNat = 0 := by decide
  have hdigits : digitVals (s.number a).buf = (s.digits a).reverse := by
    refine digitVals_digits _ fun d hd => ?_
    exact (lt_of_mem_numeral s.conv.one_lt_base (mem_reverse.1 hd)).trans_le (base_le s.conv)
  rw [digitVals, map_append, map_replicate, hzero, horner_append, horner_replicate_zero]
  exact (congrArg _ hdigits).trans (horner_numeral _ _)

/-! ## The sign and the prefix -/

theorem isDigitOf_of_head (j : ℕ) (rest : List UInt8) :
    ∀ c ∈ (s.pre a ++ (List.replicate j '0'.toUInt8 ++ ((s.number a).buf ++ rest))).head?,
      isDigitOf 16 c = true := by
  have hpre : ∀ c ∈ (s.pre a).head?, c = '0'.toUInt8 := by
    unfold pre
    cases s.conv with
    | d | u => simp
    | x | X | o =>
      dsimp only
      split <;> simp
  intro c hc
  rw [head?_append, mem_def, or_eq_some_iff] at hc
  rcases hc with hc | ⟨-, hc⟩
  · rw [hpre c hc]
    decide
  · cases j with
    | zero =>
      obtain ⟨b, buf, hbuf⟩ := exists_cons_of_ne_nil (s.buf_ne_nil a)
      rw [hbuf] at hc
      obtain rfl := some.inj hc
      exact isDigitOf_mono (base_le s.conv) (s.buf_isDigitOf a b (hbuf ▸ mem_cons_self))
    | succ j =>
      cases hc
      decide

theorem sign_parts {s₂ : List UInt8} (hs₂ : ∀ c ∈ s₂.head?, isDigitOf 16 c = true) :
    ∃ n s₁, (s.signChar a).toList ++ s₂ = List.replicate n ' '.toUInt8 ++ s₁ ∧
      (∀ c ∈ s₁.head?, isBlank c = false) ∧ readSign s₁ = (decide (s.value a < 0), s₂) := by
  have hplain : ¬ s.value a < 0 →
      (∀ c ∈ s₂.head?, isBlank c = false) ∧ readSign s₂ = (decide (s.value a < 0), s₂) :=
    fun h => ⟨fun c hc => isBlank_of_isDigitOf (hs₂ c hc),
      (readSign_of_isDigitOf hs₂).trans (by rw [decide_eq_false h])⟩
  unfold signChar
  by_cases hd : s.conv = .d
  · rw [if_pos hd, Printf.signChar]
    by_cases hneg : s.value a < 0
    · rw [decide_eq_true hneg]
      refine ⟨0, '-'.toUInt8 :: s₂, rfl, fun c hc => ?_, rfl⟩
      cases hc
      decide
    rw [if_neg (by simpa using hneg)]
    split
    · refine ⟨0, '+'.toUInt8 :: s₂, rfl, fun c hc => ?_, ?_⟩
      · cases hc
        decide
      · rw [decide_eq_false hneg]
        rfl
    · split
      · exact ⟨1, s₂, rfl, hplain hneg⟩
      · exact ⟨0, s₂, rfl, hplain hneg⟩
  · have hneg : ¬ s.value a < 0 := by
      rw [value, if_neg hd]
      omega
    rw [if_neg hd]
    exact ⟨0, s₂, rfl, hplain hneg⟩

theorem isHexPrefix_digits {l : List UInt8} (hl : ∀ c ∈ l, isDigitOf 16 c = true) (hne : l ≠ [])
    (k : ℕ) : isHexPrefix (l ++ List.replicate k ' '.toUInt8) = false := by
  obtain ⟨b, l, rfl⟩ := exists_cons_of_ne_nil hne
  have hsecond : ∀ c ∈ (l ++ List.replicate k ' '.toUInt8).head?,
      isDigitOf 16 c = true ∨ c = ' '.toUInt8 := by
    intro c hc
    rcases mem_append.1 (mem_of_mem_head? hc) with h | h
    · exact .inl (hl c (mem_cons_of_mem b h))
    · exact .inr (eq_of_mem_replicate h)
  rw [isHexPrefix, decide_eq_false_iff_not]
  rintro ⟨-, h | h⟩
  · exact absurd (hsecond _ h) (by decide)
  · exact absurd (hsecond _ h) (by decide)

/-- Behind the prefix, or with the zero that is the octal one, come zeros and the digits. -/
theorem readBase_pre (j k : ℕ) :
    ∃ j', readBase s.conv.base (s.pre a ++ (List.replicate j '0'.toUInt8 ++
        ((s.number a).buf ++ List.replicate k ' '.toUInt8))) =
      (s.conv.base, (List.replicate j' '0'.toUInt8 ++ (s.number a).buf) ++
        List.replicate k ' '.toUInt8) := by
  have hdigits : ∀ c ∈ List.replicate j '0'.toUInt8 ++ (s.number a).buf, isDigitOf 16 c = true := by
    intro c hc
    rcases mem_append.1 hc with h | h
    · rw [eq_of_mem_replicate h]
      decide
    · exact isDigitOf_mono (base_le s.conv) (s.buf_isDigitOf a c h)
  have hhex := isHexPrefix_digits hdigits (by simp [s.buf_ne_nil a]) k
  generalize (s.number a).buf = buf at hhex ⊢
  rw [List.append_assoc] at hhex
  have hplain : ∀ l, isHexPrefix l = false → readBase 16 l = (16, l) := fun l hl => by
    rw [readBase, if_neg (by decide), if_pos rfl, hl]
    rfl
  unfold pre
  simp only [List.append_assoc]
  cases s.conv with
  | d | u => exact ⟨j, rfl⟩
  | x | X =>
    refine ⟨j, ?_⟩
    dsimp only
    split
    · rfl
    · exact hplain _ hhex
  | o =>
    dsimp only
    split
    · exact ⟨j + 1, rfl⟩
    · exact ⟨j, rfl⟩

theorem readsBack_parts {cutoff : Bool → ℕ} {saturated : Bool → BitVec 64} (i j k : ℕ)
    (hcutoff : ∀ neg, cutoff neg < 2 ^ 64)
    (hle : (s.value a).natAbs ≤ cutoff (decide (s.value a < 0))) :
    strto cutoff saturated (List.replicate i ' '.toUInt8 ++ ((s.number a).lead ++
        (List.replicate j '0'.toUInt8 ++ ((s.number a).buf ++ List.replicate k ' '.toUInt8))))
        s.conv.base =
      ⟨if s.value a < 0 then -BitVec.ofNat 64 (s.value a).natAbs
        else BitVec.ofNat 64 (s.value a).natAbs, List.replicate k ' '.toUInt8, none⟩ := by
  obtain ⟨n, s₁, hsplit, hhead, hsign⟩ :=
    s.sign_parts a (s.isDigitOf_of_head a j (List.replicate k ' '.toUInt8))
  obtain ⟨j', hbase⟩ := s.readBase_pre a j k
  have hblanks : ∀ c ∈ List.replicate i ' '.toUInt8 ++ List.replicate n ' '.toUInt8,
      isBlank c = true := by
    rw [replicate_append_replicate]
    intro c hc
    rw [eq_of_mem_replicate hc]
    decide
  have hdigits : ∀ c ∈ List.replicate j' '0'.toUInt8 ++ (s.number a).buf,
      isDigitOf s.conv.base c = true := by
    intro c hc
    rcases mem_append.1 hc with h | h
    · rw [eq_of_mem_replicate h]
      exact isDigitOf_zero (Nat.zero_lt_of_lt s.conv.one_lt_base)
    · exact s.buf_isDigitOf a c h
  have hrest : ∀ c ∈ (List.replicate k ' '.toUInt8).head?, isDigitOf s.conv.base c = false := by
    intro c hc
    rw [eq_of_mem_replicate (mem_of_mem_head? hc)]
    cases s.conv <;> decide
  rw [Number.lead, List.append_assoc, show (s.number a).signChar = s.signChar a from rfl,
    show (s.number a).pre = s.pre a from rfl, hsplit, ← List.append_assoc,
    strto_of_parts hblanks hhead hsign
      ⟨s.conv.one_lt_base, (base_le s.conv).trans (by decide)⟩ hbase hdigits
      (by simp [s.buf_ne_nil a]) hrest (hcutoff _) (by rw [horner_buf]; exact hle), horner_buf]
  simp only [decide_eq_true_eq]

theorem toInt_of_natAbs {v : ℤ} (hlo : -2 ^ 63 ≤ v) (hhi : v < 2 ^ 63) :
    (if v < 0 then -BitVec.ofNat 64 v.natAbs else BitVec.ofNat 64 v.natAbs).toInt = v := by
  have hofInt : (if v < 0 then -BitVec.ofNat 64 v.natAbs else BitVec.ofNat 64 v.natAbs) =
      BitVec.ofInt 64 v := by
    split
    · rw [← ofInt_natCast, ← ofInt_neg]
      congr 1
      omega
    · rw [← ofInt_natCast]
      congr 1
      omega
  rw [hofInt, toInt_ofInt, Int.bmod_eq_of_le (by omega) (by omega)]

/-! ## The round trip -/

/-- The function that reads a number back. -/
def parse (text : List UInt8) : Parsed :=
  if s.conv = .d then strtoll text s.conv.base else strtoull text s.conv.base

/-- The number that it returns. -/
def parsedValue (text : List UInt8) : ℤ :=
  if s.conv = .d then (s.parse text).value.toInt else (s.parse text).value.toNat

/-- The text is read as the value of the argument, and all of it but blanks at its end. -/
structure ReadsBack (text : List UInt8) : Prop where
  value : s.parsedValue text = s.value a
  errno : (s.parse text).errno = none
  suffix : (s.parse text).endptr <:+ text
  blanks : ∀ c ∈ (s.parse text).endptr, c = ' '.toUInt8

/-- The length of the number without its padding: the sign, the prefix and the digits. -/
def bodyLength : ℕ :=
  (s.signChar a).toList.length + (s.pre a).length + max s.spec.precision.toNat (s.digits a).length

variable {s} in
theorem value_nonneg (hd : s.conv ≠ .d) : 0 ≤ s.value a := by
  rw [value, if_neg hd]
  exact Int.natCast_nonneg _

variable {s} in
theorem value_bounds (hd : s.conv = .d) : -2 ^ 63 ≤ s.value a ∧ s.value a < 2 ^ 63 := by
  rw [← s.signed_value a hd]
  exact ⟨le_toInt _, toInt_lt⟩

theorem parse_numberText :
    ∃ k, List.replicate k ' '.toUInt8 <:+
        numberText (s.spec.directive s.conv.byte) (s.number a) ∧
      s.parse (numberText (s.spec.directive s.conv.byte) (s.number a)) =
        ⟨if s.value a < 0 then -BitVec.ofNat 64 (s.value a).natAbs
          else BitVec.ofNat 64 (s.value a).natAbs, List.replicate k ' '.toUInt8, none⟩ := by
  obtain ⟨i, j, k, htext⟩ := numberText_parts (s.spec.directive s.conv.byte) (s.number a)
  refine ⟨k, ?_, ?_⟩
  · rw [htext]
    iterate 4 apply suffix_append_of_suffix
    exact suffix_rfl
  · rw [htext, parse]
    split
    · next hd =>
      obtain ⟨hlo, hhi⟩ := value_bounds a hd
      apply s.readsBack_parts a i j k (by decide)
      unfold signedCutoff
      by_cases hneg : s.value a < 0
      · rw [decide_eq_true hneg, if_pos rfl]
        omega
      · rw [decide_eq_false hneg, if_neg Bool.false_ne_true]
        omega
    · next hd =>
      have hlt : (s.value a).natAbs < 2 ^ 64 := (s.unsigned_value a hd).1 ▸ BitVec.isLt _
      exact s.readsBack_parts a i j k (by decide) (Nat.le_sub_one_of_lt hlt)

theorem numberText_readsBack :
    s.ReadsBack a (numberText (s.spec.directive s.conv.byte) (s.number a)) := by
  obtain ⟨k, hsuffix, hparse⟩ := s.parse_numberText a
  refine ⟨?_, by rw [hparse], hparse ▸ hsuffix, fun c hc => ?_⟩
  · rw [parsedValue, hparse]
    split
    · next hd => exact toInt_of_natAbs (value_bounds a hd).1 (value_bounds a hd).2
    · next hd =>
      have hpos := value_nonneg a hd
      have hlt : (s.value a).natAbs < 2 ^ 64 := (s.unsigned_value a hd).1 ▸ BitVec.isLt _
      rw [if_neg (by omega), toNat_ofNat, Nat.mod_eq_of_lt hlt]
      omega
  · rw [hparse] at hc
    exact eq_of_mem_replicate hc

end IntSpec

/-- **Integer formatting reads back** if and only if the length of the number without its padding
fits in `int`. Then `vsnprintf` returns the larger of that length and the width, and writes a text
that the parser of the conversion reads as the argument, in the type of the length modifier. -/
theorem integer_reads_back_iff (s : IntSpec) (a : BitVec 64) (hfit : s.spec.Fits) :
    (∃ text, (∀ str size, ∃ buf, vsnprintf str size (s.format ++ [0]) [s.length.pass a] =
        some (buf, (text.length : ℤ)) ∧ Truncated str size text buf) ∧
      text.length = max s.spec.width.toNat (s.bodyLength a) ∧ s.ReadsBack a text) ↔
    (s.bodyLength a : ℤ) ≤ INT_MAX := by
  have hlead : (s.number a).lead.length + max s.spec.precision.toNat (s.digits a).length =
      s.bodyLength a := by
    rw [Number.lead, length_append]
    rfl
  have hexp := s.expansion_eq a hfit
  rw [hlead] at hexp
  constructor
  · rintro ⟨text, hrun, -⟩
    obtain ⟨buf, hbuf, -⟩ := hrun (fun _ => 0) 0
    by_contra hlong
    rw [if_neg hlong] at hexp
    rw [vsnprintf, format_eq, hexp] at hbuf
    cases hbuf
  · intro hbody
    rw [if_pos hbody] at hexp
    have hlen : (numberText (s.spec.directive s.conv.byte) (s.number a)).length =
        max s.spec.width.toNat (s.bodyLength a) := by
      rw [length_numberText, ← hlead, show (s.number a).buf.length = (s.digits a).length by
        simp [IntSpec.number]]
      rfl
    have hret : toInt (numberText (s.spec.directive s.conv.byte) (s.number a)).length =
        (numberText (s.spec.directive s.conv.byte) (s.number a)).length := by
      have hwidth := hfit.1
      unfold INT_MAX at hwidth hbody
      exact toInt_of_lt (by rw [hlen]; omega)
    exact ⟨_, fun str size => hret ▸ vsnprintf_truncated str size hexp, hlen,
      s.numberText_readsBack a⟩

/-- `%+05d`. -/
def paddedSpec : IntSpec where
  flags := ['+'.toUInt8, '0'.toUInt8]
  width := ['5'.toUInt8]
  precision := none
  length := .none
  conv := .d
  flagsOk := List.all_eq_true.1 (by decide)
  widthOk := List.all_eq_true.1 (by decide)
  widthHead := by decide
  precisionOk := by decide
  lengthOk := by decide

/-- `%+05d` prints 42 as `+0042`. -/
theorem integer_reads_back_iff_plus :
    ∃ text, (∀ str size, ∃ buf, vsnprintf str size (paddedSpec.format ++ [0]) [.int 42] =
        some (buf, (text.length : ℤ)) ∧ Truncated str size text buf) ∧
      text.length = 5 ∧ paddedSpec.ReadsBack 42 text := by
  obtain ⟨text, hrun, hlen, hback⟩ :=
    (integer_reads_back_iff paddedSpec 42 (by decide)).2 (by decide)
  exact ⟨text, hrun, hlen.trans (by decide), hback⟩

/-- `%+.2147483647d`. -/
def longestSpec : IntSpec where
  flags := ['+'.toUInt8]
  width := []
  precision := some (['2', '1', '4', '7', '4', '8', '3', '6', '4', '7'].map Char.toUInt8)
  length := .none
  conv := .d
  flagsOk := List.all_eq_true.1 (by decide)
  widthOk := List.all_eq_true.1 (by decide)
  widthHead := by decide
  precisionOk := by
    rintro ds ⟨⟩
    exact List.all_eq_true.1 (by decide)
  lengthOk := by decide

/-- The width and the precision fit in `int`, with their sum, but `prefix_total + num_len` does
not. -/
theorem vsnprintf_overflows_length :
    longestSpec.spec.Fits ∧ longestSpec.spec.width + longestSpec.spec.precision ≤ INT_MAX ∧
      ∀ str size, vsnprintf str size (longestSpec.format ++ [0]) [.int 1] = none := by
  have hfit : longestSpec.spec.Fits := by decide +kernel
  refine ⟨hfit, by decide, fun str size => ?_⟩
  have hexp : expansion (longestSpec.format ++ [0]) [.int 1] = none :=
    (longestSpec.expansion_eq 1 hfit).trans (if_neg (by decide))
  rw [vsnprintf, format_eq, hexp]
  rfl

end Vlibc.Printf
