import Vlibc.Foundations.Positional
import Vlibc.Printf.Meaning

/-!
# Integer conversions

Conversion specifications for `d`, `u`, `x`, `X` and `o`, written out (`IntSpec`): any flags, a
width and a precision in digits, a length modifier. The scanner reads one back as what it says
(`readSpec_tail`), and the digits that are printed are those of the argument's absolute value
(`number_eq`).
-/

namespace Vlibc.Printf

open List Option BitVec

theorem tmpDigits_eq {base cap value : ℕ} (upper : Bool) (hbase : 1 < base)
    (hvalue : value < base ^ (cap + 1)) :
    tmpDigits base upper (cap + 1) value = (numeral base value).map (digit upper) := by
  induction cap generalizing value with
  | zero =>
    have hdiv : value / base = 0 := Nat.div_eq_of_lt (by simpa using hvalue)
    rw [tmpDigits, numeral_eq hbase, if_pos hdiv, if_pos hdiv]
    rfl
  | succ cap ih =>
    have hlt : value / base < base ^ (cap + 1) :=
      Nat.div_lt_of_lt_mul (by rw [mul_comm, ← pow_succ]; exact hvalue)
    rw [tmpDigits, numeral_eq hbase, map_cons, ih hlt]
    split <;> rfl

theorem length_tmpDigits_le (base : ℕ) (upper : Bool) (cap value : ℕ) :
    (tmpDigits base upper cap value).length ≤ cap := by
  induction cap generalizing value with
  | zero => exact le_refl 0
  | succ cap ih =>
    rw [tmpDigits]
    split
    · simp
    · simpa using ih (value / base)

theorem ullToBase_eq {value base : ℕ} (upper : Bool) (hbase : 1 < base) (hvalue : value < 2 ^ 64) :
    ullToBase value base upper 64 = (numeral base value).reverse.map (digit upper) := by
  have hlt : value < base ^ (63 + 1) := hvalue.trans_le (Nat.pow_le_pow_left hbase 64)
  rw [ullToBase, toBase, take_of_length_le (length_tmpDigits_le ..),
    tmpDigits_eq upper hbase hlt, map_reverse]

/-- The conversions of integers. -/
inductive IntConv
  | d
  | u
  | x
  | X
  | o
  deriving DecidableEq

namespace IntConv

/-- The conversion character. -/
def byte : IntConv → UInt8
  | d => 'd'.toUInt8
  | u => 'u'.toUInt8
  | x => 'x'.toUInt8
  | X => 'X'.toUInt8
  | o => 'o'.toUInt8

/-- The base of the digits. -/
def base : IntConv → ℕ
  | d | u => 10
  | x | X => 16
  | o => 8

theorem one_lt_base (c : IntConv) : 1 < c.base := by
  cases c <;> decide

end IntConv

namespace Length

/-- How a length modifier is written. -/
def bytes : Length → List UInt8
  | none => []
  | hh => ['h'.toUInt8, 'h'.toUInt8]
  | h => ['h'.toUInt8]
  | l => ['l'.toUInt8]
  | ll => ['l'.toUInt8, 'l'.toUInt8]
  | j => ['j'.toUInt8]
  | z => ['z'.toUInt8]
  | t => ['t'.toUInt8]
  | ld => ['L'.toUInt8]

/-- The size of the type a length modifier stands for. -/
def bits : Length → ℕ
  | hh => 8
  | h => 16
  | none | ld => 32
  | l | ll | j | z | t => 64

/-- How an argument is passed: what is smaller than an `int` is passed as one. -/
def pass (len : Length) (a : BitVec 64) : Arg :=
  match len with
  | hh | h | none | ld => .int (a.setWidth 32)
  | l | ll | j | z | t => .long a

end Length

/-- A conversion specification for an integer, in characters. A zero at the head of the width would
be a flag. -/
structure IntSpec where
  flags : List UInt8
  width : List UInt8
  precision : Option (List UInt8)
  length : Length
  conv : IntConv
  flagsOk : ∀ c ∈ flags, isFlag c = true
  widthOk : ∀ c ∈ width, isDigit c = true
  widthHead : width.head? ≠ some '0'.toUInt8
  precisionOk : ∀ ds ∈ precision, ∀ c ∈ ds, isDigit c = true
  lengthOk : length ≠ .ld

namespace IntSpec

variable (s : IntSpec) (a : BitVec 64)

/-- What stands behind the precision. -/
def ending : List UInt8 := s.length.bytes ++ [s.conv.byte]

/-- What stands behind the width. -/
def point : List UInt8 :=
  match s.precision with
  | none => s.ending
  | some ds => '.'.toUInt8 :: (ds ++ s.ending)

/-- What stands behind the `%`. -/
def tail : List UInt8 := s.flags ++ (s.width ++ s.point)

/-- The format. -/
def format : List UInt8 := '%'.toUInt8 :: s.tail

/-- What the scanner reads. -/
def spec : Spec :=
  ⟨s.flags.foldl Flags.add {}, decimal 0 s.width,
    match s.precision with
    | none => -1
    | some ds => decimal 0 ds, s.length⟩

/-- The value of the argument, in the type of the length modifier. -/
def value : ℤ :=
  if s.conv = .d then (a.setWidth s.length.bits).toInt else (a.setWidth s.length.bits).toNat

/-- The sign that is printed. -/
def signChar : Option UInt8 :=
  if s.conv = .d then Printf.signChar s.spec.flags (s.value a < 0) else none

/-- The text before the digits. -/
def pre : List UInt8 :=
  match s.conv with
  | .d | .u => []
  | .x | .X => if s.spec.flags.alt ∧ s.value a ≠ 0 then ['0'.toUInt8, s.conv.byte] else []
  | .o => if s.spec.flags.alt ∧ (s.value a ≠ 0 ∨ s.spec.precision = 0) then ['0'.toUInt8] else []

/-- The digits of the absolute value, the last one first. -/
def digits : List ℕ := numeral s.conv.base (s.value a).natAbs

/-- What goes to the layout. -/
def number : Number where
  buf := (s.digits a).reverse.map (digit (s.conv = .X))
  pre := s.pre a
  signChar := s.signChar a

/-! ## The scanner reads the specification -/

variable {s} {c : UInt8}

theorem isFlag_of_isDigit (hc : isDigit c = true) (h0 : c ≠ '0'.toUInt8) : isFlag c = false := by
  by_contra hflag
  rw [Bool.not_eq_false, isFlag, decide_eq_true_iff] at hflag
  rcases hflag with rfl | rfl | rfl | rfl | rfl
  · cases hc
  · cases hc
  · cases hc
  · exact h0 rfl
  · cases hc

theorem ending_head (s : IntSpec) : ∀ c ∈ s.ending.head?,
    isFlag c = false ∧ isDigit c = false ∧ c ≠ '.'.toUInt8 ∧ c ≠ '%'.toUInt8 := by
  unfold ending
  cases s.length <;> cases s.conv <;> rintro c ⟨⟩ <;> decide

theorem point_head (s : IntSpec) : ∀ c ∈ s.point.head?,
    isFlag c = false ∧ isDigit c = false ∧ c ≠ '%'.toUInt8 := by
  unfold point
  cases s.precision with
  | none => exact fun c hc => ⟨(s.ending_head c hc).1, (s.ending_head c hc).2.1,
      (s.ending_head c hc).2.2.2⟩
  | some ds =>
    intro c hc
    cases hc
    decide

theorem width_head (s : IntSpec) : ∀ c ∈ (s.width ++ s.point).head?,
    isFlag c = false ∧ c ≠ '%'.toUInt8 := by
  have hhead := s.widthHead
  have hok := s.widthOk
  intro c hc
  cases hw : s.width with
  | nil =>
    rw [hw] at hc
    exact ⟨(s.point_head c hc).1, (s.point_head c hc).2.2⟩
  | cons d w =>
    rw [hw] at hc hhead hok
    obtain rfl := some.inj hc
    have hd := hok d mem_cons_self
    refine ⟨isFlag_of_isDigit hd fun h => hhead (congrArg some h), ?_⟩
    rintro rfl
    cases hd

theorem tail_head (s : IntSpec) : s.tail.head? ≠ some '%'.toUInt8 := by
  have hok := s.flagsOk
  intro h
  unfold tail at h
  cases hf : s.flags with
  | nil =>
    rw [hf] at h
    exact (s.width_head _ h).2 rfl
  | cons c f =>
    rw [hf] at h hok
    cases h
    exact absurd (hok _ mem_cons_self) (by decide)

theorem readLength_ending (s : IntSpec) : readLength s.ending = (s.length, [s.conv.byte]) := by
  unfold ending
  cases s.length <;> cases s.conv <;> rfl

theorem readPrecision_point (s : IntSpec) :
    readPrecision s.point = (s.spec.precision, s.ending) := by
  have hok := s.precisionOk
  unfold readPrecision point spec
  cases hp : s.precision with
  | none =>
    exact if_neg fun h => (s.ending_head _ h).2.2.1 rfl
  | some ds =>
    obtain ⟨htake, hdrop⟩ := span_append (hok ds hp) fun c hc => (s.ending_head c hc).2.1
    dsimp only [head?_cons, tail_cons]
    rw [htake, hdrop]
    exact if_pos rfl

theorem readSpec_tail (s : IntSpec) : readSpec s.tail = (s.spec, [s.conv.byte]) := by
  obtain ⟨hflags, hrest⟩ := span_append s.flagsOk fun c hc => (s.width_head c hc).1
  obtain ⟨hwidth, hpoint⟩ := span_append s.widthOk fun c hc => (s.point_head c hc).2.1
  simp only [readSpec, tail, hflags, hrest, hwidth, hpoint, readPrecision_point, readLength_ending]
  rfl

theorem pieces_format (s : IntSpec) :
    grammar.pieces s.format = some [.spec s.spec s.conv.byte] := by
  have hpieces := Grammar.pieces_spec (G := grammar) s.tail_head s.readSpec_tail
  rw [Grammar.pieces_nil] at hpieces
  exact hpieces

theorem zero_notMem_format (s : IntSpec) : 0 ∉ s.format := by
  have hflags : 0 ∉ s.flags := fun h => absurd (s.flagsOk 0 h) (by decide)
  have hwidth : 0 ∉ s.width := fun h => absurd (s.widthOk 0 h) (by decide)
  have hending : 0 ∉ s.ending := by
    unfold ending
    cases s.length <;> cases s.conv <;> decide
  have hpoint : 0 ∉ s.point := by
    unfold point
    cases hp : s.precision with
    | none => exact hending
    | some ds =>
      have hds : 0 ∉ ds := fun h => absurd (s.precisionOk ds hp 0 h) (by decide)
      simp [hds, hending, show (0 : UInt8) ≠ '.'.toUInt8 by decide]
  simp [format, tail, hflags, hwidth, hpoint, show (0 : UInt8) ≠ '%'.toUInt8 by decide]

/-! ## The digits that are printed -/

theorem bits_le (len : Length) : len.bits ≤ 64 := by
  cases len <;> decide

theorem vaSigned_pass (len : Length) (a : BitVec 64) :
    vaSigned len [len.pass a] = some ((a.setWidth len.bits).signExtend 64, []) := by
  cases len <;> simp [vaSigned, Length.pass, vaInt, vaLong, Length.bits]

theorem vaUnsigned_pass (len : Length) (a : BitVec 64) :
    vaUnsigned len [len.pass a] = some ((a.setWidth len.bits).setWidth 64, []) := by
  cases len <;> simp [vaUnsigned, Length.pass, vaInt, vaLong, Length.bits]

theorem toNat_abs (v : BitVec 64) : (if v.msb then -v else v).toNat = v.toInt.natAbs := by
  have hlt := v.isLt
  by_cases h : v.msb = true
  · have := toInt_eq_msb_cond v
    rw [if_pos h] at this ⊢
    have hpos : v.toNat ≠ 0 := by
      have := msb_eq_true_iff_two_mul_ge.1 h
      omega
    rw [toNat_neg, this, Nat.mod_eq_of_lt (by omega)]
    omega
  · have := toInt_eq_msb_cond v
    rw [if_neg h] at this ⊢
    omega

theorem signed_value (s : IntSpec) (a : BitVec 64) (hconv : s.conv = .d) :
    ((a.setWidth s.length.bits).signExtend 64).toInt = s.value a := by
  rw [value, if_pos hconv, toInt_signExtend_of_le (bits_le s.length)]

theorem unsigned_value (s : IntSpec) (a : BitVec 64) (hconv : s.conv ≠ .d) :
    ((a.setWidth s.length.bits).setWidth 64).toNat = (s.value a).natAbs ∧
      ((a.setWidth s.length.bits).setWidth 64 = 0#64 ↔ s.value a = 0) := by
  have hnat : ((a.setWidth s.length.bits).setWidth 64).toNat = (s.value a).natAbs := by
    rw [value, if_neg hconv, toNat_setWidth_of_le (bits_le s.length), Int.natAbs_natCast]
  refine ⟨hnat, ?_⟩
  rw [toNat_eq, hnat]
  exact Int.natAbs_eq_zero

/-- **What is handed to the layout** are the digits of the absolute value of the argument. -/
theorem number_eq (s : IntSpec) (a : BitVec 64) :
    (s.spec.directive s.conv.byte).number [s.length.pass a] = some (some (s.number a, [])) := by
  by_cases hd : s.conv = .d
  · have hvalue := s.signed_value a hd
    have habs := toNat_abs ((a.setWidth s.length.bits).signExtend 64)
    rw [hvalue] at habs
    have hlt : (s.value a).natAbs < 2 ^ 64 := habs ▸ BitVec.isLt _
    rw [hd]
    change Option.map _ (vaSigned s.length [s.length.pass a]) = _
    rw [vaSigned_pass, map_some]
    dsimp only
    rw [habs, ullToBase_eq false (by decide) hlt, msb_eq_toInt, hvalue]
    simp [number, digits, pre, signChar, hd, IntConv.base, Spec.directive]
  · obtain ⟨hnat, hzero⟩ := s.unsigned_value a hd
    have hlt : (s.value a).natAbs < 2 ^ 64 := hnat ▸ BitVec.isLt _
    have hupper : ¬ 'x'.toUInt8 = 'X'.toUInt8 := by decide
    cases hconv : s.conv with
    | d => exact absurd hconv hd
    | u | x | X | o =>
      change Option.map _ (vaUnsigned s.length [s.length.pass a]) = _
      rw [vaUnsigned_pass, map_some]
      dsimp only
      rw [hnat, ullToBase_eq _ (by decide) hlt]
      simp [number, digits, pre, signChar, hconv, IntConv.base, IntConv.byte, Spec.directive,
        hzero, hupper]

/-- What is printed: the length without the padding is an `int`, and the format has no outcome if it
overflows. -/
theorem expansion_eq (s : IntSpec) (a : BitVec 64) (hfit : s.spec.Fits) :
    expansion (s.format ++ [0]) [s.length.pass a] =
      if (((s.number a).lead.length + max s.spec.precision.toNat (s.digits a).length : ℕ) : ℤ)
          ≤ INT_MAX then
        some (numberText (s.spec.directive s.conv.byte) (s.number a))
      else none := by
  have hspec : (s.spec.directive s.conv.byte).spec ≠ 's'.toUInt8 := by
    change s.conv.byte ≠ _
    cases s.conv <;> decide
  have hprecision : (s.spec.directive s.conv.byte).precision = s.spec.precision := rfl
  have hbuf : (s.number a).buf.length = (s.digits a).length := by
    simp [number]
  have hscan : s.spec.scanned s.conv.byte = some (s.spec.directive s.conv.byte) := if_pos hfit
  rw [expansion, format_eq_play [] s.zero_notMem_format s.pieces_format, play, hscan,
    bind_some, convert, if_neg hspec, number_eq]
  dsimp only
  rw [putNumber_eq, hbuf, hprecision, nil_append]
  split
  · rfl
  · rfl

end IntSpec

end Vlibc.Printf
