import Vlibc.Printf.Format

/-!
# The formatter of `wprintf.c`

`vswprintf_impl`, the counterpart of `vsnprintf_impl` for `wchar_t`: no flags and no length
modifiers, and blanks on the left as the only padding.

As there, a read behind the terminator, an argument that is missing or of the wrong kind and an
`int` that overflows have no outcome.
-/

namespace Vlibc.Wprintf

open Printf (intValue toBase scanNumber scanDotNumber)
open Stdio (toInt)

/-- A conversion specification, with its conversion character. -/
structure Directive where
  width : ℤ
  precision : ℤ
  spec : UInt32

/-- The specification behind a `%`, and the characters behind its conversion character. -/
def scanDirective (p : List UInt32) : Option (Directive × List UInt32) := do
  let (width, p) ← scanNumber 0 p
  let (precision, p) ← scanDotNumber p
  match p with
  | [] => none
  | spec :: p => some (⟨width, precision, spec⟩, p)

/-- An argument, by the way it is passed. -/
inductive Arg
  | int (v : BitVec 32)
  /-- A wide string, its characters before the terminator; or `NULL`. -/
  | str (s : Option (List UInt32))
  | ptr (v : BitVec 64)

/-- `va_arg(ap, int)`. -/
def vaInt : List Arg → Option (BitVec 32 × List Arg)
  | .int v :: args => some (v, args)
  | _ => none

/-- `va_arg(ap, wchar_t *)`, with the text for `NULL`. -/
def vaStr : List Arg → Option (List UInt32 × List Arg)
  | .str (some s) :: args => some (s, args)
  | .str none :: args => some (['(', 'n', 'u', 'l', 'l', ')'].map Char.val, args)
  | _ => none

/-- `va_arg(ap, void *)`. -/
def vaPtr : List Arg → Option (BitVec 64 × List Arg)
  | .ptr v :: args => some (v, args)
  | _ => none

/-! ## Conversions -/

/-- `wuint_to_base`. -/
def wuintToBase (value base : ℕ) (upper : Bool) (size : ℕ) : List UInt32 :=
  (toBase 32 value base upper size).map UInt8.toUInt32

/-- What a conversion other than `%s` hands to the layout: `buf`, `prefix` and `sign`. -/
structure Number where
  buf : List UInt32
  pre : List UInt32 := []
  sign : Bool := false

/-- The conversions `d`, `u`, `x`, `X`, `o`, `p` and `c`, and no other. -/
def Directive.number (d : Directive) (args : List Arg) : Option (Option (Number × List Arg)) :=
  if d.spec = 'd'.val then
    (vaInt args).map fun (v, args) =>
      some ({ buf := wuintToBase (if v.msb then -v else v).toNat 10 false 64, sign := v.msb }, args)
  else if d.spec = 'u'.val then
    (vaInt args).map fun (v, args) => some ({ buf := wuintToBase v.toNat 10 false 64 }, args)
  else if d.spec = 'x'.val ∨ d.spec = 'X'.val then
    (vaInt args).map fun (v, args) =>
      some ({ buf := wuintToBase v.toNat 16 (d.spec = 'X'.val) 64 }, args)
  else if d.spec = 'o'.val then
    (vaInt args).map fun (v, args) => some ({ buf := wuintToBase v.toNat 8 false 64 }, args)
  else if d.spec = 'p'.val then
    (vaPtr args).map fun (v, args) =>
      some ({ buf := wuintToBase v.toNat 16 false 64, pre := ['0'.val, 'x'.val] }, args)
  else if d.spec = 'c'.val then
    (vaInt args).map fun (v, args) => some ({ buf := [⟨v⟩] }, args)
  else some none

section output

variable {σ : Type*} (out : σ → UInt32 → σ)

/-- `wout_str`. -/
def woutStr (o : σ) (s : List UInt32) : σ := s.foldl out o

/-- `for (int i = 0; i < n; i++) wout_char(…, c)`. -/
def woutPad (o : σ) (n : ℤ) (c : UInt32) : σ := woutStr out o (List.replicate n.toNat c)

/-- The case `s`: cut to the precision, and padded to the width. -/
def putString (o : σ) (d : Directive) (s : List UInt32) : Option σ :=
  let slen :=
    if 0 ≤ d.precision ∧ d.precision.toNat < s.length then d.precision.toNat else s.length
  if 0 < d.width ∧ toInt slen < d.width then
    match intValue (d.width - toInt slen) with
    | none => none
    | some pad => some (woutStr out (woutPad out o pad ' '.val) (s.take slen))
  else some (woutStr out o (s.take slen))

/-- The layout behind the `switch`. -/
def putNumber (o : σ) (d : Directive) (n : Number) : Option σ :=
  let len : ℤ := n.buf.length
  let numLen := if len < d.precision then d.precision else len
  match intValue (n.pre.length + (if n.sign then 1 else 0) + numLen) with
  | none => none
  | some total =>
    let o := if total < d.width then woutPad out o (d.width - total) ' '.val else o
    let o := if n.sign then out o '-'.val else o
    let o := woutStr out o n.pre
    let o := woutPad out o (numLen - len) '0'.val
    some (woutStr out o n.buf)

/-- The case `default`: a `%` and the character, if it is not the terminator. -/
def putOther (o : σ) (spec : UInt32) : σ :=
  let o := out o '%'.val
  if spec ≠ 0 then out o spec else o

/-- The `switch` over the conversion character, and the layout behind it, which follows the case `s`
too. -/
def convert (o : σ) (d : Directive) (args : List Arg) : Option (σ × List Arg) :=
  if d.spec = 's'.val then
    match vaStr args with
    | none => none
    | some (s, args) =>
      ((putString out o d s).bind fun o => putNumber out o d { buf := [] }).map fun o => (o, args)
  else
    match d.number args with
    | none => none
    | some none => some (putOther out o d.spec, args)
    | some (some (n, args)) => (putNumber out o d n).map fun o => (o, args)

/-- The loop of `vswprintf_impl`. Every round reads at least one character of the format. -/
def formatLoop : (fuel : ℕ) → σ → List UInt32 → List Arg → Option σ
  | 0, _, _, _ => none
  | _ + 1, _, [], _ => none
  | fuel + 1, o, c :: p, args =>
    if c = 0 then some o
    else if c ≠ '%'.val then formatLoop fuel (out o c) p args
    else if p.head? = some '%'.val then formatLoop fuel (out o '%'.val) p.tail args
    else
      match scanDirective p with
      | none => none
      | some (d, p) =>
        match convert out o d args with
        | none => none
        | some (o, args) => formatLoop fuel o p args

/-- The loop, over a format with its terminator. -/
def format (o : σ) (fmt : List UInt32) (args : List Arg) : Option σ :=
  formatLoop out fmt.length o fmt args

end output

/-- The state `wout_char` works on: the memory from `str` on, `size` and `pos`. -/
structure Out where
  dst : ℕ → UInt32
  size : ℕ
  pos : ℕ

/-- `wout_char`: beyond the room that is left, only the position moves. -/
def Out.char (o : Out) (c : UInt32) : Out :=
  { o with
    dst := if o.pos + 1 < o.size then Function.update o.dst o.pos c else o.dst
    pos := o.pos + 1 }

/-- The terminator `vswprintf_impl` stores at the end. -/
def Out.terminate (o : Out) : Out :=
  if 0 < o.size then
    { o with dst := Function.update o.dst (if o.size ≤ o.pos then o.size - 1 else o.pos) 0 }
  else o

/-- `vswprintf`: the memory from `str` on, and the return value. -/
def vswprintf (str : ℕ → UInt32) (size : ℕ) (fmt : List UInt32) (args : List Arg) :
    Option ((ℕ → UInt32) × ℤ) :=
  (format Out.char ⟨str, size, 0⟩ fmt args).map fun o => (o.terminate.dst, toInt o.pos)

/-! ## The syntax of wide formats

Formats of `vswprintf` as templates: behind a `%` come a width, a precision and the conversion
character. The scanner of `vswprintf_impl` reads them (`scanDirective_eq`), and takes the terminator
for a conversion character where a format ends inside a specification (`vswprintf_of_inside`). -/

open Option

open Printf (INT_MAX isDigit decimal readPrecision readPrecision_suffix scanNumber_eq
  scanDotNumber_eq within_numbers_iff)

variable {args : List Arg} {p : List UInt32}

/-- A conversion specification without its conversion character. -/
structure Spec where
  width : ℤ
  precision : ℤ

/-- The specification behind a `%`, and the characters from its conversion character on. -/
def readSpec (p : List UInt32) : Spec × List UInt32 :=
  let width := decimal 0 (p.takeWhile isDigit)
  let (precision, p) := readPrecision (p.dropWhile isDigit)
  (⟨width, precision⟩, p)

theorem readSpec_suffix (p : List UInt32) : (readSpec p).2 <:+ p :=
  (readPrecision_suffix _).trans (List.dropWhile_suffix _)

/-- The grammar of wide formats. -/
def grammar : Grammar UInt32 Spec := ⟨'%'.val, readSpec, readSpec_suffix⟩

/-! ## The scanner reads the syntax -/

/-- Width and precision are values of `int`. -/
def Spec.Fits (s : Spec) : Prop := s.width ≤ INT_MAX ∧ s.precision ≤ INT_MAX

instance (s : Spec) : Decidable s.Fits :=
  inferInstanceAs (Decidable (s.width ≤ INT_MAX ∧ s.precision ≤ INT_MAX))

/-- The directive of a specification and a conversion character. -/
def Spec.directive (s : Spec) (c : UInt32) : Directive := ⟨s.width, s.precision, c⟩

theorem scanDirective_eq (p : List UInt32) :
    scanDirective (p ++ [0]) =
      if (readSpec p).1.Fits then
        some ((readSpec p).1.directive ((readSpec p).2.head?.getD 0), ((readSpec p).2 ++ [0]).tail)
      else none := by
  have hwidth := scanNumber_eq (α := UInt32) (le_refl 0) (by decide) p
  have hprec := scanDotNumber_eq (α := UInt32) (p.dropWhile isDigit)
  change scanNumber 0 (p ++ [0]) = _ at hwidth
  change scanDotNumber (p.dropWhile isDigit ++ [0]) = _ at hprec
  unfold scanDirective
  simp only [bind_eq_bind, hwidth]
  by_cases hw : decimal 0 (p.takeWhile isDigit) ≤ INT_MAX
  · rw [if_pos hw, bind_some]
    change (scanDotNumber (p.dropWhile isDigit ++ [0])).bind _ = _
    rw [hprec]
    by_cases hp : (readPrecision (p.dropWhile isDigit)).1 ≤ INT_MAX
    · rw [if_pos hp, if_pos (show (readSpec p).1.Fits from ⟨hw, hp⟩), bind_some, readSpec]
      cases (readPrecision (p.dropWhile isDigit)).2 <;> rfl
    · rw [if_neg hp, if_neg fun h : (readSpec p).1.Fits => hp h.2]
      rfl
  · rw [if_neg hw, if_neg fun h : (readSpec p).1.Fits => hw h.1]
    rfl

theorem formatLoop_eq_interpret {σ : Type*} (out : σ → UInt32 → σ) (fuel : ℕ) (o : σ)
    (p : List UInt32) (args : List Arg) :
    formatLoop out fuel o p args =
      interpret grammar.mark 0 out scanDirective (convert out) fuel o p args := by
  induction fuel generalizing o p args with
  | zero => rfl
  | succ fuel ih =>
    cases p with
    | nil => rfl
    | cons c p =>
      simp only [formatLoop, interpret, ih]
      cases scanDirective p with
      | none => rfl
      | some r =>
        dsimp only
        cases convert out o r.1 args <;> rfl

/-- On a format that ends inside a conversion specification the formatter reads behind the
terminator, whatever the arguments. -/
theorem vswprintf_of_inside {f : List UInt32} (str : ℕ → UInt32) (size : ℕ) (hz : 0 ∉ f)
    (hf : grammar.pieces f = none) : vswprintf str size (f ++ [0]) args = none := by
  rw [vswprintf, format, formatLoop_eq_interpret, interpret_of_inside _ (by decide) hz hf]
  · rfl
  · intro p d r h
    rw [scanDirective_eq] at h
    split at h
    · exact (Prod.mk.inj (some.inj h)).2.symm
    · cases h

/-- Where in the loop of `vswprintf_impl` a character of the format is read. -/
inductive Mode
  | text
  | marked
  | width
  | precision
  | conv
  deriving DecidableEq

/-- The moves of `p`. -/
def scanner : Scanner UInt32 Mode
  | .text, c =>
    if c = 0 then none
    else if c = '%'.val then some (.marked, true)
    else some (.text, true)
  | .marked, c => if c = '%'.val then some (.text, true) else some (.width, false)
  | .width, c =>
    if isDigit c then some (.width, true)
    else if c = '.'.val then some (.precision, true)
    else some (.conv, false)
  | .precision, c => if isDigit c then some (.precision, true) else some (.conv, false)
  | .conv, _ => some (.text, true)

theorem scanner_follows : Follows scanner grammar 0 .text .marked .width .conv where
  mark := by decide
  stop := rfl
  onMark := rfl
  onChar c hz hc := by
    rw [scanner, if_neg hz]
    exact if_neg hc
  onMarks := rfl
  onSpec c hc := if_neg hc
  onLast _ := rfl
  read _ _ _ _ _ hp hb :=
    within_numbers_iff .precision (fun _ => rfl) (fun _ => rfl) hp hb

end Vlibc.Wprintf
