import Vlibc.Printf.Numerals
import Vlibc.Stdio.Stream

/-!
# The formatter of `printf.c`

`vsnprintf_impl`: the scanner of conversion specifications, the conversions, and the layout of
flags, width and precision.

The pointer `p` into the format is the list of bytes from it on, the terminating zero among them, so
a read behind the terminator meets the empty list and has no outcome (`none`). The same holds of an
argument that is missing or of the wrong kind, and of an `int` that overflows.

The formatter is stated for any step `out : σ → UInt8 → σ` in the place of `out_char`, on any state;
the source's own is `Out.char`.
-/

namespace Vlibc.Printf

open Stdio (toInt)

/-- The flags of a conversion specification. -/
structure Flags where
  left : Bool := false
  plus : Bool := false
  spacef : Bool := false
  zero : Bool := false
  alt : Bool := false

/-- The length modifiers. -/
inductive Length
  | none
  | hh
  | h
  | l
  | ll
  | j
  | z
  | t
  | ld
  deriving DecidableEq

/-- A conversion specification, up to and with its conversion character. -/
structure Directive where
  flags : Flags
  width : ℤ
  precision : ℤ
  length : Length
  spec : UInt8

/-- The loop over `-`, `+`, space, `0` and `#`. -/
def scanFlags : Flags → List UInt8 → Option (Flags × List UInt8)
  | _, [] => none
  | f, c :: p =>
    if c = '-'.toUInt8 then scanFlags { f with left := true } p
    else if c = '+'.toUInt8 then scanFlags { f with plus := true } p
    else if c = ' '.toUInt8 then scanFlags { f with spacef := true } p
    else if c = '0'.toUInt8 then scanFlags { f with zero := true } p
    else if c = '#'.toUInt8 then scanFlags { f with alt := true } p
    else some (f, c :: p)

/-- A modifier that may be doubled. -/
def scanDouble (once twice : Length) (c : UInt8) : List UInt8 → Option (Length × List UInt8)
  | [] => none
  | d :: p => if d = c then some (twice, p) else some (once, d :: p)

/-- The length modifier. -/
def scanLength : List UInt8 → Option (Length × List UInt8)
  | [] => none
  | c :: p =>
    if c = 'h'.toUInt8 then scanDouble .h .hh c p
    else if c = 'l'.toUInt8 then scanDouble .l .ll c p
    else if c = 'j'.toUInt8 then some (.j, p)
    else if c = 'z'.toUInt8 then some (.z, p)
    else if c = 't'.toUInt8 then some (.t, p)
    else if c = 'L'.toUInt8 then some (.ld, p)
    else some (.none, c :: p)

/-- The specification behind a `%`, and the bytes behind its conversion character. -/
def scanDirective (p : List UInt8) : Option (Directive × List UInt8) := do
  let (flags, p) ← scanFlags {} p
  let (width, p) ← scanNumber 0 p
  let (precision, p) ← scanDotNumber p
  let (length, p) ← scanLength p
  match p with
  | [] => none
  | spec :: p => some (⟨flags, width, precision, length, spec⟩, p)

/-- An argument, by the way it is passed. -/
inductive Arg
  /-- `int` and `unsigned int`. -/
  | int (v : BitVec 32)
  /-- `long` and the other types of eight bytes. -/
  | long (v : BitVec 64)
  /-- A string, its bytes before the terminator; or `NULL`. -/
  | str (s : Option (List UInt8))
  | ptr (v : BitVec 64)

/-- `va_arg(ap, int)`. -/
def vaInt : List Arg → Option (BitVec 32 × List Arg)
  | .int v :: args => some (v, args)
  | _ => none

/-- `va_arg(ap, long)`. -/
def vaLong : List Arg → Option (BitVec 64 × List Arg)
  | .long v :: args => some (v, args)
  | _ => none

/-- `va_arg(ap, char *)`, with the text for `NULL`. -/
def vaStr : List Arg → Option (List UInt8 × List Arg)
  | .str (some s) :: args => some (s, args)
  | .str none :: args => some (['(', 'n', 'u', 'l', 'l', ')'].map Char.toUInt8, args)
  | _ => none

/-- `va_arg(ap, void *)`. -/
def vaPtr : List Arg → Option (BitVec 64 × List Arg)
  | .ptr v :: args => some (v, args)
  | _ => none

/-- The argument of `%d`, as a `long long`. -/
def vaSigned (length : Length) (args : List Arg) : Option (BitVec 64 × List Arg) :=
  match length with
  | .hh => (vaInt args).map fun (v, args) => ((v.setWidth 8).signExtend 64, args)
  | .h => (vaInt args).map fun (v, args) => ((v.setWidth 16).signExtend 64, args)
  | .none | .ld => (vaInt args).map fun (v, args) => (v.signExtend 64, args)
  | .l | .ll | .j | .z | .t => vaLong args

/-- The argument of `%u`, `%x`, `%X` and `%o`, as an `unsigned long long`. -/
def vaUnsigned (length : Length) (args : List Arg) : Option (BitVec 64 × List Arg) :=
  match length with
  | .hh => (vaInt args).map fun (v, args) => ((v.setWidth 8).setWidth 64, args)
  | .h => (vaInt args).map fun (v, args) => ((v.setWidth 16).setWidth 64, args)
  | .none | .ld => (vaInt args).map fun (v, args) => (v.setWidth 64, args)
  | .l | .ll | .j | .z | .t => vaLong args

/-- A digit. -/
def digit (upper : Bool) (d : ℕ) : UInt8 :=
  if d < 10 then '0'.toUInt8 + UInt8.ofNat d
  else (if upper then 'A' else 'a').toUInt8 + UInt8.ofNat (d - 10)

/-- The digits as they are stored in `tmp`, the last one first; `cap` is the size of `tmp`. -/
def tmpDigits (base : ℕ) (upper : Bool) : (cap value : ℕ) → List UInt8
  | 0, _ => []
  | cap + 1, value =>
    digit upper (value % base) ::
      if value / base = 0 then [] else tmpDigits base upper cap (value / base)

/-- The functions that convert a number to text, by the size of their `tmp`. -/
def toBase (cap value base : ℕ) (upper : Bool) (size : ℕ) : List UInt8 :=
  ((tmpDigits base upper cap value).take size).reverse

/-- `uint_to_base`. -/
def uintToBase (value base : ℕ) (upper : Bool) (size : ℕ) : List UInt8 :=
  toBase 32 value base upper size

/-- `ull_to_base`. -/
def ullToBase (value base : ℕ) (upper : Bool) (size : ℕ) : List UInt8 :=
  toBase 64 value base upper size

/-! ## Conversions -/

/-- What a conversion hands to the layout: `buf`, `prefix` and `sign_char`. -/
structure Number where
  buf : List UInt8
  pre : List UInt8 := []
  signChar : Option UInt8 := none

/-- The sign of a number that is signed. -/
def signChar (f : Flags) (sign : Bool) : Option UInt8 :=
  if sign then some '-'.toUInt8
  else if f.plus then some '+'.toUInt8
  else if f.spacef then some ' '.toUInt8
  else none

/-- The conversions `d`, `u`, `x`, `X`, `o`, `p` and `c`, and no other. -/
def Directive.number (d : Directive) (args : List Arg) : Option (Option (Number × List Arg)) :=
  let f := d.flags
  if d.spec = 'd'.toUInt8 then
    (vaSigned d.length args).map fun (sv, args) =>
      let sign := sv.msb
      let uv := if sign then -sv else sv
      some ({ buf := ullToBase uv.toNat 10 false 64, signChar := signChar f sign }, args)
  else if d.spec = 'u'.toUInt8 then
    (vaUnsigned d.length args).map fun (uv, args) =>
      some ({ buf := ullToBase uv.toNat 10 false 64 }, args)
  else if d.spec = 'x'.toUInt8 ∨ d.spec = 'X'.toUInt8 then
    (vaUnsigned d.length args).map fun (uv, args) =>
      some ({ buf := ullToBase uv.toNat 16 (d.spec = 'X'.toUInt8) 64
              pre := if f.alt ∧ uv ≠ 0 then ['0'.toUInt8, d.spec] else [] }, args)
  else if d.spec = 'o'.toUInt8 then
    (vaUnsigned d.length args).map fun (uv, args) =>
      some ({ buf := ullToBase uv.toNat 8 false 64
              pre := if f.alt ∧ (uv ≠ 0 ∨ d.precision = 0) then ['0'.toUInt8] else [] }, args)
  else if d.spec = 'p'.toUInt8 then
    (vaPtr args).map fun (v, args) =>
      some ({ buf := uintToBase v.toNat 16 false 64, pre := ['0'.toUInt8, 'x'.toUInt8] }, args)
  else if d.spec = 'c'.toUInt8 then
    (vaInt args).map fun (v, args) => some ({ buf := [UInt8.ofNat v.toNat] }, args)
  else some none

section output

variable {σ : Type*} (out : σ → UInt8 → σ)

/-- `out_str`. -/
def outStr (o : σ) (s : List UInt8) : σ := s.foldl out o

/-- `for (int i = 0; i < n; i++) out_char(…, c)`. -/
def outPad (o : σ) (n : ℤ) (c : UInt8) : σ := outStr out o (List.replicate n.toNat c)

/-- The case `s`: cut to the precision, and padded to the width. -/
def putString (o : σ) (d : Directive) (s : List UInt8) : Option σ :=
  let slen :=
    if 0 ≤ d.precision ∧ d.precision.toNat < s.length then d.precision.toNat else s.length
  if toInt slen < d.width then
    match intValue (d.width - toInt slen) with
    | none => none
    | some pad =>
      if d.flags.left then
        let o := outStr out o (s.take slen)
        some (outPad out o pad ' '.toUInt8)
      else
        let o := outPad out o pad (if d.flags.zero then '0' else ' ').toUInt8
        some (outStr out o (s.take slen))
  else some (outStr out o (s.take slen))

/-- The layout behind the `switch`, with what the conversion has left in `buf`, `prefix` and
`sign_char`. -/
def putNumber (o : σ) (d : Directive) (n : Number) : Option σ :=
  let len : ℤ := n.buf.length
  let numLen := if len < d.precision then d.precision else len
  let prefixTotal : ℤ := n.pre.length + if n.signChar.isSome then 1 else 0
  match intValue (prefixTotal + numLen) with
  | none => none
  | some body =>
    let zeroPad :=
      if d.flags.zero ∧ d.precision < 0 ∧ ¬ d.flags.left ∧ body < d.width then d.width - body
      else 0
    let total := body + zeroPad
    let spacesPre := if ¬ d.flags.left ∧ total < d.width then d.width - total else 0
    let spacesPost := if d.flags.left ∧ total < d.width then d.width - total else 0
    let o := outPad out o spacesPre ' '.toUInt8
    let o := outStr out o n.signChar.toList
    let o := outStr out o n.pre
    let o := outPad out o zeroPad '0'.toUInt8
    let o := outPad out o (numLen - len) '0'.toUInt8
    let o := outStr out o n.buf
    some (outPad out o spacesPost ' '.toUInt8)

/-- The case `default`: a `%` and the character, if it is not the terminator. -/
def putOther (o : σ) (spec : UInt8) : σ :=
  let o := out o '%'.toUInt8
  if spec ≠ 0 then out o spec else o

/-- The `switch` over the conversion character, and the layout behind it. The case `s` ends with a
`break` like the others: the layout follows it too, of a number without digits. -/
def convert (o : σ) (d : Directive) (args : List Arg) : Option (σ × List Arg) :=
  if d.spec = 's'.toUInt8 then
    match vaStr args with
    | none => none
    | some (s, args) =>
      ((putString out o d s).bind fun o => putNumber out o d { buf := [] }).map fun o => (o, args)
  else
    match d.number args with
    | none => none
    | some none => some (putOther out o d.spec, args)
    | some (some (n, args)) => (putNumber out o d n).map fun o => (o, args)

/-- The loop of `vsnprintf_impl`. Every round reads at least one byte of the format, so there are
no more rounds than it has bytes. -/
def formatLoop : (fuel : ℕ) → σ → List UInt8 → List Arg → Option σ
  | 0, _, _, _ => none
  | _ + 1, _, [], _ => none
  | fuel + 1, o, c :: p, args =>
    if c = 0 then some o
    else if c ≠ '%'.toUInt8 then formatLoop fuel (out o c) p args
    else if p.head? = some '%'.toUInt8 then formatLoop fuel (out o '%'.toUInt8) p.tail args
    else
      match scanDirective p with
      | none => none
      | some (d, p) =>
        match convert out o d args with
        | none => none
        | some (o, args) => formatLoop fuel o p args

/-- The loop, over a format with its terminator. -/
def format (o : σ) (fmt : List UInt8) (args : List Arg) : Option σ :=
  formatLoop out fmt.length o fmt args

end output

/-- The state `out_char` works on: the memory from `str` on, `size` and `pos`. -/
structure Out where
  dst : ℕ → UInt8
  size : ℕ
  pos : ℕ

/-- `out_char`: beyond the room that is left, only the position moves. -/
def Out.char (o : Out) (c : UInt8) : Out :=
  { o with
    dst := if o.pos + 1 < o.size then Function.update o.dst o.pos c else o.dst
    pos := o.pos + 1 }

/-- The terminator `vsnprintf_impl` stores at the end. -/
def Out.terminate (o : Out) : Out :=
  if 0 < o.size then
    { o with dst := Function.update o.dst (if o.size ≤ o.pos then o.size - 1 else o.pos) 0 }
  else o

/-- `vsnprintf`: the memory from `str` on, and the return value. -/
def vsnprintf (str : ℕ → UInt8) (size : ℕ) (fmt : List UInt8) (args : List Arg) :
    Option ((ℕ → UInt8) × ℤ) :=
  (format Out.char ⟨str, size, 0⟩ fmt args).map fun o => (o.terminate.dst, toInt o.pos)

end Vlibc.Printf
